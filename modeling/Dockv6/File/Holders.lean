import Dockv6.File.Descriptors
import Dockv6.Fs.Cache

/-!
# Who holds inodes in memory

An entry of `icache` is held by the processes whose working directory it is, by the open files of it
and by the containers whose root it is. `IcInv e`: the count of an entry is the number of these,
with `e` references of the call that runs. Every call on files other than `copy_file` keeps it.
-/

namespace Dockv6

open Kernel Function

/-- The inode that a file is open on. -/
def File.inode (x : File) : Option Slot :=
  match x.kind with
  | .FD_INODE ip => some ip
  | _ => none

/-- A process that has no working directory: an unused slot or a zombie. -/
def Proc.gone (x : Proc) : Prop := x.state = .UNUSED ∨ x.state = .ZOMBIE

/-- The places that hold inodes: processes, files and containers. -/
abbrev Holder := PIdx ⊕ FIdx ⊕ CIdx

namespace Kernel

/-- The inode that a place holds. -/
def holds (s : Kernel) : Holder → Option Slot
  | .inl p => (s.proc p).cwd
  | .inr (.inl f) => (s.file f).inode
  | .inr (.inr c) => (s.containers c).root

/-- The number of places that hold an entry of `icache`. -/
def held (s : Kernel) (i : Slot) : ℕ := (refs s.holds i).card

theorem held_pos {s : Kernel} {k : Holder} {i : Slot} (h : s.holds k = some i) : 0 < s.held i :=
  card_refs_pos_iff.mpr ⟨k, h⟩

end Kernel

/-- Files that are closed have no type, and what is gone has no working directory. -/
structure HoldOk (s : Kernel) : Prop where
  file : ∀ f, 0 ≤ (s.file f).ref ∧ ((s.file f).ref = 0 → (s.file f).kind = .FD_NONE)
  gone : ∀ p, (s.proc p).gone → (s.proc p).cwd = none

/-- The counts of `icache` are the numbers of holders, with the references `e` of the call that
runs. -/
structure IcInv (e : Slot → ℕ) (s : Kernel) : Prop extends HoldOk s where
  cache : Cached (s.held + e) s.fs

/-! ## What changes no holder -/

theorem wakeups_fs (s : Kernel) (l : List Chan) : (wakeups s l).fs = s.fs := by
  unfold wakeups
  induction l generalizing s with
  | nil => rfl
  | cons c l ih => exact ih _

/-- The same places hold the same inodes. -/
structure HoldSame (s s' : Kernel) : Prop where
  cwd : ∀ p, (s'.proc p).cwd = (s.proc p).cwd
  gone : ∀ p, (s'.proc p).gone → (s.proc p).gone ∨ (s.proc p).cwd = none
  file : s'.file = s.file
  root : ∀ c, (s'.containers c).root = (s.containers c).root

namespace HoldSame

variable {s s' : Kernel} {p : PIdx}

theorem refl (s : Kernel) : HoldSame s s := ⟨fun _ => rfl, fun _ => .inl, rfl, fun _ => rfl⟩

theorem trans {s1 s2 s3 : Kernel} (h : HoldSame s1 s2) (h' : HoldSame s2 s3) : HoldSame s1 s3 where
  cwd p := (h'.cwd p).trans (h.cwd p)
  gone p hp := (h'.gone p hp).elim (h.gone p) fun hcwd => .inr ((h.cwd p).symm.trans hcwd)
  file := h'.file.trans h.file
  root c := (h'.root c).trans (h.root c)

theorem of_proc (hproc : s'.proc = s.proc) (hfile : s'.file = s.file)
    (hcontainers : s'.containers = s.containers) : HoldSame s s' where
  cwd p := by rw [hproc]
  gone p := by
    rw [hproc]
    exact .inl
  file := hfile
  root c := by rw [hcontainers]

theorem setProc {x : Proc} (hcwd : x.cwd = (s.proc p).cwd)
    (hgone : x.gone → (s.proc p).gone ∨ (s.proc p).cwd = none) : HoldSame s (s.setProc p x) := by
  refine { refl s with cwd := setProc_field Proc.cwd hcwd, gone := fun q => ?_ }
  rw [setProc_proc]
  split_ifs with hq
  · rw [hq]
    exact hgone
  · exact .inl

theorem of_setProc {x : Proc} (h : HoldSame (s.setProc p x) s') (hcwd : x.cwd = (s.proc p).cwd)
    (hgone : x.gone → (s.proc p).gone ∨ (s.proc p).cwd = none) : HoldSame s s' :=
  (setProc hcwd hgone).trans h

theorem of_memOnly (h : MemOnly s s') : HoldSame s s' := by
  have hcwd := h.field Proc.cwd fun _ => rfl
  have hgone := h.field Proc.gone fun _ => rfl
  obtain ⟨shm, km, hs⟩ := h.rest
  rw [hs] at hcwd hgone ⊢
  exact { refl s with cwd := hcwd, gone := fun q => .inl ∘ (hgone q).mp }

theorem wakeup1 (s : Kernel) (chan : Option Chan) : HoldSame s (wakeup1 s chan) := by
  have hproc : ∀ q, ((Dockv6.wakeup1 s chan).proc q).cwd = (s.proc q).cwd ∧
      (((Dockv6.wakeup1 s chan).proc q).gone → (s.proc q).gone) := by
    intro q
    unfold Dockv6.wakeup1
    dsimp only
    split_ifs
    · exact ⟨rfl, nofun⟩
    · exact ⟨rfl, id⟩
  exact { refl s with cwd := fun q => (hproc q).1, gone := fun q => .inl ∘ (hproc q).2 }

theorem wakeups (s : Kernel) (l : List Chan) : HoldSame s (wakeups s l) := by
  unfold Dockv6.wakeups
  induction l generalizing s with
  | nil => exact .refl s
  | cons c l ih => exact (wakeup1 s (some c)).trans (ih _)

theorem setContainer {c : CIdx} {x : Container} (hroot : x.root = (s.containers c).root) :
    HoldSame s (s.setContainer c x) := by
  refine { refl s with root := fun c' => ?_ }
  rw [setContainer_containers]
  split_ifs with hc
  · rw [hc]
    exact hroot
  · rfl

theorem holds (h : HoldSame s s') : s'.holds = s.holds := by
  funext k
  rcases k with p | f | c
  · exact h.cwd p
  · exact congrArg (fun g : FIdx → File => (g f).inode) h.file
  · exact h.root c

theorem held (h : HoldSame s s') : s'.held = s.held := by
  funext i
  rw [Kernel.held, h.holds]
  rfl

theorem ok (h : HoldSame s s') (hok : HoldOk s) : HoldOk s' where
  file f := by
    rw [h.file]
    exact hok.file f
  gone p hp := (h.cwd p).trans ((h.gone p hp).elim (hok.gone p) id)

end HoldSame

namespace IcInv

variable {e e' : Slot → ℕ} {s s' : Kernel}

theorem of_same (h : IcInv e s) (hs : HoldSame s s') (hcache : Cached (s.held + e') s'.fs) :
    IcInv e' s' :=
  { hs.ok h.toHoldOk with
    cache := by
      rw [hs.held]
      exact hcache }

theorem same (h : IcInv e s) (hs : HoldSame s s') (hfs : s'.fs = s.fs) : IcInv e s' :=
  h.of_same hs (by
    rw [hfs]
    exact h.cache)

end IcInv

/-! ## One place changes -/

section Update

variable {e : Slot → ℕ} {s s' : Kernel} {k : Holder} {i : Slot}

/-- A place gives up the inode that it holds. -/
theorem held_drop (h : s.holds k = some i) (hs : s'.holds = update s.holds k none) :
    s.held = s'.held + Pi.single i 1 := by
  funext j
  rw [Pi.add_apply, Pi.single_apply, Kernel.held, Kernel.held, hs]
  exact (card_refs_none h j).symm

/-- A place that holds nothing gets an inode. -/
theorem held_give (h : s.holds k = none) (hs : s'.holds = update s.holds k (some i)) :
    s'.held = s.held + Pi.single i 1 := by
  funext j
  rw [Pi.add_apply, Pi.single_apply, Kernel.held, Kernel.held, hs]
  exact card_refs_some h i j

theorem setProc_holds (p : PIdx) (x : Proc) :
    (s.setProc p x).holds = update s.holds (.inl p) x.cwd := by
  funext k
  rcases k with q | f | c
  · by_cases hq : q = p
    · rw [hq, update_self, Kernel.holds, setProc_self]
    · rw [update_of_ne (by simpa using hq), Kernel.holds, setProc_of_ne _ _ _ hq]
      rfl
  · rw [update_of_ne (by simp)]
    rfl
  · rw [update_of_ne (by simp)]
    rfl

theorem setFile_holds (f : FIdx) (x : File) :
    (s.setFile f x).holds = update s.holds (.inr (.inl f)) x.inode := by
  funext k
  rcases k with q | f' | c
  · rw [update_of_ne (by simp)]
    rfl
  · by_cases hf : f' = f
    · rw [hf, update_self, Kernel.holds, setFile_file, if_pos rfl]
    · rw [update_of_ne (by simpa using hf), Kernel.holds, setFile_file, if_neg hf]
      rfl
  · rw [update_of_ne (by simp)]
    rfl

theorem setContainer_holds (c : CIdx) (x : Container) :
    (s.setContainer c x).holds = update s.holds (.inr (.inr c)) x.root := by
  funext k
  rcases k with q | f | c'
  · rw [update_of_ne (by simp)]
    rfl
  · rw [update_of_ne (by simp)]
    rfl
  · by_cases hc : c' = c
    · rw [hc, update_self, Kernel.holds, setContainer_containers, if_pos rfl]
    · rw [update_of_ne (by simpa using hc), Kernel.holds, setContainer_containers, if_neg hc]
      rfl

namespace IcInv

theorem drop (h : IcInv e s) (hok : HoldOk s') (hk : s.holds k = some i)
    (hs : s'.holds = update s.holds k none) (hfs : s'.fs = s.fs) :
    IcInv (e + Pi.single i 1) s' := by
  refine { hok with cache := ?_ }
  rw [hfs]
  refine h.cache.congr ?_
  rw [held_drop hk hs, add_right_comm, add_assoc]

theorem give (h : IcInv (e + Pi.single i 1) s) (hok : HoldOk s') (hk : s.holds k = none)
    (hs : s'.holds = update s.holds k (some i)) (hfs : s'.fs = s.fs) : IcInv e s' := by
  refine { hok with cache := ?_ }
  rw [hfs]
  refine h.cache.congr ?_
  rw [held_give hk hs, add_right_comm, add_assoc]

theorem keep (h : IcInv e s) (hok : HoldOk s') (hs : s'.holds = s.holds) (hfs : s'.fs = s.fs) :
    IcInv e s' := by
  refine { hok with cache := ?_ }
  rw [hfs]
  refine h.cache.congr ?_
  have hheld : s'.held = s.held := by
    funext i
    rw [Kernel.held, hs]
    rfl
  rw [hheld]

end IcInv

/-! ### A file -/

variable {f : FIdx} {x : File}

theorem HoldOk.setFile (h : HoldOk s) (hx : 0 ≤ x.ref ∧ (x.ref = 0 → x.kind = .FD_NONE)) :
    HoldOk (s.setFile f x) := by
  refine { h with file := fun f' => ?_ }
  rw [setFile_file]
  split_ifs
  · exact hx
  · exact h.file f'

/-- A file changes, but not the inode that it is open on. -/
theorem IcInv.setFile (h : IcInv e s) (hinode : x.inode = (s.file f).inode)
    (hx : 0 ≤ x.ref ∧ (x.ref = 0 → x.kind = .FD_NONE)) : IcInv e (s.setFile f x) := by
  refine h.keep (h.toHoldOk.setFile hx) ?_ rfl
  rw [setFile_holds, hinode]
  exact update_eq_self _ _

theorem filealloc_ic {r : Option FIdx} (h : filealloc s = (r, s')) (hinv : IcInv e s) :
    IcInv e s' := by
  obtain ⟨-, rfl⟩ | ⟨f, -, -, rfl⟩ := filealloc_cases h
  · exact hinv
  · exact hinv.setFile rfl ⟨Int.one_nonneg, fun hone => nomatch hone⟩

theorem filedup_ic (h : filedup s f = .ok s') (hinv : IcInv e s) : IcInv e s' := by
  unfold filedup at h
  split_ifs at h with href
  cases h
  refine hinv.setFile (x := { s.file f with ref := (s.file f).ref + 1 }) rfl ⟨?_, fun h0 => ?_⟩
  · simp only
    omega
  · simp only at h0
    omega

/-- A new file becomes the end of a pipe. -/
theorem IcInv.setPipeEnd {page : ℕ} {r w : Bool} (h : IcInv e s)
    (hf : (s.file f).kind = .FD_NONE ∧ (s.file f).ref ≠ 0) :
    IcInv e (s.setFile f { s.file f with kind := .FD_PIPE page, readable := r, writable := w })
    := by
  refine h.setFile ?_ ⟨(h.file f).1, fun h0 => absurd h0 hf.2⟩
  rw [File.inode, File.inode, hf.1]

theorem IcInv.setPipe {f0 f1 : FIdx} {page : ℕ} {m : Kmem} (h : IcInv e s) (hne : f0 ≠ f1)
    (h0 : (s.file f0).kind = .FD_NONE ∧ (s.file f0).ref ≠ 0)
    (h1 : (s.file f1).kind = .FD_NONE ∧ (s.file f1).ref ≠ 0) :
    IcInv e (Kernel.setPipe { s with km := m } f0 f1 page) := by
  let s1 : Kernel :=
    { s with km := m, pipe := update s.pipe page { readopen := true, writeopen := true } }
  have hinv1 : IcInv e s1 := h.same (.of_proc rfl rfl rfl) rfl
  refine IcInv.setPipeEnd (s := s1.setFile f0 _) (hinv1.setPipeEnd h0) ?_
  rw [setFile_file, if_neg hne.symm]
  exact h1

theorem fdalloc_ic {p : PIdx} {r : Option (Fin NOFILE)} (h : fdalloc s p f = (r, s'))
    (hinv : IcInv e s) : IcInv e s' := by
  obtain ⟨-, rfl⟩ | ⟨fd, -, -, rfl⟩ := fdalloc_cases h
  · exact hinv
  · exact hinv.same (.setProc rfl .inl) rfl

theorem pipeclose_ic {page : ℕ} {w : Bool} (h : pipeclose s page w = .ok s') (hinv : IcInv e s) :
    IcInv e s' := by
  obtain ⟨chan, m, rfl, -⟩ := pipeclose_cases h
  exact hinv.same ((HoldSame.wakeup1 s chan).trans (.of_proc rfl rfl rfl)) rfl

theorem fileclose_ic (h : fileclose s f = .ok s') (hinv : IcInv e s) : IcInv e s' := by
  unfold fileclose at h
  dsimp only at h
  split_ifs at h with hlt hgt
  · cases h
    refine hinv.setFile (x := { s.file f with ref := (s.file f).ref - 1 }) rfl ⟨?_, fun h0 => ?_⟩
    · simp only
      omega
    · simp only at h0
      omega
  · let x : File := { s.file f with ref := 0, kind := .FD_NONE }
    have hclosed : (s.file f).inode = none → IcInv e (s.setFile f x) :=
      fun hnone => hinv.setFile hnone.symm ⟨le_rfl, fun _ => rfl⟩
    split at h
    · rename_i page hkind
      exact pipeclose_ic h (hclosed (by rw [File.inode, hkind]))
    · rename_i ip hkind
      cases h
      -- The file gives up the inode, and it is put.
      have hdrop : IcInv (e + Pi.single ip 1) (s.setFile f x) := by
        refine hinv.drop (k := .inr (.inl f))
          (hinv.toHoldOk.setFile ⟨le_rfl, fun _ => rfl⟩) ?_ ?_ rfl
        · show (s.file f).inode = some ip
          rw [File.inode, hkind]
        · rw [setFile_holds]
          rfl
      exact hdrop.of_same (.of_proc rfl rfl rfl) hdrop.cache.iput_add
    · rename_i hkind
      cases h
      exact hclosed (by rw [File.inode, hkind])

/-! ### A working directory -/

/-- The working directory is put, and another one that the call has a reference to takes its
place. -/
theorem IcInv.swapCwd {p : PIdx} {ip cwd : Slot} (h : IcInv (e + Pi.single ip 1) s)
    (hcwd : (s.proc p).cwd = some cwd) :
    IcInv e (({ s with fs := iput s.fs cwd } : Kernel).setProc p
      { s.proc p with cwd := some ip }) := by
  have hgone : ¬ (s.proc p).gone := fun hp => nomatch (h.gone p hp).symm.trans hcwd
  let s1 := s.setProc p { s.proc p with cwd := none }
  have hdrop : s.held = s1.held + Pi.single cwd 1 :=
    held_drop (k := .inl p) hcwd (setProc_holds p _)
  let s2 := ({ s with fs := iput s.fs cwd } : Kernel).setProc p { s.proc p with cwd := some ip }
  have hgive : s2.held = s1.held + Pi.single ip 1 := by
    refine held_give (k := .inl p) ?_ ?_
    · rw [setProc_holds, update_self]
    · rw [setProc_holds, setProc_holds, update_idem]
      rfl
  refine { file := h.file, gone := fun q hq => ?_, cache := ?_ }
  · rw [setProc_proc] at hq ⊢
    split_ifs at hq ⊢
    · exact absurd hq hgone
    · exact h.gone q hq
  · show Cached (s2.held + e) (iput s.fs cwd)
    refine Cached.iput (h.cache.congr ?_)
    rw [hgive, hdrop]
    simp only [add_comm, add_left_comm]

end Update

/-! ## Lookup by a process -/

section Lookup

variable {e : Slot → ℕ} {s s' : Kernel} {p : PIdx} {d : Pgdir} {path : Bytes}

theorem namexProc_cached {par : Bool} {r : Option (Slot × Name)} {fs : Fs}
    (hnull : s.startsNull p path = false) (h : namex (s.pathCtx p) s.fs path par = .ok (r, fs))
    (hcache : Cached (s.held + e) s.fs) : Cached (s.held + withRef e (r.map Prod.fst)) fs := by
  have hpos : ∀ {k i}, s.holds k = some i → 0 < (s.held + e) i :=
    fun hk => Nat.add_pos_left (held_pos hk) _
  have hnamex := hcache.namex (fun r hr => ?_) (fun hslash => ?_) h
  · cases r with
    | none => exact hnamex
    | some r => exact hnamex.congr (add_assoc _ _ _).symm
  · obtain ⟨c, -, hc⟩ := Option.bind_eq_some_iff.mp hr
    exact hpos (k := .inr (.inr c)) hc
  · rw [Kernel.startsNull, if_neg hslash] at hnull
    obtain ⟨i, hi⟩ := Option.isSome_iff_exists.mp (Option.isNone_eq_false_iff.mp hnull)
    simp only [Kernel.pathCtx, hi, Option.getD_some]
    exact hpos (k := .inl p) hi

theorem nameiProc_cached {r : Option Slot} (h : nameiProc s p d path = .ok (r, s'))
    (hcache : Cached (s.held + e) s.fs) : Cached (s.held + withRef e r) s'.fs := by
  obtain ⟨rfl, mem, rfl⟩ | ⟨hnull, r', fs, hnamex, rfl, rfl⟩ := nameiProc_cases h
  · exact hcache
  · exact namexProc_cached hnull hnamex hcache

theorem nameiparentProc_cached {r : Option (Slot × Name)}
    (h : nameiparentProc s p d path = .ok (r, s'))
    (hcache : Cached (s.held + e) s.fs) : Cached (s.held + withRef e (r.map Prod.fst)) s'.fs := by
  obtain ⟨rfl, mem, rfl⟩ | ⟨hnull, fs, hnamex, rfl⟩ := nameiparentProc_cases h
  · exact hcache
  · exact namexProc_cached hnull hnamex hcache

end Lookup

/-! ## Calls on the file system -/

/-- A call has changed the file system alone since the state `c0`, and has the references `e`. -/
def FsRefs (c0 : Ledger) (e : Slot → ℕ) (c : Ledger) : Prop :=
  FsSame c0 c ∧ Cached (c0.s.held + e) c.s.fs

theorem FsSame.holdSame {c c' : Ledger} (h : FsSame c c') : HoldSame c.s c'.s := by
  obtain ⟨fs, mem, b, b', rfl⟩ := h
  exact .of_proc rfl rfl rfl

theorem IcInv.fsRefs {c : Ledger} {e : Slot → ℕ} (h : IcInv e c.s) : FsRefs c e c :=
  ⟨.refl c, h.cache⟩

theorem IcInv.of_fsRefs {c0 c : Ledger} {e e' : Slot → ℕ} (h : IcInv e c0.s) (hc : FsRefs c0 e' c) :
    IcInv e' c.s :=
  h.of_same hc.1.holdSame hc.2

namespace Sys

variable {c0 : Ledger} {e : Slot → ℕ} {p : PIdx} {ip dp : Slot} {name : Name} {path : Bytes}

theorem fsRefs_swap {a b : Slot} (c : Ledger)
    (h : FsRefs c0 (e + Pi.single a 1 + Pi.single b 1) c) :
    FsRefs c0 (e + Pi.single b 1 + Pi.single a 1) c := by
  rwa [add_right_comm]

section Rules

variable {e' : Slot → ℕ} {α : Type}

theorem refs_onFs {f : Fs → Res (α × Fs)} {k : α → Slot → ℕ}
    (hf : ∀ g fs a fs', f fs = .ok (a, fs') → Cached (g + e) fs → Cached (g + k a) fs') :
    Triple (FsRefs c0 e) (onFs f) fun a => FsRefs c0 (k a) := by
  refine triple_onFs fun c a fs h hc => ⟨hc.1.trans ?_, hf _ _ _ _ h hc.2⟩
  exact ⟨fs, c.s.km.mem, c.begun, c.ended, rfl⟩

theorem refs_actFs {f : Fs → Res Fs}
    (hf : ∀ g fs fs', f fs = .ok fs' → Cached (g + e) fs → Cached (g + e') fs') :
    Triple (FsRefs c0 e) (actFs f) fun _ => FsRefs c0 e' := by
  refine triple_actFs fun c fs h hc => ⟨hc.1.trans ?_, hf _ _ _ h hc.2⟩
  exact ⟨fs, c.s.km.mem, c.begun, c.ended, rfl⟩

theorem refs_changeFs {f : Kernel → Fs}
    (hf : ∀ g s, Cached (g + e) s.fs → Cached (g + e') (f s)) :
    Triple (FsRefs c0 e) (change fun s => { s with fs := f s }) fun _ => FsRefs c0 e' := by
  refine triple_change fun c hc => ⟨hc.1.trans ?_, hf _ _ hc.2⟩
  exact ⟨_, c.s.km.mem, c.begun, c.ended, rfl⟩

theorem refs_look {f : Kernel → Res α} : Triple (FsRefs c0 e) (look f) fun _ => FsRefs c0 e :=
  triple_look.post fun _ _ h => h.2

theorem refs_beginOp : Triple (FsRefs c0 e) beginOp fun _ => FsRefs c0 e := by
  rintro c _ c' hrun hc
  refine ⟨hc.1.trans (FsOnly.beginOp _ _ _ hrun), ?_⟩
  cases hrun
  exact hc.2

theorem refs_endOp : Triple (FsRefs c0 e) endOp fun _ => FsRefs c0 e := by
  rintro c _ c' hrun hc
  refine ⟨hc.1.trans (FsOnly.endOp _ _ _ hrun), ?_⟩
  cases hrun
  exact hc.2

theorem refs_pure {a : α} : Triple (FsRefs c0 e) (pure a : Sys α) fun _ => FsRefs c0 e :=
  .pure fun _ => id

theorem refs_ended {a : α} : Triple (FsRefs c0 e) (ended a) fun _ => FsRefs c0 e :=
  refs_endOp.bind fun _ => refs_pure

end Rules

theorem refs_ilock : Triple (FsRefs c0 e) (ilock ip) fun _ => FsRefs c0 e :=
  refs_actFs fun _ _ _ h hc => hc.ilock h

theorem refs_iunlock : Triple (FsRefs c0 e) (iunlock ip) fun _ => FsRefs c0 e :=
  refs_actFs fun _ _ _ h hc => hc.iunlock h

theorem refs_iput : Triple (FsRefs c0 (e + Pi.single ip 1)) (iput ip) fun _ => FsRefs c0 e :=
  refs_changeFs fun _ _ hc => hc.iput_add

theorem refs_iunlockput : Triple (FsRefs c0 (e + Pi.single ip 1)) (iunlockput ip) fun _ =>
    FsRefs c0 e :=
  refs_actFs fun _ _ _ h hc => (hc.congr (add_assoc _ _ _)).iunlockput h

theorem refs_addLink {d : Int} : Triple (FsRefs c0 e) (addLink ip d) fun _ => FsRefs c0 e :=
  refs_changeFs fun _ _ hc => hc.setNlink _ _

theorem refs_dirlink {n : ℕ} : Triple (FsRefs c0 e) (dirlink dp name n) fun _ => FsRefs c0 e :=
  refs_onFs fun _ _ _ _ h hc => hc.dirlink h

theorem refs_dirlookup :
    Triple (FsRefs c0 e) (dirlookup dp name) fun r => FsRefs c0 (withRef e (r.map Prod.fst)) := by
  refine refs_onFs fun g fs r fs' h hc => ?_
  have hlook := hc.dirlookup h
  cases r with
  | none => exact hlook
  | some r => exact hlook.congr (add_assoc _ _ _).symm

theorem refs_namei : Triple (FsRefs c0 e) (namei p path) fun r => FsRefs c0 (withRef e r) := by
  rintro c r c' hrun hc
  have hheld := hc.1.holdSame.held
  refine ⟨hc.1.trans (FsOnly.namei _ _ _ _ _ hrun), ?_⟩
  obtain ⟨d, s, -, h, rfl⟩ := namei_eq_ok hrun
  rw [← hheld]
  exact nameiProc_cached h (by
    rw [hheld]
    exact hc.2)

theorem refs_nameiparent :
    Triple (FsRefs c0 e) (nameiparent p path) fun r => FsRefs c0 (withRef e (r.map Prod.fst)) := by
  rintro c r c' hrun hc
  have hheld := hc.1.holdSame.held
  refine ⟨hc.1.trans (FsOnly.nameiparent _ _ _ _ _ hrun), ?_⟩
  obtain ⟨s, h, rfl⟩ := kernel_eq_ok.mp hrun
  obtain ⟨d, -, h1⟩ := bind_eq_ok.mp h
  rw [← hheld]
  exact nameiparentProc_cached h1 (by
    rw [hheld]
    exact hc.2)

theorem refs_create {type : IType} {major minor : ℕ} :
    Triple (FsRefs c0 e) (create p path type major minor) fun r => FsRefs c0 (withRef e r) := by
  refine triple_opt refs_nameiparent (.pure fun _ => id) fun ⟨dp, name⟩ => ?_
  refine refs_ilock.bind fun _ => refs_dirlookup.bind fun r => ?_
  cases r with
  | none =>
    refine Triple.bind (refs_onFs fun g fs ip fs' h hc => ?_) fun ip => .pure fun _ => id
    exact (Cached.createIn (hc.congr (add_assoc _ _ _)) h).congr (add_assoc _ _ _).symm
  | some r =>
    refine (refs_iunlockput.pre fsRefs_swap).bind fun _ => refs_ilock.bind fun _ =>
      refs_look.bind fun di => ?_
    exact .ite (fun _ => .pure fun _ => id) fun _ => refs_iunlockput.bind fun _ => .pure fun _ => id

theorem refs_mknod {type : IType} {major minor : ℕ} :
    Triple (FsRefs c0 e) (mknod p path type major minor) fun _ => FsRefs c0 e :=
  triple_opt refs_create refs_ended fun _ => refs_iunlockput.bind fun _ => refs_ended

theorem refs_linkBad : Triple (FsRefs c0 (e + Pi.single ip 1)) (linkBad ip) fun _ => FsRefs c0 e :=
  refs_ilock.bind fun _ => refs_addLink.bind fun _ => refs_iunlockput.bind fun _ => refs_ended

theorem refs_linkTo : Triple (FsRefs c0 (e + Pi.single ip 1)) (linkTo p ip path) fun _ =>
    FsRefs c0 e := by
  refine triple_opt refs_nameiparent refs_linkBad fun ⟨dp, name⟩ => ?_
  refine refs_ilock.bind fun _ => refs_look.bind fun n => refs_dirlink.bind fun r =>
    .ite (fun _ => ?_) fun _ => ?_
  · exact refs_iunlockput.bind fun _ => refs_linkBad
  · exact refs_iunlockput.bind fun _ => refs_iput.bind fun _ => refs_ended

theorem refs_link {new : Bytes} : Triple (FsRefs c0 e) (link p path new) fun _ => FsRefs c0 e := by
  refine triple_opt refs_namei refs_ended fun ip => ?_
  refine refs_ilock.bind fun _ => refs_look.bind fun di => .ite (fun _ => ?_) fun _ => ?_
  · exact refs_iunlockput.bind fun _ => refs_ended
  · exact refs_addLink.bind fun _ => refs_iunlock.bind fun _ => refs_linkTo

theorem refs_unlinkBad : Triple (FsRefs c0 (e + Pi.single dp 1)) (unlinkBad dp) fun _ =>
    FsRefs c0 e :=
  refs_iunlockput.bind fun _ => refs_ended

theorem refs_unlinkEntry {off : ℕ} :
    Triple (FsRefs c0 (e + Pi.single dp 1 + Pi.single ip 1)) (unlinkEntry dp ip off) fun _ =>
    FsRefs c0 e := by
  refine refs_look.bind fun di => .ite (fun _ => .throw _) fun _ => .ite (fun _ => ?_) fun _ => ?_
  · exact refs_iunlockput.bind fun _ => refs_unlinkBad
  · refine Triple.bind (refs_actFs fun g fs fs' h hc => ?_) fun _ => refs_ended
    exact Cached.unlinkEntry (hc.congr (by simp only [add_assoc])) h

theorem refs_unlink : Triple (FsRefs c0 e) (unlink p path) fun _ => FsRefs c0 e := by
  refine triple_opt refs_nameiparent refs_ended fun ⟨dp, name⟩ => ?_
  refine refs_ilock.bind fun _ => .ite (fun _ => refs_unlinkBad) fun _ => ?_
  exact triple_opt refs_dirlookup refs_unlinkBad fun ⟨ip, off⟩ => refs_ilock.bind fun _ =>
    refs_unlinkEntry

end Sys

/-! ## Calls on files -/

/-- The invariant of a call that has the references `e`. -/
def Ic (e : Slot → ℕ) (c : Ledger) : Prop := IcInv e c.s

namespace Sys

variable {e : Slot → ℕ} {p : PIdx} {ip : Slot} {f : FIdx} {path : Bytes} {α : Type}

theorem ic_of_refs {x : Sys α} {k : α → Slot → ℕ}
    (h : ∀ c0, Triple (FsRefs c0 e) x fun a => FsRefs c0 (k a)) :
    Triple (Ic e) x fun a => Ic (k a) :=
  fun c a c' hrun hc => hc.of_fsRefs (h c c a c' hrun hc.fsRefs)

theorem ic_kernel {g : Kernel → Res (α × Kernel)}
    (hg : ∀ s a s', g s = .ok (a, s') → IcInv e s → IcInv e s') :
    Triple (Ic e) (kernel g) fun _ => Ic e :=
  triple_kernel fun _ _ _ h hc => hg _ _ _ h hc

theorem ic_act {g : Kernel → Res Kernel} (hg : ∀ s s', g s = .ok s' → IcInv e s → IcInv e s') :
    Triple (Ic e) (act g) fun _ => Ic e :=
  triple_act fun _ _ h hc => hg _ _ h hc

theorem ic_look {g : Kernel → Res α} : Triple (Ic e) (look g) fun _ => Ic e :=
  triple_look.post fun _ _ h => h.2

theorem ic_pure {a : α} : Triple (Ic e) (pure a : Sys α) fun _ => Ic e := .pure fun _ => id

theorem ic_endOp : Triple (Ic e) endOp fun _ => Ic e := ic_of_refs fun _ => refs_endOp

theorem ic_beginOp : Triple (Ic e) beginOp fun _ => Ic e := ic_of_refs fun _ => refs_beginOp

theorem ic_ilock : Triple (Ic e) (ilock ip) fun _ => Ic e := ic_of_refs fun _ => refs_ilock

theorem ic_iunlock : Triple (Ic e) (iunlock ip) fun _ => Ic e := ic_of_refs fun _ => refs_iunlock

theorem ic_fileclose : Triple (Ic e) (fileclose f) fun _ => Ic e :=
  fun _ _ _ hrun hc => fileclose_ic (fileclose_eq_ok hrun) hc

theorem ic_openBad : Triple (Ic (e + Pi.single ip 1)) (openBad ip) fun _ => Ic e :=
  ic_of_refs fun _ => refs_iunlockput.bind fun _ => refs_ended

theorem ic_openFile {omode : ℕ} : Triple (Ic (e + Pi.single ip 1)) (openFile p ip omode) fun _ =>
    Ic e := by
  rintro c r c' h hinv
  obtain ⟨c1, halloc, h1⟩ | ⟨f, c1, halloc, h1⟩ := opt_eq_ok.mp h
  all_goals
    obtain ⟨s1, hs1, rfl⟩ := kernel_eq_ok.mp halloc
    have hinv1 := filealloc_ic (Except.ok.inj hs1) hinv
  · exact ic_openBad _ _ _ h1 hinv1
  obtain ⟨c2, hfd, h2⟩ | ⟨fd, c2, hfd, h2⟩ := opt_eq_ok.mp h1
  all_goals
    obtain ⟨s2, hs2, rfl⟩ := kernel_eq_ok.mp hfd
    have hinv2 := fdalloc_ic (Except.ok.inj hs2) hinv1
  · obtain ⟨_, c3, hclose, h3⟩ := run_bind_eq_ok.mp h2
    exact ic_openBad _ _ _ h3 (ic_fileclose _ _ _ hclose hinv2)
  -- The file was closed, so it is open on no inode.
  have hfile : s2.file f = { c.s.file f with ref := 1 } ∧ (c.s.file f).kind = .FD_NONE := by
    obtain ⟨hr, -⟩ | ⟨_, hr, href, rfl⟩ := filealloc_cases (Except.ok.inj hs1)
    · cases hr
    cases hr
    obtain ⟨hr, -⟩ | ⟨_, -, -, rfl⟩ := fdalloc_cases (Except.ok.inj hs2)
    · cases hr
    refine ⟨?_, (hinv.file f).2 href⟩
    show (c.s.setFile f _).file f = _
    rw [setFile_file, if_pos rfl]
  obtain ⟨_, c3, hunlock, h3⟩ := run_bind_eq_ok.mp h2
  obtain ⟨_, c4, hend, h4⟩ := run_bind_eq_ok.mp h3
  have hinv4 := ic_endOp _ _ _ hend (ic_iunlock _ _ _ hunlock hinv2)
  have hfile4 : c4.s.file = s2.file :=
    ((FsOnly.actFs _ _ _ _ hunlock).trans (FsOnly.endOp _ _ _ hend)).holdSame.file
  obtain ⟨_, c5, hset, h5⟩ := run_bind_eq_ok.mp h4
  cases hset
  cases h5
  refine hinv4.give (k := .inr (.inl f)) (hinv4.toHoldOk.setFile ?_) ?_ ?_ rfl
  · rw [hfile4, hfile.1]
    exact ⟨Int.one_nonneg, fun hone => nomatch hone⟩
  · show (c4.s.file f).inode = none
    rw [hfile4, hfile.1, File.inode, hfile.2]
  · rw [setFile_holds]
    rfl

theorem ic_openPath {omode : ℕ} : Triple (Ic e) (openPath p path omode) fun _ => Ic e := by
  refine .ite (fun _ => ?_) fun _ => ?_
  · exact triple_opt (ic_of_refs fun _ => refs_create) (ic_of_refs fun _ => refs_ended) fun _ =>
      ic_openFile
  · refine triple_opt (ic_of_refs fun _ => refs_namei) (ic_of_refs fun _ => refs_ended) fun ip => ?_
    exact ic_ilock.bind fun _ => ic_look.bind fun di =>
      .ite (fun _ => ic_openBad) fun _ => ic_openFile

theorem ic_dup : Triple (Ic e) (dup p f) fun _ => Ic e := by
  refine triple_opt (ic_kernel fun s r s' h => fdalloc_ic (Except.ok.inj h)) ic_pure fun fd => ?_
  exact (ic_act fun _ _ => filedup_ic).bind fun _ => ic_pure

theorem ic_pipealloc : Triple (Ic e) pipealloc fun _ => Ic e := by
  rintro c r c' h hinv
  obtain ⟨f0, c1, hf0, h1⟩ := run_bind_eq_ok.mp h
  obtain ⟨s1, hs1, rfl⟩ := kernel_eq_ok.mp hf0
  have hinv1 := filealloc_ic (Except.ok.inj hs1) hinv
  obtain ⟨rfl, -⟩ | ⟨f0, rfl, href0, rfl⟩ := filealloc_cases (Except.ok.inj hs1)
  · cases h1
    exact hinv1
  obtain ⟨f1, c2, hf1, h2⟩ := run_bind_eq_ok.mp h1
  obtain ⟨s2, hs2, rfl⟩ := kernel_eq_ok.mp hf1
  have hinv2 := filealloc_ic (Except.ok.inj hs2) hinv1
  obtain ⟨rfl, -⟩ | ⟨f1, rfl, href1, rfl⟩ := filealloc_cases (Except.ok.inj hs2)
  · exact (ic_fileclose.bind fun _ => ic_pure) _ _ _ h2 hinv2
  obtain ⟨page, c3, hpage, h3⟩ := run_bind_eq_ok.mp h2
  obtain ⟨s3, hs3, rfl⟩ := kernel_eq_ok.mp hpage
  dsimp only at hs3
  split at hs3
  · cases hs3
    exact (ic_fileclose.bind fun _ => ic_fileclose.bind fun _ => ic_pure) _ _ _ h3 hinv2
  · cases hs3
    obtain ⟨_, c4, hset, h4⟩ := run_bind_eq_ok.mp h3
    cases hset
    cases h4
    obtain ⟨hne, hf0, hf1⟩ :=
      filealloc_two (Except.ok.inj hs1) (Except.ok.inj hs2) fun f => (hinv.file f).2
    exact hinv2.setPipe hne hf0 hf1

theorem ic_pipe {addr : ℕ} : Triple (Ic e) (pipe p addr) fun _ => Ic e := by
  have hboth : ∀ rf wf, Triple (Ic e) (do
      fileclose rf
      fileclose wf
      return (-1 : Int)) fun _ => Ic e :=
    fun rf wf => ic_fileclose.bind fun _ => ic_fileclose.bind fun _ => ic_pure
  refine triple_opt ic_pipealloc ic_pure fun ⟨rf, wf⟩ => ?_
  refine triple_opt (ic_kernel fun s r s' h => fdalloc_ic (Except.ok.inj h))
    (hboth rf wf) fun fd0 => ?_
  refine triple_opt (ic_kernel fun s r s' h => fdalloc_ic (Except.ok.inj h)) ?_ fun fd1 => ?_
  · refine Triple.bind (triple_change fun c hc => ?_) fun _ => hboth rf wf
    exact IcInv.same hc (.setProc rfl .inl) rfl
  · refine (ic_act fun s s' h hs => ?_).bind fun _ => ic_pure
    obtain ⟨d, -, h1⟩ := bind_eq_ok.mp h
    obtain ⟨mem, -, h2⟩ := bind_eq_ok.mp h1
    obtain ⟨mem', -, h3⟩ := bind_eq_ok.mp h2
    cases h3
    exact hs.same (.of_proc rfl rfl rfl) rfl

theorem ic_close {fd : Fin NOFILE} : Triple (Ic e) (close p fd f) fun _ => Ic e := by
  refine Triple.bind (triple_change fun c hc => ?_) fun _ => ic_fileclose.bind fun _ => ic_pure
  exact IcInv.same hc (.setProc rfl .inl) rfl

/-! ### Reading and writing -/

theorem transfer_ic {t : Transfer} {s s' : Kernel} {r : Int} (h : t.run s = .ok (r, s'))
    (hs : IcInv e s) : IcInv e s' := by
  obtain ⟨mem, l, rfl⟩ := t.mem_only s r s' h
  have hmem : HoldSame s (s.setMem mem) := .of_proc rfl rfl rfl
  exact hs.same (hmem.trans (.wakeups _ l)) (wakeups_fs _ l)

theorem ic_advance {off : ℕ} {r : Int} : Triple (Ic e) (advance f off r) fun _ => Ic e := by
  refine .ite (fun _ => triple_change fun c hc => ?_) fun _ => ic_pure
  exact IcInv.setFile hc rfl (hc.file f)

theorem ic_fileread {t : Transfer} {addr n : ℕ} :
    Triple (Ic e) (fileread p t f addr n) fun _ => Ic e := by
  refine ic_look.bind fun x => .ite (fun _ => ic_pure) fun _ => ?_
  cases x.kind with
  | FD_NONE => exact .throw _
  | FD_PIPE page => exact ic_kernel fun _ _ _ => transfer_ic
  | FD_INODE ip =>
    refine ic_ilock.bind fun _ => Triple.bind (ic_kernel fun s r s' h hs => ?_) fun r =>
      ic_advance.bind fun _ => ic_iunlock.bind fun _ => ic_pure
    split_ifs at h
    · exact transfer_ic h hs
    · split at h
      · cases h
        exact hs
      · obtain ⟨d, -, h1⟩ := bind_eq_ok.mp h
        obtain ⟨mem, -, h2⟩ := bind_eq_ok.mp h1
        cases h2
        exact hs.same (.of_proc rfl rfl rfl) rfl

theorem ic_writeInode {t : Transfer} {addr off n : ℕ} :
    Triple (Ic e) (writeInode p t ip addr off n) fun _ => Ic e := by
  refine ic_kernel fun s r s' h hs => ?_
  split_ifs at h
  · exact transfer_ic h hs
  · obtain ⟨d, -, h1⟩ := bind_eq_ok.mp h
    obtain ⟨bs, -, h2⟩ := bind_eq_ok.mp h1
    split at h2
    · cases h2
      exact hs
    · rename_i node hnode
      cases h2
      exact hs.of_same (.of_proc rfl rfl rfl) (hs.cache.setDinode (writei_ne_free hnode))

theorem ic_writeRounds {t : Transfer} {addr n fuel i : ℕ} :
    Triple (Ic e) (writeRounds p t f ip addr n fuel i) fun _ => Ic e := by
  induction fuel generalizing i with
  | zero => exact ic_pure
  | succ fuel ih =>
    refine .ite (fun _ => ?_) fun _ => ic_pure
    refine ic_beginOp.bind fun _ => ic_ilock.bind fun _ => ic_look.bind fun off =>
      ic_writeInode.bind fun r => ?_
    refine ic_advance.bind fun _ => ic_iunlock.bind fun _ => ic_endOp.bind fun _ => ?_
    exact .ite (fun _ => ic_pure) fun _ => .ite (fun _ => .throw _) fun _ => ih

theorem ic_filewrite {t : Transfer} {addr n : ℕ} :
    Triple (Ic e) (filewrite p t f addr n) fun _ => Ic e := by
  refine ic_look.bind fun x => .ite (fun _ => ic_pure) fun _ => ?_
  cases x.kind with
  | FD_NONE => exact .throw _
  | FD_PIPE page => exact ic_kernel fun _ _ _ => transfer_ic
  | FD_INODE ip => exact ic_writeRounds.bind fun _ => ic_pure

theorem ic_filestat {st : ℕ} : Triple (Ic e) (filestat p f st) fun _ => Ic e := by
  refine ic_look.bind fun x => ?_
  cases x.kind with
  | FD_NONE => exact ic_pure
  | FD_PIPE page => exact ic_pure
  | FD_INODE ip =>
    refine ic_ilock.bind fun _ => Triple.bind (ic_act fun s s' h hs => ?_) fun _ =>
      ic_iunlock.bind fun _ => ic_pure
    obtain ⟨d, -, h1⟩ := bind_eq_ok.mp h
    obtain ⟨mem, -, h2⟩ := bind_eq_ok.mp h1
    cases h2
    exact hs.same (.of_proc rfl rfl rfl) rfl

/-! ### Working directories -/

theorem ic_chdir : Triple (Ic e) (chdir p path) fun _ => Ic e := by
  refine triple_opt (ic_of_refs fun _ => refs_namei) (ic_of_refs fun _ => refs_ended) fun ip => ?_
  refine ic_ilock.bind fun _ => ic_look.bind fun di => .ite (fun _ => ?_) fun _ => ?_
  · exact ic_of_refs fun _ => refs_iunlockput.bind fun _ => refs_ended
  · refine ic_iunlock.bind fun _ => triple_look.bind fun cwd => ?_
    cases cwd with
    | none => exact .throw _
    | some cwd =>
      rintro c r c' hrun ⟨hcwd, hc⟩
      cases hrun
      exact IcInv.swapCwd hc (Except.ok.inj hcwd)

end Sys

end Dockv6
