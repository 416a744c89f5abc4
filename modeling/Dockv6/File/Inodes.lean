import Dockv6.File.Holders
import Dockv6.Kernel.SysCall

/-!
# The counts of inodes in memory

The count of an entry of `icache` is the number of its holders in every run without `copy_file`,
which keeps the references that it looks up, and in which `cm_create_and_enter` and `cm_setroot`
overwrite no pointer to an inode (`inode_accounting`).
-/

namespace Dockv6

open Kernel

variable {e : Slot → ℕ} {s s' : Kernel} {p np : PIdx} {d : Pgdir}

/-! ## Calls that hold nothing -/

theorem kill_holdSame (s : Kernel) (cur : PIdx) (pid : Int) : HoldSame s (kill s cur pid).2 := by
  obtain h | ⟨q, mux, h⟩ := kill_cases s cur pid
  · rw [h]
    exact .refl s
  · rw [h]
    refine .of_setProc (.of_proc rfl rfl rfl) rfl fun hgone => .inl ?_
    unfold Proc.gone at hgone ⊢
    dsimp only at hgone
    split_ifs at hgone
    · simp at hgone
    · exact hgone

theorem wait_holdSame {r : Option Int} (h : wait s p = .ok (r, s')) :
    HoldSame s s' ∧ s'.fs = s.fs := by
  obtain ⟨q, page, d, m, m', c, hq, -, -, -, -, hroot, rfl⟩ | rfl | rfl := wait_cases h
  · have hfreed : HoldSame s (s.setProc q (s.proc q).freed) :=
      .setProc rfl fun _ => .inl (.inr (zombieChild_eq_some hq).2)
    exact ⟨⟨hfreed.cwd, hfreed.gone, rfl, hroot⟩, rfl⟩
  · exact ⟨.refl _, rfl⟩
  · exact ⟨.setProc rfl nofun, rfl⟩

theorem MutexOnly.holdSame (h : MutexOnly p s s') : HoldSame s s' ∧ s'.fs = s.fs := by
  obtain ⟨mux, f, rfl⟩ := h
  exact ⟨.of_setProc (.of_proc rfl rfl rfl) rfl .inl, rfl⟩

/-! ## Processes come and go -/

theorem closeFiles_ic {fds : List (Fin NOFILE)} (h : closeFiles p fds s = .ok s')
    (hinv : IcInv e s) : IcInv e s' := by
  induction fds generalizing s with
  | nil =>
    cases h
    exact hinv
  | cons fd fds ih =>
    rw [closeFiles] at h
    split at h
    · exact ih h hinv
    · obtain ⟨s1, hclose, h1⟩ := bind_eq_ok.mp h
      exact ih h1 ((fileclose_ic hclose hinv).same (.setProc rfl .inl) rfl)

theorem reparent_holdSame (s : Kernel) (p : PIdx) : HoldSame s (reparent s p) := by
  have hproc : ∀ q, ((reparent s p).proc q).cwd = (s.proc q).cwd ∧
      ((reparent s p).proc q).state = (s.proc q).state := by
    intro q
    unfold reparent
    dsimp only
    split_ifs <;> exact ⟨rfl, rfl⟩
  refine ⟨fun q => (hproc q).1, fun q hq => .inl ?_, rfl, fun _ => rfl⟩
  unfold Proc.gone at hq ⊢
  rwa [(hproc q).2] at hq

theorem exit_ic (h : exit s p = .ok s') (hinv : IcInv e s) : IcInv e s' := by
  obtain ⟨-, s1, s2, s3, cwd, hclose, hshm, hs3, hcwd, rfl⟩ := exit_steps h
  have hinv1 := closeFiles_ic hclose hinv
  have hmem := exitShm_memOnly hshm
  have hinv2 : IcInv e s2 := hinv1.same (.of_memOnly hmem) (by
    obtain ⟨shm, km, hs⟩ := hmem.rest
    rw [hs])
  have hmutexes := (exitMutexes_mutexOnly s2 p).holdSame
  rw [hs3] at hmutexes
  have hinv3 := hinv2.same hmutexes.1 hmutexes.2
  -- The working directory is put; a process without one may be a zombie.
  let s4 := s3.setProc p { s3.proc p with cwd := none }
  have hok : HoldOk s4 := by
    refine ⟨hinv3.file, fun q hq => ?_⟩
    rw [setProc_proc] at hq ⊢
    split_ifs at hq ⊢
    · rfl
    · exact hinv3.gone q hq
  have hinv4 : IcInv (e + Pi.single cwd 1) s4 :=
    hinv3.drop (k := .inl p) hok hcwd (setProc_holds p _) rfl
  let s5 : Kernel := { s4 with fs := iput s3.fs cwd }
  have hinv5 : IcInv e s5 := hinv4.of_same (.of_proc rfl rfl rfl) hinv4.cache.iput_add
  have hpassed := (HoldSame.wakeup1 s5 ((s5.proc p).parent.map .proc)).trans (reparent_holdSame _ p)
  obtain ⟨s6, hend, hs6⟩ := exitEnd_eq s5 p
  have hsame : HoldSame s5 s6 ∧ s6.fs = s5.fs := by
    obtain rfl | ⟨chan, rfl⟩ := hs6
    · exact ⟨hpassed, rfl⟩
    · exact ⟨hpassed.trans (.wakeup1 _ _), rfl⟩
  have hnone : (s6.proc p).cwd = none := (hsame.1.cwd p).trans (by simp [s5, s4])
  show IcInv e (exitEnd s5 p)
  rw [hend]
  exact (hinv5.same hsame.1 hsame.2).same (.setProc rfl fun _ => .inr hnone) rfl

/-- Working directories and states are the same. -/
def SameCwd (s s' : Kernel) : Prop :=
  ∀ q, (s'.proc q).cwd = (s.proc q).cwd ∧ (s'.proc q).state = (s.proc q).state

theorem SameCwd.trans {s1 s2 s3 : Kernel} (h : SameCwd s1 s2) (h' : SameCwd s2 s3) :
    SameCwd s1 s3 :=
  fun q => ⟨(h' q).1.trans (h q).1, (h' q).2.trans (h q).2⟩

theorem SameCwd.setProc {x : Proc} (hcwd : x.cwd = (s.proc p).cwd)
    (hstate : x.state = (s.proc p).state) : SameCwd s (s.setProc p x) :=
  fun q => ⟨setProc_field Proc.cwd hcwd q, setProc_field Proc.state hstate q⟩

theorem dupFiles_ic {fds : List (Fin NOFILE)} (h : dupFiles p np fds s = .ok s')
    (hinv : IcInv e s) : IcInv e s' ∧ SameCwd s s' := by
  induction fds generalizing s with
  | nil =>
    cases h
    exact ⟨hinv, fun _ => ⟨rfl, rfl⟩⟩
  | cons fd fds ih =>
    rw [dupFiles] at h
    split at h
    · exact ih h hinv
    · rename_i f _
      obtain ⟨s1, hdup, h1⟩ := bind_eq_ok.mp h
      have hinv1 := filedup_ic hdup hinv
      obtain ⟨file, rfl⟩ := filedup_eq_ok hdup
      obtain ⟨hinv2, hcwd⟩ := ih h1 (hinv1.same (.setProc rfl .inl) rfl)
      have hset : SameCwd s (({ s with file := file } : Kernel).setFd np fd (some f)) :=
        SameCwd.setProc (s := { s with file := file }) rfl rfl
      exact ⟨hinv2, hset.trans hcwd⟩

theorem forkShmRounds_memOnly {is : List ShmIdx} (h : forkShmRounds p np d is s = .ok s') :
    MemOnly s s' := by
  induction is generalizing s with
  | nil =>
    cases h
    exact .refl _
  | cons i is ih =>
    obtain ⟨s1, h1, h2⟩ := bind_eq_ok.mp h
    refine MemOnly.trans ?_ (ih h2)
    unfold forkShmem at h1
    dsimp only at h1
    split at h1
    · cases h1
      exact .of_setProc (.of_setShm (.refl _)) rfl
    · obtain ⟨mem, -, hret⟩ := bind_eq_ok.mp h1
      cases hret
      exact .of_setProc (.setMem _ mem) rfl

theorem forkShm_memOnly (h : forkShm s p np d = .ok s') : MemOnly s s' := by
  unfold forkShm at h
  split_ifs at h
  · cases h
    exact .refl s
  · exact forkShmRounds_memOnly h

theorem MemOnly.ic (h : MemOnly s s') (hinv : IcInv e s) : IcInv e s' := by
  refine hinv.same (.of_memOnly h) ?_
  obtain ⟨shm, km, hs⟩ := h.rest
  rw [hs]

/-- `idup` takes a reference to an inode that somebody holds. -/
theorem idupPtr_ic {o : Option Slot} (h : idupPtr s d o = .ok s') (hinv : IcInv e s)
    (ho : ∀ i, o = some i → 0 < s.held i) :
    IcInv (withRef e o) s' ∧ s'.proc = s.proc ∧ s'.containers = s.containers := by
  unfold idupPtr at h
  split at h
  · rename_i i
    cases h
    refine ⟨hinv.of_same (.of_proc rfl rfl rfl) ?_, rfl, rfl⟩
    exact (hinv.cache.idup (Nat.add_pos_left (ho i rfl) _)).congr (add_assoc _ _ _).symm
  · obtain ⟨mem, -, h1⟩ := bind_eq_ok.mp h
    cases h1
    exact ⟨hinv.same (.of_proc rfl rfl rfl) rfl, rfl, rfl⟩

/-- A process without a working directory gets one. -/
theorem IcInv.setCwd {o : Option Slot} (h : IcInv (withRef e o) s) (hcwd : (s.proc p).cwd = none)
    (hp : ¬ (s.proc p).gone) : IcInv e (s.setProc p { s.proc p with cwd := o }) := by
  have hok : HoldOk (s.setProc p { s.proc p with cwd := o }) := by
    refine ⟨h.file, fun q hq => ?_⟩
    rw [setProc_proc] at hq ⊢
    split_ifs at hq ⊢
    · exact absurd hq hp
    · exact h.gone q hq
  cases o with
  | none => exact h.same (.setProc hcwd.symm .inl) rfl
  | some i => exact h.give (k := .inl p) hok hcwd (setProc_holds p _) rfl

theorem forkChild_ic (h : forkChild s p np d = .ok s') (hinv : IcInv e s)
    (hnp : (s.proc np).cwd = none) (hgone : ¬ (s.proc np).gone) : IcInv e s' := by
  obtain ⟨s1, s2, s3, name, s4, hshm, hfiles, hcwd, -, hprio, rfl⟩ := forkChild_eq_ok h
  -- Up to the files, working directories and states stay.
  let s0 := s.setProc np ((s.proc np).child (s.proc p) p)
  have hinv0 : IcInv e s0 := hinv.same (.setProc rfl .inl) rfl
  have hmem := forkShm_memOnly hshm
  have hinv1 := hmem.ic hinv0
  let s1' := s1.setProc np { s1.proc np with tf := { (s.proc p).tf with eax := 0 } }
  have hinv1' : IcInv e s1' := hinv1.same (.setProc rfl .inl) rfl
  obtain ⟨hinv2, hdup⟩ := dupFiles_ic hfiles hinv1'
  have hchild : SameCwd s s0 := .setProc rfl rfl
  have hshared : SameCwd s0 s1 :=
    fun q => ⟨hmem.field Proc.cwd (fun _ => rfl) q, hmem.field Proc.state (fun _ => rfl) q⟩
  have htf : SameCwd s1 s1' := .setProc rfl rfl
  have hsame := ((hchild.trans hshared).trans htf).trans hdup
  -- The parent holds the inode that the child gets.
  obtain ⟨hinv3, hproc, -⟩ := idupPtr_ic hcwd hinv2 fun i hi =>
    held_pos (k := .inl p) ((hsame p).1.trans hi)
  have hinv3' : IcInv e (s3.setProc np { s3.proc np with cwd := (s.proc p).cwd }) := by
    refine hinv3.setCwd ?_ ?_
    · rw [hproc, (hsame np).1, hnp]
    · rw [hproc, Proc.gone, (hsame np).2]
      exact hgone
  have hinv4 : IcInv e s4 := by
    have hname := hinv3'.same (.setProc (p := np) (x := { (s3.setProc np
      { s3.proc np with cwd := (s.proc p).cwd }).proc np with name := name }) rfl .inl) rfl
    obtain ⟨q, mem, rfl⟩ := forkPrio_queueOnly hprio
    exact hname.same (.of_proc rfl rfl rfl) rfl
  exact hinv4.same (.setProc rfl nofun) rfl

/-- A slot that is tried by `fork`, or taken. -/
theorem HoldSame.slot {x : Proc} {n : ℕ} {q : Pqueue} {m : Kmem} (hcwd : x.cwd = (s.proc np).cwd)
    (hunused : (s.proc np).state = .UNUSED) :
    HoldSame s { s with proc := Function.update s.proc np x, nextpid := n, pq := q, km := m } :=
  .of_setProc (.of_proc rfl rfl rfl) hcwd fun _ => .inl (.inl hunused)

theorem fork_ic {r : Int} (h : fork s p = .ok (r, s')) (hinv : IcInv e s) : IcInv e s' := by
  obtain ⟨d, -, ⟨-, rfl, -⟩ | ⟨s1, hs1, hrest⟩⟩ := fork_cases h
  · exact hinv
  have hinv1 : IcInv e s1 := by
    cases hs1 with
    | outside => exact hinv
    | inside c => exact hinv.same (.setContainer rfl) rfl
  obtain ⟨-, hfailed⟩ | ⟨np, -, hunused, page, free, q, mem, d', m, -, -, -, hchild⟩ := hrest
  · cases hfailed with
    | noSlot => exact hinv1
    | noStack np q mem hnp => exact hinv1.same (.slot rfl hnp.unused) rfl
    | noCopy np page free q mem m m' hnp => exact hinv1.same (.slot rfl hnp.unused) rfl
  · refine forkChild_ic hchild (hinv1.same (.slot rfl hunused) rfl) ?_ ?_
    · simp only [Function.update_self]
      exact hinv1.gone np (.inl hunused)
    · simp [Proc.gone, Proc.forked, Proc.embryo]

/-! ## Programs and containers -/

theorem exec_ic {path : Bytes} {argv : List Bytes} {r : Int} (h : exec s p path argv = .ok (r, s'))
    (hinv : IcInv e s) : IcInv e s' := by
  obtain ⟨old, ip, s1, -, hnamei, hrest⟩ := exec_cases h
  have hcache := nameiProc_cached hnamei hinv.cache
  have hsame : HoldSame s s1 := by
    obtain ⟨-, mem, rfl⟩ | ⟨-, r', fs, -, -, rfl⟩ :=
      nameiProc_cases hnamei <;> exact .of_proc rfl rfl rfl
  obtain ⟨rfl, rfl⟩ | ⟨i, fs, fs', rfl, hlock, hput, hrest⟩ := hrest
  · exact hinv.of_same hsame hcache
  have hinv2 : IcInv e { s1 with fs := fs' } := by
    refine hinv.of_same (hsame.trans (.of_proc rfl rfl rfl)) ?_
    exact (Cached.congr (hcache.ilock hlock) (add_assoc _ _ _)).iunlockput hput
  obtain rfl | ⟨data, elf, hexec⟩ := hrest
  · exact hinv2
  · exact (execElf_memOnly hexec).ic hinv2

/-- The root of a container without one is set. -/
theorem cmSetroot_ic {path : Bytes} {len : Int} {c : CIdx} (h : cmSetroot s p d path len c = .ok s')
    (hinv : IcInv e s) (hroot : (s.containers c).root = none) : IcInv e s' := by
  unfold cmSetroot at h
  split_ifs at h
  · cases h
    exact hinv
  obtain ⟨⟨root, s1⟩, hnamei, h1⟩ := bind_eq_ok.mp h
  obtain ⟨mem, -, h2⟩ := bind_eq_ok.mp h1
  cases h2
  have hcache := nameiProc_cached hnamei hinv.cache
  have hsame : HoldSame s s1 := by
    obtain ⟨-, mem, rfl⟩ | ⟨-, r', fs, -, -, rfl⟩ :=
      nameiProc_cases hnamei <;> exact .of_proc rfl rfl rfl
  have hinv1 : IcInv (withRef e root) s1 := hinv.of_same hsame hcache
  have hroot1 : (s1.containers c).root = none := (hsame.root c).trans hroot
  have hinv2 : IcInv e (s1.setContainer c { s1.containers c with root := root }) := by
    cases root with
    | none => exact hinv1.same (.setContainer hroot1.symm) rfl
    | some r =>
      exact hinv1.give (k := .inr (.inr c)) ⟨hinv1.file, hinv1.gone⟩ hroot1
        (setContainer_holds c _) rfl
  exact hinv2.same (.of_proc rfl rfl rfl) rfl

theorem cmMaxproc_holdSame (s : Kernel) (p : PIdx) (n : Int) :
    HoldSame s (cmMaxproc s p n).2 ∧ (cmMaxproc s p n).2.fs = s.fs := by
  unfold cmMaxproc
  split_ifs
  · exact ⟨.refl s, rfl⟩
  split
  · exact ⟨.refl s, rfl⟩
  · split_ifs
    · exact ⟨.refl s, rfl⟩
    · exact ⟨.setContainer rfl, rfl⟩

theorem cmEnter_ic {fs : Bytes} {c : CIdx} (h : cmEnter s p d fs c = .ok s') (hinv : IcInv e s)
    (hp : ¬ (s.proc p).gone) (hcwd : (s.proc p).cwd = none) (hroot : (s.containers c).root = none) :
    IcInv e s' := by
  obtain ⟨s1, hset, h1⟩ := bind_eq_ok.mp h
  obtain ⟨s2, hdup, h2⟩ := bind_eq_ok.mp h1
  cases h2
  have hinv1 : IcInv e s1 := cmSetroot_ic hset (hinv.same (.setProc rfl .inl) rfl) hroot
  have hproc1 : (s1.proc p).cwd = none ∧ ¬ (s1.proc p).gone := by
    obtain ⟨containers, fs', mem, rfl⟩ := cmSetroot_rootOnly hset
    simp only [setProc_self]
    exact ⟨hcwd, hp⟩
  obtain ⟨hinv2, hproc, hcontainers⟩ := idupPtr_ic hdup hinv1 fun i hi =>
    held_pos (k := .inr (.inr c)) hi
  rw [hcontainers]
  refine hinv2.setCwd ?_ ?_
  · rw [hproc]
    exact hproc1.1
  · rw [hproc]
    exact hproc1.2

/-- `cm_create_and_enter` finds no container, or does not overwrite a pointer to an inode. -/
def Kernel.entersClean (s : Kernel) (p : PIdx) : Prop :=
  ∀ c, s.freeContainer = some c → (s.proc p).cwd = none ∧ (s.containers c).root = none

theorem cmClaim_holdSame {init : Bytes} {r : Option CIdx} (h : cmClaim s p d init = .ok (r, s')) :
    HoldSame s s' ∧ s'.fs = s.fs ∧ SameCwd s s' ∧ r = s.freeContainer := by
  unfold cmClaim at h
  let s0 := s.setProc p { s.proc p with name := strncpy (s.proc p).name [99, 109] 2 }
  have hname : HoldSame s s0 := .setProc rfl .inl
  have hcwd : SameCwd s s0 := .setProc rfl rfl
  dsimp only at h
  split at h
  · rename_i hnone
    cases h
    exact ⟨hname, rfl, hcwd, hnone.symm⟩
  · rename_i c hc
    obtain ⟨mem, -, hret⟩ := bind_eq_ok.mp h
    cases hret
    have hclaim : HoldSame s0
        (s0.setContainer c { s0.containers c with container_id := s0.nextcid }) :=
      .setContainer rfl
    exact ⟨hname.trans (hclaim.trans (.of_proc rfl rfl rfl)), rfl, hcwd, hc.symm⟩

theorem cmCreateAndEnter_ic {init fs : Bytes} {n r : Int}
    (h : cmCreateAndEnter s p init fs n = .ok (r, s'))
    (hinv : IcInv e s) (hp : ¬ (s.proc p).gone) (hclean : s.entersClean p) : IcInv e s' := by
  unfold cmCreateAndEnter at h
  split at h
  · cases h
  obtain ⟨⟨o, s1⟩, hclaim, h1⟩ := bind_eq_ok.mp h
  obtain ⟨hsame, hfs, hcwd, hfree⟩ := cmClaim_holdSame hclaim
  have hinv1 := hinv.same hsame hfs
  cases o with
  | none =>
    cases h1
    exact hinv1
  | some c =>
    obtain ⟨hnone, hroot⟩ := hclean c hfree.symm
    obtain ⟨s2, henter, h2⟩ := bind_eq_ok.mp h1
    obtain ⟨⟨r', s3⟩, hfork, h3⟩ := bind_eq_ok.mp h2
    cases h3
    have hinv2 : IcInv e s2 := by
      refine cmEnter_ic henter hinv1 ?_ ((hcwd p).1.trans hnone) ((hsame.root c).trans hroot)
      rw [Proc.gone, (hcwd p).2]
      exact hp
    have hmove := cmMaxproc_holdSame
      (s2.setProc p { s2.proc p with container_id := (s2.containers c).container_id }) p n
    have hinv3 : IcInv e (cmMove s2 p c n) := hinv2.same (.of_setProc hmove.1 rfl .inl) hmove.2
    exact (fork_ic hfork hinv3).same (.setProc rfl .inl) rfl

/-! ## Runs -/

/-- The call keeps no reference and overwrites no pointer to an inode. `cm_setroot` needs a
container: through a null one it writes to the process's memory, and the reference is nobody's. -/
def Kernel.inodesOk (s : Kernel) (a : PIdx × SysCall) : Prop :=
  match a.2 with
  | .file (.copyFile _ _) => False
  | .call (.cmCreateAndEnter _ _ _) => s.entersClean a.1
  | .call (.cmSetroot _ len) =>
    len ≤ 0 ∨ ∃ c, (s.proc a.1).container = some c ∧ (s.containers c).root = none
  | .call (.mutexDelete muxid) => muxInRange muxid
  | _ => True

section Calls

open Sys

theorem FileCall.run_ic {c c' : Ledger} {a : FileCall} {r : Int} (h : a.run p c = .ok (r, c'))
    (ha : ∀ dir file, a ≠ .copyFile dir file) (hinv : IcInv 0 c.s) : IcInv 0 c'.s := by
  have hfd : ∀ {fd} {k : FIdx → Sys Int}, (∀ f, Triple (Ic 0) (k f) fun _ => Ic 0) →
      Triple (Ic 0) (withFd p fd k) fun _ => Ic 0 :=
    fun hk => triple_opt (R := fun _ => Ic 0) ic_look ic_pure hk
  have hrules : Triple (Ic 0) (a.run p) fun _ => Ic 0 := by
    cases a with
    | «open» path omode => exact ic_beginOp.bind fun _ => ic_openPath
    | dup fd => exact hfd fun _ => ic_dup
    | pipe addr => exact ic_pipe
    | close fd => exact hfd fun _ => ic_close
    | read t fd addr n => exact hfd fun _ => ic_fileread
    | write t fd addr n => exact hfd fun _ => ic_filewrite
    | fstat fd st => exact hfd fun _ => ic_filestat
    | mkdir path => exact ic_beginOp.bind fun _ => ic_of_refs fun _ => refs_mknod
    | mknod path major minor => exact ic_beginOp.bind fun _ => ic_of_refs fun _ => refs_mknod
    | link old new => exact ic_beginOp.bind fun _ => ic_of_refs fun _ => refs_link
    | unlink path => exact ic_beginOp.bind fun _ => ic_of_refs fun _ => refs_unlink
    | chdir path => exact ic_beginOp.bind fun _ => ic_chdir
    | copyFile dir file => exact absurd rfl (ha dir file)
  exact hrules c r c' h hinv

theorem Call.run_ic {a : Call} (h : a.run s p = .ok s') (hp : s.canRun p)
    (hother : a.isOther = false)
    (hok : s.inodesOk (p, .call a)) (hinv : IcInv 0 s) : IcInv 0 s' := by
  have hgone : ¬ (s.proc p).gone := by
    rintro (hunused | hzombie)
    · exact hp.live hunused
    · exact hp.ne_zombie hzombie
  cases a.ran h with
  | fork h => exact fork_ic h hinv
  | exit h => exact exit_ic h hinv
  | wait h => exact hinv.same (wait_holdSame h).1 (wait_holdSame h).2
  | kill pid =>
    refine hinv.same (kill_holdSame s p pid) ?_
    obtain h | ⟨q, mux, h⟩ := kill_cases s p pid <;> rw [h]
    rfl
  | exec h => exact exec_ic h hinv
  | sbrk h => exact (growproc_memOnly h).ic hinv
  | mGet h => exact (shmGet_memOnly h).ic hinv
  | mRem h => exact (shmRem_memOnly h).ic hinv
  | cmCreateAndEnter h => exact cmCreateAndEnter_ic h hinv hgone hok
  | cmMaxproc n => exact hinv.same (cmMaxproc_holdSame s p n).1 (cmMaxproc_holdSame s p n).2
  | cmSetroot h =>
    obtain rfl | ⟨c, hlen, hc, h⟩ := sysCmSetroot_cases h
    · exact hinv
    · obtain ⟨c', hc', hroot⟩ := hok.resolve_left (not_le.mpr hlen)
      obtain rfl := Option.some.inj (hc.symm.trans hc')
      exact cmSetroot_ic h hinv hroot
  | mutexCreate h =>
    have hsame := (mutexCreate_mutexOnly h).holdSame
    exact hinv.same hsame.1 hsame.2
  | mutexDelete i =>
    have hsame := (mutexDelete_mutexOnly s p i).holdSame
    exact hinv.same hsame.1 hsame.2
  | prioSet h =>
    obtain ⟨q, mem, rfl⟩ := prioSet_queueOnly h
    exact hinv.same (.of_proc rfl rfl rfl) rfl
  | store mem => exact hinv.same (.of_proc rfl rfl rfl) rfl
  | other o => cases hother

theorem Sync.run_ic (o : Sync) (hinv : IcInv 0 s) : IcInv 0 (o.run s p) := by
  let s0 : Kernel := { s with mux := o.mux }
  have hmux : HoldSame s s0 := .of_proc rfl rfl rfl
  have hwake : HoldSame s (wakeups s0 o.wakeup) := hmux.trans (.wakeups s0 o.wakeup)
  have hinv1 : IcInv 0 (wakeups s0 o.wakeup) := hinv.same hwake (wakeups_fs s0 o.wakeup)
  have hcwd := (hwake.cwd p).symm
  unfold Sync.run Other.run
  dsimp only
  split
  · exact hinv1.same (.setProc hcwd .inl) rfl
  · exact hinv1.same (.setProc hcwd nofun) rfl

theorem SysCall.run_ic {a : SysCall} (h : a.run s p = .ok s') (hp : s.canRun p)
    (hok : s.inodesOk (p, a)) (hinv : IcInv 0 s) : IcInv 0 s' := by
  cases a with
  | call a =>
    have hrun : (if a.isOther then .error .undefined else a.run s p) = .ok s' := h
    split_ifs at hrun with hother
    exact a.run_ic hrun hp (by simpa using hother) hok hinv
  | file a =>
    obtain ⟨r, c, hrun, rfl⟩ := SysCall.file_eq_ok h
    refine a.run_ic hrun ?_ hinv
    rintro dir file rfl
    exact hok
  | sync o =>
    cases h
    exact o.run_ic hinv

end Calls

theorem boot_ic (h : Boot s) : IcInv 0 s := by
  obtain ⟨b, code, p, page, free, mem, d0, d, m0, m, cwd, q, fs, -, -, -, -, hget, hs⟩ :=
    boot_cases h
  -- The kernel before the process gets its directory: nothing is held but what `iget` returned.
  let s0 : Kernel := { s with proc := fun _ => .zero }
  have hfs : s0.fs = fs := by rw [show s0.fs = s.fs from rfl, hs]
  have hnone : ∀ k, s0.holds k = none := by
    rintro (q | f | c)
    · rfl
    · rw [show s0.holds (.inr (.inl f)) = (s.file f).inode from rfl, hs]
      rfl
    · rw [show s0.holds (.inr (.inr c)) = (s.containers c).root from rfl, hs]
      rfl
  have hheld : s0.held = 0 := by
    funext i
    exact card_refs_eq_zero.mpr fun k => by simp [hnone k]
  have hempty : Cached 0 b.fs := by
    refine ⟨fun i => ?_, fun hi => absurd hi (lt_irrefl 0), fun hi => absurd hi (lt_irrefl 0)⟩
    rw [b.icache i]
    rfl
  have hfile : ∀ f, 0 ≤ (s.file f).ref ∧ ((s.file f).ref = 0 → (s.file f).kind = .FD_NONE) := by
    intro f
    rw [hs]
    exact ⟨le_rfl, fun _ => rfl⟩
  have hinv0 : IcInv (0 + Pi.single cwd 1) s0 := by
    refine { file := hfile, gone := fun _ _ => rfl, cache := ?_ }
    rw [hheld, hfs, zero_add]
    exact hempty.iget hget
  have hproc : s = s0.setProc p (.first page d cwd) := by
    rw [show s0 = { s with proc := fun _ => .zero } from rfl, hs]
    rfl
  have hok : HoldOk s := by
    refine ⟨hfile, fun q => ?_⟩
    rw [hproc, setProc_proc]
    split_ifs
    · rintro (hgone | hgone) <;> cases hgone
    · exact fun _ => rfl
  refine hinv0.give hok (hnone (.inl p)) ?_ rfl
  rw [hproc]
  exact setProc_holds p _

theorem reach_ic (h : sysMachine.Reach Kernel.inodesOk s) : IcInv 0 s := by
  refine h.invariant (I := IcInv 0) (fun _ => boot_ic) ?_
  intro s t a hinv hok hstep
  obtain ⟨hrun, hstep⟩ := sysMachine_step hstep
  exact a.2.run_ic hstep hrun hok hinv

/-- The number of holders of an entry of `icache`: the live processes whose working directory it is,
the open files of it and the containers whose root it is. -/
def Kernel.holders (s : Kernel) (i : Slot) : ℕ :=
  (Finset.univ.filter fun p => s.live p ∧ (s.proc p).cwd = some i).card +
    (Finset.univ.filter fun f => 0 < (s.file f).ref ∧ (s.file f).kind = .FD_INODE i).card +
    (Finset.univ.filter fun c => (s.containers c).root = some i).card

theorem HoldOk.held_eq (h : HoldOk s) (i : Slot) : s.held i = s.holders i := by
  have hcwd : ∀ p, (s.proc p).cwd = some i ↔ s.live p ∧ (s.proc p).cwd = some i := by
    refine fun p => ⟨fun hp => ⟨fun hunused => ?_, hp⟩, And.right⟩
    simp [h.gone p (.inl hunused)] at hp
  have hfile : ∀ f, (s.file f).inode = some i ↔ 0 < (s.file f).ref ∧
      (s.file f).kind = .FD_INODE i := by
    intro f
    have hkind : (s.file f).inode = some i ↔ (s.file f).kind = .FD_INODE i := by
      unfold File.inode
      split
      · rename_i ip hip
        rw [hip, Option.some_inj, FileKind.FD_INODE.injEq]
      · rename_i hne
        exact ⟨nofun, fun hi => absurd hi (hne i)⟩
    rw [hkind]
    refine ⟨fun hi => ⟨lt_of_le_of_ne (h.file f).1 fun hzero => ?_, hi⟩, And.right⟩
    rw [(h.file f).2 hzero.symm] at hi
    cases hi
  rw [Kernel.held, card_refs_sum, card_refs_sum, ← add_assoc, Kernel.holders]
  congr 2
  · exact congrArg Finset.card (Finset.filter_congr fun p _ => hcwd p)
  · exact congrArg Finset.card (Finset.filter_congr fun f _ => hfile f)

/-- Is the call an `open` or a `fork`? -/
def opensOrForks : SysCall → Bool
  | .file (.open _ _) | .call .fork => true
  | _ => false

end Dockv6
