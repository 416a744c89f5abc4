import Dockv6.Foundations.RefCount
import Dockv6.Foundations.TwoEnded
import Dockv6.Kernel.FileCall
import Dockv6.Vm.Ownership

/-!
# Open files, descriptors and pipes

The count of a file is the number of descriptors of live processes that refer to it, and a pipe has
the ends open for which there is an open file. Within a call the counts may be ahead of the
descriptors or behind them: `FdInv e` says by how much, and each function has a rule for how it
changes `e`.
-/

namespace Dockv6

open Kernel Function

/-- The end of a pipe that a file is: the page of the pipe, and whether it is the end to write
to. -/
def File.pipeEnd (x : File) : Option (ℕ × Bool) :=
  match x.kind with
  | .FD_PIPE page => some (page, x.writable)
  | _ => none

/-- Is the end to write to, or to read from, open? -/
def Pipe.isOpen (x : Pipe) (writable : Bool) : Bool := if writable then x.writeopen else x.readopen

namespace Kernel

/-- The descriptors of all processes. -/
def ofiles (s : Kernel) (k : PIdx × Fin NOFILE) : Option FIdx := (s.proc k.1).ofile k.2

/-- The end of a pipe that a file is. -/
def ends (s : Kernel) (f : FIdx) : Option (ℕ × Bool) := (s.file f).pipeEnd

/-- Is the end of the pipe open? -/
def pipeOpen (s : Kernel) (page : ℕ) (writable : Bool) : Bool := (s.pipe page).isOpen writable

theorem setFile_file (s : Kernel) (f f' : FIdx) (x : File) :
    (s.setFile f x).file f' = if f' = f then x else s.file f' := by
  by_cases h : f' = f
  · subst h
    simp [setFile]
  · simp [setFile, h]

theorem setFile_ends (s : Kernel) (f : FIdx) (x : File) :
    (s.setFile f x).ends = update s.ends f x.pipeEnd := by
  funext f'
  rw [ends, setFile_file, update_apply]
  split_ifs <;> rfl

end Kernel

/-- The count of a file is `e` more than the number of its descriptors; files, flags and pages agree
on which ends of pipes are open. No process uses shared pages. -/
structure FdInv (e : FIdx → ℤ) (c : Ledger) : Prop where
  ref : ∀ f, (c.s.file f).ref = (refs c.s.ofiles f).card + e f
  closed : ∀ f, (c.s.file f).ref = 0 → (c.s.file f).kind = .FD_NONE
  sides : ∀ f page, (c.s.file f).kind = .FD_PIPE page →
    (c.s.file f).readable = !(c.s.file f).writable
  unused : ∀ p, ¬ c.s.live p → ∀ fd, (c.s.proc p).ofile fd = none
  noShm : ∀ p i, ((c.s.proc p).shared_mem i).in_use = false
  pipes : TwoEnded c.s.ends c.s.pipeOpen c.s.km.free c.made c.freed

/-! ## What leaves descriptors alone -/

/-- Descriptors, files, pipes and free pages are the same. A slot may come into use. -/
structure FdSame (s s' : Kernel) : Prop where
  ofile : ∀ p, (s'.proc p).ofile = (s.proc p).ofile
  live : ∀ p, s.live p → s'.live p
  inUse : ∀ p i, ((s.proc p).shared_mem i).in_use = false →
    ((s'.proc p).shared_mem i).in_use = false
  file : s'.file = s.file
  pipe : s'.pipe = s.pipe
  free : s'.km.free = s.km.free

namespace FdSame

variable {s s' : Kernel} {p : PIdx}

theorem refl (s : Kernel) : FdSame s s := ⟨fun _ => rfl, fun _ => id, fun _ _ => id, rfl, rfl, rfl⟩

theorem trans {s1 s2 s3 : Kernel} (h : FdSame s1 s2) (h' : FdSame s2 s3) : FdSame s1 s3 where
  ofile p := (h'.ofile p).trans (h.ofile p)
  live p := h'.live p ∘ h.live p
  inUse p i := h'.inUse p i ∘ h.inUse p i
  file := h'.file.trans h.file
  pipe := h'.pipe.trans h.pipe
  free := h'.free.trans h.free

theorem of_proc (hproc : s'.proc = s.proc) (hfile : s'.file = s.file) (hpipe : s'.pipe = s.pipe)
    (hfree : s'.km.free = s.km.free) : FdSame s s' where
  ofile p := by rw [hproc]
  live p := by
    rw [Kernel.live, Kernel.live, hproc]
    exact id
  inUse p i := by
    rw [hproc]
    exact id
  file := hfile
  pipe := hpipe
  free := hfree

/-- A process changes, but not its descriptors. -/
theorem setProc {x : Proc} (hofile : x.ofile = (s.proc p).ofile)
    (hstate : x.state = .UNUSED → (s.proc p).state = .UNUSED)
    (hshm : ∀ i, ((s.proc p).shared_mem i).in_use = false → (x.shared_mem i).in_use = false) :
    FdSame s (s.setProc p x) where
  ofile := setProc_field Proc.ofile hofile
  live q := by
    unfold Kernel.live
    rw [setProc_proc]
    split_ifs with hq
    · rw [hq]
      exact mt hstate
    · exact id
  inUse q i := by
    rw [setProc_proc]
    split_ifs with hq
    · rw [hq]
      exact hshm i
    · exact id
  file := rfl
  pipe := rfl
  free := rfl

theorem of_rootOnly (h : RootOnly s s') : FdSame s s' := by
  obtain ⟨containers, fs, mem, rfl⟩ := h
  exact .of_proc rfl rfl rfl rfl

theorem wakeup1 (s : Kernel) (chan : Option Chan) : FdSame s (wakeup1 s chan) := by
  have hproc : ∀ p, ((Dockv6.wakeup1 s chan).proc p).ofile = (s.proc p).ofile ∧
      (((Dockv6.wakeup1 s chan).proc p).state = .UNUSED → (s.proc p).state = .UNUSED) ∧
      ((Dockv6.wakeup1 s chan).proc p).shared_mem = (s.proc p).shared_mem := by
    intro p
    unfold Dockv6.wakeup1
    dsimp only
    split_ifs with h
    · exact ⟨rfl, nofun, rfl⟩
    · exact ⟨rfl, id, rfl⟩
  refine ⟨fun p => (hproc p).1, fun p => mt (hproc p).2.1, fun p i => ?_, rfl, rfl, rfl⟩
  rw [(hproc p).2.2]
  exact id

theorem of_memSame (h : MemSame s s') (hfile : s'.file = s.file) (hpipe : s'.pipe = s.pipe) :
    FdSame s s' where
  ofile q := congrArg MemView.ofile (h.view q)
  live q := mt (ProcState.unused_iff (congrArg MemView.state (h.view q))).mp
  inUse q i := by
    rw [show (s'.proc q).shared_mem = (s.proc q).shared_mem from congrArg MemView.shared_mem
      (h.view q)]
    exact id
  file := hfile
  pipe := hpipe
  free := h.free

theorem reparent (s : Kernel) (p : PIdx) : FdSame s (reparent s p) := by
  refine .of_memSame ⟨fun q => ?_, rfl, rfl, rfl⟩ rfl rfl
  unfold Dockv6.reparent
  dsimp only
  split_ifs <;> rfl

theorem exitMutexes (s : Kernel) (p : PIdx) : FdSame s (exitMutexes s p) := by
  have hsame := exitMutexes_memSame s p
  obtain ⟨mux, f, hs⟩ := exitMutexes_mutexOnly s p
  rw [hs] at hsame ⊢
  exact .of_memSame hsame rfl rfl

theorem exitEnd (s : Kernel) (p : PIdx) : FdSame s (Dockv6.exitEnd s p) := by
  unfold Dockv6.exitEnd
  dsimp only
  refine FdSame.trans ?_ (.setProc rfl nofun fun i => id)
  split_ifs
  · exact ((wakeup1 s _).trans (reparent _ p)).trans (wakeup1 _ _)
  · exact (wakeup1 s _).trans (reparent _ p)

theorem ofiles (h : FdSame s s') : s'.ofiles = s.ofiles := by
  funext k
  rw [Kernel.ofiles, h.ofile]
  rfl

end FdSame

namespace FdInv

variable {e : FIdx → ℤ} {c : Ledger} {s' : Kernel}

theorem of_same (h : FdInv e c) (hs : FdSame c.s s') : FdInv e { c with s := s' } where
  ref f := by
    rw [hs.ofiles, hs.file]
    exact h.ref f
  closed f := by
    rw [hs.file]
    exact h.closed f
  sides f := by
    rw [hs.file]
    exact h.sides f
  unused p hp fd := by
    rw [hs.ofile]
    exact h.unused p (fun hlive => hp (hs.live p hlive)) fd
  noShm p i := hs.inUse p i (h.noShm p i)
  pipes := by
    have hends : s'.ends = c.s.ends := by
      funext f
      rw [Kernel.ends, hs.file]
      rfl
    have hopen : s'.pipeOpen = c.s.pipeOpen := by
      funext page w
      rw [Kernel.pipeOpen, hs.pipe]
      rfl
    rw [hends, hopen, hs.free]
    exact h.pipes

/-- The calls of `begin_op` and `end_op` do not matter. -/
theorem ops (h : FdInv e c) (b b' : ℕ) : FdInv e { c with begun := b, ended := b' } :=
  ⟨h.ref, h.closed, h.sides, h.unused, h.noShm, h.pipes⟩

/-- A file changes, but not as an end of a pipe. -/
theorem setFile (h : FdInv e c) {f : FIdx} {x : File} (hend : x.pipeEnd = (c.s.file f).pipeEnd)
    (hzero : x.ref = 0 → x.kind = .FD_NONE)
    (hsides : ∀ page, x.kind = .FD_PIPE page → x.readable = !x.writable) {e' : FIdx → ℤ}
    (he : e' = e + Pi.single f (x.ref - (c.s.file f).ref)) :
    FdInv e' { c with s := c.s.setFile f x } where
  ref f' := by
    have hf' := h.ref f'
    subst he
    simp only [setFile_file, Pi.add_apply]
    split_ifs with hf
    · subst hf
      rw [Pi.single_eq_same]
      show x.ref = ((refs c.s.ofiles f').card : ℤ) + _
      omega
    · rw [Pi.single_eq_of_ne hf, add_zero]
      exact hf'
  closed f' := by
    simp only [setFile_file]
    split_ifs
    · exact hzero
    · exact h.closed f'
  sides f' := by
    simp only [setFile_file]
    split_ifs
    · exact hsides
    · exact h.sides f'
  unused := h.unused
  noShm := h.noShm
  pipes := by
    have hends : (c.s.setFile f x).ends = c.s.ends := by
      rw [setFile_ends, hend]
      exact update_eq_self f c.s.ends
    show TwoEnded (c.s.setFile f x).ends _ _ _ _
    rw [hends]
    exact h.pipes

end FdInv

/-! ## Descriptors -/

/-- The descriptor `fd` of `p` becomes `o`. -/
abbrev Kernel.setFd (s : Kernel) (p : PIdx) (fd : Fin NOFILE) (o : Option FIdx) : Kernel :=
  s.setProc p { s.proc p with ofile := update (s.proc p).ofile fd o }

section Fd

variable {e : FIdx → ℤ} {c : Ledger} {s : Kernel} {p : PIdx} {fd : Fin NOFILE} {f : FIdx}
  {o : Option FIdx}

theorem setFd_ofiles : (s.setFd p fd o).ofiles = update s.ofiles (p, fd) o := by
  funext ⟨q, fd'⟩
  rw [Kernel.ofiles, setProc_proc, update_apply]
  by_cases hq : q = p
  · subst hq
    rw [if_pos rfl]
    show update (s.proc q).ofile fd o fd' = _
    rw [update_apply]
    simp only [Prod.mk.injEq, true_and]
    rfl
  · rw [if_neg hq, if_neg fun heq => hq (congrArg Prod.fst heq)]
    rfl

theorem setFd_live (q : PIdx) : (s.setFd p fd o).live q ↔ s.live q := by
  unfold Kernel.live
  rw [setProc_proc]
  split_ifs with hq
  · rw [hq]
  · rfl

namespace FdInv

/-- What a change of one descriptor keeps of the invariant. -/
theorem setFd (h : FdInv e c) {e' : FIdx → ℤ} (hp : o ≠ none → c.s.live p)
    (href : ∀ f, ((refs (update c.s.ofiles (p, fd) o) f).card : ℤ) + e' f =
      (refs c.s.ofiles f).card + e f) : FdInv e' { c with s := c.s.setFd p fd o } where
  ref f := by
    simp only [setFd_ofiles]
    rw [href]
    exact h.ref f
  closed := h.closed
  sides := h.sides
  unused q hq fd' := by
    have hq' : ¬ c.s.live q := fun hlive => hq ((setFd_live q).mpr hlive)
    have hnone : c.s.ofiles (q, fd') = none := h.unused q hq' fd'
    show (c.s.setFd p fd o).ofiles (q, fd') = none
    rw [setFd_ofiles, update_apply]
    split_ifs with heq
    · by_contra ho
      obtain ⟨rfl, -⟩ := Prod.mk.inj heq
      exact hq' (hp ho)
    · exact hnone
  noShm q i := by
    have hshm := setProc_field (s := c.s) (p := p)
      (x := { c.s.proc p with ofile := update (c.s.proc p).ofile fd o })
      (fun y => (y.shared_mem i).in_use) rfl q
    exact hshm.trans (h.noShm q i)
  pipes := h.pipes

/-- A descriptor is closed, with the file still counted. -/
theorem clearFd (h : FdInv e c) (hf : (c.s.proc p).ofile fd = some f) :
    FdInv (e + Pi.single f 1) { c with s := c.s.setFd p fd none } := by
  refine h.setFd (fun ho => absurd rfl ho) fun f' => ?_
  have hcard := card_refs_none (f := c.s.ofiles) (k := (p, fd)) hf f'
  rw [← hcard, Pi.add_apply, Pi.single_apply]
  push_cast
  split_ifs <;> omega

/-- A descriptor is given to a file that is counted already. -/
theorem giveFd (h : FdInv (e + Pi.single f 1) c) (hfd : (c.s.proc p).ofile fd = none)
    (hp : c.s.live p) : FdInv e { c with s := c.s.setFd p fd (some f) } := by
  refine h.setFd (fun _ => hp) fun f' => ?_
  have hcard := card_refs_some (f := c.s.ofiles) (k := (p, fd)) hfd f f'
  rw [hcard, Pi.add_apply, Pi.single_apply]
  push_cast
  split_ifs <;> omega

end FdInv

end Fd

/-! ## Closing -/

/-- The pipe with one end closed. -/
def Pipe.close (x : Pipe) (writable : Bool) : Pipe :=
  if writable then { x with writeopen := false } else { x with readopen := false }

theorem Pipe.close_isOpen (x : Pipe) (w v : Bool) :
    (x.close w).isOpen v = if v = w then false else x.isOpen v := by
  cases w <;> cases v <;> rfl

theorem wakeup1_proc (s : Kernel) (chan : Option Chan) (q : PIdx) :
    ∃ st, (wakeup1 s chan).proc q = { s.proc q with state := st } := by
  unfold wakeup1
  dsimp only
  split_ifs
  · exact ⟨_, rfl⟩
  · exact ⟨_, rfl⟩

theorem pipeclose_cases {s s' : Kernel} {page : ℕ} {w : Bool} (h : pipeclose s page w = .ok s') :
    ∃ chan m, s' = { wakeup1 s chan with
        pipe := update s.pipe page ((s.pipe page).close w), km := m } ∧
      m.free = if (s.pipe page).isOpen (!w) then s.km.free else page :: s.km.free := by
  have hclosed : (!((s.pipe page).close w).readopen && !((s.pipe page).close w).writeopen) = true ↔
      (s.pipe page).isOpen (!w) = false := by
    cases w <;> simp [Pipe.close, Pipe.isOpen]
  let s1 := wakeup1 { s with pipe := update s.pipe page ((s.pipe page).close w) }
    (some (if w then .nread page else .nwrite page))
  have hrun : (if (!((s.pipe page).close w).readopen && !((s.pipe page).close w).writeopen) =
    true then
      kfree s.km page >>= fun m => pure { s1 with km := m } else pure s1 : Res Kernel) = .ok s' := h
  refine ⟨some (if w then .nread page else .nwrite page), ?_⟩
  split_ifs at hrun with hboth
  · obtain ⟨m, hm, hret⟩ := bind_eq_ok.mp hrun
    cases hret
    obtain ⟨-, -, rfl⟩ := kfree_eq_ok hm
    rw [hclosed.mp hboth]
    exact ⟨_, rfl, rfl⟩
  · have heq : s1 = s' := Except.ok.inj hrun
    rw [← heq, Bool.eq_true_of_not_eq_false (mt hclosed.mpr hboth)]
    exact ⟨s.km, rfl, rfl⟩

/-- `fileclose` wakes processes up, and changes nothing else of them. -/
theorem fileclose_proc {s s' : Kernel} {f : FIdx} (h : fileclose s f = .ok s') (q : PIdx) :
    ∃ st, s'.proc q = { s.proc q with state := st } := by
  unfold fileclose at h
  dsimp only at h
  split_ifs at h
  · cases h
    exact ⟨_, rfl⟩
  · split at h
    · obtain ⟨chan, m, rfl, -⟩ := pipeclose_cases h
      exact wakeup1_proc _ chan q
    · cases h
      exact ⟨_, rfl⟩
    · cases h
      exact ⟨_, rfl⟩

namespace Sys

variable {e : FIdx → ℤ} {p : PIdx}

/-- What `pipeclose` leaves: the page goes, and is recorded, with the second end. -/
theorem pipeclose_ledger {c c' : Ledger} {u : Unit} {page : ℕ} {w : Bool}
    (h : pipeclose page w c = .ok (u, c')) :
    ∃ chan m, m.free = (if (c.s.pipe page).isOpen (!w) then c.s.km.free else page :: c.s.km.free) ∧
      c' = { c with
        s := { wakeup1 c.s chan with
          pipe := update c.s.pipe page ((c.s.pipe page).close w), km := m }
        freed := if (c.s.pipe page).isOpen (!w) then c.freed else page :: c.freed } := by
  obtain ⟨_, c1, hclose, h1⟩ := run_bind_eq_ok.mp h
  obtain ⟨s1, hs1, rfl⟩ := act_eq_ok.mp hclose
  obtain ⟨chan, m, rfl, hm⟩ := pipeclose_cases hs1
  obtain ⟨pi, c2, hlook, h2⟩ := run_bind_eq_ok.mp h1
  obtain ⟨hpi, rfl⟩ := look_eq_ok.mp hlook
  have hpi' : pi = (c.s.pipe page).close w := by
    rw [← Except.ok.inj hpi]
    exact update_self ..
  have hclosed : (!pi.readopen && !pi.writeopen) = true ↔ (c.s.pipe page).isOpen (!w) = false := by
    rw [hpi']
    cases w <;> simp [Pipe.close, Pipe.isOpen]
  refine ⟨chan, m, hm, ?_⟩
  split_ifs at h2 with hboth
  · cases h2
    rw [hclosed.mp hboth]
    rfl
  · cases h2
    rw [Bool.eq_true_of_not_eq_false (mt hclosed.mpr hboth)]
    rfl

/-- The end of `fileclose` for an end of a pipe: the end is closed with the file. -/
theorem pipeclose_fd {c c' : Ledger} {u : Unit} {f : FIdx} {page : ℕ} {x : File}
    (hinv : FdInv (e + Pi.single f 1) c) (hkind : (c.s.file f).kind = .FD_PIPE page)
    (href : (c.s.file f).ref = 1) (hx : x.kind = .FD_NONE) (hx0 : x.ref = 0)
    (h : pipeclose page (c.s.file f).writable { c with s := c.s.setFile f x } = .ok (u, c')) :
    FdInv e c' := by
  have hend : c.s.ends f = some (page, (c.s.file f).writable) := by
    simp only [Kernel.ends, File.pipeEnd, hkind]
  generalize (c.s.file f).writable = w at h hend
  obtain ⟨chan, m, hm, rfl⟩ := pipeclose_ledger h
  have hwake := FdSame.wakeup1 (c.s.setFile f x) chan
  have hother : ∀ f', f' ≠ f → (c.s.setFile f x).file f' = c.s.file f' := fun f' hf' => by
    rw [setFile_file, if_neg hf']
  have hself : (c.s.setFile f x).file f = x := by rw [setFile_file, if_pos rfl]
  refine ⟨fun f' => ?_, fun f' => ?_, fun f' => ?_, ?_, ?_, ?_⟩
  · show ((c.s.setFile f x).file f').ref =
      ((refs (wakeup1 (c.s.setFile f x) chan).ofiles f').card : ℤ) + e f'
    rw [hwake.ofiles]
    show _ = ((refs c.s.ofiles f').card : ℤ) + e f'
    have hf' := hinv.ref f'
    by_cases hf : f' = f
    · subst hf
      rw [hself, hx0]
      rw [Pi.add_apply, Pi.single_eq_same, href] at hf'
      omega
    · rw [hother f' hf, hf', Pi.add_apply, Pi.single_eq_of_ne hf, add_zero]
  · show ((c.s.setFile f x).file f').ref = 0 → ((c.s.setFile f x).file f').kind = .FD_NONE
    by_cases hf : f' = f
    · rw [hf, hself]
      exact fun _ => hx
    · rw [hother f' hf]
      exact hinv.closed f'
  · show ∀ page, ((c.s.setFile f x).file f').kind = .FD_PIPE page →
      ((c.s.setFile f x).file f').readable = !((c.s.setFile f x).file f').writable
    by_cases hf : f' = f
    · rw [hf, hself, hx]
      exact fun _ hpipe => nomatch hpipe
    · rw [hother f' hf]
      exact hinv.sides f'
  · intro q hq fd
    exact (congrFun (hwake.ofile q) fd).trans
      (hinv.unused q (fun hlive => hq (hwake.live q hlive)) fd)
  · exact fun q i => hwake.inUse q i (hinv.noShm q i)
  · have hends : (c.s.setFile f x).ends = update c.s.ends f none := by
      rw [setFile_ends, File.pipeEnd, hx]
    show TwoEnded (c.s.setFile f x).ends _ m.free c.made _
    rw [hends]
    refine hinv.pipes.close hend (fun y v => ?_) (fun hlast => ?_) fun hmore => ?_
    · show (update c.s.pipe page ((c.s.pipe page).close w) y).isOpen v = _
      rw [update_apply]
      by_cases hy : y = page
      · subst hy
        rw [if_pos rfl, Pipe.close_isOpen]
        simp only [true_and]
        rfl
      · rw [if_neg hy, if_neg fun h => hy h.1]
        rfl
    · have hlast' : (c.s.pipe page).isOpen (!w) = false := hlast
      rw [hm]
      show (if (c.s.pipe page).isOpen (!w) then _ else _) = _ ∧
        (if (c.s.pipe page).isOpen (!w) then _ else _) = _
      rw [hlast']
      exact ⟨rfl, rfl⟩
    · have hmore' : (c.s.pipe page).isOpen (!w) = true := hmore
      rw [hm]
      show (if (c.s.pipe page).isOpen (!w) then _ else _) = _ ∧
        (if (c.s.pipe page).isOpen (!w) then _ else _) = _
      rw [hmore']
      exact ⟨rfl, rfl⟩

/-- `fileclose` drops a count that no descriptor stands for. -/
theorem triple_fileclose (f : FIdx) :
    Triple (FdInv (e + Pi.single f 1)) (fileclose f) fun _ => FdInv e := by
  rintro c u c' hrun hinv
  obtain ⟨x, c1, hlook, h1⟩ := run_bind_eq_ok.mp hrun
  obtain ⟨hx, rfl⟩ := look_eq_ok.mp hlook
  cases hx
  split_ifs at h1 with hlt hgt
  · cases h1
  · cases h1
    refine hinv.setFile (x := { c1.s.file f with ref := (c1.s.file f).ref - 1 }) rfl (fun h0 => ?_)
      (hinv.sides f) ?_
    · simp only at h0
      omega
    · funext f'
      simp only [Pi.add_apply, Pi.single_apply]
      split_ifs <;> omega
  · obtain ⟨_, c2, hset, h2⟩ := run_bind_eq_ok.mp h1
    cases hset
    have hone : (c1.s.file f).ref = 1 := by omega
    let s2 := c1.s.setFile f { c1.s.file f with ref := 0, kind := .FD_NONE }
    -- A file that is not the end of a pipe is just closed.
    have hclosed : (c1.s.file f).pipeEnd = none → FdInv e { c1 with s := s2 } := by
      intro hnone
      refine hinv.setFile (x := { c1.s.file f with ref := 0, kind := .FD_NONE })
        (by rw [hnone]; rfl)
        (fun _ => rfl) (fun _ hpipe => nomatch hpipe) ?_
      funext f'
      simp only [Pi.add_apply, Pi.single_apply, hone]
      split_ifs <;> omega
    cases hkind : (c1.s.file f).kind with
    | FD_PIPE page =>
      rw [hkind] at h2
      exact pipeclose_fd hinv hkind hone rfl rfl h2
    | FD_INODE ip =>
      rw [hkind] at h2
      cases h2
      have hput : FdSame s2 { s2 with fs := Dockv6.iput s2.fs ip } := .of_proc rfl rfl rfl rfl
      exact ((hclosed (by rw [File.pipeEnd, hkind])).of_same hput).ops _ _
    | FD_NONE =>
      rw [hkind] at h2
      cases h2
      exact hclosed (by rw [File.pipeEnd, hkind])

theorem fileclose_live {c c' : Ledger} {u : Unit} {f : FIdx} (h : fileclose f c = .ok (u, c'))
    (q : PIdx) : c'.s.live q ↔ c.s.live q :=
  (fileclose_quiet (fileclose_eq_ok h)).live q

end Sys

/-! ## Allocation -/

section Alloc

variable {e : FIdx → ℤ} {c : Ledger} {s s' : Kernel} {p : PIdx} {f : FIdx}

theorem filealloc_cases {r : Option FIdx} (h : filealloc s = (r, s')) :
    (r = none ∧ s' = s) ∨
      ∃ f, r = some f ∧ (s.file f).ref = 0 ∧ s' = s.setFile f { s.file f with ref := 1 } := by
  unfold filealloc at h
  split at h
  · cases h
    exact .inl ⟨rfl, rfl⟩
  · rename_i f hf
    cases h
    exact .inr ⟨f, rfl, by simpa using List.find?_some hf, rfl⟩

theorem fdalloc_cases {r : Option (Fin NOFILE)} (h : fdalloc s p f = (r, s')) :
    (r = none ∧ s' = s) ∨
      ∃ fd, r = some fd ∧ (s.proc p).ofile fd = none ∧ s' = s.setFd p fd (some f) := by
  unfold fdalloc at h
  split at h
  · cases h
    exact .inl ⟨rfl, rfl⟩
  · rename_i fd hfd
    cases h
    exact .inr ⟨fd, rfl, by simpa using List.find?_some hfd, rfl⟩

/-- Two new files are different, and neither of them has a type. -/
theorem filealloc_two {s1 s2 : Kernel} {f0 f1 : FIdx} (h0 : filealloc s = (some f0, s1))
    (h1 : filealloc s1 = (some f1, s2))
    (hclosed : ∀ f, (s.file f).ref = 0 → (s.file f).kind = .FD_NONE) :
    f0 ≠ f1 ∧ ((s2.file f0).kind = .FD_NONE ∧ (s2.file f0).ref ≠ 0) ∧
      (s2.file f1).kind = .FD_NONE ∧ (s2.file f1).ref ≠ 0 := by
  obtain ⟨hr, -⟩ | ⟨_, hr, href0, rfl⟩ := filealloc_cases h0
  · cases hr
  cases hr
  obtain ⟨hr, -⟩ | ⟨_, hr, href1, rfl⟩ := filealloc_cases h1
  · cases hr
  cases hr
  -- The second one was not in use when the first one was.
  have hne : f0 ≠ f1 := by
    rintro rfl
    rw [setFile_file, if_pos rfl] at href1
    cases href1
  rw [setFile_file, if_neg hne.symm] at href1
  refine ⟨hne, ⟨?_, ?_⟩, ?_, ?_⟩
  · rw [setFile_file, if_neg hne, setFile_file, if_pos rfl]
    exact hclosed f0 href0
  · simp [setFile_file, hne]
  · simp only [setFile_file, if_pos, if_neg hne.symm]
    exact hclosed f1 href1
  · simp [setFile_file]

/-- A new file is counted once, and no descriptor refers to it yet. -/
theorem FdInv.alloc (h : FdInv e c) (hf : (c.s.file f).ref = 0) :
    FdInv (e + Pi.single f 1) { c with s := c.s.setFile f { c.s.file f with ref := 1 } } := by
  refine h.setFile (x := { c.s.file f with ref := 1 }) rfl (fun h1 => nomatch h1) (h.sides f) ?_
  rw [hf]
  rfl

/-- A file that is counted is counted once more. -/
theorem FdInv.dup (h : FdInv e c) (hf : ¬ (c.s.file f).ref < 1) :
    FdInv (e + Pi.single f 1)
      { c with s := c.s.setFile f { c.s.file f with ref := (c.s.file f).ref + 1 } } := by
  refine h.setFile (x := { c.s.file f with ref := (c.s.file f).ref + 1 }) rfl (fun h0 => ?_)
    (h.sides f) ?_
  · simp only at h0
    omega
  · rw [add_sub_cancel_left]

/-- The state that `setPipe` leaves. -/
abbrev Kernel.setPipe (s : Kernel) (f0 f1 : FIdx) (page : ℕ) : Kernel :=
  let s := { s with pipe := update s.pipe page { readopen := true, writeopen := true } }
  let s := s.setFile f0
    { s.file f0 with kind := .FD_PIPE page, readable := true, writable := false }
  s.setFile f1 { s.file f1 with kind := .FD_PIPE page, readable := false, writable := true }

/-- Two files that are counted become the ends of a pipe in a page that was free. -/
theorem FdInv.setPipe (h : FdInv e c) {f0 f1 : FIdx} {page : ℕ} {m : Kmem}
    (hfree : c.s.km.free = page :: m.free) (hne : f0 ≠ f1) (h0 : (c.s.file f0).kind = .FD_NONE)
    (h1 : (c.s.file f1).kind = .FD_NONE) (href0 : (c.s.file f0).ref ≠ 0)
    (href1 : (c.s.file f1).ref ≠ 0) :
    FdInv e { c with
      s := Kernel.setPipe { c.s with km := m } f0 f1 page, made := page :: c.made } := by
  let s' := Kernel.setPipe { c.s with km := m } f0 f1 page
  have hfile : ∀ f, s'.file f =
      if f = f1 then { c.s.file f with kind := .FD_PIPE page, readable := false, writable := true }
      else if f = f0 then
          { c.s.file f with kind := .FD_PIPE page, readable := true, writable := false }
      else c.s.file f := by
    intro f
    simp only [s', setFile_file, hne.symm, if_false]
    split_ifs with hf1 hf0
    · rw [hf1]
    · rw [hf0]
    · rfl
  have href : ∀ f, (s'.file f).ref = (c.s.file f).ref := by
    intro f
    rw [hfile]
    split_ifs <;> rfl
  have hends : s'.ends =
      update (update c.s.ends f0 (some (page, false))) f1 (some (page, true)) := by
    rw [setFile_ends, setFile_ends]
    rfl
  refine ⟨fun f => (href f).trans (h.ref f), fun f hf => ?_, fun f y hf => ?_, h.unused,
    h.noShm, ?_⟩
  · have hold : (c.s.file f).ref = 0 := (href f).symm.trans hf
    show (s'.file f).kind = .FD_NONE
    rw [hfile, if_neg, if_neg]
    · exact h.closed f hold
    · rintro rfl
      exact href0 hold
    · rintro rfl
      exact href1 hold
  · show (s'.file f).readable = !(s'.file f).writable
    have hf' : (s'.file f).kind = .FD_PIPE y := hf
    rw [hfile] at hf' ⊢
    split_ifs at hf' ⊢
    · rfl
    · rfl
    · exact h.sides f y hf'
  · show TwoEnded s'.ends s'.pipeOpen m.free (page :: c.made) c.freed
    rw [hends]
    have hpipes := h.pipes
    rw [hfree] at hpipes
    refine hpipes.make ?_ ?_ hne fun y v => ?_
    · rw [Kernel.ends, File.pipeEnd, h0]
    · rw [Kernel.ends, File.pipeEnd, h1]
    · show (update c.s.pipe page { readopen := true, writeopen := true } y).isOpen v = _
      rw [update_apply]
      split_ifs
      · cases v <;> rfl
      · rfl

end Alloc

namespace Sys

variable {e : FIdx → ℤ} {c c' : Ledger} {p : PIdx} {f : FIdx}

theorem dup_fd {r : Int} (h : dup p f c = .ok (r, c')) (hinv : FdInv e c) (hp : c.s.live p) :
    FdInv e c' := by
  obtain ⟨c1, hfd, h1⟩ | ⟨fd, c1, hfd, h1⟩ := opt_eq_ok.mp h
  · obtain ⟨s1, hs1, rfl⟩ := kernel_eq_ok.mp hfd
    obtain ⟨-, rfl⟩ | ⟨fd, hr, -⟩ := fdalloc_cases (Except.ok.inj hs1)
    · cases h1
      exact hinv
    · cases hr
  · obtain ⟨s1, hs1, rfl⟩ := kernel_eq_ok.mp hfd
    obtain ⟨hr, -⟩ | ⟨fd', hr, hnone, rfl⟩ := fdalloc_cases (Except.ok.inj hs1)
    · cases hr
    · cases hr
      obtain ⟨_, c2, hdup, h2⟩ := run_bind_eq_ok.mp h1
      obtain ⟨s2, hs2, rfl⟩ := act_eq_ok.mp hdup
      cases h2
      unfold filedup at hs2
      split_ifs at hs2 with href
      cases hs2
      -- The file is counted and then given the descriptor; the order does not matter.
      exact (hinv.dup (f := f) href).giveFd hnone hp

theorem pipealloc_fd {r : Option (FIdx × FIdx)} (h : pipealloc c = .ok (r, c')) (hinv : FdInv e c) :
    (∀ q, c'.s.live q ↔ c.s.live q) ∧ ((r = none ∧ FdInv e c') ∨
      ∃ f0 f1, r = some (f0, f1) ∧ FdInv (e + Pi.single f0 1 + Pi.single f1 1) c') := by
  obtain ⟨f0, c1, hf0, h1⟩ := run_bind_eq_ok.mp h
  obtain ⟨s1, hs1, rfl⟩ := kernel_eq_ok.mp hf0
  obtain ⟨rfl, rfl⟩ | ⟨f0, rfl, href0, rfl⟩ := filealloc_cases (Except.ok.inj hs1)
  · cases h1
    exact ⟨fun _ => .rfl, .inl ⟨rfl, hinv⟩⟩
  have hinv1 := hinv.alloc href0
  obtain ⟨f1, c2, hf1, h2⟩ := run_bind_eq_ok.mp h1
  obtain ⟨s2, hs2, rfl⟩ := kernel_eq_ok.mp hf1
  obtain ⟨rfl, rfl⟩ | ⟨f1, rfl, href1, rfl⟩ := filealloc_cases (Except.ok.inj hs2)
  · obtain ⟨_, c3, hclose, h3⟩ := run_bind_eq_ok.mp h2
    cases h3
    have hlive := fileclose_live hclose
    exact ⟨hlive, .inl ⟨rfl, triple_fileclose f0 _ _ _ hclose hinv1⟩⟩
  have hinv2 := hinv1.alloc href1
  obtain ⟨page, c3, hpage, h3⟩ := run_bind_eq_ok.mp h2
  obtain ⟨s3, hs3, rfl⟩ := kernel_eq_ok.mp hpage
  dsimp only at hs3
  split at hs3
  · cases hs3
    obtain ⟨_, c4, hclose0, h4⟩ := run_bind_eq_ok.mp h3
    obtain ⟨_, c5, hclose1, h5⟩ := run_bind_eq_ok.mp h4
    cases h5
    have hlive := fun q => (fileclose_live hclose1 q).trans (fileclose_live hclose0 q)
    refine ⟨hlive, .inl ⟨rfl, ?_⟩⟩
    rw [add_right_comm] at hinv2
    exact triple_fileclose f1 _ _ _ hclose1 (triple_fileclose f0 _ _ _ hclose0 hinv2)
  · rename_i page' m hm
    cases hs3
    obtain ⟨_, c4, hset, h4⟩ := run_bind_eq_ok.mp h3
    cases hset
    cases h4
    refine ⟨fun q => .rfl, .inr ⟨f0, f1, rfl, ?_⟩⟩
    obtain ⟨hne, ⟨hkind0, hpos0⟩, hkind1, hpos1⟩ :=
      filealloc_two (Except.ok.inj hs1) (Except.ok.inj hs2) hinv.closed
    exact hinv2.setPipe (kalloc_eq_some hm).1 hne hkind0 hkind1 hpos0 hpos1

/-- Both files of a pipe are closed again. -/
theorem fileclose_both {u v : Unit} {f0 f1 : FIdx} {c1 : Ledger}
    (hinv : FdInv (e + Pi.single f0 1 + Pi.single f1 1) c) (h0 : fileclose f0 c = .ok (u, c1))
    (h1 : fileclose f1 c1 = .ok (v, c')) : FdInv e c' := by
  rw [add_right_comm] at hinv
  exact triple_fileclose f1 _ _ _ h1 (triple_fileclose f0 _ _ _ h0 hinv)

theorem pipe_fd {addr : ℕ} {r : Int} (h : pipe p addr c = .ok (r, c')) (hinv : FdInv e c)
    (hp : c.s.live p) : FdInv e c' := by
  obtain ⟨c1, halloc, h1⟩ | ⟨⟨rf, wf⟩, c1, halloc, h1⟩ := opt_eq_ok.mp h
  · cases h1
    obtain ⟨-, ⟨-, hinv1⟩ | ⟨_, _, hr, -⟩⟩ := pipealloc_fd halloc hinv
    · exact hinv1
    · cases hr
  obtain ⟨hlive, ⟨hr, -⟩ | ⟨_, _, hr, hinv1⟩⟩ := pipealloc_fd halloc hinv
  · cases hr
  cases hr
  obtain ⟨c2, hfd0, h2⟩ | ⟨fd0, c2, hfd0, h2⟩ := opt_eq_ok.mp h1
  all_goals obtain ⟨s2, hs2, rfl⟩ := kernel_eq_ok.mp hfd0
  · obtain ⟨-, rfl⟩ | ⟨_, hr, -⟩ := fdalloc_cases (Except.ok.inj hs2)
    · obtain ⟨_, c3, hclose0, h3⟩ := run_bind_eq_ok.mp h2
      obtain ⟨_, c4, hclose1, h4⟩ := run_bind_eq_ok.mp h3
      cases h4
      exact fileclose_both hinv1 hclose0 hclose1
    · cases hr
  obtain ⟨hr, -⟩ | ⟨_, hr, hnone0, rfl⟩ := fdalloc_cases (Except.ok.inj hs2)
  · cases hr
  cases hr
  rw [add_right_comm] at hinv1
  have hinv2 := hinv1.giveFd hnone0 ((hlive p).mpr hp)
  obtain ⟨c3, hfd1, h3⟩ | ⟨fd1, c3, hfd1, h3⟩ := opt_eq_ok.mp h2
  all_goals obtain ⟨s3, hs3, rfl⟩ := kernel_eq_ok.mp hfd1
  · obtain ⟨-, rfl⟩ | ⟨_, hr, -⟩ := fdalloc_cases (Except.ok.inj hs3)
    · obtain ⟨_, c4, hset, h4⟩ := run_bind_eq_ok.mp h3
      cases hset
      obtain ⟨_, c5, hclose0, h5⟩ := run_bind_eq_ok.mp h4
      obtain ⟨_, c6, hclose1, h6⟩ := run_bind_eq_ok.mp h5
      cases h6
      -- The first descriptor is taken back before the files are closed.
      have hfd : ((c1.s.setFd p fd0 (some rf)).proc p).ofile fd0 = some rf := by
        rw [setProc_self]
        exact update_self ..
      have hinv3 := hinv2.clearFd hfd
      rw [add_right_comm] at hinv3
      exact fileclose_both hinv3 hclose0 hclose1
    · cases hr
  obtain ⟨hr, -⟩ | ⟨_, hr, hnone1, rfl⟩ := fdalloc_cases (Except.ok.inj hs3)
  · cases hr
  cases hr
  have hinv3 := hinv2.giveFd hnone1 ((setFd_live p).mpr ((hlive p).mpr hp))
  obtain ⟨_, c4, hset, h4⟩ := run_bind_eq_ok.mp h3
  cases h4
  obtain ⟨s4, hs4, rfl⟩ := act_eq_ok.mp hset
  obtain ⟨d, -, hs5⟩ := bind_eq_ok.mp hs4
  obtain ⟨mem, -, hs6⟩ := bind_eq_ok.mp hs5
  obtain ⟨mem', -, hs7⟩ := bind_eq_ok.mp hs6
  cases hs7
  exact hinv3.of_same (.of_proc rfl rfl rfl rfl)

theorem close_fd {fd : Fin NOFILE} {r : Int} (h : close p fd f c = .ok (r, c')) (hinv : FdInv e c)
    (hf : (c.s.proc p).ofile fd = some f) : FdInv e c' := by
  obtain ⟨_, c1, hset, h1⟩ := run_bind_eq_ok.mp h
  cases hset
  obtain ⟨_, c2, hclose, h2⟩ := run_bind_eq_ok.mp h1
  cases h2
  exact triple_fileclose f _ _ _ hclose (hinv.clearFd hf)

theorem FsSame.fd {c c' : Ledger} (h : FsSame c c') (hinv : FdInv e c) : FdInv e c' := by
  obtain ⟨fs, mem, b, b', rfl⟩ := h
  have hsame : FdSame c.s { c.s with fs := fs, km := { c.s.km with mem := mem } } :=
    .of_proc rfl rfl rfl rfl
  exact (hinv.of_same hsame).ops b b'

theorem openFile_fd {ip : Slot} {omode : ℕ} {r : Int} (h : openFile p ip omode c = .ok (r, c'))
    (hinv : FdInv e c) (hp : c.s.live p) : FdInv e c' := by
  obtain ⟨c1, halloc, h1⟩ | ⟨f, c1, halloc, h1⟩ := opt_eq_ok.mp h
  all_goals obtain ⟨s1, hs1, rfl⟩ := kernel_eq_ok.mp halloc
  · obtain ⟨-, rfl⟩ | ⟨_, hr, -⟩ := filealloc_cases (Except.ok.inj hs1)
    · exact FsSame.fd (FsOnly.openBad ip _ _ _ h1) hinv
    · cases hr
  obtain ⟨hr, -⟩ | ⟨_, hr, href, rfl⟩ := filealloc_cases (Except.ok.inj hs1)
  · cases hr
  cases hr
  have hinv1 := hinv.alloc href
  obtain ⟨c2, hfd, h2⟩ | ⟨fd, c2, hfd, h2⟩ := opt_eq_ok.mp h1
  all_goals obtain ⟨s2, hs2, rfl⟩ := kernel_eq_ok.mp hfd
  · obtain ⟨-, rfl⟩ | ⟨_, hr, -⟩ := fdalloc_cases (Except.ok.inj hs2)
    · obtain ⟨_, c3, hclose, h3⟩ := run_bind_eq_ok.mp h2
      exact FsSame.fd (FsOnly.openBad ip _ _ _ h3) (triple_fileclose f _ _ _ hclose hinv1)
    · cases hr
  obtain ⟨hr, -⟩ | ⟨_, hr, hnone, rfl⟩ := fdalloc_cases (Except.ok.inj hs2)
  · cases hr
  cases hr
  have hinv2 := hinv1.giveFd hnone hp
  obtain ⟨_, c3, hunlock, h3⟩ := run_bind_eq_ok.mp h2
  obtain ⟨_, c4, hend, h4⟩ := run_bind_eq_ok.mp h3
  have hsame := (FsOnly.actFs _ _ _ _ hunlock).trans (FsOnly.endOp _ _ _ hend)
  have hinv3 := FsSame.fd hsame hinv2
  have hfile : c4.s.file f = { c.s.file f with ref := 1 } := by
    obtain ⟨fs, mem, b, b', rfl⟩ := hsame
    simp [setFile_file, Kernel.setProc]
  obtain ⟨_, c5, hset, h5⟩ := run_bind_eq_ok.mp h4
  cases hset
  cases h5
  -- The file was not the end of a pipe, and is not one now.
  refine hinv3.setFile (x := { c4.s.file f with
      kind := .FD_INODE ip, off := 0, readable := omode &&& O_WRONLY == 0,
      writable := omode &&& O_WRONLY != 0 || omode &&& O_RDWR != 0 }) ?_ ?_ (by simp) ?_
  · have hkind := hinv.closed f href
    simp only [hfile, File.pipeEnd, hkind]
  · intro h0
    rw [hfile] at h0
    cases h0
  · simp

theorem openPath_fd {path : Bytes} {omode : ℕ} {r : Int} (h : openPath p path omode c = .ok (r, c'))
    (hinv : FdInv e c) (hp : c.s.live p) : FdInv e c' := by
  -- The inode is found or created in the file system alone; then the file is opened.
  have hopen : ∀ {c1} {ip : Slot}, FsSame c c1 → openFile p ip omode c1 = .ok (r, c') →
      FdInv e c' := by
    intro c1 ip hsame h1
    refine openFile_fd h1 (FsSame.fd hsame hinv) ?_
    obtain ⟨fs, mem, b, b', rfl⟩ := hsame
    exact hp
  unfold openPath at h
  split_ifs at h
  · obtain ⟨c1, hcreate, h1⟩ | ⟨ip, c1, hcreate, h1⟩ := opt_eq_ok.mp h
    · exact FsSame.fd ((FsOnly.create _ _ _ _ _ _ _ _ hcreate).trans (FsOnly.ended _ _ _ _ h1)) hinv
    · exact hopen (FsOnly.create _ _ _ _ _ _ _ _ hcreate) h1
  · obtain ⟨c1, hnamei, h1⟩ | ⟨ip, c1, hnamei, h1⟩ := opt_eq_ok.mp h
    · exact FsSame.fd ((FsOnly.namei _ _ _ _ _ hnamei).trans (FsOnly.ended _ _ _ _ h1)) hinv
    · obtain ⟨_, c2, hlock, h2⟩ := run_bind_eq_ok.mp h1
      obtain ⟨di, c3, hdi, h3⟩ := run_bind_eq_ok.mp h2
      have hsame := ((FsOnly.namei _ _ _ _ _ hnamei).trans (FsOnly.actFs _ _ _ _ hlock)).trans
        (FsOnly.look _ _ _ _ hdi)
      split_ifs at h3
      · exact FsSame.fd (hsame.trans (FsOnly.openBad ip _ _ _ h3)) hinv
      · exact hopen hsame h3

theorem closeFiles_fd {u : Unit} {fds : List (Fin NOFILE)} (h : closeFiles p fds c = .ok (u, c'))
    (hinv : FdInv e c) : FdInv e c' := by
  induction fds generalizing c with
  | nil =>
    cases h
    exact hinv
  | cons fd fds ih =>
    obtain ⟨o, c1, hlook, h1⟩ := run_bind_eq_ok.mp h
    obtain ⟨ho, rfl⟩ := look_eq_ok.mp hlook
    cases o with
    | none => exact ih h1 hinv
    | some f =>
      obtain ⟨_, c2, hclose, h2⟩ := run_bind_eq_ok.mp h1
      obtain ⟨_, c3, hset, h3⟩ := run_bind_eq_ok.mp h2
      cases hset
      -- The count goes down before the descriptor is cleared.
      have hinv2 : FdInv (e - Pi.single f 1) c2 :=
        triple_fileclose f _ _ _ hclose (by rwa [sub_add_cancel])
      obtain ⟨st, hst⟩ := fileclose_proc (fileclose_eq_ok hclose) p
      have hfd : (c2.s.proc p).ofile fd = some f := by
        rw [hst]
        exact Except.ok.inj ho
      have hinv3 := hinv2.clearFd hfd
      rw [sub_add_cancel] at hinv3
      exact ih h3 hinv3

theorem exitShm_of_unused {s s' : Kernel} {is : List ShmIdx} (h : exitShm p is s = .ok s')
    (hshm : ∀ i, ((s.proc p).shared_mem i).in_use = false) : s' = s := by
  induction is with
  | nil =>
    cases h
    rfl
  | cons i is ih =>
    rw [exitShm, hshm i] at h
    exact ih h

theorem exit_fd {u : Unit} (h : exit p c = .ok (u, c')) (hinv : FdInv e c) : FdInv e c' := by
  obtain ⟨init, c1, hlook, h1⟩ := run_bind_eq_ok.mp h
  obtain ⟨-, rfl⟩ := look_eq_ok.mp hlook
  split_ifs at h1
  · cases h1
  obtain ⟨_, c2, hclose, h2⟩ := run_bind_eq_ok.mp h1
  have hinv2 := closeFiles_fd hclose hinv
  obtain ⟨_, c3, hshm, h3⟩ := run_bind_eq_ok.mp h2
  obtain ⟨s3, hshm', rfl⟩ := act_eq_ok.mp hshm
  obtain rfl := exitShm_of_unused hshm' (hinv2.noShm p)
  obtain ⟨_, c4, hmux, h4⟩ := run_bind_eq_ok.mp h3
  cases hmux
  have hinv4 := hinv2.of_same (.exitMutexes c2.s p)
  obtain ⟨cwd, c5, hcwd, h5⟩ := run_bind_eq_ok.mp h4
  obtain ⟨-, rfl⟩ := look_eq_ok.mp hcwd
  cases cwd with
  | none => cases h5
  | some cwd =>
    obtain ⟨_, c6, hbegin, h6⟩ := run_bind_eq_ok.mp h5
    obtain ⟨_, c7, hput, h7⟩ := run_bind_eq_ok.mp h6
    obtain ⟨_, c8, hend, h8⟩ := run_bind_eq_ok.mp h7
    have hsame := ((FsOnly.beginOp _ _ _ hbegin).trans (FsOnly.changeFs _ _ _ _ hput)).trans
      (FsOnly.endOp _ _ _ hend)
    have hinv8 := FsSame.fd hsame hinv4
    obtain ⟨_, c9, hset, h9⟩ := run_bind_eq_ok.mp h8
    cases hset
    cases h9
    have hcleared : FdSame c8.s (c8.s.setProc p { c8.s.proc p with cwd := none }) :=
      .setProc rfl id fun _ => id
    exact hinv8.of_same (hcleared.trans (.exitEnd _ p))

end Sys

/-! ## Forking -/

section Fork

variable {e : FIdx → ℤ} {c : Ledger} {s s' : Kernel} {p np : PIdx} {d : Pgdir}

/-- Other pages are taken and freed. -/
theorem FdInv.pages (h : FdInv e c) {m : Kmem} (hnodup : m.free.Nodup)
    (hfree : ∀ f x w, c.s.ends f = some (x, w) → x ∉ m.free) :
    FdInv e { c with s := { c.s with km := m } } :=
  ⟨h.ref, h.closed, h.sides, h.unused, h.noShm, h.pipes.pages hnodup hfree⟩

theorem forkShmRounds_fdSame {is : List ShmIdx} (h : forkShmRounds p np d is s = .ok s')
    (hshm : ∀ q i, ((s.proc q).shared_mem i).in_use = false) : FdSame s s' := by
  induction is generalizing s with
  | nil =>
    cases h
    exact .refl _
  | cons i is ih =>
    obtain ⟨s1, h1, h2⟩ := bind_eq_ok.mp h
    have hset : ∀ name,
        FdSame s (s.setShmem np i { (s.proc p).shared_mem i with name := name }) := by
      intro name
      refine .setProc rfl id fun j hj => ?_
      simp only [update_apply]
      split_ifs
      · exact hshm p i
      · exact hj
    have hsame : FdSame s s1 := by
      unfold forkShmem at h1
      dsimp only at h1
      split at h1
      · cases h1
        exact (hset _).trans (.of_proc rfl rfl rfl rfl)
      · obtain ⟨mem, -, hret⟩ := bind_eq_ok.mp h1
        cases hret
        exact (hset _).trans (.of_proc rfl rfl rfl rfl)
    exact hsame.trans (ih h2 fun q j => hsame.inUse q j (hshm q j))

theorem forkShm_fdSame (h : forkShm s p np d = .ok s')
    (hshm : ∀ q i, ((s.proc q).shared_mem i).in_use = false) : FdSame s s' := by
  unfold forkShm at h
  split_ifs at h
  · cases h
    exact .refl s
  · exact forkShmRounds_fdSame h hshm

theorem dupFiles_fd {fds : List (Fin NOFILE)} (h : dupFiles p np fds c.s = .ok s')
    (hinv : FdInv e c) (hlive : c.s.live np) (hnodup : fds.Nodup)
    (hnone : ∀ fd ∈ fds, (c.s.proc np).ofile fd = none) : FdInv e { c with s := s' } := by
  induction fds generalizing c with
  | nil =>
    cases h
    exact hinv
  | cons fd fds ih =>
    obtain ⟨hfd, hnodup⟩ := List.nodup_cons.mp hnodup
    rw [dupFiles] at h
    split at h
    · exact ih h hinv hlive hnodup fun fd' hfd' => hnone fd' (List.mem_cons_of_mem _ hfd')
    · rename_i f hf
      obtain ⟨s1, hdup, h1⟩ := bind_eq_ok.mp h
      unfold filedup at hdup
      split_ifs at hdup with href
      cases hdup
      let s1 := (c.s.setFile f { c.s.file f with ref := (c.s.file f).ref + 1 }).setFd np fd (some f)
      have hinv1 : FdInv e { c with s := s1 } :=
        (hinv.dup href).giveFd (hnone fd List.mem_cons_self) hlive
      refine ih (c := { c with s := s1 }) h1 hinv1
        ((setFd_live np).mpr hlive) hnodup fun fd' hfd' => ?_
      simp only [s1, setProc_self]
      have hother : fd' ≠ fd := fun heq => hfd (heq ▸ hfd')
      exact (update_of_ne hother _ _).trans (hnone fd' (List.mem_cons_of_mem _ hfd'))

theorem forkChild_fd (h : forkChild c.s p np d = .ok s') (hinv : FdInv e c)
    (hlive : c.s.live np) (hnone : ∀ fd, (c.s.proc np).ofile fd = none) :
    FdInv e { c with s := s' } := by
  obtain ⟨s1, s2, s3, name, s4, hshm, hfiles, hcwd, -, hprio, rfl⟩ := forkChild_eq_ok h
  let s0 := c.s.setProc np ((c.s.proc np).child (c.s.proc p) p)
  have hchild : FdSame c.s s0 := .setProc rfl id fun _ => id
  have hshared : FdSame s0 s1 := forkShm_fdSame hshm fun q i => hchild.inUse q i (hinv.noShm q i)
  have htf : FdSame s1
      (s1.setProc np { s1.proc np with tf := { (c.s.proc p).tf with eax := 0 } }) :=
    .setProc rfl id fun _ => id
  have hsame := (hchild.trans hshared).trans htf
  have hinv2 := dupFiles_fd hfiles (hinv.of_same hsame) (hsame.live np hlive)
    (List.nodup_finRange _)
    fun fd _ => by rw [hsame.ofile, hnone]
  have hdup : FdSame s2 s3 := .of_rootOnly (idupPtr_rootOnly hcwd)
  let s3' := s3.setProc np { s3.proc np with cwd := (c.s.proc p).cwd }
  have hcwd' : FdSame s3 s3' := .setProc rfl id fun _ => id
  have hname : FdSame s3' (s3'.setProc np { s3'.proc np with name := name }) :=
    .setProc rfl id fun _ => id
  have hqueue : FdSame (s3'.setProc np { s3'.proc np with name := name }) s4 := by
    obtain ⟨q, mem, rfl⟩ := forkPrio_queueOnly hprio
    exact .of_proc rfl rfl rfl rfl
  have hrun : FdSame s4 (s4.setProc np { s4.proc np with state := .RUNNABLE }) :=
    .setProc rfl nofun fun _ => id
  exact hinv2.of_same ((((hdup.trans hcwd').trans hname).trans hqueue).trans hrun)

/-- The pages that the copy of an address space takes and gives back are none of a pipe's. -/
theorem FdInv.copyuvm (h : FdInv e c) {page : ℕ} {free : List ℕ}
    (hfree : c.s.km.free = page :: free) {r : Option Pgdir} {m : Kmem} {sz : ℕ}
    (hs : s.km.free = free) (hheld : s.heldPages p = [])
    (hcopy : Dockv6.copyuvm s p d sz = .ok (r, m)) :
    m.free.Nodup ∧ page ∉ m.free ∧ ∀ f x w, c.s.ends f = some (x, w) → x ≠ page ∧ x ∉ m.free := by
  have hpipes := h.pipes
  rw [hfree] at hpipes
  let kept : Set ℕ := { x | ∃ f w, c.s.ends f = some (x, w) }
  have hpool : Pool kept (page :: free) noPages :=
    ⟨hpipes.nodup, fun hx => absurd hx (Set.notMem_empty _),
      fun hx => absurd hx (Set.notMem_empty _),
      fun hx => absurd hx (Set.notMem_empty _), fun ⟨f, w, hf⟩ => hpipes.notFree hf⟩
  have htaken : Pool (insert page kept) s.km.free noPages := by
    rw [hs]
    exact hpool.take
  have hbuilt := copyuvm_fits (S := ∅) (T := fun _ _ => False) htaken (Set.empty_subset _)
    (by simp [hheld]) (.inl fun _ _ => id) hcopy
  have hkept : m.free.Nodup ∧ ∀ {x}, x ∈ insert page kept → x ∉ m.free := by
    cases r with
    | none => exact ⟨hbuilt.nodup, hbuilt.kept_notFree⟩
    | some d' => exact ⟨hbuilt.pool.nodup, hbuilt.pool.kept_notFree⟩
  refine ⟨hkept.1, hkept.2 (Set.mem_insert _ _), fun f x w hf => ⟨?_, ?_⟩⟩
  · rintro rfl
    exact hpipes.notFree hf List.mem_cons_self
  · exact hkept.2 (Set.mem_insert_of_mem _ ⟨f, w, hf⟩)

theorem stacked_heldPages {page : ℕ} {free : List ℕ} {q : Pqueue} {mem : Mem}
    (h : ∀ q i, ((s.proc q).shared_mem i).in_use = false) :
    (s.stacked np page free q mem).heldPages p = [] := by
  refine heldPages_of_unused fun i => ?_
  simp only [Kernel.stacked, update_apply]
  split_ifs
  · rfl
  · exact h p i

/-- A slot that is tried by `fork`, or taken. -/
theorem FdSame.slot {x : Proc} {n : ℕ} {q : Pqueue} (hofile : x.ofile = (s.proc np).ofile)
    (hunused : (s.proc np).state = .UNUSED) (hshm : ∀ i, (x.shared_mem i).in_use = false) :
    FdSame s { s with proc := update s.proc np x, nextpid := n, pq := q } :=
  FdSame.trans (.setProc hofile (fun _ => hunused) fun i _ => hshm i) (.of_proc rfl rfl rfl rfl)

theorem ForkFailed.fd (h : ForkFailed c.s p d s') (hinv : FdInv e c) :
    FdInv e { c with s := s' } := by
  cases h with
  | noSlot => exact hinv
  | noStack np q mem hnp =>
    have hslot := FdSame.slot (s := c.s)
      (x := { (c.s.proc np).embryo c.s.nextpid with kstack := none, state := .UNUSED })
        (n := c.s.nextpid + 1)
      (q := q) rfl hnp.unused fun _ => rfl
    exact hinv.of_same (hslot.trans (.of_proc rfl rfl rfl rfl))
  | noCopy np page free q mem m m' hnp hfree hcopy hkfree =>
    have hslot := FdSame.slot (s := c.s)
      (x := { (c.s.proc np).embryo c.s.nextpid with
        kstack := none, pgdir := none, state := .UNUSED })
      (n := c.s.nextpid + 1) (q := q) rfl hnp.unused fun _ => rfl
    obtain ⟨hnodup, hpage, hpipes⟩ := hinv.copyuvm hfree rfl (stacked_heldPages hinv.noShm) hcopy
    obtain ⟨-, -, rfl⟩ := kfree_eq_ok hkfree
    refine (hinv.of_same hslot).pages (List.nodup_cons.mpr ⟨hpage, hnodup⟩) fun f x w hf => ?_
    obtain ⟨hne, hnot⟩ := hpipes f x w hf
    exact List.not_mem_cons_of_ne_of_not_mem hne hnot

theorem ForkOk.fd (h : ForkOk c.s p np d s') (hinv : FdInv e c) :
    FdInv e { c with s := s' } := by
  obtain ⟨hunused, page, free, q, mem, d', m, -, hfree, hcopy, hchild⟩ := h
  have hslot := FdSame.slot (s := c.s) (x := (c.s.proc np).forked c.s.nextpid page d')
    (n := c.s.nextpid + 1) (q := q) rfl hunused fun _ => rfl
  obtain ⟨hnodup, -, hpipes⟩ := hinv.copyuvm hfree rfl (stacked_heldPages hinv.noShm) hcopy
  let s1 : Kernel :=
    { c.s with
      proc := update c.s.proc np ((c.s.proc np).forked c.s.nextpid page d')
      nextpid := c.s.nextpid + 1
      pq := q
      km := m }
  have hinv1 : FdInv e { c with s := s1 } :=
    (hinv.of_same hslot).pages hnodup fun f x w hf => (hpipes f x w hf).2
  refine forkChild_fd (c := { c with s := s1 }) hchild hinv1 ?_ fun fd => ?_
  · simp [s1, Kernel.live, Proc.forked, Proc.embryo]
  · simp only [s1, update_self]
    exact hinv.unused np (fun hlive => hlive hunused) fd

theorem fork_fd {r : Int} (h : fork c.s p = .ok (r, s')) (hinv : FdInv e c) :
    FdInv e { c with s := s' } := by
  obtain ⟨d, -, ⟨-, rfl, -⟩ | ⟨s1, hs1, hrest⟩⟩ := fork_cases h
  · exact hinv
  have hcharged : FdSame c.s s1 := by cases hs1 <;> exact .of_proc rfl rfl rfl rfl
  have hinv1 := hinv.of_same hcharged
  obtain ⟨-, hfailed⟩ | ⟨np, -, hok⟩ := hrest
  · exact ForkFailed.fd (c := { c with s := s1 }) hfailed hinv1
  · exact ForkOk.fd (c := { c with s := s1 }) hok hinv1

end Fork

/-! ## Runs -/

/-- The calls that change descriptors. -/
inductive FdCall
  | open (path : Bytes) (omode : ℕ)
  | dup (fd : Fin NOFILE)
  | pipe (addr : ℕ)
  | close (fd : Fin NOFILE)
  | fork
  | exit

open Sys in
/-- Make the call for the process `p`. -/
def FdCall.run (p : PIdx) : FdCall → Sys Unit
  | .open path omode => do let _ ← FileCall.run p (.open path omode)
  | .dup fd => do let _ ← FileCall.run p (.dup fd)
  | .pipe addr => do let _ ← FileCall.run p (.pipe addr)
  | .close fd => do let _ ← FileCall.run p (.close fd)
  | .fork => do let _ ← kernel fun s => Dockv6.fork s p
  | .exit => Sys.exit p

/-- Runs of these calls, by processes that can run. -/
def fdMachine : Machine Ledger (PIdx × FdCall) where
  init c := ∃ s, Boot s ∧ c = .start s
  step c a := if c.s.canRun a.1 then (a.2.run a.1 c).toOption.map Prod.snd else none

theorem fdMachine_init (s : Kernel) (h : Boot s) : fdMachine.init (.start s) := ⟨s, h, rfl⟩

theorem fdMachine_step {c c' : Ledger} {a : PIdx × FdCall} (h : fdMachine.step c a = some c') :
    c.s.canRun a.1 ∧ ∃ u, a.2.run a.1 c = .ok (u, c') := by
  have hstep : (if c.s.canRun a.1 then (a.2.run a.1 c).toOption.map Prod.snd else none) = some c' :=
    h
  split_ifs at hstep with hrun
  obtain ⟨⟨u, c1⟩, hc, rfl⟩ := Option.map_eq_some_iff.mp hstep
  exact ⟨hrun, u, toOption_eq_some.mp hc⟩

section Runs

variable {e : FIdx → ℤ} {c c' : Ledger} {p : PIdx}

/-- A call on a descriptor that is not open does nothing. -/
theorem withFd_fd {fd : Fin NOFILE} {k : FIdx → Sys Int} {r : Int}
    (h : Sys.withFd p fd k c = .ok (r, c')) (hinv : FdInv e c)
    (hk : ∀ f, (c.s.proc p).ofile fd = some f → k f c = .ok (r, c') → FdInv e c') : FdInv e c' := by
  obtain ⟨c1, hlook, h1⟩ | ⟨f, c1, hlook, h1⟩ := Sys.opt_eq_ok.mp h
  · obtain ⟨-, rfl⟩ := Sys.look_eq_ok.mp hlook
    cases h1
    exact hinv
  · obtain ⟨hf, rfl⟩ := Sys.look_eq_ok.mp hlook
    exact hk f (Except.ok.inj hf) h1

theorem FdCall.run_fd {a : FdCall} {u : Unit} (h : a.run p c = .ok (u, c')) (hinv : FdInv e c)
    (hp : c.s.live p) : FdInv e c' := by
  cases a with
  | «open» path omode =>
    obtain ⟨_, c1, h1, hret⟩ := run_bind_eq_ok.mp h
    cases hret
    obtain ⟨_, c2, hbegin, h2⟩ := run_bind_eq_ok.mp h1
    cases hbegin
    exact Sys.openPath_fd h2 (hinv.ops _ _) hp
  | dup fd =>
    obtain ⟨_, c1, h1, hret⟩ := run_bind_eq_ok.mp h
    cases hret
    exact withFd_fd h1 hinv fun f _ h2 => Sys.dup_fd h2 hinv hp
  | pipe addr =>
    obtain ⟨_, c1, h1, hret⟩ := run_bind_eq_ok.mp h
    cases hret
    exact Sys.pipe_fd h1 hinv hp
  | close fd =>
    obtain ⟨_, c1, h1, hret⟩ := run_bind_eq_ok.mp h
    cases hret
    exact withFd_fd h1 hinv fun f hf h2 => Sys.close_fd h2 hinv hf
  | fork =>
    obtain ⟨_, c1, h1, hret⟩ := run_bind_eq_ok.mp h
    cases hret
    obtain ⟨s1, hfork, rfl⟩ := Sys.kernel_eq_ok.mp h1
    exact fork_fd hfork hinv
  | exit => exact Sys.exit_fd h hinv

theorem boot_fd {s : Kernel} (h : Boot s) : FdInv 0 (.start s) := by
  have hnodup := (boot_pageInv h).pool.nodup
  obtain ⟨b, code, p, page, free, mem, d0, d, m0, m, cwd, q, fs, -, -, -, -, -, hs⟩ := boot_cases h
  have hproc : ∀ q, s.proc q = .zero ∨ s.proc q = .first page d cwd := by
    intro q
    rw [hs]
    dsimp only
    rw [update_apply]
    split_ifs <;> simp
  have hfile : s.file = b.kernel.file := by rw [hs]
  have hpipe : s.pipe = b.kernel.pipe := by rw [hs]
  have hnone : ∀ q fd, (s.proc q).ofile fd = none := by
    intro q fd
    rcases hproc q with hq | hq <;> rw [hq] <;> rfl
  have hends : ∀ f, s.ends f = none := fun f => by
    rw [Kernel.ends, hfile]
    rfl
  have hopen : ∀ x w, s.pipeOpen x w = false := fun x w => by
    rw [Kernel.pipeOpen, hpipe]
    cases w <;> rfl
  refine ⟨fun f => ?_, fun f _ => ?_, fun f page hf => ?_, fun q _ => hnone q, fun q i => ?_, ?_⟩
  · have hcard : (refs s.ofiles f).card = 0 :=
      card_refs_eq_zero.mpr fun k hk => nomatch (hnone k.1 k.2).symm.trans hk
    show (s.file f).ref = ((refs s.ofiles f).card : ℤ) + 0
    rw [hcard, hfile]
    rfl
  · show (s.file f).kind = _
    rw [hfile]
    rfl
  · have hf' : (s.file f).kind = .FD_PIPE page := hf
    rw [hfile] at hf'
    cases hf'
  · rcases hproc q with hq | hq <;>
      (show ((s.proc q).shared_mem i).in_use = false) <;> rw [hq] <;> rfl
  · refine ⟨fun {f} _ _ hf => ?_, fun x w => ?_, hnodup, fun {f} _ _ hf => ?_, fun x => ?_⟩
    · cases (hends f).symm.trans hf
    · refine iff_of_false (fun htrue => nomatch (hopen x w).symm.trans htrue) ?_
      rintro ⟨f, hf⟩
      cases (hends f).symm.trans hf
    · cases (hends f).symm.trans hf
    · show [].count x = [].count x + if s.pipeOpen x false || s.pipeOpen x true then 1 else 0
      rw [hopen, hopen]
      rfl

theorem reach_fd (h : fdMachine.Reachable c) : FdInv 0 c := by
  refine h.invariant (I := FdInv 0) ?_ fun _ _ _ hinv _ hstep => ?_
  · rintro _ ⟨s, hboot, rfl⟩
    exact boot_fd hboot
  · obtain ⟨hrun, u, hcall⟩ := fdMachine_step hstep
    exact FdCall.run_fd hcall hinv hrun.live

theorem File.pipeEnd_eq_some {x : File} {page : ℕ} {w : Bool} :
    x.pipeEnd = some (page, w) ↔ x.kind = .FD_PIPE page ∧ x.writable = w := by
  unfold File.pipeEnd
  split <;> simp_all

/-- An end that is held is held by a file that is open. -/
theorem FdInv.pos (h : FdInv 0 c) {f : FIdx} {page : ℕ} (hf : (c.s.file f).kind = .FD_PIPE page) :
    0 < (c.s.file f).ref := by
  have href : (c.s.file f).ref = (refs c.s.ofiles f).card + 0 := h.ref f
  have hne : (c.s.file f).ref ≠ 0 := fun h0 => nomatch (h.closed f h0).symm.trans hf
  omega

/-- **The counts of open files are right**: they are the numbers of descriptors of live processes;
an end of a pipe is open exactly when there is an open file for it; `pipeclose` of the second end
puts the page on the free list and on record; and the page of a pipe is on record as freed once for
each time that it was made a pipe, except while an end is open. -/
theorem open_file_accounting (h : fdMachine.Reachable c) :
    (∀ f, (c.s.file f).ref = ((Finset.univ : Finset (PIdx × Fin NOFILE)).filter fun k =>
        c.s.live k.1 ∧ (c.s.proc k.1).ofile k.2 = some f).card) ∧
      (∀ page,
        ((c.s.pipe page).readopen = true ↔
          ∃ f, 0 < (c.s.file f).ref ∧ (c.s.file f).kind = .FD_PIPE page ∧
            (c.s.file f).readable = true) ∧
        ((c.s.pipe page).writeopen = true ↔
          ∃ f, 0 < (c.s.file f).ref ∧ (c.s.file f).kind = .FD_PIPE page ∧
            (c.s.file f).writable = true)) ∧
      c.s.km.free.Nodup ∧
      (∀ page w u c', Sys.pipeclose page w c = .ok (u, c') →
        (c'.s.km.free, c'.freed) =
          if (c.s.pipe page).isOpen (!w) then (c.s.km.free, c.freed)
          else (page :: c.s.km.free, page :: c.freed)) ∧
      ∀ page,
        c.made.count page = c.freed.count page +
          (if (c.s.pipe page).readopen || (c.s.pipe page).writeopen then 1 else 0) ∧
        ((c.s.pipe page).readopen = true ∨ (c.s.pipe page).writeopen = true →
          page ∉ c.s.km.free) := by
  have hinv := reach_fd h
  refine ⟨fun f => ?_, fun page => ⟨?_, ?_⟩, hinv.pipes.nodup, fun page w u c' hclose => ?_,
    fun page => ⟨hinv.pipes.count page, ?_⟩⟩
  · have href : (c.s.file f).ref = (refs c.s.ofiles f).card + 0 := hinv.ref f
    rw [href, add_zero]
    refine congrArg (fun A : Finset _ => (A.card : ℤ)) (Finset.filter_congr fun k _ => ?_)
    refine ⟨fun hk => ⟨?_, hk⟩, fun hk => hk.2⟩
    -- A slot that is not in use has no descriptors.
    by_contra hlive
    cases (hinv.unused k.1 hlive k.2).symm.trans hk
  · refine (hinv.pipes.open_iff page false).trans ⟨?_, ?_⟩
    · rintro ⟨f, hf⟩
      obtain ⟨hkind, hwritable⟩ := File.pipeEnd_eq_some.mp hf
      refine ⟨f, hinv.pos hkind, hkind, ?_⟩
      rw [hinv.sides f page hkind, hwritable]
      rfl
    · rintro ⟨f, -, hkind, hreadable⟩
      have hsides := hinv.sides f page hkind
      rw [hreadable] at hsides
      exact ⟨f, File.pipeEnd_eq_some.mpr ⟨hkind, by simpa using hsides.symm⟩⟩
  · refine (hinv.pipes.open_iff page true).trans ⟨?_, ?_⟩
    · rintro ⟨f, hf⟩
      obtain ⟨hkind, hwritable⟩ := File.pipeEnd_eq_some.mp hf
      exact ⟨f, hinv.pos hkind, hkind, hwritable⟩
    · rintro ⟨f, -, hkind, hwritable⟩
      exact ⟨f, File.pipeEnd_eq_some.mpr ⟨hkind, hwritable⟩⟩
  · obtain ⟨chan, m, hm, rfl⟩ := Sys.pipeclose_ledger hclose
    dsimp only
    rw [hm]
    split_ifs <;> rfl
  · rintro (hopen | hopen)
    · obtain ⟨f, hf⟩ := (hinv.pipes.open_iff page false).mp hopen
      exact hinv.pipes.notFree hf
    · obtain ⟨f, hf⟩ := (hinv.pipes.open_iff page true).mp hopen
      exact hinv.pipes.notFree hf

end Runs

set_option maxRecDepth 100000 in
/-- A pipe is made and the caller forks: its file has two descriptors. Another pipe has been made
and closed: its page is free. -/
theorem open_file_accounting_pipe : ∃ c, fdMachine.Reachable c ∧ (c.s.file 0).ref = 2 ∧
    ((Finset.univ : Finset (PIdx × Fin NOFILE)).filter fun k =>
      c.s.live k.1 ∧ (c.s.proc k.1).ofile k.2 = some 0).card = 2 ∧
    ∃ page, page ∈ c.s.km.free ∧ c.made.count page = 1 ∧ c.freed.count page = 1 := by
  have hrun : (smallBoot.toOption.bind fun s => (fdMachine.restrict fun _ _ => true).exec (.start s)
      [(0, .pipe 0), (0, .fork), (1, .pipe 0), (1, .close 2), (1, .close 3)]).any
      (fun c => (c.s.file 0).ref = 2 ∧ (c.freed.head?.any fun page =>
        page ∈ c.s.km.free ∧ c.freed.count page = 1 ∧ (c.s.pipe page).readopen = false ∧
          (c.s.pipe page).writeopen = false) = true) = true := by
    decide +kernel
  obtain ⟨c, hc, hP⟩ : ∃ c, fdMachine.Reachable c ∧ _ :=
    exists_of_smallBoot fdMachine_init (fun _ _ _ => trivial) hrun
  obtain ⟨href, hfreed⟩ := of_decide_eq_true hP
  obtain ⟨page, -, hpage⟩ := (Option.any_eq_true _ _).mp hfreed
  obtain ⟨hfree, hone, hread, hwrite⟩ := of_decide_eq_true hpage
  obtain ⟨hcounts, -, -, -, hpages⟩ := open_file_accounting hc
  have hcount := hcounts 0
  rw [href] at hcount
  have hmade := (hpages page).1
  rw [hone, hread, hwrite] at hmade
  exact ⟨c, hc, href, by exact_mod_cast hcount.symm, page, hfree, hmade, hone⟩

end Dockv6
