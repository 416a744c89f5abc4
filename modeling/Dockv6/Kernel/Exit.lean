import Dockv6.Kernel.Quiet

/-!
# What exit and wait do

`exit_cases` and `wait_cases` take the two calls apart. The last part of `exit` wakes the parent and
passes the children on, so it changes the fields `parent` and the states of sleeping processes
besides making the caller a zombie (`Passed`).
-/

namespace Dockv6

open Kernel

variable {s s' : Kernel} {p : PIdx}

/-- A process without what the last part of `exit` may change of any process. -/
def Proc.orphaned (x : Proc) : Proc :=
  { x with state := x.state.awake, parent := none, cwd := none }

/-- The last part of `exit`: `p` is a zombie, and the rest is the same but for parents, wake-ups and
the disk. -/
structure Passed (p : PIdx) (s s' : Kernel) : Prop where
  self : (s'.proc p).orphaned = ({ s.proc p with state := .ZOMBIE } : Proc).orphaned
  others : ∀ q, q ≠ p → (s'.proc q).orphaned = (s.proc q).orphaned
  mux : s'.mux = s.mux
  shm : s'.shm = s.shm
  km : s'.km = s.km
  pipe : s'.pipe = s.pipe
  nextpid : s'.nextpid = s.nextpid
  pq : s'.pq = s.pq

/-- The other fields are the same, of every process. -/
theorem Passed.field {α : Type*} (h : Passed p s s') (f : Proc → α)
    (hf : ∀ (x : Proc) st par cwd, f { x with state := st, parent := par, cwd := cwd } = f x)
    (q : PIdx) : f (s'.proc q) = f (s.proc q) := by
  have horphaned : ∀ {x y : Proc}, x.orphaned = y.orphaned → f x = f y := fun {x y} hxy =>
    (hf x _ _ _).symm.trans ((congrArg f hxy).trans (hf y _ _ _))
  by_cases hq : q = p
  · rw [hq]
    exact (horphaned h.self).trans (hf (s.proc p) .ZOMBIE _ _)
  · exact horphaned (h.others q hq)

theorem Passed.awake {q : PIdx} (h : Passed p s s') (hq : q ≠ p) :
    (s'.proc q).state.awake = (s.proc q).state.awake :=
  congrArg Proc.state (h.others q hq)

theorem Passed.zombie (h : Passed p s s') : (s'.proc p).state = .ZOMBIE := by
  have hstate : (s'.proc p).state.awake = ProcState.awake .ZOMBIE := congrArg Proc.state h.self
  exact (ProcState.zombie_iff hstate).mpr rfl

theorem orphaned_wakeup1 (s : Kernel) (chan : Option Chan) (q : PIdx) :
    ((wakeup1 s chan).proc q).orphaned = (s.proc q).orphaned := by
  unfold wakeup1
  dsimp only
  split_ifs with hq
  · simp only [Proc.orphaned, hq.1, ProcState.awake]
  · rfl

theorem orphaned_reparent (s : Kernel) (p q : PIdx) :
    ((reparent s p).proc q).orphaned = (s.proc q).orphaned := by
  unfold reparent
  dsimp only
  split_ifs <;> rfl

/-- The steps of `exit` up to its end. -/
theorem exit_steps (h : exit s p = .ok s') :
    s.initproc ≠ some p ∧ ∃ s1 s2 s3 cwd, closeFiles p (List.finRange NOFILE) s = .ok s1 ∧
      exitShm p (List.finRange SHM_MAXNUM) s1 = .ok s2 ∧ exitMutexes s2 p = s3 ∧
      (s3.proc p).cwd = some cwd ∧
      s' = exitEnd { s3.setProc p { s3.proc p with cwd := none } with fs := iput s3.fs cwd } p := by
  unfold exit at h
  split_ifs at h with hinit
  obtain ⟨s1, hfiles, h⟩ := bind_eq_ok.mp h
  obtain ⟨s2, hshm, h⟩ := bind_eq_ok.mp h
  dsimp only at h
  split at h
  · cases h
  rename_i cwd hcwd
  cases h
  exact ⟨hinit, s1, s2, _, cwd, hfiles, hshm, rfl, hcwd, rfl⟩

/-- At its end the process is a zombie; before that parents and the states of sleepers change. -/
theorem exitEnd_eq (s : Kernel) (p : PIdx) :
    ∃ s1, exitEnd s p = s1.setProc p { s1.proc p with state := .ZOMBIE } ∧
      (s1 = reparent (wakeup1 s ((s.proc p).parent.map .proc)) p ∨
        ∃ chan, s1 = wakeup1 (reparent (wakeup1 s ((s.proc p).parent.map .proc)) p) chan) := by
  refine ⟨_, rfl, ?_⟩
  split_ifs
  · exact .inr ⟨_, rfl⟩
  · exact .inl rfl

theorem exit_cases (h : exit s p = .ok s') :
    s.initproc ≠ some p ∧ ∃ s1 s2, closeFiles p (List.finRange NOFILE) s = .ok s1 ∧
      exitShm p (List.finRange SHM_MAXNUM) s1 = .ok s2 ∧ Passed p (exitMutexes s2 p) s' := by
  obtain ⟨hinit, s1, s2, s3, cwd, hfiles, hshm, rfl, -, rfl⟩ := exit_steps h
  refine ⟨hinit, s1, s2, hfiles, hshm, ?_⟩
  generalize exitMutexes s2 p = s3
  let y : Proc := { s3.proc p with cwd := none }
  let s4 : Kernel := { s3.setProc p y with fs := iput s3.fs cwd }
  obtain ⟨s5, hend, hs5⟩ := exitEnd_eq s4 p
  have h5 : ∀ q, ((reparent (wakeup1 s4 ((s4.proc p).parent.map .proc)) p).proc q).orphaned =
      (s3.proc q).orphaned := fun q =>
    (orphaned_reparent _ p q).trans
        ((orphaned_wakeup1 _ _ q).trans (setProc_field (x := y) Proc.orphaned rfl q))
  have hlast : (∀ q, (s5.proc q).orphaned = (s3.proc q).orphaned) ∧ s5.mux = s3.mux ∧
    s5.shm = s3.shm ∧
      s5.km = s3.km ∧ s5.pipe = s3.pipe ∧ s5.nextpid = s3.nextpid ∧ s5.pq = s3.pq := by
    obtain rfl | ⟨chan, rfl⟩ := hs5
    · exact ⟨h5, rfl, rfl, rfl, rfl, rfl, rfl⟩
    · exact ⟨fun q => (orphaned_wakeup1 _ _ q).trans (h5 q), rfl, rfl, rfl, rfl, rfl, rfl⟩
  obtain ⟨hproc, hmux, hshm, hkm, hpipe, hnext, hpq⟩ := hlast
  show Passed p s3 (exitEnd s4 p)
  rw [hend]
  refine ⟨?_, fun q hq => ?_, hmux, hshm, hkm, hpipe, hnext, hpq⟩
  · rw [setProc_self]
    exact congrArg (fun x : Proc => { x with state := .ZOMBIE }) (hproc p)
  · rw [setProc_of_ne _ _ _ hq, hproc q]

theorem waitCredit_eq_ok (h : waitCredit s p = .ok s') :
    ∃ c, s' = { s with containers := c } ∧ ∀ i, (c i).root = (s.containers i).root := by
  unfold waitCredit at h
  split_ifs at h
  · cases h
    exact ⟨s.containers, rfl, fun _ => rfl⟩
  · split at h
    · cases h
    · cases h
      refine ⟨_, rfl, fun i => ?_⟩
      rw [Function.update_apply]
      split_ifs with hi
      · rw [hi]
      · rfl

/-- **The outcomes of `wait`.** A zombie among the children is freed; or the caller does not wait;
or it goes to sleep. -/
theorem wait_cases {r : Option Int} (h : wait s p = .ok (r, s')) :
    (∃ q page d m m' c, s.zombieChild p = some q ∧ (s.proc q).kstack = some page ∧
      (s.proc q).pgdir = some d ∧ kfree s.km page = .ok m ∧ freevm (s.sharedPas p) d m = .ok m' ∧
      (∀ i, (c i).root = (s.containers i).root) ∧
      s' = { s.setProc q (s.proc q).freed with km := m', containers := c }) ∨
    s' = s ∨ s' = s.setProc p { s.proc p with state := .SLEEPING, chan := some (.proc p) } := by
  unfold wait at h
  split at h
  · rename_i q hq
    obtain ⟨s1, hreap, h⟩ := bind_eq_ok.mp h
    obtain ⟨s2, hcredit, h⟩ := bind_eq_ok.mp h
    cases h
    obtain ⟨page, d, m, m', hpage, hd, hm, hm', rfl⟩ := reap_eq_ok hreap
    obtain ⟨c, rfl, hroot⟩ := waitCredit_eq_ok hcredit
    exact .inl ⟨q, page, d, m, m', c, hq, hpage, hd, hm, hm', hroot, rfl⟩
  · split_ifs at h
    · cases h
      exact .inr (.inl rfl)
    · cases h
      exact .inr (.inr rfl)

end Dockv6
