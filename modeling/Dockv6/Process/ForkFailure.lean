import Dockv6.Kernel.Queue

/-!
# A fork that fails

`fork` charges the container, enqueues the slot that `allocproc` takes and only then asks for
memory, and undoes neither when it fails. So it leaves everything as it was when it stops before
them, and only then.
-/

namespace Dockv6

open Kernel

variable {s s' : Kernel} {p : PIdx} {d : Pgdir}

/-- What a failed `fork` should leave as it was. -/
structure Restored (s s' : Kernel) : Prop where
  nproc : ∀ c, (s'.containers c).nproc = (s.containers c).nproc
  state : ∀ q, (s'.proc q).state = (s.proc q).state
  bin : s'.pq.bin = s.pq.bin
  refcount : ∀ g, (s'.shm g).refcount = (s.shm g).refcount
  file : ∀ f, (s'.file f).ref = (s.file f).ref
  inode : ∀ i, (s'.fs.icache i).ref = (s.fs.icache i).ref
  free : ∀ page, page ∈ s'.km.free ↔ page ∈ s.km.free

theorem Restored.refl (s : Kernel) : Restored s s :=
  ⟨fun _ => rfl, fun _ => rfl, rfl, fun _ => rfl, fun _ => rfl, fun _ => rfl, fun _ => Iff.rfl⟩

/-- The container of the process is not allowed another process. -/
def Kernel.full (s : Kernel) (p : PIdx) : Prop :=
  (s.proc p).container_id ≠ 0 ∧ ∃ c, (s.proc p).container = some c ∧ (s.containers c).nproc = 0

theorem udec_ne (n : ℕ) : udec n ≠ n := by
  unfold udec
  simp only [UINT_MAX]
  omega

theorem Charged.not_full {s1 : Kernel} (h : Charged s p s1) : ¬ s.full p := by
  rintro ⟨hid, c, hc, hzero⟩
  cases h with
  | outside hout => exact hid hout
  | inside c' _ hc' hn =>
    obtain rfl : c' = c := Option.some.inj (hc'.symm.trans hc)
    exact hn hzero

/-- A charge that is not undone shows in the container. -/
theorem Charged.eq_outside {s1 : Kernel} (h : Charged s p s1)
    (hsame : ∀ c, (s1.containers c).nproc = (s.containers c).nproc) :
    (s.proc p).container_id = 0 := by
  cases h with
  | outside hout => exact hout
  | inside c =>
    have hc := hsame c
    rw [setContainer_containers, if_pos rfl] at hc
    exact absurd hc (udec_ne _)

/-- The slot that `allocproc` takes makes its bin larger. -/
theorem Taken.bin_ne {prio : ℕ} {np : PIdx} {q : Pqueue} {mem : Mem} (h : Taken s d prio np q mem) :
    q.bin ≠ s.pq.bin := by
  intro heq
  obtain ⟨-, hq⟩ := pqueueEnqueue_some h.enqueued
  have hq' : q = s.pq.enqueue np prio := hq
  have hsize : (q.bin prio).size = (s.pq.bin prio).size + 1 := by
    rw [hq']
    simp [Pqueue.enqueue]
  rw [heq] at hsize
  omega

theorem Charged.pq {s1 : Kernel} (h : Charged s p s1) : s1.pq = s.pq := by
  cases h <;> rfl

/-- **A failed `fork` leaves the tables as they were** exactly when it stops before the charge and
before `allocproc` takes a slot. -/
theorem fork_restored_iff (h : fork s p = .ok (-1, s')) :
    Restored s s' ↔ s.full p ∨ ((s.proc p).container_id = 0 ∧ ∀ q, s.live q) := by
  obtain ⟨d, -, ⟨-, rfl, hlimit⟩ | ⟨s1, hcharged, ⟨-, hfailed⟩ | ⟨np, hpid, -⟩⟩⟩ := fork_cases h
  · exact ⟨fun _ => .inl hlimit, fun _ => .refl s'⟩
  · -- Past the charge the limit was not reached, so the second alternative is the question.
    rw [or_iff_right hcharged.not_full]
    have hlive : ∀ q, s1.live q ↔ s.live q :=
      fun q => by rw [Kernel.live, hcharged.proc, ← Kernel.live]
    have htaken : ∀ {np q mem}, Taken s1 d (s1.pq.priority p) np q mem → s'.pq = q →
        ¬ Restored s s' ∧ ¬ ∀ r, s.live r := by
      intro np q mem hnp hq
      refine ⟨fun hres => hnp.bin_ne ?_, fun hall => (hlive np).mpr (hall np) hnp.unused⟩
      rw [← hq, hres.bin, hcharged.pq]
    cases hfailed with
    | noSlot hall =>
      refine ⟨fun hres => ⟨hcharged.eq_outside hres.nproc, fun q => (hlive q).mp (hall q)⟩, ?_⟩
      rintro ⟨hout, -⟩
      cases hcharged with
      | outside => exact .refl s
      | inside _ hin => exact absurd hout hin
    | noStack np q mem hnp =>
      obtain ⟨hres, hall⟩ := htaken hnp rfl
      exact iff_of_false hres fun hright => hall hright.2
    | noCopy np page free q mem m m' hnp =>
      obtain ⟨hres, hall⟩ := htaken hnp rfl
      exact iff_of_false hres fun hright => hall hright.2
  · omega

/-- At the limit of its container a process may call `fork` as often as it likes. -/
theorem fork_restored_iff_limit :
    ∃ s s', kernelMachine.Reachable s ∧ fork s 1 = .ok (-1, s') ∧ Restored s s' := by
  have hrun : (bootRun kernelMachine [(0, .cmCreateAndEnter [98] [47] 1)]).any
      (fun s => (fork s 1).toOption.any fun r => decide (r.1 = -1 ∧ (s.proc 1).container_id = 1 ∧
        (s.proc 1).container = some 0 ∧ (s.containers 0).nproc = 0)) = true := by
    decide +kernel
  obtain ⟨s, ⟨r, s'⟩, hs, hfork, hP⟩ := exists_of_bootRun (fun _ => id) hrun
  obtain ⟨rfl, hid, hc, hn⟩ := of_decide_eq_true hP
  refine ⟨s, s', hs, hfork, (fork_restored_iff hfork).mpr (.inl ⟨?_, 0, hc, hn⟩)⟩
  rw [hid]
  decide

/-- With 60 pages left there is no room for the page table of a fifth child: the call fails, and the
slot it tried stays in its bin. -/
theorem fork_failure_stays_enqueued :
    ∃ s s', kernelMachine.Reachable s ∧ fork s 0 = .ok (-1, s') ∧ ¬ Restored s s' := by
  have hrun : (bootRun kernelMachine [(0, .fork), (0, .fork), (0, .fork), (0, .fork)]).any
      (fun s => (fork s 0).toOption.any fun r => decide (r.1 = -1 ∧ r.2.pq.bin 0 ≠ s.pq.bin 0)) =
          true := by
    decide +kernel
  obtain ⟨s, ⟨r, s'⟩, hs, hfork, hP⟩ := exists_of_bootRun (fun _ => id) hrun
  obtain ⟨rfl, hbin⟩ := of_decide_eq_true hP
  exact ⟨s, s', hs, hfork, fun hres => hbin (congrFun hres.bin 0)⟩

end Dockv6
