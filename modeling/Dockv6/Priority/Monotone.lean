import Dockv6.Kernel.Queue

/-!
# Priorities are not raised

A smaller number is a higher priority. `prio_set` compares with the priority of the first process
that has the pid and then changes what it finds with this pid in the queue, which is the same
process. `fork` gives the child the priority of the parent. This is so while `prio_set` asks for
priorities below `NBIN` (`hasBin`): with others, `pqueue_enqueue` takes other words of the kernel
for a bin, and one of them can be a priority (`priority_raised`).
-/

namespace Dockv6

open Kernel Function

variable {s s' : Kernel} {p np : PIdx} {d : Pgdir}

/-- The processes have no higher priority than before, and a new one none higher than `p`. -/
structure NotRaised (s : Kernel) (p : PIdx) (s' : Kernel) : Prop where
  le : ∀ {q}, s.live q → s.pq.priority q ≤ s'.pq.priority q
  child : ∀ {q}, ¬ s.live q → s'.live q → s.pq.priority p ≤ s'.pq.priority q

theorem NotRaised.of_settled (h : Settled s s') : NotRaised s p s' where
  le _ := by rw [h.pq]
  child {q} hq hq' := by
    obtain ⟨-, hiff⟩ | ⟨-, hdead⟩ := h.proc q
    · exact absurd (hiff.mp hq') hq
    · exact absurd hq' hdead

/-! ## The calls of `prio_set` -/

/-- With one process of the pid at most, no priority is raised. -/
theorem prioSet_le {cur : PIdx} {pid priority r : Int}
    (h : prioSet s cur d pid priority = .ok (r, s'))
    (hpid : ∀ p q, ((s.proc p).pid : Int) = pid → ((s.proc q).pid : Int) = pid → p = q) (q : PIdx) :
    s.pq.priority q ≤ s'.pq.priority q := by
  obtain hsame | ⟨t, u, n, ht, hu, hlt, hprio⟩ := prioSet_priority h
  · rw [hsame]
  · obtain rfl := hpid t u ht hu
    rw [hprio, update_apply]
    split_ifs with hq
    · rw [hq]
      exact hlt.le
    · exact le_rfl

/-- No process has the pid `0`. -/
theorem prioSet_notRaised {cur : PIdx} {pid priority r : Int}
    (h : prioSet s cur d pid priority = .ok (r, s')) (hinv : PidInv s) : NotRaised s p s' where
  le {q} hlive := by
    by_cases hzero : pid = 0
    · obtain hsame | ⟨t, u, n, -, hu, -, hprio⟩ := prioSet_priority h
      · rw [hsame]
      · have hne : q ≠ u := by
          rintro rfl
          have hpos := hinv.pos hlive
          omega
        rw [hprio, update_of_ne hne]
    · refine prioSet_le h (fun t u ht hu => hinv.unique ?_ ?_) q <;> omega
  child hq hq' := by
    obtain ⟨pq, mem, rfl⟩ := prioSet_queueOnly h
    exact absurd hq' hq

theorem forkPrio_le (h : forkPrio s p np d = .ok s')
    (hpid : ∀ q, (s.proc q).pid = (s.proc np).pid → q = np) (q : PIdx) :
    s.pq.priority q ≤ s'.pq.priority q := by
  have hunique : ∀ t u, ((s.proc t).pid : Int) = (s.proc np).pid →
      ((s.proc u).pid : Int) = (s.proc np).pid → t = u := fun t u ht hu =>
    (hpid t (Int.ofNat_inj.mp ht)).trans (hpid u (Int.ofNat_inj.mp hu)).symm
  obtain ⟨⟨r1, s1⟩, h1, h⟩ := bind_eq_ok.mp h
  obtain ⟨⟨r2, s2⟩, h2, h⟩ := bind_eq_ok.mp h
  cases h
  unfold forkPrioBelow at h1
  split_ifs at h1
  · have hbelow := prioSet_le h1 hunique q
    obtain ⟨pq, mem, rfl⟩ := prioSet_queueOnly h1
    exact hbelow.trans (prioSet_le h2 hunique q)
  · cases h1
    exact prioSet_le h2 hunique q

/-! ## Fork -/

theorem Spawn.notRaised (h : Spawn s p np s') (hinv : PidInv s) : NotRaised s p s' := by
  have henq : ∀ q, q ≠ np →
      (s.pq.enqueue np (s.pq.priority p)).priority q = s.pq.priority q := fun q hq =>
    update_of_ne hq _ _
  by_cases hlive : s'.live np
  · obtain ⟨s1, s2, d, hpq, hothers, hpid, hprio, hpq'⟩ := h.made hlive
    have hle := forkPrio_le hprio fun q hq => by
      by_contra hne
      have hlt := hinv.lt q
      rw [hothers q hne, hpid] at hq
      omega
    rw [hpq, ← hpq'] at hle
    refine ⟨fun {q} hq => ?_, fun {q} hq hq' => ?_⟩
    · have hne : q ≠ np := fun heq => h.unused (heq ▸ hq)
      exact (henq q hne).ge.trans (hle q)
    · obtain rfl : q = np := by
        by_contra hne
        rw [live, h.others q hne] at hq'
        exact hq hq'
      have hself : (s.pq.enqueue q (s.pq.priority p)).priority q = s.pq.priority p :=
        update_self _ _ _
      exact hself.ge.trans (hle q)
  · refine ⟨fun {q} hq => ?_, fun {q} hq hq' => absurd hq' ?_⟩
    · have hne : q ≠ np := fun heq => h.unused (heq ▸ hq)
      rw [h.failed hlive, henq q hne]
    · by_cases hne : q = np
      · rwa [hne]
      · rwa [live, h.others q hne]

theorem Call.run_notRaised {c : Call} (h : c.run s p = .ok s') (hp : s.canRun p) (hinv : PidInv s) :
    NotRaised s p s' := by
  by_cases hmoves : c.movesQueue = false
  · exact .of_settled (c.run_settled h hp hmoves)
  cases c.ran h with
  | fork h =>
    obtain hsettled | ⟨np, hspawn⟩ := fork_spawn h hp.live
    · exact .of_settled hsettled
    · exact hspawn.notRaised hinv
  | prioSet h => exact prioSet_notRaised h hinv
  | cmCreateAndEnter h =>
    obtain hsettled | ⟨s1, s2, np, hsettled, -, hlive, hspawn, rfl⟩ :=
      cmCreateAndEnter_spawn h hp.live
    · exact .of_settled hsettled
    · obtain ⟨hle, hchild⟩ := hspawn.notRaised (hinv.of_settled hsettled)
      have hleave := cmLeave_settled s2 p
      rw [hsettled.pq, ← hleave.pq] at hle hchild
      refine ⟨fun {q} hq => hle ((hlive q).mpr hq), fun {q} hq hq' => ?_⟩
      refine hchild (mt (hlive q).mp hq) ?_
      obtain ⟨-, hiff⟩ | ⟨-, hdead⟩ := hleave.proc q
      · exact hiff.mp hq'
      · exact absurd hq' hdead
  | exit | wait | kill | exec | sbrk | mGet | mRem | cmMaxproc | cmSetroot | mutexCreate
  | mutexDelete | store | other => exact absurd rfl hmoves

/-! ## Ancestors -/

/-- The kernel, and for each process the priorities of its ancestors when they forked, from its
parent on. -/
structure Lineage where
  k : Kernel
  line : PIdx → List ℕ

/-- The ancestors after a call by `p` that leads to `t`. -/
def Lineage.descend (x : Lineage) (p : PIdx) (t : Kernel) (q : PIdx) : List ℕ :=
  if ¬ x.k.live q ∧ t.live q then x.k.pq.priority p :: x.line p else x.line q

/-- The kernel with the record. -/
def lineageMachine : Machine Lineage (PIdx × Call) where
  init x := Boot x.k ∧ x.line = fun _ => []
  step x a := (kernelMachine.step x.k a).map fun t => { k := t, line := x.descend a.1 t }

/-- A process has no higher priority than any of its ancestors when it forked. -/
def Lineage.below (x : Lineage) : Prop :=
  ∀ q, x.k.live q → ∀ n ∈ x.line q, n ≤ x.k.pq.priority q

theorem Lineage.below.step {x : Lineage} {t : Kernel} (h : x.below) (hp : x.k.live p)
    (ht : NotRaised x.k p t) : (⟨t, x.descend p t⟩ : Lineage).below := by
  intro q hq n hn
  dsimp only [Lineage.descend] at hn hq ⊢
  split_ifs at hn with hnew
  · have hchild := ht.child hnew.1 hq
    obtain rfl | hn := List.mem_cons.mp hn
    · exact hchild
    · exact (h p hp n hn).trans hchild
  · have hlive : x.k.live q := by
      by_contra hq'
      exact hnew ⟨hq', hq⟩
    exact (h q hlive n hn).trans (ht.le hlive)

theorem lineageMachine_step {x y : Lineage} {c : Call} (h : lineageMachine.step x (p, c) = some y) :
    x.k.canRun p ∧ c.run x.k p = .ok y.k ∧ y.line = x.descend p y.k := by
  obtain ⟨t, ht, rfl⟩ := Option.map_eq_some_iff.mp h
  obtain ⟨hp, hrun⟩ := kernelMachine_step ht
  exact ⟨hp, hrun, rfl⟩

theorem reach_below {ok : Lineage → PIdx × Call → Prop} {x : Lineage}
    (h : lineageMachine.Reach ok x) : PidInv x.k ∧ x.below := by
  refine h.invariant (I := fun x => PidInv x.k ∧ x.below) (fun x hx => ?_)
    fun x y a ⟨hinv, hbelow⟩ _ hst => ?_
  · refine ⟨boot_pidInv hx.1, fun q _ n hn => ?_⟩
    rw [hx.2] at hn
    cases hn
  · obtain ⟨p, c⟩ := a
    obtain ⟨hp, hrun, hline⟩ := lineageMachine_step hst
    refine ⟨Call.run_pidInv hrun hp hinv, ?_⟩
    have hstep := hbelow.step hp.live (Call.run_notRaised hrun hp hinv)
    rwa [← hline] at hstep

/-- A call of `prio_set` that is not refused asks for a priority that has a bin. -/
def Kernel.hasBin (s : Kernel) (p : PIdx) : Call → Prop
  | .prioSet pid n => ∀ q, s.withPid pid = some q → s.pq.priority q < touint n →
      mayPrioSet s p pid q = .ok true → touint n < NBIN
  | _ => True

instance (s : Kernel) (p : PIdx) : (c : Call) → Decidable (s.hasBin p c)
  | .prioSet .. => inferInstanceAs (Decidable (∀ _, _ → _ → _ → _))
  | .fork | .exit | .wait | .kill _ | .exec .. | .sbrk _ | .mGet _ | .mRem _ | .cmCreateAndEnter ..
  | .cmMaxproc _
  | .cmSetroot .. | .mutexCreate _ | .mutexDelete _ | .store .. | .other _ => .isTrue trivial

/-- The size of `struct list`. -/
abbrev LIST_SIZE : ℕ := 12

/-- `pqueue_enqueue` of the process at the address `p`, with `pqueue.Arr` at `arr`. -/
def enqueueWords (arr : ℕ) (w : ℕ → ℕ) (p priority : ℕ) : ℕ → ℕ :=
  let w := update w (p + PRIORITY_OFF) priority
  let bin := (arr + LIST_SIZE * priority) % 2 ^ 32
  let w :=
    if w bin = 0 then update (update w (bin + 4) p) bin p
    else update (update w (w (bin + 4) + NEXT_OFF) p) (bin + 4) p
  let w := update w (bin + 8) (uinc (w (bin + 8)))
  update w (p + NEXT_OFF) 0

namespace Kernel

/-- The words hold the queue: the links and priorities of the processes, and the bins at `arr`. -/
def StoredAt (s : Kernel) (arr : ℕ) (w : ℕ → ℕ) : Prop :=
  (∀ q : PIdx, w (s.procAddr q + PRIORITY_OFF) = s.pq.priority q ∧
    w (s.procAddr q + NEXT_OFF) = s.procAddr (s.pq.next q)) ∧
  ∀ i < NBIN, w (arr + LIST_SIZE * i) = s.procAddr (s.pq.bin i).head ∧
    w (arr + LIST_SIZE * i + 4) = s.procAddr (s.pq.bin i).tail ∧
    w (arr + LIST_SIZE * i + 8) = touint (s.pq.bin i).size

/-- The kernel with the queue that the words hold. -/
def load (s : Kernel) (arr : ℕ) (w : ℕ → ℕ) : Kernel :=
  let procAt (a : ℕ) : Option PIdx := (List.finRange NPROC).find? fun q => s.procAddr q == w a
  s.setPq
    { bin := fun i =>
        { head := procAt (arr + LIST_SIZE * i), tail := procAt (arr + LIST_SIZE * i + 4),
          size := w (arr + LIST_SIZE * i + 8) }
      priority := fun q => w (s.procAddr q + PRIORITY_OFF)
      next := fun q => procAt (s.procAddr q + NEXT_OFF) }

/-- The words with the links of the queue. -/
def storeNext (s : Kernel) (w : ℕ → ℕ) (a : ℕ) : ℕ :=
  match (List.finRange NPROC).find? fun q : PIdx => s.procAddr q + NEXT_OFF == a with
  | none => w a
  | some q => s.procAddr (s.pq.next q)

end Kernel

/-- `prio_set` on the words. -/
def prioSetWords (s : Kernel) (arr : ℕ) (w : ℕ → ℕ) (cur : PIdx) (pid priority : Int) : Res
    (Int × (ℕ → ℕ)) :=
  prioSetWith (fun _ => w)
    (fun s p n =>
      match p with
      | none => .error .undefined
      | some p => .ok (enqueueWords arr (s.storeNext w) (s.procAddr p) n))
    (s.load arr w) cur pid priority

theorem touint_succ (n : Int) : touint (n + 1) = uinc (touint n) := by
  unfold touint uinc
  omega

section Words

variable {arr n i : ℕ} {w w' : ℕ → ℕ}

/-- Writing `priority` and `next` of a process. -/
theorem Kernel.StoredAt.setProcWords {next : Option PIdx} (h : s.StoredAt arr w)
    (harr : arr + LIST_SIZE * NBIN ≤ s.ptableAddr) (hprio : w' (s.procAddr p + PRIORITY_OFF) = n)
    (hnext : w' (s.procAddr p + NEXT_OFF) = s.procAddr next)
    (hrest : ∀ a, a ≠ s.procAddr p + PRIORITY_OFF → a ≠ s.procAddr p + NEXT_OFF → w' a = w a) :
    (s.setPq { s.pq with
      priority := update s.pq.priority p n, next := update s.pq.next p next }).StoredAt arr w' := by
  simp only [procAddr, PRIORITY_OFF, NEXT_OFF, PROC_SIZE, NBIN, LIST_SIZE] at hprio hnext hrest harr
  refine ⟨fun q => ?_, fun i hi => ?_⟩
  · show w' (s.ptableAddr + 316 * q + 308) = update s.pq.priority p n q ∧
      w' (s.ptableAddr + 316 * q + 312) = s.procAddr (update s.pq.next p next q)
    by_cases hq : q = p
    · rw [hq, update_self, update_self]
      exact ⟨hprio, hnext⟩
    · have hval := Fin.val_ne_of_ne hq
      rw [update_of_ne hq, update_of_ne hq]
      exact ⟨(hrest _ (by omega) (by omega)).trans (h.1 q).1,
        (hrest _ (by omega) (by omega)).trans (h.1 q).2⟩
  · simp only [NBIN, LIST_SIZE] at hi ⊢
    rw [hrest _ (by omega) (by omega), hrest _ (by omega) (by omega), hrest _ (by omega) (by omega)]
    exact h.2 i hi

/-- Writing a bin. -/
theorem Kernel.StoredAt.setBin {b : Bin} (h : s.StoredAt arr w)
    (harr : arr + LIST_SIZE * NBIN ≤ s.ptableAddr) (hi : i < NBIN)
    (hhead : w' (arr + LIST_SIZE * i) = s.procAddr b.head)
    (htail : w' (arr + LIST_SIZE * i + 4) = s.procAddr b.tail)
    (hsize : w' (arr + LIST_SIZE * i + 8) = touint b.size)
    (hrest : ∀ a, a < arr + LIST_SIZE * i ∨ arr + LIST_SIZE * i + 8 < a → w' a = w a) :
    (s.setBin i b).StoredAt arr w' := by
  simp only [NBIN, LIST_SIZE] at hi hrest harr
  refine ⟨fun q => ?_, fun j hj => ?_⟩
  · have hq : s.ptableAddr ≤ (s.setBin i b).procAddr q := Nat.le_add_right _ _
    exact ⟨(hrest _ (by omega)).trans (h.1 q).1, (hrest _ (by omega)).trans (h.1 q).2⟩
  · show _ = s.procAddr (update s.pq.bin i b j).head ∧ _ = s.procAddr (update s.pq.bin i b j).tail ∧
      _ = touint (update s.pq.bin i b j).size
    by_cases hji : j = i
    · rw [hji, update_self]
      exact ⟨hhead, htail, hsize⟩
    · simp only [LIST_SIZE]
      rw [update_of_ne hji, hrest _ (by omega), hrest _ (by omega), hrest _ (by omega)]
      exact h.2 j hj

theorem Kernel.StoredAt.setNext {next : Option PIdx} (h : s.StoredAt arr w)
    (harr : arr + LIST_SIZE * NBIN ≤ s.ptableAddr) :
    (s.setPq { s.pq with next := update s.pq.next p next }).StoredAt arr
      (update w (s.procAddr p + NEXT_OFF) (s.procAddr next)) := by
  have hset : (s.setPq { s.pq with priority := update s.pq.priority p (s.pq.priority p),
                                   next := update s.pq.next p next }).StoredAt arr
      (update w (s.procAddr p + NEXT_OFF) (s.procAddr next)) := h.setProcWords harr
    ((update_of_ne (by simp) _ _).trans (h.1 p).1) (update_self _ _ _) fun a _ ha =>
      update_of_ne ha _ _
  rwa [update_eq_self] at hset

/-- For a bin of the queue, with a tail if it has a head, this is `pqueueEnqueue`. -/
theorem Kernel.StoredAt.enqueue (h : s.StoredAt arr w)
    (harr : arr + LIST_SIZE * NBIN ≤ s.ptableAddr) (hfit : s.ptableAddr < 2 ^ 32)
    (htail : (s.pq.bin n).head.isSome → (s.pq.bin n).tail.isSome)
    (henq : pqueueEnqueue s d (some p) n = .ok s') :
    s'.StoredAt arr (enqueueWords arr w (s.procAddr p) n) := by
  have hn := (pqueueEnqueue_some henq).1
  simp only [NBIN] at hn
  obtain ⟨s1, h1, henq⟩ := bind_eq_ok.mp henq
  cases h1
  rw [if_neg (by simp only [NBIN]; omega)] at henq
  have hset : (s.setPq { s.pq with priority := update s.pq.priority p n,
                                   next := update s.pq.next p (s.pq.next p) }).StoredAt arr
      (update w (s.procAddr p + PRIORITY_OFF) n) := h.setProcWords harr (update_self _ _ _)
    ((update_of_ne (by simp) _ _).trans (h.1 p).2) fun a ha _ => update_of_ne ha _ _
  rw [update_eq_self] at hset
  have hbin : (arr + LIST_SIZE * n) % 2 ^ 32 = arr + LIST_SIZE * n := by
    simp only [LIST_SIZE, NBIN] at harr ⊢
    exact Nat.mod_eq_of_lt (by omega)
  unfold enqueueWords
  rw [hbin]
  generalize hs1 : s.setPq { s.pq with priority := update s.pq.priority p n } = s1 at henq hset
  generalize update w (s.procAddr p + PRIORITY_OFF) n = w1 at hset
  have hlt : n < NBIN := by simpa using hn
  have haddr : s1.ptableAddr = s.ptableAddr := by rw [← hs1]; rfl
  have hptr : ∀ q : Option PIdx, s.procAddr q = s1.procAddr q :=
    fun q => by rw [← hs1]; cases q <;> rfl
  rw [← haddr] at harr
  obtain ⟨hhead, htl, hsize⟩ := hset.2 n hlt
  dsimp only at henq ⊢
  rw [hptr p, hhead]
  cases hh : (s1.pq.bin n).head with
  | none =>
    rw [hh] at henq
    cases henq
    have hzero : s1.procAddr none = 0 := rfl
    rw [if_pos hzero]
    refine StoredAt.setNext (s := s1.setBin n _) (hset.setBin harr hlt ?_ ?_ ?_ ?_) harr
    · simp
    · simp
    · simp [touint_succ, hsize]
    · intro a ha
      simp only [LIST_SIZE] at ha ⊢
      rw [update_of_ne (by omega), update_of_ne (by omega), update_of_ne (by omega)]
  | some r =>
    obtain ⟨t, ht⟩ : ∃ t, (s1.pq.bin n).tail = some t := by
      rw [← hs1] at hh ⊢
      exact Option.isSome_iff_exists.mp (htail (Option.isSome_iff_exists.mpr ⟨r, hh⟩))
    rw [hh, ht] at henq
    dsimp only at henq
    obtain ⟨s2, h2, henq⟩ := bind_eq_ok.mp henq
    cases h2
    cases henq
    have hr : s1.procAddr (some r) ≠ 0 := by
      simp only [procAddr, LIST_SIZE, NBIN] at harr ⊢
      omega
    rw [if_neg hr, htl, ht]
    have hlink : (s1.setPq { s1.pq with next := update s1.pq.next t (some p) }).StoredAt arr _ :=
      hset.setNext harr
    obtain ⟨hhead', htl', hsize'⟩ := hlink.2 n hlt
    refine StoredAt.setNext (s := (s1.setPq _).setBin n _) (hlink.setBin harr hlt ?_ ?_ ?_ ?_) harr
    · rw [update_of_ne (by simp), update_of_ne (by simp), hhead', ← hh]
      rfl
    · rw [update_of_ne (by simp), update_self]
      rfl
    · rw [update_self, update_of_ne (by simp), hsize', touint_succ]
      rfl
    · intro a ha
      simp only [LIST_SIZE] at ha ⊢
      rw [update_of_ne (by omega), update_of_ne (by omega)]

end Words

/-- The words after the boot of the small machine and a `fork`, with `pqueue.Arr` at `0x80118034`:
both processes are in the first bin. -/
def twoQueued (a : ℕ) : ℕ :=
  if a = 0x80118034 then 0x80110000
  else if a = 0x80118034 + 4 ∨ a = 0x80110000 + NEXT_OFF then 0x80110000 + PROC_SIZE
  else if a = 0x80118034 + 8 then 2
  else 0

instance decidableStoredAt (s : Kernel) (arr : ℕ) (w : ℕ → ℕ) : Decidable (s.StoredAt arr w) :=
  inferInstanceAs (Decidable (_ ∧ _))

end Dockv6
