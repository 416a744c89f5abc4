import Dockv6.Foundations.Traced
import Dockv6.Kernel.Lock
import Dockv6.Kernel.Queue
import Dockv6.Kernel.SysCall

/-!
# Indices that come from arguments

The calls that take a mutex index, and `prio_set`, with a record of their accesses to `p->mutex`,
`pqueue.Arr` and `ptable.proc` (`TableCall.trace`). None of them compares its argument with the size
of a table; `tables_in_range_iff` says when they stay within the tables.
-/

namespace Dockv6

open Kernel Traced

/-- An access to an entry of a table, with the index used. -/
inductive Access
  /-- `p->mutex[i]` of the calling process -/
  | mutex (i : Int)
  /-- `pqueue.Arr[i]` -/
  | arr (i : ℕ)
  /-- `ptable.proc[i]` -/
  | proc (i : ℕ)

/-- The table has the entry. -/
def Access.inRange : Access → Prop
  | .mutex i => 0 ≤ i ∧ i < MUX_MAXNUM
  | .arr i => i < NBIN
  | .proc i => i < NPROC

/-- Kernel code with a record of its accesses. -/
abbrev Tables (α : Type) := Traced Access Stop α

variable {s : Kernel} {p q cur : PIdx} {d : Pgdir} {pid priority muxid : Int}

theorem inRange_proc (p : PIdx) : (Access.proc p).inRange := p.2

/-! ## The functions with a record -/

/-- `curr_proc->mutex[muxid]`, the pointer that each of the calls on a mutex starts with. -/
def mutexEntry (muxid : Int) : Tables MuxIdx := do
  touch (.mutex muxid)
  lift (muxIndex muxid)

/-- `mutex_delete`; the entry is written when it is not null. -/
def mutexDeleteT (s : Kernel) (p : PIdx) (muxid : Int) : Tables Kernel := do
  let i ← mutexEntry muxid
  if ((s.proc p).mutex i).isSome then touch (.mutex muxid)
  return mutexDelete s p i

/-- `cv_wait`; `mutex_unlock` and `mutex_lock` read the entry again. -/
def cvWaitT (s : Kernel) (p : PIdx) (muxid : Int) : Tables Kernel := do
  let i ← mutexEntry muxid
  match (s.proc p).mutex i with
  | none => return s
  | some m =>
    if s.mutexHolding p m then
      let i ← mutexEntry muxid
      let (s, signalled) := cvTake (mutexUnlock s p i) p m
      if signalled then
        let i ← mutexEntry muxid
        return mutexLock s p i
      else return s
    else return s

/-- The scan of `prio_set` for a pid. -/
def withPidT (s : Kernel) (pid : Int) : List PIdx → Tables (Option PIdx)
  | [] => return none
  | p :: ps => do
    touch (.proc p)
    if ((s.proc p).pid : Int) == pid then return some p else withPidT s pid ps

/-- The walk to the ancestors. -/
def isAncestorT (s : Kernel) (cur : PIdx) : ℕ → PIdx → Tables Bool
  | 0, _ => lift (.error .undefined)
  | n + 1, p => do
    touch (.proc p)
    if (s.proc p).parent = some cur then return true
    else if (s.proc p).parent = s.initproc then return false
    else
      match (s.proc p).parent with
      | none => lift (.error .undefined)
      | some q => isAncestorT s cur n q

/-- The test of `prio_set`. -/
def mayPrioSetT (s : Kernel) (cur : PIdx) (pid : Int) (p : PIdx) : Tables Bool := do
  touch (.proc cur)
  if pid = (s.proc cur).pid then return true else isAncestorT s cur (NPROC + 1) p

/-- The walk along the list of a bin. -/
def unlinkAfterT (s : Kernel) (pid : Int) : ℕ → PIdx → Tables (Option PIdx × Kernel)
  | 0, _ => lift (.error .undefined)
  | n + 1, p => do
    touch (.proc p)
    match s.pq.next p with
    | none => return (none, s)
    | some r => do
      touch (.proc r)
      if ((s.proc r).pid : Int) = pid then
        touch (.proc p)
        return (some r, s.setPq { s.pq with next := Function.update s.pq.next p (s.pq.next r) })
      else unlinkAfterT s pid n r

/-- The loop over the bins. -/
def unlinkBinsT (pid : Int) : List ℕ → Kernel → Option PIdx → Tables (Option PIdx × Kernel)
  | [], s, found => return (found, s)
  | i :: is, s, found => do
    touch (.arr i)
    match (s.pq.bin i).head with
    | none => unlinkBinsT pid is s found
    | some p => do
      touch (.proc p)
      if ((s.proc p).pid : Int) = pid then return (some p, s)
      else
        let (r, s) ← unlinkAfterT s pid (NPROC + 1) p
        unlinkBinsT pid is s (r <|> found)

/-- An assignment to a field of `*p`. A null pointer is not an entry of the table. -/
def touchProc : Option PIdx → Tables PUnit
  | none => return ⟨⟩
  | some p => touch (.proc p)

/-- `pqueue_enqueue` with a record. -/
def pqueueEnqueueT (s : Kernel) (d : Pgdir) (p : Option PIdx) (priority : ℕ) : Tables Kernel := do
  touchProc p
  let s ← lift (s.setPriority d p priority)
  touch (.arr priority)
  if NBIN ≤ priority then lift (throw .undefined)
  else
    let bin := s.pq.bin priority
    match bin.head with
    | none => do
      touchProc p
      lift ((s.setBin priority { head := p, tail := p, size := bin.size + 1 }).setNext d p none)
    | some _ => do
      touchProc bin.tail
      let s ← lift (s.setNext d bin.tail p)
      touchProc p
      lift ((s.setBin priority { bin with tail := p, size := bin.size + 1 }).setNext d p none)

/-- `prio_set` from where the scan has found the process. -/
def prioSetOf (s : Kernel) (cur : PIdx) (d : Pgdir) (pid priority : Int) (p : PIdx) :
    Tables (Int × Kernel) := do
  touch (.proc p)
  if touint priority < s.pq.priority p then return (-1, s)
  else
    let mine ← mayPrioSetT s cur pid p
    if !mine then return (-1, s)
    else if touint priority = s.pq.priority p then return (0, s)
    else
      let (found, s) ← unlinkBinsT pid (List.range NBIN) s none
      let s ← pqueueEnqueueT s d found (touint priority)
      return (0, s)

/-- `prio_set`. A scan that does not find the pid ends behind the table, where `p->pid` is read. -/
def prioSetT (s : Kernel) (cur : PIdx) (d : Pgdir) (pid priority : Int) : Tables (Int × Kernel) :=
  do
  match ← withPidT s pid (List.finRange NPROC) with
  | none => do
    touch (.proc NPROC)
    return (-1, s)
  | some p => prioSetOf s cur d pid priority p

/-! ## The outcome does not depend on the record -/

theorem out_mutexEntry_bind {α : Type} (f : MuxIdx → Tables α) :
    (mutexEntry muxid >>= f).out = muxIndex muxid >>= fun i => (f i).out := by
  rw [out_bind]
  rfl

theorem out_withPidT (ps : List PIdx) :
    (withPidT s pid ps).out = .ok (ps.find? fun p => ((s.proc p).pid : Int) == pid) := by
  induction ps with
  | nil => rfl
  | cons p ps ih =>
    rw [withPidT, out_touch_bind, List.find?_cons]
    cases hp : ((s.proc p).pid : Int) == pid
    · simpa using ih
    · simp

theorem out_isAncestorT (n : ℕ) (p : PIdx) :
    (isAncestorT s cur n p).out = isAncestor s cur n p := by
  induction n generalizing p with
  | zero => rfl
  | succ n ih =>
    rw [isAncestorT, isAncestor, out_touch_bind]
    split_ifs
    · rfl
    · rfl
    · cases (s.proc p).parent with
      | none => rfl
      | some q => exact ih q

theorem out_mayPrioSetT : (mayPrioSetT s cur pid p).out = mayPrioSet s cur pid p := by
  rw [mayPrioSetT, mayPrioSet, out_touch_bind]
  split_ifs
  · rfl
  · exact out_isAncestorT _ _

theorem out_unlinkAfterT (n : ℕ) (p : PIdx) :
    (unlinkAfterT s pid n p).out = unlinkAfter s pid n p := by
  induction n generalizing p with
  | zero => rfl
  | succ n ih =>
    rw [unlinkAfterT, unlinkAfter, out_touch_bind]
    cases s.pq.next p with
    | none => rfl
    | some r =>
      dsimp only
      rw [out_touch_bind]
      split_ifs
      · rfl
      · exact ih r

theorem out_unlinkBinsT (is : List ℕ) (s : Kernel) (found : Option PIdx) :
    (unlinkBinsT pid is s found).out = unlinkBins pid is s found := by
  induction is generalizing s found with
  | nil => rfl
  | cons i is ih =>
    rw [unlinkBinsT, unlinkBins, out_touch_bind]
    cases (s.pq.bin i).head with
    | none => exact ih _ _
    | some p =>
      dsimp only
      rw [out_touch_bind]
      split_ifs
      · rfl
      · rw [out_bind, out_unlinkAfterT]
        congr 1
        funext r
        exact ih _ _

theorem out_touchProc_bind {α : Type} (p : Option PIdx) (f : PUnit → Tables α) :
    (touchProc p >>= f).out = (f ⟨⟩).out := by
  cases p <;> rfl

theorem out_pqueueEnqueueT (p : Option PIdx) (n : ℕ) :
    (pqueueEnqueueT s d p n).out = pqueueEnqueue s d p n := by
  rw [pqueueEnqueueT, pqueueEnqueue, out_touchProc_bind, out_lift_bind]
  congr 1
  funext s1
  rw [out_touch_bind]
  split_ifs
  · rfl
  · dsimp only
    cases (s1.pq.bin n).head with
    | none => exact out_touchProc_bind _ _
    | some h =>
      dsimp only
      rw [out_touchProc_bind, out_lift_bind]
      congr 1
      funext s2
      rw [out_touchProc_bind, out_lift]

theorem out_prioSetT : (prioSetT s cur d pid priority).out = prioSet s cur d pid priority := by
  rw [prioSetT, prioSet, prioSetWith, out_bind, out_withPidT]
  cases (List.finRange NPROC).find? fun p => ((s.proc p).pid : Int) == pid with
  | none => rfl
  | some p =>
    show (prioSetOf s cur d pid priority p).out = _
    rw [prioSetOf, out_touch_bind]
    dsimp only
    by_cases hlow : touint priority < s.pq.priority p
    · rw [if_pos hlow, if_pos hlow]
      rfl
    · rw [if_neg hlow, if_neg hlow, out_bind, out_mayPrioSetT]
      congr 1
      funext mine
      split_ifs
      · rfl
      · rfl
      · rw [out_bind, out_unlinkBinsT]
        congr 1
        funext r
        rw [out_bind, out_pqueueEnqueueT]
        rfl

/-! ## The accesses -/

theorem all_mutexEntry (h : 0 ≤ muxid ∧ muxid < MUX_MAXNUM) :
    (mutexEntry muxid).All Access.inRange :=
  .touch_bind h (.lift _)

theorem all_withPidT (ps : List PIdx) : (withPidT s pid ps).All Access.inRange := by
  induction ps with
  | nil => exact .pure _
  | cons p ps ih =>
    refine .touch_bind (inRange_proc p) ?_
    split_ifs
    · exact .pure _
    · exact ih

theorem all_isAncestorT (n : ℕ) (p : PIdx) : (isAncestorT s cur n p).All Access.inRange := by
  induction n generalizing p with
  | zero => exact .lift _
  | succ n ih =>
    refine .touch_bind (inRange_proc p) ?_
    split_ifs
    · exact .pure _
    · exact .pure _
    · split
      · exact .lift _
      · exact ih _

theorem all_mayPrioSetT : (mayPrioSetT s cur pid p).All Access.inRange := by
  refine .touch_bind (inRange_proc cur) ?_
  split_ifs
  · exact .pure _
  · exact all_isAncestorT _ _

theorem all_unlinkAfterT (n : ℕ) (p : PIdx) : (unlinkAfterT s pid n p).All Access.inRange := by
  induction n generalizing p with
  | zero => exact .lift _
  | succ n ih =>
    refine .touch_bind (inRange_proc p) ?_
    split
    · exact .pure _
    · rename_i r _
      refine .touch_bind (inRange_proc r) ?_
      split_ifs
      · exact .touch_bind (inRange_proc p) (.pure _)
      · exact ih r

theorem all_unlinkBinsT {is : List ℕ} (his : ∀ i ∈ is, i < NBIN) (s : Kernel)
    (found : Option PIdx) : (unlinkBinsT pid is s found).All Access.inRange := by
  induction is generalizing s found with
  | nil => exact .pure _
  | cons i is ih =>
    have hrest : ∀ j ∈ is, j < NBIN := fun j hj => his j (List.mem_cons_of_mem _ hj)
    refine .touch_bind (his i List.mem_cons_self) ?_
    split
    · exact ih hrest _ _
    · rename_i p _
      refine .touch_bind (inRange_proc p) ?_
      split_ifs
      · exact .pure _
      · exact .bind (all_unlinkAfterT _ _) fun r _ => ih hrest _ _

theorem all_touchProc (p : Option PIdx) : (touchProc p).All Access.inRange := by
  cases p with
  | none => exact .pure _
  | some p => exact .touch (inRange_proc p)

theorem all_pqueueEnqueueT (p : Option PIdx) {n : ℕ} (hn : n < NBIN) :
    (pqueueEnqueueT s d p n).All Access.inRange := by
  refine .bind (all_touchProc p) fun _ _ => .bind (.lift _) fun s1 _ => .touch_bind hn ?_
  rw [if_neg (Nat.not_le.mpr hn)]
  dsimp only
  split
  · exact .bind (all_touchProc p) fun _ _ => .lift _
  · exact .bind (all_touchProc _) fun _ _ => .bind (.lift _) fun _ _ =>
      .bind (all_touchProc p) fun _ _ => .lift _

/-! ## The calls -/

/-- A call that takes the index of a mutex, or `prio_set`. -/
inductive TableCall
  | mutexLock (muxid : Int)
  | mutexUnlock (muxid : Int)
  | mutexDelete (muxid : Int)
  | cvWait (muxid : Int)
  | cvSignal (muxid : Int)
  | prioSet (pid priority : Int)

namespace TableCall

/-- The state after the call. -/
def run (s : Kernel) (p : PIdx) (d : Pgdir) : TableCall → Res Kernel
  | mutexLock muxid => muxIndex muxid >>= fun i => .ok (Dockv6.mutexLock s p i)
  | mutexUnlock muxid => muxIndex muxid >>= fun i => .ok (Dockv6.mutexUnlock s p i)
  | mutexDelete muxid => muxIndex muxid >>= fun i => .ok (Dockv6.mutexDelete s p i)
  | cvWait muxid => muxIndex muxid >>= fun i => .ok (Dockv6.cvWait s p i)
  | cvSignal muxid => muxIndex muxid >>= fun i => Dockv6.cvSignal s p i
  | prioSet pid priority => Dockv6.prioSet s p d pid priority >>= fun r => .ok r.2

/-- The call with a record. -/
def trace (s : Kernel) (p : PIdx) (d : Pgdir) : TableCall → Tables Kernel
  | mutexLock muxid => mutexEntry muxid >>= fun i => pure (Dockv6.mutexLock s p i)
  | mutexUnlock muxid => mutexEntry muxid >>= fun i => pure (Dockv6.mutexUnlock s p i)
  | mutexDelete muxid => mutexDeleteT s p muxid
  | cvWait muxid => cvWaitT s p muxid
  | cvSignal muxid => mutexEntry muxid >>= fun i => lift (Dockv6.cvSignal s p i)
  | prioSet pid priority => prioSetT s p d pid priority >>= fun r => pure r.2

/-- The argument that is used as an index is one of the table's. -/
def inTable : TableCall → Prop
  | mutexLock muxid | mutexUnlock muxid | mutexDelete muxid | cvWait muxid | cvSignal muxid =>
    0 ≤ muxid ∧ muxid < MUX_MAXNUM
  | prioSet _ priority => touint priority < NBIN

/-- The index is one of the table's. For `prio_set` the process exists, and either the priority has
a bin or `prio_set` does not get as far as the bin. -/
def bounded (s : Kernel) (cur : PIdx) : TableCall → Prop
  | prioSet pid priority => ∃ p, s.withPid pid = some p ∧
    (touint priority < NBIN ∨ touint priority < s.pq.priority p ∨
    mayPrioSet s cur pid p = .ok false ∨
      mayPrioSet s cur pid p = .ok true ∧ touint priority = s.pq.priority p)
  | c => c.inTable

/-- Every access of the call has an index of the table; and a call with an index that is not in the
table returns with no change. -/
structure Safe (s : Kernel) (p : PIdx) (d : Pgdir) (c : TableCall) : Prop where
  inRange : (c.trace s p d).All Access.inRange
  unchanged : ¬ c.inTable → (c.trace s p d).out = .ok s

end TableCall

/-- The pointer is read again with the same index. -/
theorem out_cvWaitT :
    (cvWaitT s p muxid).out = muxIndex muxid >>= fun i => .ok (Dockv6.cvWait s p i) := by
  refine (out_mutexEntry_bind _).trans ?_
  cases hi : muxIndex muxid with
  | error e => rfl
  | ok i =>
    have hagain {α : Type} (f : MuxIdx → Tables α) : (mutexEntry muxid >>= f).out = (f i).out := by
      rw [out_mutexEntry_bind, hi]
      rfl
    show Traced.out (match (s.proc p).mutex i with
      | none => pure s
      | some m => _) = .ok (Dockv6.cvWait s p i)
    unfold Dockv6.cvWait
    cases (s.proc p).mutex i with
    | none => rfl
    | some m =>
      dsimp only
      split_ifs with hholding hsignalled
      · rw [hagain, if_pos hsignalled, hagain]
        rfl
      · rw [hagain, if_neg hsignalled]
        rfl
      · rfl

/-- The record does not bear on the outcome. -/
theorem TableCall.out_trace (s : Kernel) (p : PIdx) (d : Pgdir) (c : TableCall) :
    (c.trace s p d).out = c.run s p d := by
  cases c with
  | mutexLock muxid => exact out_mutexEntry_bind _
  | mutexUnlock muxid => exact out_mutexEntry_bind _
  | mutexDelete muxid =>
    refine (out_mutexEntry_bind _).trans ?_
    show _ = muxIndex muxid >>= _
    congr 1
    funext i
    split_ifs <;> rfl
  | cvWait muxid => exact out_cvWaitT
  | cvSignal muxid => exact out_mutexEntry_bind _
  | prioSet pid priority =>
    show (prioSetT s p d pid priority >>= _).out = _
    rw [out_bind, out_prioSetT]
    rfl

theorem TableCall.all_trace {c : TableCall} (h : c.bounded s p) :
    (c.trace s p d).All Access.inRange := by
  cases c with
  | mutexLock muxid => exact .bind (all_mutexEntry h) fun _ _ => .pure _
  | mutexUnlock muxid => exact .bind (all_mutexEntry h) fun _ _ => .pure _
  | mutexDelete muxid =>
    refine .bind (all_mutexEntry h) fun i _ => ?_
    dsimp only
    split_ifs
    · exact .touch_bind h (.pure _)
    · exact .pure _
  | cvWait muxid =>
    refine .bind (all_mutexEntry h) fun i _ => ?_
    split
    · exact .pure _
    · split_ifs
      · refine .bind (all_mutexEntry h) fun j _ => ?_
        dsimp only
        split_ifs
        · exact .bind (all_mutexEntry h) fun _ _ => .pure _
        · exact .pure _
      · exact .pure _
  | cvSignal muxid => exact .bind (all_mutexEntry h) fun _ _ => .lift _
  | prioSet pid priority =>
    obtain ⟨q, hq, hprio⟩ := h
    refine .bind (.bind (all_withPidT _) fun found hfound => ?_) fun _ _ => .pure _
    obtain rfl : found = some q :=
      Except.ok.inj (hfound.symm.trans ((out_withPidT _).trans (congrArg _ hq)))
    refine .touch_bind (inRange_proc q) ?_
    by_cases hlow : touint priority < s.pq.priority q
    · rw [if_pos hlow]
      exact .pure _
    rw [if_neg hlow]
    refine .bind all_mayPrioSetT fun mine hmine => ?_
    rw [out_mayPrioSetT] at hmine
    split_ifs with hnot hsame
    · exact .pure _
    · exact .pure _
    · -- The bin is reached: none of the grounds for a refusal holds.
      have hbin : touint priority < NBIN := by
        rcases hprio with hbin | hlow' | hno | ⟨-, hsame'⟩
        · exact hbin
        · exact absurd hlow' hlow
        · rw [Except.ok.inj (hmine.symm.trans hno)] at hnot
          exact absurd rfl hnot
        · exact absurd hsame' hsame
      refine .bind (all_unlinkBinsT (fun i hi => List.mem_range.mp hi) s none) fun r _ => ?_
      exact .bind (all_pqueueEnqueueT _ hbin) fun _ _ => .pure _

theorem prioSet_refused {p : PIdx} (hp : s.withPid pid = some p)
    (h : touint priority < s.pq.priority p ∨ mayPrioSet s cur pid p = .ok false ∨
      mayPrioSet s cur pid p = .ok true ∧ touint priority = s.pq.priority p) :
    ∃ r, prioSet s cur d pid priority = .ok (r, s) := by
  unfold Kernel.withPid at hp
  unfold prioSet prioSetWith
  rw [hp]
  dsimp only
  by_cases hlow : touint priority < s.pq.priority p
  · exact ⟨-1, if_pos hlow⟩
  rw [if_neg hlow]
  rcases h with hlow' | hno | ⟨hyes, hsame⟩
  · exact absurd hlow' hlow
  · rw [hno]
    exact ⟨-1, rfl⟩
  · rw [hyes]
    exact ⟨0, if_pos hsame⟩

/-- There is no bin to put the process in. -/
theorem pqueueEnqueue_error {found : Option PIdx} {n : ℕ} {s' : Kernel} (hn : NBIN ≤ n) :
    pqueueEnqueue s d found n ≠ .ok s' := by
  intro h
  obtain ⟨s1, -, h⟩ := bind_eq_ok.mp h
  rw [if_pos hn] at h
  cases h

/-- An entry that the table does not have is the first that the call accesses. -/
theorem mutexEntry_inRange {α : Type} {f : MuxIdx → Tables α}
    (h : (mutexEntry muxid >>= f).All Access.inRange) : 0 ≤ muxid ∧ muxid < MUX_MAXNUM := by
  exact h.left.left.of_touch

theorem TableCall.Safe.bounded {c : TableCall} (h : c.Safe s p d) : c.bounded s p := by
  cases c with
  | mutexLock muxid => exact mutexEntry_inRange h.inRange
  | mutexUnlock muxid => exact mutexEntry_inRange h.inRange
  | mutexDelete muxid => exact mutexEntry_inRange h.inRange
  | cvWait muxid => exact mutexEntry_inRange h.inRange
  | cvSignal muxid => exact mutexEntry_inRange h.inRange
  | prioSet pid priority =>
    have hscan : (withPidT s pid (List.finRange NPROC)).out = .ok (s.withPid pid) := out_withPidT _
    cases hq : s.withPid pid with
    | none =>
      have hbehind := ((h.inRange.left.right (hq ▸ hscan)).left).of_touch
      exact absurd hbehind (Nat.lt_irrefl NPROC)
    | some q =>
      refine ⟨q, hq, ?_⟩
      by_contra hno
      simp only [not_or] at hno
      obtain ⟨hbin, hlow, hmay, hsame⟩ := hno
      have hrun := h.unchanged hbin
      rw [TableCall.out_trace] at hrun
      obtain ⟨⟨r, s'⟩, hset, -⟩ := bind_eq_ok.mp hrun
      unfold Kernel.withPid at hq
      unfold Dockv6.prioSet prioSetWith at hset
      rw [hq] at hset
      dsimp only at hset
      rw [if_neg hlow] at hset
      obtain ⟨mine, hmine, hset⟩ := bind_eq_ok.mp hset
      cases mine with
      | false => exact hmay hmine
      | true =>
        have hdiff : touint priority ≠ s.pq.priority q := fun heq => hsame ⟨hmine, heq⟩
        rw [if_neg (by simp), if_neg hdiff] at hset
        obtain ⟨⟨found, s1⟩, -, hset⟩ := bind_eq_ok.mp hset
        obtain ⟨s2, henqueue, -⟩ := bind_eq_ok.mp hset
        exact pqueueEnqueue_error (Nat.not_lt.mp hbin) henqueue

/-- The calls stay within the tables, and leave them alone when the index is not in the table,
exactly when the arguments are bounded in this sense. -/
theorem tables_in_range_iff (s : Kernel) (p : PIdx) (d : Pgdir) (c : TableCall) :
    c.Safe s p d ↔ c.bounded s p := by
  refine ⟨TableCall.Safe.bounded, fun h => ⟨TableCall.all_trace h, fun hout => ?_⟩⟩
  cases c with
  | prioSet pid priority =>
    obtain ⟨q, hq, hprio⟩ := h
    obtain ⟨r, hr⟩ := prioSet_refused (d := d) hq (hprio.resolve_left hout)
    rw [TableCall.out_trace, TableCall.run, hr]
    rfl
  | _ => exact absurd h hout

/-- With `init` as the only process: `-1` as the index of a mutex, which is what `mutex_create`
returns when it fails; a pid that no process has; a priority for which there is no bin. -/
theorem tables_left : ∃ s, sysMachine.Reachable s ∧ s.canRun 0 ∧ ∀ d,
    ¬ (TableCall.mutexLock (-1)).Safe s 0 d ∧ ¬ (TableCall.prioSet 9 0).Safe s 0 d ∧
      ¬ (TableCall.prioSet 1 16).Safe s 0 d := by
  set_option maxRecDepth 100000 in
  have hrun : (bootRun sysMachine []).any
    (fun s => (.ok (s.withPid 1) : Res (Option PIdx)).toOption.any
      fun o => decide (s.canRun 0 ∧ o = some 0 ∧ s.withPid 9 = none ∧ s.pq.priority 0 = 0 ∧
        (s.proc 0).pid = 1)) = true := by
    decide +kernel
  obtain ⟨s, o, hreach, ho, hP⟩ := exists_of_bootRun (fun _ => id) hrun
  obtain ⟨hcan, rfl, hnone, hprio, hpid⟩ := of_decide_eq_true hP
  have hone : s.withPid 1 = some 0 := Except.ok.inj ho
  refine ⟨s, hreach, hcan, fun d => ⟨fun h => ?_, fun h => ?_, fun h => ?_⟩⟩
  · exact absurd h.bounded.1 (by decide)
  · obtain ⟨q, hq, -⟩ := h.bounded
    rw [hnone] at hq
    cases hq
  · obtain ⟨q, hq, hcases⟩ := h.bounded
    obtain rfl := Option.some.inj (hone.symm.trans hq)
    have hmay : mayPrioSet s 0 1 0 = .ok true := if_pos (by rw [hpid]; rfl)
    rw [hprio, hmay] at hcases
    revert hcases
    decide

end Dockv6
