import Dockv6.Kernel.Vm

/-!
# The priority queue

`pqueue_enqueue` and `prio_set`. A bin's tail may be stale and its list may lack a process, and the
code then works on a null `struct proc *`: its fields `priority` and `next` are words in the memory
of the running process, whose page directory is an argument here.
-/

namespace Dockv6

open Function

/-- The offset of `priority` in `struct proc`. -/
abbrev PRIORITY_OFF : ℕ := 308

/-- The offset of `next`. -/
abbrev NEXT_OFF : ℕ := 312

/-- `sizeof(struct proc)` -/
abbrev PROC_SIZE : ℕ := 316

namespace Kernel

/-- The number a pointer to a process has. -/
def procAddr (s : Kernel) : Option PIdx → ℕ
  | none => 0
  | some p => s.ptableAddr + PROC_SIZE * p

/-- Change the queue. -/
def setPq (s : Kernel) (q : Pqueue) : Kernel := { s with pq := q }

/-- Change the memory. -/
def setMem (s : Kernel) (mem : Mem) : Kernel := { s with km := { s.km with mem := mem } }

/-- `p->priority = priority` -/
def setPriority (s : Kernel) (d : Pgdir) (p : Option PIdx) (priority : ℕ) : Res Kernel :=
  match p with
  | some p => .ok (s.setPq { s.pq with priority := update s.pq.priority p priority })
  | none => do
    let mem ← usetWord d s.km.mem PRIORITY_OFF priority
    return s.setMem mem

/-- `p->next = next` -/
def setNext (s : Kernel) (d : Pgdir) (p next : Option PIdx) : Res Kernel :=
  match p with
  | some p => .ok (s.setPq { s.pq with next := update s.pq.next p next })
  | none => do
    let mem ← usetWord d s.km.mem NEXT_OFF (s.procAddr next)
    return s.setMem mem

/-- Change the bin `i`. -/
def setBin (s : Kernel) (i : ℕ) (b : Bin) : Kernel :=
  s.setPq { s.pq with bin := update s.pq.bin i b }

end Kernel

/-- Append a process to the bin of its new priority. -/
def pqueueEnqueue (s : Kernel) (d : Pgdir) (p : Option PIdx) (priority : ℕ) : Res Kernel := do
  let s ← s.setPriority d p priority
  if NBIN ≤ priority then throw .undefined
  else
    let bin := s.pq.bin priority
    match bin.head with
    | none => (s.setBin priority { head := p, tail := p, size := bin.size + 1 }).setNext d p none
    | some _ =>
      let s ← s.setNext d bin.tail p
      (s.setBin priority { bin with tail := p, size := bin.size + 1 }).setNext d p none

/-- The walk of `prio_set` from `p` to its ancestors: does it meet the caller before `init`? It does
not end when it meets neither. -/
def isAncestor (s : Kernel) (cur : PIdx) : ℕ → PIdx → Res Bool
  | 0, _ => .error .undefined
  | n + 1, p =>
    if (s.proc p).parent = some cur then .ok true
    else if (s.proc p).parent = s.initproc then .ok false
    else
      match (s.proc p).parent with
      | none => .error .undefined
      | some q => isAncestor s cur n q

/-- The inner loop of `prio_set`: look for the pid behind `p` in its list, and unlink it. -/
def unlinkAfter (s : Kernel) (pid : Int) : ℕ → PIdx → Res (Option PIdx × Kernel)
  | 0, _ => .error .undefined
  | n + 1, p =>
    match s.pq.next p with
    | none => .ok (none, s)
    | some r =>
      if ((s.proc r).pid : Int) = pid then
        .ok (some r, s.setPq { s.pq with next := update s.pq.next p (s.pq.next r) })
      else unlinkAfter s pid n r

/-- The loop of `prio_set` over the bins. The head of a bin ends it and is not unlinked. -/
def unlinkBins (pid : Int) : List ℕ → Kernel → Option PIdx → Res (Option PIdx × Kernel)
  | [], s, found => .ok (found, s)
  | i :: is, s, found =>
    match (s.pq.bin i).head with
    | none => unlinkBins pid is s found
    | some p =>
      if ((s.proc p).pid : Int) = pid then .ok (some p, s)
      else do
        let (r, s) ← unlinkAfter s pid (NPROC + 1) p
        unlinkBins pid is s (r <|> found)

/-- May the caller change the priority of `p`, which has the pid `pid`? -/
def mayPrioSet (s : Kernel) (cur : PIdx) (pid : Int) (p : PIdx) : Res Bool :=
  if pid = (s.proc cur).pid then .ok true else isAncestor s cur (NPROC + 1) p

/-- Give the process `pid` a lower priority, if the caller is it or one of its ancestors; `enqueue`
puts it in its new bin. When no process has the pid the code compares with what lies behind the
table; it is taken to differ. -/
def prioSetWith {σ : Type} (ret : Kernel → σ) (enqueue : Kernel → Option PIdx → ℕ → Res σ)
    (s : Kernel) (cur : PIdx) (pid priority : Int) : Res (Int × σ) :=
  match (List.finRange NPROC).find? (fun p => ((s.proc p).pid : Int) == pid) with
  | none => .ok (-1, ret s)
  | some p =>
    if touint priority < s.pq.priority p then .ok (-1, ret s)
    else do
      let mine ← mayPrioSet s cur pid p
      if !mine then return (-1, ret s)
      else if touint priority = s.pq.priority p then return (0, ret s)
      else
        let (found, s) ← unlinkBins pid (List.range NBIN) s none
        let s ← enqueue s found (touint priority)
        return (0, s)

/-- `prio_set`, called by the process `cur` with the page directory `d`. -/
def prioSet (s : Kernel) (cur : PIdx) (d : Pgdir) (pid priority : Int) : Res (Int × Kernel) :=
  prioSetWith (fun s => s) (fun s p n => pqueueEnqueue s d p n) s cur pid priority

/-! ## What they change -/

/-- Only the queue and the contents of memory differ. -/
def QueueOnly (s s' : Kernel) : Prop :=
  ∃ q mem, s' = { s with pq := q, km := { s.km with mem := mem } }

theorem QueueOnly.refl (s : Kernel) : QueueOnly s s := ⟨s.pq, s.km.mem, rfl⟩

theorem QueueOnly.trans {s1 s2 s3 : Kernel} (h : QueueOnly s1 s2) (h' : QueueOnly s2 s3) :
    QueueOnly s1 s3 := by
  obtain ⟨q, mem, rfl⟩ := h
  obtain ⟨q', mem', rfl⟩ := h'
  exact ⟨q', mem', rfl⟩

theorem queueOnly_setPq (s : Kernel) (q : Pqueue) : QueueOnly s (s.setPq q) := ⟨q, s.km.mem, rfl⟩

theorem queueOnly_setMem (s : Kernel) (mem : Mem) : QueueOnly s (s.setMem mem) := ⟨s.pq, mem, rfl⟩

section QueueOnly

variable {s s' : Kernel} {d : Pgdir} {p next : Option PIdx}

theorem setPriority_queueOnly {n : ℕ} (h : s.setPriority d p n = .ok s') : QueueOnly s s' := by
  unfold Kernel.setPriority at h
  split at h
  · cases h
    exact queueOnly_setPq s _
  · obtain ⟨mem, -, h⟩ := bind_eq_ok.mp h
    cases h
    exact queueOnly_setMem s mem

theorem setNext_queueOnly (h : s.setNext d p next = .ok s') : QueueOnly s s' := by
  unfold Kernel.setNext at h
  split at h
  · cases h
    exact queueOnly_setPq s _
  · obtain ⟨mem, -, h⟩ := bind_eq_ok.mp h
    cases h
    exact queueOnly_setMem s mem

theorem pqueueEnqueue_queueOnly {n : ℕ} (h : pqueueEnqueue s d p n = .ok s') : QueueOnly s s' := by
  obtain ⟨s1, h1, h⟩ := bind_eq_ok.mp h
  split_ifs at h
  refine (setPriority_queueOnly h1).trans ?_
  dsimp only at h
  split at h
  · exact (queueOnly_setPq s1 _).trans (setNext_queueOnly h)
  · obtain ⟨s2, h2, h⟩ := bind_eq_ok.mp h
    exact (setNext_queueOnly h2).trans ((queueOnly_setPq s2 _).trans (setNext_queueOnly h))

end QueueOnly

/-! ## The search of `prio_set` -/

section Search

variable {s s' : Kernel} {d : Pgdir} {p cur : PIdx} {pid priority : Int} {r : Option PIdx}

/-- A process is taken out of a list. -/
def Unlinks (s s' : Kernel) : Prop :=
  ∃ x q, s.pq.next x = some q ∧ s' = s.setPq { s.pq with next := update s.pq.next x (s.pq.next q) }

theorem unlinkAfter_unlinks {n : ℕ} (h : unlinkAfter s pid n p = .ok (r, s')) :
    Relation.ReflGen Unlinks s s' := by
  induction n generalizing p with
  | zero => cases h
  | succ n ih =>
    rw [unlinkAfter] at h
    split at h
    · cases h
      exact .refl
    · rename_i q hq
      split_ifs at h
      · cases h
        exact .single ⟨p, q, hq, rfl⟩
      · exact ih h

theorem unlinkBins_unlinks {is : List ℕ} {found : Option PIdx}
    (h : unlinkBins pid is s found = .ok (r, s')) : Relation.ReflTransGen Unlinks s s' := by
  induction is generalizing s found with
  | nil =>
    cases h
    exact .refl
  | cons i is ih =>
    rw [unlinkBins] at h
    split at h
    · exact ih h
    · split_ifs at h
      · cases h
        exact .refl
      · obtain ⟨⟨r1, s1⟩, h1, h⟩ := bind_eq_ok.mp h
        exact (unlinkAfter_unlinks h1).to_reflTransGen.trans (ih h)

/-- Only links differ. -/
def LinksOnly (s s' : Kernel) : Prop := ∃ nx, s' = s.setPq { s.pq with next := nx }

theorem linksOnly_of_unlinks (h : Relation.ReflTransGen Unlinks s s') : LinksOnly s s' := by
  induction h with
  | refl => exact ⟨s.pq.next, rfl⟩
  | tail _ hstep ih =>
    obtain ⟨x, q, -, rfl⟩ := hstep
    obtain ⟨nx, rfl⟩ := ih
    exact ⟨_, rfl⟩

theorem unlinkBins_linksOnly {is : List ℕ} {found : Option PIdx}
    (h : unlinkBins pid is s found = .ok (r, s')) :
    LinksOnly s s' := linksOnly_of_unlinks (unlinkBins_unlinks h)

/-- The first process with the pid. -/
def Kernel.withPid (s : Kernel) (pid : Int) : Option PIdx :=
  (List.finRange NPROC).find? fun p => ((s.proc p).pid : Int) == pid

theorem withPid_eq_some (h : s.withPid pid = some p) : ((s.proc p).pid : Int) = pid := by
  simpa using List.find?_some h

/-- **The outcomes of `prio_set`.** It is refused or asks for the priority that is there; or the
first process with the pid has a lower one, and what the search finds goes to the bin of the new
priority. -/
theorem prioSet_cases {r : Int}
    (h : prioSet s cur d pid priority = .ok (r, s')) :
    s' = s ∨ ∃ p found s1, s.withPid pid = some p ∧ s.pq.priority p < touint priority ∧
      mayPrioSet s cur pid p = .ok true ∧ unlinkBins pid (List.range NBIN) s none =
      .ok (found, s1) ∧ pqueueEnqueue s1 d found (touint priority) = .ok s' := by
  unfold prioSet prioSetWith at h
  split at h
  · cases h
    exact .inl rfl
  rename_i p hp
  by_cases hlow : touint priority < s.pq.priority p
  · rw [if_pos hlow] at h
    cases h
    exact .inl rfl
  rw [if_neg hlow] at h
  obtain ⟨mine, hmine, h⟩ := bind_eq_ok.mp h
  split_ifs at h with hnot hsame
  · cases h
    exact .inl rfl
  · cases h
    exact .inl rfl
  · obtain ⟨⟨found, s1⟩, hfound, h⟩ := bind_eq_ok.mp h
    obtain ⟨s2, henq, h⟩ := bind_eq_ok.mp h
    cases h
    refine .inr ⟨p, found, s1, hp, ?_, ?_, hfound, henq⟩
    · omega
    · rw [hmine]
      simpa using hnot

theorem prioSet_queueOnly {r : Int} (h : prioSet s cur d pid priority = .ok (r, s')) :
    QueueOnly s s' := by
  obtain rfl | ⟨p, found, s1, -, -, -, hfound, henq⟩ := prioSet_cases h
  · exact .refl s'
  · obtain ⟨nx, rfl⟩ := unlinkBins_linksOnly hfound
    exact (queueOnly_setPq s _).trans (pqueueEnqueue_queueOnly henq)

end Search

end Dockv6
