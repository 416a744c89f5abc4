import Dockv6.Kernel.Struct

/-!
# The process tree and its containers

What `fork`, `exit`, `wait` and the container calls do, with everything left out that only one
process sees, for any slots and containers. A `System` is a tree with the phase of
`cm_create_and_enter` that each process is in and the limit that each container was created with.
-/

namespace Dockv6

open Function

/-- A process, as the tree knows it. -/
structure Task (P C : Type) where
  pid : ℕ
  parent : Option P
  container : Option C
  container_id : ℕ
  zombie : Bool

/-- The process of the slot `p` forks. -/
def Task.child {P C : Type} (x : Task P C) (p : P) (pid : ℕ) : Task P C :=
  { x with pid := pid, parent := some p, zombie := false }

/-- The processes and the containers. A container that was never claimed has the id `UINT_MAX`. -/
@[ext]
structure Tree (P C : Type) where
  task : P → Option (Task P C)
  initproc : Option P
  nextpid : ℕ
  nextcid : ℕ
  cid : C → ℕ
  nproc : C → ℕ

namespace Tree

variable {P C : Type} [DecidableEq P] [DecidableEq C] (t : Tree P C)

/-- Replace the task of `p`. -/
def setTask (p : P) (x : Option (Task P C)) : Tree P C :=
  { t with task := update t.task p x }

omit [DecidableEq C] in
theorem setTask_eq_self {p : P} {x : Option (Task P C)} (h : x = t.task p) : t.setTask p x = t := by
  rw [h, setTask, update_eq_self]

/-- Set what is left of the limit of `c`. -/
def setNproc (c : C) (n : ℕ) : Tree P C := { t with nproc := update t.nproc c n }

/-- The container of the task `x` is charged for a process. -/
inductive Charged (x : Task P C) : Tree P C → Prop
  | outside (h : x.container_id = 0) : Charged x t
  | inside (c : C) (h : x.container_id ≠ 0) (hc : x.container = some c) (hn : t.nproc c ≠ 0) :
      Charged x (t.setNproc c (udec (t.nproc c)))

/-- The container of the task `x` is credited with a process. -/
inductive Credited (x : Task P C) : Tree P C → Prop
  | outside (h : x.container_id = 0) : Credited x t
  | inside (c : C) (h : x.container_id ≠ 0) (hc : x.container = some c) :
      Credited x (t.setNproc c (uinc (t.nproc c)))

variable {t} in
/-- Freeing a slot and the credit are independent. -/
theorem Credited.of_setTask {x : Task P C} {q : P} {y : Option (Task P C)} {t' : Tree P C}
    (h : (t.setTask q y).Credited x t') : ∃ t1, t.Credited x t1 ∧ t' = t1.setTask q y := by
  cases h with
  | outside h => exact ⟨t, .outside h, rfl⟩
  | inside c h hc => exact ⟨_, .inside c h hc, rfl⟩

/-- `fork` by the task `x` of the slot `p`, with the value it returns: the container's limit refuses
it, it is charged and fails, or it is charged and there is a child. -/
inductive Forks (p : P) (x : Task P C) : Int → Tree P C → Prop
  | refused (c : C) (h : x.container_id ≠ 0) (hc : x.container = some c) (hn : t.nproc c = 0) :
      Forks p x (-1) t
  | failed {t1 : Tree P C} (h : t.Charged x t1) (n : ℕ) (hn : t.nextpid ≤ n) :
      Forks p x (-1) { t1 with nextpid := n }
  | child {t1 : Tree P C} (h : t.Charged x t1) (np : P) (hnp : t.task np = none) :
      Forks p x t.nextpid
        { t1.setTask np (some (x.child p t.nextpid)) with nextpid := t.nextpid + 1 }

/-- The task `y` of the slot `q` when `p` exits: the children go to `init`, and `p` is a zombie. -/
def orphan (p q : P) (y : Task P C) : Task P C :=
  { y with
    parent := if y.parent = some p then t.initproc else y.parent
    zombie := if q = p then true else y.zombie }

/-- The process `p` exits. -/
def exit (p : P) : Tree P C := { t with task := fun q => (t.task q).map (t.orphan p q) }

/-- `wait` by the task `x` of the slot `p`: it finds nothing, or it frees the zombie `q`, a child of
its own. -/
inductive Waits (p : P) (x : Task P C) : Option P → Tree P C → Prop
  | idle : Waits p x none t
  | reaped (q : P) (y : Task P C) (hy : t.task q = some y) (hp : y.parent = some p)
      (hz : y.zombie = true) {t1 : Tree P C} (h : t.Credited x t1) :
      Waits p x (some q) (t1.setTask q none)

/-- `cm_maxproc` by the task `x`. -/
def maxproc (x : Task P C) (n : Int) : Tree P C :=
  if (NPROC : Int) ≤ n then t
  else
    match x.container with
    | none => t
    | some c => if t.nproc c ≠ UINT_MAX ∨ x.container_id = 0 then t else t.setNproc c (touint n)

omit [DecidableEq P] in
theorem maxproc_eq (x : Task P C) (n : Int) :
    t.maxproc x n = t ∨ ∃ c, t.maxproc x n = t.setNproc c (touint n) := by
  unfold maxproc
  split_ifs
  · exact .inl rfl
  split
  · exact .inl rfl
  · split_ifs
    · exact .inl rfl
    · exact .inr ⟨_, rfl⟩

/-- The container `c` is claimed. -/
def claim (c : C) : Tree P C :=
  { t with cid := update t.cid c t.nextcid, nextcid := t.nextcid + 1 }

end Tree

/-- Where a process is in `cm_create_and_enter`: it has claimed the container `c`; `c` is its
container; it has moved into it; it has forked. `fs` and `nproc` are the arguments that are still to
be used. -/
inductive Phase (C : Type)
  | claimed (c : C) (fs : Bytes) (nproc : Int)
  | entered (c : C) (nproc : Int)
  | moved (c : C)
  | forked (c : C)
  deriving DecidableEq

namespace Phase

variable {C : Type}

/-- The container that is created. -/
def container : Phase C → C
  | claimed c _ _ => c
  | entered c _ => c
  | moved c => c
  | forked c => c

/-- The limit that is still to be set. -/
def pending : Phase C → Option Int
  | claimed _ _ n => some n
  | entered _ n => some n
  | _ => none

end Phase

/-- The limit of a container created with the argument `nproc`, if it is one. -/
def limitOf (nproc : Int) : Option ℕ :=
  if 0 ≤ nproc ∧ nproc < NPROC then some nproc.toNat else none

/-- A tree, the phase each process is in, and the limit each container was created with. -/
structure System (P C : Type) where
  tree : Tree P C
  inside : P → Option (Phase C)
  limit : C → Option ℕ

/-- What happens in a step. -/
inductive Event (P C : Type)
  | quiet
  | fork (p : P) (r : Int)
  | exit (p : P)
  | wait (p : P) (q : Option P)
  | maxproc (p : P)
  | claim (p : P) (c : C)
  | enter (p : P)
  | move (p : P)
  | leave (p : P)

namespace System

variable {P C : Type} [DecidableEq P] [DecidableEq C]

/-- The steps of a system. A process makes calls while it is not inside `cm_create_and_enter`. -/
inductive Step (s : System P C) : Event P C → System P C → Prop
  | quiet : Step s .quiet s
  | fork (p : P) (x : Task P C) (hx : s.tree.task p = some x) (hz : x.zombie = false)
      (hi : s.inside p = none) {r : Int} {t : Tree P C} (h : s.tree.Forks p x r t) :
      Step s (.fork p r) { s with tree := t }
  | exit (p : P) (x : Task P C) (hx : s.tree.task p = some x) (hz : x.zombie = false)
      (hi : s.inside p = none) (hinit : s.tree.initproc ≠ some p) :
      Step s (.exit p) { s with tree := s.tree.exit p }
  | wait (p : P) (x : Task P C) (hx : s.tree.task p = some x) (hz : x.zombie = false)
      (hi : s.inside p = none) {q : Option P} {t : Tree P C} (h : s.tree.Waits p x q t) :
      Step s (.wait p q) { s with tree := t }
  | maxproc (p : P) (x : Task P C) (hx : s.tree.task p = some x)
      (hi : s.inside p = none) (n : Int) : Step s (.maxproc p) { s with tree := s.tree.maxproc x n }
  | claim (p : P) (x : Task P C) (hx : s.tree.task p = some x) (hz : x.zombie = false)
      (hi : s.inside p = none) (c : C) (hc : s.tree.cid c = UINT_MAX) (fs : Bytes) (n : Int) :
      Step s (.claim p c)
        { tree := s.tree.claim c
          inside := update s.inside p (some (.claimed c fs n))
          limit := update s.limit c (limitOf n) }
  | enter (p : P) (x : Task P C) (hx : s.tree.task p = some x) (c : C) (fs : Bytes) (n : Int)
      (hi : s.inside p = some (.claimed c fs n)) :
      Step s (.enter p)
        { s with
          tree := s.tree.setTask p (some { x with container := some c })
          inside := update s.inside p (some (.entered c n)) }
  | move (p : P) (x : Task P C) (hx : s.tree.task p = some x) (c : C) (n : Int)
      (hi : s.inside p = some (.entered c n)) :
      Step s (.move p)
        { s with
          tree := (s.tree.setTask p (some { x with container_id := s.tree.cid c })).maxproc
            { x with container_id := s.tree.cid c } n
          inside := update s.inside p (some (.moved c)) }
  | start (p : P) (x : Task P C) (hx : s.tree.task p = some x) (c : C)
      (hi : s.inside p = some (.moved c)) {r : Int} {t : Tree P C} (h : s.tree.Forks p x r t) :
      Step s (.fork p r)
        { s with tree := t, inside := update s.inside p (some (.forked c)) }
  | leave (p : P) (x : Task P C) (hx : s.tree.task p = some x) (c : C)
      (hi : s.inside p = some (.forked c)) :
      Step s (.leave p)
        { s with
          tree := s.tree.setTask p (some { x with container_id := 0 })
          inside := update s.inside p none }

end System

end Dockv6
