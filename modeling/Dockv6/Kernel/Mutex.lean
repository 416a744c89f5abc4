import Dockv6.Kernel.Stop
import Dockv6.Kernel.Struct

/-!
# The mutex calls

`mutex_create` and `mutex_delete` of `proc.c`, and what `kill` does to the mutexes of its target.
`mtable.lock` is held throughout each of them, so each is one step. A `muxid` outside the table is
an index outside the array `p->mutex`, and ends the run here. The code does not check it: the word
before the array is `p->container_id`, which `mutex_delete(-1)` takes for a pointer and clears.
-/

namespace Dockv6

namespace Kernel

/-- The first slot of `mtable` that is not allocated. -/
def firstUnallocated (s : Kernel) : Option MuxIdx :=
  (List.finRange MUX_MAXNUM).find? (fun m => (s.mux m).isAlloc == 0)

/-- Does the slot carry the name, for a process of the container `cid`? The comparison is over the
length of `name`. -/
def muxNamed (s : Kernel) (name : Bytes) (cid : ℕ) (m : MuxIdx) : Bool :=
  strncmp name (s.mux m).name (strlen name) == 0 && (s.mux m).container_id == cid

/-- The slot at which the search of `mutex_create` stops. The slots are compared by name, whether
they are allocated or not, but for the first one that is not allocated. -/
def findMux (s : Kernel) (name : Bytes) (cid : ℕ) : Option MuxIdx :=
  (List.finRange MUX_MAXNUM).find?
    (fun m => decide (s.firstUnallocated ≠ some m) && s.muxNamed name cid m)

/-- The first free index of `p->mutex`. -/
def freeMuxid (s : Kernel) (p : PIdx) : Option MuxIdx :=
  (List.finRange MUX_MAXNUM).find? (fun i => ((s.proc p).mutex i).isNone)

/-- `p->mutex[i] = m` -/
def setMutex (s : Kernel) (p : PIdx) (i : MuxIdx) (m : Option MuxIdx) : Kernel :=
  s.setProc p { s.proc p with mutex := Function.update (s.proc p).mutex i m }

end Kernel

open Kernel

/-- `addtoProc` of `mutex_create`: give the process access to the mutex `m`. -/
def addtoProc (s : Kernel) (p : PIdx) (m : MuxIdx) : Int × Kernel :=
  if ∃ i, (s.proc p).mutex i = some m then (-1, s)
  else
    match s.freeMuxid p with
    | none => (-1, s)
    | some i =>
      (i, (s.setMutex p i (some m)).setMux m { s.mux m with refcount := (s.mux m).refcount + 1 })

/-- `setupMutex` of `mutex_create`: set up the slot `m` as a new mutex. -/
def setupMutex (s : Kernel) (p : PIdx) (m : MuxIdx) (name : Bytes) : Int × Kernel :=
  let s := s.setMux m
    { s.mux m with
      isAlloc := 1
      name := strncpy (s.mux m).name name (strlen name)
      refcount := 1
      container_id := (s.proc p).container_id
      cv := 0 }
  match s.freeMuxid p with
  | none => (-1, s)
  | some i => (i, s.setMutex p i (some m))

/-- Join the mutex with this name, or set up a new one. A name of more than 20 bytes runs over the
end of the slot's. -/
def mutexCreate (s : Kernel) (p : PIdx) (name : Bytes) : Res (Int × Kernel) :=
  match s.findMux name (s.proc p).container_id with
  | some m => .ok (addtoProc s p m)
  | none =>
    match s.firstUnallocated with
    | none => .ok (-1, s)
    | some m => if strlen name ≤ 20 then .ok (setupMutex s p m name) else .error .undefined

/-- One more reference. -/
def Mutex.addRef (m : Mutex) : Mutex := { m with refcount := m.refcount + 1 }

/-- A slot that `mutex_create` sets up. -/
def Mutex.setup (m : Mutex) (name : Bytes) (cid : ℕ) : Mutex :=
  { m with isAlloc := 1, name := strncpy m.name name (strlen name), refcount := 1,
           container_id := cid, cv := 0 }

section Create

variable {s s' : Kernel} {p : PIdx} {name : Bytes} {r : Int}

/-- What `mutex_create` does: nothing; or it adds a reference to the slot at which the search stops;
or it sets up the first slot that is not allocated, with a reference if the process has a free
index. -/
theorem mutexCreate_cases (h : mutexCreate s p name = .ok (r, s')) :
    (r = -1 ∧ s' = s) ∨
    (∃ m i, s.findMux name (s.proc p).container_id = some m ∧ (∀ j, (s.proc p).mutex j ≠ some m) ∧
      s.freeMuxid p = some i ∧ r = i ∧ s' = (s.setMutex p i (some m)).setMux m (s.mux m).addRef) ∨
    ∃ m, s.findMux name (s.proc p).container_id = none ∧ s.firstUnallocated = some m ∧
      ((s.freeMuxid p = none ∧ r = -1 ∧
          s' = s.setMux m ((s.mux m).setup name (s.proc p).container_id)) ∨
        ∃ i, s.freeMuxid p = some i ∧ r = i ∧
          s' = (s.setMutex p i (some m)).setMux m
            ((s.mux m).setup name (s.proc p).container_id)) := by
  unfold mutexCreate at h
  split at h
  · rename_i m hm
    unfold addtoProc at h
    split_ifs at h with hhas
    · cases h
      exact .inl ⟨rfl, rfl⟩
    · split at h <;> cases h
      · exact .inl ⟨rfl, rfl⟩
      · exact .inr (.inl ⟨m, _, hm, not_exists.mp hhas, ‹_›, rfl, rfl⟩)
  · rename_i hnone
    split at h
    · cases h
      exact .inl ⟨rfl, rfl⟩
    · rename_i m hm
      split_ifs at h
      refine .inr (.inr ⟨m, hnone, hm, ?_⟩)
      unfold setupMutex at h
      dsimp only at h
      split at h <;> cases h
      · exact .inl ⟨‹_›, rfl, rfl⟩
      · exact .inr ⟨_, ‹_›, rfl, rfl⟩

end Create

/-- A slot of `mtable` when its last reference is gone. The name stays: `strncpy` is called with the
length of the empty string. -/
def Mutex.dealloc (m : Mutex) : Mutex :=
  { m with isAlloc := 0, refcount := 0, name := strncpy m.name [] (strlen []), container_id := 0,
           locked := 0 }

/-- The slot after `mutex_delete` by the process with the pid `me`. -/
def Mutex.dropRef (m : Mutex) (me : Int) : Mutex :=
  if m.refcount = 1 then m.dealloc
  else { (if m.holding me then m.release else m) with refcount := m.refcount - 1 }

/-- Remove the access of the process to the mutex at its index `muxid`. -/
def mutexDelete (s : Kernel) (p : PIdx) (muxid : MuxIdx) : Kernel :=
  match (s.proc p).mutex muxid with
  | none => s
  | some m => (s.setMutex p muxid none).setMux m ((s.mux m).dropRef (s.proc p).pid)

/-- Only mutexes and the access of the process `p` to them have changed. -/
def MutexOnly (p : PIdx) (s s' : Kernel) : Prop :=
  ∃ mux f, s' = { s.setProc p { s.proc p with mutex := f } with mux := mux }

section MutexOnly

variable {s s' s1 s2 s3 : Kernel} {p : PIdx}

theorem MutexOnly.refl (p : PIdx) (s : Kernel) : MutexOnly p s s :=
  ⟨s.mux, (s.proc p).mutex, by simp only [Kernel.setProc, Function.update_eq_self]⟩

theorem MutexOnly.trans (h : MutexOnly p s1 s2) (h' : MutexOnly p s2 s3) : MutexOnly p s1 s3 := by
  obtain ⟨mux, f, rfl⟩ := h
  obtain ⟨mux', f', rfl⟩ := h'
  refine ⟨mux', f', ?_⟩
  simp only [Kernel.setProc, Function.update_idem, Function.update_self]

/-- The other fields are the same, of every process. -/
theorem MutexOnly.field {α : Type*} (h : MutexOnly p s s') (f : Proc → α)
    (hf : ∀ (x : Proc) g, f { x with mutex := g } = f x) (q : PIdx) :
    f (s'.proc q) = f (s.proc q) := by
  obtain ⟨mux, g, rfl⟩ := h
  exact setProc_field f (hf _ g) q

theorem mutexCreate_mutexOnly {name : Bytes} {r : Int} (h : mutexCreate s p name = .ok (r, s')) :
    MutexOnly p s s' := by
  obtain ⟨-, rfl⟩ | ⟨m, i, -, -, -, -, rfl⟩ | ⟨m, -, -, ⟨-, -, rfl⟩ | ⟨i, -, -, rfl⟩⟩ :=
    mutexCreate_cases h
  · exact .refl p s'
  · exact ⟨_, _, rfl⟩
  · exact ⟨_, (s.proc p).mutex, by simp only [setMux, Kernel.setProc, Function.update_eq_self]; rfl⟩
  · exact ⟨_, _, rfl⟩

theorem mutexDelete_mutexOnly (s : Kernel) (p : PIdx) (i : MuxIdx) :
    MutexOnly p s (mutexDelete s p i) := by
  unfold mutexDelete
  split
  · exact .refl p s
  · exact ⟨_, _, rfl⟩

end MutexOnly

/-- Is the argument of a mutex call an index of `p->mutex`? -/
abbrev muxInRange (muxid : Int) : Prop := 0 ≤ muxid ∧ muxid < MUX_MAXNUM

/-- The index that a system call's argument stands for. -/
def muxIndex (muxid : Int) : Res MuxIdx :=
  if h : 0 ≤ muxid ∧ muxid.toNat < MUX_MAXNUM then .ok ⟨muxid.toNat, h.2⟩ else .error .undefined

/-- What `kill` does to a mutex of its target `x`: it signals a target that sleeps on the mutex, and
drops a reference, whoever holds the lock. -/
def Mutex.killed (m : Mutex) (waiting : Bool) : Mutex :=
  let m := if waiting then (m.cas 0 1).getD m else m
  if m.refcount = 1 then { m.dealloc with cv := 0 }
  else { m with locked := 0, refcount := m.refcount - 1 }

/-- The loop of `kill` over the mutexes of its target. -/
def killMutexes (s : Kernel) (p : PIdx) (i : MuxIdx) : Kernel :=
  match (s.proc p).mutex i with
  | none => s
  | some m =>
    s.setMux m ((s.mux m).killed
      ((s.proc p).state = .SLEEPING ∧ (s.proc p).chan = some (.mux m)))

end Dockv6
