import Dockv6.Kernel.CString
import Dockv6.Kernel.Param

/-!
# One mutex

`struct mutex` and what the functions of `proc.c` do to it in each stretch that runs under
`mtable.lock` (or as one unlocked access). The stretches of different processes interleave in
`Mutex/Interleaving.lean`; in `Kernel/Mutex.lean` a call runs as a whole.
-/

namespace Dockv6

/-- `struct mutex`. -/
structure Mutex where
  /-- Is the lock held? `0` if not, `1` if it is. -/
  locked : ℕ
  isAlloc : Int
  /-- The pid of who locked this lock; not cleared when it is released. -/
  pid : Int
  name : Bytes
  /-- The number of references processes have to this mutex. -/
  refcount : Int
  /-- `0` if global, positive in a container. -/
  container_id : ℕ
  cv : Int
  deriving DecidableEq

namespace Mutex

/-- A slot of `mtable` before its first use. -/
def zero : Mutex :=
  { locked := 0, isAlloc := 0, pid := 0, name := List.replicate 20 0, refcount := 0,
    container_id := 0, cv := 0 }

/-- `mutex_holding`, for the calling process with the pid `me`. -/
def holding (m : Mutex) (me : Int) : Bool := m.locked ≠ 0 && m.pid == me

/-- The tail of `mutex_lock`: take the lock. -/
def take (m : Mutex) (me : Int) : Mutex := { m with locked := 1, pid := me }

/-- The section of `mutex_unlock` when the caller holds the lock. -/
def release (m : Mutex) : Mutex := { m with locked := 0 }

/-- `cas(&mux->cv, old, updated)`: the new mutex when the swap took place. -/
def cas (m : Mutex) (old updated : Int) : Option Mutex :=
  if m.cv = old then some { m with cv := updated } else none

@[simp] theorem take_locked (m : Mutex) (me : Int) : (m.take me).locked = 1 := rfl

@[simp] theorem take_pid (m : Mutex) (me : Int) : (m.take me).pid = me := rfl

@[simp] theorem release_locked (m : Mutex) : m.release.locked = 0 := rfl

@[simp] theorem release_pid (m : Mutex) : m.release.pid = m.pid := rfl

theorem holding_iff (m : Mutex) (me : Int) : m.holding me = true ↔ m.locked ≠ 0 ∧ m.pid = me := by
  simp [holding]

end Mutex

end Dockv6
