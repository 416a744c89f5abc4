import Dockv6.Foundations.Run
import Dockv6.Mutex.Basic

/-!
# Lock, unlock, wait and signal, interleaved

Any number of processes have a reference to one mutex, each at a control point `Pc`. A step is one
of the code's atomic stretches: a section under `mtable.lock`, the unlocked `mutex_holding` test,
the compare-and-swap of `cv_wait` on `mux->cv`, going to sleep, and a `wakeup(mux)`. `mutex_lock`
sleeps inside its section, `cv_wait` in a step of its own.

`inside p` is bookkeeping: from where a `mutex_lock` of `p` returns to the section of its
`mutex_unlock`.
-/

namespace Dockv6.Mutex

/-- Where a process is in the mutex system calls. -/
inductive Pc
  /-- Outside the four calls. -/
  | user
  /-- In `mutex_lock`, before the unlocked holder test. -/
  | lockTest
  /-- In `mutex_lock`, before the loop's test of `mux->locked` under `mtable.lock`. -/
  | lockTry
  /-- Asleep in `mutex_lock`. -/
  | lockSleep
  /-- In `mutex_unlock`, before its section; `wait` if `cv_wait` called it. -/
  | unlock (wait : Bool)
  /-- In `mutex_unlock`, before its `wakeup`. -/
  | unlockWake (wait : Bool)
  /-- In `cv_wait`, before the unlocked holder test. -/
  | waitTest
  /-- In `cv_wait`, before the compare-and-swap. -/
  | waitCas
  /-- In `cv_wait`, the swap failed, before going to sleep. -/
  | waitPark
  /-- Asleep in `cv_wait`. -/
  | waitSleep
  /-- In `cv_signal`, before its section. -/
  | signal
  /-- In `cv_signal`, before its `wakeup`; `done` as the code's variable. -/
  | signalWake (done : Bool)
  deriving DecidableEq

/-- The four system calls on a mutex. -/
inductive Call
  | lock
  | unlock
  | wait
  | signal
  deriving DecidableEq

/-- The control point a call starts at. -/
def Call.entry : Call → Pc
  | lock => .lockTest
  | unlock => .unlock false
  | wait => .waitTest
  | signal => .signal

/-- Where `mutex_unlock` returns to. -/
def Pc.afterUnlock : Bool → Pc
  | true => .waitCas
  | false => .user

/-- What a `wakeup` does to a process: a sleeper goes back to the loop it sleeps in. -/
def Pc.wakeup : Pc → Pc
  | lockSleep => lockTry
  | waitSleep => waitCas
  | pc => pc

/-- The mutex, the control points of the processes, and who is inside the critical section. -/
structure State (P : Type*) where
  mux : Mutex
  pc : P → Pc
  inside : P → Bool

/-- A process starts a call, or takes its next step. -/
inductive Act (P : Type*)
  | call (p : P) (c : Call)
  | step (p : P)

variable {P : Type*} [DecidableEq P]

namespace State

/-- `p` goes to the control point `pc`. -/
def goto (s : State P) (p : P) (pc : Pc) : State P := { s with pc := Function.update s.pc p pc }

/-- A `mutex_lock` of `p` returns. -/
def enter (s : State P) (p : P) : State P :=
  { s.goto p .user with inside := Function.update s.inside p true }

/-- `p` has run the section of `mutex_unlock` and goes to `pc`. -/
def leave (s : State P) (p : P) (pc : Pc) : State P :=
  { s.goto p pc with inside := Function.update s.inside p false }

/-- `wakeup(mux)`. -/
def wakeup (s : State P) : State P := { s with pc := fun q => (s.pc q).wakeup }

end State

/-- The next step of `p`, whose pid is `pid p`. A sleeping process has none. -/
def step (pid : P → Int) (s : State P) (p : P) : Option (State P) :=
  match s.pc p with
  | .user => none
  | .lockTest =>
    if s.mux.holding (pid p) then some (s.enter p) else some (s.goto p .lockTry)
  | .lockTry =>
    if s.mux.locked = 1 then some (s.goto p .lockSleep)
    else some ({ s with mux := s.mux.take (pid p) }.enter p)
  | .lockSleep => none
  | .unlock wait =>
    if s.mux.holding (pid p) then
      some ({ s with mux := s.mux.release }.leave p (.unlockWake wait))
    else some (s.leave p (Pc.afterUnlock wait))
  | .unlockWake wait => some (s.wakeup.goto p (Pc.afterUnlock wait))
  | .waitTest =>
    if s.mux.holding (pid p) then some (s.goto p (.unlock true)) else some (s.goto p .user)
  | .waitCas =>
    match s.mux.cas 1 0 with
    | some m => some ({ s with mux := m }.goto p .lockTest)
    | none => some (s.goto p .waitPark)
  | .waitPark => some (s.goto p .waitSleep)
  | .waitSleep => none
  | .signal =>
    match s.mux.cas 0 1 with
    | some m => some ({ s with mux := m }.goto p (.signalWake true))
    | none => some (s.goto p (.signalWake false))
  | .signalWake done => some (s.wakeup.goto p (if done then .user else .signal))

/-- The steps by what they do, one case for each way through a stretch of the code. -/
inductive Stepped (pid : P → Int) (s : State P) (p : P) : State P → Prop
  | held (hpc : s.pc p = .lockTest) (h : s.mux.holding (pid p) = true) : Stepped pid s p (s.enter p)
  | tested (hpc : s.pc p = .lockTest) (h : s.mux.holding (pid p) = false) :
      Stepped pid s p (s.goto p .lockTry)
  | blocked (hpc : s.pc p = .lockTry) (h : s.mux.locked = 1) : Stepped pid s p (s.goto p .lockSleep)
  | taken (hpc : s.pc p = .lockTry) (h : s.mux.locked ≠ 1) :
      Stepped pid s p ({ s with mux := s.mux.take (pid p) }.enter p)
  | released (wait : Bool) (hpc : s.pc p = .unlock wait) (h : s.mux.holding (pid p) = true) :
      Stepped pid s p ({ s with mux := s.mux.release }.leave p (.unlockWake wait))
  | notHeld (wait : Bool) (hpc : s.pc p = .unlock wait) (h : s.mux.holding (pid p) = false) :
      Stepped pid s p (s.leave p (Pc.afterUnlock wait))
  | unlockWoke (wait : Bool) (hpc : s.pc p = .unlockWake wait) :
      Stepped pid s p (s.wakeup.goto p (Pc.afterUnlock wait))
  | waits (hpc : s.pc p = .waitTest) (h : s.mux.holding (pid p) = true) :
      Stepped pid s p (s.goto p (.unlock true))
  | refused (hpc : s.pc p = .waitTest) (h : s.mux.holding (pid p) = false) :
      Stepped pid s p (s.goto p .user)
  | passed (hpc : s.pc p = .waitCas) (h : s.mux.cv = 1) :
      Stepped pid s p ({ s with mux := { s.mux with cv := 0 } }.goto p .lockTest)
  | failed (hpc : s.pc p = .waitCas) (h : s.mux.cv ≠ 1) : Stepped pid s p (s.goto p .waitPark)
  | parked (hpc : s.pc p = .waitPark) : Stepped pid s p (s.goto p .waitSleep)
  | signalled (hpc : s.pc p = .signal) (h : s.mux.cv = 0) :
      Stepped pid s p ({ s with mux := { s.mux with cv := 1 } }.goto p (.signalWake true))
  | spun (hpc : s.pc p = .signal) (h : s.mux.cv ≠ 0) :
      Stepped pid s p (s.goto p (.signalWake false))
  | signalWoke (done : Bool) (hpc : s.pc p = .signalWake done) :
      Stepped pid s p (s.wakeup.goto p (if done then .user else .signal))

theorem stepped {pid : P → Int} {s t : State P} {p : P} (h : step pid s p = some t) :
    Stepped pid s p t := by
  unfold step at h
  split at h
  case h_1 => cases h
  case h_2 hpc =>
    split_ifs at h with hh <;> cases h
    · exact .held hpc hh
    · exact .tested hpc (by simpa using hh)
  case h_3 hpc =>
    split_ifs at h with hl <;> cases h
    · exact .blocked hpc hl
    · exact .taken hpc hl
  case h_4 => cases h
  case h_5 wait hpc =>
    split_ifs at h with hh <;> cases h
    · exact .released wait hpc hh
    · exact .notHeld wait hpc (by simpa using hh)
  case h_6 wait hpc =>
    cases h
    exact .unlockWoke wait hpc
  case h_7 hpc =>
    split_ifs at h with hh <;> cases h
    · exact .waits hpc hh
    · exact .refused hpc (by simpa using hh)
  case h_8 hpc =>
    unfold cas at h
    split_ifs at h with hcv <;> cases h
    · exact .passed hpc hcv
    · exact .failed hpc hcv
  case h_9 hpc =>
    cases h
    exact .parked hpc
  case h_10 => cases h
  case h_11 hpc =>
    unfold cas at h
    split_ifs at h with hcv <;> cases h
    · exact .signalled hpc hcv
    · exact .spun hpc hcv
  case h_12 done hpc =>
    cases h
    exact .signalWoke done hpc

/-- The machine of all interleavings, from an unlocked mutex nobody is using. -/
def machine (pid : P → Int) : Machine (State P) (Act P) where
  init s := s.mux.locked = 0 ∧ (∀ p, s.pc p = .user) ∧ ∀ p, s.inside p = false
  step s
    | .call p c => if s.pc p = .user then some (s.goto p c.entry) else none
    | .step p => step pid s p

end Dockv6.Mutex
