import Dockv6.Kernel.Boot

/-!
# Taking and releasing a mutex

`mutex_lock`, `mutex_unlock`, `cv_wait` and `cv_signal` of `proc.c`, each run by one process from
its entry to its return, or until the process sleeps. `Mutex/Interleaving.lean` has the sections of
these calls as separate steps.
-/

namespace Dockv6

open Kernel

namespace Kernel

/-- The process sleeps on `chan`. -/
def sleepOn (s : Kernel) (p : PIdx) (chan : Chan) : Kernel :=
  s.setProc p { s.proc p with state := .SLEEPING, chan := some chan }

/-- `mutex_holding`, for the process `p`. -/
def mutexHolding (s : Kernel) (p : PIdx) (m : MuxIdx) : Bool := (s.mux m).holding (s.proc p).pid

end Kernel

/-- Take the mutex at the index `muxid` of the process, or sleep for it. -/
def mutexLock (s : Kernel) (p : PIdx) (muxid : MuxIdx) : Kernel :=
  match (s.proc p).mutex muxid with
  | none => s
  | some m =>
    if s.mutexHolding p m then s
    else if (s.mux m).locked = 1 then s.sleepOn p (.mux m)
    else s.setMux m ((s.mux m).take (s.proc p).pid)

/-- Release the mutex and wake up who sleeps on it, if the process holds it. -/
def mutexUnlock (s : Kernel) (p : PIdx) (muxid : MuxIdx) : Kernel :=
  match (s.proc p).mutex muxid with
  | none => s
  | some m =>
    if s.mutexHolding p m then wakeup1 (s.setMux m (s.mux m).release) (some (.mux m)) else s

/-- The loop of `cv_wait`: take the signal, or sleep for one. The second component is whether the
loop is left. -/
def cvTake (s : Kernel) (p : PIdx) (m : MuxIdx) : Kernel × Bool :=
  match (s.mux m).cas 1 0 with
  | some x => (s.setMux m x, true)
  | none => (s.sleepOn p (.mux m), false)

/-- Release the mutex, wait for a signal and take the mutex again, if the process holds it. -/
def cvWait (s : Kernel) (p : PIdx) (muxid : MuxIdx) : Kernel :=
  match (s.proc p).mutex muxid with
  | none => s
  | some m =>
    if s.mutexHolding p m then
      let (s, signalled) := cvTake (mutexUnlock s p muxid) p m
      if signalled then mutexLock s p muxid else s
    else s

/-- Signal the condition variable. While an earlier signal has not been taken the call does not
return. -/
def cvSignal (s : Kernel) (p : PIdx) (muxid : MuxIdx) : Res Kernel :=
  match (s.proc p).mutex muxid with
  | none => .ok s
  | some m =>
    if (s.mux m).cv = 0 then .ok (wakeup1 (s.setMux m { s.mux m with cv := 1 }) (some (.mux m)))
    else .error .undefined

/-- A call of `Call` whose effect is given, or one that takes or releases a mutex. -/
inductive LockCall
  | call (c : Call)
  | mutexLock (muxid : Int)
  | mutexUnlock (muxid : Int)

/-- The state after a call. -/
def LockCall.run (s : Kernel) (p : PIdx) : LockCall → Res Kernel
  | .call (.other _) => .error .undefined
  | .call c => c.run s p
  | .mutexLock muxid => (muxIndex muxid).map (Dockv6.mutexLock s p)
  | .mutexUnlock muxid => (muxIndex muxid).map (Dockv6.mutexUnlock s p)

/-- Calls by processes that can run, with mutexes that are taken and released by these calls
only. -/
def lockMachine : Machine Kernel (PIdx × LockCall) where
  init := Boot
  step s a := if s.canRun a.1 then (a.2.run s a.1).toOption else none

end Dockv6
