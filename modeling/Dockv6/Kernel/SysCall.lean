import Dockv6.Kernel.Boot
import Dockv6.Kernel.FileCall

/-!
# Runs of all system calls

The runs of the kernel in which the calls on files are the ones of `FileCall`. What is left of the
calls stands for locks, condition variables and the clock: it changes mutexes, and lets processes
sleep and wake up.
-/

namespace Dockv6

open Kernel

/-- What a call on mutexes or the clock may change. -/
structure Sync where
  mux : MuxIdx → Mutex
  killed : Bool
  /-- What the caller sleeps on. -/
  sleep : Option Chan
  /-- What is woken up. -/
  wakeup : List Chan

/-- The state after such a call. -/
def Sync.run (o : Sync) (s : Kernel) (p : PIdx) : Kernel :=
  Other.run
    { mux := o.mux, km := s.km, file := s.file, pipe := s.pipe, fs := s.fs
      ofile := (s.proc p).ofile, cwd := (s.proc p).cwd, killed := o.killed, sleep := o.sleep
      wakeup := o.wakeup } s p

/-- A system call. -/
inductive SysCall
  | call (c : Call)
  | file (c : FileCall)
  | sync (o : Sync)

/-- Is it a call whose effect is not given? -/
def Call.isOther : Call → Bool
  | .other _ => true
  | _ => false

/-- The state after a call. The calls that `Call` leaves open are `FileCall` and `Sync` here. -/
def SysCall.run (s : Kernel) (p : PIdx) : SysCall → Res Kernel
  | .call c => if c.isOther then .error .undefined else c.run s p
  | .file c => (c.run p (.start s)).map fun r => r.2.s
  | .sync o => .ok (o.run s p)

/-- The runs of the kernel: calls by processes that can run. -/
def sysMachine : Machine Kernel (PIdx × SysCall) where
  init := Boot
  step s a := if s.canRun a.1 then (a.2.run s a.1).toOption else none

theorem sysMachine_step {s t : Kernel} {a : PIdx × SysCall} (h : sysMachine.step s a = some t) :
    s.canRun a.1 ∧ a.2.run s a.1 = .ok t := by
  have hstep : (if s.canRun a.1 then (a.2.run s a.1).toOption else none) = some t := h
  split_ifs at hstep with hrun
  exact ⟨hrun, toOption_eq_some.mp hstep⟩

theorem SysCall.file_eq_ok {s t : Kernel} {p : PIdx} {c : FileCall}
    (h : (SysCall.file c).run s p = .ok t) :
    ∃ r c', c.run p (.start s) = .ok (r, c') ∧ c'.s = t := by
  have hrun : (c.run p (.start s)).map (fun r => r.2.s) = .ok t := h
  cases hc : c.run p (.start s) with
  | error e =>
    rw [hc] at hrun
    cases hrun
  | ok r =>
    rw [hc] at hrun
    exact ⟨r.1, r.2, rfl, Except.ok.inj hrun⟩

end Dockv6
