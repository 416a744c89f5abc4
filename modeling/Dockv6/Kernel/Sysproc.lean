import Dockv6.Kernel.Sysfile

/-!
# The system calls of `sysproc.c`, and all handlers

`Handler` lists the system calls, and the three functions that other parts of the kernel call on
their own. A handler that returns no value, or whose process goes to sleep and makes the call again,
returns nothing. The calls on mutexes are the subject of `Mutex/`.
-/

namespace Dockv6

open Kernel

namespace Sys

/-- A call that always returns a value. -/
def value (x : Sys Int) : Sys (Option Int) := do
  let r ← x
  return some r

/-- `fork()` -/
def sysFork (p : PIdx) : Sys Int := kernel fun s => fork s p

/-- `wait()` -/
def sysWait (p : PIdx) : Sys (Option Int) := kernel fun s => wait s p

/-- `kill(pid)` -/
def sysKill (p : PIdx) : Sys Int :=
  arg (argint · p 0) (return -1) fun pid => kernel fun s => .ok (kill s p pid)

/-- `getpid()` -/
def sysGetpid (p : PIdx) : Sys Int := look fun s => .ok (s.proc p).pid

/-- `sbrk(n)` -/
def sysSbrk (p : PIdx) : Sys Int :=
  arg (argint · p 0) (return -1) fun n => do
    let addr ← look fun s => .ok (s.proc p).sz
    let r ← kernel fun s => growproc s p n
    return if r < 0 then -1 else toint addr

/-- The loop of `sys_sleep`, with what `ticks` and `killed` are each time the process looks. -/
def sleepRounds (ticks0 n : ℕ) : List (ℕ × Bool) → Option Int
  | [] => none
  | (ticks, killed) :: l =>
    if (ticks + 2 ^ 32 - ticks0) % 2 ^ 32 < n then
      if killed then some (-1) else sleepRounds ticks0 n l
    else some 0

/-- `sleep(n)` -/
def sysSleep (ticks0 : ℕ) (looks : List (ℕ × Bool)) (p : PIdx) : Sys (Option Int) :=
  arg (argint · p 0) (return some (-1)) fun n => return sleepRounds ticks0 (touint n) looks

/-- `uptime()` -/
def sysUptime (ticks : ℕ) : Sys Int := return toint ticks

/-- `sys_m_get` and `sys_m_rem`: the name is the string at the pointer. -/
def sysShm (f : Kernel → PIdx → Bytes → Res (Int × Kernel)) (p : PIdx) : Sys Int :=
  arg (argptr · p 0 4) (return -1) fun ptr => do
    let name ← look fun s => do
      let d ← s.dir p
      ustring d s.km.mem KERNBASE ptr
    kernel fun s => f s p name

/-- `m_get(name)` -/
def sysMGet (p : PIdx) : Sys Int := sysShm shmGet p

/-- `m_rem(name)` -/
def sysMRem (p : PIdx) : Sys Int := sysShm shmRem p

/-- `cm_create_and_enter(init, fs, nproc)` -/
def sysCmCreateAndEnter (p : PIdx) : Sys Int :=
  arg (argstr · p 0) (return -1) fun init =>
  arg (argstr · p 1) (return -1) fun fs =>
  arg (argint · p 2) (return -1) fun nproc => cmCreateAndEnter p init fs nproc

/-- `cm_maxproc(nproc)` -/
def sysCmMaxproc (p : PIdx) : Sys Int :=
  arg (argint · p 0) (return -1) fun nproc => kernel fun s => .ok (cmMaxproc s p nproc)

/-- `mutex_create(name)` -/
def sysMutexCreate (p : PIdx) : Sys Int :=
  arg (argstr · p 0) (return -1) fun name => kernel fun s => mutexCreate s p name

/-- `mutex_delete(muxid)` -/
def sysMutexDelete (p : PIdx) : Sys Unit :=
  arg (argint · p 0) (return ()) fun muxid => act fun s => do
    let i ← muxIndex muxid
    return mutexDelete s p i

/-- `sys_mutex_lock`, `sys_mutex_unlock`, `sys_cv_wait` and `sys_cv_signal`. -/
def sysMutex (o : Other) (p : PIdx) : Sys Unit :=
  arg (argint · p 0) (return ()) fun _ => change fun s => o.run s p

/-- `prio_set(pid, priority)` -/
def sysPrioSet (p : PIdx) : Sys Int :=
  arg (argint · p 0) (return -1) fun pid =>
  arg (argint · p 1) (return -1) fun priority => kernel fun s => do
    let d ← s.dir p
    prioSet s p d pid priority

end Sys

/-- The handlers of system calls, with what the parts that are not modelled do, and `fileclose`,
`exec` and `cm_create_and_enter`. -/
inductive Handler
  | sysFork
  | sysExit
  | sysWait
  | sysPipe
  | sysRead (t : Transfer)
  | sysKill
  | sysExec
  | sysFstat
  | sysChdir
  | sysDup
  | sysGetpid
  | sysSbrk
  | sysSleep (ticks0 : ℕ) (looks : List (ℕ × Bool))
  | sysUptime (ticks : ℕ)
  | sysOpen
  | sysWrite (t : Transfer)
  | sysMknod
  | sysUnlink
  | sysLink
  | sysMkdir
  | sysClose
  | sysMGet
  | sysMRem
  | sysCmCreateAndEnter
  | sysCmSetroot
  | sysCmMaxproc
  | sysCopyFile
  | sysMutexCreate
  | sysMutexDelete
  | sysMutexLock (o : Other)
  | sysMutexUnlock (o : Other)
  | sysCvWait (o : Other)
  | sysCvSignal (o : Other)
  | sysPrioSet
  | fileclose (f : FIdx)
  | exec (path : Bytes) (argv : List Bytes)
  | cmCreateAndEnter (init fs : Bytes) (nproc : Int)

/-- A handler that returns no value. -/
def Sys.void (x : Sys Unit) : Sys (Option Int) := do
  x
  return none

open Sys in
/-- Run the handler for the process `p`. -/
def Handler.run (p : PIdx) : Handler → Sys (Option Int)
  | .sysFork => value (Sys.sysFork p)
  | .sysExit => void (Sys.exit p)
  | .sysWait => Sys.sysWait p
  | .sysPipe => value (Sys.sysPipe p)
  | .sysRead t => value (Sys.sysRead t p)
  | .sysKill => value (Sys.sysKill p)
  | .sysExec => value (Sys.sysExec p)
  | .sysFstat => value (Sys.sysFstat p)
  | .sysChdir => value (Sys.sysChdir p)
  | .sysDup => value (Sys.sysDup p)
  | .sysGetpid => value (Sys.sysGetpid p)
  | .sysSbrk => value (Sys.sysSbrk p)
  | .sysSleep ticks0 looks => Sys.sysSleep ticks0 looks p
  | .sysUptime ticks => value (Sys.sysUptime ticks)
  | .sysOpen => value (Sys.sysOpen p)
  | .sysWrite t => value (Sys.sysWrite t p)
  | .sysMknod => value (Sys.sysMknod p)
  | .sysUnlink => value (Sys.sysUnlink p)
  | .sysLink => value (Sys.sysLink p)
  | .sysMkdir => value (Sys.sysMkdir p)
  | .sysClose => value (Sys.sysClose p)
  | .sysMGet => value (Sys.sysMGet p)
  | .sysMRem => value (Sys.sysMRem p)
  | .sysCmCreateAndEnter => value (Sys.sysCmCreateAndEnter p)
  | .sysCmSetroot => value (Sys.sysCmSetroot p)
  | .sysCmMaxproc => value (Sys.sysCmMaxproc p)
  | .sysCopyFile => value (Sys.sysCopyFile p)
  | .sysMutexCreate => value (Sys.sysMutexCreate p)
  | .sysMutexDelete => void (Sys.sysMutexDelete p)
  | .sysMutexLock o | .sysMutexUnlock o | .sysCvWait o | .sysCvSignal o => void (Sys.sysMutex o p)
  | .sysPrioSet => value (Sys.sysPrioSet p)
  | .fileclose f => void (Sys.fileclose f)
  | .exec path argv => value (Sys.exec p path argv)
  | .cmCreateAndEnter init fs nproc => value (Sys.cmCreateAndEnter p init fs nproc)

end Dockv6
