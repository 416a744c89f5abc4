import Dockv6.Foundations.Run
import Dockv6.Fs.Path

/-!
# The system calls on paths

`create` and the calls `chdir`, `open`, `mkdir`, `unlink` of `sysfile.c`, and the part of `exec`
that touches the file system, for one process. `Session` holds the file system and the fields of the
process that these calls use, and records what the process was given.
-/

namespace Dockv6

/-- The file system and the process that calls it. -/
structure Session where
  fs : Fs
  container_id : ℕ
  /-- `p->container->root` -/
  root : Option Slot
  cwd : Slot
  /-- The inodes of the open files, by descriptor. -/
  ofile : Fin NOFILE → Option Slot
  /-- The numbers of the inodes that the process was given so far. -/
  given : List ℕ
  /-- The numbers of the inodes that the process had allocated so far. -/
  made : List ℕ

namespace Session

/-- What `namex` reads of the process. -/
def ctx (s : Session) : PathCtx :=
  { container_id := s.container_id, root := s.root, cwd := s.cwd }

/-- The number of the inode in a slot. -/
def inum (s : Session) (i : Slot) : ℕ := (s.fs.icache i).inum

/-- Record that the process was given the inode `ip`. -/
def give (s : Session) (ip : Slot) : Session := { s with given := s.inum ip :: s.given }

end Session

/-- `namex`, called by the process. -/
def lookup (s : Session) (path : Bytes) (nameiparent : Bool) :
    Res (Option (Slot × Name) × Session) := do
  let (r, fs) ← namex s.ctx s.fs path nameiparent
  let s := { s with fs := fs }
  match r with
  | none => return (none, s)
  | some (ip, name) => return (some (ip, name), s.give ip)

/-- The entries `.` and `..` of the new inode `ip` in `dp`, when it is a directory. The link of `..`
is counted in `dp`; the one of `.` is not. -/
def createDots (fs : Fs) (ip dp : Slot) (type : IType) : Res Fs :=
  if type = .T_DIR then do
    let fs := fs.setDinode (fs.icache dp).inum
      { fs.dinode dp with nlink := (fs.dinode dp).nlink + 1 }
    let (r, fs) ← dirlink fs ip .dot (fs.icache ip).inum
    if r < 0 then throw (.panic "create dots")
    else
      let (r, fs) ← dirlink fs ip .dotdot (fs.icache dp).inum
      if r < 0 then throw (.panic "create dots") else return fs
  else .ok fs

/-- The second half of `create`: the name is not in `dp` yet, which is locked. -/
def createIn (fs : Fs) (dp : Slot) (name : Name) (type : IType) (major minor : ℕ) :
    Res (Slot × Fs) := do
  let (ip, fs) ← ialloc fs type
  let fs ← ilock fs ip
  let fs := fs.setDinode (fs.icache ip).inum
    { node := (fs.node ip).setDev major minor, nlink := 1 }
  let fs ← createDots fs ip dp type
  let (r, fs) ← dirlink fs dp name (fs.icache ip).inum
  if r < 0 then throw (.panic "create: dirlink")
  else
    let fs ← iunlockput fs dp
    return (ip, fs)

/-- Find the file `path`, when a file is asked for and there is one, or create it. -/
def create (s : Session) (path : Bytes) (type : IType) (major minor : ℕ) :
    Res (Option Slot × Session) := do
  let (r, s) ← lookup s path true
  match r with
  | none => return (none, s)
  | some (dp, name) =>
    let fs ← ilock s.fs dp
    let (r, fs) ← dirlookup fs dp name
    match r with
    | some (ip, _) =>
      let fs ← iunlockput fs dp
      let fs ← ilock fs ip
      if type = .T_FILE ∧ (fs.node ip).isFile then
        return (some ip, Session.give { s with fs := fs } ip)
      else
        let fs ← iunlockput fs ip
        return (none, { s with fs := fs })
    | none =>
      let (ip, fs) ← createIn fs dp name type major minor
      let s := { s with fs := fs, made := (fs.icache ip).inum :: s.made }
      return (some ip, s.give ip)

/-- The tail of `sys_open`, with `ip` locked: `filealloc` finds a free file or not, as `ffree` says,
and `fdalloc` takes the first free descriptor. -/
def openFd (s : Session) (ip : Slot) (ffree : Bool) : Res (Int × Session) :=
  match (List.finRange NOFILE).find? (fun fd => (s.ofile fd).isNone) with
  | some fd =>
    if ffree then do
      let fs ← iunlock s.fs ip
      return (fd.val, { s with fs := fs, ofile := Function.update s.ofile fd (some ip) })
    else do
      let fs ← iunlockput s.fs ip
      return (-1, { s with fs := fs })
  | none => do
    let fs ← iunlockput s.fs ip
    return (-1, { s with fs := fs })

/-- `sys_open`. Of `omode` it matters whether `O_CREATE` is set and whether it is `O_RDONLY`. -/
def sysOpen (s : Session) (path : Bytes) (ocreate rdonly ffree : Bool) : Res (Int × Session) :=
  if ocreate then do
    let (r, s) ← create s path .T_FILE 0 0
    match r with
    | none => return (-1, s)
    | some ip => openFd s ip ffree
  else do
    let (r, s) ← lookup s path false
    match r with
    | none => return (-1, s)
    | some (ip, _) =>
      let fs ← ilock s.fs ip
      if (fs.node ip).isDir && !rdonly then
        let fs ← iunlockput fs ip
        return (-1, { s with fs := fs })
      else openFd { s with fs := fs } ip ffree

/-- `mkdir(path)` -/
def sysMkdir (s : Session) (path : Bytes) : Res (Int × Session) := do
  let (r, s) ← create s path .T_DIR 0 0
  match r with
  | none => return (-1, s)
  | some ip =>
    let fs ← iunlockput s.fs ip
    return (0, { s with fs := fs })

/-- The inode's link count goes down by one. -/
def Fs.unlinked (fs : Fs) (ip : Slot) : Fs :=
  fs.setDinode (fs.icache ip).inum { fs.dinode ip with nlink := (fs.dinode ip).nlink - 1 }

/-- The end of `sys_unlink`: the entry at `off` in `dp` is cleared, and the link counts and the
references go down. -/
def unlinkEntry (fs : Fs) (dp ip : Slot) (off : ℕ) : Res Fs := do
  let fs := fs.setEnts dp
    (writeDirent (fs.node dp).ents off { inum := 0, name := List.replicate DIRSIZ 0 })
  let fs := if (fs.node ip).isDir then fs.unlinked dp else fs
  let fs ← iunlockput fs dp
  iunlockput (fs.unlinked ip) ip

/-- `sys_unlink` from where `dp` is locked. -/
def unlinkIn (fs : Fs) (dp : Slot) (name : Name) : Res (Int × Fs) :=
  if namecmp name.bytes [46] = 0 ∨ namecmp name.bytes [46, 46] = 0 then do
    let fs ← iunlockput fs dp
    return (-1, fs)
  else do
    let (r, fs) ← dirlookup fs dp name
    match r with
    | none =>
      let fs ← iunlockput fs dp
      return (-1, fs)
    | some (ip, off) =>
      let fs ← ilock fs ip
      if (fs.dinode ip).nlink < 1 then throw (.panic "unlink: nlink < 1")
      else if (fs.node ip).isDir && !isdirempty (fs.node ip) then
        let fs ← iunlockput fs ip
        let fs ← iunlockput fs dp
        return (-1, fs)
      else
        let fs ← unlinkEntry fs dp ip off
        return (0, fs)

/-- `unlink(path)` -/
def sysUnlink (s : Session) (path : Bytes) : Res (Int × Session) := do
  let (r, s) ← lookup s path true
  match r with
  | none => return (-1, s)
  | some (dp, name) =>
    let fs ← ilock s.fs dp
    let (ret, fs) ← unlinkIn fs dp name
    return (ret, { s with fs := fs })

/-- `sys_chdir`. What it does to its variable `path` after the lookup has no effect. -/
def sysChdir (s : Session) (path : Bytes) : Res (Int × Session) := do
  let (r, s) ← lookup s path false
  match r with
  | none => return (-1, s)
  | some (ip, _) =>
    let fs ← ilock s.fs ip
    if !(fs.node ip).isDir then
      let fs ← iunlockput fs ip
      return (-1, { s with fs := fs })
    else
      let fs ← iunlock fs ip
      return (0, { s with fs := iput fs s.cwd, cwd := ip })

/-- `exec`, as far as the file system goes: the program is looked up, read and put back, whether or
not it loads, as `loads` says. -/
def sysExec (s : Session) (path : Bytes) (loads : Bool) : Res (Int × Session) := do
  let (r, s) ← lookup s path false
  match r with
  | none => return (-1, s)
  | some (ip, _) =>
    let fs ← ilock s.fs ip
    let fs ← iunlockput fs ip
    return (if loads then 0 else -1, { s with fs := fs })

/-! ## Runs of calls by one process -/

/-- A call on a path. -/
inductive PathCall
  | chdir (path : Bytes)
  | open (path : Bytes) (ocreate rdonly ffree : Bool)
  | exec (path : Bytes) (loads : Bool)
  | mkdir (path : Bytes)
  | unlink (path : Bytes)

namespace PathCall

/-- The path of the call. -/
def path : PathCall → Bytes
  | .chdir p | .open p _ _ _ | .exec p _ | .mkdir p | .unlink p => p

/-- Does the call look for the parent? -/
def nameiparent : PathCall → Bool
  | .chdir _ | .exec _ _ => false
  | .open _ ocreate _ _ => ocreate
  | .mkdir _ | .unlink _ => true

/-- Run the call. -/
def run (s : Session) : PathCall → Res (Int × Session)
  | .chdir p => sysChdir s p
  | .open p ocreate rdonly ffree => sysOpen s p ocreate rdonly ffree
  | .exec p loads => sysExec s p loads
  | .mkdir p => sysMkdir s p
  | .unlink p => sysUnlink s p

end PathCall

/-- The runs of a process from the state `s0`; a call that panics ends the run. -/
def callMachine (s0 : Session) : Machine Session PathCall where
  init s := s = s0
  step s c := (c.run s).toOption.map Prod.snd

end Dockv6
