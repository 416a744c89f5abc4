import Dockv6.Fs.Calls
import Dockv6.Kernel.File

/-!
# The system calls of `sysfile.c`

The handlers with every way out that they have, and `exec`, `exit`, `cm_create_and_enter` and
`copy_file`, which handlers call. What follows the arguments of a handler is a function of its own,
named after the call. A link count is a `short`; it may overflow in `link`.
-/

namespace Dockv6

open Kernel

/-- The `short` with the low bits of a number. -/
def toshort (n : Int) : Int := (n + 2 ^ 15) % 2 ^ 16 - 2 ^ 15

/-- `nameiparent` from a null inode: its count is the word at address `8`, and there is no meaning
to putting it back. -/
def nullNameiparent (s : Kernel) (d : Pgdir) (path : Bytes) :
    Res (Option (Slot × Name) × Kernel) := do
  let mem ← uincWord d s.km.mem 8
  let w ← uword d mem 8
  if pathElems path.length path = [] then throw .undefined
  else if w = 0 ∨ 2 ^ 31 ≤ w then return (none, s.setMem mem)
  else throw (.panic "ilock")

/-- `nameiparent`, called by the process `p`. -/
def nameiparentProc (s : Kernel) (p : PIdx) (d : Pgdir) (path : Bytes) :
    Res (Option (Slot × Name) × Kernel) :=
  if s.startsNull p path then nullNameiparent s d (containerPath (s.pathCtx p) path)
  else do
    let (r, fs) ← namex (s.pathCtx p) s.fs path true
    return (r, { s with fs := fs })

/-- The name that `dirlink` sees in a string: its first `DIRSIZ` bytes. -/
def Name.ofBytes (s : Bytes) : Name where
  bytes := (cstr s).take DIRSIZ
  length_le := List.length_take_le _ _
  ne_zero h := by simpa using List.mem_takeWhile_imp (List.mem_of_mem_take h)

/-- The fetched string `argv[]` of `sys_exec`, with room for `n` more pointers. -/
def fetchArgv (s : Kernel) (p : PIdx) : ℕ → ℕ → Res (Option (List Bytes))
  | 0, _ => .ok none
  | n + 1, addr => do
    let uarg ← fetchint s p addr
    match uarg with
    | none => return none
    | some 0 => return some []
    | some uarg =>
      let arg ← fetchstr s p uarg
      match arg with
      | none => return none
      | some arg =>
        let rest ← fetchArgv s p n ((addr + 4) % 2 ^ 32)
        return rest.map (arg :: ·)

namespace Sys

/-- Go on with what `x` returns, or with `bad` when it returns nothing. -/
def opt {α β : Type} (x : Sys (Option α)) (bad : Sys β) (k : α → Sys β) : Sys β := do
  let r ← x
  match r with
  | none => bad
  | some a => k a

/-- Go on with an argument, or with `bad` when it cannot be fetched. -/
def arg {α β : Type} (fetch : Kernel → Res (Option α)) (bad : Sys β) (k : α → Sys β) : Sys β :=
  opt (look fetch) bad k

theorem opt_eq_ok {α β : Type} {x : Sys (Option α)} {bad : Sys β} {k : α → Sys β} {c : Ledger}
    {r : β × Ledger} : opt x bad k c = .ok r ↔
      (∃ c1, x c = .ok (none, c1) ∧ bad c1 = .ok r) ∨
        ∃ a c1, x c = .ok (some a, c1) ∧ k a c1 = .ok r := by
  refine run_bind_eq_ok.trans ⟨?_, ?_⟩
  · rintro ⟨_ | a, c1, hx, h⟩
    · exact .inl ⟨c1, hx, h⟩
    · exact .inr ⟨a, c1, hx, h⟩
  · rintro (⟨c1, hx, h⟩ | ⟨a, c1, hx, h⟩)
    · exact ⟨none, c1, hx, h⟩
    · exact ⟨some a, c1, hx, h⟩

theorem arg_eq_ok {α β : Type} {fetch : Kernel → Res (Option α)} {bad : Sys β} {k : α → Sys β}
    {c : Ledger} {r : β × Ledger} : arg fetch bad k c = .ok r ↔
      (fetch c.s = .ok none ∧ bad c = .ok r) ∨ ∃ a, fetch c.s = .ok (some a) ∧ k a c = .ok r := by
  rw [arg, opt_eq_ok]
  simp only [look_eq_ok]
  constructor
  · rintro (⟨c1, ⟨hf, rfl⟩, h⟩ | ⟨a, c1, ⟨hf, rfl⟩, h⟩)
    · exact .inl ⟨hf, h⟩
    · exact .inr ⟨a, hf, h⟩
  · rintro (⟨hf, h⟩ | ⟨a, hf, h⟩)
    · exact .inl ⟨c, ⟨hf, rfl⟩, h⟩
    · exact .inr ⟨a, c, ⟨hf, rfl⟩, h⟩

theorem triple_opt {α β : Type} {x : Sys (Option α)} {bad : Sys β} {k : α → Sys β}
    {P : Ledger → Prop} {R : Option α → Ledger → Prop} {Q : β → Ledger → Prop} (hx : Triple P x R)
    (hbad : Triple (R none) bad Q) (hk : ∀ a, Triple (R (some a)) (k a) Q) :
    Triple P (opt x bad k) Q := by
  refine hx.bind fun r => ?_
  cases r with
  | none => exact hbad
  | some a => exact hk a

/-- `end_op(); return r;` -/
def ended {α : Type} (r : α) : Sys α := do
  endOp
  return r

/-- The inode of the path. -/
def namei (p : PIdx) (path : Bytes) : Sys (Option Slot) :=
  kernel fun s => do
    let d ← s.dir p
    nameiProc s p d path

/-- The parent of the path, and the last name. -/
def nameiparent (p : PIdx) (path : Bytes) : Sys (Option (Slot × Name)) :=
  kernel fun s => do
    let d ← s.dir p
    nameiparentProc s p d path

/-- Lock the inode, and read it from disk if necessary. -/
abbrev ilock (ip : Slot) : Sys Unit := actFs fun fs => Dockv6.ilock fs ip

/-- Unlock the inode. -/
abbrev iunlock (ip : Slot) : Sys Unit := actFs fun fs => Dockv6.iunlock fs ip

/-- Drop a reference to the inode. -/
abbrev iput (ip : Slot) : Sys Unit := change fun s => { s with fs := Dockv6.iput s.fs ip }

/-- Unlock, then put. -/
abbrev iunlockput (ip : Slot) : Sys Unit := actFs fun fs => Dockv6.iunlockput fs ip

/-- Look for an entry in a directory. -/
abbrev dirlookup (dp : Slot) (name : Name) : Sys (Option (Slot × ℕ)) :=
  onFs fun fs => Dockv6.dirlookup fs dp name

/-- Write a new entry into a directory. -/
abbrev dirlink (dp : Slot) (name : Name) (inum : ℕ) : Sys Int :=
  onFs fun fs => Dockv6.dirlink fs dp name inum

/-- The inode on the disk that the entry of `icache` stands for. -/
abbrev dinode (ip : Slot) : Sys Dinode := look fun s => .ok (s.fs.dinode ip)

/-- `ip->nlink += d; iupdate(ip);` -/
abbrev addLink (ip : Slot) (d : Int) : Sys Unit :=
  change fun s => { s with
    fs := s.fs.setDinode (s.fs.icache ip).inum
      { s.fs.dinode ip with nlink := toshort ((s.fs.dinode ip).nlink + d) } }

/-! ## `dup`, `read`, `write`, `close`, `fstat` -/

/-- `sys_dup` of an open file. -/
def dup (p : PIdx) (f : FIdx) : Sys Int :=
  opt (kernel fun s => .ok (fdalloc s p f)) (return -1) fun fd => do
    act fun s => filedup s f
    return fd.val

/-- `dup(fd)` -/
def sysDup (p : PIdx) : Sys Int := arg (argfd · p 0) (return -1) fun (_, f) => dup p f

/-- `read(fd, addr, n)` -/
def sysRead (t : Transfer) (p : PIdx) : Sys Int :=
  arg (argfd · p 0) (return -1) fun (_, f) =>
  arg (argint · p 2) (return -1) fun n =>
  arg (argptr · p 1 n) (return -1) fun addr => fileread p t f addr n.toNat

/-- `write(fd, addr, n)` -/
def sysWrite (t : Transfer) (p : PIdx) : Sys Int :=
  arg (argfd · p 0) (return -1) fun (_, f) =>
  arg (argint · p 2) (return -1) fun n =>
  arg (argptr · p 1 n) (return -1) fun addr => filewrite p t f addr n.toNat

/-- Close the descriptor `fd` of the file `f`. -/
def close (p : PIdx) (fd : Fin NOFILE) (f : FIdx) : Sys Int := do
  setProc p fun x => { x with ofile := Function.update x.ofile fd none }
  fileclose f
  return 0

/-- `close(fd)` -/
def sysClose (p : PIdx) : Sys Int := arg (argfd · p 0) (return -1) fun (fd, f) => close p fd f

/-- `sizeof(struct stat)` -/
abbrev STAT_SIZE : ℕ := 20

/-- `fstat(fd, st)` -/
def sysFstat (p : PIdx) : Sys Int :=
  arg (argfd · p 0) (return -1) fun (_, f) =>
  arg (argptr · p 1 STAT_SIZE) (return -1) fun st => filestat p f st

/-! ## `link` and `unlink` -/

/-- The end `bad` of `sys_link`. -/
def linkBad (ip : Slot) : Sys Int := do
  ilock ip
  addLink ip (-1)
  iunlockput ip
  ended (-1)

/-- `sys_link` with the count of `ip` gone up. -/
def linkTo (p : PIdx) (ip : Slot) (new : Bytes) : Sys Int :=
  opt (nameiparent p new) (linkBad ip) fun (dp, name) => do
    ilock dp
    let inum ← look fun s => .ok (s.fs.icache ip).inum
    -- There is one device.
    let r ← dirlink dp name inum
    if r < 0 then
      iunlockput dp
      linkBad ip
    else
      iunlockput dp
      iput ip
      ended 0

/-- Create the path `new` as a link to the same inode as `old`. -/
def link (p : PIdx) (old new : Bytes) : Sys Int :=
  opt (namei p old) (ended (-1)) fun ip => do
    ilock ip
    let di ← dinode ip
    if di.node.isDir then
      iunlockput ip
      ended (-1)
    else
      addLink ip 1
      iunlock ip
      linkTo p ip new

/-- `link(old, new)` -/
def sysLink (p : PIdx) : Sys Int :=
  arg (argstr · p 0) (return -1) fun old =>
  arg (argstr · p 1) (return -1) fun new => do
    beginOp
    link p old new

/-- The end `bad` of `sys_unlink`. -/
def unlinkBad (dp : Slot) : Sys Int := do
  iunlockput dp
  ended (-1)

/-- `sys_unlink` with `dp` and the inode `ip` of its entry at `off` locked. -/
def unlinkEntry (dp ip : Slot) (off : ℕ) : Sys Int := do
  let di ← dinode ip
  if di.nlink < 1 then throw (.panic "unlink: nlink < 1")
  else if di.node.isDir && !isdirempty di.node then
    iunlockput ip
    unlinkBad dp
  else
    actFs fun fs => Dockv6.unlinkEntry fs dp ip off
    ended 0

/-- `sys_unlink` of a path. -/
def unlink (p : PIdx) (path : Bytes) : Sys Int :=
  opt (nameiparent p path) (ended (-1)) fun (dp, name) => do
    ilock dp
    if namecmp name.bytes [46] = 0 ∨ namecmp name.bytes [46, 46] = 0 then unlinkBad dp
    else
      opt (dirlookup dp name) (unlinkBad dp) fun (ip, off) => do
        ilock ip
        unlinkEntry dp ip off

/-- `unlink(path)` -/
def sysUnlink (p : PIdx) : Sys Int :=
  arg (argstr · p 0) (return -1) fun path => do
    beginOp
    unlink p path

/-! ## `create`, `open`, `mkdir`, `mknod` -/

/-- Open or create the inode of the path, locked. -/
def create (p : PIdx) (path : Bytes) (type : IType) (major minor : ℕ) : Sys (Option Slot) :=
  opt (nameiparent p path) (return none) fun (dp, name) => do
    ilock dp
    let r ← dirlookup dp name
    match r with
    | some (ip, _) =>
      iunlockput dp
      ilock ip
      let di ← dinode ip
      if type = .T_FILE ∧ di.node.isFile then return some ip
      else
        iunlockput ip
        return none
    | none =>
      let ip ← onFs fun fs => createIn fs dp name type major minor
      return some ip

/-- To write only. -/
abbrev O_WRONLY : ℕ := 0x001

/-- To read and write. -/
abbrev O_RDWR : ℕ := 0x002

/-- Create it if there is none. -/
abbrev O_CREATE : ℕ := 0x200

/-- The way out of `sys_open` when there is no room for the file `ip`, which is locked. -/
def openBad (ip : Slot) : Sys Int := do
  iunlockput ip
  ended (-1)

/-- The end of `sys_open`, with the inode `ip` locked. -/
def openFile (p : PIdx) (ip : Slot) (omode : ℕ) : Sys Int :=
  opt (kernel fun s => .ok (filealloc s)) (openBad ip) fun f =>
  opt (kernel fun s => .ok (fdalloc s p f))
    (do
      fileclose f
      openBad ip)
    fun fd => do
      iunlock ip
      endOp
      change fun s => s.setFile f
        { s.file f with
          kind := .FD_INODE ip
          off := 0
          readable := omode &&& O_WRONLY == 0
          writable := omode &&& O_WRONLY != 0 || omode &&& O_RDWR != 0 }
      return fd.val

/-- `sys_open` of a path. -/
def openPath (p : PIdx) (path : Bytes) (omode : ℕ) : Sys Int :=
  if omode &&& O_CREATE != 0 then
    opt (create p path .T_FILE 0 0) (ended (-1)) fun ip => openFile p ip omode
  else
    opt (namei p path) (ended (-1)) fun ip => do
      ilock ip
      let di ← dinode ip
      if di.node.isDir && omode != 0 then openBad ip
      else openFile p ip omode

/-- `open(path, omode)` -/
def sysOpen (p : PIdx) : Sys Int :=
  arg (argstr · p 0) (return -1) fun path =>
  arg (argint · p 1) (return -1) fun omode => do
    beginOp
    openPath p path (touint omode)

/-- `sys_mkdir` and `sys_mknod` with their arguments: the inode is created and put back. -/
def mknod (p : PIdx) (path : Bytes) (type : IType) (major minor : ℕ) : Sys Int :=
  opt (create p path type major minor) (ended (-1)) fun ip => do
    iunlockput ip
    ended 0

/-- `mkdir(path)` -/
def sysMkdir (p : PIdx) : Sys Int := do
  beginOp
  arg (argstr · p 0) (ended (-1)) fun path => mknod p path .T_DIR 0 0

/-- The `short` that an argument is passed as, by its bits. -/
def argshort (n : Int) : ℕ := touint n % 2 ^ 16

/-- `mknod(path, major, minor)` -/
def sysMknod (p : PIdx) : Sys Int := do
  beginOp
  arg (argstr · p 0) (ended (-1)) fun path =>
    arg (argint · p 1) (ended (-1)) fun major =>
    arg (argint · p 2) (ended (-1)) fun minor =>
      mknod p path .T_DEV (argshort major) (argshort minor)

/-! ## `chdir` -/

/-- `sys_chdir` with its argument. What it does to its variable `path` after the lookup has no
effect. -/
def chdir (p : PIdx) (path : Bytes) : Sys Int :=
  opt (namei p path) (ended (-1)) fun ip => do
    ilock ip
    let di ← dinode ip
    if !di.node.isDir then
      iunlockput ip
      ended (-1)
    else
      iunlock ip
      let cwd ← look fun s => .ok (s.proc p).cwd
      match cwd with
      | none => throw .undefined
      | some cwd =>
        iput cwd
        endOp
        setProc p fun x => { x with cwd := some ip }
        return 0

/-- `chdir(path)` -/
def sysChdir (p : PIdx) : Sys Int := do
  beginOp
  arg (argstr · p 0) (ended (-1)) fun path => chdir p path

/-! ## `exec` -/

/-- `if (pgdir) freevm(pgdir);` -/
def freevmIf (p : PIdx) (d : Option Pgdir) : Sys Unit :=
  match d with
  | none => return ()
  | some d => act fun s => do
    let m ← freevm (s.sharedPas p) d s.km
    return { s with km := m }

/-- The end `bad` of `exec` while the program's inode is locked. -/
def execBad (p : PIdx) (ip : Slot) (d : Option Pgdir) : Sys Int := do
  freevmIf p d
  iunlockput ip
  ended (-1)

/-- `exec` from where the program is loaded and its inode put back. -/
def execStack (p : PIdx) (old : Pgdir) (path : Bytes) (elf : Elfhdr) (argv : List Bytes) (d : Pgdir)
    (sz : ℕ) : Sys Int :=
  kernel fun s => do
    let (img, d, m) ← buildStack d s.km sz argv
    execEnd s p old path elf.entry img d m

/-- `exec` with the program's inode locked and its header read. -/
def execLoad (p : PIdx) (old : Pgdir) (ip : Slot) (path data : Bytes) (elf : Elfhdr)
    (argv : List Bytes) : Sys Int :=
  opt (kernel fun s => do
      let (d, m) ← setupkvm (s.sharedPas p) s.km
      return (d, { s with km := m }))
    (execBad p ip none)
    fun d => do
      let (sz, d) ← kernel fun s => do
        let (sz, d, m) ← loadSegments data elf.phnum elf.phoff 0 d s.km
        return ((sz, d), { s with km := m })
      match sz with
      | none => execBad p ip (some d)
      | some sz =>
        iunlockput ip
        endOp
        execStack p old path elf argv d sz

/-- Replace the image of the process by a program. -/
def exec (p : PIdx) (path : Bytes) (argv : List Bytes) : Sys Int := do
  let old ← look (·.dir p)
  beginOp
  opt (namei p path) (ended (-1)) fun ip => do
    ilock ip
    let data ← look fun s => .ok (s.fs.node ip).content
    match readElf data with
    | none => execBad p ip none
    | some elf =>
      if elf.magic ≠ ELF_MAGIC then execBad p ip none
      else execLoad p old ip path data elf argv

/-- `exec(path, argv)` -/
def sysExec (p : PIdx) : Sys Int :=
  arg (argstr · p 0) (return -1) fun path =>
  arg (argword · p 1) (return -1) fun uargv =>
  arg (fetchArgv · p MAXARG uargv) (return -1) fun argv => exec p path argv

/-! ## `pipe` -/

/-- `sys_pipe` with a pipe and the files of its ends: descriptors for both, or for none. -/
def pipeFds (p : PIdx) (rf wf : FIdx) (fd : ℕ) : Sys Int :=
  opt (kernel fun s => .ok (fdalloc s p rf))
    (do
      fileclose rf
      fileclose wf
      return -1)
    fun fd0 =>
  opt (kernel fun s => .ok (fdalloc s p wf))
    (do
      setProc p fun x => { x with ofile := Function.update x.ofile fd0 none }
      fileclose rf
      fileclose wf
      return -1)
    fun fd1 => do
      act fun s => do
        let d ← s.dir p
        let mem ← usetWord d s.km.mem fd fd0.val
        let mem ← usetWord d mem (fd + 4) fd1.val
        return s.setMem mem
      return 0

/-- `sys_pipe` with the address of the two descriptors. -/
def pipe (p : PIdx) (fd : ℕ) : Sys Int :=
  opt pipealloc (return -1) fun (rf, wf) => pipeFds p rf wf fd

/-- `pipe(fd)` -/
def sysPipe (p : PIdx) : Sys Int := arg (argptr · p 0 8) (return -1) fun fd => pipe p fd

/-! ## Containers -/

/-- `cm_setroot(path, len)` -/
def sysCmSetroot (p : PIdx) : Sys Int := do
  beginOp
  arg (argstr · p 0) (return -1) fun path =>
    arg (argint · p 1) (return -1) fun len => do
      act fun s => do
        let d ← s.dir p
        Dockv6.sysCmSetroot s p d path len
      endOp
      return if len ≤ 0 then -1 else 1

/-- Link the file `file` in the directory `dir` under the start of its path. The directory is not
locked, so its fields in memory may not be those of the disk; the number of a null inode is the word
at address `4`. -/
def copyFile (p : PIdx) (dir file : Bytes) : Sys Int := do
  let dp ← namei p dir
  let ip ← namei p file
  match dp with
  | none => throw .undefined
  | some dp =>
    let inum ← look fun s =>
      match ip with
      | some ip => .ok (s.fs.icache ip).inum
      | none => do
        let d ← s.dir p
        uword d s.km.mem 4
    let name ← look fun s => .ok (Name.ofBytes (containerPath (s.pathCtx p) file))
    let valid ← look fun s => .ok (s.fs.icache dp).valid
    if !valid then throw .undefined
    else
      let r ← dirlink dp name inum
      return if r < 0 then 0 else 1

/-- `copy_file(dir, file)` -/
def sysCopyFile (p : PIdx) : Sys Int :=
  arg (argstr · p 0) (return 0) fun dir =>
  arg (argstr · p 1) (return 0) fun file => do
    beginOp
    let r ← copyFile p dir file
    endOp
    return r

/-- Create a container with a first process in it. The child returns to user space from `fork`, so
that the caller is the parent here, whether or not the fork succeeded. -/
def cmCreateAndEnter (p : PIdx) (init fs : Bytes) (nproc : Int) : Sys Int := do
  let d ← look (·.dir p)
  opt (kernel fun s => cmClaim s p d init) (return -1) fun c => do
    beginOp
    act fun s => cmEnter s p d fs c
    endOp
    change fun s => cmMove s p c nproc
    let _ ← kernel fun s => fork s p
    change fun s => cmLeave s p
    return 1

/-! ## `exit` -/

/-- The loop of `exit` over the descriptors. -/
def closeFiles (p : PIdx) : List (Fin NOFILE) → Sys Unit
  | [] => return ()
  | fd :: fds => do
    let f ← look fun s => .ok ((s.proc p).ofile fd)
    match f with
    | none => closeFiles p fds
    | some f =>
      fileclose f
      setProc p fun x => { x with ofile := Function.update x.ofile fd none }
      closeFiles p fds

/-- Exit the current process. -/
def exit (p : PIdx) : Sys Unit := do
  let init ← look fun s => .ok s.initproc
  if init = some p then throw (.panic "init exiting")
  else
    closeFiles p (List.finRange NOFILE)
    act fun s => exitShm p (List.finRange SHM_MAXNUM) s
    change fun s => exitMutexes s p
    let cwd ← look fun s => .ok (s.proc p).cwd
    match cwd with
    | none => throw .undefined
    | some cwd =>
      beginOp
      iput cwd
      endOp
      setProc p fun x => { x with cwd := none }
      change fun s => exitEnd s p

/-! ## Agreement with the functions without a record -/

section Agree

variable {c c' : Ledger} {p : PIdx} {u : Unit} {r : Int}

theorem closeFiles_eq_ok {fds : List (Fin NOFILE)} (h : closeFiles p fds c = .ok (u, c')) :
    Dockv6.closeFiles p fds c.s = .ok c'.s := by
  induction fds generalizing c with
  | nil =>
    cases h
    rfl
  | cons fd fds ih =>
    obtain ⟨f, c1, hlook, h⟩ := run_bind_eq_ok.mp h
    obtain ⟨hf, rfl⟩ := look_eq_ok.mp hlook
    rw [Dockv6.closeFiles, Except.ok.inj hf]
    cases f with
    | none => exact ih h
    | some f =>
      obtain ⟨_, c2, hclose, h⟩ := run_bind_eq_ok.mp h
      obtain ⟨_, c3, hset, h⟩ := run_bind_eq_ok.mp h
      cases hset
      exact bind_eq_ok.mpr ⟨c2.s, fileclose_eq_ok hclose, ih h⟩

theorem exit_eq_ok (h : exit p c = .ok (u, c')) : Dockv6.exit c.s p = .ok c'.s := by
  obtain ⟨init, c1, hlook, h1⟩ := run_bind_eq_ok.mp h
  obtain ⟨hinit, rfl⟩ := look_eq_ok.mp hlook
  cases hinit
  by_cases hinit : c1.s.initproc = some p
  · rw [if_pos hinit] at h1
    cases h1
  rw [if_neg hinit] at h1
  rw [Dockv6.exit, if_neg hinit]
  obtain ⟨_, c2, hclose, h2⟩ := run_bind_eq_ok.mp h1
  obtain ⟨_, c3, hshm, h3⟩ := run_bind_eq_ok.mp h2
  obtain ⟨s3, hshm', rfl⟩ := act_eq_ok.mp hshm
  obtain ⟨_, c4, hmux, h4⟩ := run_bind_eq_ok.mp h3
  cases hmux
  obtain ⟨cwd, c5, hcwd, h5⟩ := run_bind_eq_ok.mp h4
  obtain ⟨hcwd', rfl⟩ := look_eq_ok.mp hcwd
  refine bind_eq_ok.mpr ⟨c2.s, closeFiles_eq_ok hclose, bind_eq_ok.mpr ⟨s3, hshm', ?_⟩⟩
  dsimp only at hcwd' ⊢
  rw [Except.ok.inj hcwd']
  cases cwd with
  | none => cases h5
  | some cwd =>
    cases h5
    rfl

theorem dir_eq_ok {s : Kernel} {d : Pgdir} (h : s.dir p = .ok d) : (s.proc p).pgdir = some d := by
  unfold Kernel.dir at h
  split at h
  · cases h
  · cases h
    assumption

theorem cmCreateAndEnter_eq_ok {init fs : Bytes} {nproc : Int}
    (h : cmCreateAndEnter p init fs nproc c = .ok (r, c')) :
    Dockv6.cmCreateAndEnter c.s p init fs nproc = .ok (r, c'.s) := by
  obtain ⟨d, c1, hlook, h1⟩ := run_bind_eq_ok.mp h
  obtain ⟨hd, rfl⟩ := look_eq_ok.mp hlook
  simp only [Dockv6.cmCreateAndEnter, dir_eq_ok hd]
  obtain ⟨c2, hclaim, h2⟩ | ⟨i, c2, hclaim, h2⟩ := opt_eq_ok.mp h1
  · obtain ⟨s2, hclaim', rfl⟩ := kernel_eq_ok.mp hclaim
    cases h2
    exact bind_eq_ok.mpr ⟨(none, s2), hclaim', rfl⟩
  · obtain ⟨s2, hclaim', rfl⟩ := kernel_eq_ok.mp hclaim
    obtain ⟨_, c3, hbegin, h3⟩ := run_bind_eq_ok.mp h2
    cases hbegin
    obtain ⟨_, c4, henter, h4⟩ := run_bind_eq_ok.mp h3
    obtain ⟨s4, henter', rfl⟩ := act_eq_ok.mp henter
    obtain ⟨_, c5, hend, h5⟩ := run_bind_eq_ok.mp h4
    cases hend
    obtain ⟨_, c6, hmove, h6⟩ := run_bind_eq_ok.mp h5
    cases hmove
    obtain ⟨pid, c7, hfork, h7⟩ := run_bind_eq_ok.mp h6
    obtain ⟨s7, hfork', rfl⟩ := kernel_eq_ok.mp hfork
    cases h7
    exact bind_eq_ok.mpr ⟨(some i, s2), hclaim', bind_eq_ok.mpr ⟨s4, henter',
      bind_eq_ok.mpr ⟨(pid, s7), hfork', rfl⟩⟩⟩

theorem namei_eq_ok {path : Bytes} {ip : Option Slot} (h : namei p path c = .ok (ip, c')) :
    ∃ d s, (c.s.proc p).pgdir = some d ∧ nameiProc c.s p d path = .ok (ip, s) ∧
      c' = { c with s := s } := by
  obtain ⟨s, h1, rfl⟩ := kernel_eq_ok.mp h
  obtain ⟨d, hd, hnamei⟩ := bind_eq_ok.mp h1
  exact ⟨d, s, dir_eq_ok hd, hnamei, rfl⟩

/-- The way out `bad` of `exec`, with nothing to free. -/
theorem execBad_none {ip : Slot} (h : execBad p ip none c = .ok (r, c')) :
    ∃ fs, Dockv6.iunlockput c.s.fs ip = .ok fs ∧ r = -1 ∧ c'.s = { c.s with fs := fs } := by
  obtain ⟨_, c1, hfree, h1⟩ := run_bind_eq_ok.mp h
  cases hfree
  obtain ⟨_, c2, hput, h2⟩ := run_bind_eq_ok.mp h1
  obtain ⟨fs, hput', rfl⟩ := actFs_eq_ok.mp hput
  cases h2
  exact ⟨fs, hput', rfl, rfl⟩

theorem execBad_some {ip : Slot} {d : Pgdir} (h : execBad p ip (some d) c = .ok (r, c')) :
    ∃ m fs, freevm (c.s.sharedPas p) d c.s.km = .ok m ∧ Dockv6.iunlockput c.s.fs ip = .ok fs ∧
      r = -1 ∧ c'.s = { c.s with km := m, fs := fs } := by
  obtain ⟨_, c1, hfree, h1⟩ := run_bind_eq_ok.mp h
  unfold freevmIf at hfree
  obtain ⟨s1, hfree', rfl⟩ := act_eq_ok.mp hfree
  obtain ⟨m, hm, hret⟩ := bind_eq_ok.mp hfree'
  cases hret
  obtain ⟨_, c2, hput, h2⟩ := run_bind_eq_ok.mp h1
  obtain ⟨fs, hput', rfl⟩ := actFs_eq_ok.mp hput
  cases h2
  exact ⟨m, fs, hm, hput', rfl, rfl⟩

/-- `exec` from where the header is read: the inode is put back either way. -/
theorem execLoad_eq_ok {old : Pgdir} {ip : Slot} {path data : Bytes} {elf : Elfhdr}
    {argv : List Bytes} (h : execLoad p old ip path data elf argv c = .ok (r, c')) :
    ∃ fs, Dockv6.iunlockput c.s.fs ip = .ok fs ∧
      execElf { c.s with fs := fs } p old path data elf argv = .ok (r, c'.s) := by
  obtain ⟨c1, hkvm, h1⟩ | ⟨d, c1, hkvm, h1⟩ := opt_eq_ok.mp h
  · obtain ⟨s1, hkvm', rfl⟩ := kernel_eq_ok.mp hkvm
    obtain ⟨⟨d, m⟩, hm, hret⟩ := bind_eq_ok.mp hkvm'
    cases hret
    obtain ⟨fs, hput, rfl, hc'⟩ := execBad_none h1
    rw [hc']
    exact ⟨fs, hput, bind_eq_ok.mpr ⟨(none, m), hm, rfl⟩⟩
  obtain ⟨s1, hkvm', rfl⟩ := kernel_eq_ok.mp hkvm
  obtain ⟨⟨d', m⟩, hm, hret⟩ := bind_eq_ok.mp hkvm'
  cases hret
  obtain ⟨⟨sz, d2⟩, c2, hload, h2⟩ := run_bind_eq_ok.mp h1
  obtain ⟨s2, hload', rfl⟩ := kernel_eq_ok.mp hload
  obtain ⟨⟨sz', d2', m2⟩, hseg, hret⟩ := bind_eq_ok.mp hload'
  cases hret
  cases sz with
  | none =>
    obtain ⟨m3, fs, hfree, hput, rfl, hc'⟩ := execBad_some h2
    rw [hc']
    refine ⟨fs, hput, bind_eq_ok.mpr ⟨(some d, m), hm, bind_eq_ok.mpr ⟨(none, d2, m2), ?_, ?_⟩⟩⟩
    · exact bind_eq_ok.mpr ⟨(none, d2, m2), hseg, rfl⟩
    · exact bind_eq_ok.mpr ⟨m3, hfree, rfl⟩
  | some sz =>
    obtain ⟨_, c3, hput, h3⟩ := run_bind_eq_ok.mp h2
    obtain ⟨fs, hput', rfl⟩ := actFs_eq_ok.mp hput
    obtain ⟨_, c4, hend, h4⟩ := run_bind_eq_ok.mp h3
    cases hend
    obtain ⟨s4, hstack, rfl⟩ := kernel_eq_ok.mp h4
    obtain ⟨⟨img, d3, m3⟩, hbuild, hrest⟩ := bind_eq_ok.mp hstack
    refine ⟨fs, hput', bind_eq_ok.mpr ⟨(some d, m), hm, bind_eq_ok.mpr ⟨(img, d3, m3), ?_, ?_⟩⟩⟩
    · exact bind_eq_ok.mpr ⟨(some sz, d2, m2), hseg, hbuild⟩
    · exact hrest

/-- `exec` frees and puts back in another order, which makes no difference when it returns. -/
theorem exec_eq_ok {path : Bytes} {argv : List Bytes} (h : exec p path argv c = .ok (r, c')) :
    Dockv6.exec c.s p path argv = .ok (r, c'.s) := by
  obtain ⟨old, c1, hlook, h1⟩ := run_bind_eq_ok.mp h
  obtain ⟨hd, rfl⟩ := look_eq_ok.mp hlook
  obtain ⟨_, c2, hbegin, h2⟩ := run_bind_eq_ok.mp h1
  cases hbegin
  have hold := dir_eq_ok hd
  simp only [Dockv6.exec, hold]
  obtain ⟨c3, hnamei, h3⟩ | ⟨ip, c3, hnamei, h3⟩ := opt_eq_ok.mp h2
  · obtain ⟨d, s3, hd', hnamei', rfl⟩ := namei_eq_ok hnamei
    cases hd'.symm.trans hold
    cases h3
    exact bind_eq_ok.mpr ⟨(none, s3), hnamei', rfl⟩
  obtain ⟨d, s3, hd', hnamei', rfl⟩ := namei_eq_ok hnamei
  cases hd'.symm.trans hold
  refine bind_eq_ok.mpr ⟨(some ip, s3), hnamei', ?_⟩
  obtain ⟨_, c4, hlock, h4⟩ := run_bind_eq_ok.mp h3
  obtain ⟨fs1, hlock', rfl⟩ := actFs_eq_ok.mp hlock
  obtain ⟨data, c5, hdata, h5⟩ := run_bind_eq_ok.mp h4
  obtain ⟨hdata', rfl⟩ := look_eq_ok.mp hdata
  cases hdata'
  refine bind_eq_ok.mpr ⟨fs1, hlock', ?_⟩
  dsimp only at h5 ⊢
  cases helf : readElf (fs1.node ip).content with
  | none =>
    rw [helf] at h5
    obtain ⟨fs, hput, rfl, hc'⟩ := execBad_none h5
    refine bind_eq_ok.mpr ⟨fs, hput, ?_⟩
    rw [hc']
    rfl
  | some elf =>
    rw [helf] at h5
    dsimp only at h5 ⊢
    split_ifs at h5 ⊢
    · obtain ⟨fs, hput, rfl, hc'⟩ := execBad_none h5
      refine bind_eq_ok.mpr ⟨fs, hput, ?_⟩
      rw [hc']
      rfl
    · obtain ⟨fs, hput, helf'⟩ := execLoad_eq_ok h5
      exact bind_eq_ok.mpr ⟨fs, hput, helf'⟩

end Agree

end Sys

end Dockv6
