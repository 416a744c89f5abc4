import Dockv6.Kernel.Sysfile

/-!
# The calls on files

The system calls on files with their arguments as values, for runs of the system: a descriptor that
is not open makes the call return `-1`. Most of what they do is done to the file system alone
(`FsOnly`).
-/

namespace Dockv6

/-- A call on files, with its arguments. -/
inductive FileCall
  | open (path : Bytes) (omode : ℕ)
  | dup (fd : Fin NOFILE)
  | pipe (fd : ℕ)
  | close (fd : Fin NOFILE)
  | read (t : Transfer) (fd : Fin NOFILE) (addr n : ℕ)
  | write (t : Transfer) (fd : Fin NOFILE) (addr n : ℕ)
  | fstat (fd : Fin NOFILE) (st : ℕ)
  | mkdir (path : Bytes)
  | mknod (path : Bytes) (major minor : ℕ)
  | link (old new : Bytes)
  | unlink (path : Bytes)
  | chdir (path : Bytes)
  | copyFile (dir file : Bytes)

namespace Sys

/-- Go on with the file of the descriptor. -/
def withFd (p : PIdx) (fd : Fin NOFILE) (k : FIdx → Sys Int) : Sys Int :=
  opt (look fun s => .ok ((s.proc p).ofile fd)) (return -1) k

end Sys

open Sys in
/-- Make the call for the process `p`. -/
def FileCall.run (p : PIdx) : FileCall → Sys Int
  | .open path omode => do
    beginOp
    openPath p path omode
  | .dup fd => withFd p fd fun f => Sys.dup p f
  | .pipe fd => Sys.pipe p fd
  | .close fd => withFd p fd fun f => Sys.close p fd f
  | .read t fd addr n => withFd p fd fun f => fileread p t f addr n
  | .write t fd addr n => withFd p fd fun f => filewrite p t f addr n
  | .fstat fd st => withFd p fd fun f => filestat p f st
  | .mkdir path => do
    beginOp
    Sys.mknod p path .T_DIR 0 0
  | .mknod path major minor => do
    beginOp
    Sys.mknod p path .T_DEV major minor
  | .link old new => do
    beginOp
    Sys.link p old new
  | .unlink path => do
    beginOp
    Sys.unlink p path
  | .chdir path => do
    beginOp
    Sys.chdir p path
  | .copyFile dir file => do
    beginOp
    let r ← Sys.copyFile p dir file
    endOp
    return r

/-! ## What is done to the file system alone -/

/-- Only the file system and memory change, and the record of transactions. -/
def FsSame (c c' : Ledger) : Prop :=
  ∃ fs mem b b', c' =
    { c with s := { c.s with fs := fs, km := { c.s.km with mem := mem } }, begun := b, ended := b' }

theorem FsSame.refl (c : Ledger) : FsSame c c := ⟨c.s.fs, c.s.km.mem, c.begun, c.ended, rfl⟩

theorem FsSame.trans {c1 c2 c3 : Ledger} (h : FsSame c1 c2) (h' : FsSame c2 c3) : FsSame c1 c3 := by
  obtain ⟨fs, mem, b, b', rfl⟩ := h
  obtain ⟨fs, mem, b, b', rfl⟩ := h'
  exact ⟨fs, mem, b, b', rfl⟩

/-- The computation changes the file system and memory alone. -/
def FsOnly {α : Type} (x : Sys α) : Prop := ∀ c a c', x c = .ok (a, c') → FsSame c c'

section Lookup

variable {s s' : Kernel} {p : PIdx} {d : Pgdir} {path : Bytes}

/-- `namei` starts from a null inode and finds nothing, or is `namex`. -/
theorem nameiProc_cases {r : Option Slot} (h : nameiProc s p d path = .ok (r, s')) :
    (r = none ∧ ∃ mem, s' = s.setMem mem) ∨
      s.startsNull p path = false ∧ ∃ r' fs, namex (s.pathCtx p) s.fs path false = .ok (r', fs) ∧
        r = r'.map Prod.fst ∧ s' = { s with fs := fs } := by
  unfold nameiProc at h
  split_ifs at h with hnull
  · obtain ⟨mem, -, h1⟩ := bind_eq_ok.mp h
    obtain ⟨w, -, h2⟩ := bind_eq_ok.mp h1
    dsimp only at h2
    split_ifs at h2
    cases h2
    exact .inl ⟨rfl, mem, rfl⟩
  · obtain ⟨⟨r', fs⟩, hnamex, h1⟩ := bind_eq_ok.mp h
    cases h1
    exact .inr ⟨by simpa using hnull, r', fs, hnamex, rfl, rfl⟩

/-- As `nameiProc_cases`, for `nameiparent`. -/
theorem nameiparentProc_cases {r : Option (Slot × Name)}
    (h : nameiparentProc s p d path = .ok (r, s')) :
    (r = none ∧ ∃ mem, s' = s.setMem mem) ∨
      s.startsNull p path = false ∧ ∃ fs, namex (s.pathCtx p) s.fs path true = .ok (r, fs) ∧
        s' = { s with fs := fs } := by
  unfold nameiparentProc at h
  split_ifs at h with hnull
  · obtain ⟨mem, -, h1⟩ := bind_eq_ok.mp h
    obtain ⟨w, -, h2⟩ := bind_eq_ok.mp h1
    split_ifs at h2
    cases h2
    exact .inl ⟨rfl, mem, rfl⟩
  · obtain ⟨⟨r', fs⟩, hnamex, h1⟩ := bind_eq_ok.mp h
    cases h1
    exact .inr ⟨by simpa using hnull, fs, hnamex, rfl⟩

end Lookup

namespace FsOnly

variable {α β : Type} {p : PIdx} {path : Bytes} {ip dp : Slot}

protected theorem pure (a : α) : FsOnly (pure a) := by
  rintro c _ c' h
  cases h
  exact .refl c

protected theorem throw (e : Stop) : FsOnly (throw e : Sys α) := nofun

theorem bind {x : Sys α} {f : α → Sys β} (hx : FsOnly x) (hf : ∀ a, FsOnly (f a)) :
    FsOnly (x >>= f) := by
  rintro c b c' h
  obtain ⟨a, c1, h1, h2⟩ := run_bind_eq_ok.mp h
  exact (hx c a c1 h1).trans (hf a c1 b c' h2)

theorem opt {x : Sys (Option α)} {bad : Sys β} {k : α → Sys β} (hx : FsOnly x) (hbad : FsOnly bad)
    (hk : ∀ a, FsOnly (k a)) : FsOnly (Sys.opt x bad k) := by
  refine hx.bind fun r => ?_
  cases r with
  | none => exact hbad
  | some a => exact hk a

theorem ite {P : Prop} [Decidable P] {x y : Sys α} (hx : FsOnly x) (hy : FsOnly y) :
    FsOnly (if P then x else y) := by
  split_ifs
  · exact hx
  · exact hy

theorem look (f : Kernel → Res α) : FsOnly (Sys.look f) := by
  rintro c a c' h
  obtain ⟨-, rfl⟩ := Sys.look_eq_ok.mp h
  exact .refl _

theorem onFs (f : Fs → Res (α × Fs)) : FsOnly (Sys.onFs f) := by
  rintro c a c' h
  obtain ⟨fs, -, rfl⟩ := Sys.onFs_eq_ok.mp h
  exact ⟨fs, c.s.km.mem, c.begun, c.ended, rfl⟩

theorem actFs (f : Fs → Res Fs) : FsOnly (Sys.actFs f) := by
  rintro c a c' h
  obtain ⟨fs, -, rfl⟩ := Sys.actFs_eq_ok.mp h
  exact ⟨fs, c.s.km.mem, c.begun, c.ended, rfl⟩

theorem changeFs (f : Kernel → Fs) : FsOnly (Sys.change fun s => { s with fs := f s }) := by
  rintro c a c' h
  cases h
  exact ⟨_, c.s.km.mem, c.begun, c.ended, rfl⟩

theorem beginOp : FsOnly Sys.beginOp := by
  rintro c a c' h
  cases h
  exact ⟨c.s.fs, c.s.km.mem, _, c.ended, rfl⟩

theorem endOp : FsOnly Sys.endOp := by
  rintro c a c' h
  cases h
  exact ⟨c.s.fs, c.s.km.mem, c.begun, _, rfl⟩

theorem ended (a : α) : FsOnly (Sys.ended a) := endOp.bind fun _ => .pure a

/-- A lookup changes the file system and memory at most. -/
theorem namei (p : PIdx) (path : Bytes) : FsOnly (Sys.namei p path) := by
  rintro c r c' h
  obtain ⟨d, s, -, h1, rfl⟩ := Sys.namei_eq_ok h
  obtain ⟨-, mem, rfl⟩ | ⟨-, r', fs, -, -, rfl⟩ := nameiProc_cases h1
  · exact ⟨c.s.fs, mem, c.begun, c.ended, rfl⟩
  · exact ⟨fs, c.s.km.mem, c.begun, c.ended, rfl⟩

theorem nameiparent (p : PIdx) (path : Bytes) : FsOnly (Sys.nameiparent p path) := by
  rintro c r c' h
  obtain ⟨s, h1, rfl⟩ := Sys.kernel_eq_ok.mp h
  obtain ⟨d, -, h2⟩ := bind_eq_ok.mp h1
  obtain ⟨-, mem, rfl⟩ | ⟨-, fs, -, rfl⟩ := nameiparentProc_cases h2
  · exact ⟨c.s.fs, mem, c.begun, c.ended, rfl⟩
  · exact ⟨fs, c.s.km.mem, c.begun, c.ended, rfl⟩

/-- `create` changes nothing else. -/
theorem create (p : PIdx) (path : Bytes) (type : IType) (major minor : ℕ) :
    FsOnly (Sys.create p path type major minor) := by
  refine (nameiparent p path).opt (.pure none) fun ⟨dp, name⟩ => ?_
  refine (actFs _).bind fun _ => (onFs _).bind fun r => ?_
  cases r with
  | none => exact (onFs _).bind fun ip => .pure _
  | some r =>
    refine (actFs _).bind fun _ => (actFs _).bind fun _ => (look _).bind fun di => ?_
    exact .ite (.pure _) ((actFs _).bind fun _ => .pure _)

theorem openBad (ip : Slot) : FsOnly (Sys.openBad ip) := (actFs _).bind fun _ => .ended _

/-- `mkdir` and `mknod` after their arguments. -/
theorem mknod (p : PIdx) (path : Bytes) (type : IType) (major minor : ℕ) :
    FsOnly (Sys.mknod p path type major minor) :=
  (create p path type major minor).opt (.ended _) fun _ => (actFs _).bind fun _ => .ended _

theorem linkBad (ip : Slot) : FsOnly (Sys.linkBad ip) :=
  (actFs _).bind fun _ => (changeFs _).bind fun _ => (actFs _).bind fun _ => .ended _

theorem linkTo (p : PIdx) (ip : Slot) (path : Bytes) : FsOnly (Sys.linkTo p ip path) := by
  refine (nameiparent p path).opt (linkBad ip) fun ⟨dp, name⟩ => ?_
  refine (actFs _).bind fun _ => (look _).bind fun inum => (onFs _).bind fun r => ite ?_ ?_
  · exact (actFs _).bind fun _ => linkBad ip
  · exact (actFs _).bind fun _ => (changeFs _).bind fun _ => .ended _

/-- `link` after its arguments. -/
theorem link (p : PIdx) (old new : Bytes) : FsOnly (Sys.link p old new) := by
  refine (namei p old).opt (.ended _) fun ip => (actFs _).bind fun _ =>
    (look _).bind fun di => ite ?_ ?_
  · exact (actFs _).bind fun _ => .ended _
  · exact (changeFs _).bind fun _ => (actFs _).bind fun _ => linkTo p ip new

/-- `unlink` after its argument. -/
theorem unlink (p : PIdx) (path : Bytes) : FsOnly (Sys.unlink p path) := by
  have hbad : ∀ dp, FsOnly (Sys.unlinkBad dp) := fun dp => (actFs _).bind fun _ => .ended _
  refine (nameiparent p path).opt (.ended _) fun ⟨dp, name⟩ => (actFs _).bind fun _ =>
    ite (hbad dp) ?_
  refine (onFs _).opt (hbad dp) fun ⟨ip, off⟩ => (actFs _).bind fun _ => (look _).bind fun di => ?_
  refine ite (.throw _) (ite ?_ ?_)
  · exact (actFs _).bind fun _ => hbad dp
  · exact (actFs _).bind fun _ => .ended _

/-- `copy_file` between `begin_op` and `end_op`. -/
theorem copyFile (p : PIdx) (dir file : Bytes) : FsOnly (Sys.copyFile p dir file) := by
  refine (namei p dir).bind fun dp => (namei p file).bind fun ip => ?_
  cases dp with
  | none => exact .throw _
  | some dp =>
    refine (look _).bind fun inum => (look _).bind fun name => (look _).bind fun valid => ?_
    exact ite (.throw _) ((onFs _).bind fun r => .pure _)

end FsOnly

end Dockv6
