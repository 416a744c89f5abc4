import Dockv6.Kernel.Boot
import Dockv6.Kernel.Sysproc

/-!
# Transactions are balanced

`Leaves k x`: when `x` returns, `k` more transactions are open than before. Every handler leaves
none, whichever way it goes, but for `sys_cm_setroot`: it calls `begin_op` before it fetches its
arguments, and returns without `end_op` when it cannot fetch them.
-/

namespace Dockv6

namespace Sys

variable {α β : Type}

/-- When `x` returns, it leaves `k` more transactions open. -/
abbrev Leaves (k : ℤ) (x : Sys α) : Prop := Adds Ledger.outstanding k x

section Rules

variable {k : ℤ} {bad : Sys β}

theorem leaves_opt {x : Sys (Option α)} {y : α → Sys β} (hx : Leaves 0 x) (hbad : Leaves k bad)
    (hy : ∀ a, Leaves k (y a)) : Leaves k (opt x bad y) := by
  refine hx.after fun r => ?_
  cases r with
  | none => exact hbad
  | some a => exact hy a

theorem leaves_arg {fetch : Kernel → Res (Option α)} {y : α → Sys β} (hbad : Leaves k bad)
    (hy : ∀ a, Leaves k (y a)) : Leaves k (arg fetch bad y) :=
  leaves_opt (adds_kernel _) hbad hy

/-- After a part of the kernel that opens and closes no transaction. -/
theorem leaves_after {f : Kernel → Res (α × Kernel)} {y : α → Sys β} (hy : ∀ a, Leaves k (y a)) :
    Leaves k (kernel f >>= y) :=
  (adds_kernel f).after hy

theorem leaves_beginOp {y : Unit → Sys α} (hy : ∀ u, Leaves (-1) (y u)) :
    Leaves 0 (beginOp >>= y) :=
  adds_beginOp.bind hy

theorem leaves_endOp {y : Unit → Sys α} (hy : ∀ u, Leaves 0 (y u)) : Leaves (-1) (endOp >>= y) :=
  adds_endOp.bind hy

theorem leaves_ended (a : α) : Leaves (-1) (ended a) := leaves_endOp fun _ => .pure a

end Rules

/-! ## `file.c` and `pipe.c` -/

theorem leaves_pipeclose (page : ℕ) (writable : Bool) : Leaves 0 (pipeclose page writable) := by
  refine leaves_after fun _ => leaves_after fun pi => .ite ?_ (.pure ())
  rintro c a c' h
  cases h
  exact (Int.add_zero _).symm

theorem leaves_fileclose (f : FIdx) : Leaves 0 (fileclose f) := by
  refine leaves_after fun x => .ite (.throw _) (.ite (adds_kernel _) (leaves_after fun _ => ?_))
  cases x.kind with
  | FD_NONE => exact .pure ()
  | FD_PIPE page => exact leaves_pipeclose page x.writable
  | FD_INODE ip => exact leaves_beginOp fun _ => leaves_after fun _ => adds_endOp

theorem leaves_setPipe (f0 f1 : FIdx) (page : ℕ) : Leaves 0 (setPipe f0 f1 page) := by
  refine leaves_after fun _ => leaves_after fun _ => leaves_after fun _ => ?_
  rintro c a c' h
  cases h
  exact (Int.add_zero _).symm

theorem leaves_pipealloc : Leaves 0 pipealloc := by
  refine leaves_after fun f0 => ?_
  rcases f0 with _ | f0
  · exact .pure none
  refine leaves_after fun f1 => ?_
  rcases f1 with _ | f1
  · exact (leaves_fileclose f0).after fun _ => .pure none
  refine leaves_after fun page => ?_
  rcases page with _ | page
  · exact (leaves_fileclose f0).after fun _ => (leaves_fileclose f1).after fun _ => .pure none
  · exact (leaves_setPipe f0 f1 page).after fun _ => .pure _

theorem leaves_advance (f : FIdx) (off : ℕ) (r : Int) : Leaves 0 (advance f off r) :=
  .ite (adds_kernel _) (.pure ())

theorem leaves_filestat (p : PIdx) (f : FIdx) (st : ℕ) : Leaves 0 (filestat p f st) := by
  refine leaves_after fun x => ?_
  cases x.kind with
  | FD_INODE ip => exact leaves_after fun _ => leaves_after fun _ => leaves_after fun _ => .pure 0
  | _ => exact .pure (-1)

theorem leaves_fileread (p : PIdx) (t : Transfer) (f : FIdx) (addr n : ℕ) :
    Leaves 0 (fileread p t f addr n) := by
  refine leaves_after fun x => .ite (.pure (-1)) ?_
  cases x.kind with
  | FD_NONE => exact .throw _
  | FD_PIPE page => exact adds_kernel _
  | FD_INODE ip =>
    exact leaves_after fun _ => leaves_after fun r => (leaves_advance f x.off r).after fun _ =>
      leaves_after fun _ => .pure r

/-- Every round of the loop has a transaction of its own. -/
theorem leaves_writeRounds (p : PIdx) (t : Transfer) (f : FIdx) (ip : Slot) (addr n fuel i : ℕ) :
    Leaves 0 (writeRounds p t f ip addr n fuel i) := by
  induction fuel generalizing i with
  | zero => exact .pure i
  | succ fuel ih =>
    refine .ite (leaves_beginOp fun _ => leaves_after fun _ => leaves_after fun off =>
      leaves_after fun r => (leaves_advance f off r).after fun _ => leaves_after fun _ =>
        leaves_endOp fun _ => ?_) (.pure i)
    exact .ite (.pure i) (.ite (.throw _) (ih _))

theorem leaves_filewrite (p : PIdx) (t : Transfer) (f : FIdx) (addr n : ℕ) :
    Leaves 0 (filewrite p t f addr n) := by
  refine leaves_after fun x => .ite (.pure (-1)) ?_
  cases x.kind with
  | FD_NONE => exact .throw _
  | FD_PIPE page => exact adds_kernel _
  | FD_INODE ip => exact (leaves_writeRounds p t f ip addr n n 0).after fun i => .pure _

/-! ## `sysfile.c`

What follows the arguments of a call ends its transaction. -/

theorem leaves_dup (p : PIdx) (f : FIdx) : Leaves 0 (dup p f) :=
  leaves_opt (adds_kernel _) (.pure (-1)) fun _ => leaves_after fun _ => .pure _

theorem leaves_close (p : PIdx) (fd : Fin NOFILE) (f : FIdx) : Leaves 0 (close p fd f) :=
  leaves_after fun _ => (leaves_fileclose f).after fun _ => .pure 0

theorem leaves_linkBad (ip : Slot) : Leaves (-1) (linkBad ip) :=
  leaves_after fun _ => leaves_after fun _ => leaves_after fun _ => leaves_ended (-1)

theorem leaves_link (p : PIdx) (old new : Bytes) : Leaves (-1) (link p old new) := by
  refine leaves_opt (adds_kernel _) (leaves_ended _) fun ip =>
    leaves_after fun _ => leaves_after fun di => .ite (leaves_after fun _ => leaves_ended _)
      (leaves_after fun _ => leaves_after fun _ => ?_)
  refine leaves_opt (adds_kernel _) (leaves_linkBad ip) fun (dp, name) =>
    leaves_after fun _ => leaves_after fun inum => leaves_after fun r => .ite ?_ ?_
  · exact leaves_after fun _ => leaves_linkBad ip
  · exact leaves_after fun _ => leaves_after fun _ => leaves_ended 0

theorem leaves_unlinkBad (dp : Slot) : Leaves (-1) (unlinkBad dp) :=
  leaves_after fun _ => leaves_ended (-1)

theorem leaves_unlink (p : PIdx) (path : Bytes) : Leaves (-1) (unlink p path) := by
  refine leaves_opt (adds_kernel _) (leaves_ended _) fun (dp, name) =>
    leaves_after fun _ => .ite (leaves_unlinkBad dp) ?_
  refine leaves_opt (adds_kernel _) (leaves_unlinkBad dp) fun (ip, off) =>
    leaves_after fun _ => leaves_after fun di => .ite (.throw _) (.ite ?_ ?_)
  · exact leaves_after fun _ => leaves_unlinkBad dp
  · exact leaves_after fun _ => leaves_ended 0

theorem leaves_create (p : PIdx) (path : Bytes) (type : IType) (major minor : ℕ) :
    Leaves 0 (create p path type major minor) := by
  refine leaves_opt (adds_kernel _) (.pure none) fun (dp, name) =>
    leaves_after fun _ => leaves_after fun r => ?_
  rcases r with _ | ⟨ip, off⟩
  · exact leaves_after fun ip => .pure _
  · exact leaves_after fun _ => leaves_after fun _ => leaves_after fun di =>
      .ite (.pure _) (leaves_after fun _ => .pure none)

theorem leaves_openBad (ip : Slot) : Leaves (-1) (openBad ip) :=
  leaves_after fun _ => leaves_ended (-1)

theorem leaves_openFile (p : PIdx) (ip : Slot) (omode : ℕ) : Leaves (-1) (openFile p ip omode) := by
  refine leaves_opt (adds_kernel _) (leaves_openBad ip) fun f =>
    leaves_opt (adds_kernel _) ((leaves_fileclose f).after fun _ => leaves_openBad ip) fun fd => ?_
  exact leaves_after fun _ => leaves_endOp fun _ => leaves_after fun _ => .pure _

theorem leaves_openPath (p : PIdx) (path : Bytes) (omode : ℕ) :
    Leaves (-1) (openPath p path omode) := by
  refine .ite (leaves_opt (leaves_create _ _ _ _ _) (leaves_ended _) fun ip =>
    leaves_openFile p ip omode) ?_
  exact leaves_opt (adds_kernel _) (leaves_ended _) fun ip => leaves_after fun _ =>
    leaves_after fun di => .ite (leaves_openBad ip) (leaves_openFile p ip omode)

theorem leaves_mknod (p : PIdx) (path : Bytes) (type : IType) (major minor : ℕ) :
    Leaves (-1) (mknod p path type major minor) :=
  leaves_opt (leaves_create _ _ _ _ _) (leaves_ended _) fun _ => leaves_after fun _ =>
    leaves_ended 0

theorem leaves_chdir (p : PIdx) (path : Bytes) : Leaves (-1) (chdir p path) := by
  refine leaves_opt (adds_kernel _) (leaves_ended _) fun ip => leaves_after fun _ =>
    leaves_after fun di => .ite (leaves_after fun _ => leaves_ended _) (leaves_after fun _ => ?_)
  refine leaves_after fun cwd => ?_
  cases cwd with
  | none => exact .throw _
  | some cwd => exact leaves_after fun _ => leaves_endOp fun _ => leaves_after fun _ => .pure 0

theorem leaves_execBad (p : PIdx) (ip : Slot) (d : Option Pgdir) :
    Leaves (-1) (execBad p ip d) := by
  have hfree : Leaves 0 (freevmIf p d) := by
    unfold freevmIf
    cases d with
    | none => exact .pure ()
    | some d => exact adds_kernel _
  exact hfree.after fun _ => leaves_after fun _ => leaves_ended (-1)

/-- The transaction of `exec` is over when the program is loaded, or where it fails before. -/
theorem leaves_exec (p : PIdx) (path : Bytes) (argv : List Bytes) :
    Leaves 0 (exec p path argv) := by
  refine leaves_after fun old => leaves_beginOp fun _ =>
    leaves_opt (adds_kernel _) (leaves_ended _) fun ip => leaves_after fun _ =>
      leaves_after fun data => ?_
  cases readElf data with
  | none => exact leaves_execBad p ip none
  | some elf =>
    refine .ite (leaves_execBad p ip none) ?_
    refine leaves_opt (adds_kernel _) (leaves_execBad p ip none) fun d =>
      leaves_after fun (sz, d) => ?_
    cases sz with
    | none => exact leaves_execBad p ip (some d)
    | some sz => exact leaves_after fun _ => leaves_endOp fun _ => adds_kernel _

theorem leaves_pipe (p : PIdx) (fd : ℕ) : Leaves 0 (pipe p fd) := by
  have hclose : ∀ rf wf : FIdx, Leaves 0 (do fileclose rf; fileclose wf; return (-1 : Int)) :=
    fun rf wf => (leaves_fileclose rf).after fun _ =>
      (leaves_fileclose wf).after fun _ => .pure (-1)
  refine leaves_opt leaves_pipealloc (.pure (-1)) fun (rf, wf) =>
    leaves_opt (adds_kernel _) (hclose rf wf) fun fd0 =>
      leaves_opt (adds_kernel _) (leaves_after fun _ => hclose rf wf) fun fd1 => ?_
  exact leaves_after fun _ => .pure 0

theorem leaves_cmCreateAndEnter (p : PIdx) (init fs : Bytes) (nproc : Int) :
    Leaves 0 (cmCreateAndEnter p init fs nproc) := by
  refine leaves_after fun d => leaves_opt (adds_kernel _) (.pure (-1)) fun c =>
    leaves_beginOp fun _ => leaves_after fun _ => leaves_endOp fun _ => ?_
  exact leaves_after fun _ => leaves_after fun _ => leaves_after fun _ => .pure 1

theorem leaves_closeFiles (p : PIdx) (fds : List (Fin NOFILE)) : Leaves 0 (closeFiles p fds) := by
  induction fds with
  | nil => exact .pure ()
  | cons fd fds ih =>
    refine leaves_after fun f => ?_
    cases f with
    | none => exact ih
    | some f => exact (leaves_fileclose f).after fun _ => leaves_after fun _ => ih

theorem leaves_exit (p : PIdx) : Leaves 0 (exit p) := by
  refine leaves_after fun init => .ite (.throw _) ((leaves_closeFiles p _).after fun _ =>
    leaves_after fun _ => leaves_after fun _ => leaves_after fun cwd => ?_)
  cases cwd with
  | none => exact .throw _
  | some cwd =>
    exact leaves_beginOp fun _ => leaves_after fun _ => leaves_endOp fun _ => leaves_after fun _ =>
      adds_kernel _

/-! ## The handlers -/

theorem leaves_value {k : ℤ} {x : Sys Int} (hx : Leaves k x) : Leaves k (value x) := by
  have := hx.bind fun r => Adds.pure (some r)
  rwa [Int.add_zero] at this

theorem leaves_void {x : Sys Unit} (hx : Leaves 0 x) : Leaves 0 (void x) :=
  hx.after fun _ => .pure none

theorem leaves_sysLink (p : PIdx) : Leaves 0 (sysLink p) :=
  leaves_arg (.pure _) fun _ => leaves_arg (.pure _) fun _ => leaves_beginOp fun _ =>
    leaves_link p _ _

theorem leaves_sysOpen (p : PIdx) : Leaves 0 (sysOpen p) :=
  leaves_arg (.pure _) fun _ => leaves_arg (.pure _) fun _ =>
    leaves_beginOp fun _ => leaves_openPath p _ _

theorem leaves_sysMknod (p : PIdx) : Leaves 0 (sysMknod p) :=
  leaves_beginOp fun _ => leaves_arg (leaves_ended _) fun _ => leaves_arg (leaves_ended _) fun _ =>
    leaves_arg (leaves_ended _) fun _ => leaves_mknod p _ _ _ _

theorem leaves_sysExec (p : PIdx) : Leaves 0 (sysExec p) :=
  leaves_arg (.pure _) fun _ => leaves_arg (.pure _) fun _ => leaves_arg (.pure _) fun _ =>
    leaves_exec p _ _

theorem leaves_sysCopyFile (p : PIdx) : Leaves 0 (sysCopyFile p) := by
  have hcopy : ∀ dir file, Leaves 0 (copyFile p dir file) := by
    intro dir file
    refine leaves_after fun dp => leaves_after fun ip => ?_
    cases dp with
    | none => exact .throw _
    | some dp =>
      exact leaves_after fun _ => leaves_after fun _ => leaves_after fun _ =>
        .ite (.throw _) (leaves_after fun _ => .pure _)
  exact leaves_arg (.pure _) fun dir => leaves_arg (.pure _) fun file => leaves_beginOp fun _ =>
    (hcopy dir file).after fun _ => leaves_endOp fun _ => .pure _

end Sys

open Sys

theorem Handler.leaves_zero (h : Handler) (p : PIdx) (hne : h ≠ .sysCmSetroot) :
    Leaves 0 (h.run p) := by
  cases h with
  | sysCmSetroot => exact absurd rfl hne
  | sysFork => exact leaves_value (adds_kernel _)
  | sysExit => exact leaves_void (leaves_exit p)
  | sysWait =>
    show Leaves 0 (Sys.sysWait p)
    exact adds_kernel _
  | sysPipe => exact leaves_value (leaves_arg (.pure _) fun _ => leaves_pipe p _)
  | sysRead t =>
    exact leaves_value (leaves_arg (.pure _) fun _ => leaves_arg (.pure _) fun _ =>
      leaves_arg (.pure _) fun _ => leaves_fileread p t _ _ _)
  | sysKill => exact leaves_value (leaves_arg (.pure _) fun _ => adds_kernel _)
  | sysExec => exact leaves_value (leaves_sysExec p)
  | sysFstat =>
    exact leaves_value
      (leaves_arg (.pure _) fun _ => leaves_arg (.pure _) fun _ => leaves_filestat p _ _)
  | sysChdir =>
    exact leaves_value
      (leaves_beginOp fun _ => leaves_arg (leaves_ended _) fun _ => leaves_chdir p _)
  | sysDup => exact leaves_value (leaves_arg (.pure _) fun _ => leaves_dup p _)
  | sysGetpid =>
    refine leaves_value ?_
    unfold Sys.sysGetpid
    exact adds_kernel _
  | sysSbrk =>
    exact leaves_value
      (leaves_arg (.pure _) fun _ => leaves_after fun _ => leaves_after fun _ => .pure _)
  | sysSleep ticks0 looks => exact leaves_arg (.pure _) fun _ => .pure _
  | sysUptime ticks => exact leaves_value (.pure _)
  | sysOpen => exact leaves_value (leaves_sysOpen p)
  | sysWrite t =>
    exact leaves_value (leaves_arg (.pure _) fun _ => leaves_arg (.pure _) fun _ =>
      leaves_arg (.pure _) fun _ => leaves_filewrite p t _ _ _)
  | sysMknod => exact leaves_value (leaves_sysMknod p)
  | sysUnlink =>
    exact leaves_value (leaves_arg (.pure _) fun _ => leaves_beginOp fun _ => leaves_unlink p _)
  | sysLink => exact leaves_value (leaves_sysLink p)
  | sysMkdir =>
    exact leaves_value (leaves_beginOp fun _ => leaves_arg (leaves_ended _) fun _ =>
      leaves_mknod p _ _ _ _)
  | sysClose => exact leaves_value (leaves_arg (.pure _) fun _ => leaves_close p _ _)
  | sysMGet | sysMRem =>
    exact leaves_value (leaves_arg (.pure _) fun _ => leaves_after fun _ => adds_kernel _)
  | sysCmCreateAndEnter =>
    exact leaves_value (leaves_arg (.pure _) fun _ => leaves_arg (.pure _) fun _ =>
      leaves_arg (.pure _) fun _ => leaves_cmCreateAndEnter p _ _ _)
  | sysCmMaxproc => exact leaves_value (leaves_arg (.pure _) fun _ => adds_kernel _)
  | sysCopyFile => exact leaves_value (leaves_sysCopyFile p)
  | sysMutexCreate => exact leaves_value (leaves_arg (.pure _) fun _ => adds_kernel _)
  | sysMutexDelete => exact leaves_void (leaves_arg (.pure _) fun _ => adds_kernel _)
  | sysMutexLock o | sysMutexUnlock o | sysCvWait o | sysCvSignal o =>
    exact leaves_void (leaves_arg (.pure _) fun _ => adds_kernel _)
  | sysPrioSet =>
    exact leaves_value (leaves_arg (.pure _) fun _ => leaves_arg (.pure _) fun _ => adds_kernel _)
  | fileclose f => exact leaves_void (leaves_fileclose f)
  | exec path argv => exact leaves_value (leaves_exec p path argv)
  | cmCreateAndEnter init fs nproc => exact leaves_value (leaves_cmCreateAndEnter p init fs nproc)

/-- Is the call one of `sys_cm_setroot` whose arguments cannot be fetched? -/
def Handler.badSetroot (s : Kernel) (p : PIdx) : Handler → Prop
  | .sysCmSetroot => argstr s p 0 = .ok none ∨ argint s p 1 = .ok none
  | _ => False

/-- `sys_cm_setroot` leaves a transaction open exactly when it cannot fetch its arguments. -/
theorem sysCmSetroot_balanced {s : Kernel} {p : PIdx} {r : Int} {c : Ledger}
    (h : Sys.sysCmSetroot p (.start s) = .ok (r, c)) :
    c.outstanding = 0 ↔ ¬ Handler.sysCmSetroot.badSetroot s p := by
  obtain ⟨_, c1, hbegin, h⟩ := run_bind_eq_ok.mp h
  cases hbegin
  obtain ⟨hstr, h⟩ | ⟨path, hstr, h⟩ := arg_eq_ok.mp h
  · cases h
    exact iff_of_false (by simp [Ledger.outstanding, Ledger.start]) (not_not_intro (.inl hstr))
  obtain ⟨hint, h⟩ | ⟨len, hint, h⟩ := arg_eq_ok.mp h
  · cases h
    exact iff_of_false (by simp [Ledger.outstanding, Ledger.start]) (not_not_intro (.inr hint))
  obtain ⟨_, c2, hset, h⟩ := run_bind_eq_ok.mp h
  obtain ⟨s1, -, rfl⟩ := kernel_eq_ok.mp hset
  cases h
  refine iff_of_true (by simp [Ledger.outstanding, Ledger.start]) ?_
  rintro (hbad | hbad)
  · cases hbad.symm.trans hstr
  · cases hbad.symm.trans hint

/-- **Transactions are balanced**: a handler that returns has called `end_op` as often as
`begin_op`, exactly when it is not `sys_cm_setroot` with arguments that cannot be fetched. -/
theorem transactions_balanced (h : Handler) (p : PIdx) {s : Kernel} {r : Option Int} {c : Ledger}
    (hrun : h.run p (.start s) = .ok (r, c)) : c.ended = c.begun ↔ ¬ h.badSetroot s p := by
  have hzero : c.ended = c.begun ↔ c.outstanding = 0 := by
    simp only [Ledger.outstanding]
    omega
  rw [hzero]
  by_cases hset : h = .sysCmSetroot
  · subst hset
    obtain ⟨r', c', hcall, hret⟩ := run_bind_eq_ok.mp hrun
    cases hret
    exact sysCmSetroot_balanced hcall
  · refine iff_of_true ?_ ?_
    · have hleaves := h.leaves_zero p hset (.start s) r c hrun
      simpa [Ledger.start, Ledger.outstanding] using hleaves
    · intro hbad
      cases h <;> first | exact hbad | exact hset rfl

/-- The outcome of a handler that the first process runs, right after boot. -/
def firstCall (h : Handler) : Option (Option Int × Ledger) :=
  smallBoot.toOption.bind fun s => (h.run 0 (.start s)).toOption

theorem exists_of_firstCall {h : Handler} {P : Option Int × Ledger → Bool}
    (hcall : (firstCall h).any P = true) :
    ∃ s r c, Boot s ∧ h.run 0 (.start s) = .ok (r, c) ∧ P (r, c) = true := by
  obtain ⟨⟨r, c⟩, hsome, hP⟩ := (Option.any_eq_true P _).mp hcall
  obtain ⟨s, hs, hrun⟩ := Option.bind_eq_some_iff.mp hsome
  exact ⟨s, r, c, boot_of_smallBoot (toOption_eq_some.mp hs), toOption_eq_some.mp hrun, hP⟩

set_option maxRecDepth 100000 in
/-- The stack of the first process is empty: `sys_cm_setroot` returns `-1` with its transaction
open. -/
theorem setroot_leaves_open :
    ∃ s r c, Boot s ∧ Handler.sysCmSetroot.run 0 (.start s) = .ok (r, c) ∧
      (r = some (-1) ∧ c.begun = 1 ∧ c.ended = 0) := by
  obtain ⟨s, r, c, hboot, hrun, hP⟩ := exists_of_firstCall
    (P := fun x => decide (x.1 = some (-1) ∧ x.2.begun = 1 ∧ x.2.ended = 0))
    (h := .sysCmSetroot) (by decide +kernel)
  exact ⟨s, r, c, hboot, hrun, of_decide_eq_true hP⟩

set_option maxRecDepth 100000 in
/-- `sys_mkdir`, which calls `begin_op` first as well, closes its transaction. -/
theorem transactions_balanced_mkdir :
    ∃ s r c, Boot s ∧ Handler.sysMkdir.run 0 (.start s) = .ok (r, c) ∧
      (r = some (-1) ∧ c.begun = 1) ∧ c.ended = c.begun := by
  obtain ⟨s, r, c, hboot, hrun, hP⟩ := exists_of_firstCall
    (P := fun x => decide (x.1 = some (-1) ∧ x.2.begun = 1)) (h := .sysMkdir) (by decide +kernel)
  exact ⟨s, r, c, hboot, hrun, of_decide_eq_true hP, (transactions_balanced _ 0 hrun).mpr id⟩

end Dockv6
