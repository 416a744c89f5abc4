import Dockv6.Kernel.FileCall

/-!
# What the calls on files can change

The calls on files work on the file system, the tables of files and pipes, descriptors, working
directories and the contents of memory, allocate and free single pages, and wake processes up. A
relation that these changes keep (`FileFrame`) is kept by every such call (`FileCall.run_frame`).
-/

namespace Dockv6

open Kernel

/-- The relation has the changes that the calls on files are made of. -/
structure FileFrame (R : Kernel → Kernel → Prop) : Prop where
  refl : ∀ s, R s s
  trans : ∀ {s1 s2 s3}, R s1 s2 → R s2 s3 → R s1 s3
  fs : ∀ s fs, R s { s with fs := fs }
  mem : ∀ s mem, R s (s.setMem mem)
  wakeup : ∀ s chan, R s (wakeup1 s chan)
  file : ∀ s file, R s { s with file := file }
  pipe : ∀ s pipe, R s { s with pipe := pipe }
  ofile : ∀ s p ofile, R s (s.setProc p { s.proc p with ofile := ofile })
  cwd : ∀ s p cwd, R s (s.setProc p { s.proc p with cwd := cwd })
  kalloc : ∀ s page m, Dockv6.kalloc s.km = some (page, m) → R s { s with km := m }
  kfree : ∀ s page m, Dockv6.kfree s.km page = .ok m → R s { s with km := m }

/-- The computation keeps the relation. -/
def Framed (R : Kernel → Kernel → Prop) {α : Type} (x : Sys α) : Prop :=
  ∀ c a c', x c = .ok (a, c') → R c.s c'.s

variable {R : Kernel → Kernel → Prop} {s s' : Kernel} {p : PIdx} {f : FIdx}

namespace FileFrame

theorem wakeups (hR : FileFrame R) (s : Kernel) (l : List Chan) : R s (wakeups s l) := by
  induction l generalizing s with
  | nil => exact hR.refl s
  | cons c l ih => exact hR.trans (hR.wakeup s (some c)) (ih _)

theorem pipeclose (hR : FileFrame R) {page : ℕ} {w : Bool} (h : pipeclose s page w = .ok s') :
    R s s' := by
  unfold Dockv6.pipeclose at h
  dsimp only at h
  -- Whichever end is closed, the table of pipes changes and processes are woken up.
  have hclosed : ∀ pipe chan, R s (wakeup1 { s with pipe := pipe } chan) :=
    fun pipe chan => hR.trans (hR.pipe s pipe) (hR.wakeup _ chan)
  split_ifs at h
  all_goals first
    | (obtain ⟨m, hfree, hret⟩ := bind_eq_ok.mp h
       cases hret
       exact hR.trans (hclosed _ _) (hR.kfree _ page m hfree))
    | (cases h
       exact hclosed _ _)

theorem fileclose (hR : FileFrame R) (h : fileclose s f = .ok s') : R s s' := by
  unfold Dockv6.fileclose at h
  dsimp only at h
  split_ifs at h
  · cases h
    exact hR.file s _
  · let file := Function.update s.file f { s.file f with ref := 0, kind := .FD_NONE }
    have hfile : R s { s with file := file } := hR.file s file
    split at h
    · exact hR.trans hfile (hR.pipeclose h)
    · cases h
      exact hR.trans hfile (hR.fs { s with file := file } _)
    · cases h
      exact hfile

theorem filealloc (hR : FileFrame R) {r : Option FIdx} (h : filealloc s = (r, s')) : R s s' := by
  unfold Dockv6.filealloc at h
  split at h
  · cases h
    exact hR.refl s
  · cases h
    exact hR.file s _

theorem fdalloc (hR : FileFrame R) {r : Option (Fin NOFILE)} (h : fdalloc s p f = (r, s')) :
    R s s' := by
  unfold Dockv6.fdalloc at h
  split at h
  · cases h
    exact hR.refl s
  · cases h
    exact hR.ofile s p _

theorem closeFiles (hR : FileFrame R) {fds : List (Fin NOFILE)} (h : closeFiles p fds s = .ok s') :
    R s s' := by
  induction fds generalizing s with
  | nil =>
    cases h
    exact hR.refl _
  | cons fd fds ih =>
    rw [Dockv6.closeFiles] at h
    split at h
    · exact ih h
    · obtain ⟨s1, hclose, hrest⟩ := bind_eq_ok.mp h
      exact hR.trans (hR.fileclose hclose) (hR.trans (hR.ofile s1 p _) (ih hrest))

theorem transfer (hR : FileFrame R) {t : Transfer} {r : Int} (h : t.run s = .ok (r, s')) :
    R s s' := by
  obtain ⟨mem, l, rfl⟩ := t.mem_only s r s' h
  exact hR.trans (hR.mem s mem) (hR.wakeups _ l)

end FileFrame

namespace Framed

variable {α β : Type} {ip : Slot} {path : Bytes}

protected theorem pure (hR : FileFrame R) (a : α) : Framed R (pure a : Sys α) := by
  rintro c b c' h
  cases h
  exact hR.refl c.s

theorem bind (hR : FileFrame R) {x : Sys α} {k : α → Sys β} (hx : Framed R x)
    (hk : ∀ a, Framed R (k a)) : Framed R (x >>= k) := by
  rintro c b c' h
  obtain ⟨a, c1, h1, h2⟩ := run_bind_eq_ok.mp h
  exact hR.trans (hx c a c1 h1) (hk a c1 b c' h2)

theorem opt (hR : FileFrame R) {x : Sys (Option α)} {bad : Sys β} {k : α → Sys β} (hx : Framed R x)
    (hbad : Framed R bad) (hk : ∀ a, Framed R (k a)) : Framed R (Sys.opt x bad k) := by
  refine bind hR hx fun r => ?_
  cases r with
  | none => exact hbad
  | some a => exact hk a

theorem ite {P : Prop} [Decidable P] {x y : Sys α} (hx : Framed R x) (hy : Framed R y) :
    Framed R (if P then x else y) := by
  split_ifs
  · exact hx
  · exact hy

protected theorem throw (e : Stop) : Framed R (throw e : Sys α) := nofun

theorem kernel {g : Kernel → Res (α × Kernel)} (hg : ∀ s a s', g s = .ok (a, s') → R s s') :
    Framed R (Sys.kernel g) := by
  rintro c a c' h
  obtain ⟨s, hs, rfl⟩ := Sys.kernel_eq_ok.mp h
  exact hg c.s a s hs

theorem act {g : Kernel → Res Kernel} (hg : ∀ s s', g s = .ok s' → R s s') :
    Framed R (Sys.act g) := by
  rintro c a c' h
  obtain ⟨s, hs, rfl⟩ := Sys.act_eq_ok.mp h
  exact hg c.s s hs

theorem change {g : Kernel → Kernel} (hg : ∀ s, R s (g s)) : Framed R (Sys.change g) := by
  rintro c a c' h
  cases h
  exact hg c.s

theorem look (hR : FileFrame R) (g : Kernel → Res α) : Framed R (Sys.look g) := by
  rintro c a c' h
  obtain ⟨-, rfl⟩ := Sys.look_eq_ok.mp h
  exact hR.refl _

/-- What is done to the file system alone. -/
theorem of_fsOnly (hR : FileFrame R) {x : Sys α} (hx : FsOnly x) : Framed R x := by
  rintro c a c' h
  obtain ⟨fs, mem, b, b', rfl⟩ := hx c a c' h
  exact hR.trans (hR.fs c.s fs) (hR.mem { c.s with fs := fs } mem)

theorem record (hR : FileFrame R) {g : Ledger → Ledger} (hg : ∀ c, (g c).s = c.s) :
    Framed R (fun c => .ok ((), g c) : Sys Unit) := by
  rintro c a c' h
  cases h
  rw [hg]
  exact hR.refl c.s

theorem fileclose (hR : FileFrame R) (f : FIdx) : Framed R (Sys.fileclose f) :=
  fun _ _ _ h => hR.fileclose (Sys.fileclose_eq_ok h)

theorem actFs (hR : FileFrame R) (g : Fs → Res Fs) : Framed R (Sys.actFs g) :=
  of_fsOnly hR (.actFs g)

theorem endOp (hR : FileFrame R) : Framed R Sys.endOp := of_fsOnly hR .endOp

theorem ended (hR : FileFrame R) (a : α) : Framed R (Sys.ended a) := of_fsOnly hR (.ended a)

theorem openFile (hR : FileFrame R) {omode : ℕ} : Framed R (Sys.openFile p ip omode) := by
  have hbad : Framed R (Sys.openBad ip) := of_fsOnly hR (.openBad ip)
  refine opt hR (kernel fun s r s' h => hR.filealloc (Except.ok.inj h)) hbad fun f => ?_
  refine opt hR (kernel fun s r s' h => hR.fdalloc (Except.ok.inj h)) ?_ fun fd => ?_
  · exact bind hR (fileclose hR f) fun _ => hbad
  · refine bind hR (actFs hR _) fun _ => bind hR (endOp hR) fun _ => ?_
    exact bind hR (change fun s => hR.file s _) fun _ => .pure hR _

theorem openPath (hR : FileFrame R) {omode : ℕ} : Framed R (Sys.openPath p path omode) := by
  refine ite ?_ ?_
  · exact opt hR (of_fsOnly hR (.create p path _ _ _)) (ended hR _) fun ip => openFile hR
  · refine opt hR (of_fsOnly hR (.namei p path)) (ended hR _) fun ip => ?_
    refine bind hR (actFs hR _) fun _ => bind hR (look hR _) fun di => ?_
    exact ite (of_fsOnly hR (.openBad ip)) (openFile hR)

theorem dup (hR : FileFrame R) : Framed R (Sys.dup p f) := by
  refine opt hR (kernel fun s r s' h => hR.fdalloc (Except.ok.inj h)) (.pure hR _) fun fd => ?_
  refine bind hR (act fun s s' h => ?_) fun _ => .pure hR _
  unfold filedup at h
  split_ifs at h
  cases h
  exact hR.file s _

theorem pipealloc (hR : FileFrame R) : Framed R Sys.pipealloc := by
  refine bind hR (kernel fun s r s' h => hR.filealloc (Except.ok.inj h)) fun f0 => ?_
  rcases f0 with _ | f0
  · exact .pure hR _
  refine bind hR (kernel fun s r s' h => hR.filealloc (Except.ok.inj h)) fun f1 => ?_
  rcases f1 with _ | f1
  · exact bind hR (fileclose hR f0) fun _ => .pure hR _
  refine bind hR (kernel fun s r s' h => ?_) fun page => ?_
  · split at h
    · cases h
      exact hR.refl s
    · rename_i hk
      cases h
      exact hR.kalloc s _ _ hk
  rcases page with _ | page
  · exact bind hR (fileclose hR f0) fun _ => bind hR (fileclose hR f1) fun _ => .pure hR _
  refine bind hR ?_ fun _ => .pure hR _
  refine bind hR (change fun s => hR.pipe s _) fun _ =>
    bind hR (change fun s => hR.file s _) fun _ => ?_
  exact bind hR (change fun s => hR.file s _) fun _ => record hR fun _ => rfl

theorem pipe (hR : FileFrame R) {addr : ℕ} : Framed R (Sys.pipe p addr) := by
  refine opt hR (pipealloc hR) (.pure hR _) fun ⟨rf, wf⟩ => ?_
  refine opt hR (kernel fun s r s' h => hR.fdalloc (Except.ok.inj h)) ?_ fun fd0 => ?_
  · exact bind hR (fileclose hR rf) fun _ => bind hR (fileclose hR wf) fun _ => .pure hR _
  refine opt hR (kernel fun s r s' h => hR.fdalloc (Except.ok.inj h)) ?_ fun fd1 => ?_
  · refine bind hR (change fun s => hR.ofile s p _) fun _ => ?_
    exact bind hR (fileclose hR rf) fun _ => bind hR (fileclose hR wf) fun _ => .pure hR _
  · refine bind hR (act fun s s' h => ?_) fun _ => .pure hR _
    obtain ⟨d, -, h1⟩ := bind_eq_ok.mp h
    obtain ⟨mem, -, h2⟩ := bind_eq_ok.mp h1
    obtain ⟨mem', -, h3⟩ := bind_eq_ok.mp h2
    cases h3
    exact hR.mem s mem'

theorem close (hR : FileFrame R) {fd : Fin NOFILE} : Framed R (Sys.close p fd f) := by
  refine bind hR (change fun s => hR.ofile s p _) fun _ => ?_
  exact bind hR (fileclose hR f) fun _ => .pure hR _

theorem advance (hR : FileFrame R) {off : ℕ} {r : Int} : Framed R (Sys.advance f off r) :=
  ite (change fun s => hR.file s _) (.pure hR _)

theorem fileread (hR : FileFrame R) {t : Transfer} {addr n : ℕ} :
    Framed R (Sys.fileread p t f addr n) := by
  refine bind hR (look hR _) fun x => ite (.pure hR _) ?_
  cases x.kind with
  | FD_NONE => exact .throw _
  | FD_PIPE page => exact kernel fun _ _ _ => hR.transfer
  | FD_INODE ip =>
    refine bind hR (actFs hR _) fun _ => bind hR (kernel fun s r s' h => ?_) fun r =>
      bind hR (advance hR) fun _ => bind hR (actFs hR _) fun _ => .pure hR _
    split_ifs at h
    · exact hR.transfer h
    · split at h
      · cases h
        exact hR.refl s
      · obtain ⟨d, -, h1⟩ := bind_eq_ok.mp h
        obtain ⟨mem, -, h2⟩ := bind_eq_ok.mp h1
        cases h2
        exact hR.mem s mem

theorem writeInode (hR : FileFrame R) {t : Transfer} {addr off n : ℕ} :
    Framed R (Sys.writeInode p t ip addr off n) := by
  refine kernel fun s r s' h => ?_
  split_ifs at h
  · exact hR.transfer h
  · obtain ⟨d, -, h1⟩ := bind_eq_ok.mp h
    obtain ⟨bs, -, h2⟩ := bind_eq_ok.mp h1
    split at h2
    · cases h2
      exact hR.refl s
    · cases h2
      exact hR.fs s _

theorem writeRounds (hR : FileFrame R) {t : Transfer} {addr n fuel i : ℕ} :
    Framed R (Sys.writeRounds p t f ip addr n fuel i) := by
  induction fuel generalizing i with
  | zero => exact .pure hR _
  | succ fuel ih =>
    refine ite ?_ (.pure hR _)
    refine bind hR (of_fsOnly hR .beginOp) fun _ => bind hR (actFs hR _) fun _ => ?_
    refine bind hR (look hR _) fun off => bind hR (writeInode hR) fun r =>
      bind hR (advance hR) fun _ => ?_
    refine bind hR (actFs hR _) fun _ => bind hR (endOp hR) fun _ => ?_
    exact ite (.pure hR _) (ite (.throw _) ih)

theorem filewrite (hR : FileFrame R) {t : Transfer} {addr n : ℕ} :
    Framed R (Sys.filewrite p t f addr n) := by
  refine bind hR (look hR _) fun x => ite (.pure hR _) ?_
  cases x.kind with
  | FD_NONE => exact .throw _
  | FD_PIPE page => exact kernel fun _ _ _ => hR.transfer
  | FD_INODE ip => exact bind hR (writeRounds hR) fun _ => .pure hR _

theorem filestat (hR : FileFrame R) {st : ℕ} : Framed R (Sys.filestat p f st) := by
  refine bind hR (look hR _) fun x => ?_
  cases x.kind with
  | FD_NONE => exact .pure hR _
  | FD_PIPE page => exact .pure hR _
  | FD_INODE ip =>
    refine bind hR (actFs hR _) fun _ => bind hR (act fun s s' h => ?_) fun _ =>
      bind hR (actFs hR _) fun _ => .pure hR _
    obtain ⟨d, -, h1⟩ := bind_eq_ok.mp h
    obtain ⟨mem, -, h2⟩ := bind_eq_ok.mp h1
    cases h2
    exact hR.mem s mem

theorem chdir (hR : FileFrame R) : Framed R (Sys.chdir p path) := by
  refine opt hR (of_fsOnly hR (.namei p path)) (ended hR _) fun ip => ?_
  refine bind hR (actFs hR _) fun _ => bind hR (look hR _) fun di => ite ?_ ?_
  · exact bind hR (actFs hR _) fun _ => ended hR _
  · refine bind hR (actFs hR _) fun _ => bind hR (look hR _) fun cwd => ?_
    cases cwd with
    | none => exact .throw _
    | some cwd =>
      refine bind hR (of_fsOnly hR (.changeFs _)) fun _ => bind hR (endOp hR) fun _ => ?_
      exact bind hR (change fun s => hR.cwd s p _) fun _ => .pure hR _

end Framed

open Framed in
/-- **A call on files keeps every relation that its changes keep.** -/
theorem FileCall.run_frame (hR : FileFrame R) (c : FileCall) : Framed R (c.run p) := by
  have hfd : ∀ {fd : Fin NOFILE} {k : FIdx → Sys Int}, (∀ f, Framed R (k f)) →
      Framed R (Sys.withFd p fd k) :=
    fun hk => Framed.opt hR (look hR _) (.pure hR _) hk
  have hbegin : ∀ {x : Sys Int}, Framed R x → Framed R (Sys.beginOp >>= fun _ => x) :=
    fun hx => Framed.bind hR (of_fsOnly hR .beginOp) fun _ => hx
  cases c with
  | «open» path omode => exact hbegin (openPath hR)
  | dup fd => exact hfd fun f => Framed.dup hR
  | pipe fd => exact Framed.pipe hR
  | close fd => exact hfd fun f => Framed.close hR
  | read t fd addr n => exact hfd fun f => fileread hR
  | write t fd addr n => exact hfd fun f => filewrite hR
  | fstat fd st => exact hfd fun f => filestat hR
  | mkdir path => exact hbegin (of_fsOnly hR (.mknod p path _ _ _))
  | mknod path major minor => exact hbegin (of_fsOnly hR (.mknod p path _ _ _))
  | link old new => exact hbegin (of_fsOnly hR (.link p old new))
  | unlink path => exact hbegin (of_fsOnly hR (.unlink p path))
  | chdir path => exact hbegin (Framed.chdir hR)
  | copyFile dir file =>
    refine hbegin (Framed.bind hR (of_fsOnly hR (.copyFile p dir file)) fun r => ?_)
    exact Framed.bind hR (endOp hR) fun _ => .pure hR _

end Dockv6
