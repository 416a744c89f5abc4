import Dockv6.Container.Tree
import Dockv6.Kernel.Exit
import Dockv6.Kernel.Fork

/-!
# The process tree of the kernel

The tree of a kernel state, and what each function of the kernel does to it: `fork`, `exit`, `wait`,
`cm_maxproc` and the parts of `cm_create_and_enter` do what the tree's operations of these names do,
and every other call leaves the tree as it is.
-/

namespace Dockv6

open Kernel

/-- A process, as the tree knows it. -/
def Proc.toTask (x : Proc) : Task PIdx CIdx :=
  { pid := x.pid, parent := x.parent, container := x.container, container_id := x.container_id
    zombie := decide (x.state = .ZOMBIE) }

/-- A slot of the process table, as the tree knows it. -/
def Proc.task (x : Proc) : Option (Task PIdx CIdx) :=
  if x.state = .UNUSED then none else some x.toTask

/-- The process tree of the kernel. -/
def Kernel.tree (s : Kernel) : Tree PIdx CIdx :=
  { task := fun p => (s.proc p).task, initproc := s.initproc, nextpid := s.nextpid,
    nextcid := s.nextcid, cid := fun c => (s.containers c).container_id,
    nproc := fun c => (s.containers c).nproc }

variable {s s' : Kernel} {p : PIdx} {d : Pgdir} {x : Task PIdx CIdx}

/-! ## Slots -/

theorem Proc.task_eq_none {y : Proc} : y.task = none ↔ y.state = .UNUSED := by
  unfold Proc.task
  split_ifs with h <;> simp [h]

theorem Proc.task_eq_some {y : Proc} (h : y.task = some x) : y.state ≠ .UNUSED ∧ x = y.toTask := by
  unfold Proc.task at h
  split_ifs at h with hs
  exact ⟨hs, (Option.some.inj h).symm⟩

/-- The identity of a process determines its task. -/
theorem Proc.task_congr {y z : Proc} (h : y.ident = z.ident) : y.task = z.task := by
  have hstate : y.state.awake = z.state.awake := congrArg Ident.state h
  have hpid : y.pid = z.pid := congrArg Ident.pid h
  have hparent : y.parent = z.parent := congrArg Ident.parent h
  have hcontainer : y.container = z.container := congrArg Ident.container h
  have hid : y.container_id = z.container_id := congrArg Ident.container_id h
  unfold Proc.task Proc.toTask
  rw [hpid, hparent, hcontainer, hid]
  cases hy : y.state <;> cases hz : z.state <;> simp [hy, hz, ProcState.awake] at hstate ⊢

theorem tree_setProc (s : Kernel) (p : PIdx) (y : Proc) :
    (s.setProc p y).tree = s.tree.setTask p y.task := by
  refine Tree.ext (funext fun q => ?_) rfl rfl rfl rfl rfl
  by_cases hq : q = p
  · subst hq
    simp [Kernel.tree, Tree.setTask]
  · simp [Kernel.tree, Tree.setTask, hq, setProc_of_ne _ _ _ hq]

theorem tree_setProc_same {y : Proc} (h : y.task = (s.proc p).task) :
    (s.setProc p y).tree = s.tree := by
  rw [tree_setProc, Tree.setTask_eq_self _ h]

theorem Quiet.tree (h : Quiet s s') : s'.tree = s.tree :=
  Tree.ext (funext fun q => Proc.task_congr (h.ident q)) h.initproc h.nextpid h.nextcid
    (funext h.cid) (funext h.nproc)

/-! ## Mutexes -/

theorem MutexOnly.tree (h : MutexOnly p s s') : s'.tree = s.tree := by
  obtain ⟨mux, f, rfl⟩ := h
  exact tree_setProc_same (y := { s.proc p with mutex := f }) rfl

theorem kill_tree (s : Kernel) (cur : PIdx) (pid : Int) : (kill s cur pid).2.tree = s.tree := by
  obtain h | ⟨q, mux, h⟩ := kill_cases s cur pid
  · rw [h]
  · rw [h]
    -- The target may wake up.
    refine tree_setProc_same (Proc.task_congr ?_)
    unfold Proc.ident
    dsimp only
    split_ifs with hsleep
    · rw [hsleep]
      rfl
    · rfl

/-! ## Fork, exit and wait -/

theorem tree_setNproc (s : Kernel) (c : CIdx) (n : ℕ) :
    (s.setContainer c { s.containers c with nproc := n }).tree = s.tree.setNproc c n := by
  refine Tree.ext rfl rfl rfl rfl (funext fun c' => ?_) (funext fun c' => ?_) <;>
    by_cases hc : c' = c <;> simp [Kernel.tree, Tree.setNproc, setContainer_containers, hc]

theorem Charged.tree {s1 : Kernel} (h : Charged s p s1) (hx : (s.proc p).task = some x) :
    s.tree.Charged x s1.tree := by
  obtain ⟨-, rfl⟩ := Proc.task_eq_some hx
  cases h with
  | outside h => exact .outside h
  | inside c h hc hn =>
    rw [tree_setNproc]
    exact .inside c h hc hn

theorem Proc.task_of_childIdent {y z : Proc} {pid : ℕ} (h : y.ident = z.childIdent p pid) :
    y.task = some (z.toTask.child p pid) := by
  have hstate : y.state.awake = .RUNNABLE := congrArg Ident.state h
  have hpid : y.pid = pid := congrArg Ident.pid h
  have hparent : y.parent = some p := congrArg Ident.parent h
  have hcontainer : y.container = z.container := congrArg Ident.container h
  have hid : y.container_id = z.container_id := congrArg Ident.container_id h
  unfold Proc.task Proc.toTask Task.child
  rw [hpid, hparent, hcontainer, hid]
  cases hy : y.state <;> simp [hy, ProcState.awake] at hstate ⊢

theorem fork_tree {r : Int} (h : fork s p = .ok (r, s')) (hx : (s.proc p).task = some x) :
    s.tree.Forks p x r s'.tree := by
  have hlive : s.live p := (Proc.task_eq_some hx).1
  obtain ⟨d, -, ⟨rfl, rfl, hid, c, hc, hn⟩ | ⟨s1, hs1, hrest⟩⟩ := fork_cases h
  · obtain ⟨-, rfl⟩ := Proc.task_eq_some hx
    exact .refused c hid hc hn
  have htree := hs1.tree hx
  have hnext := hs1.nextpid
  have hproc := hs1.proc
  obtain ⟨rfl, hfailed⟩ | ⟨np, rfl, hok⟩ := hrest
  · obtain rfl | ⟨np, y, q, m, hunused, hy, -, rfl⟩ := hfailed.unused
    · exact .failed htree s'.nextpid hnext.ge
    have hfailed := Tree.Forks.failed (p := p) htree (s1.nextpid + 1) (hnext ▸ Nat.le_succ _)
    refine (congrArg (s.tree.Forks p x (-1)) ?_).mp hfailed
    refine Tree.ext (funext fun q' => ?_) rfl rfl rfl rfl rfl
    by_cases hq : q' = np
    · subst hq
      simp [Kernel.tree, Proc.task_eq_none.mpr hunused, Proc.task_eq_none.mpr hy]
    · simp [Kernel.tree, hq]
  · have hmade := hok.made (by rwa [Kernel.live, hproc])
    have hpid : (s'.proc np).pid = s.nextpid := (congrArg Ident.pid hmade.child).trans hnext
    have hnone : s.tree.task np = none := Proc.task_eq_none.mpr (hproc ▸ hmade.unused)
    rw [hpid]
    refine (congrArg (s.tree.Forks p x _) ?_).mp (.child htree np hnone)
    refine Tree.ext (funext fun q => ?_) hmade.initproc.symm ?_ hmade.nextcid.symm ?_ ?_
    · by_cases hq : q = np
      · subst hq
        obtain ⟨-, rfl⟩ := Proc.task_eq_some hx
        have htask := Proc.task_of_childIdent hmade.child
        simp only [hproc, hnext] at htask
        simp [Kernel.tree, Tree.setTask, htask]
      · simp [Kernel.tree, Tree.setTask, hq, hmade.others q hq]
    · exact (hmade.nextpid.trans (congrArg (· + 1) hnext)).symm
    · funext c
      simp [Kernel.tree, Tree.setTask, hmade.containers]
    · funext c
      simp [Kernel.tree, Tree.setTask, hmade.containers]

theorem reparent_tree (s : Kernel) (p : PIdx) :
    (reparent s p).tree = { s.tree with task := fun q => (s.tree.task q).map fun y =>
      { y with parent := if y.parent = some p then s.tree.initproc else y.parent } } := by
  refine Tree.ext (funext fun q => ?_) rfl rfl rfl rfl rfl
  simp only [Kernel.tree, reparent, Proc.task, Proc.toTask]
  split_ifs <;> simp_all

theorem zombie_tree (hx : s.tree.task p = some x) :
    (s.setProc p { s.proc p with state := .ZOMBIE }).tree =
      s.tree.setTask p (some { x with zombie := true }) := by
  obtain ⟨-, rfl⟩ := Proc.task_eq_some hx
  rw [tree_setProc]
  rfl

/-- The last part of `exit`, under `ptable.lock`. -/
theorem exit_tail_tree {s1 : Kernel} (hx : s.tree.task p = some x)
    (h1 : s1.tree = (reparent s p).tree) :
    (s1.setProc p { s1.proc p with state := .ZOMBIE }).tree = s.tree.exit p := by
  rw [reparent_tree] at h1
  have hp : s1.tree.task p =
      some { x with parent := if x.parent = some p then s.tree.initproc else x.parent } := by
    rw [h1]
    simp [hx]
  rw [zombie_tree hp, h1]
  refine Tree.ext (funext fun q => ?_) rfl rfl rfl rfl rfl
  by_cases hq : q = p
  · subst hq
    simp [Tree.setTask, Tree.exit, Tree.orphan, hx]
  · simp only [Tree.setTask, Tree.exit, Function.update_of_ne hq]
    refine congrArg (Option.map · (s.tree.task q)) (funext fun y => ?_)
    simp [Tree.orphan, hq]

theorem exit_tree (h : exit s p = .ok s') (hx : (s.proc p).task = some x) :
    s.tree.initproc ≠ some p ∧ s'.tree = s.tree.exit p := by
  obtain ⟨hinit, s1, s2, s3, cwd, hfiles, hshm, hs3, -, rfl⟩ := exit_steps h
  refine ⟨hinit, ?_⟩
  have htree : s3.tree = s.tree := by
    rw [← hs3, (exitMutexes_mutexOnly s2 p).tree, (exitShm_quiet hshm).tree,
      (closeFiles_quiet hfiles).tree]
  let y : Proc := { s3.proc p with cwd := none }
  let s4 : Kernel := { s3.setProc p y with fs := iput s3.fs cwd }
  have h4 : s4.tree = s.tree := (tree_setProc_same (y := y) rfl).trans htree
  let s5 := wakeup1 s4 ((s4.proc p).parent.map .proc)
  have h5 : s5.tree = s.tree := (Quiet.wakeup1 _ _).tree.trans h4
  have hp : s5.tree.task p = some x := h5 ▸ hx
  obtain ⟨s6, hend, hs6⟩ := exitEnd_eq s4 p
  show (exitEnd s4 p).tree = _
  rw [hend]
  refine (exit_tail_tree hp ?_).trans (congrArg (Tree.exit · p) h5)
  obtain rfl | ⟨chan, rfl⟩ := hs6
  · rfl
  · exact (Quiet.wakeup1 _ _).tree

theorem Proc.task_sleep {y : Proc} (hx : y.task = some x) (hz : x.zombie = false)
    (chan : Option Chan) : ({ y with state := .SLEEPING, chan := chan } : Proc).task = y.task := by
  obtain ⟨-, rfl⟩ := Proc.task_eq_some hx
  have hstate : ¬ y.state = .ZOMBIE := of_decide_eq_false hz
  rw [hx]
  simp [Proc.task, Proc.toTask, hstate]

theorem waitCredit_tree (h : waitCredit s p = .ok s') :
    s.tree.Credited (s.proc p).toTask s'.tree := by
  unfold waitCredit at h
  split_ifs at h with hid
  · cases h
    exact .outside hid
  · split at h
    · cases h
    · rename_i c hc
      cases h
      rw [tree_setNproc]
      exact .inside c hid hc

theorem wait_tree {r : Option Int} (h : wait s p = .ok (r, s')) (hx : (s.proc p).task = some x)
    (hz : x.zombie = false) : s.tree.Waits p x (s.zombieChild p) s'.tree := by
  unfold wait at h
  split at h
  · rename_i q hq
    obtain ⟨s1, hreap, h⟩ := bind_eq_ok.mp h
    obtain ⟨s2, hcredit, h⟩ := bind_eq_ok.mp h
    cases h
    obtain ⟨hparent, hzombie⟩ := zombieChild_eq_some hq
    obtain ⟨page, d, m, m', -, -, -, -, rfl⟩ := reap_eq_ok hreap
    have hlive : (s.proc q).state ≠ .UNUSED := by simp [hzombie]
    have hy : s.tree.task q = some (s.proc q).toTask := if_neg hlive
    have hne : p ≠ q := by
      rintro rfl
      obtain ⟨-, rfl⟩ := Proc.task_eq_some hx
      simp [Proc.toTask, hzombie] at hz
    have hcred := waitCredit_tree hcredit
    have hfreed : Kernel.tree { s.setProc q (s.proc q).freed with km := m' } =
        s.tree.setTask q none := tree_setProc _ _ _
    rw [hfreed, show Kernel.proc { s.setProc q (s.proc q).freed with km := m' } p = s.proc p from
      setProc_of_ne _ _ _ hne] at hcred
    obtain ⟨t1, ht1, ht⟩ := hcred.of_setTask
    rw [hq, ht]
    exact .reaped q _ hy hparent (decide_eq_true hzombie) ((Proc.task_eq_some hx).2 ▸ ht1)
  · rename_i hq
    rw [hq]
    split_ifs at h
    · cases h
      exact .idle
    · cases h
      rw [tree_setProc_same (Proc.task_sleep hx hz _)]
      exact .idle

/-! ## Containers -/

theorem cmMaxproc_tree (s : Kernel) (p : PIdx) (n : Int) :
    (cmMaxproc s p n).2.tree = s.tree.maxproc (s.proc p).toTask n := by
  unfold cmMaxproc Tree.maxproc
  by_cases hn : (NPROC : Int) ≤ n
  · rw [if_pos hn, if_pos hn]
  rw [if_neg hn, if_neg hn, show (s.proc p).toTask.container = (s.proc p).container from rfl]
  cases (s.proc p).container with
  | none => rfl
  | some c =>
    dsimp only
    by_cases hc : (s.containers c).nproc ≠ UINT_MAX ∨ (s.proc p).container_id = 0
    · rw [if_pos hc]
      exact (if_pos hc).symm
    · rw [if_neg hc]
      exact (tree_setNproc s c _).trans (if_neg hc).symm

theorem cmClaim_tree {init : Bytes} {r : Option CIdx} (h : cmClaim s p d init = .ok (r, s')) :
    (r = none ∧ s'.tree = s.tree) ∨
      ∃ c, r = some c ∧ s.freeContainer = some c ∧ s'.tree = s.tree.claim c := by
  unfold cmClaim at h
  dsimp only at h
  have hname : ∀ name, (s.setProc p { s.proc p with name := name }).tree = s.tree :=
    fun name => tree_setProc_same rfl
  split at h
  · cases h
    exact .inl ⟨rfl, hname _⟩
  · rename_i c hfree
    obtain ⟨mem, -, h⟩ := bind_eq_ok.mp h
    cases h
    refine .inr ⟨c, rfl, hfree, ?_⟩
    rw [← hname]
    refine Tree.ext rfl rfl rfl rfl (funext fun c' => ?_) (funext fun c' => ?_) <;>
      by_cases hc : c' = c <;>
      simp [Kernel.tree, Tree.claim, setMem, setContainer_containers, hc]

theorem cmEnter_tree {fs : Bytes} {c : CIdx} (h : cmEnter s p d fs c = .ok s')
    (hx : s.tree.task p = some x) :
    s'.tree = s.tree.setTask p (some { x with container := some c }) := by
  obtain ⟨s1, hroot, h⟩ := bind_eq_ok.mp h
  obtain ⟨s2, hdup, h⟩ := bind_eq_ok.mp h
  cases h
  obtain ⟨hlive, rfl⟩ := Proc.task_eq_some hx
  have h2 := (idupPtr_quiet hdup).tree.trans
    ((cmSetroot_quiet hroot).tree.trans (tree_setProc _ _ _))
  have hcwd : ∀ (s : Kernel) cwd, (s.setProc p { s.proc p with cwd := cwd }).tree = s.tree :=
    fun _ _ => tree_setProc_same rfl
  exact (hcwd s2 _).trans (h2.trans (congrArg (s.tree.setTask p) (if_neg hlive)))

theorem cmMove_tree {c : CIdx} (n : Int) (hx : s.tree.task p = some x) :
    (cmMove s p c n).tree =
      (s.tree.setTask p (some { x with container_id := s.tree.cid c })).maxproc
        { x with container_id := s.tree.cid c } n := by
  obtain ⟨hlive, rfl⟩ := Proc.task_eq_some hx
  let y : Proc := { s.proc p with container_id := (s.containers c).container_id }
  have hy : y.task = some y.toTask := if_neg hlive
  have htree := cmMaxproc_tree (s.setProc p y) p n
  rw [setProc_self, tree_setProc, hy] at htree
  exact htree

theorem cmLeave_tree (hx : s.tree.task p = some x) :
    (cmLeave s p).tree = s.tree.setTask p (some { x with container_id := 0 }) := by
  obtain ⟨hlive, rfl⟩ := Proc.task_eq_some hx
  unfold cmLeave
  rw [tree_setProc]
  exact congrArg (s.tree.setTask p) (if_neg hlive)

/-! ## The other calls -/

theorem other_tree (o : Other) (hx : s.tree.task p = some x) (hz : x.zombie = false) :
    (o.run s p).tree = s.tree := by
  unfold Other.run
  dsimp only
  have hwake := (wakeups_quiet
    { s with mux := o.mux, km := o.km, file := o.file, pipe := o.pipe, fs := o.fs } o.wakeup).tree
  generalize wakeups _ o.wakeup = s1 at hwake
  have htask : s1.tree.task p = some x := hwake ▸ hx
  let y : Proc := { s1.proc p with ofile := o.ofile, cwd := o.cwd, killed := o.killed }
  have hy : y.task = some x := htask
  split
  · exact (tree_setProc_same (y := y) rfl).trans hwake
  · exact (tree_setProc_same ((Proc.task_sleep hy hz _).trans (hy.trans htask.symm))).trans hwake

/-- Is the call about the process tree? -/
def Call.aboutTree : Call → Bool
  | .fork | .exit | .wait | .cmCreateAndEnter .. | .cmMaxproc _ => true
  | _ => false

/-- The calls that are not about the tree leave it as it is. -/
theorem Call.run_tree {c : Call} (h : c.run s p = .ok s') (hx : s.tree.task p = some x)
    (hz : x.zombie = false) (hc : c.aboutTree = false) : s'.tree = s.tree := by
  by_cases hquiet : c.isQuiet = true
  · exact (c.run_quiet h hquiet).tree
  cases c.ran h with
  | fork | exit | wait | cmCreateAndEnter | cmMaxproc => cases hc
  | exec | sbrk | mGet | mRem | cmSetroot | store => exact absurd rfl hquiet
  | prioSet h =>
    obtain ⟨q, mem, rfl⟩ := prioSet_queueOnly h
    rfl
  | kill pid => exact kill_tree s p pid
  | mutexCreate h => exact (mutexCreate_mutexOnly h).tree
  | mutexDelete i => exact (mutexDelete_mutexOnly s p i).tree
  | other o => exact other_tree o hx hz

end Dockv6
