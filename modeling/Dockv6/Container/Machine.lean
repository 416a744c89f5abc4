import Dockv6.Container.Refine
import Dockv6.Kernel.Boot

/-!
# Runs with containers

The machine in which `cm_create_and_enter` goes through its phases one by one, with calls of other
processes in between. Kept beside the kernel are the phase of each process, the limit each container
was created with, and `born`: `(n, c)` when the process with the pid `n`, or one it descends from,
was created with `container_id = c > 0`.
-/

namespace Dockv6

open Kernel Function

/-- The kernel, where each process is in `cm_create_and_enter`, and what was recorded. -/
structure Cm where
  k : Kernel
  inside : PIdx → Option (Phase CIdx)
  limit : CIdx → Option ℕ
  born : List (ℕ × ℕ)

/-- What a process does: a call, the start of `cm_create_and_enter`, or its next part. -/
inductive CmAct
  | call (p : PIdx) (c : Call)
  | create (p : PIdx) (init fs : Bytes) (nproc : Int)
  | next (p : PIdx)

/-- Who does it. -/
def CmAct.proc : CmAct → PIdx
  | call p _ => p
  | create p _ _ _ => p
  | next p => p

/-- What is recorded when `p` brings the kernel from `s` to `t`: a new process is born into its own
container and into those that its parent was born into. -/
def newborn (s t : Kernel) (p : PIdx) (born : List (ℕ × ℕ)) : List (ℕ × ℕ) :=
  (List.finRange NPROC).flatMap fun q =>
    if ¬ s.live q ∧ t.live q then
      (if 0 < (t.proc q).container_id then [((t.proc q).pid, (t.proc q).container_id)] else []) ++
        (born.filter fun b => b.1 == (s.proc p).pid).map fun b => ((t.proc q).pid, b.2)
    else []

namespace Cm

/-- `cm_create_and_enter` up to where a container is claimed. -/
def create (x : Cm) (p : PIdx) (init fs : Bytes) (nproc : Int) : Res Cm :=
  match (x.k.proc p).pgdir with
  | none => .error .undefined
  | some d => do
    let (c, k) ← cmClaim x.k p d init
    match c with
    | none => return { x with k := k }
    | some c =>
      return { x with
        k := k
        inside := update x.inside p (some (.claimed c fs nproc))
        limit := update x.limit c (limitOf nproc) }

/-- The part of `cm_create_and_enter` that follows the phase. -/
def advance (x : Cm) (p : PIdx) : Phase CIdx → Res Cm
  | .claimed c fs nproc =>
    match (x.k.proc p).pgdir with
    | none => .error .undefined
    | some d => do
      let k ← cmEnter x.k p d fs c
      return { x with k := k, inside := update x.inside p (some (.entered c nproc)) }
  | .entered c nproc =>
    .ok { x with
      k := cmMove x.k p c nproc
      inside := update x.inside p (some (.moved c)) }
  | .moved c => do
    let (_, k) ← fork x.k p
    return { x with k := k, inside := update x.inside p (some (.forked c)) }
  | .forked _ => .ok { x with k := cmLeave x.k p, inside := update x.inside p none }

/-- What the process does, if it is possible. A process inside `cm_create_and_enter` does nothing
else. -/
def act (x : Cm) : CmAct → Res Cm
  | .call p c =>
    if x.inside p = none ∧ c.isCreate = false then do
      let k ← c.run x.k p
      return { x with k := k }
    else .error .undefined
  | .create p init fs nproc =>
    if x.inside p = none then x.create p init fs nproc else .error .undefined
  | .next p =>
    match x.inside p with
    | none => .error .undefined
    | some ph => x.advance p ph

/-- The next state, with what is recorded. -/
def step (x : Cm) (a : CmAct) : Option Cm :=
  if x.k.canRun a.proc then
    (x.act a).toOption.map fun y => { y with born := x.born ++ newborn x.k y.k a.proc x.born }
  else none

/-- The abstract system of a state. -/
def sys (x : Cm) : System PIdx CIdx := { tree := x.k.tree, inside := x.inside, limit := x.limit }

/-- The process that forks, if the action is a `fork`. -/
def forking (x : Cm) : CmAct → Option PIdx
  | .call p .fork => some p
  | .next p =>
    match x.inside p with
    | some (.moved _) => some p
    | _ => none
  | _ => none

/-- What an event of the abstract system says about the action. -/
def Shows (x : Cm) (a : CmAct) : Event PIdx CIdx → Prop
  | .fork p r => x.forking a = some p ∧ ∃ k, fork x.k p = .ok (r, k)
  | .wait p q => a = .call p .wait ∧ x.k.zombieChild p = q
  | .claim p c => (∃ init fs n, a = .create p init fs n) ∧ x.k.freeContainer = some c
  | _ => True

end Cm

/-- The runs of the kernel with containers. -/
def cmMachine : Machine Cm CmAct where
  init x := Boot x.k ∧ x.inside = (fun _ => none) ∧ x.limit = (fun _ => none) ∧ x.born = []
  step x a := x.step a

variable {x y : Cm} {a : CmAct}

theorem canRun_task {s : Kernel} {p : PIdx} (h : s.canRun p) :
    s.tree.task p = some (s.proc p).toTask ∧ (s.proc p).toTask.zombie = false := by
  rcases h with h | h <;> exact ⟨if_neg (by simp [h]), by simp [Proc.toTask, h]⟩

theorem freeContainer_eq_some {s : Kernel} {c : CIdx} (h : s.freeContainer = some c) :
    s.tree.cid c = UINT_MAX :=
  show (s.containers c).container_id = UINT_MAX by simpa using List.find?_some h

theorem advance_refines {p : PIdx} {ph : Phase CIdx} (hrun : x.k.canRun p)
    (hi : x.inside p = some ph) (h : x.advance p ph = .ok y) :
    ∃ e, x.sys.Step e y.sys ∧ x.Shows (.next p) e := by
  obtain ⟨hx, -⟩ := canRun_task hrun
  cases ph with
  | claimed c fs n =>
    unfold Cm.advance at h
    dsimp only at h
    split at h
    · cases h
    · obtain ⟨k, henter, h⟩ := bind_eq_ok.mp h
      cases h
      refine ⟨.enter p, ?_, trivial⟩
      show x.sys.Step _ { tree := k.tree, inside := _, limit := _ }
      rw [cmEnter_tree henter hx]
      exact .enter p _ hx c fs n hi
  | entered c n =>
    cases h
    refine ⟨.move p, ?_, trivial⟩
    show x.sys.Step _ { tree := (cmMove x.k p c n).tree, inside := _, limit := _ }
    rw [cmMove_tree n hx]
    exact .move p _ hx c n hi
  | moved c =>
    obtain ⟨⟨r, k⟩, hfork, h⟩ := bind_eq_ok.mp h
    cases h
    refine ⟨.fork p r, .start p _ hx c hi (fork_tree hfork hx), ?_, k, hfork⟩
    simp [Cm.forking, hi]
  | forked c =>
    cases h
    refine ⟨.leave p, ?_, trivial⟩
    show x.sys.Step _ { tree := (cmLeave x.k p).tree, inside := _, limit := _ }
    rw [cmLeave_tree hx]
    exact .leave p _ hx c hi

theorem call_refines {p : PIdx} {c : Call} {k : Kernel} (hrun : x.k.canRun p)
    (hi : x.inside p = none) (hc : c.isCreate = false) (h : c.run x.k p = .ok k) :
    ∃ e, x.sys.Step e { x.sys with tree := k.tree } ∧ x.Shows (.call p c) e := by
  obtain ⟨hx, hz⟩ := canRun_task hrun
  by_cases htree : c.aboutTree = false
  · rw [c.run_tree h hx hz htree]
    exact ⟨.quiet, .quiet, trivial⟩
  cases c.ran h with
  | fork h => exact ⟨.fork p _, .fork p _ hx hz hi (fork_tree h hx), rfl, k, h⟩
  | exit h =>
    obtain ⟨hinit, htree⟩ := exit_tree h hx
    rw [htree]
    exact ⟨.exit p, .exit p _ hx hz hi hinit, trivial⟩
  | wait h => exact ⟨.wait p _, .wait p _ hx hz hi (wait_tree h hx hz), rfl, rfl⟩
  | cmMaxproc n =>
    rw [cmMaxproc_tree]
    exact ⟨.maxproc p, .maxproc p _ hx hi n, trivial⟩
  | cmCreateAndEnter => cases hc
  | _ => exact absurd rfl htree

/-- **The machine refines the abstract system.** Every step is a step of the abstract system, with
an event that shows what was done. -/
theorem cmMachine_refines (h : cmMachine.step x a = some y) :
    x.k.canRun a.proc ∧ (∃ e, x.sys.Step e y.sys ∧ x.Shows a e) ∧
      y.born = x.born ++ newborn x.k y.k a.proc x.born := by
  have hstep : x.step a = some y := h
  unfold Cm.step at hstep
  split_ifs at hstep with hrun
  obtain ⟨z, hact, rfl⟩ := Option.map_eq_some_iff.mp hstep
  refine ⟨hrun, ?_, rfl⟩
  replace hact := toOption_eq_some.mp hact
  cases a with
  | call p c =>
    rw [Cm.act] at hact
    split_ifs at hact with hi
    obtain ⟨k, hk, hz⟩ := bind_eq_ok.mp hact
    cases hz
    exact call_refines hrun hi.1 hi.2 hk
  | create p init fs n =>
    rw [Cm.act] at hact
    split_ifs at hact with hi
    unfold Cm.create at hact
    split at hact
    · cases hact
    obtain ⟨⟨c, k⟩, hclaim, hz⟩ := bind_eq_ok.mp hact
    obtain ⟨hx, hzomb⟩ := canRun_task hrun
    obtain ⟨rfl, htree⟩ | ⟨c, rfl, hfree, htree⟩ := cmClaim_tree hclaim
    · cases hz
      refine ⟨.quiet, ?_, trivial⟩
      show x.sys.Step _ { tree := k.tree, inside := _, limit := _ }
      rw [htree]
      exact .quiet
    · cases hz
      refine ⟨.claim p c, ?_, ⟨init, fs, n, rfl⟩, hfree⟩
      show x.sys.Step _ { tree := k.tree, inside := _, limit := _ }
      rw [htree]
      exact .claim p _ hx hzomb hi c (freeContainer_eq_some hfree) fs n
  | next p =>
    rw [Cm.act] at hact
    split at hact
    · cases hact
    · rename_i ph hi
      have hnext := advance_refines hrun hi hact
      exact hnext

/-- The system with one process, in the slot `p`, and with no container claimed. -/
def System.boot (p : PIdx) : System PIdx CIdx where
  tree :=
    { task := update (fun _ => none) p
        (some { pid := 1, parent := none, container := none, container_id := 0, zombie := false })
      initproc := some p, nextpid := 2, nextcid := 1, cid := fun _ => UINT_MAX, nproc :=
        fun _ => UINT_MAX }
  inside _ := none
  limit _ := none

theorem boot_sys (h : cmMachine.init x) : ∃ p, x.sys = System.boot p := by
  obtain ⟨k, inside, limit, born⟩ := x
  obtain ⟨hboot, hinside, hlimit, -⟩ := h
  cases hinside
  cases hlimit
  obtain ⟨b, code, p, page, free, mem, d0, d, m0, m, cwd, q, fs, -, -, -, -, -, rfl⟩ :=
    boot_cases hboot
  refine ⟨p, congrArg (fun t => System.mk t _ _)
    (Tree.ext (funext fun r => ?_) rfl rfl rfl rfl rfl)⟩
  show Proc.task (update (fun _ => Proc.zero) p (.first page d cwd) r) = update
    (fun _ => none) p _ r
  rw [update_apply, update_apply]
  split_ifs <;> rfl

/-- The state before the first action. -/
def Cm.start (k : Kernel) : Cm :=
  { k := k, inside := fun _ => none, limit := fun _ => none, born := [] }

/-- The state after the actions, from the boot of the small machine, if each of them passes the test
and is possible. -/
def Cm.run (test : Cm → CmAct → Bool) (l : List CmAct) : Option Cm :=
  smallBoot.toOption.bind fun k => (cmMachine.restrict test).exec (.start k) l

theorem Cm.exists_of_run {ok : Cm → CmAct → Prop} {test : Cm → CmAct → Bool}
    (hok : ∀ x a, test x a = true → ok x a) {l : List CmAct} {P : Cm → Bool}
    (h : (Cm.run test l).any P = true) : ∃ x, cmMachine.Reach ok x ∧ P x = true := by
  obtain ⟨x, hx, hP⟩ := (Option.any_eq_true P _).mp h
  obtain ⟨k, hk, hexec⟩ := Option.bind_eq_some_iff.mp hx
  have hinit : cmMachine.init (.start k) :=
    ⟨boot_of_smallBoot (toOption_eq_some.mp hk), rfl, rfl, rfl⟩
  exact ⟨x, Machine.reach_of_exec_restrict hok (.init hinit) l hexec, hP⟩

end Dockv6
