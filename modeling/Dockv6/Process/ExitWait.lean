import Dockv6.Foundations.Forest
import Dockv6.Foundations.Run
import Dockv6.Kernel.Quiet

/-!
# The protocol of exit and wait

`fork`, `exit` and `wait` as they run side by side. What a process does under `ptable.lock` is one
step; `fork` has two sections and writes to the slot of its child in between, and `exit` has one at
its end. Processes may be preempted, killed and put to sleep elsewhere at any time.
-/

namespace Dockv6.ExitWait

open ProcState

/-- Where a process is in its call. -/
inductive Pc
  | user
  /-- In `fork`, with a slot for the child and before `np->parent = curproc`. -/
  | forkCopy (np : PIdx)
  /-- In `fork`, after that. -/
  | forkTail (np : PIdx)
  /-- In `exit`, before it takes the lock. -/
  | exiting
  /-- In `wait`, where it sleeps. -/
  | waiting
  deriving DecidableEq

/-- A slot of `ptable`, and where its process is. -/
structure Proc where
  state : ProcState
  pid : ℕ
  parent : Option PIdx
  chan : Option Chan
  killed : Bool
  pc : Pc

/-- The processes, and what `wait` returned. -/
structure State where
  proc : PIdx → Proc
  initproc : PIdx
  nextpid : ℕ
  /-- What `wait` has returned, and to whom, the last one first. -/
  returned : List (PIdx × Int)

namespace State

/-- Change the process `p`. -/
def set (s : State) (p : PIdx) (x : Proc) : State := { s with proc := Function.update s.proc p x }

/-- The process goes on at `pc`. -/
def goto (s : State) (p : PIdx) (pc : Pc) : State := s.set p { s.proc p with pc := pc }

end State

/-! ## The sections -/

/-- Wake the process up if it sleeps on `chan`. -/
def Proc.wake (x : Proc) (chan : Option Chan) : Proc :=
  if x.state = SLEEPING ∧ x.chan = chan then { x with state := RUNNABLE } else x

/-- Wake up all processes sleeping on `chan`. -/
def wakeup1 (s : State) (chan : Option Chan) : State :=
  { s with proc := fun q => (s.proc q).wake chan }

/-- The first section of `fork`, in `allocproc`. -/
def fork (s : State) (p : PIdx) : State :=
  match (List.finRange NPROC).find? fun q => (s.proc q).state = UNUSED with
  | none => s
  | some np =>
    let s' := s.set np { s.proc np with state := EMBRYO, pid := s.nextpid, pc := .user }
    { s'.goto p (.forkCopy np) with
      nextpid := s.nextpid + 1 }

/-- There is no page for the kernel stack or not enough memory for the copy. -/
def forkFails (s : State) (p np : PIdx) : State :=
  (s.set np { s.proc np with state := UNUSED }).goto p .user

/-- `np->parent = curproc` -/
def forkAttaches (s : State) (p np : PIdx) : State :=
  (s.set np { s.proc np with parent := some p }).goto p (.forkTail np)

/-- The last section of `fork`. -/
def forkEnds (s : State) (p np : PIdx) : State :=
  (s.set np { s.proc np with state := RUNNABLE }).goto p .user

/-- Pass abandoned children to `init`. -/
def reparent (s : State) (p : PIdx) : State :=
  { s with proc := fun q =>
      if (s.proc q).parent = some p then { s.proc q with parent := some s.initproc } else s.proc q }

/-- The section of `exit`. -/
def exitEnds (s : State) (p : PIdx) : State :=
  let s := wakeup1 s ((s.proc p).parent.map .proc)
  -- A zombie among the children wakes `init`.
  let orphan := (List.finRange NPROC).any fun q =>
    decide ((s.proc q).parent = some p ∧ (s.proc q).state = ZOMBIE)
  let s := reparent s p
  let s := if orphan then wakeup1 s (some (.proc s.initproc)) else s
  s.set p { s.proc p with state := ZOMBIE }

/-- `wait` returns `r`. -/
def returns (s : State) (p : PIdx) (r : Int) : State :=
  { s.goto p .user with returned := (p, r) :: s.returned }

/-- The slot of a zombie after its parent has seen it. -/
def Proc.freed (x : Proc) : Proc :=
  { x with pid := 0, parent := none, killed := false, state := UNUSED }

/-- The section of `wait`: look for a zombie among the children; return, or sleep. -/
def wait (s : State) (p : PIdx) : State :=
  match (List.finRange NPROC).find? fun q => (s.proc q).parent = some p ∧
      (s.proc q).state = ZOMBIE with
  | some q => returns (s.set q (s.proc q).freed) p (s.proc q).pid
  | none =>
    if (∀ q, (s.proc q).parent ≠ some p) ∨ (s.proc p).killed then returns s p (-1)
    else s.set p { s.proc p with state := SLEEPING, chan := some (.proc p), pc := .waiting }

/-- The scheduler switches to a process; one that slept in `wait` looks again. -/
def schedule (s : State) (p : PIdx) : State :=
  let s := s.set p { s.proc p with state := RUNNING, chan := none }
  if (s.proc p).pc = .waiting then wait s p else s

/-- What a process may do. -/
inductive Act
  | fork (p : PIdx)
  | exit (p : PIdx)
  | wait (p : PIdx)
  /-- The process runs up to the next section of its call; there may be memory for it or not. -/
  | run (p : PIdx) (memory : Bool)
  | schedule (p : PIdx)
  | yield (p : PIdx)
  /-- The process sleeps for another reason. -/
  | sleep (p : PIdx) (chan : Chan)
  | wakeup (chan : Chan)
  /-- The slot that a `kill` finds. -/
  | kill (q : PIdx)
  deriving DecidableEq

/-- The next section of a call. -/
def run (s : State) (p : PIdx) (memory : Bool) : Option State :=
  match (s.proc p).pc with
  | .forkCopy np => some (if memory then forkAttaches s p np else forkFails s p np)
  | .forkTail np => some (forkEnds s p np)
  | .exiting => some (exitEnds s p)
  | .user | .waiting => none

/-- The state after an action. -/
def step (s : State) : Act → Option State
  | .fork p => if (s.proc p).state = RUNNING ∧ (s.proc p).pc = .user then some (fork s p) else none
  | .exit p =>
    if (s.proc p).state = RUNNING ∧ (s.proc p).pc = .user ∧ p ≠ s.initproc then
      some (s.goto p .exiting)
    else none
  | .wait p => if (s.proc p).state = RUNNING ∧ (s.proc p).pc = .user then some (wait s p) else none
  | .run p memory => if (s.proc p).state = RUNNING then run s p memory else none
  | .schedule p => if (s.proc p).state = RUNNABLE then some (schedule s p) else none
  | .yield p =>
    if (s.proc p).state = RUNNING then some (s.set p { s.proc p with state := RUNNABLE }) else none
  | .sleep p chan =>
    if (s.proc p).state = RUNNING ∧ ((s.proc p).pc = .user ∨ (s.proc p).pc = .exiting) then
      some (s.set p { s.proc p with state := SLEEPING, chan := some chan })
    else none
  | .wakeup chan => some (wakeup1 s (some chan))
  | .kill q =>
    some (s.set q { s.proc q with
      killed := true, state := if (s.proc q).state = SLEEPING then RUNNABLE else (s.proc q).state })

/-- The table after `userinit`. -/
def start : State where
  proc q :=
    { state := if q = 0 then RUNNABLE else UNUSED, pid := if q = 0 then 1 else 0, parent := none,
      chan := none, killed := false, pc := .user }
  initproc := 0
  nextpid := 2
  returned := []

/-- All interleavings of the sections. -/
def machine : Machine State Act where
  init s := s = start
  step := step

/-! ## The protocol -/

/-- The process sleeps in `wait`. -/
def State.asleep (s : State) (p : PIdx) : Prop :=
  (s.proc p).state = SLEEPING ∧ (s.proc p).pc = .waiting

/-- The slot has a process, or will have one and is attached to its parent. -/
def Proc.attached (x : Proc) : Prop := x.state ≠ UNUSED ∧ ¬ (x.state = EMBRYO ∧ x.parent = none)

/-- The pids that `wait` has returned. -/
def State.pids (s : State) : List Int := (s.returned.map Prod.snd).filter (· ≠ -1)

/-- What `wait` may return to `p`: -1 if it has no child or is killed, or the pid of a zombie
child. -/
def State.Answer (s : State) (p : PIdx) (r : Int) : Prop :=
  (r = -1 ∧ ((∀ q, (s.proc q).parent ≠ some p) ∨ (s.proc p).killed = true)) ∨
    ∃ q, (s.proc q).parent = some p ∧ (s.proc q).state = ZOMBIE ∧ ((s.proc q).pid : Int) = r

/-- What `exit` and `wait` guarantee. -/
structure Protocol (s : State) : Prop where
  /-- No pid is returned twice. -/
  once : s.pids.Nodup
  /-- No process sleeps in `wait` while it has a zombie child. -/
  awake : ∀ p q, s.asleep p → (s.proc q).parent = some p → (s.proc q).state ≠ ZOMBIE
  /-- The parent of a process is one that has not exited. -/
  parent : ∀ q, (s.proc q).attached → q ≠ s.initproc →
    ∃ r, (s.proc q).parent = some r ∧ (s.proc r).state ≠ UNUSED ∧ (s.proc r).state ≠ ZOMBIE
  /-- What the next step makes `wait` return is right. -/
  returns : ∀ a s', step s a = some s' → ∀ p r, s'.returned = (p, r) :: s.returned → s.Answer p r

/-! ## Slots -/

/-- What the other processes know of a process. -/
def Proc.kin (x : Proc) : ProcState × ℕ × Option PIdx := (x.state.awake, x.pid, x.parent)

/-- The child that a process is making. -/
def Pc.child : Pc → Option PIdx
  | forkCopy np | forkTail np => some np
  | user | exiting | waiting => none

/-- The slot is in use. -/
def State.used (s : State) (q : PIdx) : Prop := (s.proc q).state ≠ UNUSED

/-- The tree of the processes. -/
def State.family (s : State) : Family PIdx where
  parent q := (s.proc q).parent
  mem q := (s.proc q).attached
  dead q := (s.proc q).state = ZOMBIE
  rank q := (s.proc q).pid

variable {s s' : State} {p q r np : PIdx} {r' : Int}

theorem embryo_iff {a b : ProcState} (h : a.awake = b.awake) : a = EMBRYO ↔ b = EMBRYO := by
  cases a <;> cases b <;> simp [ProcState.awake] at h ⊢

section Kin

variable {x y : Proc} (h : x.kin = y.kin)

include h

theorem Proc.awake_of_kin : x.state.awake = y.state.awake := congrArg Prod.fst h

theorem Proc.pid_of_kin : x.pid = y.pid := congrArg (·.2.1) h

theorem Proc.parent_of_kin : x.parent = y.parent := congrArg (·.2.2) h

theorem Proc.unused_of_kin : x.state = UNUSED ↔ y.state = UNUSED :=
  ProcState.unused_iff (awake_of_kin h)

theorem Proc.zombie_of_kin : x.state = ZOMBIE ↔ y.state = ZOMBIE :=
  ProcState.zombie_iff (awake_of_kin h)

theorem Proc.attached_of_kin : x.attached ↔ y.attached := by
  unfold attached
  rw [ne_eq, unused_of_kin h, embryo_iff (awake_of_kin h), parent_of_kin h]

end Kin

theorem agreeAt (h : (s'.proc q).kin = (s.proc q).kin) : s.family.AgreeAt s'.family q :=
  ⟨Proc.parent_of_kin h, Proc.attached_of_kin h, Proc.zombie_of_kin h, Proc.pid_of_kin h⟩

@[simp] theorem set_self (s : State) (p : PIdx) (x : Proc) : (s.set p x).proc p = x :=
  Function.update_self _ _ _

theorem set_of_ne (s : State) (x : Proc) (h : q ≠ p) : (s.set p x).proc q = s.proc q :=
  Function.update_of_ne h _ _

theorem set_field {α : Type*} {x : Proc} (f : Proc → α) (hx : f x = f (s.proc p)) (q : PIdx) :
    f ((s.set p x).proc q) = f (s.proc q) := by
  by_cases hq : q = p
  · rw [hq, set_self, hx]
  · rw [set_of_ne s x hq]

section Wake

variable (x : Proc) (chan : Option Chan)

theorem wake_kin : (x.wake chan).kin = x.kin := by
  unfold Proc.wake
  split_ifs with hx
  · simp only [Proc.kin, hx.1, ProcState.awake]
  · rfl

theorem wake_pc : (x.wake chan).pc = x.pc := by
  unfold Proc.wake
  split_ifs <;> rfl

theorem wake_chan : (x.wake chan).chan = x.chan := by
  unfold Proc.wake
  split_ifs <;> rfl

/-- A process that is still asleep was not meant. -/
theorem wake_asleep (h : (x.wake chan).state = SLEEPING) : x.state = SLEEPING ∧ x.chan ≠ chan := by
  unfold Proc.wake at h
  split_ifs at h with hx
  exact ⟨h, fun hc => hx ⟨h, hc⟩⟩

end Wake

/-! ## Pids -/

/-- Pids tell the processes apart, and those that were returned are gone. -/
structure Pids (s : State) : Prop where
  lt : ∀ {q}, s.used q → (s.proc q).pid < s.nextpid
  unique : ∀ {q r}, s.used q → s.used r → (s.proc q).pid = (s.proc r).pid → q = r
  fresh : ∀ {q}, s.used q → ((s.proc q).pid : Int) ∉ s.pids
  bound : ∀ r ∈ s.pids, r < s.nextpid
  nodup : s.pids.Nodup

namespace Pids

theorem congr (h : Pids s) (hused : ∀ q, s'.used q → s.used q ∧ (s'.proc q).pid = (s.proc q).pid)
    (hnext : s'.nextpid = s.nextpid) (hpids : s'.pids = s.pids) : Pids s' := by
  refine ⟨fun {q} hq => ?_, fun {q r} hq hr heq => ?_, fun {q} hq => ?_, ?_, ?_⟩
  · obtain ⟨hq, hpid⟩ := hused q hq
    rw [hpid, hnext]
    exact h.lt hq
  · obtain ⟨hq, hpid⟩ := hused q hq
    obtain ⟨hr, hpid'⟩ := hused r hr
    exact h.unique hq hr (hpid.symm.trans (heq.trans hpid'))
  · obtain ⟨hq, hpid⟩ := hused q hq
    rw [hpid, hpids]
    exact h.fresh hq
  · rw [hpids, hnext]
    exact h.bound
  · rw [hpids]
    exact h.nodup

/-- A slot is taken, with the next pid. -/
theorem alloc (h : Pids s) (hnp : (s'.proc np).pid = s.nextpid)
    (hused : ∀ q, q ≠ np → s'.used q → s.used q ∧ (s'.proc q).pid = (s.proc q).pid)
    (hnext : s'.nextpid = s.nextpid + 1) (hpids : s'.pids = s.pids) : Pids s' := by
  have hold : ∀ {q}, q ≠ np → s'.used q → (s'.proc q).pid < s.nextpid := fun {q} hq hq' => by
    obtain ⟨hq', hpid⟩ := hused q hq hq'
    rw [hpid]
    exact h.lt hq'
  refine ⟨fun {q} hq => ?_, fun {q r} hq hr heq => ?_, fun {q} hq => ?_, fun r hr => ?_, ?_⟩
  · rw [hnext]
    by_cases hqn : q = np
    · rw [hqn, hnp]
      exact Nat.lt_succ_self _
    · exact (hold hqn hq).trans (Nat.lt_succ_self _)
  · by_cases hqn : q = np <;> by_cases hrn : r = np
    · rw [hqn, hrn]
    · have hlt := hold hrn hr
      rw [← heq, hqn, hnp] at hlt
      exact absurd hlt (lt_irrefl _)
    · have hlt := hold hqn hq
      rw [heq, hrn, hnp] at hlt
      exact absurd hlt (lt_irrefl _)
    · obtain ⟨hq, hpid⟩ := hused q hqn hq
      obtain ⟨hr, hpid'⟩ := hused r hrn hr
      exact h.unique hq hr (hpid.symm.trans (heq.trans hpid'))
  · rw [hpids]
    by_cases hqn : q = np
    · rw [hqn, hnp]
      exact fun hmem => lt_irrefl _ (h.bound _ hmem)
    · obtain ⟨hq, hpid⟩ := hused q hqn hq
      rw [hpid]
      exact h.fresh hq
  · rw [hpids] at hr
    rw [hnext]
    exact (h.bound r hr).trans (by omega)
  · rw [hpids]
    exact h.nodup

/-- The pid of a slot is returned, and the slot is given up. -/
theorem reap (h : Pids s) (hq : s.used q) (hfree : ¬ s'.used q)
    (hused : ∀ r, r ≠ q → s'.used r → s.used r ∧ (s'.proc r).pid = (s.proc r).pid)
    (hnext : s'.nextpid = s.nextpid) (hpids : s'.pids = ((s.proc q).pid : Int) :: s.pids) :
    Pids s' := by
  have hne : ∀ {r}, s'.used r → r ≠ q := fun hr heq => hfree (heq ▸ hr)
  refine ⟨fun {r} hr => ?_, fun {r t} hr ht heq => ?_, fun {r} hr => ?_, fun r hr => ?_, ?_⟩
  · obtain ⟨hr, hpid⟩ := hused r (hne hr) hr
    rw [hpid, hnext]
    exact h.lt hr
  · obtain ⟨hr, hpid⟩ := hused r (hne hr) hr
    obtain ⟨ht, hpid'⟩ := hused t (hne ht) ht
    exact h.unique hr ht (hpid.symm.trans (heq.trans hpid'))
  · obtain ⟨hr', hpid⟩ := hused r (hne hr) hr
    rw [hpids, hpid, List.mem_cons, not_or]
    exact ⟨fun heq => hne hr (h.unique hr' hq (Int.ofNat_inj.mp heq)), h.fresh hr'⟩
  · rw [hpids] at hr
    rw [hnext]
    obtain rfl | hr := List.mem_cons.mp hr
    · exact Int.ofNat_lt.mpr (h.lt hq)
    · exact h.bound r hr
  · rw [hpids]
    exact List.nodup_cons.mpr ⟨h.fresh hq, h.nodup⟩

end Pids

/-! ## Children in the making -/

/-- A process in `fork` is alive, and the slot of its child is an embryo of its own. -/
structure Forks (s : State) : Prop where
  busy : ∀ {p np}, (s.proc p).pc.child = some np →
    (s.proc p).state.awake = RUNNABLE ∧ (s.proc np).state.awake = EMBRYO ∧
    (s.proc p).pid < (s.proc np).pid
  copy : ∀ {p np}, (s.proc p).pc = .forkCopy np → (s.proc np).parent = none
  tail : ∀ {p np}, (s.proc p).pc = .forkTail np → (s.proc np).parent = some p
  one : ∀ {p q np}, (s.proc p).pc.child = some np → (s.proc q).pc.child = some np → p = q

/-- The processes in `fork` were there before, with the same children. -/
theorem Forks.congr (h : Forks s) (hsame : ∀ p np, (s'.proc p).pc.child = some np →
    (s'.proc p).pc = (s.proc p).pc ∧ (s'.proc p).state.awake = (s.proc p).state.awake ∧
      (s'.proc p).pid = (s.proc p).pid ∧ (s'.proc np).kin = (s.proc np).kin) : Forks s' := by
  refine ⟨fun {p np} hp => ?_, fun {p np} hp => ?_, fun {p np} hp => ?_, fun {p q np} hp hq => ?_⟩
  · obtain ⟨hpc, hawake, hpid, hkin⟩ := hsame p np hp
    rw [hawake, hpid, Proc.awake_of_kin hkin, Proc.pid_of_kin hkin]
    exact h.busy (hpc ▸ hp)
  · obtain ⟨hpc, -, -, hkin⟩ := hsame p np (by rw [hp]; rfl)
    rw [Proc.parent_of_kin hkin]
    exact h.copy (hpc ▸ hp)
  · obtain ⟨hpc, -, -, hkin⟩ := hsame p np (by rw [hp]; rfl)
    rw [Proc.parent_of_kin hkin]
    exact h.tail (hpc ▸ hp)
  · exact h.one ((hsame p np hp).1 ▸ hp) ((hsame q np hq).1 ▸ hq)

theorem Forks.ne (h : Forks s) (hp : (s.proc p).pc.child = some np) : p ≠ np := by
  rintro rfl
  obtain ⟨hrun, hembryo, -⟩ := h.busy hp
  cases hrun.symm.trans hembryo

/-- An embryo makes no child. -/
theorem Forks.child_eq_none (h : Forks s) (hq : (s.proc q).state.awake ≠ RUNNABLE) :
    (s.proc q).pc.child = none := by
  by_contra hchild
  obtain ⟨np, hnp⟩ := Option.ne_none_iff_exists'.mp hchild
  exact hq (h.busy hnp).1

/-! ## The invariant -/

/-- The tree, the pids and the calls in progress. -/
structure Core (s : State) : Prop where
  rooted : s.family.Rooted s.initproc
  pids : Pids s
  forks : Forks s
  exits : ∀ {p}, (s.proc p).pc = .exiting → p ≠ s.initproc

/-- A process that sleeps in `wait` waits for a wakeup on itself, and has no zombie child. -/
def Asleep (s : State) : Prop :=
  ∀ p, s.asleep p → (s.proc p).chan = some (.proc p) ∧
    ∀ q, (s.proc q).parent = some p → (s.proc q).state ≠ ZOMBIE

/-- Nothing changes but who runs, sleeps or is killed, and how far a call is; `wait` may return
-1. -/
structure Light (s s' : State) : Prop where
  kin : ∀ q, (s'.proc q).kin = (s.proc q).kin
  pc : ∀ q, (s'.proc q).pc = (s.proc q).pc ∨ (s'.proc q).pc.child = none
  initproc : s'.initproc = s.initproc
  nextpid : s'.nextpid = s.nextpid
  pids : s'.pids = s.pids
  exits : ∀ q, (s'.proc q).pc = .exiting → (s.proc q).pc = .exiting ∨ q ≠ s.initproc

theorem Core.light (h : Core s) (hl : Light s s') : Core s' := by
  refine ⟨?_, h.pids.congr (fun q hq => ?_) hl.nextpid hl.pids, h.forks.congr fun p np hp => ?_,
    fun {p} hp => ?_⟩
  · rw [hl.initproc]
    refine h.rooted.congr (fun q _ => agreeAt (hl.kin q)) fun q hq => ?_
    have hagree := agreeAt (hl.kin q)
    exact ⟨mt hagree.mem.mp hq, hagree.parent.trans (h.rooted.outside q hq)⟩
  · exact ⟨mt (Proc.unused_of_kin (hl.kin q)).mpr hq, Proc.pid_of_kin (hl.kin q)⟩
  · obtain hpc | hnone := hl.pc p
    · exact ⟨hpc, Proc.awake_of_kin (hl.kin p), Proc.pid_of_kin (hl.kin p), hl.kin np⟩
    · cases hnone.symm.trans hp
  · rw [hl.initproc]
    exact (hl.exits p hp).elim h.exits id

theorem Asleep.light (h : Asleep s) (hkin : ∀ q, (s'.proc q).kin = (s.proc q).kin)
    (hsleep : ∀ p, s'.asleep p → s.asleep p ∧ (s'.proc p).chan = (s.proc p).chan) : Asleep s' := by
  intro p hp
  obtain ⟨hp, hchan⟩ := hsleep p hp
  obtain ⟨hself, hzombie⟩ := h p hp
  refine ⟨hchan.trans hself, fun q hq => ?_⟩
  rw [Proc.parent_of_kin (hkin q)] at hq
  exact mt (Proc.zombie_of_kin (hkin q)).mp (hzombie q hq)

/-! ## Fork -/

/-- A step of `fork` by `p` on the slot `np`. -/
structure Edit (s : State) (p np : PIdx) (x : Proc) (pc : Pc) (s' : State) : Prop where
  child : s'.proc np = x
  self : s'.proc p = { s.proc p with pc := pc }
  others : ∀ q, q ≠ np → q ≠ p → s'.proc q = s.proc q
  initproc : s'.initproc = s.initproc
  returned : s'.returned = s.returned

theorem edit_goto (hne : p ≠ np) (x : Proc) (pc : Pc) (n : ℕ) :
    Edit s p np x pc { (s.set np x).goto p pc with nextpid := n } where
  child := by
    show ((s.set np x).goto p pc).proc np = x
    rw [State.goto, set_of_ne _ _ hne.symm, set_self]
  self := by
    show ((s.set np x).goto p pc).proc p = _
    rw [State.goto, set_self, set_of_ne _ _ hne]
  others q hq hqp := by
    show ((s.set np x).goto p pc).proc q = _
    rw [State.goto, set_of_ne _ _ hqp, set_of_ne _ _ hq]
  initproc := rfl
  returned := rfl

theorem forkFails_edit (hne : p ≠ np) :
    Edit s p np { s.proc np with state := UNUSED } .user (forkFails s p np) :=
  edit_goto hne _ _ s.nextpid

theorem forkAttaches_edit (hne : p ≠ np) :
    Edit s p np { s.proc np with parent := some p } (.forkTail np) (forkAttaches s p np) :=
  edit_goto hne _ _ s.nextpid

theorem forkEnds_edit (hne : p ≠ np) :
    Edit s p np { s.proc np with state := RUNNABLE } .user (forkEnds s p np) :=
  edit_goto hne _ _ s.nextpid

namespace Edit

variable {x : Proc} {pc : Pc} (h : Edit s p np x pc s')

include h

theorem kin (hq : q ≠ np) : (s'.proc q).kin = (s.proc q).kin := by
  by_cases hqp : q = p
  · rw [hqp, h.self]
    rfl
  · rw [h.others q hq hqp]

theorem pids : s'.pids = s.pids := by rw [State.pids, h.returned, State.pids]

/-- The slot is outside of the family before and after. -/
theorem rooted_outside (hrooted : s.family.Rooted s.initproc) (hnp : ¬ (s.proc np).attached)
    (hx : ¬ x.attached) (hparent : x.parent = none) : s'.family.Rooted s'.initproc := by
  rw [h.initproc]
  refine hrooted.congr (fun q hq => agreeAt (h.kin fun heq => hnp (heq ▸ hq))) fun q hq => ?_
  by_cases hqn : q = np
  · subst hqn
    refine ⟨?_, ?_⟩
    · show ¬ (s'.proc q).attached
      rwa [h.child]
    · show (s'.proc q).parent = none
      rwa [h.child]
  · have hagree := agreeAt (h.kin hqn)
    exact ⟨mt hagree.mem.mp hq, hagree.parent.trans (hrooted.outside q hq)⟩

theorem forks (hf : Forks s) (hx : x.pc.child = none)
    (hnp : ∀ q, q ≠ p → (s.proc q).pc.child ≠ some np)
    (hchild : ∀ q, pc.child = some q → q = np ∧ (s.proc p).state.awake = RUNNABLE ∧
      x.state.awake = EMBRYO ∧ (s.proc p).pid < x.pid)
    (hcopy : pc = .forkCopy np → x.parent = none) (htail : pc = .forkTail np → x.parent = some p) :
    Forks s' := by
  -- A process in `fork` is the one that took the step, or it is as before.
  have hcases : ∀ {q r}, (s'.proc q).pc.child = some r → (q = p ∧ r = np ∧ pc.child = some np) ∨
      (q ≠ p ∧ q ≠ np ∧ r ≠ np ∧ s'.proc q = s.proc q ∧ (s.proc q).pc.child = some r) := by
    intro q r hq
    by_cases hqp : q = p
    · subst hqp
      rw [h.self] at hq
      obtain ⟨rfl, -⟩ := hchild r hq
      exact .inl ⟨rfl, rfl, hq⟩
    · have hqn : q ≠ np := by
        rintro rfl
        rw [h.child, hx] at hq
        cases hq
      have hsame := h.others q hqn hqp
      rw [hsame] at hq
      exact .inr ⟨hqp, hqn, fun heq => hnp q hqp (heq ▸ hq), hsame, hq⟩
  refine ⟨fun {q r} hq => ?_, fun {q r} hq => ?_, fun {q r} hq => ?_, fun {q t r} hq ht => ?_⟩
  · obtain ⟨rfl, rfl, hpc⟩ | ⟨-, -, hr, hsame, hq⟩ := hcases hq
    · rw [h.self, h.child]
      exact (hchild r hpc).2
    · rw [hsame, Proc.awake_of_kin (h.kin hr), Proc.pid_of_kin (h.kin hr)]
      exact hf.busy hq
  · obtain ⟨rfl, rfl, hpc⟩ | ⟨-, -, hr, hsame, -⟩ := hcases (r := r) (by rw [hq]; rfl)
    · rw [h.self] at hq
      rw [h.child]
      exact hcopy hq
    · rw [Proc.parent_of_kin (h.kin hr)]
      exact hf.copy (hsame ▸ hq)
  · obtain ⟨rfl, rfl, hpc⟩ | ⟨-, -, hr, hsame, -⟩ := hcases (r := r) (by rw [hq]; rfl)
    · rw [h.self] at hq
      rw [h.child]
      exact htail hq
    · rw [Proc.parent_of_kin (h.kin hr)]
      exact hf.tail (hsame ▸ hq)
  · obtain ⟨rfl, rfl, -⟩ | ⟨-, -, hr, -, hq'⟩ := hcases hq
    · obtain ⟨rfl, -, -⟩ | ⟨-, -, hr, -, -⟩ := hcases ht
      · rfl
      · exact absurd rfl hr
    · obtain ⟨-, rfl, -⟩ | ⟨-, -, -, -, ht'⟩ := hcases ht
      · exact absurd rfl hr
      · exact hf.one hq' ht'

theorem exits (he : ∀ {q}, (s.proc q).pc = .exiting → q ≠ s.initproc) (hpc : pc ≠ .exiting)
    (hx : x.pc = .exiting → (s.proc np).pc = .exiting) :
    ∀ {q}, (s'.proc q).pc = .exiting → q ≠ s'.initproc := by
  intro q hq
  rw [h.initproc]
  by_cases hqp : q = p
  · rw [hqp, h.self] at hq
    exact absurd hq hpc
  · by_cases hqn : q = np
    · subst hqn
      rw [h.child] at hq
      exact he (hx hq)
    · rw [h.others q hqn hqp] at hq
      exact he hq

theorem asleep (ha : Asleep s) (hp : (s.proc p).state = RUNNING)
    (hx : x.state ≠ SLEEPING ∧ x.state ≠ ZOMBIE) : Asleep s' := by
  have hother : ∀ {q}, (s'.proc q).state = SLEEPING ∨ (s'.proc q).state = ZOMBIE →
      s'.proc q = s.proc q := by
    intro q hq
    refine h.others q ?_ ?_
    · rintro rfl
      rw [h.child] at hq
      exact hq.elim hx.1 hx.2
    · rintro rfl
      rw [h.self, hp] at hq
      rcases hq with hq | hq <;> cases hq
  intro q hq
  have hsame := hother (.inl hq.1)
  rw [State.asleep, hsame] at hq
  obtain ⟨hchan, hzombie⟩ := ha q hq
  rw [hsame]
  refine ⟨hchan, fun r hr hrz => ?_⟩
  rw [hother (.inr hrz)] at hr hrz
  exact hzombie r hr hrz

end Edit

theorem alive (hp : (s.proc p).state = RUNNING) : s.family.mem p ∧ ¬ s.family.dead p := by
  refine ⟨⟨?_, ?_⟩, ?_⟩
  · rw [hp]
    exact nofun
  · rw [hp]
    exact fun hembryo => nomatch hembryo.1
  · show ¬ (s.proc p).state = ZOMBIE
    rw [hp]
    exact nofun

theorem Core.fork (h : Core s) (hp : (s.proc p).state = RUNNING) : Core (fork s p) := by
  unfold ExitWait.fork
  split
  · exact h
  rename_i np hfind
  have hnp : (s.proc np).state = UNUSED := by simpa using List.find?_some hfind
  have hne : p ≠ np := by
    rintro rfl
    cases hp.symm.trans hnp
  have hout : ¬ (s.proc np).attached := fun hatt => hatt.1 hnp
  have hparent : (s.proc np).parent = none := h.rooted.outside np hout
  have hedit := edit_goto (s := s) hne
    { s.proc np with state := EMBRYO, pid := s.nextpid, pc := .user } (.forkCopy np) (s.nextpid + 1)
  have hused : s.used p := fun hu => nomatch hp.symm.trans hu
  have hpid := congrArg Proc.pid hedit.child
  refine ⟨hedit.rooted_outside h.rooted hout (fun hatt => hatt.2 ⟨rfl, hparent⟩) hparent,
    h.pids.alloc hpid (fun q hq hq' => ?_) rfl hedit.pids, ?_, hedit.exits h.exits nofun nofun⟩
  · have hkin := hedit.kin hq
    exact ⟨mt (Proc.unused_of_kin hkin).mpr hq', Proc.pid_of_kin hkin⟩
  · refine hedit.forks h.forks rfl (fun q _ hq => ?_) (fun q hq => ?_) (fun _ => hparent) nofun
    · have hembryo := (h.forks.busy hq).2.1
      rw [hnp] at hembryo
      cases hembryo
    · exact ⟨(Option.some.inj hq).symm, by rw [hp]; rfl, rfl, h.pids.lt hused⟩

theorem Asleep.fork (h : Asleep s) (hp : (s.proc p).state = RUNNING) : Asleep (fork s p) := by
  unfold ExitWait.fork
  split
  · exact h
  rename_i np hfind
  have hnp : (s.proc np).state = UNUSED := by simpa using List.find?_some hfind
  have hne : p ≠ np := by
    rintro rfl
    cases hp.symm.trans hnp
  exact (edit_goto (s := s) hne _ _ _).asleep h hp ⟨nofun, nofun⟩

section Child

/-! A process that has a slot for its child. -/

variable (h : Core s) (hchild : (s.proc p).pc.child = some np)

include h hchild

theorem Core.embryo : (s.proc np).state = EMBRYO := (embryo_iff (h.forks.busy hchild).2.1).mpr rfl

theorem Core.used_child : s.used np := fun hu => nomatch (h.embryo hchild).symm.trans hu

/-- No other process makes it. -/
theorem Core.only (q : PIdx) (hq : q ≠ p) : (s.proc q).pc.child ≠ some np := fun hnp =>
  hq (h.forks.one hnp hchild)

theorem Core.childless : (s.proc np).pc.child = none :=
  h.forks.child_eq_none (by rw [h.embryo hchild]; exact nofun)

/-- A step that keeps the pid of the slot, if that is still in use, keeps the pids apart. -/
theorem Core.edit_pids {x : Proc} {pc : Pc} (hedit : Edit s p np x pc s')
    (hx : x.pid = (s.proc np).pid) (hnext : s'.nextpid = s.nextpid) : Pids s' := by
  refine h.pids.congr (fun q hq => ?_) hnext hedit.pids
  by_cases hqn : q = np
  · subst hqn
    refine ⟨h.used_child hchild, ?_⟩
    rw [hedit.child, hx]
  · exact ⟨mt (Proc.unused_of_kin (hedit.kin hqn)).mpr hq, Proc.pid_of_kin (hedit.kin hqn)⟩

end Child

theorem Core.forkFails (h : Core s) (hpc : (s.proc p).pc = .forkCopy np) :
    Core (forkFails s p np) := by
  have hchild : (s.proc p).pc.child = some np := by rw [hpc]; rfl
  have hparent := h.forks.copy hpc
  have hedit := forkFails_edit (s := s) (h.forks.ne hchild)
  refine ⟨hedit.rooted_outside h.rooted (fun hatt => hatt.2 ⟨h.embryo hchild, hparent⟩)
    (fun hatt => hatt.1 rfl) hparent, h.edit_pids hchild hedit rfl rfl, ?_,
      hedit.exits h.exits nofun id⟩
  exact hedit.forks h.forks (h.childless hchild) (h.only hchild) nofun nofun nofun

theorem Core.forkAttaches (h : Core s) (hp : (s.proc p).state = RUNNING)
    (hpc : (s.proc p).pc = .forkCopy np) : Core (forkAttaches s p np) := by
  have hchild : (s.proc p).pc.child = some np := by rw [hpc]; rfl
  have hparent := h.forks.copy hpc
  obtain ⟨hrun, hembryo, hlt⟩ := h.forks.busy hchild
  have hedit := forkAttaches_edit (s := s) (h.forks.ne hchild)
  obtain ⟨hmem, hdead⟩ := alive hp
  have hpid : (s.proc np).pid = ((ExitWait.forkAttaches s p np).proc np).pid := by rw [hedit.child]
  have hroot : (s.proc s.initproc).pid < (s.proc np).pid := by
    by_cases hinit : p = s.initproc
    · rwa [← hinit]
    · exact (h.rooted.first p hmem hinit).trans hlt
  refine ⟨?_, h.edit_pids hchild hedit rfl rfl, ?_, hedit.exits h.exits nofun id⟩
  · refine h.rooted.join (q := np) (p := p)
      (fun hatt => hatt.2 ⟨h.embryo hchild, hparent⟩) hmem hdead
      (fun r hr => agreeAt (hedit.kin hr)) ?_ ?_ (hroot.trans_eq hpid) (hlt.trans_eq hpid)
    · show ((ExitWait.forkAttaches s p np).proc np).parent = some p
      rw [hedit.child]
    · show ((ExitWait.forkAttaches s p np).proc np).attached
      rw [hedit.child]
      exact ⟨h.used_child hchild, nofun⟩
  · refine hedit.forks h.forks (h.childless hchild) (h.only hchild) (fun q hq => ?_) nofun fun _ =>
      rfl
    exact ⟨(Option.some.inj hq).symm, hrun, hembryo, hlt⟩

theorem Core.forkEnds (h : Core s) (hpc : (s.proc p).pc = .forkTail np) :
    Core (forkEnds s p np) := by
  have hchild : (s.proc p).pc.child = some np := by rw [hpc]; rfl
  have hparent := h.forks.tail hpc
  have hedit := forkEnds_edit (s := s) (h.forks.ne hchild)
  refine ⟨?_, h.edit_pids hchild hedit rfl rfl, ?_, hedit.exits h.exits nofun id⟩
  · have hself : s.family.AgreeAt (ExitWait.forkEnds s p np).family np := by
      simp only [State.family]
      refine ⟨?_, ?_, ?_, ?_⟩ <;> simp only [hedit.child]
      · exact iff_of_true ⟨nofun, fun hnone => nomatch hnone.1⟩
          ⟨h.used_child hchild, fun hnone => nomatch hnone.2.symm.trans hparent⟩
      · exact iff_of_false nofun fun hz => nomatch (h.embryo hchild).symm.trans hz
    have hagree : ∀ q, s.family.AgreeAt (ExitWait.forkEnds s p np).family q := by
      intro q
      by_cases hq : q = np
      · exact hq ▸ hself
      · exact agreeAt (hedit.kin hq)
    refine h.rooted.congr (fun q _ => hagree q) fun q hq => ?_
    exact ⟨mt (hagree q).mem.mp hq, (hagree q).parent.trans (h.rooted.outside q hq)⟩
  · exact hedit.forks h.forks (h.childless hchild) (h.only hchild) nofun nofun nofun

/-! ## Exit -/

/-- What the section of `exit` does. -/
structure Exited (s : State) (p : PIdx) (s' : State) : Prop where
  kin : ∀ q, (s'.proc q).kin = (if q = p then ZOMBIE else (s.proc q).state.awake, (s.proc q).pid,
    if (s.proc q).parent = some p then some s.initproc else (s.proc q).parent)
  pc : ∀ q, (s'.proc q).pc = (s.proc q).pc
  chan : ∀ q, (s'.proc q).chan = (s.proc q).chan
  /-- The parent of the caller does not sleep, and neither does `init` when it gets a zombie. -/
  asleep : ∀ q, (s'.proc q).state = SLEEPING → (s.proc q).state = SLEEPING ∧
    (s.proc q).chan ≠ (s.proc p).parent.map .proc ∧
    ∀ r, (s.proc r).parent = some p → (s.proc r).state = ZOMBIE →
    (s.proc q).chan ≠ some (.proc s.initproc)
  initproc : s'.initproc = s.initproc
  nextpid : s'.nextpid = s.nextpid
  returned : s'.returned = s.returned

theorem reparent_kin (s : State) (p q : PIdx) : ((reparent s p).proc q).kin =
    ((s.proc q).state.awake, (s.proc q).pid,
      if (s.proc q).parent = some p then some s.initproc else (s.proc q).parent) := by
  unfold reparent
  dsimp only
  split_ifs <;> rfl

/-- A field that is not the parent is the same. -/
theorem reparent_field {α : Type*} (f : Proc → α) (hf : ∀ x o, f { x with parent := o } = f x)
    (s : State) (p q : PIdx) : f ((reparent s p).proc q) = f (s.proc q) := by
  unfold reparent
  dsimp only
  split_ifs
  · exact hf _ _
  · rfl

theorem exitEnds_exited (s : State) (p : PIdx) : Exited s p (exitEnds s p) := by
  unfold exitEnds
  dsimp only
  set s1 := wakeup1 s ((s.proc p).parent.map .proc) with hs1
  have hkin1 : ∀ q, (s1.proc q).kin = (s.proc q).kin := fun q => wake_kin _ _
  have hstate : ∀ q, ((reparent s1 p).proc q).state = (s1.proc q).state :=
    reparent_field Proc.state (fun _ _ => rfl) s1 p
  have hpc2 : ∀ q, ((reparent s1 p).proc q).pc = (s.proc q).pc := fun q =>
    (reparent_field Proc.pc (fun _ _ => rfl) s1 p q).trans (wake_pc _ _)
  have hchan2 : ∀ q, ((reparent s1 p).proc q).chan = (s.proc q).chan := fun q =>
    (reparent_field Proc.chan (fun _ _ => rfl) s1 p q).trans (wake_chan _ _)
  have hkin2 : ∀ q, ((reparent s1 p).proc q).kin = ((s.proc q).state.awake, (s.proc q).pid,
      if (s.proc q).parent = some p then some s.initproc else (s.proc q).parent) := fun q => by
    rw [reparent_kin, Proc.awake_of_kin (hkin1 q), Proc.pid_of_kin (hkin1 q),
      Proc.parent_of_kin (hkin1 q)]
    rfl
  have hsleep2 : ∀ q, ((reparent s1 p).proc q).state = SLEEPING → (s.proc q).state = SLEEPING ∧
      (s.proc q).chan ≠ (s.proc p).parent.map .proc := fun q hq =>
    wake_asleep _ _ ((hstate q).symm.trans hq)
  -- The last two steps, from a state `s3` in which `init` may have been woken.
  have hlast : ∀ s3 : State, (∀ q, (s3.proc q).kin = ((reparent s1 p).proc q).kin) →
      (∀ q, (s3.proc q).pc = ((reparent s1 p).proc q).pc) →
      (∀ q, (s3.proc q).chan = ((reparent s1 p).proc q).chan) →
      (∀ q, (s3.proc q).state = SLEEPING → ((reparent s1 p).proc q).state = SLEEPING ∧
        ∀ r, (s.proc r).parent = some p → (s.proc r).state = ZOMBIE →
          (s.proc q).chan ≠ some (.proc s.initproc)) →
      s3.initproc = s.initproc → s3.nextpid = s.nextpid → s3.returned = s.returned →
      Exited s p (s3.set p { s3.proc p with state := ZOMBIE }) := by
    intro s3 hkin hpc hchan hsleep hinit hnext hret
    refine ⟨fun q => ?_, fun q => ?_, fun q => ?_, fun q hq => ?_, hinit, hnext, hret⟩
    · have hq := (hkin q).trans (hkin2 q)
      by_cases hqp : q = p
      · subst hqp
        rw [set_self, if_pos rfl]
        simp only [Proc.kin, Prod.mk.injEq] at hq ⊢
        exact ⟨rfl, hq.2⟩
      · rw [set_of_ne _ _ hqp, if_neg hqp]
        exact hq
    · exact (set_field Proc.pc (by rfl) q).trans ((hpc q).trans (hpc2 q))
    · exact (set_field Proc.chan (by rfl) q).trans ((hchan q).trans (hchan2 q))
    · have hqp : q ≠ p := by
        rintro rfl
        rw [set_self] at hq
        cases hq
      rw [set_of_ne _ _ hqp] at hq
      obtain ⟨hq, hzombie⟩ := hsleep q hq
      exact ⟨(hsleep2 q hq).1, (hsleep2 q hq).2, hzombie⟩
  split_ifs with horphan
  · refine hlast _ (fun q => wake_kin _ _) (fun q => wake_pc _ _) (fun q => wake_chan _ _)
      (fun q hq => ?_)
      rfl rfl rfl
    obtain ⟨hq, hchan⟩ := wake_asleep _ _ hq
    exact ⟨hq, fun _ _ _ hinit => hchan ((hchan2 q).trans hinit)⟩
  · refine hlast _ (fun q => rfl) (fun q => rfl) (fun q => rfl)
      (fun q hq => ⟨hq, fun r hr hz => ?_⟩)
      rfl rfl rfl
    refine absurd (List.any_eq_true.mpr ⟨r, List.mem_finRange r, decide_eq_true ⟨?_, ?_⟩⟩) horphan
    · exact (Proc.parent_of_kin (hkin1 r)).trans hr
    · exact (Proc.zombie_of_kin (hkin1 r)).mpr hz

namespace Exited

variable (h : Exited s p s')

include h

theorem awake (hq : q ≠ p) : (s'.proc q).state.awake = (s.proc q).state.awake :=
  (congrArg Prod.fst (h.kin q)).trans (if_neg hq)

theorem self : (s'.proc p).state = ZOMBIE :=
  (ProcState.zombie_iff ((congrArg Prod.fst (h.kin p)).trans (if_pos rfl))).mpr rfl

theorem pid (q : PIdx) : (s'.proc q).pid = (s.proc q).pid := congrArg (·.2.1) (h.kin q)

theorem parent (q : PIdx) : (s'.proc q).parent =
    if (s.proc q).parent = some p then some s.initproc else (s.proc q).parent :=
  congrArg (·.2.2) (h.kin q)

theorem zombie_iff (q : PIdx) : (s'.proc q).state = ZOMBIE ↔ q = p ∨ (s.proc q).state = ZOMBIE := by
  by_cases hq : q = p
  · exact iff_of_true (hq ▸ h.self) (.inl hq)
  · rw [ProcState.zombie_iff (h.awake hq), or_iff_right hq]

theorem core (hc : Core s) (hp : (s.proc p).state = RUNNING) (hpc : (s.proc p).pc = .exiting) :
    Core s' := by
  have hpi := hc.exits hpc
  have hused : ∀ q, s'.used q ↔ s.used q := by
    intro q
    by_cases hq : q = p
    · subst hq
      refine iff_of_true ?_ ?_
      · rw [State.used, h.self]
        exact nofun
      · rw [State.used, hp]
        exact nofun
    · exact not_congr (ProcState.unused_iff (h.awake hq))
  have hmem : ∀ q, (s'.proc q).attached ↔ (s.proc q).attached := by
    intro q
    refine and_congr (hused q) (not_congr (and_congr ?_ ?_))
    · by_cases hq : q = p
      · subst hq
        rw [h.self, hp]
        exact iff_of_false nofun nofun
      · exact embryo_iff (h.awake hq)
    · rw [h.parent]
      split_ifs with hpar
      · exact iff_of_false nofun fun hnone => nomatch hpar.symm.trans hnone
      · exact Iff.rfl
  refine ⟨?_, hc.pids.congr (fun q hq => ⟨(hused q).mp hq, h.pid q⟩) h.nextpid
    (by rw [State.pids, h.returned, State.pids]), hc.forks.congr fun q np hq => ?_,
      fun {q} hq => ?_⟩
  · rw [h.initproc]
    exact hc.rooted.pass hpi hmem h.pid h.zombie_iff h.parent
  · -- A process in `fork` is not the caller, and neither is the parent of its child.
    rw [h.pc] at hq
    have hqp : q ≠ p := by
      rintro rfl
      rw [hpc] at hq
      cases hq
    have hnp : np ≠ p := by
      rintro rfl
      cases hp.symm.trans (hc.embryo hq)
    have hparent : (s.proc np).parent ≠ some p := by
      cases hpc' : (s.proc q).pc with
      | forkCopy r =>
        rw [hpc'] at hq
        obtain rfl := Option.some.inj hq
        rw [hc.forks.copy hpc']
        exact nofun
      | forkTail r =>
        rw [hpc'] at hq
        obtain rfl := Option.some.inj hq
        rw [hc.forks.tail hpc']
        exact fun heq => hqp (Option.some.inj heq)
      | user | exiting | waiting =>
        rw [hpc'] at hq
        cases hq
    refine ⟨h.pc q, h.awake hqp, h.pid q, ?_⟩
    rw [h.kin np, if_neg hnp, if_neg hparent]
    rfl
  · rw [h.pc] at hq
    rw [h.initproc]
    exact hc.exits hq

/-- A process that sleeps in `wait` has not been given a zombie. -/
theorem noZombie (ha : Asleep s) (hc : Core s) (hp : (s.proc p).state = RUNNING)
    (hpc : (s.proc p).pc = .exiting) : Asleep s' := by
  have hself : (s.proc p).parent ≠ some p := by
    intro heq
    obtain ⟨r, hr, -, -, hlt⟩ := hc.rooted.parent p (alive hp).1 (hc.exits hpc)
    obtain rfl := Option.some.inj (heq.symm.trans hr)
    exact lt_irrefl _ hlt
  intro q hq
  obtain ⟨hsleep, hparent, hinit⟩ := h.asleep q hq.1
  obtain ⟨hchan, hzombie⟩ := ha q ⟨hsleep, (h.pc q).symm.trans hq.2⟩
  refine ⟨(h.chan q).trans hchan, fun r hr hz => ?_⟩
  rw [hchan] at hparent hinit
  rw [h.parent] at hr
  obtain rfl | hz := (h.zombie_iff r).mp hz
  · -- The caller itself is the zombie: it has woken its parent.
    rw [if_neg hself] at hr
    exact hparent (by rw [hr]; rfl)
  · split_ifs at hr with hpassed
    · exact hinit r hpassed hz (by rw [← Option.some.inj hr])
    · exact hzombie r hr hz

end Exited

/-! ## Wait -/

/-- **The outcomes of `wait`.** The pid of a zombie child; or -1 to a process that has no child or
is killed; or the process sleeps, with no zombie among its children. -/
theorem wait_cases (s : State) (p : PIdx) :
    (∃ q, (s.proc q).parent = some p ∧ (s.proc q).state = ZOMBIE ∧
      wait s p = returns (s.set q (s.proc q).freed) p (s.proc q).pid) ∨
    (((∀ q, (s.proc q).parent ≠ some p) ∨ (s.proc p).killed = true) ∧ wait s p = returns s p (-1)) ∨
    ((∀ q, (s.proc q).parent = some p → (s.proc q).state ≠ ZOMBIE) ∧
      wait s p = s.set p
      { s.proc p with state := SLEEPING, chan := some (.proc p), pc := .waiting }) := by
  unfold wait
  split
  · rename_i q hfind
    have hq : (s.proc q).parent = some p ∧ (s.proc q).state = ZOMBIE := by
      simpa using List.find?_some hfind
    exact .inl ⟨q, hq.1, hq.2, rfl⟩
  · rename_i hfind
    by_cases hgive : (∀ q, (s.proc q).parent ≠ some p) ∨ (s.proc p).killed = true
    · exact .inr (.inl ⟨hgive, if_pos hgive⟩)
    · refine .inr (.inr ⟨fun q hq hz => ?_, if_neg hgive⟩)
      simpa [hq, hz] using List.find?_eq_none.mp hfind q (List.mem_finRange q)

theorem pids_returns (s : State) (p : PIdx) (r : Int) :
    (returns s p r).pids = if r = -1 then s.pids else r :: s.pids := by
  unfold returns State.pids
  split_ifs with hr <;> simp [hr]

theorem light_set {x : Proc} (hkin : x.kin = (s.proc p).kin)
    (hpc : x.pc = (s.proc p).pc ∨ x.pc.child = none)
    (hexit : x.pc = .exiting → (s.proc p).pc = .exiting ∨ p ≠ s.initproc) :
    Light s (s.set p x) where
  kin := set_field Proc.kin hkin
  pc q := by
    by_cases hq : q = p
    · rwa [hq, set_self]
    · rw [set_of_ne _ _ hq]
      exact .inl rfl
  initproc := rfl
  nextpid := rfl
  pids := rfl
  exits q hq := by
    by_cases hqp : q = p
    · rw [hqp] at hq ⊢
      rw [set_self] at hq
      exact hexit hq
    · rw [set_of_ne _ _ hqp] at hq
      exact .inl hq

theorem light_returns (s : State) (p : PIdx) : Light s (returns s p (-1)) :=
  have hgoto : Light s (s.goto p .user) := light_set rfl (.inr rfl) nofun
  ⟨hgoto.kin, hgoto.pc, rfl, rfl, (pids_returns s p (-1)).trans (if_pos rfl), hgoto.exits⟩

theorem Asleep.set (h : Asleep s) {x : Proc} (hkin : x.kin = (s.proc p).kin)
    (hx : x.state = SLEEPING → x.pc = .waiting →
      (s.asleep p ∧ x.chan = (s.proc p).chan) ∨ (x.chan = some (.proc p) ∧
        ∀ q, (s.proc q).parent = some p → (s.proc q).state ≠ ZOMBIE)) : Asleep (s.set p x) := by
  have hkins : ∀ q, ((s.set p x).proc q).kin = (s.proc q).kin := set_field Proc.kin hkin
  intro q hq
  have hold : ((s.set p x).proc q).chan = some (.proc q) ∧
      ∀ r, (s.proc r).parent = some q → (s.proc r).state ≠ ZOMBIE := by
    by_cases hqp : q = p
    · subst hqp
      rw [State.asleep, set_self] at hq
      rw [set_self]
      obtain ⟨hasleep, hchan⟩ | hnew := hx hq.1 hq.2
      · exact ⟨hchan.trans (h q hasleep).1, (h q hasleep).2⟩
      · exact hnew
    · rw [State.asleep, set_of_ne _ _ hqp] at hq
      rw [set_of_ne _ _ hqp]
      exact h q hq
  refine ⟨hold.1, fun r hr hz => hold.2 r ?_ ?_⟩
  · rwa [← Proc.parent_of_kin (hkins r)]
  · exact (Proc.zombie_of_kin (hkins r)).mp hz

section Reap

/-! The parent of a zombie sees it. -/

variable (hp : (s.proc p).state = RUNNING) (hq : (s.proc q).state = ZOMBIE)

include hp hq

/-- The state after `wait` has returned the pid of `q`. -/
theorem reap_proc :
    ((returns (s.set q (s.proc q).freed) p (s.proc q).pid).proc q = (s.proc q).freed) ∧
    (returns (s.set q (s.proc q).freed) p (s.proc q).pid).proc p = { s.proc p with pc := .user } ∧
    ∀ r, r ≠ q → r ≠ p → (returns (s.set q (s.proc q).freed) p (s.proc q).pid).proc r =
    s.proc r := by
  have hne : p ≠ q := by
    rintro rfl
    cases hp.symm.trans hq
  have hedit := edit_goto (s := s) hne (s.proc q).freed .user s.nextpid
  exact ⟨hedit.child, hedit.self, hedit.others⟩

theorem Core.reap (h : Core s) : Core (returns (s.set q (s.proc q).freed) p (s.proc q).pid) := by
  obtain ⟨hfreed, hself, hothers⟩ := reap_proc hp hq
  have hpids : (returns (s.set q (s.proc q).freed) p (s.proc q).pid).pids =
      ((s.proc q).pid : Int) :: s.pids := (pids_returns _ p _).trans (if_neg (by omega))
  generalize hs' : returns (s.set q (s.proc q).freed) p (s.proc q).pid =
    s' at hfreed hself hothers hpids ⊢
  have hinit : s'.initproc = s.initproc := by rw [← hs']; rfl
  have hnext : s'.nextpid = s.nextpid := by rw [← hs']; rfl
  have hkin : ∀ r, r ≠ q → (s'.proc r).kin = (s.proc r).kin := by
    intro r hr
    by_cases hrp : r = p
    · rw [hrp, hself]
      rfl
    · rw [hothers r hr hrp]
  refine ⟨?_, h.pids.reap (q := q) ?_ ?_ (fun r hr hused => ?_) hnext hpids,
    h.forks.congr fun r np hr => ?_, fun {r} hr => ?_⟩
  · rw [hinit]
    refine h.rooted.remove (q := q) hq (fun r hr => agreeAt (hkin r hr)) ?_ ?_
    · show ¬ (s'.proc q).attached
      rw [hfreed]
      exact fun hatt => hatt.1 rfl
    · show (s'.proc q).parent = none
      rw [hfreed]
      rfl
  · rw [State.used, hq]
    exact nofun
  · rw [State.used, hfreed]
    exact fun hne => hne rfl
  · exact ⟨mt (Proc.unused_of_kin (hkin r hr)).mpr hused, Proc.pid_of_kin (hkin r hr)⟩
  · have hrp : r ≠ p := by
      rintro rfl
      rw [hself] at hr
      cases hr
    have hrq : r ≠ q := by
      rintro rfl
      have hnone : (s.proc r).pc.child = none := h.forks.child_eq_none (by rw [hq]; exact nofun)
      rw [hfreed] at hr
      cases hnone.symm.trans hr
    have hsame := hothers r hrq hrp
    rw [hsame] at hr ⊢
    refine ⟨rfl, rfl, rfl, hkin np ?_⟩
    rintro rfl
    cases hq.symm.trans (h.embryo hr)
  · rw [hinit]
    by_cases hrp : r = p
    · rw [hrp, hself] at hr
      cases hr
    · by_cases hrq : r = q
      · rw [hrq, hfreed] at hr
        exact hrq ▸ h.exits hr
      · rw [hothers r hrq hrp] at hr
        exact h.exits hr

theorem Asleep.reap (h : Asleep s) :
    Asleep (returns (s.set q (s.proc q).freed) p (s.proc q).pid) := by
  obtain ⟨hfreed, hself, hothers⟩ := reap_proc hp hq
  generalize returns (s.set q (s.proc q).freed) p (s.proc q).pid = s' at hfreed hself hothers ⊢
  have hother : ∀ {r}, (s'.proc r).state = SLEEPING ∨ (s'.proc r).state = ZOMBIE →
      s'.proc r = s.proc r := by
    intro r hr
    refine hothers r ?_ ?_
    · rintro rfl
      rw [hfreed] at hr
      rcases hr with hr | hr <;> cases hr
    · rintro rfl
      rw [hself, hp] at hr
      rcases hr with hr | hr <;> cases hr
  intro r hr
  have hsame := hother (.inl hr.1)
  rw [State.asleep, hsame] at hr
  rw [hsame]
  refine ⟨(h r hr).1, fun t ht hz => ?_⟩
  rw [hother (.inr hz)] at ht hz
  exact (h r hr).2 t ht hz

end Reap

/-! ## Runs -/

/-- What holds in every run. -/
structure Inv (s : State) : Prop where
  core : Core s
  asleep : Asleep s

/-- A change of one slot that others do not see. -/
theorem Inv.set (h : Inv s) {x : Proc} (hkin : x.kin = (s.proc p).kin)
    (hpc : x.pc = (s.proc p).pc ∨ x.pc.child = none)
    (hexit : x.pc = .exiting → (s.proc p).pc = .exiting ∨ p ≠ s.initproc)
    (hx : x.state = SLEEPING → x.pc = .waiting →
      (s.asleep p ∧ x.chan = (s.proc p).chan) ∨ (x.chan = some (.proc p) ∧
        ∀ q, (s.proc q).parent = some p → (s.proc q).state ≠ ZOMBIE)) : Inv (s.set p x) :=
  ⟨h.core.light (light_set hkin hpc hexit), h.asleep.set hkin hx⟩

theorem Inv.wait (h : Inv s) (hp : (s.proc p).state = RUNNING) : Inv (wait s p) := by
  obtain ⟨q, -, hq, heq⟩ | ⟨-, heq⟩ | ⟨hzombie, heq⟩ := wait_cases s p
  · rw [heq]
    exact ⟨h.core.reap hp hq, h.asleep.reap hp hq⟩
  · rw [heq]
    refine ⟨h.core.light (light_returns s p), h.asleep.light (light_returns s p).kin fun q hq => ?_⟩
    have hq' : (s.goto p .user).asleep q := hq
    have hqp : q ≠ p := by
      rintro rfl
      rw [State.asleep, State.goto, set_self] at hq'
      cases hq'.2
    show _ ∧ ((s.goto p .user).proc q).chan = _
    rw [State.asleep, State.goto, set_of_ne _ _ hqp] at hq'
    rw [State.goto, set_of_ne _ _ hqp]
    exact ⟨hq', rfl⟩
  · rw [heq]
    refine h.set ?_ (.inr rfl) nofun fun _ _ => .inr ⟨rfl, hzombie⟩
    simp only [Proc.kin, hp, ProcState.awake]

theorem Inv.schedule (h : Inv s) (hp : (s.proc p).state = RUNNABLE) : Inv (schedule s p) := by
  have hset : Inv (s.set p { s.proc p with state := RUNNING, chan := none }) := by
    refine h.set ?_ (.inl rfl) .inl nofun
    simp only [Proc.kin, hp, ProcState.awake]
  unfold ExitWait.schedule
  dsimp only
  split_ifs
  · exact hset.wait (by rw [set_self])
  · exact hset

theorem Inv.run {memory : Bool} (h : Inv s) (hp : (s.proc p).state = RUNNING)
    (hrun : run s p memory = some s') : Inv s' := by
  unfold ExitWait.run at hrun
  cases hpc : (s.proc p).pc with
  | user | waiting =>
    rw [hpc] at hrun
    cases hrun
  | forkCopy np =>
    rw [hpc] at hrun
    cases hrun
    have hchild : (s.proc p).pc.child = some np := by rw [hpc]; rfl
    have hne := h.core.forks.ne hchild
    split_ifs
    · refine ⟨h.core.forkAttaches hp hpc, (forkAttaches_edit hne).asleep h.asleep hp ?_⟩
      rw [h.core.embryo hchild]
      exact ⟨nofun, nofun⟩
    · exact ⟨h.core.forkFails hpc, (forkFails_edit hne).asleep h.asleep hp ⟨nofun, nofun⟩⟩
  | forkTail np =>
    rw [hpc] at hrun
    cases hrun
    have hchild : (s.proc p).pc.child = some np := by rw [hpc]; rfl
    have hne := h.core.forks.ne hchild
    exact ⟨h.core.forkEnds hpc, (forkEnds_edit hne).asleep h.asleep hp ⟨nofun, nofun⟩⟩
  | exiting =>
    rw [hpc] at hrun
    cases hrun
    have hexited := exitEnds_exited s p
    exact ⟨hexited.core h.core hp hpc, hexited.noZombie h.asleep h.core hp hpc⟩

theorem Inv.wakeup1 (h : Inv s) (chan : Option Chan) : Inv (wakeup1 s chan) := by
  have hkin : ∀ q, ((ExitWait.wakeup1 s chan).proc q).kin = (s.proc q).kin := fun q => wake_kin _ _
  have hpc : ∀ q, ((ExitWait.wakeup1 s chan).proc q).pc = (s.proc q).pc := fun q => wake_pc _ _
  refine ⟨h.core.light
    ⟨hkin, fun q => .inl (hpc q), rfl, rfl, rfl, fun q hq => .inl ((hpc q).symm.trans hq)⟩,
    h.asleep.light hkin fun q hq => ⟨⟨?_, (hpc q).symm.trans hq.2⟩, wake_chan _ _⟩⟩
  exact (wake_asleep _ _ hq.1).1

theorem Inv.step {a : Act} (h : Inv s) (hstep : step s a = some s') : Inv s' := by
  cases a with
  | fork p =>
    obtain ⟨⟨hp, -⟩, hs⟩ := Option.ite_none_right_eq_some.mp hstep
    cases hs
    exact ⟨h.core.fork hp, h.asleep.fork hp⟩
  | exit p =>
    obtain ⟨⟨hp, -, hinit⟩, hs⟩ := Option.ite_none_right_eq_some.mp hstep
    cases hs
    refine h.set rfl (.inr rfl) (fun _ => .inr hinit) fun hsleep _ => ?_
    cases hp.symm.trans hsleep
  | wait p =>
    obtain ⟨⟨hp, -⟩, hs⟩ := Option.ite_none_right_eq_some.mp hstep
    cases hs
    exact h.wait hp
  | run p memory =>
    obtain ⟨hp, hs⟩ := Option.ite_none_right_eq_some.mp hstep
    exact h.run hp hs
  | schedule p =>
    obtain ⟨hp, hs⟩ := Option.ite_none_right_eq_some.mp hstep
    cases hs
    exact h.schedule hp
  | yield p =>
    obtain ⟨hp, hs⟩ := Option.ite_none_right_eq_some.mp hstep
    cases hs
    refine h.set ?_ (.inl rfl) .inl nofun
    simp only [Proc.kin, hp, ProcState.awake]
  | sleep p chan =>
    obtain ⟨⟨hp, hpc⟩, hs⟩ := Option.ite_none_right_eq_some.mp hstep
    cases hs
    refine h.set ?_ (.inl rfl) .inl fun _ hwait => ?_
    · simp only [Proc.kin, hp, ProcState.awake]
    · rcases hpc with hpc | hpc <;> cases hpc.symm.trans hwait
  | wakeup chan =>
    cases hstep
    exact h.wakeup1 (some chan)
  | kill q =>
    cases hstep
    refine h.set ?_ (.inl rfl) .inl fun hsleep _ => ?_
    · simp only [Proc.kin]
      split_ifs with hq
      · rw [hq]
        rfl
      · rfl
    · dsimp only at hsleep
      split_ifs at hsleep with hq
      exact absurd hsleep hq

theorem inv_start : Inv start := by
  have hstate : ∀ q, (start.proc q).state = if q = 0 then RUNNABLE else UNUSED := fun _ => rfl
  have hpc : ∀ q, (start.proc q).pc = .user := fun _ => rfl
  have hused : ∀ q, start.used q → q = 0 := by
    intro q hq
    by_contra hne
    exact hq ((hstate q).trans (if_neg hne))
  refine ⟨⟨⟨?_, ?_, rfl, fun q hq hne => ?_, fun q hq hne => ?_, fun _ _ => rfl⟩,
    ⟨fun {q} hq => ?_, fun {q r} hq hr _ => ?_, nofun, nofun, List.nodup_nil⟩,
    ⟨nofun, nofun, nofun, nofun⟩, nofun⟩,
    fun q hq => ?_⟩
  · exact ⟨nofun, fun hembryo => nomatch hembryo.1⟩
  · exact nofun
  · exact absurd (hused q hq.1) hne
  · exact absurd (hused q hq.1) hne
  · rw [hused q hq]
    decide
  · rw [hused q hq, hused r hr]
  · cases (hpc q).symm.trans hq.2

/-! ## What `wait` returns -/

theorem Answer.wait (h : (wait s p).returned = (q, r') :: s.returned) : s.Answer q r' := by
  obtain ⟨t, hparent, hzombie, heq⟩ | ⟨hgive, heq⟩ | ⟨-, heq⟩ := wait_cases s p
  · rw [heq] at h
    have hhead : (p, ((s.proc t).pid : Int)) = (q, r') := (List.cons.inj h).1
    cases hhead
    exact .inr ⟨t, hparent, hzombie, rfl⟩
  · rw [heq] at h
    have hhead : (p, (-1 : Int)) = (q, r') := (List.cons.inj h).1
    cases hhead
    exact .inl ⟨rfl, hgive⟩
  · rw [heq] at h
    exact absurd h.symm (List.cons_ne_self _ _)

theorem Answer.schedule (hp : (s.proc p).state = RUNNABLE)
    (h : (schedule s p).returned = (q, r') :: s.returned) : s.Answer q r' := by
  let s1 : State := s.set p { s.proc p with state := RUNNING, chan := none }
  have hkin : ∀ t, (s1.proc t).kin = (s.proc t).kin :=
    set_field Proc.kin (by simp only [Proc.kin, hp, ProcState.awake])
  have hkilled : ∀ t, (s1.proc t).killed = (s.proc t).killed := set_field Proc.killed rfl
  have hanswer : s1.Answer q r' := by
    unfold ExitWait.schedule at h
    dsimp only at h
    split_ifs at h
    · exact Answer.wait h
    · exact absurd h.symm (List.cons_ne_self _ _)
  obtain ⟨hr, hgive⟩ | ⟨t, hparent, hzombie, hpid⟩ := hanswer
  · refine .inl ⟨hr, hgive.imp (fun hnone t => ?_) fun hk => (hkilled q).symm.trans hk⟩
    rw [← Proc.parent_of_kin (hkin t)]
    exact hnone t
  · refine .inr ⟨t, (Proc.parent_of_kin (hkin t)).symm.trans hparent,
      (Proc.zombie_of_kin (hkin t)).mp hzombie, ?_⟩
    rw [← Proc.pid_of_kin (hkin t)]
    exact hpid

theorem returned_fork (s : State) (p : PIdx) : (fork s p).returned = s.returned := by
  unfold fork
  split <;> rfl

theorem returned_run {memory : Bool} (h : run s p memory = some s') : s'.returned = s.returned := by
  unfold run at h
  split at h
  · cases h
    split_ifs <;> rfl
  · cases h
    rfl
  · cases h
    exact (exitEnds_exited s p).returned
  · cases h
  · cases h

theorem Answer.step {a : Act} (hstep : step s a = some s')
    (h : s'.returned = (q, r') :: s.returned) : s.Answer q r' := by
  have hsame : s'.returned ≠ s.returned := fun heq => List.cons_ne_self _ _ (h.symm.trans heq)
  cases a with
  | wait p =>
    obtain ⟨-, hs⟩ := Option.ite_none_right_eq_some.mp hstep
    cases hs
    exact Answer.wait h
  | schedule p =>
    obtain ⟨hp, hs⟩ := Option.ite_none_right_eq_some.mp hstep
    cases hs
    exact Answer.schedule hp h
  | fork p =>
    obtain ⟨-, hs⟩ := Option.ite_none_right_eq_some.mp hstep
    cases hs
    exact absurd (returned_fork s p) hsame
  | run p memory =>
    obtain ⟨-, hs⟩ := Option.ite_none_right_eq_some.mp hstep
    exact absurd (returned_run hs) hsame
  | exit p | yield p | sleep p chan =>
    obtain ⟨-, hs⟩ := Option.ite_none_right_eq_some.mp hstep
    cases hs
    exact absurd rfl hsame
  | wakeup chan | kill t =>
    cases hstep
    exact absurd rfl hsame

/-- **The protocol of `exit` and `wait`.** No pid has been returned twice, no process sleeps in
`wait` with a zombie child, every process except `init` has a parent that is in use and no zombie,
and the next value that `wait` returns is -1 only to a process without children or killed, and
otherwise the pid of a zombie, to its parent. -/
theorem exit_wait_protocol (h : machine.Reachable s) : Protocol s := by
  have hinv : Inv s := h.invariant (fun s hs => hs ▸ inv_start) fun _ _ _ hinv _ hstep =>
    hinv.step hstep
  refine ⟨hinv.core.pids.nodup, fun p q hp hq => (hinv.asleep p hp).2 q hq, fun q hq hne => ?_,
    fun a s' hstep p r hr => Answer.step hstep hr⟩
  obtain ⟨r, hr, hmem, hdead, -⟩ := hinv.core.rooted.parent q hq hne
  exact ⟨r, hr, hmem.1, hdead⟩

set_option maxRecDepth 100000 in
/-- The first process has a child that has a child. It sleeps in `wait` when its child exits, is
woken and gets the pid; the grandchild is its own then, and exits too. -/
theorem exit_wait_protocol_family : ∃ s, machine.Reachable s ∧ s.pids = [3, 2] ∧ Protocol s := by
  have hrun : (machine.exec start
      [.schedule 0, .fork 0, .run 0 true, .run 0 true, .schedule 1, .fork 1, .run 1 true,
        .run 1 true, .wait 0,
        .exit 1, .run 1 true, .schedule 0, .schedule 2, .exit 2, .wait 0, .run 2 true,
        .schedule 0]).any
      (fun s => s.pids = [3, 2]) = true := by
    decide +kernel
  obtain ⟨s, hs, hP⟩ := (Option.any_eq_true _ _).mp hrun
  have hreach := Machine.reachable_of_exec (M := machine) rfl _ hs
  exact ⟨s, hreach, of_decide_eq_true hP, exit_wait_protocol hreach⟩

end Dockv6.ExitWait
