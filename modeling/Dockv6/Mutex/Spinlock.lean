import Dockv6.Mutex.Refcount

/-!
# The order of `ptable.lock` and `mtable.lock`

A step of a CPU is an `acquire` or a `release` together with the code up to the next one. The points
at which no lock is held are `Free`; the others are `Pt`. A process that goes to sleep or is
preempted leaves its CPU in the scheduler with `ptable.lock` held, and goes on, on whatever CPU
picks it, by releasing that lock.

`kill` takes `mtable.lock` under `ptable.lock`, and the `sleep` of `mutex_lock` takes them the other
way round.
-/

namespace Dockv6.Spin

open Kernel Function

/-- `ptable.lock` and `mtable.lock` -/
inductive Lock
  | ptable
  | mtable
  deriving DecidableEq

/-- The points at which a process holds no lock. -/
inductive Free
  | user
  /-- In `kill`, before `acquire(&ptable.lock)`. -/
  | kill (pid : Int)
  /-- In `mutex_create` or `mutex_delete`, before `acquire(&mtable.lock)`. -/
  | create (name : Bytes)
  | delete (i : MuxIdx)
  /-- In `mutex_lock`, before the holder test, and before `acquire(&mtable.lock)`. -/
  | lockTest (m : MuxIdx)
  | lock (m : MuxIdx)
  /-- In `mutex_unlock`, before `acquire(&mtable.lock)`; `wait` if `cv_wait` called it. -/
  | unlock (m : Option MuxIdx) (wait : Bool)
  /-- In `cv_wait`: before the holder test, the swap, and `acquire(&ptable.lock)`. -/
  | waitTest (m : MuxIdx)
  | waitCas (m : MuxIdx)
  | waitPtable (m : MuxIdx)
  /-- In `cv_signal`, before `acquire(&mtable.lock)`. -/
  | signal (m : MuxIdx)
  /-- In `wakeup`, in another `sleep`, and in `yield`, before `acquire(&ptable.lock)`. -/
  | wakeup (chan : Chan) (back : Free)
  | sleep (chan : Chan)
  | yield (back : Free)

/-- Where a process is. -/
inductive Pt
  | free (f : Free)
  /-- In `kill`, with `ptable.lock`, before `acquire(&mtable.lock)`; then before
  `release(&mtable.lock)`. -/
  | killMtable (q : PIdx)
  | killRelease (q : PIdx)
  /-- In the `sleep` of `mutex_lock`, with `mtable.lock`, before `acquire(&ptable.lock)`; then
  before `release(&mtable.lock)`. -/
  | sleepPtable (m : MuxIdx)
  | sleepRelease (m : MuxIdx)
  /-- Before a last `release(&ptable.lock)`, also one after the process was switched to, and the one
  of `sleep`, which clears `chan` first. -/
  | ptableDone (back : Free)
  | slept (back : Free)
  /-- Before a last `release(&mtable.lock)`. -/
  | mtableDone (back : Free)

/-- The lock that the next step acquires. -/
def Free.wants : Free → Option Lock
  | kill _ | wakeup .. | waitPtable _ | sleep _ | yield _ => some .ptable
  | create _ | delete _ | lock _ | unlock .. | signal _ => some .mtable
  | user | lockTest _ | waitTest _ | waitCas _ => none

/-- The lock that is acquired next. -/
def Pt.wants : Pt → Option Lock
  | free f => f.wants
  | killMtable _ => some .mtable
  | sleepPtable _ => some .ptable
  | killRelease _ | sleepRelease _ | ptableDone _ | slept _ | mtableDone _ => none

/-- The lock that the next step releases. -/
def Pt.releases : Pt → Option Lock
  | killRelease _ | sleepRelease _ | mtableDone _ => some .mtable
  | ptableDone _ | slept _ => some .ptable
  | free _ | killMtable _ | sleepPtable _ => none

/-- Is the lock held there? -/
def Pt.holds : Pt → Lock → Bool
  | killRelease _, _ | sleepRelease _, _ => true
  | killMtable _, .ptable | ptableDone _, .ptable | slept _, .ptable => true
  | sleepPtable _, .mtable | mtableDone _, .mtable => true
  | _, _ => false

/-! ## The code between two lock operations -/

/-- The kernel and the point after a step; `off` if the process has called `sched`. -/
structure Next where
  k : Kernel
  pt : Pt
  off : Bool

/-- `p->chan = chan; p->state = SLEEPING;` -/
def toSleep (k : Kernel) (p : PIdx) (chan : Chan) : Kernel :=
  k.setProc p { k.proc p with chan := some chan, state := .SLEEPING }

/-- Where `mutex_unlock` returns to. -/
def afterUnlock (m : MuxIdx) (wait : Bool) : Free := if wait then .waitCas m else .user

/-- From a point without locks, with the lock that it wants. -/
def Free.next (k : Kernel) (p : PIdx) : Free → Option Next
  | user => none
  | kill pid =>
    match k.killTarget p pid with
    | none => some ⟨k, .ptableDone .user, false⟩
    | some q => some ⟨k.setProc q { k.proc q with killed := true }, .killMtable q, false⟩
  | create name => (mutexCreate k p name).toOption.map fun r => ⟨r.2, .mtableDone .user, false⟩
  | delete i => some ⟨mutexDelete k p i, .mtableDone .user, false⟩
  | lockTest m =>
    if (k.mux m).holding (k.proc p).pid then some ⟨k, .free .user, false⟩
    else some ⟨k, .free (.lock m), false⟩
  | lock m =>
    if (k.mux m).locked = 1 then some ⟨k, .sleepPtable m, false⟩
    else some ⟨k.setMux m ((k.mux m).take (k.proc p).pid), .mtableDone .user, false⟩
  | unlock none _ => some ⟨k, .mtableDone .user, false⟩
  | unlock (some m) wait =>
    if (k.mux m).holding (k.proc p).pid then
      some ⟨k.setMux m (k.mux m).release, .mtableDone (.wakeup (.mux m) (afterUnlock m wait)),
        false⟩
    else some ⟨k, .mtableDone (afterUnlock m wait), false⟩
  | waitTest m =>
    if (k.mux m).holding (k.proc p).pid then some ⟨k, .free (.unlock (some m) true), false⟩
    else some ⟨k, .free .user, false⟩
  | waitCas m =>
    match (k.mux m).cas 1 0 with
    | some x => some ⟨k.setMux m x, .free (.lockTest m), false⟩
    | none => some ⟨k, .free (.waitPtable m), false⟩
  | waitPtable m => some ⟨toSleep k p (.mux m), .ptableDone (.waitCas m), true⟩
  | signal m =>
    match (k.mux m).cas 0 1 with
    | some x => some ⟨k.setMux m x, .mtableDone (.wakeup (.mux m) .user), false⟩
    | none => some ⟨k, .mtableDone (.wakeup (.mux m) (.signal m)), false⟩
  | wakeup chan back => some ⟨wakeup1 k (some chan), .ptableDone back, false⟩
  | sleep chan => some ⟨toSleep k p chan, .slept .user, true⟩
  | yield back => some ⟨k.setProc p { k.proc p with state := .RUNNABLE }, .ptableDone back, true⟩

/-- `if (p->state == SLEEPING) p->state = RUNNABLE;` -/
def wakeKilled (k : Kernel) (q : PIdx) : Kernel :=
  k.setProc q
    { k.proc q with state := if (k.proc q).state = .SLEEPING then .RUNNABLE else (k.proc q).state }

/-- The kernel and the place after a step. -/
def Pt.next (k : Kernel) (p : PIdx) : Pt → Option Next
  | free f => f.next k p
  | killMtable q =>
    some ⟨(List.finRange MUX_MAXNUM).foldl (fun k i => killMutexes k q i) k, .killRelease q, false⟩
  | killRelease q => some ⟨wakeKilled k q, .ptableDone .user, false⟩
  | sleepPtable m => some ⟨k, .sleepRelease m, false⟩
  | sleepRelease m => some ⟨toSleep k p (.mux m), .slept (.lock m), true⟩
  | ptableDone back => some ⟨k, .free back, false⟩
  | slept back => some ⟨k.setProc p { k.proc p with chan := none }, .free back, false⟩
  | mtableDone back => some ⟨k, .free back, false⟩

/-- The three parts of `kill` are the whole of it. -/
theorem kill_parts {k : Kernel} {p q : PIdx} {pid : Int} (h : k.killTarget p pid = some q) :
    (Dockv6.kill k p pid).2 =
      wakeKilled ((List.finRange MUX_MAXNUM).foldl (fun k i => killMutexes k q i)
        (k.setProc q { k.proc q with killed := true })) q := by
  unfold Dockv6.kill
  rw [h]
  rfl

/-! ## The machine -/

/-- What a CPU does: it is in the scheduler, without or with `ptable.lock`, or runs a process. -/
inductive Cpu
  | idle
  | sched
  | run (p : PIdx)
  deriving DecidableEq

/-- The kernel, the points of the processes, the CPUs, and which CPU holds each lock. -/
structure State (C : Type*) where
  k : Kernel
  pt : PIdx → Pt
  cpu : C → Cpu
  holder : Lock → Option C

/-- A system call of the process on the CPU. -/
inductive Syscall
  | kill (pid : Int)
  | create (name : Bytes)
  | delete (i : MuxIdx)
  | lock (i : MuxIdx)
  | unlock (i : MuxIdx)
  | wait (i : MuxIdx)
  | signal (i : MuxIdx)
  | sleep (chan : Chan)
  | wakeup (chan : Chan)

/-- The point at which the call starts. All but `mutex_unlock` and `mutex_delete` return at once
when the process has no access to the mutex. -/
def Syscall.entry (x : Proc) : Syscall → Free
  | kill pid => .kill pid
  | create name => .create name
  | delete i => .delete i
  | lock i => (x.mutex i).elim .user .lockTest
  | unlock i => .unlock (x.mutex i) false
  | wait i => (x.mutex i).elim .user .waitTest
  | signal i => (x.mutex i).elim .user .signal
  | sleep chan => .sleep chan
  | wakeup chan => .wakeup chan .user

/-- The scheduler takes or releases `ptable.lock` or picks a process; the process on a CPU starts a
call, takes a step, is preempted, or is interrupted by a device whose driver calls `wakeup`. -/
inductive Act (C : Type*)
  | take (c : C)
  | leave (c : C)
  | pick (c : C) (p : PIdx)
  | call (c : C) (call : Syscall)
  | step (c : C)
  | preempt (c : C)
  | interrupt (c : C) (chan : Chan)

variable {C : Type*} [DecidableEq C]

namespace State

/-- The process on the CPU goes from a point without locks to another one. Interrupts are off while
a lock is held. -/
def redirect (s : State C) (c : C) (f : PIdx → Free → Option Free) : Option (State C) :=
  match s.cpu c with
  | .run p =>
    match s.pt p with
    | .free x => (f p x).map fun y => { s with pt := update s.pt p (.free y) }
    | _ => none
  | _ => none

/-- The holder of a lock after a step of the CPU from the point. -/
def holderAfter (s : State C) (c : C) (pt : Pt) (l : Lock) : Option C :=
  if pt.wants = some l then some c else if pt.releases = some l then none else s.holder l

/-- The next step of the process `p` on the CPU `c`; not possible while another CPU holds the
lock. -/
def step (s : State C) (c : C) (p : PIdx) : Option (State C) :=
  if (s.pt p).wants.all fun l => (s.holder l).isNone then
    ((s.pt p).next s.k p).map fun n =>
      { k := n.k
        pt := update s.pt p n.pt
        cpu := if n.off then update s.cpu c .sched else s.cpu
        holder := s.holderAfter c (s.pt p) }
  else none

end State

/-- All interleavings on the CPUs `C`, from a state of the kernel with every process off the
CPUs. -/
def machine (C : Type*) [DecidableEq C] : Machine (State C) (Act C) where
  init s := kernelMachine.Reachable s.k ∧ (∀ p, s.pt p = .ptableDone .user) ∧
    (∀ c, s.cpu c = .idle) ∧ ∀ l, s.holder l = none
  step s
    | .take c =>
      if s.cpu c = .idle ∧ s.holder .ptable = none then
        some { s with
          cpu := update s.cpu c .sched, holder := update s.holder .ptable (some c) }
      else none
    | .leave c =>
      if s.cpu c = .sched then
        some { s with
          cpu := update s.cpu c .idle, holder := update s.holder .ptable none }
      else none
    | .pick c p =>
      if s.cpu c = .sched ∧ (s.k.proc p).state = .RUNNABLE then
        some { s with
          k := s.k.setProc p { s.k.proc p with state := .RUNNING }
          cpu := update s.cpu c (.run p) }
      else none
    | .call c call => s.redirect c fun p x =>
      match x with
      | .user => if (s.k.proc p).killed then none else some (call.entry (s.k.proc p))
      | _ => none
    | .step c =>
      match s.cpu c with
      | .run p => s.step c p
      | _ => none
    | .preempt c => s.redirect c fun _ x => some (.yield x)
    | .interrupt c chan => s.redirect c fun _ x => some (.wakeup chan x)

/-! ## What a step does -/

/-- Does the process hold the lock after its step? -/
def Pt.holdsAfter (pt : Pt) (l : Lock) : Bool :=
  pt.wants = some l || (pt.holds l && pt.releases ≠ some l)

/-- The points of processes that are off the CPUs. -/
def Pt.switched : Pt → Bool
  | ptableDone _ | slept _ => true
  | _ => false

theorem Pt.switched_holds {pt : Pt} (h : pt.switched) (l : Lock) :
    pt.holds l = decide (l = .ptable) := by
  cases pt <;> cases l <;> first | rfl | cases h

theorem Free.next_holds {k : Kernel} {p : PIdx} {f : Free} {n : Next} (h : f.next k p = some n) :
    if n.off then n.pt.switched ∧ ∀ l, (Pt.free f).holdsAfter l = decide (l = .ptable)
    else ∀ l, n.pt.holds l = (Pt.free f).holdsAfter l := by
  cases f with
  | user => cases h
  | create name =>
    obtain ⟨r, -, rfl⟩ := Option.map_eq_some_iff.mp h
    exact fun l => by cases l <;> rfl
  | kill | lockTest | lock | waitTest | waitCas | signal =>
    dsimp only [Free.next] at h
    split at h <;> cases h <;> exact fun l => by cases l <;> rfl
  | unlock m wait =>
    cases m <;> dsimp only [Free.next] at h
    · cases h
      exact fun l => by cases l <;> rfl
    · split_ifs at h <;> cases h <;> exact fun l => by cases l <;> rfl
  | delete | wakeup =>
    cases h
    exact fun l => by cases l <;> rfl
  | waitPtable | sleep | yield =>
    cases h
    exact ⟨rfl, fun l => by cases l <;> rfl⟩

/-- A step leaves the process with the locks it has after the lock operation, or off its CPU, which
then has `ptable.lock`. -/
theorem Pt.next_holds {k : Kernel} {p : PIdx} {pt : Pt} {n : Next} (h : pt.next k p = some n) :
    if n.off then n.pt.switched ∧ ∀ l, pt.holdsAfter l = decide (l = .ptable)
    else ∀ l, n.pt.holds l = pt.holdsAfter l := by
  cases pt with
  | free f => exact Free.next_holds h
  | killMtable | killRelease | sleepPtable | ptableDone | slept | mtableDone =>
    cases h
    exact fun l => by cases l <;> rfl
  | sleepRelease =>
    cases h
    exact ⟨rfl, fun l => by cases l <;> rfl⟩

theorem running_setProc {k : Kernel} {p q : PIdx} {x : Proc}
    (hx : q = p → (x.state = .RUNNING ↔ (k.proc p).state = .RUNNING)) :
    ((k.setProc p x).proc q).state = .RUNNING ↔ (k.proc q).state = .RUNNING := by
  by_cases hq : q = p
  · subst hq
    rw [setProc_self]
    exact hx rfl
  · rw [setProc_of_ne _ _ _ hq]

theorem running_wakeup1 (k : Kernel) (chan : Option Chan) (q : PIdx) :
    ((wakeup1 k chan).proc q).state = .RUNNING ↔ (k.proc q).state = .RUNNING := by
  unfold wakeup1
  dsimp only
  split_ifs with h
  · simp [h.1]
  · rfl

theorem Free.next_running {k : Kernel} {p : PIdx} {f : Free} {n : Next} (h : f.next k p = some n)
    {q : PIdx} (hq : n.off = true → q ≠ p) :
    (n.k.proc q).state = .RUNNING ↔ (k.proc q).state = .RUNNING := by
  cases f with
  | user => cases h
  | kill pid =>
    dsimp only [Free.next] at h
    split at h <;> cases h
    · rfl
    · exact running_setProc fun _ => .rfl
  | create name =>
    obtain ⟨⟨r, k'⟩, hr, rfl⟩ := Option.map_eq_some_iff.mp h
    rw [mutexCreate_state (toOption_eq_some.mp hr)]
  | delete i =>
    cases h
    rw [mutexDelete_state]
  | lockTest | lock | waitTest | waitCas | signal =>
    dsimp only [Free.next] at h
    split at h <;> cases h <;> rfl
  | unlock m wait =>
    cases m <;> dsimp only [Free.next] at h
    · cases h
      rfl
    · split_ifs at h <;> cases h <;> rfl
  | wakeup chan back =>
    cases h
    exact running_wakeup1 k (some chan) q
  | waitPtable | sleep | yield =>
    cases h
    exact running_setProc fun hp => absurd hp (hq rfl)

/-- Whether a process is running changes only when it leaves its CPU. -/
theorem Pt.next_running {k : Kernel} {p : PIdx} {pt : Pt} {n : Next} (h : pt.next k p = some n)
    {q : PIdx} (hq : n.off = true → q ≠ p) :
    (n.k.proc q).state = .RUNNING ↔ (k.proc q).state = .RUNNING := by
  cases pt with
  | free f => exact Free.next_running h hq
  | killMtable r =>
    cases h
    obtain ⟨mux, hmux⟩ := killMutexes_rounds r (List.finRange MUX_MAXNUM) k
    dsimp only
    rw [hmux]
  | killRelease r =>
    cases h
    refine running_setProc fun _ => ?_
    dsimp only
    split_ifs with hsleep
    · simp [hsleep]
    · rfl
  | sleepPtable | ptableDone | mtableDone =>
    cases h
    rfl
  | slept back =>
    cases h
    exact running_setProc fun _ => .rfl
  | sleepRelease m =>
    cases h
    exact running_setProc fun hp => absurd hp (hq rfl)

/-- In `kill`, with `ptable.lock` held and the target found. -/
def Pt.killing : Pt → Bool
  | killMtable _ | killRelease _ => true
  | _ => false

/-- In `mutex_lock`, with `mtable.lock` held and on the way to sleep. -/
def Pt.retiring : Pt → Bool
  | sleepPtable _ | sleepRelease _ => true
  | _ => false

/-- A `kill` comes to hold `ptable.lock` when it finds its target, and a `mutex_lock` goes to sleep
when it finds the mutex locked. -/
theorem Pt.next_killing {k : Kernel} {p : PIdx} {pt : Pt} {n : Next} (h : pt.next k p = some n) :
    (n.pt.killing → pt.killing ∨ ∃ pid, pt = .free (.kill pid) ∧ (k.killTarget p pid).isSome) ∧
      (n.pt.retiring → pt.retiring ∨ ∃ m, pt = .free (.lock m) ∧ (k.mux m).locked = 1) := by
  cases pt with
  | free f =>
    cases f with
    | user => cases h
    | create name =>
      obtain ⟨r, -, rfl⟩ := Option.map_eq_some_iff.mp h
      exact ⟨nofun, nofun⟩
    | kill pid =>
      dsimp only [Pt.next, Free.next] at h
      split at h <;> cases h
      · exact ⟨nofun, nofun⟩
      · rename_i q hq
        exact ⟨fun _ => .inr ⟨pid, rfl, by simp [hq]⟩, nofun⟩
    | lock m =>
      dsimp only [Pt.next, Free.next] at h
      split_ifs at h with hm <;> cases h
      · exact ⟨nofun, fun _ => .inr ⟨m, rfl, hm⟩⟩
      · exact ⟨nofun, nofun⟩
    | lockTest | waitTest | waitCas | signal =>
      dsimp only [Pt.next, Free.next] at h
      split at h <;> cases h <;> exact ⟨nofun, nofun⟩
    | unlock m wait =>
      cases m <;> dsimp only [Pt.next, Free.next] at h
      · cases h
        exact ⟨nofun, nofun⟩
      · split_ifs at h <;> cases h <;> exact ⟨nofun, nofun⟩
    | delete | wakeup | waitPtable | sleep | yield =>
      cases h
      exact ⟨nofun, nofun⟩
  | killMtable | killRelease | sleepPtable | sleepRelease | ptableDone | slept | mtableDone =>
    cases h
    exact ⟨by simp [killing], by simp [retiring]⟩

theorem step_eq_some {s t : State C} {c : C} {p : PIdx} (h : s.step c p = some t) :
    ∃ n, (s.pt p).next s.k p = some n ∧
      t = { k := n.k, pt := update s.pt p n.pt,
            cpu := if n.off then update s.cpu c .sched else s.cpu,
            holder := s.holderAfter c (s.pt p) } := by
  obtain ⟨-, h⟩ := Option.ite_none_right_eq_some.mp h
  obtain ⟨n, hn, ht⟩ := Option.map_eq_some_iff.mp h
  exact ⟨n, hn, ht.symm⟩

omit [DecidableEq C] in
theorem redirect_eq_some {s t : State C} {c : C} {f : PIdx → Free → Option Free}
    (h : s.redirect c f = some t) :
    ∃ p x y, s.cpu c = .run p ∧ s.pt p = .free x ∧
      t = { s with pt := update s.pt p (.free y) } := by
  unfold State.redirect at h
  split at h
  · rename_i p hp
    split at h
    · rename_i x hx
      obtain ⟨y, -, ht⟩ := Option.map_eq_some_iff.mp h
      exact ⟨p, x, y, hp, hx, ht.symm⟩
    · cases h
  · cases h

/-! ## Which CPU holds a lock -/

/-- The CPU holds the lock by what it does. -/
def State.cpuHolds (s : State C) (c : C) (l : Lock) : Prop :=
  match s.cpu c with
  | .idle => False
  | .sched => l = .ptable
  | .run p => (s.pt p).holds l = true

omit [DecidableEq C] in
theorem State.cpuHolds_congr {s t : State C} {c : C} {l : Lock} (hcpu : t.cpu c = s.cpu c)
    (hpt : ∀ p, s.cpu c = .run p → t.pt p = s.pt p) (h : s.cpuHolds c l) : t.cpuHolds c l := by
  unfold cpuHolds at h ⊢
  rw [hcpu]
  cases hc : s.cpu c with
  | idle => rw [hc] at h; exact h
  | sched => rw [hc] at h; exact h
  | run p =>
    rw [hc] at h
    dsimp only at h ⊢
    rwa [hpt p hc]

omit [DecidableEq C] in
theorem State.cpuHolds_run {s : State C} {c : C} {p : PIdx} {l : Lock} (hc : s.cpu c = .run p) :
    s.cpuHolds c l ↔ (s.pt p).holds l = true := by
  rw [cpuHolds, hc]

omit [DecidableEq C] in
theorem State.holdsAfter_of_holderAfter {s : State C} {c : C} {p : PIdx} {l : Lock}
    (hheld : s.holder l = some c → (s.pt p).holds l = true)
    (h : s.holderAfter c (s.pt p) l = some c) : (s.pt p).holdsAfter l = true := by
  unfold holderAfter at h
  unfold Pt.holdsAfter
  split_ifs at h with hw hr
  · simp [hw]
  · simp [hheld h, hr]

omit [DecidableEq C] in
theorem State.holder_of_holderAfter {s : State C} {c c' : C} {pt : Pt} {l : Lock} (hc : c' ≠ c)
    (h : s.holderAfter c pt l = some c') : s.holder l = some c' := by
  unfold holderAfter at h
  split_ifs at h
  · exact absurd (Option.some.inj h).symm hc
  · exact h

/-- A lock's holder is where the lock is held; the processes on the CPUs are running, each on one
CPU; those that are not running were switched from. -/
structure SpinInv (s : State C) : Prop where
  held : ∀ l c, s.holder l = some c → s.cpuHolds c l
  running : ∀ c p, s.cpu c = .run p → (s.k.proc p).state = .RUNNING
  alone : ∀ c c' p, s.cpu c = .run p → s.cpu c' = .run p → c = c'
  out : ∀ p, (s.k.proc p).state ≠ .RUNNING → (s.pt p).switched

namespace SpinInv

variable {s t : State C} {c : C} {p : PIdx}

theorem step_held (h : SpinInv s) (hc : s.cpu c = .run p) (hst : s.step c p = some t) {l : Lock}
    {c' : C} (hl : t.holder l = some c') : t.cpuHolds c' l := by
  obtain ⟨n, hn, rfl⟩ := step_eq_some hst
  have hnext := Pt.next_holds hn
  by_cases hcc : c' = c
  · subst hcc
    have hafter := State.holdsAfter_of_holderAfter
      (fun hs => (State.cpuHolds_run hc).mp (h.held l c' hs)) hl
    unfold State.cpuHolds
    dsimp only
    split_ifs at hnext ⊢ with hoff
    · rw [update_self]
      exact of_decide_eq_true ((hnext.2 l).symm.trans hafter)
    · rw [hc]
      dsimp only
      rw [update_self]
      exact (hnext l).trans hafter
  · have hheld := h.held l c' (State.holder_of_holderAfter hcc hl)
    refine State.cpuHolds_congr ?_ (fun q hq => ?_) hheld
    · dsimp only
      split_ifs
      · rw [update_of_ne hcc]
      · rfl
    · refine update_of_ne ?_ _ _
      rintro rfl
      exact hcc (h.alone c' c q hq hc)

/-- The processes on the CPUs after a step were there before it. -/
theorem step_cpu (hst : s.step c p = some t) {c' : C} {q : PIdx} (hq : t.cpu c' = .run q) :
    s.cpu c' = .run q := by
  obtain ⟨n, -, rfl⟩ := step_eq_some hst
  dsimp only at hq
  split_ifs at hq
  · rw [update_apply] at hq
    split_ifs at hq
    exact hq
  · exact hq

theorem step (h : SpinInv s) (hc : s.cpu c = .run p) (hst : s.step c p = some t) : SpinInv t := by
  refine ⟨fun l c' => h.step_held hc hst, fun c' q hq => ?_,
    fun c1 c2 q h1 h2 => h.alone c1 c2 q (step_cpu hst h1) (step_cpu hst h2), fun q hq => ?_⟩
  · have hold := step_cpu hst hq
    obtain ⟨n, hn, rfl⟩ := step_eq_some hst
    refine (Pt.next_running hn fun hoff => ?_).mpr (h.running c' q hold)
    rintro rfl
    -- The process has left the CPU.
    obtain rfl := h.alone c' c q hold hc
    dsimp only at hq
    rw [if_pos hoff, update_self] at hq
    cases hq
  · obtain ⟨n, hn, rfl⟩ := step_eq_some hst
    have hnext := Pt.next_holds hn
    dsimp only at hq ⊢
    by_cases hoff : n.off = true ∧ q = p
    · obtain ⟨hoff, rfl⟩ := hoff
      rw [if_pos hoff] at hnext
      rw [update_self]
      exact hnext.1
    · have hstopped : (s.k.proc q).state ≠ .RUNNING := fun hr =>
        hq ((Pt.next_running hn fun ho hqp => hoff ⟨ho, hqp⟩).mpr hr)
      rw [update_of_ne]
      · exact h.out q hstopped
      · rintro rfl
        exact hstopped (h.running c q hc)

omit [DecidableEq C] in
theorem redirect {f : PIdx → Free → Option Free} (h : SpinInv s) (hst : s.redirect c f = some t) :
    SpinInv t := by
  obtain ⟨p, x, y, hc, hx, rfl⟩ := redirect_eq_some hst
  have hp := h.running c p hc
  refine ⟨fun l c' hl => ?_, h.running, h.alone, fun q hq => ?_⟩
  · have hheld := h.held l c' hl
    refine State.cpuHolds_congr (s := s) rfl (fun q hq => update_of_ne ?_ _ _) hheld
    rintro rfl
    rw [State.cpuHolds_run hq, hx] at hheld
    cases hheld
  · refine (congrArg Pt.switched (update_of_ne ?_ _ _)).trans (h.out q hq)
    rintro rfl
    exact hq hp

/-- A CPU goes from one state without a process to another. -/
theorem setCpu {x : Cpu} {holder : Lock → Option C} (h : SpinInv s) (hx : ∀ p, x ≠ .run p)
    (hself : ∀ l, holder l = some c → l = .ptable ∧ x = .sched)
    (hother : ∀ l c', c' ≠ c → holder l = some c' → s.holder l = some c') :
    SpinInv { s with cpu := update s.cpu c x, holder := holder } := by
  have hold : ∀ {c' q}, update s.cpu c x c' = .run q → s.cpu c' = .run q := by
    intro c' q hq
    rw [update_apply] at hq
    split_ifs at hq
    · exact absurd hq (hx q)
    · exact hq
  refine ⟨fun l c' hl => ?_, fun c' q hq => h.running c' q (hold hq),
    fun c1 c2 q h1 h2 => h.alone c1 c2 q (hold h1) (hold h2), h.out⟩
  by_cases hcc : c' = c
  · subst hcc
    obtain ⟨rfl, rfl⟩ := hself l hl
    unfold State.cpuHolds
    dsimp only
    rw [update_self]
  · refine State.cpuHolds_congr (s := s) ?_ (fun _ _ => rfl) (h.held l c' (hother l c' hcc hl))
    exact update_of_ne hcc _ _

theorem pick (h : SpinInv s) (hc : s.cpu c = .sched) (hp : (s.k.proc p).state = .RUNNABLE) :
    SpinInv { s with
      k := s.k.setProc p { s.k.proc p with state := .RUNNING }
      cpu := update s.cpu c (.run p) } := by
  have hout := h.out p (by rw [hp]; exact nofun)
  have hnew : ∀ c', s.cpu c' ≠ .run p := fun c' hc' => by
    have hrun := h.running c' p hc'
    rw [hp] at hrun
    cases hrun
  have hold : ∀ {c' q}, update s.cpu c (.run p) c' = .run q →
      c' = c ∧ q = p ∨ c' ≠ c ∧ q ≠ p ∧ s.cpu c' = .run q := by
    intro c' q hq
    rw [update_apply] at hq
    split_ifs at hq with hcc
    · cases hq
      exact .inl ⟨hcc, rfl⟩
    · refine .inr ⟨hcc, ?_, hq⟩
      rintro rfl
      exact hnew c' hq
  refine ⟨fun l c' hl => ?_, fun c' q hq => ?_, fun c1 c2 q h1 h2 => ?_, fun q hq => ?_⟩
  · have hheld := h.held l c' hl
    by_cases hcc : c' = c
    · subst hcc
      rw [State.cpuHolds, hc] at hheld
      rw [State.cpuHolds_run (update_self _ _ _)]
      exact (Pt.switched_holds hout l).trans (decide_eq_true hheld)
    · exact State.cpuHolds_congr (s := s) (update_of_ne hcc _ _) (fun _ _ => rfl) hheld
  · obtain ⟨-, rfl⟩ | ⟨-, hqp, hq⟩ := hold hq
    · exact congrArg Proc.state (setProc_self _ _ _)
    · exact (congrArg Proc.state (setProc_of_ne _ _ _ hqp)).trans (h.running c' q hq)
  · obtain ⟨rfl, rfl⟩ | ⟨-, hqp, h1⟩ := hold h1 <;> obtain ⟨rfl, hq⟩ | ⟨-, hqp', h2⟩ := hold h2
    · rfl
    · exact absurd rfl hqp'
    · exact absurd hq hqp
    · exact h.alone c1 c2 q h1 h2
  · by_cases hqp : q = p
    · exact hqp ▸ hout
    · exact h.out q ((congrArg Proc.state (setProc_of_ne _ _ _ hqp)).symm.trans_ne hq)

theorem init (h : (machine C).init s) : SpinInv s := by
  obtain ⟨-, hpt, hcpu, hholder⟩ := h
  refine ⟨fun l c hl => ?_, fun c p hc => ?_, fun c c' p hc => ?_, fun p _ => by rw [hpt]; rfl⟩
  · rw [hholder] at hl
    cases hl
  all_goals
    rw [hcpu] at hc
    cases hc

theorem act {a : Act C} (hs : SpinInv s) (hst : (machine C).step s a = some t) : SpinInv t := by
  cases a with
  | take c =>
    obtain ⟨⟨hidle, -⟩, ht⟩ := Option.ite_none_right_eq_some.mp hst
    cases ht
    refine hs.setCpu nofun (fun l hl => ?_) fun l c' hcc hl => ?_
    · cases l with
      | ptable => exact ⟨rfl, rfl⟩
      | mtable =>
        have hheld := hs.held .mtable c hl
        rw [State.cpuHolds, hidle] at hheld
        exact hheld.elim
    · cases l with
      | ptable => exact absurd (Option.some.inj hl).symm hcc
      | mtable => exact hl
  | leave c =>
    obtain ⟨hsched, ht⟩ := Option.ite_none_right_eq_some.mp hst
    cases ht
    refine hs.setCpu nofun (fun l hl => ?_) fun l c' hcc hl => ?_
    · cases l with
      | ptable => cases hl
      | mtable =>
        have hheld := hs.held .mtable c hl
        rw [State.cpuHolds, hsched] at hheld
        cases hheld
    · cases l with
      | ptable => cases hl
      | mtable => exact hl
  | pick c p =>
    obtain ⟨⟨hsched, hp⟩, ht⟩ := Option.ite_none_right_eq_some.mp hst
    cases ht
    exact hs.pick hsched hp
  | step c =>
    dsimp only [machine] at hst
    split at hst
    · exact hs.step ‹_› hst
    · cases hst
  | call | preempt | interrupt => exact hs.redirect hst

end SpinInv

/-! ## No two CPUs wait for each other -/

/-- Does the CPU spin for the lock, if another holds it? -/
def State.spins (s : State C) (c : C) (l : Lock) : Prop :=
  ∃ p, s.cpu c = .run p ∧ (s.pt p).wants = some l

/-- One CPU holds `ptable.lock` and spins for `mtable.lock`, while another holds `mtable.lock` and
spins for `ptable.lock`. -/
def State.deadlock (s : State C) : Prop :=
  ∃ c c', c ≠ c' ∧ s.holder .ptable = some c ∧ s.spins c .mtable ∧
    s.holder .mtable = some c' ∧ s.spins c' .ptable

/-- A `kill` that has a target takes `ptable.lock` when no CPU is in a `mutex_lock` on the way to
sleep, and a `mutex_lock` of a mutex that is locked takes `mtable.lock` when no CPU is in a
`kill`. -/
def State.apart (s : State C) : Act C → Prop
  | .step c => ∀ p, s.cpu c = .run p →
    (∀ pid, s.pt p = .free (.kill pid) → (s.k.killTarget p pid).isSome →
      ∀ c' q, s.cpu c' = .run q → (s.pt q).retiring = false) ∧
    ∀ m, s.pt p = .free (.lock m) → (s.k.mux m).locked = 1 →
      ∀ c' q, s.cpu c' = .run q → (s.pt q).killing = false
  | _ => True

theorem Pt.retiring_of_killing {pt : Pt} (h : pt.killing) : pt.retiring = false := by
  cases pt <;> first | rfl | cases h

theorem Pt.switched_killing {pt : Pt} (h : pt.switched) : pt.killing = false ∧
    pt.retiring = false := by
  cases pt <;> first | exact ⟨rfl, rfl⟩ | cases h

/-- Only `kill` holds `ptable.lock` and wants `mtable.lock`. -/
theorem Pt.killing_of_wants {pt : Pt} (hholds : pt.holds .ptable)
    (hwants : pt.wants = some .mtable) : pt.killing := by
  cases pt <;> first | rfl | cases hwants | cases hholds

/-- Only `mutex_lock` holds `mtable.lock` and wants `ptable.lock`. -/
theorem Pt.retiring_of_wants {pt : Pt} (hholds : pt.holds .mtable)
    (hwants : pt.wants = some .ptable) : pt.retiring := by
  cases pt <;> first | rfl | cases hwants | cases hholds

/-- No CPU is in a `kill` while another is in a `mutex_lock` on the way to sleep. -/
def State.ordered (s : State C) : Prop :=
  ∀ c c' p q, s.cpu c = .run p → s.cpu c' = .run q → (s.pt p).killing → (s.pt q).retiring = false

theorem State.ordered.step {s t : State C} {c : C} {p : PIdx} (h : s.ordered)
    (hc : s.cpu c = .run p) (hok : s.apart (.step c)) (hst : s.step c p = some t) : t.ordered := by
  intro c1 c2 p1 p2 ht1 ht2 hkill
  have h1 := SpinInv.step_cpu hst ht1
  have h2 := SpinInv.step_cpu hst ht2
  obtain ⟨hokKill, hokLock⟩ := hok p hc
  obtain ⟨n, hn, rfl⟩ := step_eq_some hst
  obtain ⟨hk, hr⟩ := Pt.next_killing hn
  dsimp only at hkill ⊢
  rw [update_apply] at hkill ⊢
  split_ifs at hkill ⊢ with hp2 hp1 hp1
  · exact Pt.retiring_of_killing hkill
  · -- The `kill` was there before, and the step would bring a `mutex_lock` into its way.
    rw [Bool.eq_false_iff]
    intro hret
    obtain hold | ⟨m, hm, hlocked⟩ := hr hret
    · exact Bool.eq_false_iff.mp (h c1 c p1 p h1 hc hkill) hold
    · exact Bool.eq_false_iff.mp (hokLock m hm hlocked c1 p1 h1) hkill
  · obtain hold | ⟨pid, hpid, htarget⟩ := hk hkill
    · exact h c c2 p p2 hc h2 hold
    · exact hokKill pid hpid htarget c2 p2 h2
  · exact h c1 c2 p1 p2 h1 h2 hkill

omit [DecidableEq C] in
theorem State.ordered.mono {s t : State C} (h : s.ordered)
    (ht : ∀ c p, t.cpu c = .run p → (s.cpu c = .run p ∧ t.pt p = s.pt p) ∨
      ((t.pt p).killing = false ∧ (t.pt p).retiring = false)) : t.ordered := by
  intro c1 c2 p1 p2 h1 h2 hkill
  obtain ⟨hs1, hpt1⟩ | ⟨hno, -⟩ := ht c1 p1 h1
  · obtain ⟨hs2, hpt2⟩ | ⟨-, hno⟩ := ht c2 p2 h2
    · rw [hpt1] at hkill
      rw [hpt2]
      exact h c1 c2 p1 p2 hs1 hs2 hkill
    · exact hno
  · rw [hno] at hkill
    cases hkill

omit [DecidableEq C] in
theorem State.ordered.redirect {s t : State C} {c : C} {f : PIdx → Free → Option Free}
    (h : s.ordered) (hst : s.redirect c f = some t) : t.ordered := by
  obtain ⟨p, x, y, hc, hx, rfl⟩ := redirect_eq_some hst
  refine h.mono fun c' q hq => ?_
  by_cases hqp : q = p
  · subst hqp
    dsimp only
    rw [update_self]
    exact .inr ⟨rfl, rfl⟩
  · exact .inl ⟨hq, update_of_ne hqp _ _⟩

theorem State.ordered.act {s t : State C} {a : Act C} (h : s.ordered) (hinv : SpinInv s)
    (hok : s.apart a) (hst : (machine C).step s a = some t) : t.ordered := by
  cases a with
  | take c =>
    obtain ⟨-, ht⟩ := Option.ite_none_right_eq_some.mp hst
    cases ht
    refine h.mono fun c' p hp => .inl ⟨?_, rfl⟩
    dsimp only at hp
    rw [update_apply] at hp
    split_ifs at hp
    exact hp
  | leave c =>
    obtain ⟨-, ht⟩ := Option.ite_none_right_eq_some.mp hst
    cases ht
    refine h.mono fun c' p hp => .inl ⟨?_, rfl⟩
    dsimp only at hp
    rw [update_apply] at hp
    split_ifs at hp
    exact hp
  | pick c p =>
    obtain ⟨⟨-, hrun⟩, ht⟩ := Option.ite_none_right_eq_some.mp hst
    cases ht
    refine h.mono fun c' q hq => ?_
    dsimp only at hq ⊢
    rw [update_apply] at hq
    split_ifs at hq
    · cases hq
      exact .inr (Pt.switched_killing (hinv.out p (by rw [hrun]; exact nofun)))
    · exact .inl ⟨hq, rfl⟩
  | step c =>
    dsimp only [machine] at hst
    split at hst
    · exact h.step ‹_› hok hst
    · cases hst
  | call | preempt | interrupt => exact h.redirect hst

theorem reach_ordered {s : State C} (h : (machine C).Reach State.apart s) :
    SpinInv s ∧ s.ordered := by
  refine h.invariant (I := fun s => SpinInv s ∧ s.ordered)
    (fun s hs => ⟨.init hs, fun c _ p _ hc => ?_⟩)
    fun s t a ⟨hinv, hord⟩ hok hst => ⟨hinv.act hst, hord.act hinv hok hst⟩
  rw [hs.2.2.1] at hc
  cases hc

/-- **No two CPUs wait for each other's lock, if `kill` and `mutex_lock` keep apart**: there is no
state in which one CPU holds `ptable.lock` and spins for `mtable.lock`, and another holds
`mtable.lock` and spins for `ptable.lock`. -/
theorem spinlocks_in_order {s : State C} (h : (machine C).Reach State.apart s) : ¬ s.deadlock := by
  rintro ⟨c, c', -, hptable, ⟨p, hc, hmt⟩, hmtable, q, hc', hpt⟩
  obtain ⟨hinv, hord⟩ := reach_ordered h
  have hp := (State.cpuHolds_run hc).mp (hinv.held .ptable c hptable)
  have hq := (State.cpuHolds_run hc').mp (hinv.held .mtable c' hmtable)
  have hfalse := hord c c' p q hc hc' (Pt.killing_of_wants hp hmt)
  exact Bool.eq_false_iff.mp hfalse (Pt.retiring_of_wants hq hpt)

/-! ## A `kill` and a `mutex_lock` -/

/-- Every process is off the CPUs. -/
def start (C : Type*) (k : Kernel) : State C :=
  { k := k, pt := fun _ => .ptableDone .user, cpu := fun _ => .idle, holder := fun _ => none }

/-- Two processes with the same mutex. -/
def sharedMutex : List (PIdx × Call) := [(0, .fork), (0, .mutexCreate [97]), (1, .mutexCreate [97])]

/-- The process on the CPU 0 takes the mutex; the one on the CPU 1 is about to try. -/
def lockTwice : List (Act (Fin 2)) :=
  [.take 0, .pick 0 0, .step 0, .call 0 (.lock 0), .step 0, .step 0, .step 0,
   .take 1, .pick 1 1, .step 1, .call 1 (.lock 0), .step 1]

theorem exists_of_exec {ok : State (Fin 2) → Act (Fin 2) → Prop}
    {test : State (Fin 2) → Act (Fin 2) → Bool} (hok : ∀ s a, test s a = true → ok s a)
    {l : List (Act (Fin 2))} {P : State (Fin 2) → Bool}
    (h : (Kernel.run (fun _ _ => true) sharedMutex).any (fun k =>
      (((machine (Fin 2)).restrict test).exec (start (Fin 2) k) l).any P) = true) :
    ∃ s, (machine (Fin 2)).Reach ok s ∧ P s = true := by
  obtain ⟨k, hk, hP⟩ : ∃ k, kernelMachine.Reachable k ∧ _ = true :=
    Kernel.exists_of_run (fun _ _ _ => trivial) h
  obtain ⟨s, hs, hP⟩ := (Option.any_eq_true P _).mp hP
  have hinit : (machine (Fin 2)).init (start (Fin 2) k) :=
    ⟨hk, fun _ => rfl, fun _ => rfl, fun _ => rfl⟩
  exact ⟨s, Machine.reach_of_exec_restrict hok (.init hinit) l hs, hP⟩

instance {C : Type*} (s : State C) (c : C) (l : Lock) : Decidable (s.spins c l) :=
  match h : s.cpu c with
  | .run p => decidable_of_iff ((s.pt p).wants = some l) (by simp [State.spins, h])
  | .idle | .sched => .isFalse (by simp [State.spins, h])

set_option maxRecDepth 100000 in
/-- The first process kills the second, which is on its way to sleep for the mutex. -/
theorem kill_blocks_lock : ∃ s, (machine (Fin 2)).Reachable s ∧ s.deadlock := by
  have hrun : (Kernel.run (fun _ _ => true) sharedMutex).any (fun k =>
      (((machine (Fin 2)).restrict fun _ _ => true).exec (start (Fin 2) k)
        (lockTwice ++ [.step 1, .call 0 (.kill 2), .step 0])).any fun s =>
          decide (s.holder .ptable = some 0 ∧ s.spins 0 .mtable ∧
            s.holder .mtable = some 1 ∧ s.spins 1 .ptable)) = true := by
    decide +kernel
  obtain ⟨s, hs, hP⟩ := exists_of_exec (fun _ _ _ => trivial) hrun
  exact ⟨s, hs, 0, 1, by decide, of_decide_eq_true hP⟩

omit [DecidableEq C] in
theorem State.apart_of_none {s : State C} {a : Act C}
    (h : ∀ q, (s.pt q).retiring = false ∧ (s.pt q).killing = false) : s.apart a := by
  cases a with
  | step c => exact fun p _ => ⟨fun _ _ _ _ q _ => (h q).1, fun _ _ _ _ q _ => (h q).2⟩
  | take | leave | pick | call | preempt | interrupt => trivial

set_option maxRecDepth 100000 in
/-- The first process is preempted instead: its CPU holds `ptable.lock` in the scheduler, and the
other CPU holds `mtable.lock` and spins. -/
theorem spinlocks_in_order_preempt : ∃ s : State (Fin 2), (machine (Fin 2)).Reach State.apart s ∧
    s.holder .ptable = some 0 ∧ s.holder .mtable = some 1 ∧ s.spins 1 .ptable ∧ ¬ s.deadlock := by
  have hrun : (Kernel.run (fun _ _ => true) sharedMutex).any (fun k =>
      (((machine (Fin 2)).restrict fun s _ =>
        decide (∀ q, (s.pt q).retiring = false ∧ (s.pt q).killing = false)).exec (start (Fin 2) k)
          (lockTwice ++ [.preempt 0, .step 0, .step 1])).any fun s =>
            decide (s.holder .ptable = some 0 ∧ s.holder .mtable = some 1 ∧ s.spins 1 .ptable)) =
      true := by
    decide +kernel
  obtain ⟨s, hs, hP⟩ :=
    exists_of_exec (fun _ _ htest => State.apart_of_none (of_decide_eq_true htest))
    hrun
  obtain ⟨hptable, hmtable, hspins⟩ := of_decide_eq_true hP
  exact ⟨s, hs, hptable, hmtable, hspins, spinlocks_in_order hs⟩

end Dockv6.Spin
