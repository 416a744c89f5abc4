import Dockv6.Kernel.Frame
import Dockv6.Kernel.Queue

/-!
# What kill finds

`kill` looks for a pid and a container id in every slot of the process table, whatever its state. A
slot that is not in use has a pid too: `0`, or the pid of the process that was to be in it after a
`fork` that failed. The mark of `kill` stays for the next process in the slot.
-/

namespace Dockv6

open Kernel

variable {s s' : Kernel} {p np cur q t : PIdx} {d : Pgdir} {pid : Int}

/-- The slot `q` has the pid, and the container id of the caller. -/
def Kernel.pidIn (s : Kernel) (cur q : PIdx) (pid : Int) : Prop :=
  ((s.proc q).pid : Int) = pid ∧ (s.proc q).container_id = (s.proc cur).container_id

instance (s : Kernel) (cur q : PIdx) (pid : Int) : Decidable (s.pidIn cur q pid) :=
  inferInstanceAs (Decidable (_ ∧ _))

/-- `kill` finds the processes, and nothing else. -/
structure KillExact (s : Kernel) (cur : PIdx) (pid : Int) : Prop where
  found : (kill s cur pid).1 = 0 ↔ ∃ q, s.live q ∧ s.pidIn cur q pid
  missed : (kill s cur pid).1 = -1 → (kill s cur pid).2.proc = s.proc ∧
    (kill s cur pid).2.mux = s.mux
  others : (kill s cur pid).1 = 0 → ∃ t, s.live t ∧ s.pidIn cur t pid ∧ ∀ q ≠ t,
    ((kill s cur pid).2.proc q).killed = (s.proc q).killed ∧
      ((kill s cur pid).2.proc q).state = (s.proc q).state

/-! ## The target -/

theorem killTarget_eq_none : s.killTarget cur pid = none ↔ ∀ q, ¬ s.pidIn cur q pid := by
  simp [killTarget, pidIn]

theorem killTarget_pidIn (h : s.killTarget cur pid = some t) : s.pidIn cur t pid := by
  simpa [killTarget, pidIn] using List.find?_some h

theorem kill_some (h : s.killTarget cur pid = some t) :
    (kill s cur pid).1 = 0 ∧ ((kill s cur pid).2.proc t).killed = true ∧
      (((kill s cur pid).2.proc t).state = .UNUSED ↔ (s.proc t).state = .UNUSED) ∧
      ∀ q ≠ t, (kill s cur pid).2.proc q = s.proc q := by
  unfold kill
  rw [h]
  obtain ⟨mux, hmux⟩ :=
    killMutexes_rounds t (List.finRange MUX_MAXNUM) (s.setProc t { s.proc t with killed := true })
  dsimp only
  rw [hmux]
  refine ⟨rfl, ?_, ?_, fun q hq => ?_⟩
  · rw [setProc_self, setProc_self]
  · rw [setProc_self, setProc_self]
    dsimp only
    split_ifs with hsleep
    · simp [hsleep]
    · rfl
  · rw [setProc_of_ne _ _ _ hq, setProc_of_ne _ _ _ hq]

theorem kill_none (h : s.killTarget cur pid = none) : kill s cur pid = (-1, s) := by
  unfold kill
  rw [h]

/-- **`kill` is exact** for a pid that no unused slot has, in the caller's container, and for no
other. -/
theorem killExact_iff (h : PidInv s) : KillExact s cur pid ↔ ∀ q, s.pidIn cur q pid → s.live q := by
  constructor
  · intro hexact q hq
    -- Somebody is found, so there is a process with the pid, and no other slot has it.
    obtain ⟨t, ht⟩ : ∃ t, s.killTarget cur pid = some t :=
      Option.ne_none_iff_exists'.mp fun hnone => killTarget_eq_none.mp hnone q hq
    obtain ⟨r, hlive, hr⟩ := hexact.found.mp (kill_some ht).1
    have heq : (s.proc r).pid = (s.proc q).pid := by
      have := hr.1.trans hq.1.symm
      omega
    rwa [← h.unique heq (h.pos hlive)]
  · intro hall
    cases ht : s.killTarget cur pid with
    | none =>
      have hno := killTarget_eq_none.mp ht
      refine ⟨?_, fun _ => ?_, ?_⟩
      · rw [kill_none ht]
        exact iff_of_false (fun h0 => by cases h0) fun ⟨q, _, hq⟩ => hno q hq
      · rw [kill_none ht]
        exact ⟨rfl, rfl⟩
      · rw [kill_none ht]
        exact fun h0 => by cases h0
    | some t =>
      have htarget := killTarget_pidIn ht
      obtain ⟨hret, -, -, hothers⟩ := kill_some ht
      refine ⟨iff_of_true hret ⟨t, hall t htarget, htarget⟩, ?_, fun _ => ?_⟩
      · rw [hret]
        exact fun h0 => absurd h0 (by decide)
      · refine ⟨t, hall t htarget, htarget, fun q hq => ?_⟩
        rw [hothers q hq]
        exact ⟨rfl, rfl⟩

/-! ## The mark -/

/-- No unused slot carries the mark of `kill`. -/
def Kernel.unmarked (s : Kernel) : Prop := ∀ q, ¬ s.live q → (s.proc q).killed = false

/-- An unused slot that is marked was unused and marked before. -/
def MarksKept (s s' : Kernel) : Prop :=
  ∀ q, ¬ s'.live q → (s'.proc q).killed = true → ¬ s.live q ∧ (s.proc q).killed = true

namespace MarksKept

theorem trans {s1 s2 s3 : Kernel} (h : MarksKept s1 s2) (h' : MarksKept s2 s3) :
    MarksKept s1 s3 := by
  intro q hlive hkilled
  obtain ⟨hlive', hkilled'⟩ := h' q hlive hkilled
  exact h q hlive' hkilled'

/-- The marks are the same, and nobody comes or goes. -/
theorem of_same (hkilled : ∀ q, (s'.proc q).killed = (s.proc q).killed)
    (hstate : ∀ q, (s'.proc q).state.awake = (s.proc q).state.awake) : MarksKept s s' := by
  intro q hlive hq
  rw [hkilled] at hq
  exact ⟨mt (not_congr (ProcState.unused_iff (hstate q))).mpr hlive, hq⟩

theorem of_eq (h : s'.proc = s.proc) : MarksKept s s' :=
  .of_same (fun q => by rw [h]) fun q => by rw [h]

theorem setProc {x : Proc} (hkilled : x.killed = (s.proc p).killed)
    (hstate : x.state = (s.proc p).state) : MarksKept s (s.setProc p x) :=
  .of_same (setProc_field Proc.killed hkilled)
    (setProc_field (fun x => x.state.awake) (congrArg ProcState.awake hstate))

/-- A process in use may be marked. -/
theorem update {x : Proc} (hx : x.killed = true → x.state ≠ .UNUSED) :
    MarksKept s (s.setProc p x) := by
  intro q hlive hkilled
  rw [live, setProc_proc] at hlive
  rw [setProc_proc] at hkilled
  split_ifs at hlive hkilled with hq
  · exact absurd (hx hkilled) hlive
  · exact ⟨hlive, hkilled⟩

theorem wakeup1 (s : Kernel) (chan : Option Chan) : MarksKept s (wakeup1 s chan) := by
  refine .of_same (fun q => ?_) ((Quiet.wakeup1 s chan).awake_eq)
  unfold Dockv6.wakeup1
  dsimp only
  split_ifs <;> rfl

theorem fileFrame : FileFrame MarksKept where
  refl _ := .of_eq rfl
  trans := trans
  fs _ _ := .of_eq rfl
  mem _ _ := .of_eq rfl
  wakeup := wakeup1
  file _ _ := .of_eq rfl
  pipe _ _ := .of_eq rfl
  ofile _ _ _ := .setProc rfl rfl
  cwd _ _ _ := .setProc rfl rfl
  kalloc _ _ _ _ := .of_eq rfl
  kfree _ _ _ _ := .of_eq rfl

theorem of_memOnly (h : MemOnly s s') : MarksKept s s' :=
  .of_same (h.field Proc.killed fun _ => rfl) h.quiet.awake_eq

theorem of_queueOnly (h : QueueOnly s s') : MarksKept s s' := by
  obtain ⟨q, mem, rfl⟩ := h
  exact .of_eq rfl

theorem of_rootOnly (h : RootOnly s s') : MarksKept s s' := by
  obtain ⟨containers, fs, mem, rfl⟩ := h
  exact .of_eq rfl

theorem of_mutexOnly (h : MutexOnly p s s') : MarksKept s s' := by
  obtain ⟨mux, f, rfl⟩ := h
  have hset : MarksKept s (s.setProc p { s.proc p with mutex := f }) := .setProc rfl rfl
  exact hset.trans (.of_eq rfl)

end MarksKept

theorem Passed.marksKept (h : Passed p s s') : MarksKept s s' := by
  intro q hlive hkilled
  have hsame := h.field Proc.killed (fun _ _ _ _ => rfl) q
  by_cases hq : q = p
  · refine absurd ?_ hlive
    simp [hq, live, h.zombie]
  · exact ⟨mt (not_congr (ProcState.unused_iff (h.awake hq))).mpr hlive, hsame.symm.trans hkilled⟩

theorem exit_marksKept (h : exit s p = .ok s') : MarksKept s s' := by
  obtain ⟨-, s1, s2, hfiles, hshm, hpassed⟩ := exit_cases h
  have hclosed : MarksKept s s1 := MarksKept.fileFrame.closeFiles hfiles
  have hshm' : MarksKept s1 s2 := .of_memOnly (exitShm_memOnly hshm)
  exact ((hclosed.trans hshm').trans (.of_mutexOnly (exitMutexes_mutexOnly s2 p))).trans
    hpassed.marksKept

theorem wait_marksKept {r : Option Int} (h : wait s p = .ok (r, s')) : MarksKept s s' := by
  obtain ⟨q, page, d, m, m', c, -, -, -, -, -, -, rfl⟩ | rfl | rfl := wait_cases h
  · -- `wait` takes the mark off the slot that it frees.
    have hfreed : MarksKept s (s.setProc q (s.proc q).freed) := .update fun hx => by cases hx
    exact hfreed.trans (.of_eq rfl)
  · exact .of_eq rfl
  · exact .update fun _ => nofun

theorem exec_marksKept {path : Bytes} {argv : List Bytes} {r : Int}
    (h : exec s p path argv = .ok (r, s')) : MarksKept s s' := by
  obtain ⟨old, ip, s1, -, hnamei, hrest⟩ := exec_cases h
  refine (MarksKept.of_rootOnly (nameiProc_rootOnly hnamei)).trans ?_
  obtain ⟨-, rfl⟩ | ⟨i, fs, fs', -, -, -, hrest⟩ := hrest
  · exact .of_eq rfl
  have hfs : MarksKept s1 { s1 with fs := fs' } := .of_eq rfl
  obtain rfl | ⟨data, elf, hexec⟩ := hrest
  · exact hfs
  · exact hfs.trans (.of_memOnly (execElf_memOnly hexec))

theorem Charged.marksKept {s1 : Kernel} (h : Charged s p s1) : MarksKept s s1 := .of_eq h.proc

/-- The slot that a failed `fork` tried has the mark that it had. -/
theorem ForkFailed.marksKept (h : ForkFailed s p d s') : MarksKept s s' := by
  have hslot : ∀ {np : PIdx} {x : Proc}, s'.proc = Function.update s.proc np x →
      (s.proc np).state = .UNUSED → x.state = .UNUSED → x.killed = (s.proc np).killed →
      MarksKept s s' := by
    intro np x hproc hunused hx hkilled
    have hset : MarksKept s (s.setProc np x) := .setProc hkilled (hx.trans hunused.symm)
    exact hset.trans (.of_eq hproc)
  cases h with
  | noSlot => exact .of_eq rfl
  | noStack np q mem hnp => exact hslot rfl hnp.unused rfl rfl
  | noCopy np page free q mem m m' hnp => exact hslot rfl hnp.unused rfl rfl

theorem ForkMade.child_live (h : ForkMade s p np s') : s'.live np := by
  intro hunused
  have hstate : (s'.proc np).state.awake = .RUNNABLE := congrArg Ident.state h.child
  rw [hunused] at hstate
  cases hstate

theorem ForkMade.marksKept (h : ForkMade s p np s') : MarksKept s s' := by
  intro q hlive hkilled
  have hq : q ≠ np := fun heq => hlive (heq ▸ h.child_live)
  rw [live, h.others q hq] at hlive
  rw [h.others q hq] at hkilled
  exact ⟨hlive, hkilled⟩

theorem fork_marksKept {r : Int} (h : fork s p = .ok (r, s')) (hp : s.live p) : MarksKept s s' := by
  obtain ⟨d, -, ⟨-, rfl, -⟩ | ⟨s1, hcharged, ⟨-, hfailed⟩ | ⟨np, -, hok⟩⟩⟩ := fork_cases h
  · exact .of_eq rfl
  · exact hcharged.marksKept.trans hfailed.marksKept
  · have hp1 : s1.live p := by rwa [live, hcharged.proc]
    exact hcharged.marksKept.trans (hok.made hp1).marksKept

theorem cmCreateAndEnter_marksKept {init fs : Bytes} {n r : Int}
    (h : cmCreateAndEnter s p init fs n = .ok (r, s')) (hp : s.live p) : MarksKept s s' := by
  obtain rfl | ⟨c, cwd, cid, containers, fs, mem, r', s2, hfork, rfl⟩ := cmCreateAndEnter_cases h
  · exact .setProc rfl rfl
  have hentered : MarksKept s (s.setProc p ((s.proc p).entered c cwd cid)) := .setProc rfl rfl
  have hfork' := fork_marksKept hfork (entered_live hp)
  exact ((hentered.trans (.of_eq rfl)).trans hfork').trans (.setProc rfl rfl)

theorem other_marksKept (o : Other) (hp : s.canRun p) : MarksKept s (o.run s p) := by
  unfold Other.run
  dsimp only
  have hchanged : MarksKept s
      { s with mux := o.mux, km := o.km, file := o.file, pipe := o.pipe, fs := o.fs } := .of_eq rfl
  have hwoken := hchanged.trans (MarksKept.fileFrame.wakeups _ o.wakeup)
  have hlive := (wakeups_quiet
    { s with mux := o.mux, km := o.km, file := o.file, pipe := o.pipe, fs := o.fs } o.wakeup).live p
  split
  · exact hwoken.trans (.update fun _ => hlive.mpr hp.live)
  · exact hwoken.trans (.update fun _ => nofun)

/-- The pid is none of an unused slot in the container of the caller; and the index of a mutex is in
range. -/
def Kernel.killOk (s : Kernel) : PIdx × Call → Prop
  | (p, .kill pid) => ∀ q, s.pidIn p q pid → s.live q
  | (_, .mutexDelete muxid) => muxInRange muxid
  | _ => True

theorem kill_marksKept (h : ∀ q, s.pidIn cur q pid → s.live q) :
    MarksKept s (kill s cur pid).2 := by
  cases ht : s.killTarget cur pid with
  | none =>
    rw [kill_none ht]
    exact .of_eq rfl
  | some t =>
    obtain ⟨-, -, hunused, hothers⟩ := kill_some ht
    intro q hlive hkilled
    by_cases hq : q = t
    · subst hq
      exact absurd (mt hunused.mp (h q (killTarget_pidIn ht))) hlive
    · rw [live, hothers q hq] at hlive
      rw [hothers q hq] at hkilled
      exact ⟨hlive, hkilled⟩

theorem Call.run_marksKept {c : Call} (h : c.run s p = .ok s') (hp : s.canRun p)
    (hok : s.killOk (p, c)) : MarksKept s s' := by
  cases c.ran h with
  | fork h => exact fork_marksKept h hp.live
  | exit h => exact exit_marksKept h
  | wait h => exact wait_marksKept h
  | kill pid => exact kill_marksKept hok
  | exec h => exact exec_marksKept h
  | sbrk h => exact .of_memOnly (growproc_memOnly h)
  | mGet h => exact .of_memOnly (shmGet_memOnly h)
  | mRem h => exact .of_memOnly (shmRem_memOnly h)
  | cmCreateAndEnter h => exact cmCreateAndEnter_marksKept h hp.live
  | cmMaxproc n =>
    obtain ⟨c, hc⟩ := cmMaxproc_eq s p n
    rw [hc]
    exact .of_eq rfl
  | cmSetroot h =>
    obtain rfl | ⟨c, -, -, h⟩ := sysCmSetroot_cases h
    · exact .of_eq rfl
    · exact .of_rootOnly (cmSetroot_rootOnly h)
  | mutexCreate h => exact .of_mutexOnly (mutexCreate_mutexOnly h)
  | mutexDelete i => exact .of_mutexOnly (mutexDelete_mutexOnly s p i)
  | prioSet h => exact .of_queueOnly (prioSet_queueOnly h)
  | store mem => exact .of_eq rfl
  | other o => exact other_marksKept o hp

theorem boot_unmarked (h : Boot s) : s.unmarked := by
  obtain ⟨b, code, p, page, free, mem, d0, d, m0, m, cwd, q, fs, -, -, -, -, -, rfl⟩ := boot_cases h
  intro r _
  dsimp only
  rw [Function.update_apply]
  split_ifs <;> rfl

theorem reach_unmarked (h : kernelMachine.Reach Kernel.killOk s) : s.unmarked := by
  refine h.invariant (fun _ => boot_unmarked) fun s t a hs hok hstep => ?_
  obtain ⟨hp, hrun⟩ := kernelMachine_step hstep
  intro q hlive
  by_contra hkilled
  obtain ⟨hlive', hkilled'⟩ := Call.run_marksKept hrun hp hok q hlive (by simpa using hkilled)
  rw [hs q hlive'] at hkilled'
  cases hkilled'

/-- The child of `fork` has the mark of its slot. -/
theorem ForkOk.killed {s1 : Kernel} (h : ForkOk s1 p np d s') :
    (s'.proc np).killed = (s1.proc np).killed := by
  obtain ⟨-, page, free, q, mem, d', m, -, -, -, hchild⟩ := h
  obtain ⟨s2, s3, hshm, htail, rfl⟩ := forkChild_cases hchild
  have hrest := (forkShm_rest hshm).trans htail.toForkRest
  have hcore : (s3.proc np).core.killed = _ := congrArg Proc.killed hrest.core
  simp only [setProc_self, Function.update_self] at hcore
  rw [setProc_self]
  exact hcore

/-- A process is new after a `fork`: it has the mark of its slot. -/
theorem fork_killed {r : Int} (h : fork s p = .ok (r, s')) (hp : s.live p) (hold : ¬ s.live q)
    (hnew : s'.live q) : (s'.proc q).killed = (s.proc q).killed := by
  obtain ⟨d, -, ⟨-, rfl, -⟩ | ⟨s1, hcharged, ⟨-, hfailed⟩ | ⟨np, -, hok⟩⟩⟩ := fork_cases h
  · exact absurd hnew hold
  · obtain rfl | ⟨np, x, q', m, -, hx, -, rfl⟩ := hfailed.unused
    · rw [hcharged.proc]
    · by_cases hq : q = np
      · subst hq
        simp [live, hx] at hnew
      · simp only [Function.update_of_ne hq, hcharged.proc]
  · have hp1 : s1.live p := by rwa [live, hcharged.proc]
    have hmade := hok.made hp1
    by_cases hq : q = np
    · rw [hq, hok.killed, hcharged.proc]
    · rw [hmade.others q hq, hcharged.proc]

instance (s : Kernel) : ∀ a, Decidable (s.killOk a)
  | (p, .kill pid) => inferInstanceAs (Decidable (∀ q, s.pidIn p q pid → s.live q))
  | (_, .mutexDelete muxid) => inferInstanceAs (Decidable (muxInRange muxid))
  | (_, .fork) | (_, .exit) | (_, .wait) | (_, .exec ..) | (_, .sbrk _) | (_, .mGet _)
  | (_, .mRem _)
  | (_, .cmCreateAndEnter ..) | (_, .cmMaxproc _) | (_, .cmSetroot ..) | (_, .mutexCreate _)
  | (_, .prioSet ..) | (_, .store ..) | (_, .other _) => .isTrue trivial

end Dockv6
