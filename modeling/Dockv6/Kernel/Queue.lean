import Dockv6.Kernel.Boot
import Dockv6.Kernel.Enter
import Dockv6.Kernel.Memory

/-!
# What the calls do to the priority queue and to pids

Only `fork` and `prio_set` change the queue (`Settled`). A `fork` takes the first unused slot,
enqueues it and gives it the next pid, whether or not it then succeeds; with a child there are two
calls of `prio_set` after that (`Spawn`). Pids tell the processes apart (`PidInv`).
-/

namespace Dockv6

open Kernel Function

variable {s s' : Kernel} {p np : PIdx} {d : Pgdir}

/-! ## Enqueue -/

/-- The queue with the process `p` at the end of the bin `n`. When the bin has a head but no tail,
the link to `p` is written to the memory of the running process. -/
def Pqueue.enqueue (q : Pqueue) (p : PIdx) (n : ℕ) : Pqueue where
  bin := update q.bin n
    { head := (q.bin n).head <|> some p, tail := some p, size := (q.bin n).size + 1 }
  priority := update q.priority p n
  next := update
    (match (q.bin n).head, (q.bin n).tail with
      | some _, some t => update q.next t (some p)
      | _, _ => q.next) p none

theorem pqueueEnqueue_some {n : ℕ} (h : pqueueEnqueue s d (some p) n = .ok s') :
    n < NBIN ∧ s'.pq = s.pq.enqueue p n := by
  obtain ⟨s1, h1, h⟩ := bind_eq_ok.mp h
  cases h1
  split_ifs at h with hn
  refine ⟨not_le.mp hn, ?_⟩
  dsimp only [setPq] at h
  cases hhead : (s.pq.bin n).head with
  | none =>
    rw [hhead] at h
    cases h
    simp only [Pqueue.enqueue, hhead, setBin, setPq]
    rfl
  | some r =>
    rw [hhead] at h
    dsimp only at h
    obtain ⟨s2, h2, h⟩ := bind_eq_ok.mp h
    cases h
    cases htail : (s.pq.bin n).tail with
    | none =>
      rw [htail] at h2
      obtain ⟨mem, -, h2⟩ := bind_eq_ok.mp h2
      cases h2
      simp only [Pqueue.enqueue, hhead, htail, setBin, setPq, setMem]
      rfl
    | some t =>
      rw [htail] at h2
      cases h2
      simp only [Pqueue.enqueue, hhead, htail, setBin, setPq]
      rfl

theorem setNext_priority {o next : Option PIdx} (h : s.setNext d o next = .ok s') :
    s'.pq.priority = s.pq.priority := by
  unfold setNext at h
  split at h
  · cases h
    rfl
  · obtain ⟨mem, -, h⟩ := bind_eq_ok.mp h
    cases h
    rfl

/-- A null process has no priority that others could see. -/
theorem pqueueEnqueue_none {n : ℕ} (h : pqueueEnqueue s d none n = .ok s') :
    s'.pq.priority = s.pq.priority := by
  obtain ⟨s1, h1, h⟩ := bind_eq_ok.mp h
  obtain ⟨mem, -, h1⟩ := bind_eq_ok.mp h1
  cases h1
  split_ifs at h
  dsimp only at h
  split at h
  · have hlast := setNext_priority h
    exact hlast
  · obtain ⟨s2, h2, h⟩ := bind_eq_ok.mp h
    have hlink := setNext_priority h2
    have hlast := setNext_priority h
    exact hlast.trans hlink

/-! ## The search of `prio_set` -/

theorem unlinkAfter_pid {pid : Int} {n : ℕ} {r : Option PIdx}
    (h : unlinkAfter s pid n p = .ok (r, s')) : ∀ q, r = some q → ((s.proc q).pid : Int) = pid := by
  induction n generalizing p with
  | zero => cases h
  | succ n ih =>
    rw [unlinkAfter] at h
    split at h
    · cases h
      simp
    · split_ifs at h with hpid
      · cases h
        exact fun q hq => Option.some.inj hq ▸ hpid
      · exact ih h

theorem unlinkBins_pid {pid : Int} {is : List ℕ} {found r : Option PIdx}
    (h : unlinkBins pid is s found = .ok (r, s'))
    (hfound : ∀ q, found = some q → ((s.proc q).pid : Int) = pid) :
    ∀ q, r = some q → ((s.proc q).pid : Int) = pid := by
  induction is generalizing s found with
  | nil =>
    cases h
    exact hfound
  | cons i is ih =>
    rw [unlinkBins] at h
    split at h
    · exact ih h hfound
    · split_ifs at h with hpid
      · cases h
        exact fun q hq => Option.some.inj hq ▸ hpid
      · obtain ⟨⟨r1, s1⟩, h1, h⟩ := bind_eq_ok.mp h
        obtain ⟨nx, rfl⟩ := linksOnly_of_unlinks (unlinkAfter_unlinks h1).to_reflTransGen
        have hlater := ih h fun t ht => by
          cases r1 with
          | none => exact hfound t ht
          | some r1 => exact unlinkAfter_pid h1 t ht
        exact hlater

theorem prioSet_priority {cur : PIdx} {pid priority r : Int}
    (h : prioSet s cur d pid priority = .ok (r, s')) :
    s'.pq.priority = s.pq.priority ∨ ∃ p q n, ((s.proc p).pid : Int) = pid ∧
      ((s.proc q).pid : Int) = pid ∧ s.pq.priority p < n ∧
      s'.pq.priority = update s.pq.priority q n := by
  obtain rfl | ⟨p, found, s1, hp, hlt, -, hfound, henq⟩ := prioSet_cases h
  · exact .inl rfl
  have hpid := unlinkBins_pid hfound (by simp)
  obtain ⟨nx, rfl⟩ := unlinkBins_linksOnly hfound
  cases found with
  | none =>
    have hprio := pqueueEnqueue_none henq
    exact .inl hprio
  | some q =>
    refine .inr ⟨p, q, _, withPid_eq_some hp, hpid q rfl, hlt, ?_⟩
    rw [(pqueueEnqueue_some henq).2]
    rfl

/-! ## The other calls -/

/-- No process is new and the queue is the same; a pid goes with its process. -/
structure Settled (s s' : Kernel) : Prop where
  pq : s'.pq = s.pq
  nextpid : s'.nextpid = s.nextpid
  proc : ∀ q, ((s'.proc q).pid = (s.proc q).pid ∧ (s'.live q ↔ s.live q)) ∨
    ((s'.proc q).pid = 0 ∧ ¬ s'.live q)

namespace Settled

theorem trans {s1 s2 s3 : Kernel} (h : Settled s1 s2) (h' : Settled s2 s3) : Settled s1 s3 where
  pq := h'.pq.trans h.pq
  nextpid := h'.nextpid.trans h.nextpid
  proc q := by
    obtain ⟨hpid', hlive'⟩ | hgone := h'.proc q
    · rw [hpid', hlive']
      exact h.proc q
    · exact .inr hgone

theorem of_quiet (h : Quiet s s') : Settled s s' :=
  ⟨h.pq, h.nextpid, fun q => .inl ⟨congrArg Ident.pid (h.ident q), h.live q⟩⟩

theorem of_proc (hpq : s'.pq = s.pq) (hnext : s'.nextpid = s.nextpid)
    (hpid : ∀ q, (s'.proc q).pid = (s.proc q).pid)
    (hstate : ∀ q, (s'.proc q).state.awake = (s.proc q).state.awake) : Settled s s' :=
  ⟨hpq, hnext, fun q => .inl ⟨hpid q, not_congr (ProcState.unused_iff (hstate q))⟩⟩

theorem setProc {x : Proc} (hpid : x.pid = (s.proc p).pid)
    (hstate : x.state.awake = (s.proc p).state.awake) : Settled s (s.setProc p x) :=
  .of_proc rfl rfl (setProc_field Proc.pid hpid) (setProc_field (fun x => x.state.awake) hstate)

theorem of_eq (hp : s'.proc = s.proc) (hpq : s'.pq = s.pq) (hnext : s'.nextpid = s.nextpid) :
    Settled s s' :=
  .of_proc hpq hnext (fun q => by rw [hp]) fun q => by rw [hp]

theorem of_mutexOnly (h : MutexOnly p s s') : Settled s s' := by
  obtain ⟨mux, f, rfl⟩ := h
  have hset : Settled s (s.setProc p { s.proc p with mutex := f }) := .setProc rfl rfl
  exact hset.trans (.of_eq rfl rfl rfl)

end Settled

theorem Passed.settled (h : Passed p s s') (hp : s.live p) : Settled s s' := by
  refine ⟨h.pq, h.nextpid, fun q => .inl ⟨h.field Proc.pid (fun _ _ _ _ => rfl) q, ?_⟩⟩
  by_cases hq : q = p
  · subst hq
    refine iff_of_true ?_ hp
    simp [live, h.zombie]
  · exact not_congr (ProcState.unused_iff (h.awake hq))

theorem exit_settled (h : exit s p = .ok s') (hp : s.live p) : Settled s s' := by
  obtain ⟨-, s1, s2, hfiles, hshm, hpassed⟩ := exit_cases h
  have hquiet := (closeFiles_quiet hfiles).trans (exitShm_quiet hshm)
  have hmutexes := (Settled.of_quiet hquiet).trans (.of_mutexOnly (exitMutexes_mutexOnly s2 p))
  have hawake := congrArg MemView.state ((exitMutexes_memSame s2 p).view p)
  refine hmutexes.trans (hpassed.settled (mt (ProcState.unused_iff hawake).mp ?_))
  exact (hquiet.live p).mpr hp

theorem wait_settled {r : Option Int} (h : wait s p = .ok (r, s')) (hp : s.canRun p) :
    Settled s s' := by
  obtain ⟨q, page, d, m, m', c, -, -, -, -, -, -, rfl⟩ | rfl | rfl := wait_cases h
  · refine ⟨rfl, rfl, fun r => ?_⟩
    by_cases hr : r = q
    · subst hr
      refine .inr ?_
      rw [live]
      show ((s.setProc r _).proc r).pid = 0 ∧ ¬ ((s.setProc r _).proc r).state ≠ .UNUSED
      rw [setProc_self]
      exact ⟨rfl, fun hne => hne rfl⟩
    · refine .inl ?_
      rw [live]
      show ((s.setProc q _).proc r).pid = _ ∧ (((s.setProc q _).proc r).state ≠ .UNUSED ↔ _)
      rw [setProc_of_ne _ _ _ hr]
      exact ⟨rfl, Iff.rfl⟩
  · exact .of_eq rfl rfl rfl
  · refine .setProc rfl ?_
    rcases hp with hp | hp <;> rw [hp] <;> rfl

theorem kill_settled (s : Kernel) (cur : PIdx) (pid : Int) : Settled s (kill s cur pid).2 := by
  obtain h | ⟨q, mux, h⟩ := kill_cases s cur pid
  · rw [h]
    exact .of_eq rfl rfl rfl
  · rw [h]
    refine Settled.trans (.setProc ?_ ?_) (.of_eq rfl rfl rfl)
    · rfl
    · dsimp only
      split_ifs with hsleep
      · rw [hsleep]
        rfl
      · rfl

theorem other_settled (o : Other) (hp : s.canRun p) : Settled s (o.run s p) := by
  unfold Other.run
  dsimp only
  have hwake := wakeups_quiet
    { s with mux := o.mux, km := o.km, file := o.file, pipe := o.pipe, fs := o.fs } o.wakeup
  generalize wakeups _ o.wakeup = s1 at hwake
  have hfirst : Settled s s1 := by
    refine Settled.trans ?_ (.of_quiet hwake)
    exact .of_eq rfl rfl rfl
  refine hfirst.trans ?_
  have hawake : (s1.proc p).state.awake = .RUNNABLE := by
    rw [hwake.awake_eq p]
    rcases hp with hp | hp <;> exact congrArg ProcState.awake hp
  split
  · exact .setProc rfl rfl
  · exact .setProc rfl hawake.symm

/-- Does the call make processes or change priorities? -/
def Call.movesQueue : Call → Bool
  | .fork | .prioSet .. | .cmCreateAndEnter .. => true
  | _ => false

theorem Call.run_settled {c : Call} (h : c.run s p = .ok s') (hp : s.canRun p)
    (hc : c.movesQueue = false) : Settled s s' := by
  by_cases hquiet : c.isQuiet = true
  · exact .of_quiet (c.run_quiet h hquiet)
  cases c.ran h with
  | exec | sbrk | mGet | mRem | cmSetroot | store => exact absurd rfl hquiet
  | fork | prioSet | cmCreateAndEnter => cases hc
  | exit h => exact exit_settled h hp.live
  | wait h => exact wait_settled h hp
  | kill pid => exact kill_settled s p pid
  | cmMaxproc n =>
    obtain ⟨c, hc⟩ := cmMaxproc_eq s p n
    rw [hc]
    exact .of_eq rfl rfl rfl
  | mutexCreate h => exact .of_mutexOnly (mutexCreate_mutexOnly h)
  | mutexDelete i => exact .of_mutexOnly (mutexDelete_mutexOnly s p i)
  | other o => exact other_settled o hp

/-! ## Fork -/

/-- A `fork` by `p` that takes the slot `np`. -/
structure Spawn (s : Kernel) (p np : PIdx) (s' : Kernel) : Prop where
  unused : ¬ s.live np
  first : ∀ q < np, s.live q
  others : ∀ q, q ≠ np → s'.proc q = s.proc q
  pid : (s'.proc np).pid = s.nextpid
  nextpid : s'.nextpid = s.nextpid + 1
  lt : s.pq.priority p < NBIN
  failed : ¬ s'.live np → s'.pq = s.pq.enqueue np (s.pq.priority p)
  made : s'.live np → ∃ s1 s2 d, s1.pq = s.pq.enqueue np (s.pq.priority p) ∧
    (∀ q, q ≠ np → s1.proc q = s.proc q) ∧ (s1.proc np).pid = s.nextpid ∧
    forkPrio s1 p np d = .ok s2 ∧ s'.pq = s2.pq

theorem ForkFailed.spawn {s1 : Kernel} (h : ForkFailed s1 p d s') :
    s' = s1 ∨ ∃ np, Spawn s1 p np s' := by
  cases h with
  | noSlot => exact .inl rfl
  | noStack np q mem hnp | noCopy np page free q mem m m' hnp =>
    obtain ⟨hlt, hq⟩ := pqueueEnqueue_some hnp.enqueued
    refine .inr ⟨np, fun hlive => hlive hnp.unused, hnp.first, fun r hr => ?_, ?_, rfl, hlt,
      fun _ => hq, fun hlive => absurd ?_ hlive⟩
    · exact update_of_ne hr _ _
    all_goals
      dsimp only
      rw [update_self]
    rfl

theorem ForkOk.spawn {s1 : Kernel} (h : ForkOk s1 p np d s') (hp : s1.live p) :
    Spawn s1 p np s' := by
  have hmade := h.made hp
  obtain ⟨hunused, page, free, q, mem, d', m, htaken, -, -, hchild⟩ := h
  obtain ⟨hlt, hq⟩ := pqueueEnqueue_some htaken.enqueued
  have hpid : (s'.proc np).pid = s1.nextpid := congrArg Ident.pid hmade.child
  have hstate : (s'.proc np).state.awake = .RUNNABLE := congrArg Ident.state hmade.child
  have hlive : s'.live np := fun hu => by
    rw [hu] at hstate
    cases hstate
  refine ⟨fun hl => hl hunused, htaken.first, hmade.others, hpid, hmade.nextpid, hlt,
    fun hdead => absurd hlive hdead, fun _ => ?_⟩
  obtain ⟨s2, s3, s4, hshm, htail, hpq, hprio, rfl⟩ := forkChild_parts hchild
  have hrest := (forkShm_rest hshm).trans htail.toForkRest
  have hcore := Proc.ident_of_core hrest.core
  refine ⟨s3, s4, d, hpq.trans hq, fun r hr => ?_, ?_, hprio, rfl⟩
  · rw [hrest.others r hr, setProc_of_ne _ _ _ hr]
    exact update_of_ne hr _ _
  · refine (congrArg Ident.pid hcore).trans ?_
    rw [setProc_self]
    dsimp only
    rw [update_self]
    rfl

theorem Spawn.of_charged {s1 : Kernel} (h : Spawn s1 p np s') (hs : Charged s p s1) :
    Spawn s p np s' := by
  cases hs with
  | outside => exact h
  | inside =>
    exact ⟨h.unused, h.first, h.others, h.pid, h.nextpid, h.lt, h.failed, h.made⟩

/-- **`fork` and the queue.** Nothing happens to it, or the first unused slot is taken. -/
theorem fork_spawn {r : Int} (h : fork s p = .ok (r, s')) (hp : s.live p) :
    Settled s s' ∨ ∃ np, Spawn s p np s' := by
  obtain ⟨d, -, ⟨-, rfl, -, -⟩ | ⟨s1, hs1, hrest⟩⟩ := fork_cases h
  · exact .inl (.of_eq rfl rfl rfl)
  have hp1 : s1.live p := by rwa [live, hs1.proc]
  obtain ⟨-, hfailed⟩ | ⟨np, -, hok⟩ := hrest
  · obtain rfl | ⟨np, hspawn⟩ := hfailed.spawn
    · refine .inl ?_
      cases hs1 <;> exact .of_eq rfl rfl rfl
    · exact .inr ⟨np, hspawn.of_charged hs1⟩
  · exact .inr ⟨np, (hok.spawn hp1).of_charged hs1⟩

/-- `cm_create_and_enter` and the queue: its `fork` starts from a state with the same pids and the
same queue. -/
theorem cmCreateAndEnter_spawn {init fs : Bytes} {n r : Int}
    (h : cmCreateAndEnter s p init fs n = .ok (r, s')) (hp : s.live p) :
    Settled s s' ∨ ∃ s1 s2 np, Settled s s1 ∧ s1.live p ∧ (∀ q, s1.live q ↔ s.live q) ∧
      Spawn s1 p np s2 ∧ s' = cmLeave s2 p := by
  have hset : ∀ {s : Kernel} {x : Proc}, x.pid = (s.proc p).pid → x.state = (s.proc p).state →
      Settled s (s.setProc p x) := fun hpid hstate =>
      .setProc hpid (congrArg ProcState.awake hstate)
  obtain rfl | ⟨c, cwd, cid, containers, fs, mem, r', s2, hfork, rfl⟩ := cmCreateAndEnter_cases h
  · exact .inl (hset rfl rfl)
  have henter : Settled s (s.entered p c cwd cid containers fs mem) :=
    Settled.trans (hset (x := (s.proc p).entered c cwd cid) rfl rfl) (.of_eq rfl rfl rfl)
  obtain hsettled | ⟨np, hspawn⟩ := fork_spawn hfork (entered_live hp)
  · exact .inl ((henter.trans hsettled).trans (hset rfl rfl))
  · refine .inr ⟨_, s2, np, henter, entered_live hp, fun q => ?_, hspawn, rfl⟩
    by_cases hq : q = p
    · subst hq
      exact iff_of_true (entered_live hp) hp
    · rw [live, entered_of_ne hq, live]

/-! ## Pids -/

/-- Pids tell processes apart and are below the next one; a process has a pid. -/
structure PidInv (s : Kernel) : Prop where
  unique : ∀ {p q}, (s.proc p).pid = (s.proc q).pid → (s.proc p).pid ≠ 0 → p = q
  lt : ∀ p, (s.proc p).pid < s.nextpid
  pos : ∀ {p}, s.live p → (s.proc p).pid ≠ 0

namespace PidInv

theorem of_settled (h : PidInv s) (hs : Settled s s') : PidInv s' where
  unique {p q} heq hne := by
    obtain ⟨hp, -⟩ | ⟨hp, -⟩ := hs.proc p
    · obtain ⟨hq, -⟩ | ⟨hq, -⟩ := hs.proc q
      · rw [hp, hq] at heq
        exact h.unique heq (hp ▸ hne)
      · exact absurd (heq.trans hq) hne
    · exact absurd hp hne
  lt p := by
    have hlt := h.lt p
    rw [hs.nextpid]
    obtain ⟨hp, -⟩ | ⟨hp, -⟩ := hs.proc p <;> omega
  pos {p} hlive := by
    obtain ⟨hp, hiff⟩ | ⟨-, hdead⟩ := hs.proc p
    · rw [hp]
      exact h.pos (hiff.mp hlive)
    · exact absurd hlive hdead

theorem of_queueOnly (h : PidInv s) (hs : QueueOnly s s') : PidInv s' := by
  obtain ⟨q, mem, rfl⟩ := hs
  exact ⟨h.unique, h.lt, h.pos⟩

/-- The pid of the new slot is larger than all others. -/
theorem of_spawn (h : PidInv s) (hs : Spawn s p np s') : PidInv s' := by
  have hother : ∀ q, q ≠ np → (s'.proc q).pid < s.nextpid := fun q hq => hs.others q hq ▸ h.lt q
  refine ⟨fun {q r} heq hne => ?_, fun q => ?_, fun {q} hlive => ?_⟩
  · by_cases hq : q = np <;> by_cases hr : r = np
    · rw [hq, hr]
    · have hlt := hother r hr
      rw [← heq, hq, hs.pid] at hlt
      exact absurd hlt (lt_irrefl _)
    · have hlt := hother q hq
      rw [heq, hr, hs.pid] at hlt
      exact absurd hlt (lt_irrefl _)
    · rw [hs.others q hq, hs.others r hr] at heq
      exact h.unique heq (hs.others q hq ▸ hne)
  · rw [hs.nextpid]
    by_cases hq : q = np
    · rw [hq, hs.pid]
      exact Nat.lt_succ_self _
    · exact (hother q hq).trans (Nat.lt_succ_self _)
  · by_cases hq : q = np
    · rw [hq, hs.pid]
      exact Nat.ne_zero_of_lt (h.lt np)
    · rw [live, hs.others q hq] at hlive
      rw [hs.others q hq]
      exact h.pos hlive

end PidInv

theorem cmLeave_settled (s : Kernel) (p : PIdx) : Settled s (cmLeave s p) := by
  refine .setProc ?_ ?_ <;> rfl

theorem Call.run_pidInv {c : Call} (h : c.run s p = .ok s') (hp : s.canRun p) (hinv : PidInv s) :
    PidInv s' := by
  by_cases hmoves : c.movesQueue = false
  · exact hinv.of_settled (c.run_settled h hp hmoves)
  cases c.ran h with
  | fork h =>
    obtain hsettled | ⟨np, hspawn⟩ := fork_spawn h hp.live
    · exact hinv.of_settled hsettled
    · exact hinv.of_spawn hspawn
  | prioSet h => exact hinv.of_queueOnly (prioSet_queueOnly h)
  | cmCreateAndEnter h =>
    obtain hsettled | ⟨s1, s2, np, hsettled, -, -, hspawn, rfl⟩ := cmCreateAndEnter_spawn h hp.live
    · exact hinv.of_settled hsettled
    · exact ((hinv.of_settled hsettled).of_spawn hspawn).of_settled (cmLeave_settled s2 p)
  | exit | wait | kill | exec | sbrk | mGet | mRem | cmMaxproc | cmSetroot | mutexCreate
  | mutexDelete | store | other => exact absurd rfl hmoves

theorem boot_pidInv (h : Boot s) : PidInv s := by
  obtain ⟨b, code, p, page, free, mem, d0, d, m0, m, cwd, q, fs, -, -, -, -, -, rfl⟩ := boot_cases h
  have hpid : ∀ r, ((update (fun _ => Proc.zero) p (Proc.first page d cwd) : PIdx → Proc) r).pid =
      if r = p then 1 else 0 := by
    intro r
    rw [update_apply]
    split_ifs <;> rfl
  refine ⟨fun {r t} heq hne => ?_, fun r => ?_, fun {r} hlive => ?_⟩
  · dsimp only at heq hne
    rw [hpid] at hne
    rw [hpid, hpid] at heq
    by_cases hr : r = p
    · rw [if_pos hr] at heq
      by_contra hrt
      rw [if_neg fun ht => hrt (hr.trans ht.symm)] at heq
      cases heq
    · exact absurd (if_neg hr) hne
  · dsimp only
    rw [hpid]
    split_ifs <;> omega
  · dsimp only
    rw [hpid]
    split_ifs with hr
    · exact Nat.one_ne_zero
    · refine absurd ?_ hlive
      dsimp only
      rw [update_of_ne hr]
      rfl

theorem reach_pidInv {ok : Kernel → PIdx × Call → Prop} (h : kernelMachine.Reach ok s) : PidInv s :=
  h.invariant (fun _ => boot_pidInv) fun _ _ _ hinv _ hstep =>
    have ⟨hp, hrun⟩ := kernelMachine_step hstep
    Call.run_pidInv hrun hp hinv

end Dockv6
