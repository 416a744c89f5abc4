import Dockv6.Priority.Bins
import Dockv6.Process.Forest

/-!
# Who may set a priority

`prio_set` is meant for a process and its ancestors (`Authority`). For the first process, and for a
slot without a process whose pid was asked for, the walk to the ancestors reads the parent of a
process that has none; when a target is in none of the lists, a null process is enqueued in its
place; and where such a null process is the tail of the new bin, the target is linked through it, to
user memory that may not be mapped. There are no other ways to fail.
-/

namespace Dockv6

open Kernel Function

variable {s s' : Kernel} {p q cur : PIdx} {d : Pgdir} {n : ℕ} {pid priority : Int}

/-- The process has the pid, the caller is it or one of its ancestors, and its priority is not above
the one that is asked for. -/
def Kernel.MayRaise (s : Kernel) (cur : PIdx) (pid priority : Int) (q : PIdx) : Prop :=
  s.live q ∧ ((s.proc q).pid : Int) = pid ∧ (q = cur ∨ s.family.Ancestor cur q) ∧
    (s.pq.priority q : Int) ≤ priority

/-- What `prio_set` is to do: it ends, with 0 if the caller may set the priority and with -1
otherwise; in the first case the priority of the target and no other is set, in the second neither a
priority nor a link changes. -/
def Authority (s : Kernel) (cur : PIdx) (d : Pgdir) (pid priority : Int) : Prop :=
  ∃ r s', prioSet s cur d pid priority = .ok (r, s') ∧ (r = 0 ∨ r = -1) ∧
    (r = 0 ↔ ∃ q, s.MayRaise cur pid priority q) ∧
    (r = -1 → s'.pq.priority = s.pq.priority ∧ s'.pq.next = s.pq.next) ∧
    (r = 0 → ∀ q, (s'.pq.priority q : Int) =
      if s.live q ∧ ((s.proc q).pid : Int) = pid then priority else s.pq.priority q)

/-! ## The queue -/

/-- The process can be linked behind the tail of the bin: if that is null, the word at the offset of
`next` in user memory can be written. -/
def Kernel.linkable (s : Kernel) (d : Pgdir) (q : PIdx) (n : ℕ) : Prop :=
  s.pq.noTail n = true → ∃ mem, usetWord d s.km.mem NEXT_OFF (s.procAddr (some q)) = .ok mem

theorem pqueueEnqueue_isOk_iff (hn : n < NBIN) :
    (∃ s', pqueueEnqueue s d (some q) n = .ok s') ↔ s.linkable d q n := by
  let s1 := s.setPq { s.pq with priority := update s.pq.priority q n }
  have hset : s.setPriority d (some q) n = .ok s1 := rfl
  have hbin : s1.pq.bin = s.pq.bin := rfl
  unfold pqueueEnqueue linkable Pqueue.noTail
  simp only [hset, hbin, bind, Except.bind, if_neg (not_le.mpr hn)]
  cases (s.pq.bin n).head with
  | none => exact iff_of_true ⟨_, rfl⟩ nofun
  | some r =>
    cases (s.pq.bin n).tail with
    | some t => exact iff_of_true ⟨_, rfl⟩ nofun
    | none =>
      have hnext : s1.setNext d none (some q) =
          (usetWord d s.km.mem NEXT_OFF (s.procAddr (some q))).map s1.setMem :=
        rfl
      rw [hnext]
      cases usetWord d s.km.mem NEXT_OFF (s.procAddr (some q)) with
      | error e => simp [Except.map]
      | ok mem => exact iff_of_true ⟨_, rfl⟩ fun _ => ⟨mem, rfl⟩

/-- The search and the enqueueing succeed for a process in the lists. -/
theorem prioSet_moves (hacyclic : Acyclic s.pq.next) (hinv : PidInv s) (hq : s.live q)
    (hreach : s.pq.Reaches q) (hn : n < NBIN) (hlink : s.linkable d q n) :
    ∃ s1 s', unlinkBins (s.proc q).pid (List.range NBIN) s none = .ok (some q, s1) ∧
      pqueueEnqueue s1 d (some q) n = .ok s' ∧ s'.pq.priority = update s.pq.priority q n := by
  obtain ⟨s1, h1⟩ := unlinkBins_finds hacyclic hinv hq hreach
  obtain ⟨next, rfl⟩ := unlinkBins_linksOnly h1
  obtain ⟨s', hs'⟩ :=
    (pqueueEnqueue_isOk_iff (s := s.setPq { s.pq with next := next }) hn).mpr hlink
  refine ⟨_, s', h1, hs', ?_⟩
  rw [(pqueueEnqueue_some hs').2]
  rfl

/-! ## The permission -/

/-- The target is a process, and the first process is not asked for by others. -/
def Kernel.hasParent (s : Kernel) (cur q : PIdx) : Prop :=
  s.live q ∧ (s.initproc = some q → cur = q)

theorem mayPrioSet_spec (hinv : PidInv s) (hforest : s.Forest)
    (hpid : ((s.proc q).pid : Int) = pid) (hq : s.hasParent cur q) :
    ∃ b, mayPrioSet s cur pid q = .ok b ∧ (b = true ↔ q = cur ∨ s.family.Ancestor cur q) := by
  obtain ⟨i, hi, hrooted⟩ := hforest
  unfold mayPrioSet
  by_cases hself : q = cur
  · rw [← hself, hpid]
    exact ⟨true, if_pos rfl, iff_of_true rfl (.inl rfl)⟩
  have hne : pid ≠ (s.proc cur).pid := fun heq =>
    hself (hinv.unique (Int.ofNat_inj.mp (hpid.trans heq)) (hinv.pos hq.1))
  have hqi : q ≠ i := fun heq => hself (hq.2 (heq ▸ hi)).symm
  rw [if_neg hne, or_iff_right hself]
  exact isAncestor_spec hi hrooted hq.1 hqi (card_below_le s.family q)

theorem mayPrioSet_error (hinv : PidInv s) (hforest : s.Forest) (hcur : s.live cur)
    (hpid : ((s.proc q).pid : Int) = pid) (hq : ¬ s.hasParent cur q) :
    mayPrioSet s cur pid q = .error .undefined := by
  obtain ⟨i, hi, hrooted⟩ := hforest
  have hself : q ≠ cur := fun heq => hq ⟨heq ▸ hcur, fun _ => heq.symm⟩
  have hne : pid ≠ (s.proc cur).pid := fun heq =>
    hself (hinv.unique (Int.ofNat_inj.mp (heq.symm.trans hpid.symm)) (hinv.pos hcur)).symm
  unfold mayPrioSet
  rw [if_neg hne]
  refine isAncestor_of_parent_none hi ?_
  by_cases hlive : s.live q
  · have hqi : s.initproc = some q := by
      by_contra hnot
      exact hq ⟨hlive, fun hinit => absurd hinit hnot⟩
    rw [hi] at hqi
    obtain rfl := Option.some.inj hqi
    exact hrooted.top
  · exact hrooted.outside q hlive

/-! ## The outcomes -/

theorem withPid_eq_none (h : s.withPid pid = none) (q : PIdx) : ((s.proc q).pid : Int) ≠ pid := by
  simpa using List.find?_eq_none.mp h q (List.mem_finRange q)

theorem touint_of_bin (hlo : 0 ≤ priority) (hhi : priority < NBIN) :
    (touint priority : Int) = priority := by
  have hbin : (NBIN : Int) < 2 ^ 32 := by decide
  unfold touint
  omega

/-- The first process with the pid is the only one, if there is one. -/
theorem mayRaise_iff (hinv : PidInv s) (hq : s.withPid pid = some q) :
    (∃ r, s.MayRaise cur pid priority r) ↔ s.MayRaise cur pid priority q := by
  refine ⟨fun ⟨r, hr⟩ => ?_, fun h => ⟨q, h⟩⟩
  have hpid := hr.2.1.trans (withPid_eq_some hq).symm
  rwa [← hinv.unique (Int.ofNat_inj.mp hpid) (hinv.pos hr.1)]

theorem prioSet_none (h : s.withPid pid = none) : prioSet s cur d pid priority = .ok (-1, s) := by
  unfold prioSet prioSetWith
  unfold withPid at h
  rw [h]

theorem prioSet_some (h : s.withPid pid = some q) : prioSet s cur d pid priority =
    if touint priority < s.pq.priority q then .ok (-1, s)
    else do
      let mine ← mayPrioSet s cur pid q
      if !mine then return (-1, s)
      else if touint priority = s.pq.priority q then return (0, s)
      else
        let (found, s) ← unlinkBins pid (List.range NBIN) s none
        let s ← pqueueEnqueue s d found (touint priority)
        return (0, s) := by
  unfold prioSet prioSetWith
  unfold withPid at h
  rw [h]

/-- A call that is refused as it should be. -/
theorem Authority.refused (h : prioSet s cur d pid priority = .ok (-1, s))
    (hnot : ¬ ∃ q, s.MayRaise cur pid priority q) : Authority s cur d pid priority :=
  ⟨-1, s, h, .inr rfl, iff_of_false (by decide) hnot, fun _ => ⟨rfl, rfl⟩,
    fun hr => absurd hr (by decide)⟩

/-- A call that gives the process `q` its priority. -/
theorem Authority.granted (hinv : PidInv s) (h : prioSet s cur d pid priority = .ok (0, s'))
    (hq : s.MayRaise cur pid priority q) (hset : (s'.pq.priority q : Int) = priority)
    (hothers : ∀ r, r ≠ q → s'.pq.priority r = s.pq.priority r) :
    Authority s cur d pid priority := by
  refine ⟨0, s', h, .inl rfl, iff_of_true rfl ⟨q, hq⟩, fun hr => absurd hr (by decide),
    fun _ r => ?_⟩
  by_cases hrq : r = q
  · rw [hrq, hset, if_pos ⟨hq.1, hq.2.1⟩]
  · rw [hothers r hrq, if_neg]
    rintro ⟨hlive, hpid⟩
    exact hrq (hinv.unique (Int.ofNat_inj.mp (hpid.trans hq.2.1.symm)) (hinv.pos hlive))

/-- The target has a parent to start from or is the caller, and if its priority is to change, it is
in a list and can be linked to the new one. -/
def Kernel.prioSetOk (s : Kernel) (cur : PIdx) (d : Pgdir) (pid priority : Int) : Prop :=
  ∀ q, s.withPid pid = some q → (s.pq.priority q : Int) ≤ priority →
    s.hasParent cur q ∧ (q = cur ∨ s.family.Ancestor cur q → (s.pq.priority q : Int) < priority →
      s.pq.Reaches q ∧ s.linkable d q (touint priority))

theorem authority_of_ok (hinv : PidInv s) (hforest : s.Forest) (hacyclic : Acyclic s.pq.next)
    (hlo : 0 ≤ priority) (hhi : priority < NBIN) (hok : s.prioSetOk cur d pid priority) :
    Authority s cur d pid priority := by
  have hprio := touint_of_bin hlo hhi
  cases hq : s.withPid pid with
  | none =>
    exact .refused (prioSet_none hq) fun ⟨q, _, hpid, _⟩ => withPid_eq_none hq q hpid
  | some q =>
    have hset : prioSet s cur d pid priority = _ := prioSet_some hq
    by_cases hle : (s.pq.priority q : Int) ≤ priority
    swap
    · rw [if_pos (by omega)] at hset
      refine .refused hset ?_
      rw [mayRaise_iff hinv hq]
      exact fun h => hle h.2.2.2
    obtain ⟨hparent, hmoved⟩ := hok q hq hle
    have hpid := withPid_eq_some hq
    obtain ⟨b, hb, hiff⟩ := mayPrioSet_spec hinv hforest hpid hparent
    rw [if_neg (by omega), hb] at hset
    cases b with
    | false =>
      refine .refused hset ?_
      rw [mayRaise_iff hinv hq]
      exact fun h => nomatch hiff.mpr h.2.2.1
    | true =>
      have hmay : s.MayRaise cur pid priority q := ⟨hparent.1, hpid, hiff.mp rfl, hle⟩
      by_cases heq : touint priority = s.pq.priority q
      · have hsame : prioSet s cur d pid priority = .ok (0, s) := hset.trans (if_pos heq)
        exact .granted hinv hsame hmay (by omega) fun _ _ => rfl
      · obtain ⟨hreach, hlink⟩ := hmoved (hiff.mp rfl) (by omega)
        obtain ⟨s1, s', h1, h2, hupd⟩ := prioSet_moves hacyclic hinv hparent.1 hreach
          (by omega) hlink
        rw [hpid] at h1
        have hraised : prioSet s cur d pid priority = .ok (0, s') := by
          refine hset.trans ((if_neg heq).trans ?_)
          rw [h1]
          show (pqueueEnqueue s1 d (some q) (touint priority) >>= _) = _
          rw [h2]
          rfl
        refine .granted hinv hraised hmay ?_ fun r hr => ?_
        · rw [hupd, update_self]
          exact hprio
        · rw [hupd, update_of_ne hr]

theorem Authority.ok (h : Authority s cur d pid priority) (hinv : PidInv s) (hforest : s.Forest)
    (hcur : s.live cur) (hlo : 0 ≤ priority) (hhi : priority < NBIN) :
    s.prioSetOk cur d pid priority := by
  have hprio := touint_of_bin hlo hhi
  intro q hq hle
  obtain ⟨r, s', hset, -, hret, -, hgiven⟩ := h
  have hpid := withPid_eq_some hq
  rw [prioSet_some hq, if_neg (by omega)] at hset
  have hparent : s.hasParent cur q := by
    by_contra hnot
    rw [mayPrioSet_error hinv hforest hcur hpid hnot] at hset
    cases hset
  refine ⟨hparent, fun hmine hlt => ?_⟩
  obtain ⟨b, hb, hiff⟩ := mayPrioSet_spec hinv hforest hpid hparent
  rw [hb, hiff.mpr hmine] at hset
  have hne : touint priority ≠ s.pq.priority q := by omega
  obtain ⟨⟨found, s1⟩, h1, hset⟩ := bind_eq_ok.mp ((if_neg hne).symm.trans hset)
  obtain ⟨s2, h2, hset⟩ := bind_eq_ok.mp hset
  cases hset
  obtain ⟨next, rfl⟩ := unlinkBins_linksOnly h1
  rw [← hpid] at h1
  obtain ⟨rfl, hreach⟩ | ⟨rfl, -⟩ :=
    unlinkBins_target (fun r hr => (hinv.unique hr.symm (hinv.pos hparent.1)).symm) h1
  · have hlink := (pqueueEnqueue_isOk_iff (by omega)).mp ⟨_, h2⟩
    exact ⟨hreach, hlink⟩
  · -- The null process was given the priority, so the target has the old one.
    have hgot := hgiven rfl q
    rw [pqueueEnqueue_none h2, if_pos ⟨hparent.1, hpid⟩] at hgot
    have hold : (s.setPq { s.pq with next := next }).pq.priority q = s.pq.priority q := rfl
    omega

/-- **When `prio_set` keeps its contract**: the process with the pid, should it have no smaller
number already, is in use and is not the first process with another caller; and when its priority is
to change, it is in one of the lists and can be linked to the bin of the new priority. -/
theorem prioSet_authority_iff (h : kernelMachine.Reach (fun _ a => a.2.makesProcs = true) s)
    (hcur : s.canRun cur) (hlo : 0 ≤ priority) (hhi : priority < NBIN) :
    Authority s cur d pid priority ↔ s.prioSetOk cur d pid priority := by
  obtain ⟨hinv, hforest⟩ := reach_forest h
  exact ⟨fun ha => ha.ok hinv hforest hcur.live hlo hhi,
    authority_of_ok hinv hforest (reachable_acyclic h.reachable) hlo hhi⟩

set_option maxRecDepth 100000 in
/-- The first process has a child and gives it the priority 3. -/
theorem prioSet_authority_child : ∃ s,
    kernelMachine.Reach (fun _ a => a.2.makesProcs = true) s ∧ s.canRun 0 ∧ s.live 1 ∧
      ∀ d, Authority s 0 d 2 3 := by
  have hrun : (Kernel.run (fun _ a => a.2.makesProcs) [(0, .fork)]).any
      (fun s => s.canRun 0 ∧ s.live 1 ∧ s.withPid 2 = some 1 ∧ s.initproc ≠ some 1 ∧
        (s.pq.bin 0).head = some 0 ∧ s.pq.next 0 = some 1 ∧ s.pq.noTail 3 = false) = true := by
    decide +kernel
  obtain ⟨s, hs, hP⟩ := Kernel.exists_of_run (fun _ _ h => h) hrun
  obtain ⟨hcan, hlive, hpid, hinit, hhead, hnext, htail⟩ := of_decide_eq_true hP
  refine ⟨s, hs, hcan, hlive, fun d => ?_⟩
  refine (prioSet_authority_iff hs hcan (by decide) (by decide)).mpr fun q hq _ => ?_
  obtain rfl := Option.some.inj (hpid.symm.trans hq)
  refine ⟨⟨hlive, fun h => absurd h hinit⟩, fun _ _ =>
    ⟨?_, fun hno => absurd (hno.symm.trans htail) (by decide)⟩⟩
  exact ⟨0, by decide, 0, hhead, .single hnext⟩

set_option maxRecDepth 100000 in
/-- A child asks for a priority of the first process. -/
theorem prioSet_reads_null : ∃ s, kernelMachine.Reach (fun _ a => a.2.makesProcs = true) s ∧
    s.canRun 1 ∧ ∀ d, ¬ Authority s 1 d 1 0 := by
  have hrun : (Kernel.run (fun _ a => a.2.makesProcs) [(0, .fork)]).any
      (fun s => s.canRun 1 ∧ s.withPid 1 = some 0 ∧ s.pq.priority 0 = 0 ∧
        mayPrioSet s 1 1 0 = .error .undefined) = true := by
    decide +kernel
  obtain ⟨s, hs, hP⟩ := Kernel.exists_of_run (fun _ _ h => h) hrun
  obtain ⟨hcan, hpid, hprio, hmay⟩ := of_decide_eq_true hP
  refine ⟨s, hs, hcan, fun d ⟨r, s', hset, _⟩ => ?_⟩
  rw [prioSet_some hpid, hprio, hmay] at hset
  cases hset

end Dockv6
