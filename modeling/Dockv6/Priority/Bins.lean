import Dockv6.Priority.Acyclic

/-!
# The bins of the priority queue

Each bin is meant to be a linked list of the processes of one priority. `prio_set` leaves a process
that is the head of its old bin there (`prioSet_links_twice`), and otherwise adjusts neither the
tail nor the size of the old bin; and a `fork` that takes a freed slot cuts the list off behind it.
-/

namespace Dockv6

open Kernel Function

variable {s s' : Kernel} {p np : PIdx} {d : Pgdir} {n : ℕ} {L : ℕ → List PIdx}

/-- The bin is the list `l`. -/
structure Bin.Holds (b : Bin) (next : PIdx → Option PIdx) (l : List PIdx) : Prop where
  chain : Chain next b.head l
  tail : b.tail = l.getLast?
  size : b.size = l.length

/-- The bins are the lists `L`; a list has no node twice, and only nodes of its priority; and every
process is in the list of its priority. -/
structure Bins (s : Kernel) (L : ℕ → List PIdx) : Prop where
  holds : ∀ {i}, i < NBIN → (s.pq.bin i).Holds s.pq.next (L i)
  nodup : ∀ {i}, i < NBIN → (L i).Nodup
  prio : ∀ {i p}, i < NBIN → p ∈ L i → s.pq.priority p = i
  mem : ∀ {p}, s.live p → s.pq.priority p < NBIN ∧ p ∈ L (s.pq.priority p)

/-! ## A process is enqueued -/

theorem Bin.Holds.enqueue {q : Pqueue} {l : List PIdx} (h : (q.bin n).Holds q.next l) (hl : l.Nodup)
    (hnp : np ∉ l) :
    ((q.enqueue np n).bin n).Holds (q.enqueue np n).next (l ++ [np]) := by
  have hbin : (q.enqueue np n).bin n =
      { head := (q.bin n).head <|> some np, tail := some np, size := (q.bin n).size + 1 } :=
    update_self _ _ _
  refine ⟨?_, ?_, ?_⟩
  · rw [hbin]
    obtain rfl | ⟨l0, t, rfl⟩ := l.eq_nil_or_concat'
    · have hhead : (q.bin n).head = none := h.chain
      simp only [Pqueue.enqueue, hhead]
      exact ⟨rfl, update_self _ _ _⟩
    · have htail : (q.bin n).tail = some t := by rw [h.tail, List.getLast?_concat]
      obtain ⟨r, hhead⟩ : ∃ r, (q.bin n).head = some r := by
        refine Option.ne_none_iff_exists'.mp fun hnone => ?_
        simpa using h.chain.eq_none_iff.mp hnone
      have hchain := h.chain
      simp only [Pqueue.enqueue, hhead, htail]
      rw [hhead] at hchain
      exact hchain.concat hl hnp
  · rw [hbin, List.getLast?_concat]
  · rw [hbin, List.length_append]
    dsimp only
    rw [h.size]
    rfl

/-- The links of the other bins stay. -/
theorem enqueue_next_of_ne {q : Pqueue} {l : List PIdx} {a : PIdx} (h : (q.bin n).Holds q.next l)
    (hal : a ∉ l) (ha : a ≠ np) : (q.enqueue np n).next a = q.next a := by
  unfold Pqueue.enqueue
  dsimp only
  rw [update_of_ne ha]
  cases (q.bin n).head with
  | none => rfl
  | some r =>
    cases htail : (q.bin n).tail with
    | none => rfl
    | some t =>
      refine update_of_ne ?_ _ _
      rintro rfl
      rw [h.tail] at htail
      exact hal (List.mem_of_getLast? htail)

theorem Bins.enqueue (h : Bins s L) (hn : n < NBIN) (hnp : ∀ i < NBIN, np ∉ L i)
    (hpq : s'.pq = s.pq.enqueue np n) (hlive : ∀ q, q ≠ np → s'.live q → s.live q) :
    Bins s' (update L n (L n ++ [np])) := by
  have hprio : ∀ q, q ≠ np → s'.pq.priority q = s.pq.priority q := fun q hq => by
    rw [hpq]
    exact update_of_ne hq _ _
  have hself : s'.pq.priority np = n := by
    rw [hpq]
    exact update_self _ _ _
  refine ⟨fun {i} hi => ?_, fun {i} hi => ?_, fun {i q} hi hq => ?_, fun {q} hq => ?_⟩
  · rw [hpq]
    by_cases hin : i = n
    · subst hin
      rw [update_self]
      exact (h.holds hi).enqueue (h.nodup hi) (hnp i hi)
    · have hbin : (s.pq.enqueue np n).bin i = s.pq.bin i := update_of_ne hin _ _
      rw [update_of_ne hin, hbin]
      refine ⟨(h.holds hi).chain.congr fun a ha => ?_, (h.holds hi).tail, (h.holds hi).size⟩
      refine enqueue_next_of_ne (h.holds hn) (fun han => hin ?_) fun heq => hnp i hi (heq ▸ ha)
      exact (h.prio hi ha).symm.trans (h.prio hn han)
  · by_cases hin : i = n
    · subst hin
      rw [update_self]
      exact List.Nodup.append (h.nodup hi) (List.nodup_singleton np)
        (List.disjoint_singleton.mpr (hnp i hi))
    · rw [update_of_ne hin]
      exact h.nodup hi
  · have hold : q ∈ L i → s'.pq.priority q = i := fun hmem => by
      rw [hprio q fun heq => hnp i hi (heq ▸ hmem)]
      exact h.prio hi hmem
    by_cases hin : i = n
    · subst hin
      rw [update_self, List.mem_append, List.mem_singleton] at hq
      exact hq.elim hold fun heq => heq ▸ hself
    · rw [update_of_ne hin] at hq
      exact hold hq
  · by_cases hqn : q = np
    · subst hqn
      rw [hself, update_self]
      exact ⟨hn, List.mem_append_right _ (List.mem_singleton_self q)⟩
    · obtain ⟨hlt, hmem⟩ := h.mem (hlive q hqn hq)
      rw [hprio q hqn]
      refine ⟨hlt, ?_⟩
      rw [update_apply]
      split_ifs with heq
      · exact List.mem_append_left _ (heq ▸ hmem)
      · exact hmem

theorem Bins.of_settled (h : Bins s L) (hs : Settled s s') : Bins s' L := by
  refine ⟨?_, h.nodup, ?_, fun {q} hq => ?_⟩ <;> rw [hs.pq]
  · exact h.holds
  · exact h.prio
  · obtain ⟨-, hiff⟩ | ⟨-, hdead⟩ := hs.proc q
    · exact h.mem (hiff.mp hq)
    · exact absurd hq hdead

/-! ## The calls -/

/-- The slot is not in the queue. -/
def Kernel.unlinked (s : Kernel) (np : PIdx) : Prop :=
  (∀ i < NBIN, (s.pq.bin i).head ≠ some np) ∧ ∀ q, s.pq.next q ≠ some np

instance (s : Kernel) (np : PIdx) : Decidable (s.unlinked np) := inferInstanceAs (Decidable (_ ∧ _))

theorem Bins.notMem (h : Bins s L) (hnp : s.unlinked np) {i : ℕ} (hi : i < NBIN) :
    np ∉ L i := fun hmem =>
  ((h.holds hi).chain.eq_or_exists_next hmem).elim (hnp.1 i hi) fun ⟨q, hq⟩ => hnp.2 q hq

theorem touint_natCast (hn : n < 2 ^ 32) : touint n = n := by
  unfold touint
  omega

/-- The child keeps the priority of its parent, if that is `init` or has a priority below the
highest. -/
theorem Spawn.pq_eq (h : Spawn s p np s') (hinv : PidInv s) (hp : s.live p)
    (hbelow : (s.proc p).pid ≤ 1 ∨ 1 ≤ s.pq.priority p) :
    s'.pq = s.pq.enqueue np (s.pq.priority p) := by
  by_cases hlive : s'.live np
  swap
  · exact h.failed hlive
  obtain ⟨s1, s2, d, hpq, hothers, hpid, hprio, hpq'⟩ := h.made hlive
  have hne : p ≠ np := fun heq => h.unused (heq ▸ hp)
  have hunique : ∀ q, s1.withPid (s1.proc np).pid = some q → q = np := fun q hq => by
    by_contra hq'
    have hlt := hinv.lt q
    have heq := withPid_eq_some hq
    rw [hothers q hq', hpid] at heq
    omega
  have hprioNp : s1.pq.priority np = s.pq.priority p := by
    rw [hpq]
    exact update_self _ _ _
  have hprioP : s1.pq.priority p = s.pq.priority p := by
    rw [hpq]
    exact update_of_ne hne _ _
  -- Neither of the two calls asks for a larger number.
  have hrefused : ∀ {t : Kernel} {pr r : Int}, prioSet s1 p d (s1.proc np).pid pr = .ok (r, t) →
      touint pr ≤ s.pq.priority p → t = s1 := by
    intro t pr r hset hle
    obtain hsame | ⟨q, found, s3, hq, hlt, -⟩ := prioSet_cases hset
    · exact hsame
    · rw [hunique q hq, hprioNp] at hlt
      exact absurd hle (not_le.mpr hlt)
  obtain ⟨⟨r1, s3⟩, h1, hrest⟩ := bind_eq_ok.mp hprio
  obtain ⟨⟨r2, s4⟩, h2, hlast⟩ := bind_eq_ok.mp hrest
  cases hlast
  have hs3 : s3 = s1 := by
    unfold forkPrioBelow at h1
    split_ifs at h1 with hone
    · refine hrefused h1 ?_
      rw [hothers p hne] at hone
      exact hbelow.resolve_left (not_le.mpr hone.1)
    · cases h1
      rfl
  subst hs3
  have hs2 := hrefused h2 (by rw [hprioP, touint_natCast (h.lt.trans (by decide))])
  rw [hpq', hs2, hpq]

theorem Spawn.bins (h : Spawn s p np s') (hbins : Bins s L) (hinv : PidInv s) (hp : s.live p)
    (hbelow : (s.proc p).pid ≤ 1 ∨ 1 ≤ s.pq.priority p) (hnp : s.unlinked np) : ∃ L', Bins s' L' :=
  ⟨_, hbins.enqueue h.lt (fun _ hi => hbins.notMem hnp hi)
      (h.pq_eq hinv hp hbelow) fun q hq hlive => by
    rwa [live, h.others q hq] at hlive⟩

/-- A process that can be forked without a change of priority, to a slot that is not in the
queue. -/
def Kernel.forksClean (s : Kernel) (p : PIdx) : Prop :=
  ((s.proc p).pid ≤ 1 ∨ 1 ≤ s.pq.priority p) ∧
    ∀ np, ¬ s.live np → (∀ q < np, s.live q) → s.unlinked np

/-- No priority changes, and `fork` takes a slot that is not in the queue. -/
def Kernel.queueOk (s : Kernel) (a : PIdx × Call) : Prop :=
  match a.2 with
  | .fork | .cmCreateAndEnter .. => s.forksClean a.1
  | .prioSet pid priority => ∀ p, s.withPid pid = some p →
    touint priority ≤ s.pq.priority p ∨ mayPrioSet s a.1 pid p ≠ .ok true
  | _ => True

theorem Call.run_bins {c : Call} (h : c.run s p = .ok s') (hp : s.canRun p) (hok : s.queueOk (p, c))
    (hinv : PidInv s) (hbins : Bins s L) : ∃ L', Bins s' L' := by
  by_cases hmoves : c.movesQueue = false
  · exact ⟨L, hbins.of_settled (c.run_settled h hp hmoves)⟩
  cases c.ran h with
  | fork h =>
    obtain hsettled | ⟨np, hspawn⟩ := fork_spawn h hp.live
    · exact ⟨L, hbins.of_settled hsettled⟩
    · exact hspawn.bins hbins hinv hp.live hok.1 (hok.2 np hspawn.unused hspawn.first)
  | prioSet h =>
    obtain rfl | ⟨q, found, s1, hq, hlt, hmay, -⟩ := prioSet_cases h
    · exact ⟨L, hbins⟩
    · exact ((hok q hq).elim (not_le.mpr hlt) fun hnot => hnot hmay).elim
  | cmCreateAndEnter h =>
    obtain hsettled | ⟨s1, s2, np, hsettled, hp1, hlive, hspawn, rfl⟩ :=
      cmCreateAndEnter_spawn h hp.live
    · exact ⟨L, hbins.of_settled hsettled⟩
    · have hpid : (s1.proc p).pid = (s.proc p).pid := by
        obtain ⟨hpid, -⟩ | ⟨-, hdead⟩ := hsettled.proc p
        · exact hpid
        · exact absurd hp1 hdead
      have hnp : s1.unlinked np := by
        rw [unlinked, hsettled.pq]
        exact hok.2 np (mt (hlive np).mpr hspawn.unused) fun q hq =>
          (hlive q).mp (hspawn.first q hq)
      have hbelow := hok.1
      dsimp only at hbelow
      rw [← hpid, ← hsettled.pq] at hbelow
      obtain ⟨L', hbins'⟩ :=
        hspawn.bins (hbins.of_settled hsettled) (hinv.of_settled hsettled) hp1 hbelow hnp
      exact ⟨L', hbins'.of_settled (cmLeave_settled s2 p)⟩
  | exit | wait | kill | exec | sbrk | mGet | mRem | cmMaxproc | cmSetroot | mutexCreate
  | mutexDelete | store | other => exact absurd rfl hmoves

theorem boot_bins (h : Boot s) : ∃ L, Bins s L := by
  obtain ⟨b, code, p, page, free, mem, d0, d, m0, m, cwd, q, fs, htaken, -, -, -, -, rfl⟩ :=
    boot_cases h
  have hempty : Bins b.kernel fun _ => [] :=
    ⟨fun _ => ⟨rfl, rfl, rfl⟩, fun _ => List.nodup_nil, nofun, fun hlive => absurd rfl hlive⟩
  obtain ⟨hlt, hq⟩ := pqueueEnqueue_some htaken.enqueued
  refine ⟨_, hempty.enqueue hlt (fun _ _ => List.not_mem_nil) hq fun r hr hlive => absurd ?_ hlive⟩
  dsimp only
  rw [update_of_ne hr]
  rfl

theorem reach_bins (h : kernelMachine.Reach Kernel.queueOk s) : PidInv s ∧ ∃ L, Bins s L := by
  refine h.invariant (I := fun s => PidInv s ∧ ∃ L, Bins s L)
    (fun s hs => ⟨boot_pidInv hs, boot_bins hs⟩) fun s t a ⟨hinv, L, hbins⟩ hok hst => ?_
  obtain ⟨hp, hrun⟩ := kernelMachine_step hst
  exact ⟨Call.run_pidInv hrun hp hinv, Call.run_bins hrun hp hok hinv hbins⟩

/-! ## The search -/

theorem Chain.reaches {q : Pqueue} {o : Option PIdx} {l : List PIdx} (h : Chain q.next o l)
    (hp : p ∈ l) : ∃ a, o = some a ∧ Relation.ReflTransGen (fun a b => q.next a = some b) a p := by
  induction l generalizing o with
  | nil => cases hp
  | cons a l ih =>
    obtain ⟨rfl, hrest⟩ := h
    obtain rfl | hp := List.mem_cons.mp hp
    · exact ⟨p, rfl, .refl⟩
    · obtain ⟨b, hb, hpath⟩ := ih hrest hp
      exact ⟨a, rfl, .head hb hpath⟩

theorem Bins.reaches (h : Bins s L) (hp : s.live p) : s.pq.Reaches p := by
  obtain ⟨hlt, hmem⟩ := h.mem hp
  obtain ⟨a, ha, hpath⟩ := (h.holds hlt).chain.reaches hmem
  exact ⟨_, hlt, a, ha, hpath⟩

theorem unlinkBins_finds (hacyclic : Acyclic s.pq.next) (hinv : PidInv s) (hp : s.live p)
    (hreach : s.pq.Reaches p) :
    ∃ s1, unlinkBins (s.proc p).pid (List.range NBIN) s none = .ok (some p, s1) := by
  obtain ⟨⟨r, s1⟩, h1⟩ := unlinkBins_ends (s.proc p).pid (List.range NBIN) none hacyclic
  obtain ⟨rfl, -⟩ | ⟨-, hnot⟩ :=
    unlinkBins_target (fun q hq => (hinv.unique hq.symm (hinv.pos hp)).symm) h1
  · exact ⟨s1, h1⟩
  · exact absurd hreach hnot

/-! ## Runs -/

/-- Each bin is a linked list with its last node and its length on record, and every process is in
the list of its priority once, and in no other. -/
def Kernel.binned (s : Kernel) : Prop :=
  ∃ L : ℕ → List PIdx, (∀ i < NBIN, (s.pq.bin i).Holds s.pq.next (L i)) ∧
    ∀ p, s.live p → s.pq.priority p < NBIN ∧
      ∀ i < NBIN, (L i).count p = if i = s.pq.priority p then 1 else 0

theorem Bins.binned (h : Bins s L) : s.binned := by
  refine ⟨L, fun i hi => h.holds hi, fun p hp => ⟨(h.mem hp).1, fun i hi => ?_⟩⟩
  split_ifs with hip
  · exact List.count_eq_one_of_mem (h.nodup hi) (hip ▸ (h.mem hp).2)
  · exact List.count_eq_zero_of_not_mem fun hmem => hip (h.prio hi hmem).symm

/-- The calls that make and free processes, and `prio_set` to a priority that there is. -/
def Call.aboutQueue : Call → Prop
  | .fork | .exit | .wait => True
  | .prioSet _ priority => 0 ≤ priority ∧ priority < NBIN
  | _ => False

instance : (c : Call) → Decidable c.aboutQueue
  | .fork | .exit | .wait => .isTrue trivial
  | .prioSet _ _ => inferInstanceAs (Decidable (_ ∧ _))
  | .kill _ | .exec .. | .sbrk _ | .mGet _ | .mRem _ | .cmCreateAndEnter .. | .cmMaxproc _
  | .cmSetroot .. | .mutexCreate _ | .mutexDelete _ | .store .. | .other _ => .isFalse id

instance (s : Kernel) (p : PIdx) : Decidable (s.forksClean p) :=
  inferInstanceAs (Decidable (_ ∧ ∀ _, _ → _ → _))

instance (s : Kernel) : (a : PIdx × Call) → Decidable (s.queueOk a)
  | (p, .fork) => inferInstanceAs (Decidable (s.forksClean p))
  | (p, .cmCreateAndEnter ..) => inferInstanceAs (Decidable (s.forksClean p))
  | (_, .prioSet ..) => inferInstanceAs (Decidable (∀ _, _ → _ ∨ _ ≠ _))
  | (_, .exit) | (_, .wait) | (_, .kill _) | (_, .exec ..) | (_, .sbrk _) | (_, .mGet _)
  | (_, .mRem _)
  | (_, .cmMaxproc _) | (_, .cmSetroot ..) | (_, .mutexCreate _) | (_, .mutexDelete _)
  | (_, .store ..) | (_, .other _) => .isTrue trivial

end Dockv6
