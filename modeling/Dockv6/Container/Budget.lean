import Dockv6.Container.Limit

/-!
# The budget of a container is not lost

`wait` credits the container of the reaper. When this is not the container of the child, the
container of the child loses a slot for good (`budget_lost`).
-/

namespace Dockv6

open Function

namespace System

variable {P C : Type} {s s' : System P C} {p q : P} {c : C} {x : Task P C}

/-- The processes in the container. -/
def memberSet (s : System P C) (c : C) : Set P := {q | s.Member c q}

/-- The budget of the container `c` is not lost, and no process of `c` creates a container. -/
structure Budget (s : System P C) (c : C) : Prop where
  inv : s.Inv
  outside : ∀ {q ph n x}, s.inside q = some ph → ph.pending = some n → s.tree.task q = some x →
    x.container_id ≠ s.tree.cid c
  budget : ∀ {N}, s.limit c = some N → s.Pending c ∨ N ≤ s.tree.nproc c + (s.memberSet c).ncard

/-- The steps that do not lose budget of `c`: a `fork` in `c` fails only for the limit, a process of
`c` is reaped by a process of `c`, and no process of `c` creates a container. -/
def NoLoss (s : System P C) (c : C) : Event P C → Prop
  | .fork p r => r = -1 → ∀ x c', s.tree.task p = some x → x.container = some c' →
      x.container_id = s.tree.cid c → s.tree.nproc c' = 0
  | .wait p (some q) => ∀ x y, s.tree.task p = some x → s.tree.task q = some y →
      y.container_id = s.tree.cid c → x.container_id = s.tree.cid c
  | .claim p _ => ∀ x, s.tree.task p = some x → x.container_id ≠ s.tree.cid c
  | _ => True

section Account

variable [Finite P]

theorem Budget.of_members (h : s.Budget c) (hinv : s'.Inv) (hcid : s'.tree.cid c = s.tree.cid c)
    (hlimit : s'.limit c = s.limit c) (hnproc : s.tree.nproc c ≤ s'.tree.nproc c)
    (hinside : s'.inside = s.inside)
    (htask : ∀ {q x}, s'.tree.task q = some x → s.inside q ≠ none →
      ∃ y, s.tree.task q = some y ∧ x.container_id = y.container_id)
    (hmem : ∀ q, s.Member c q → s'.Member c q) : s'.Budget c where
  inv := hinv
  outside hq hn hx := by
    rw [hinside] at hq
    obtain ⟨y, hy, hid⟩ := htask hx (by simp [hq])
    rw [hcid, hid]
    exact h.outside hq hn hy
  budget hN := by
    rw [hlimit] at hN
    refine (h.budget hN).imp ?_ fun hle => ?_
    · rintro ⟨q, ph, n, hq, hrest⟩
      exact ⟨q, ph, n, hinside ▸ hq, hrest⟩
    · exact hle.trans (Nat.add_le_add hnproc (Set.ncard_le_ncard hmem))

omit [Finite P] in
/-- A process inside `cm_create_and_enter` is not in `c`. -/
theorem Budget.not_member (h : s.Budget c) {ph : Phase C} (hi : s.inside p = some ph) :
    ¬ s.Member c p := by
  rintro ⟨x, hx, hid, hman⟩
  cases hn : ph.pending with
  | some n => exact h.outside hi hn hx hid
  | none =>
    obtain ⟨-, -, -, hclaimed⟩ := h.inv.inside hi
    have hcid := (h.inv.moved hi hx hn).2.symm.trans hid
    exact hman ⟨ph, hi, h.inv.inj hclaimed (fun hmax => hclaimed (hcid.trans hmax)) hcid⟩

end Account

section Steps

variable [DecidableEq P] [DecidableEq C] [Finite P]

theorem Budget.advance (h : s.Budget c) (hx : s.tree.task p = some x) {ph : Phase C}
    (hi : s.inside p = some ph) {x' : Task P C} {o : Option (Phase C)} {n : C → ℕ}
    (ha : s.Advance x ph x' o n) : (s.advanced p x' o n).Budget c := by
  refine ⟨h.inv.advance hx hi ha, fun {q ph' m y} hq hm hy => ?_, fun {N} hN => ?_⟩
  · obtain ⟨rfl, ho⟩ | ⟨hqp, hin⟩ := update_inside.mp hq <;>
      obtain ⟨heq, rfl⟩ | ⟨hne, hyold⟩ := advanced_task.mp hy
    · obtain ⟨hm', hid, -⟩ := ha.pending ho hm
      exact hid ▸ h.outside hi hm' hx
    · exact absurd rfl hne
    · exact absurd heq hqp
    · exact h.outside hin hm hyold
  have hmem : ∀ q, s.Member c q → (s.advanced p x' o n).Member c q := by
    rintro q ⟨y, hy, hid, hman⟩
    have hqp : q ≠ p := by
      rintro rfl
      exact h.not_member hi ⟨y, hy, hid, hman⟩
    refine ⟨y, (setTask_task _ _).trans ((if_neg hqp).trans hy), hid, ?_⟩
    rintro ⟨ph', hph', hc⟩
    exact hman ⟨ph', (update_of_ne hqp _ _).symm.trans hph', hc⟩
  by_cases hc : c = ph.container
  · subst hc
    cases hph : ph.pending with
    | none =>
      rw [ha.kept hph] at hmem ⊢
      have hle := (h.budget hN).resolve_left (h.inv.not_pending_self hi hph)
      exact .inr (hle.trans (Nat.add_le_add_left (Set.ncard_le_ncard hmem) _))
    | some m =>
      obtain ⟨-, hlim, -⟩ := h.inv.fresh hi hph
      obtain ⟨ph', m', ho, hm'⟩ | hset := ha.set hph (hlim.symm.trans hN)
      · exact .inl ⟨p, ph', m', (update_self ..).trans ho, ha.container ho, hm'⟩
      · exact .inr (hset ▸ Nat.le_add_right _ _)
  · refine (h.budget hN).imp (advanced_pending hi hc) fun hle => ?_
    show N ≤ n c + _
    rw [ha.others hc]
    exact hle.trans (Nat.add_le_add_left (Set.ncard_le_ncard hmem) _)

omit [DecidableEq P] in
theorem Budget.charged_other (h : s.Budget c) (hx : s.tree.task p = some x)
    (hi : s.inside p = none ∨ ∃ ph, s.inside p = some ph ∧ ph.pending = none)
    (hid : x.container_id ≠ s.tree.cid c) {t : Tree P C} (ht : s.tree.Charged x t) :
    Budget { s with tree := t } c := by
  have hinv := (h.inv.charged hx hi ht).1
  cases ht with
  | outside => exact h
  | inside c' h0 hcont hn =>
    have hne : c ≠ c' := fun heq => hid (heq ▸ (h.inv.settled_of_container hx hi h0 hcont).2)
    exact h.of_members hinv rfl rfl (update_of_ne hne _ _).ge rfl
      (fun hy _ => ⟨_, hy, rfl⟩) fun _ hq => hq

theorem Budget.child (h : s.Budget c) (hx : s.tree.task p = some x) (hz : x.zombie = false)
    (hi : s.inside p = none ∨ ∃ ph, s.inside p = some ph ∧ ph.pending = none) {t : Tree P C}
    (ht : s.tree.Charged x t) {np : P} (hnp : s.tree.task np = none) :
    Budget { s with tree :=
      { t.setTask np (some (x.child p s.tree.nextpid)) with nextpid := s.tree.nextpid + 1 } }
          c := by
  have hinv := h.inv.forks hx hz hi (.child ht np hnp)
  have hne : ∀ {q y}, s.tree.task q = some y → q ≠ np := by
    rintro q y hy rfl
    rw [hnp] at hy
    cases hy
  have htask : t.task = s.tree.task := by cases ht <;> rfl
  have hcid : t.cid = s.tree.cid := by cases ht <;> rfl
  have hinp := h.inv.inside_eq_none hnp
  have hmem : ∀ {q}, s.Member c q → Member { s with tree :=
      { t.setTask np (some (x.child p s.tree.nextpid)) with nextpid := s.tree.nextpid + 1 } } c
          q := by
    rintro q ⟨y, hy, hid, hman⟩
    exact ⟨y, (setTask_task _ _).trans ((if_neg (hne hy)).trans ((congrFun htask q).trans hy)),
      hid.trans (congrFun hcid c).symm, hman⟩
  by_cases hid : x.container_id = s.tree.cid c
  · refine ⟨hinv, fun {q ph n y} hq hn hy => ?_, fun {N} hN => ?_⟩
    · obtain ⟨y', hy', -⟩ := h.inv.inside hq
      have hold : t.task q = some y := by
        rw [← hy]
        exact ((setTask_task _ _).trans (if_neg (hne hy'))).symm
      rw [htask] at hold
      exact (congrFun hcid c).symm ▸ h.outside hq hn hold
    · -- One process less may be started, and there is one more.
      have hclaimed := h.inv.claimed_of_limit hN
      have hnp' : np ∉ s.memberSet c := fun ⟨y, hy, _⟩ => hne hy rfl
      have hchild : Member { s with tree :=
          { t.setTask np (some (x.child p s.tree.nextpid)) with nextpid := s.tree.nextpid + 1 } }
          c np := by
        refine ⟨x.child p s.tree.nextpid, (setTask_task _ _).trans (if_pos rfl),
          hid.trans (congrFun hcid c).symm, ?_⟩
        rintro ⟨ph, hph, -⟩
        rw [show s.inside np = none from hinp] at hph
        cases hph
      have hsub : insert np (s.memberSet c) ⊆ memberSet { s with tree :=
          { t.setTask np (some (x.child p s.tree.nextpid)) with nextpid := s.tree.nextpid + 1 } }
              c := by
        rintro q (rfl | hq)
        · exact hchild
        · exact hmem hq
      have hle := Set.ncard_le_ncard hsub
      rw [Set.ncard_insert_of_notMem hnp'] at hle
      have hpend := h.inv.not_pending hx hid
      have hbudget := (h.budget hN).resolve_left hpend
      obtain ⟨hlt, hacc⟩ := h.inv.quota hN
      replace hacc := hacc.resolve_left hpend
      have hnproc : t.nproc c + 1 = s.tree.nproc c := by
        cases ht with
        | outside h0 => exact absurd (h0.symm.trans hid) (h.inv.ids hclaimed).1.ne
        | inside c' h0 hcont hn =>
          obtain ⟨hclaimed', hcid'⟩ := h.inv.settled_of_container hx hi h0 hcont
          obtain rfl := h.inv.inj hclaimed' hclaimed (hcid'.symm.trans hid)
          show update s.tree.nproc c' _ c' + 1 = _
          rw [update_self, udec_of_pos (Nat.pos_of_ne_zero hn)
            (by simp only [UINT_MAX] at hlt; omega)]
          omega
      exact .inr (by show N ≤ t.nproc c + _; omega)
  · refine (h.charged_other hx hi hid ht).of_members hinv rfl rfl le_rfl rfl ?_ ?_
    · intro q y hy hq
      have hqnp : q ≠ np := fun heq => hq (heq ▸ hinp)
      exact ⟨y, ((setTask_task _ _).trans (if_neg hqnp)).symm.trans hy, rfl⟩
    · rintro q ⟨y, hy, hid', hman⟩
      exact hmem ⟨y, (congrFun htask q).symm.trans hy, hid'.trans (congrFun hcid c), hman⟩

theorem Budget.forks (h : s.Budget c) (hx : s.tree.task p = some x) (hz : x.zombie = false)
    (hi : s.inside p = none ∨ ∃ ph, s.inside p = some ph ∧ ph.pending = none) {r : Int}
    {t : Tree P C} (ht : s.tree.Forks p x r t) (hok : s.NoLoss c (.fork p r)) :
    Budget { s with tree := t } c := by
  cases ht with
  | refused => exact h
  | failed hc n hn =>
    by_cases hid : x.container_id = s.tree.cid c
    · cases hc with
      | outside => exact ⟨{ h.inv with }, h.outside, h.budget⟩
      | inside c' h0 hcont hne => exact absurd (hok rfl x c' hx hcont hid) hne
    · have h1 := h.charged_other hx hi hid hc
      exact ⟨{ h1.inv with }, h1.outside, h1.budget⟩
  | child hc np hnp => exact h.child hx hz hi hc hnp

omit [DecidableEq C] in
theorem Budget.exit (h : s.Budget c) (hi : s.inside p = none) (hinit : s.tree.initproc ≠ some p) :
    Budget { s with tree := s.tree.exit p } c := by
  refine h.of_members (h.inv.exit hi hinit) rfl rfl le_rfl rfl ?_ ?_
  · intro q y hy _
    obtain ⟨y0, hy0, rfl⟩ := Option.map_eq_some_iff.mp hy
    exact ⟨y0, hy0, rfl⟩
  · rintro q ⟨y, hy, hid, hman⟩
    exact ⟨s.tree.orphan p q y, by simp [Tree.exit, hy], hid, hman⟩

omit [DecidableEq P] [Finite P] in
/-- A credit to a container that has its limit adds one to it. -/
theorem credited_nproc (h : s.Inv) (hx : s.tree.task p = some x) (hi : s.inside p = none) {N : ℕ}
    (hN : s.limit c = some N) (hpend : ¬ s.Pending c) {t : Tree P C} (ht : s.tree.Credited x t) :
    s.tree.nproc c ≤ t.nproc c ∧
      (x.container_id = s.tree.cid c → t.nproc c = s.tree.nproc c + 1) := by
  have hclaimed := h.claimed_of_limit hN
  obtain ⟨hlt, hacc⟩ := h.quota hN
  replace hacc := hacc.resolve_left hpend
  cases ht with
  | outside h0 => exact ⟨le_rfl, fun hid => absurd (h0.symm.trans hid) (h.ids hclaimed).1.ne⟩
  | inside c' h0 hcont =>
    obtain ⟨hclaimed', hcid'⟩ := h.settled_of_container hx (.inl hi) h0 hcont
    by_cases hc : c = c'
    · subst hc
      have hself : (s.tree.setNproc c (uinc (s.tree.nproc c))).nproc c = s.tree.nproc c + 1 := by
        refine (update_self ..).trans (uinc_of_lt ?_)
        simp only [UINT_MAX] at hlt
        omega
      exact ⟨hself.ge.trans' (Nat.le_succ _), fun _ => hself⟩
    · refine ⟨(update_of_ne hc _ _).ge, fun hid => ?_⟩
      exact absurd (h.inj hclaimed hclaimed' (hid.symm.trans hcid')) hc

theorem Budget.waits (h : s.Budget c) (hx : s.tree.task p = some x) (hi : s.inside p = none)
    (hz : x.zombie = false) {o : Option P} {t : Tree P C} (ht : s.tree.Waits p x o t)
    (hok : s.NoLoss c (.wait p o)) : Budget { s with tree := t } c := by
  have hinv := h.inv.waits hx hi hz ht
  cases ht with
  | idle => exact h
  | reaped q y hy hp hzq hcred =>
    rename_i t1
    have htask1 : t1.task = s.tree.task := by cases hcred <;> rfl
    have hcid1 : t1.cid = s.tree.cid := by cases hcred <;> rfl
    have hold : ∀ {q' z}, (t1.setTask q none).task q' = some z → s.tree.task q' = some z := by
      intro q' z hz'
      rw [setTask_task] at hz'
      split_ifs at hz'
      rwa [htask1] at hz'
    have hmem : ∀ {q'}, q' ≠ q → s.Member c q' →
        Member { s with tree := t1.setTask q none } c q' := by
      rintro q' hq' ⟨z, hz', hid, hman⟩
      refine ⟨z, ?_, hid.trans (congrFun hcid1 c).symm, hman⟩
      rw [setTask_task, if_neg hq', htask1, hz']
    refine ⟨hinv, fun hq hn hz' => ?_, fun {N} hN => ?_⟩
    · exact (congrFun hcid1 c).symm ▸ h.outside hq hn (hold hz')
    · by_cases hpend : s.Pending c
      · exact .inl hpend
      have hbudget := (h.budget hN).resolve_left hpend
      obtain ⟨hge, hself⟩ := credited_nproc h.inv hx hi hN hpend hcred
      refine .inr ?_
      by_cases hid : y.container_id = s.tree.cid c
      · -- The child leaves the container, and the container is credited.
        have hsub : s.memberSet c ⊆
            insert q (memberSet { s with tree := t1.setTask q none } c) := by
          intro q' hq'
          by_cases heq : q' = q
          · exact .inl heq
          · exact .inr (hmem heq hq')
        have hle := (Set.ncard_le_ncard hsub).trans (Set.ncard_insert_le _ _)
        have hone := hself (hok x y hx hy hid)
        show N ≤ t1.nproc c + _
        omega
      · have hsub : s.memberSet c ⊆ memberSet { s with tree := t1.setTask q none } c := by
          intro q' hq'
          refine hmem ?_ hq'
          rintro rfl
          obtain ⟨z, hz', hid', -⟩ := hq'
          obtain rfl := Option.some.inj (hy.symm.trans hz')
          exact hid hid'
        have hle := Set.ncard_le_ncard hsub
        show N ≤ t1.nproc c + _
        omega

omit [DecidableEq P] [Finite P] in
theorem Budget.maxproc (h : s.Budget c) (hx : s.tree.task p = some x) (hi : s.inside p = none)
    (n : Int) : Budget { s with tree := s.tree.maxproc x n } c := by
  have hinv := h.inv.maxproc hx hi n
  unfold Tree.maxproc at hinv ⊢
  split_ifs with hn
  · exact h
  rw [if_neg hn] at hinv
  split at hinv
  · exact h
  rename_i c' hcont
  split_ifs at hinv ⊢ with hc
  · exact h
  push Not at hc
  obtain ⟨-, hcid⟩ := h.inv.settled_of_container hx (.inl hi) hc.2 hcont
  refine ⟨hinv, h.outside, fun {N} hN => ?_⟩
  -- A container created with a limit has it already.
  have hne : c ≠ c' := by
    rintro rfl
    obtain ⟨hlt, hacc⟩ := h.inv.quota hN
    have := hacc.resolve_left (h.inv.not_pending hx hcid)
    omega
  refine (h.budget hN).imp id fun hle => ?_
  show N ≤ update s.tree.nproc c' _ c + _
  rw [update_of_ne hne]
  exact hle

theorem Budget.claim [Finite C] (h : s.Budget c) (hx : s.tree.task p = some x)
    (hz : x.zombie = false) (hi : s.inside p = none) {c' : C} (hc : s.tree.cid c' = UINT_MAX)
    (hok : s.NoLoss c (.claim p c')) (fs : Bytes) (n : Int) : (s.claimed p c' fs n).Budget c := by
  have hinv : (s.claimed p c' fs n).Inv := h.inv.claim hc hx hz hi
  have hinside : ∀ {q ph}, s.inside q = some ph → q ≠ p := by
    rintro q ph hq rfl
    rw [hi] at hq
    cases hq
  by_cases heq : c = c'
  · -- The container is new: nobody has its id, and its limit is not set.
    subst heq
    have hself : (update s.inside p (some (.claimed c fs n))) p = some (.claimed c fs n) :=
      update_self ..
    refine ⟨hinv, fun _ _ hy => (hinv.fresh hself rfl).2.2 hy, fun _ => .inl ?_⟩
    exact ⟨p, _, n, hself, rfl, rfl⟩
  · have hcid : (s.claimed p c' fs n).tree.cid c = s.tree.cid c := claim_cid_of_ne heq
    refine ⟨hinv, fun hq hn hy => ?_, fun {N} hN => ?_⟩
    · rw [hcid]
      obtain ⟨rfl, -⟩ | ⟨-, hin⟩ := update_inside.mp hq
      · exact hok _ hy
      · exact h.outside hin hn hy
    · refine (h.budget ((update_of_ne heq _ _).symm.trans hN)).imp ?_ fun hle => ?_
      · rintro ⟨q, ph, m, hq, hrest⟩
        exact ⟨q, ph, m, (update_of_ne (hinside hq) _ _).trans hq, hrest⟩
      · refine hle.trans (Nat.add_le_add_left (Set.ncard_le_ncard ?_) _)
        rintro q ⟨y, hy, hid, hman⟩
        refine ⟨y, hy, hid.trans hcid.symm, ?_⟩
        rintro ⟨ph, hph, hcont⟩
        obtain ⟨rfl, ho⟩ | ⟨-, hin⟩ := update_inside.mp hph
        · obtain rfl := Option.some.inj ho
          exact heq hcont.symm
        · exact hman ⟨ph, hin, hcont⟩

theorem Budget.step [Finite C] {e : Event P C} (h : s.Budget c) (hs : s.Step e s')
    (hok : s.NoLoss c e) : s'.Budget c := by
  cases hs with
  | quiet => exact h
  | fork p x hx hz hi hf => exact h.forks hx hz (.inl hi) hf hok
  | exit p x hx hz hi hinit => exact h.exit hi hinit
  | wait p x hx hz hi hw => exact h.waits hx hi hz hw hok
  | maxproc p x hx hi n => exact h.maxproc hx hi n
  | claim p x hx hz hi c' hc fs n => exact h.claim hx hz hi hc hok fs n
  | enter p x hx c' fs n hi => exact h.advance hx hi (advance_enter s x c' fs n)
  | move p x hx c' n hi =>
    obtain ⟨n', ha, htree⟩ := h.inv.move hx hi
    rw [htree]
    exact h.advance hx hi ha
  | start p x hx c' hi hf =>
    obtain ⟨hz, hself, ha, htree⟩ := h.inv.start hx hi hf
    have h1 := h.forks hx hz (.inr ⟨_, hi, rfl⟩) hf hok
    have h2 := h1.advance hself hi ha
    rwa [advanced, htree] at h2
  | leave p x hx c' hi => exact h.advance hx hi (advance_leave s x c')

end Steps

end System

open Kernel

variable {x : Cm} {c : CIdx}

/-- The container of the process has reached its limit. -/
def Kernel.atLimit (s : Kernel) (p : PIdx) : Bool :=
  match (s.proc p).container with
  | none => false
  | some c => (s.containers c).nproc == 0

/-- `fork` fails for want of a slot or of memory. -/
def Kernel.forkFails (s : Kernel) (p : PIdx) : Bool :=
  match fork s p with
  | .ok (r, _) => r == -1 && !s.atLimit p
  | .error _ => false

/-- Is the process in the container? -/
def Kernel.inContainer (s : Kernel) (c : CIdx) (p : PIdx) : Bool :=
  (s.proc p).container_id == (s.containers c).container_id

namespace Cm

/-- No `fork` of a process in `c` fails for want of a slot or of memory, and no process in `c` calls
`cm_create_and_enter`. -/
def noFailure (c : CIdx) (x : Cm) (a : CmAct) : Bool :=
  (match x.forking a with
    | some p => !(x.k.inContainer c p && x.k.forkFails p)
    | none => true) &&
  match a with
  | .create p _ _ _ => !x.k.inContainer c p
  | _ => true

/-- A process in `c` is reaped by a process in `c`. -/
def reapedInside (c : CIdx) (x : Cm) : CmAct → Bool
  | .call p .wait =>
    match x.k.zombieChild p with
    | some q => !x.k.inContainer c q || x.k.inContainer c p
    | none => true
  | _ => true

theorem inContainer_toTask {q : PIdx} {y : Task PIdx CIdx} (hy : x.sys.tree.task q = some y) :
    x.k.inContainer c q = true ↔ y.container_id = x.sys.tree.cid c := by
  obtain ⟨-, rfl⟩ := Proc.task_eq_some hy
  exact beq_iff_eq

theorem noLoss {a : CmAct} {e : Event PIdx CIdx} (h : x.Shows a e) (hok : x.noFailure c a = true)
    (hreap : x.reapedInside c a = true) : x.sys.NoLoss c e := by
  obtain ⟨hfork, hcreate⟩ := Bool.and_eq_true_iff.mp hok
  cases e with
  | fork p r =>
    obtain ⟨hp, k, hk⟩ := h
    rintro rfl y c' hy hcont hid
    obtain ⟨-, rfl⟩ := Proc.task_eq_some hy
    have hin := (inContainer_toTask hy).mpr hid
    simp only [hp, hin, Kernel.forkFails, hk, Kernel.atLimit,
      show (x.k.proc p).container = some c' from hcont] at hfork
    have hlimit : (x.k.containers c').nproc = 0 := by simpa using hfork
    exact hlimit
  | wait p q =>
    rcases q with _ | q
    · trivial
    · obtain ⟨rfl, hq⟩ := h
      intro y z hy hz hid
      rw [reapedInside] at hreap
      simp only [hq, (inContainer_toTask hz).mpr hid] at hreap
      exact (inContainer_toTask hy).mp hreap
  | claim p c' =>
    obtain ⟨⟨init, fs, n, rfl⟩, -⟩ := h
    intro y hy hid
    simp only [(inContainer_toTask hy).mpr hid] at hcreate
    cases hcreate
  | _ => trivial

theorem coe_members : ↑(x.members c) = x.sys.memberSet c := Set.ext fun _ => mem_members

end Cm

/-- `init` creates a container with the limit `2`. -/
def oneContainer : List CmAct :=
  [.create 0 [97] [47] 2, .next 0, .next 0, .next 0, .next 0]

end Dockv6
