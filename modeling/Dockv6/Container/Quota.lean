import Dockv6.Container.Tree

/-!
# The accounts of the containers

`fork` charges the container of the parent and `wait` credits the container of the reaper, so the
account of a container has to count, besides the processes in it, those that left it but whose
parent is in it (`counted`). With these, `nproc` never exceeds the limit the container was created
with (`Inv.quota`).
-/

namespace Dockv6

open Function

namespace System

variable {P C : Type} {s : System P C} {p q : P} {c : C} {x : Task P C}

/-- The process is inside `cm_create_and_enter` for the container. -/
def Manages (s : System P C) (q : P) (c : C) : Prop := ∃ ph, s.inside q = some ph ∧ ph.container = c

/-- The process is in the container, and not its manager on the way in or out. -/
def Member (s : System P C) (c : C) (q : P) : Prop :=
  ∃ x, s.tree.task q = some x ∧ x.container_id = s.tree.cid c ∧ ¬ s.Manages q c

/-- The processes in the account of the container: those in it, and the children of those in it. -/
def counted (s : System P C) (c : C) : Set P :=
  {q | s.Member c q ∨ ∃ y r, s.tree.task q = some y ∧ y.parent = some r ∧ s.Member c r}

/-- The container has been claimed. -/
def Claimed (s : System P C) (c : C) : Prop := s.tree.cid c ≠ UINT_MAX

/-- The manager of the container has not set its limit yet. -/
def Pending (s : System P C) (c : C) : Prop :=
  ∃ q ph n, s.inside q = some ph ∧ ph.container = c ∧ ph.pending = some n

/-- The invariant. -/
structure Inv (s : System P C) : Prop where
  parent : ∀ {q y r}, s.tree.task q = some y → y.parent = some r →
    ∃ z, s.tree.task r = some z ∧ z.zombie = false
  init : ∃ i x, s.tree.initproc = some i ∧ s.tree.task i = some x ∧ x.zombie = false ∧
    (x.container_id = 0 ∨ ∃ ph, s.inside i = some ph ∧ ph.pending = none)
  inside : ∀ {q ph}, s.inside q = some ph →
    ∃ x, s.tree.task q = some x ∧ x.zombie = false ∧ s.Claimed ph.container
  sole : ∀ {q q' ph ph'}, s.inside q = some ph → s.inside q' = some ph' →
    ph.container = ph'.container → q = q'
  home : ∀ {q x}, s.tree.task q = some x → x.container_id ≠ 0 →
    ∃ c, s.Claimed c ∧ x.container_id = s.tree.cid c ∧ (s.inside q = none → x.container = some c)
  entered : ∀ {q x c n}, s.inside q = some (.entered c n) → s.tree.task q = some x →
    x.container = some c
  moved : ∀ {q x ph}, s.inside q = some ph → s.tree.task q = some x → ph.pending = none →
    x.container = some ph.container ∧ x.container_id = s.tree.cid ph.container
  fresh : ∀ {q ph n}, s.inside q = some ph → ph.pending = some n →
    s.tree.nproc ph.container = UINT_MAX ∧ s.limit ph.container = limitOf n ∧
      ∀ {q' x}, s.tree.task q' = some x → x.container_id ≠ s.tree.cid ph.container
  unclaimed : ∀ {c}, s.tree.cid c = UINT_MAX → s.tree.nproc c = UINT_MAX ∧ s.limit c = none
  ids : ∀ {c}, s.Claimed c → 0 < s.tree.cid c ∧ s.tree.cid c < s.tree.nextcid
  inj : ∀ {c c'}, s.Claimed c → s.Claimed c' → s.tree.cid c = s.tree.cid c' → c = c'
  room : 0 < s.tree.nextcid ∧ s.tree.nextcid + {c | s.tree.cid c = UINT_MAX}.ncard ≤ UINT_MAX
  quota : ∀ {c N}, s.limit c = some N →
    N < UINT_MAX ∧ (s.Pending c ∨ s.tree.nproc c + (s.counted c).ncard ≤ N)

namespace Inv

theorem claimed_of_limit (h : s.Inv) {N : ℕ} (hN : s.limit c = some N) : s.Claimed c := by
  intro hc
  rw [(h.unclaimed hc).2] at hN
  cases hN

/-- A container that some process has the id of is not pending. -/
theorem not_pending (h : s.Inv) (hx : s.tree.task q = some x)
    (hid : x.container_id = s.tree.cid c) : ¬ s.Pending c := by
  rintro ⟨q', ph, n, hi, rfl, hn⟩
  exact (h.fresh hi hn).2.2 hx hid

theorem settled (h : s.Inv) (hx : s.tree.task p = some x)
    (hi : s.inside p = none ∨ ∃ ph, s.inside p = some ph ∧ ph.pending = none)
    (hid : x.container_id ≠ 0) :
    ∃ c, x.container = some c ∧ s.Claimed c ∧ x.container_id = s.tree.cid c := by
  obtain hi | ⟨ph, hi, hph⟩ := hi
  · obtain ⟨c, hclaimed, hcid, hcont⟩ := h.home hx hid
    exact ⟨c, hcont hi, hclaimed, hcid⟩
  · obtain ⟨hcont, hcid⟩ := h.moved hi hx hph
    obtain ⟨-, -, -, hclaimed⟩ := h.inside hi
    exact ⟨ph.container, hcont, hclaimed, hcid⟩

theorem settled_of_container (h : s.Inv) (hx : s.tree.task p = some x)
    (hi : s.inside p = none ∨ ∃ ph, s.inside p = some ph ∧ ph.pending = none)
    (hid : x.container_id ≠ 0) (hc : x.container = some c) :
    s.Claimed c ∧ x.container_id = s.tree.cid c := by
  obtain ⟨c', hc', hsettled⟩ := h.settled hx hi hid
  obtain rfl : c' = c := Option.some.inj (hc'.symm.trans hc)
  exact hsettled

theorem inside_eq_none (h : s.Inv) (hq : s.tree.task q = none) : s.inside q = none := by
  cases hi : s.inside q with
  | none => rfl
  | some ph =>
    obtain ⟨x, hx, -⟩ := h.inside hi
    rw [hq] at hx
    cases hx

/-- `init` is in no container. -/
theorem init_not_member (h : s.Inv) (hi : s.tree.initproc = some q) (hc : s.Claimed c) :
    ¬ s.Member c q := by
  rintro ⟨x, hx, hid, hman⟩
  obtain ⟨i, x', hi', hx', -, hhome⟩ := h.init
  obtain rfl : i = q := Option.some.inj (hi'.symm.trans hi)
  obtain rfl : x' = x := Option.some.inj (hx'.symm.trans hx)
  obtain h0 | ⟨ph, hph, hpend⟩ := hhome
  · exact (h.ids hc).1.ne' (hid ▸ h0)
  · obtain ⟨-, -, -, hclaimed⟩ := h.inside hph
    have hcid := (h.moved hph hx hpend).2
    exact hman ⟨ph, hph, h.inj hclaimed hc (hcid.symm.trans hid)⟩

end Inv

/-! ## Accounts shrink with their members -/

theorem counted_mono {s' : System P C} (hm : ∀ q, s'.Member c q → s.Member c q)
    (hp : ∀ {q y r}, s'.tree.task q = some y → y.parent = some r → s.Member c r → q ∈ s.counted c) :
    s'.counted c ⊆ s.counted c := by
  rintro q (hq | ⟨y, r, hy, hr, hmem⟩)
  · exact .inl (hm q hq)
  · exact hp hy hr (hm r hmem)

section Steps

variable [DecidableEq P] [DecidableEq C] [Finite P]

/-! ## Charge and credit -/

omit [DecidableEq P] [Finite P] in
theorem Inv.setNproc (h : s.Inv) (hc : s.Claimed c) (hp : ¬ s.Pending c) {n : ℕ}
    (hq : ∀ N, s.limit c = some N → n + (s.counted c).ncard ≤ N) :
    Inv { s with tree := s.tree.setNproc c n } := by
  refine { h with
      fresh := fun hi hn => ?_, unclaimed := fun {c'} hc' => ?_, quota := fun {c' N} hN => ?_ }
  · obtain ⟨hmax, hlim, hids⟩ := h.fresh hi hn
    have hne : Phase.container _ ≠ c := fun heq => hp ⟨_, _, _, hi, heq, hn⟩
    exact ⟨(update_of_ne hne _ _).trans hmax, hlim, hids⟩
  · obtain ⟨hmax, hlim⟩ := h.unclaimed hc'
    have hne : c' ≠ c := fun heq => hc (heq ▸ hc')
    exact ⟨(update_of_ne hne _ _).trans hmax, hlim⟩
  · obtain ⟨hlt, hacc⟩ := h.quota hN
    refine ⟨hlt, ?_⟩
    by_cases heq : c' = c
    · subst heq
      refine .inr ?_
      show update s.tree.nproc c' n c' + _ ≤ N
      rw [update_self]
      exact hq N hN
    · show s.Pending c' ∨ update s.tree.nproc c n c' + _ ≤ N
      rw [update_of_ne heq]
      exact hacc

omit [DecidableEq P] [Finite P] in
theorem Inv.charged (h : s.Inv) (hx : s.tree.task p = some x)
    (hi : s.inside p = none ∨ ∃ ph, s.inside p = some ph ∧ ph.pending = none) {t : Tree P C}
    (ht : s.tree.Charged x t) :
    Inv { s with tree := t } ∧ ∀ c N, s.Claimed c → x.container_id = s.tree.cid c →
      s.limit c = some N → t.nproc c + (s.counted c).ncard + 1 ≤ N := by
  cases ht with
  | outside h0 =>
    refine ⟨h, fun c N hc hid _ => ?_⟩
    exact absurd (h0.symm.trans hid) (h.ids hc).1.ne
  | inside c hid hcont hn =>
    obtain ⟨hclaimed, hcid⟩ := h.settled_of_container hx hi hid hcont
    have hpend := h.not_pending hx hcid
    have hroom : ∀ N, s.limit c = some N →
        udec (s.tree.nproc c) + (s.counted c).ncard + 1 ≤ N := by
      intro N hN
      obtain ⟨hlt, hacc⟩ := h.quota hN
      replace hacc := hacc.resolve_left hpend
      rw [udec_of_pos (Nat.pos_of_ne_zero hn) (by simp only [UINT_MAX] at hlt; omega)]
      omega
    refine ⟨h.setNproc hclaimed hpend fun N hN => (Nat.le_succ _).trans (hroom N hN),
      fun c' N hc' hid' hN => ?_⟩
    obtain rfl : c' = c := h.inj hc' hclaimed (hid'.symm.trans hcid)
    show update s.tree.nproc c' _ c' + _ + 1 ≤ N
    rw [update_self]
    exact hroom N hN

/-! ## Fork -/

omit [DecidableEq C] [Finite P] in
theorem setTask_task (t : Tree P C) (y : Option (Task P C)) :
    (t.setTask p y).task q = if q = p then y else t.task q := by
  simp [Tree.setTask, update_apply]

omit [DecidableEq C] [Finite P] in
/-- The tasks of the new tree are the old ones and the child. -/
theorem setTask_eq_some {t : Tree P C} {y z : Task P C}
    (hz : (t.setTask p (some y)).task q = some z) :
    (q = p ∧ z = y) ∨ (q ≠ p ∧ t.task q = some z) := by
  rw [setTask_task] at hz
  split_ifs at hz with hq
  · exact .inl ⟨hq, (Option.some.inj hz).symm⟩
  · exact .inr ⟨hq, hz⟩

omit [DecidableEq C] [Finite P] in
/-- A process in the account is the child or was in the account. -/
theorem Inv.counted_addChild (h : s.Inv) (hx : s.tree.task p = some x) {np : P} (pid n : ℕ) {c : C}
    (hnp : s.tree.task np = none) (hq : q ∈ System.counted
      { s with tree := { s.tree.setTask np (some (x.child p pid)) with nextpid := n } } c) :
    (q = np ∧ x.container_id = s.tree.cid c) ∨ q ∈ s.counted c := by
  have hmem : ∀ {q}, System.Member
      { s with tree := { s.tree.setTask np (some (x.child p pid)) with nextpid := n } } c q →
      (q = np ∧ x.container_id = s.tree.cid c) ∨ s.Member c q := by
    rintro q ⟨y, hy, hid, hman⟩
    obtain ⟨rfl, rfl⟩ | ⟨-, hy⟩ := setTask_eq_some hy
    · exact .inl ⟨rfl, hid⟩
    · exact .inr ⟨y, hy, hid, hman⟩
  obtain hq | ⟨y, r, hy, hr, hq⟩ := hq
  · exact (hmem hq).imp_right .inl
  · obtain ⟨rfl, rfl⟩ | ⟨-, hyold⟩ := setTask_eq_some hy
    · obtain rfl := Option.some.inj hr
      obtain ⟨rfl, -⟩ | ⟨x', hx', hid, -⟩ := hmem hq
      · exact absurd (hnp.symm.trans hx) nofun
      · obtain rfl := Option.some.inj (hx.symm.trans hx')
        exact .inl ⟨rfl, hid⟩
    · obtain ⟨z, hz', -⟩ := h.parent hyold hr
      refine .inr (.inr ⟨y, r, hyold, hr, (hmem hq).resolve_left ?_⟩)
      rintro ⟨rfl, -⟩
      exact absurd (hnp.symm.trans hz') nofun

omit [DecidableEq C] in
theorem Inv.addChild (h : s.Inv) (hx : s.tree.task p = some x) (hz : x.zombie = false)
    (hi : s.inside p = none ∨ ∃ ph, s.inside p = some ph ∧ ph.pending = none) {np : P}
    (hnp : s.tree.task np = none) (pid n : ℕ)
    (hroom : ∀ c N, s.Claimed c → x.container_id = s.tree.cid c → s.limit c = some N →
      s.tree.nproc c + (s.counted c).ncard + 1 ≤ N) :
    Inv { s with tree := { s.tree.setTask np (some (x.child p pid)) with nextpid := n } } := by
  have hne : ∀ {q y}, s.tree.task q = some y → q ≠ np := by
    rintro q y hy rfl
    rw [hnp] at hy
    cases hy
  have hinp := h.inside_eq_none hnp
  have hold : ∀ {q y}, s.tree.task q = some y →
      (s.tree.setTask np (some (x.child p pid))).task q = some y := by
    intro q y hy
    rw [setTask_task, if_neg (hne hy), hy]
  refine
    { parent := fun hy hr => ?_
      init := ?_
      inside := fun hq => ?_
      sole := h.sole
      home := fun hy hid => ?_
      entered := fun hq hy => ?_
      moved := fun hq hy => ?_
      fresh := fun hq hn => ?_
      unclaimed := h.unclaimed
      ids := h.ids
      inj := h.inj
      room := h.room
      quota := fun {c N} hN => ?_ }
  · obtain ⟨rfl, rfl⟩ | ⟨-, hy⟩ := setTask_eq_some hy
    · obtain rfl := Option.some.inj hr
      exact ⟨x, hold hx, hz⟩
    · obtain ⟨z, hz', hzomb⟩ := h.parent hy hr
      exact ⟨z, hold hz', hzomb⟩
  · obtain ⟨i, y, hi', hy, hrest⟩ := h.init
    exact ⟨i, y, hi', hold hy, hrest⟩
  · obtain ⟨y, hy, hrest⟩ := h.inside hq
    exact ⟨y, hold hy, hrest⟩
  · obtain ⟨rfl, rfl⟩ | ⟨-, hy⟩ := setTask_eq_some hy
    · obtain ⟨c, hc, hclaimed, hcid⟩ := h.settled hx hi hid
      exact ⟨c, hclaimed, hcid, fun _ => hc⟩
    · exact h.home hy hid
  · obtain ⟨rfl, rfl⟩ | ⟨-, hy⟩ := setTask_eq_some hy
    · rw [show s.inside _ = _ from hinp] at hq
      cases hq
    · exact h.entered hq hy
  · obtain ⟨rfl, rfl⟩ | ⟨-, hy⟩ := setTask_eq_some hy
    · rw [show s.inside _ = _ from hinp] at hq
      cases hq
    · exact h.moved hq hy
  · obtain ⟨hmax, hlim, hids⟩ := h.fresh hq hn
    refine ⟨hmax, hlim, fun hy => ?_⟩
    obtain ⟨rfl, rfl⟩ | ⟨-, hy⟩ := setTask_eq_some hy
    · have hidx := hids hx
      exact hidx
    · exact hids hy
  · obtain ⟨hlt, hacc⟩ := h.quota hN
    refine ⟨hlt, ?_⟩
    have hcount := fun q => h.counted_addChild (q := q) (c := c) hx pid n hnp
    by_cases hid : x.container_id = s.tree.cid c
    · have hle := (Set.ncard_le_ncard fun q hq => (hcount q hq).imp_left And.left).trans
        (Set.ncard_insert_le np (s.counted c))
      have := hroom c N (h.claimed_of_limit hN) hid hN
      exact .inr ((Nat.add_le_add_left hle _).trans this)
    · have hle := Set.ncard_le_ncard fun q hq => (hcount q hq).resolve_left fun hq => hid hq.2
      exact hacc.imp_right (Nat.add_le_add_left hle _).trans

theorem Inv.forks (h : s.Inv) (hx : s.tree.task p = some x) (hz : x.zombie = false)
    (hi : s.inside p = none ∨ ∃ ph, s.inside p = some ph ∧ ph.pending = none) {r : Int}
    {t : Tree P C} (ht : s.tree.Forks p x r t) : Inv { s with tree := t } := by
  cases ht with
  | refused => exact h
  | failed hc n => exact { (h.charged hx hi hc).1 with }
  | child hc np hnp =>
    obtain ⟨h1, hroom⟩ := h.charged hx hi hc
    cases hc with
    | outside => exact h1.addChild hx hz hi hnp _ _ hroom
    | inside c => exact h1.addChild hx hz hi hnp _ _ hroom

/-! ## Exit and wait -/

omit [DecidableEq C] in
theorem Inv.exit (h : s.Inv) (hi : s.inside p = none) (hinit : s.tree.initproc ≠ some p) :
    Inv { s with tree := s.tree.exit p } := by
  -- A task keeps its ids; its parent is the old one, which is not `p`, or `init`.
  have htask : ∀ {q y}, (s.tree.exit p).task q = some y →
      ∃ y0, s.tree.task q = some y0 ∧ y = s.tree.orphan p q y0 := by
    intro q y hy
    obtain ⟨y0, hy0, rfl⟩ := Option.map_eq_some_iff.mp hy
    exact ⟨y0, hy0, rfl⟩
  have hlive : ∀ {q y}, s.tree.task q = some y → q ≠ p → y.zombie = false →
      ∃ z, (s.tree.exit p).task q = some z ∧ z.zombie = false ∧
      z.container_id = y.container_id := by
    intro q y hy hq hz
    refine ⟨s.tree.orphan p q y, by simp [Tree.exit, hy], ?_, rfl⟩
    simp [Tree.orphan, hq, hz]
  have hparent : ∀ {q : P} {y : Task P C} {r : P}, (s.tree.orphan p q y).parent = some r →
      s.tree.initproc = some r ∨ (r ≠ p ∧ y.parent = some r) := by
    intro q y r hr
    simp only [Tree.orphan] at hr
    split_ifs at hr with hyp
    · exact .inl hr
    · exact .inr ⟨fun hrp => hyp (hrp ▸ hr), hr⟩
  have hmem : ∀ {c q}, System.Member { s with tree := s.tree.exit p } c q → s.Member c q := by
    rintro c q ⟨y, hy, hid, hman⟩
    obtain ⟨y0, hy0, rfl⟩ := htask hy
    exact ⟨y0, hy0, hid, hman⟩
  obtain ⟨i, xi, hii, hxi, hzi, hhome⟩ := h.init
  have hip : i ≠ p := fun heq => hinit (heq ▸ hii)
  refine
    { parent := fun hy hr => ?_
      init := ?_
      inside := fun {q ph} hq => ?_
      sole := h.sole
      home := fun hy hid => ?_
      entered := fun hq hy => ?_
      moved := fun hq hy => ?_
      fresh := fun hq hn => ?_
      unclaimed := h.unclaimed
      ids := h.ids
      inj := h.inj
      room := h.room
      quota := fun {c N} hN => ?_ }
  · obtain ⟨y0, hy0, rfl⟩ := htask hy
    obtain hr | ⟨hrp, hr⟩ := hparent hr
    · obtain rfl := Option.some.inj (hii.symm.trans hr)
      obtain ⟨z, hz, hzomb, -⟩ := hlive hxi hip hzi
      exact ⟨z, hz, hzomb⟩
    · obtain ⟨z0, hz0, hzomb⟩ := h.parent hy0 hr
      obtain ⟨z, hz, hzomb, -⟩ := hlive hz0 hrp hzomb
      exact ⟨z, hz, hzomb⟩
  · obtain ⟨z, hz, hzomb, hid⟩ := hlive hxi hip hzi
    exact ⟨i, z, hii, hz, hzomb, hid ▸ hhome⟩
  · obtain ⟨y, hy, hzomb, hclaimed⟩ := h.inside hq
    have hqp : q ≠ p := fun heq => Option.some_ne_none ph (hq.symm.trans (heq ▸ hi))
    obtain ⟨z, hz, hzomb, -⟩ := hlive hy hqp hzomb
    exact ⟨z, hz, hzomb, hclaimed⟩
  · obtain ⟨y0, hy0, rfl⟩ := htask hy
    exact h.home (x := y0) hy0 hid
  · obtain ⟨y0, hy0, rfl⟩ := htask hy
    exact h.entered (x := y0) hq hy0
  · obtain ⟨y0, hy0, rfl⟩ := htask hy
    exact h.moved (x := y0) hq hy0
  · obtain ⟨hmax, hlim, hids⟩ := h.fresh hq hn
    refine ⟨hmax, hlim, fun hy => ?_⟩
    obtain ⟨y0, hy0, rfl⟩ := htask hy
    have hidy := hids hy0
    exact hidy
  · obtain ⟨hlt, hacc⟩ := h.quota hN
    have hsub : System.counted { s with tree := s.tree.exit p } c ⊆ s.counted c := by
      refine counted_mono (fun q => hmem) fun {q y r} hy hr hrm => ?_
      obtain ⟨y0, hy0, rfl⟩ := htask hy
      obtain hr | ⟨-, hr⟩ := hparent hr
      · exact absurd hrm (h.init_not_member hr (h.claimed_of_limit hN))
      · exact .inr ⟨y0, r, hy0, hr, hrm⟩
    exact ⟨hlt, hacc.imp_right (Nat.add_le_add_left (Set.ncard_le_ncard hsub) _).trans⟩

omit [DecidableEq C] in
/-- A zombie goes, and with it one process of every account that it is in. -/
theorem Inv.remove (h : s.Inv) {y : Task P C} (hy : s.tree.task q = some y) (hz : y.zombie = true) :
    Inv { s with tree := s.tree.setTask q none } ∧
      ∀ c, System.counted { s with tree := s.tree.setTask q none } c ⊆ s.counted c \ {q} := by
  have htask : ∀ {q' z}, (s.tree.setTask q none).task q' = some z →
      q' ≠ q ∧ s.tree.task q' = some z := by
    intro q' z hz
    rw [setTask_task] at hz
    split_ifs at hz with hq
    exact ⟨hq, hz⟩
  have hlive : ∀ {q' z}, s.tree.task q' = some z → z.zombie = false →
      (s.tree.setTask q none).task q' = some z := by
    intro q' z hz' hzomb
    rw [setTask_task, if_neg, hz']
    rintro rfl
    obtain rfl := Option.some.inj (hy.symm.trans hz')
    rw [hz] at hzomb
    cases hzomb
  have hmem : ∀ {c q'}, System.Member { s with tree := s.tree.setTask q none } c q' →
      s.Member c q' := by
    rintro c q' ⟨z, hz', hid, hman⟩
    exact ⟨z, (htask hz').2, hid, hman⟩
  have hsub : ∀ c, System.counted { s with tree := s.tree.setTask q none } c ⊆
      s.counted c \ {q} := by
    rintro c q' (⟨z, hz', hmem'⟩ | ⟨z, r, hz', hr, hmem'⟩)
    · exact ⟨.inl ⟨z, (htask hz').2, hmem'⟩, (htask hz').1⟩
    · exact ⟨.inr ⟨z, r, (htask hz').2, hr, hmem hmem'⟩, (htask hz').1⟩
  refine
    ⟨{ parent := fun hz' hr => ?_
       init := ?_
       inside := fun hq => ?_
       sole := h.sole
       home := fun hz' => h.home (htask hz').2
       entered := fun hq hz' => h.entered hq (htask hz').2
       moved := fun hq hz' => h.moved hq (htask hz').2
       fresh := fun hq hn => ?_
       unclaimed := h.unclaimed
       ids := h.ids
       inj := h.inj
       room := h.room
       quota := fun {c N} hN => ?_ }, hsub⟩
  · obtain ⟨z', hz'', hzomb⟩ := h.parent (htask hz').2 hr
    exact ⟨z', hlive hz'' hzomb, hzomb⟩
  · obtain ⟨i, z, hi, hz', hzomb, hhome⟩ := h.init
    exact ⟨i, z, hi, hlive hz' hzomb, hzomb, hhome⟩
  · obtain ⟨z, hz', hzomb, hclaimed⟩ := h.inside hq
    exact ⟨z, hlive hz' hzomb, hzomb, hclaimed⟩
  · obtain ⟨hmax, hlim, hids⟩ := h.fresh hq hn
    exact ⟨hmax, hlim, fun hz' => hids (htask hz').2⟩
  · obtain ⟨hlt, hacc⟩ := h.quota hN
    have hle := Set.ncard_le_ncard ((hsub c).trans Set.sdiff_subset)
    exact ⟨hlt, hacc.imp_right (Nat.add_le_add_left hle _).trans⟩

theorem Inv.waits (h : s.Inv) (hx : s.tree.task p = some x) (hi : s.inside p = none)
    (hz : x.zombie = false) {o : Option P} {t : Tree P C} (ht : s.tree.Waits p x o t) :
    Inv { s with tree := t } := by
  cases ht with
  | idle => exact h
  | reaped q y hy hp hzq hcred =>
    obtain ⟨hrem, hsub⟩ := h.remove hy hzq
    cases hcred with
    | outside => exact hrem
    | inside c hid hcont =>
      obtain ⟨hclaimed, hcid⟩ := h.settled_of_container hx (.inl hi) hid hcont
      have hpq : p ≠ q := by
        rintro rfl
        obtain rfl := Option.some.inj (hx.symm.trans hy)
        rw [hz] at hzq
        cases hzq
      have hx' : (s.tree.setTask q none).task p = some x := by rw [setTask_task, if_neg hpq, hx]
      refine hrem.setNproc (c := c) hclaimed (hrem.not_pending hx' hcid) fun N hN => ?_
      -- The reaper is in the container, so the child was in its account.
      have hman : ¬ s.Manages p c := by
        rintro ⟨ph, hph, -⟩
        rw [hi] at hph
        cases hph
      have hq : q ∈ s.counted c := .inr ⟨y, p, hy, hp, x, hx, hcid, hman⟩
      have hle := (Set.ncard_le_ncard (hsub c)).trans_lt (Set.ncard_sdiff_singleton_lt_of_mem hq)
      obtain ⟨hlt, hacc⟩ := h.quota hN
      replace hacc := hacc.resolve_left (h.not_pending hx hcid)
      rw [uinc_of_lt (by simp only [UINT_MAX] at hlt; omega)]
      omega

/-! ## The limit -/

omit [DecidableEq P] [Finite P] in
theorem Inv.maxproc (h : s.Inv) (hx : s.tree.task p = some x) (hi : s.inside p = none) (n : Int) :
    Inv { s with tree := s.tree.maxproc x n } := by
  unfold Tree.maxproc
  split_ifs with hn
  · exact h
  split
  · exact h
  rename_i c hcont
  split_ifs with hc
  · exact h
  push Not at hc
  obtain ⟨hclaimed, hcid⟩ := h.settled_of_container hx (.inl hi) hc.2 hcont
  have hpend := h.not_pending hx hcid
  refine h.setNproc hclaimed hpend fun N hN => ?_
  -- A container created with a limit has it already.
  obtain ⟨hlt, hacc⟩ := h.quota hN
  have := hacc.resolve_left hpend
  omega

end Steps

end System

end Dockv6
