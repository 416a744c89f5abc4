import Dockv6.Container.Quota

/-!
# The accounts while a container is created

The parts of `cm_create_and_enter` keep the invariant of `Container/Quota.lean`, and with it every
step of the abstract system (`Inv.step`). The manager is counted nowhere while it is inside.
-/

namespace Dockv6

open Function

namespace System

variable {P C : Type} {s : System P C} {p q : P} {c : C} {x : Task P C}

/-! ## What a part of the call does to its caller -/

/-- What the next part of `cm_create_and_enter` does to its caller: its task `x` becomes `x'`, its
phase `ph` becomes `o`, and the containers have `n` processes left. -/
structure Advance (s : System P C) (x : Task P C) (ph : Phase C) (x' : Task P C)
    (o : Option (Phase C)) (n : C → ℕ) : Prop where
  parent : x'.parent = x.parent
  zombie : x'.zombie = x.zombie
  container : ∀ {ph'}, o = some ph' → ph'.container = ph.container
  id : x'.container_id = x.container_id ∨ x'.container_id = 0 ∨
    x'.container_id = s.tree.cid ph.container
  entered : ∀ {c m}, o = some (.entered c m) → x'.container = some c
  moved : ∀ {ph'}, o = some ph' → ph'.pending = none →
    x'.container = some ph.container ∧ x'.container_id = s.tree.cid ph.container
  pending : ∀ {ph' m}, o = some ph' → ph'.pending = some m →
    ph.pending = some m ∧ x'.container_id = x.container_id ∧ n = s.tree.nproc
  out : o = none → x'.container_id = 0
  others : ∀ {c}, c ≠ ph.container → n c = s.tree.nproc c
  kept : ph.pending = none → n = s.tree.nproc
  set : ∀ {m N}, ph.pending = some m → limitOf m = some N →
    (∃ ph' m, o = some ph' ∧ ph'.pending = some m) ∨ n ph.container = N

theorem advance_enter (s : System P C) (x : Task P C) (c : C) (fs : Bytes) (n : Int) :
    s.Advance x (.claimed c fs n) { x with container := some c } (some (.entered c n))
      s.tree.nproc where
  parent := rfl
  zombie := rfl
  container := by
    rintro _ ⟨⟩
    rfl
  id := .inl rfl
  entered := by
    rintro _ _ ⟨⟩
    rfl
  moved := by
    rintro _ ⟨⟩ ⟨⟩
  pending := by
    rintro _ _ ⟨⟩ hm
    exact ⟨hm, rfl, rfl⟩
  out := nofun
  others _ := rfl
  kept _ := rfl
  set _ _ := .inl ⟨_, n, rfl, rfl⟩

/-- The caller moves in: `n'` is the limit that `cm_maxproc` leaves. -/
theorem advance_move (s : System P C) {x : Task P C} {c : C} {n : Int} (hc : x.container = some c)
    {n' : C → ℕ} (hothers : ∀ c', c' ≠ c → n' c' = s.tree.nproc c')
    (hset : ∀ N, limitOf n = some N → n' c = N) :
    s.Advance x (.entered c n) { x with container_id := s.tree.cid c } (some (.moved c)) n' where
  parent := rfl
  zombie := rfl
  container := by
    rintro _ ⟨⟩
    rfl
  id := .inr (.inr rfl)
  entered := nofun
  moved _ _ := ⟨hc, rfl⟩
  pending := by
    rintro _ _ ⟨⟩ ⟨⟩
  out := nofun
  others := hothers _
  kept := nofun
  set hm hN := .inr (hset _ (Option.some.inj hm ▸ hN))

theorem advance_start (s : System P C) {x : Task P C} {c : C} (hc : x.container = some c)
    (hid : x.container_id = s.tree.cid c) :
    s.Advance x (.moved c) x (some (.forked c)) s.tree.nproc where
  parent := rfl
  zombie := rfl
  container := by
    rintro _ ⟨⟩
    rfl
  id := .inl rfl
  entered := nofun
  moved _ _ := ⟨hc, hid⟩
  pending := by
    rintro _ _ ⟨⟩ ⟨⟩
  out := nofun
  others _ := rfl
  kept _ := rfl
  set := nofun

theorem advance_leave (s : System P C) (x : Task P C) (c : C) :
    s.Advance x (.forked c) { x with container_id := 0 } none s.tree.nproc where
  parent := rfl
  zombie := rfl
  container := nofun
  id := .inr (.inl rfl)
  entered := nofun
  moved := nofun
  pending := nofun
  out _ := rfl
  others _ := rfl
  kept _ := rfl
  set := nofun

/-- Which phases there are after the phase of `p` has been set to `o`. -/
theorem update_inside [DecidableEq P] {o : Option (Phase C)} {ph : Phase C} :
    update s.inside p o q = some ph ↔ (q = p ∧ o = some ph) ∨ (q ≠ p ∧ s.inside q = some ph) := by
  rw [update_apply]
  by_cases hq : q = p <;> simp [hq]

theorem limitOf_lt {n : Int} {N : ℕ} (h : limitOf n = some N) :
    N < UINT_MAX ∧ n < NPROC ∧ touint n = N := by
  unfold limitOf at h
  split_ifs at h with hn
  obtain rfl := Option.some.inj h
  simp only [NPROC, UINT_MAX, touint] at *
  omega

/-- A `fork` leaves the task of its caller and the ids alone. -/
theorem forks_task [DecidableEq P] [DecidableEq C] {t t' : Tree P C} {r : Int}
    (hx : t.task p = some x) (h : t.Forks p x r t') : t'.task p = some x ∧ t'.cid = t.cid := by
  have hcharged : ∀ {t1}, t.Charged x t1 → t1.task = t.task ∧ t1.cid = t.cid := by
    rintro t1 (_ | _) <;> exact ⟨rfl, rfl⟩
  cases h with
  | refused => exact ⟨hx, rfl⟩
  | failed hc n =>
    obtain ⟨htask, hcid⟩ := hcharged hc
    exact ⟨(congrFun htask p).trans hx, hcid⟩
  | child hc np hnp =>
    obtain ⟨htask, hcid⟩ := hcharged hc
    have hne : p ≠ np := by
      rintro rfl
      rw [hx] at hnp
      cases hnp
    exact ⟨(update_of_ne hne _ _).trans ((congrFun htask p).trans hx), hcid⟩

/-! ## The claim -/

section Claim

variable {c' c1 c2 : C} {fs : Bytes} {m : Int}

theorem Claimed.ne (hc' : s.Claimed c') (hc : s.tree.cid c = UINT_MAX) : c' ≠ c := by
  rintro rfl
  exact hc' hc

/-- The ids in use are below the next one. -/
theorem Inv.id_ne_nextcid (h : s.Inv) (hx : s.tree.task p = some x) :
    x.container_id ≠ s.tree.nextcid := by
  by_cases h0 : x.container_id = 0
  · have hpos := h.room.1
    omega
  · obtain ⟨c, hc, hid, -⟩ := h.home hx h0
    have hlt := (h.ids hc).2
    omega

theorem Inv.nextcid_ne [Finite C] (h : s.Inv) (hc : s.tree.cid c = UINT_MAX) :
    s.tree.nextcid ≠ UINT_MAX := by
  have hcard : 0 < {c | s.tree.cid c = UINT_MAX}.ncard := (Set.ncard_pos).mpr ⟨c, hc⟩
  have hroom := h.room.2
  omega

variable [DecidableEq C]

theorem claim_cid_self : (s.tree.claim c).cid c = s.tree.nextcid := update_self ..

theorem claim_cid_of_ne (hne : c' ≠ c) : (s.tree.claim c).cid c' = s.tree.cid c' :=
  update_of_ne hne ..

theorem Inv.claim_room [Finite C] (h : s.Inv) (hc : s.tree.cid c = UINT_MAX) :
    s.tree.nextcid + 1 + {c' | (s.tree.claim c).cid c' = UINT_MAX}.ncard ≤ UINT_MAX := by
  have hsub : {c' | (s.tree.claim c).cid c' = UINT_MAX} ⊆ {c' | s.tree.cid c' = UINT_MAX} \
      {c} := by
    intro c' hc'
    have hne : c' ≠ c := by
      rintro rfl
      exact h.nextcid_ne hc (claim_cid_self.symm.trans hc')
    exact ⟨(claim_cid_of_ne hne).symm.trans hc', hne⟩
  have hlt := (Set.ncard_le_ncard hsub).trans_lt (Set.ncard_sdiff_singleton_lt_of_mem hc)
  have hroom := h.room.2
  omega

variable [DecidableEq P]

/-- The system once `p` has claimed `c` for at most `m` processes. -/
def claimed (s : System P C) (p : P) (c : C) (fs : Bytes) (m : Int) : System P C where
  tree := s.tree.claim c
  inside := update s.inside p (some (.claimed c fs m))
  limit := update s.limit c (limitOf m)

variable (h : s.Inv) (hc : s.tree.cid c = UINT_MAX)

include h hc

theorem Inv.claim_fresh {ph : Phase C} {k : Int} (hq : (s.claimed p c fs m).inside q = some ph)
    (hk : ph.pending = some k) :
    s.tree.nproc ph.container = UINT_MAX ∧ (s.claimed p c fs m).limit ph.container = limitOf k ∧
      ∀ {q' y}, s.tree.task q' = some y → y.container_id ≠ (s.tree.claim c).cid ph.container := by
  obtain ⟨-, heq⟩ | ⟨-, hq⟩ := update_inside.mp hq
  · cases heq
    cases hk
    refine ⟨(h.unclaimed hc).1, update_self .., fun hy => ?_⟩
    rw [Phase.container, claim_cid_self]
    exact h.id_ne_nextcid hy
  · obtain ⟨hmax, hlim, hids⟩ := h.fresh hq hk
    obtain ⟨-, -, -, hclaimed⟩ := h.inside hq
    refine ⟨hmax, (update_of_ne (hclaimed.ne hc) _ _).trans hlim, fun hy => ?_⟩
    rw [claim_cid_of_ne (hclaimed.ne hc)]
    exact hids hy

theorem Inv.claim_quota [Finite P] (hi : s.inside p = none) {N : ℕ}
    (hN : (s.claimed p c fs m).limit c' = some N) :
    N < UINT_MAX ∧ ((s.claimed p c fs m).Pending c' ∨
      s.tree.nproc c' + ((s.claimed p c fs m).counted c').ncard ≤ N) := by
  have hinside : ∀ {q ph}, s.inside q = some ph → (s.claimed p c fs m).inside q = some ph := by
    intro q ph hq
    refine update_inside.mpr (.inr ⟨?_, hq⟩)
    rintro rfl
    cases hi.symm.trans hq
  by_cases heq : c' = c
  · subst heq
    have hlim : update s.limit c' (limitOf m) c' = some N := hN
    rw [update_self] at hlim
    exact ⟨(limitOf_lt hlim).1, .inl ⟨p, _, m, update_self .., rfl, rfl⟩⟩
  · obtain ⟨hlt, hacc⟩ := h.quota ((update_of_ne heq _ _).symm.trans hN)
    refine ⟨hlt, hacc.imp ?_ ?_⟩
    · rintro ⟨q, ph, k, hq, hph, hk⟩
      exact ⟨q, ph, k, hinside hq, hph, hk⟩
    · have hsub : (s.claimed p c fs m).counted c' ⊆ s.counted c' := by
        refine counted_mono ?_ fun hy hr hm => .inr ⟨_, _, hy, hr, hm⟩
        rintro q ⟨y, hy, hid, hman⟩
        exact ⟨y, hy, hid.trans (claim_cid_of_ne heq), fun ⟨ph, hq, hph⟩ =>
          hman ⟨ph, hinside hq, hph⟩⟩
      exact (Nat.add_le_add_left (Set.ncard_le_ncard hsub) _).trans

theorem Inv.claim_sole {q' : P} {ph ph' : Phase C} (hq : (s.claimed p c fs m).inside q = some ph)
    (hq' : (s.claimed p c fs m).inside q' = some ph') (heq : ph.container = ph'.container) :
    q = q' := by
  obtain ⟨rfl, hph⟩ | ⟨-, hin⟩ := update_inside.mp hq <;> obtain ⟨rfl, hph'⟩ | ⟨-, hin'⟩ :=
    update_inside.mp hq'
  · rfl
  · cases hph
    obtain ⟨-, -, -, hclaimed⟩ := h.inside hin'
    exact absurd heq.symm (hclaimed.ne hc)
  · cases hph'
    obtain ⟨-, -, -, hclaimed⟩ := h.inside hin
    exact absurd heq (hclaimed.ne hc)
  · exact h.sole hin hin' heq

variable [Finite C]

theorem Inv.claimed_iff : (s.claimed p c fs m).Claimed c' ↔ c' = c ∨ s.Claimed c' := by
  by_cases heq : c' = c
  · subst heq
    exact iff_of_true (fun hmax => h.nextcid_ne hc (claim_cid_self.symm.trans hmax)) (.inl rfl)
  · rw [or_iff_right heq]
    show (s.tree.claim c).cid c' ≠ UINT_MAX ↔ _
    rw [claim_cid_of_ne heq]
    rfl

theorem Inv.claim_ids (hc' : (s.claimed p c fs m).Claimed c') :
    0 < (s.tree.claim c).cid c' ∧ (s.tree.claim c).cid c' < s.tree.nextcid + 1 := by
  obtain rfl | hold := (h.claimed_iff hc).mp hc'
  · rw [claim_cid_self]
    exact ⟨h.room.1, Nat.lt_succ_self _⟩
  · rw [claim_cid_of_ne (hold.ne hc)]
    exact ⟨(h.ids hold).1, (h.ids hold).2.trans (Nat.lt_succ_self _)⟩

theorem Inv.claim_inj (h1 : (s.claimed p c fs m).Claimed c1) (h2 : (s.claimed p c fs m).Claimed c2)
    (heq : (s.tree.claim c).cid c1 = (s.tree.claim c).cid c2) : c1 = c2 := by
  obtain h1 | h1 := (h.claimed_iff hc).mp h1 <;> obtain h2 | h2 := (h.claimed_iff hc).mp h2
  · rw [h1, h2]
  · rw [h1, claim_cid_self, claim_cid_of_ne (h2.ne hc)] at heq
    exact absurd heq (h.ids h2).2.ne'
  · rw [h2, claim_cid_self, claim_cid_of_ne (h1.ne hc)] at heq
    exact absurd heq (h.ids h1).2.ne
  · rw [claim_cid_of_ne (h1.ne hc), claim_cid_of_ne (h2.ne hc)] at heq
    exact h.inj h1 h2 heq

theorem Inv.claim [Finite P] (hx : s.tree.task p = some x) (hz : x.zombie = false)
    (hi : s.inside p = none) : (s.claimed p c fs m).Inv where
  parent := h.parent
  init := by
    obtain ⟨i, y, hii, hy, hzy, hhome⟩ := h.init
    refine ⟨i, y, hii, hy, hzy, hhome.imp_right ?_⟩
    rintro ⟨ph, hph, hn⟩
    refine ⟨ph, update_inside.mpr (.inr ⟨?_, hph⟩), hn⟩
    rintro rfl
    cases hi.symm.trans hph
  inside hq := by
    obtain ⟨rfl, heq⟩ | ⟨-, hq⟩ := update_inside.mp hq
    · cases heq
      exact ⟨x, hx, hz, (h.claimed_iff hc).mpr (.inl rfl)⟩
    · obtain ⟨y, hy, hzy, hclaimed⟩ := h.inside hq
      exact ⟨y, hy, hzy, (h.claimed_iff hc).mpr (.inr hclaimed)⟩
  sole := h.claim_sole hc
  home {q y} hy h0 := by
    obtain ⟨c', hc', hid, hcont⟩ := h.home hy h0
    refine ⟨c', (h.claimed_iff hc).mpr (.inr hc'), hid.trans (claim_cid_of_ne (hc'.ne hc)).symm,
      fun hq => hcont ?_⟩
    by_cases hqp : q = p
    · rw [hqp, hi]
    · exact (update_of_ne hqp _ _).symm.trans hq
  entered hq hy := by
    obtain ⟨-, heq⟩ | ⟨-, hq⟩ := update_inside.mp hq
    · cases heq
    · exact h.entered hq hy
  moved hq hy hn := by
    obtain ⟨-, heq⟩ | ⟨-, hq⟩ := update_inside.mp hq
    · cases heq
      cases hn
    · obtain ⟨hcont, hid⟩ := h.moved hq hy hn
      obtain ⟨-, -, -, hclaimed⟩ := h.inside hq
      exact ⟨hcont, hid.trans (claim_cid_of_ne (hclaimed.ne hc)).symm⟩
  fresh := h.claim_fresh hc
  unclaimed {c'} hc' := by
    have hnot : ¬ (s.claimed p c fs m).Claimed c' := not_not.mpr hc'
    rw [h.claimed_iff hc, not_or] at hnot
    obtain ⟨hmax, hlim⟩ := h.unclaimed (not_not.mp hnot.2)
    exact ⟨hmax, (update_of_ne hnot.1 _ _).trans hlim⟩
  ids := h.claim_ids hc
  inj := h.claim_inj hc
  room := ⟨Nat.succ_pos _, h.claim_room hc⟩
  quota := h.claim_quota hc hi

end Claim

/-! ## The other parts -/

section Advance

variable {ph : Phase C} {x' y : Task P C} {o : Option (Phase C)} {n : C → ℕ}

/-- The new id of `p` is that of no other container on its way. -/
theorem Inv.advance_id_ne {ph' : Phase C} {m : Int} (h : s.Inv) (hx : s.tree.task p = some x)
    (hi : s.inside p = some ph) (ha : s.Advance x ph x' o n) (hq : q ≠ p)
    (hph' : s.inside q = some ph')
    (hm : ph'.pending = some m) : x'.container_id ≠ s.tree.cid ph'.container := by
  intro heq
  obtain ⟨-, -, -, hclaimed⟩ := h.inside hi
  obtain ⟨-, -, -, hclaimed'⟩ := h.inside hph'
  obtain hid | hid | hid := ha.id
  · exact (h.fresh hph' hm).2.2 hx (hid ▸ heq)
  · exact (h.ids hclaimed').1.ne (hid ▸ heq)
  · exact hq (h.sole hph' hi (h.inj hclaimed' hclaimed (heq.symm.trans hid)))

theorem Inv.not_pending_self (h : s.Inv) (hi : s.inside p = some ph) (hph : ph.pending = none) :
    ¬ s.Pending ph.container := by
  rintro ⟨q, ph', m, hq, hcont, hm⟩
  obtain rfl := h.sole hq hi hcont
  obtain rfl := Option.some.inj (hi.symm.trans hq)
  cases hph.symm.trans hm

variable [DecidableEq P]

/-- The system once a part of the call has advanced `p`. -/
def advanced (s : System P C) (p : P) (x' : Task P C) (o : Option (Phase C))
    (n : C → ℕ) : System P C :=
  { s with
    tree := { s.tree.setTask p (some x') with nproc := n }
    inside := update s.inside p o }

theorem advanced_task : (s.advanced p x' o n).tree.task q = some y ↔
    (q = p ∧ y = x') ∨ (q ≠ p ∧ s.tree.task q = some y) := by
  show (s.tree.setTask p (some x')).task q = some y ↔ _
  rw [setTask_task]
  by_cases hq : q = p <;> simp [hq, eq_comm]

theorem advanced_pending (hi : s.inside p = some ph) (hc : c ≠ ph.container)
    (hpending : s.Pending c) : (s.advanced p x' o n).Pending c := by
  obtain ⟨q, ph', m, hq, hcont, hm⟩ := hpending
  refine ⟨q, ph', m, update_inside.mpr (.inr ⟨?_, hq⟩), hcont, hm⟩
  rintro rfl
  obtain rfl := Option.some.inj (hi.symm.trans hq)
  exact hc hcont.symm

variable (h : s.Inv) (hx : s.tree.task p = some x) (hi : s.inside p = some ph)
  (ha : s.Advance x ph x' o n)

include h hx hi ha

theorem Inv.advance_live (hy : s.tree.task q = some y) (hz : y.zombie = false) :
    ∃ z, (s.advanced p x' o n).tree.task q = some z ∧ z.zombie = false := by
  by_cases hq : q = p
  · obtain ⟨x0, hx0, hzx, -⟩ := h.inside hi
    obtain rfl := Option.some.inj (hx0.symm.trans hx)
    exact ⟨x', advanced_task.mpr (.inl ⟨hq, rfl⟩), ha.zombie.trans hzx⟩
  · exact ⟨y, advanced_task.mpr (.inr ⟨hq, hy⟩), hz⟩

/-- Whoever is in a container now was in it before. -/
theorem Inv.advance_member (hc : s.Claimed c) (hq : (s.advanced p x' o n).Member c q) :
    s.Member c q := by
  obtain ⟨y, hy, hid, hman⟩ := hq
  obtain ⟨rfl, rfl⟩ | ⟨hq, hyold⟩ := advanced_task.mp hy
  · have hid : y.container_id = s.tree.cid c := hid
    have hpos := (h.ids hc).1
    obtain ⟨ph', hph'⟩ : ∃ ph', o = some ph' := by
      cases ho : o with
      | none => exact absurd ((ha.out ho).symm.trans hid) hpos.ne
      | some ph' => exact ⟨ph', rfl⟩
    have hnot : c ≠ ph.container := fun heq =>
      hman ⟨ph', (update_self ..).trans hph', (ha.container hph').trans heq.symm⟩
    obtain hsame | h0 | hnew := ha.id
    · refine ⟨_, hx, hsame.symm.trans hid, ?_⟩
      rintro ⟨ph'', hph'', hcont⟩
      obtain rfl := Option.some.inj (hi.symm.trans hph'')
      exact hnot hcont.symm
    · exact absurd (h0.symm.trans hid) hpos.ne
    · obtain ⟨-, -, -, hclaimed⟩ := h.inside hi
      exact absurd (h.inj hc hclaimed (hid.symm.trans hnew)) hnot
  · refine ⟨y, hyold, hid, ?_⟩
    rintro ⟨ph', hph', hcont⟩
    exact hman ⟨ph', (update_of_ne hq _ _).trans hph', hcont⟩

theorem Inv.advance_init : ∃ i y, s.tree.initproc = some i ∧
    (s.advanced p x' o n).tree.task i = some y ∧ y.zombie = false ∧
    (y.container_id = 0 ∨ ∃ ph, (s.advanced p x' o n).inside i = some ph ∧ ph.pending = none) := by
  obtain ⟨i, y, hii, hy, hzy, hhome⟩ := h.init
  by_cases hip : i = p
  · subst hip
    obtain rfl := Option.some.inj (hx.symm.trans hy)
    refine ⟨i, x', hii, advanced_task.mpr (.inl ⟨rfl, rfl⟩), ha.zombie.trans hzy, ?_⟩
    cases ho : o with
    | none => exact .inl (ha.out ho)
    | some ph' =>
      cases hn : ph'.pending with
      | none => exact .inr ⟨ph', update_self .., hn⟩
      | some m =>
        obtain ⟨hm, hid, -⟩ := ha.pending ho hn
        obtain h0 | ⟨ph'', hph'', hnone⟩ := hhome
        · exact .inl (hid.trans h0)
        · obtain rfl := Option.some.inj (hi.symm.trans hph'')
          cases hm.symm.trans hnone
  · refine ⟨i, y, hii, advanced_task.mpr (.inr ⟨hip, hy⟩), hzy, hhome.imp_right ?_⟩
    rintro ⟨ph', hph', hn⟩
    exact ⟨ph', (update_of_ne hip _ _).trans hph', hn⟩

theorem Inv.advance_home (hy : (s.advanced p x' o n).tree.task q = some y)
    (h0 : y.container_id ≠ 0) : ∃ c, s.Claimed c ∧ y.container_id = s.tree.cid c ∧
      ((s.advanced p x' o n).inside q = none → y.container = some c) := by
  obtain ⟨rfl, rfl⟩ | ⟨hqp, hyold⟩ := advanced_task.mp hy
  · have hout : update s.inside q o q = none → False := fun hnone =>
      h0 (ha.out ((update_self q o s.inside).symm.trans hnone))
    obtain hsame | h0' | hnew := ha.id
    · obtain ⟨c, hc, hid, -⟩ := h.home hx (hsame ▸ h0)
      exact ⟨c, hc, hsame.trans hid, fun hnone => (hout hnone).elim⟩
    · exact absurd h0' h0
    · obtain ⟨-, -, -, hclaimed⟩ := h.inside hi
      exact ⟨ph.container, hclaimed, hnew, fun hnone => (hout hnone).elim⟩
  · obtain ⟨c, hc, hid, hcont⟩ := h.home hyold h0
    exact ⟨c, hc, hid, fun hnone => hcont ((update_of_ne hqp _ _).symm.trans hnone)⟩

theorem Inv.advance_fresh {ph' : Phase C} {m : Int} (hq : (s.advanced p x' o n).inside q = some ph')
    (hm : ph'.pending = some m) : n ph'.container = UINT_MAX ∧ s.limit ph'.container = limitOf m ∧
      ∀ {q' y}, (s.advanced p x' o n).tree.task q' = some y →
      y.container_id ≠ s.tree.cid ph'.container := by
  obtain ⟨rfl, ho⟩ | ⟨hqp, hin⟩ := update_inside.mp hq
  · obtain ⟨hm, hid, rfl⟩ := ha.pending ho hm
    obtain ⟨hmax, hlim, hids⟩ := h.fresh hi hm
    rw [ha.container ho]
    refine ⟨hmax, hlim, fun hy => ?_⟩
    obtain ⟨rfl, rfl⟩ | ⟨-, hyold⟩ := advanced_task.mp hy
    · exact hid ▸ hids hx
    · exact hids hyold
  · obtain ⟨hmax, hlim, hids⟩ := h.fresh hin hm
    have hne : ph'.container ≠ ph.container := fun heq => hqp (h.sole hin hi heq)
    refine ⟨(ha.others hne).trans hmax, hlim, fun hy => ?_⟩
    obtain ⟨rfl, rfl⟩ | ⟨-, hyold⟩ := advanced_task.mp hy
    · exact h.advance_id_ne hx hi ha hqp hin hm
    · exact hids hyold

omit hx in
/-- The account of the container that `p` creates. -/
theorem Inv.advance_quota_self {N k : ℕ} (hN : s.limit ph.container = some N)
    (hle : k ≤ (s.counted ph.container).ncard) :
    (s.advanced p x' o n).Pending ph.container ∨ n ph.container + k ≤ N := by
  cases hph : ph.pending with
  | none =>
    have hacc := (h.quota hN).2.resolve_left (h.not_pending_self hi hph)
    rw [ha.kept hph]
    exact .inr ((Nat.add_le_add_left hle _).trans hacc)
  | some m =>
    -- Nobody has the id of a container that is not set up yet.
    obtain ⟨-, hlim, hids⟩ := h.fresh hi hph
    obtain ⟨ph', m', ho, hm'⟩ | hset := ha.set hph (hlim.symm.trans hN)
    · exact .inl ⟨p, ph', m', (update_self ..).trans ho, ha.container ho, hm'⟩
    · have hnobody : ∀ q, ¬ s.Member ph.container q := fun q ⟨y, hy, hid, _⟩ => hids hy hid
      have hempty : s.counted ph.container = ∅ := by
        refine Set.eq_empty_of_forall_notMem fun q hq => ?_
        obtain hq | ⟨_, r, _, _, hr⟩ := hq
        · exact hnobody q hq
        · exact hnobody r hr
      rw [hempty, Set.ncard_empty] at hle
      exact .inr (by omega)

theorem Inv.advance_quota [Finite P] {N : ℕ} (hN : s.limit c = some N) :
    N < UINT_MAX ∧
    ((s.advanced p x' o n).Pending c ∨ n c + ((s.advanced p x' o n).counted c).ncard ≤ N) := by
  obtain ⟨hlt, hacc⟩ := h.quota hN
  refine ⟨hlt, ?_⟩
  have hsub : (s.advanced p x' o n).counted c ⊆ s.counted c := by
    refine counted_mono (fun q => h.advance_member hx hi ha (h.claimed_of_limit hN)) fun hy hr hm =>
      ?_
    obtain ⟨rfl, rfl⟩ | ⟨-, hyold⟩ := advanced_task.mp hy
    · exact .inr ⟨_, _, hx, ha.parent.symm.trans hr, hm⟩
    · exact .inr ⟨_, _, hyold, hr, hm⟩
  have hle := Set.ncard_le_ncard hsub
  by_cases heq : c = ph.container
  · subst heq
    exact h.advance_quota_self hi ha hN hle
  · refine hacc.imp (advanced_pending hi heq) fun hacc => ?_
    rw [ha.others heq]
    exact (Nat.add_le_add_left hle _).trans hacc

theorem Inv.advance [Finite P] : (s.advanced p x' o n).Inv where
  parent hy hr := by
    obtain ⟨rfl, rfl⟩ | ⟨-, hyold⟩ := advanced_task.mp hy
    · obtain ⟨z, hz, hzomb⟩ := h.parent hx (ha.parent.symm.trans hr)
      exact h.advance_live hx hi ha hz hzomb
    · obtain ⟨z, hz, hzomb⟩ := h.parent hyold hr
      exact h.advance_live hx hi ha hz hzomb
  init := h.advance_init hx hi ha
  inside hq := by
    obtain ⟨x0, hx0, hzx, hclaimed⟩ := h.inside hi
    obtain rfl := Option.some.inj (hx0.symm.trans hx)
    obtain ⟨rfl, ho⟩ | ⟨hqp, hin⟩ := update_inside.mp hq
    · exact ⟨x', advanced_task.mpr (.inl ⟨rfl, rfl⟩), ha.zombie.trans hzx,
        (ha.container ho).symm ▸ hclaimed⟩
    · obtain ⟨y, hy, hzy, hcl⟩ := h.inside hin
      exact ⟨y, advanced_task.mpr (.inr ⟨hqp, hy⟩), hzy, hcl⟩
  sole hq hq' heq := by
    obtain ⟨rfl, ho⟩ | ⟨-, hin⟩ := update_inside.mp hq <;> obtain ⟨rfl, ho'⟩ | ⟨-, hin'⟩ :=
      update_inside.mp hq'
    · rfl
    · exact h.sole hi hin' ((ha.container ho).symm.trans heq)
    · exact h.sole hin hi (heq.trans (ha.container ho'))
    · exact h.sole hin hin' heq
  home := h.advance_home hx hi ha
  entered hq hy := by
    obtain ⟨rfl, ho⟩ | ⟨hqp, hin⟩ := update_inside.mp hq <;>
      obtain ⟨heq, rfl⟩ | ⟨hne, hyold⟩ := advanced_task.mp hy
    · exact ha.entered ho
    · exact absurd rfl hne
    · exact absurd heq hqp
    · exact h.entered hin hyold
  moved hq hy hn := by
    obtain ⟨rfl, ho⟩ | ⟨hqp, hin⟩ := update_inside.mp hq <;>
      obtain ⟨heq, rfl⟩ | ⟨hne, hyold⟩ := advanced_task.mp hy
    · rw [ha.container ho]
      exact ha.moved ho hn
    · exact absurd rfl hne
    · exact absurd heq hqp
    · exact h.moved hin hyold hn
  fresh := h.advance_fresh hx hi ha
  unclaimed hc := by
    obtain ⟨-, -, -, hclaimed⟩ := h.inside hi
    obtain ⟨hmax, hlim⟩ := h.unclaimed hc
    exact ⟨(ha.others fun heq => hclaimed (heq ▸ hc)).trans hmax, hlim⟩
  ids := h.ids
  inj := h.inj
  room := h.room
  quota := h.advance_quota hx hi ha

end Advance

section Steps

variable [DecidableEq P] [DecidableEq C] [Finite P]

omit [Finite P] in
theorem Inv.move (h : s.Inv) (hx : s.tree.task p = some x) {n : Int}
    (hi : s.inside p = some (.entered c n)) :
    ∃ n', s.Advance x (.entered c n) { x with container_id := s.tree.cid c } (some (.moved c)) n' ∧
      (s.tree.setTask p (some { x with container_id := s.tree.cid c })).maxproc
        { x with container_id := s.tree.cid c } n =
      { s.tree.setTask p (some { x with container_id := s.tree.cid c }) with nproc := n' } := by
  have hcont := h.entered hi hx
  obtain ⟨hmax, -, -⟩ := h.fresh hi rfl
  obtain ⟨-, -, -, hclaimed⟩ := h.inside hi
  have hpos := (h.ids hclaimed).1
  unfold Tree.maxproc
  by_cases hn : (NPROC : Int) ≤ n
  · refine ⟨s.tree.nproc, advance_move s hcont (fun _ _ => rfl) fun N hN => ?_, if_pos hn⟩
    exact absurd (limitOf_lt hN).2.1 (not_lt.mpr hn)
  · refine ⟨update s.tree.nproc c (touint n),
      advance_move s hcont (fun c' hc' => update_of_ne hc' _ _) fun N hN => ?_, ?_⟩
    · exact (update_self ..).trans (limitOf_lt hN).2.2
    · rw [if_neg hn]
      split
      · rename_i hnone
        exact absurd (hnone.symm.trans hcont) nofun
      rename_i c' hc'
      obtain rfl : c' = c := Option.some.inj (hc'.symm.trans hcont)
      exact if_neg (not_or.mpr ⟨not_not.mpr hmax, hpos.ne'⟩)

omit [Finite P] in
/-- The `fork` of a manager leaves the manager as it is. -/
theorem Inv.start (h : s.Inv) (hx : s.tree.task p = some x) (hi : s.inside p = some (.moved c))
    {r : Int} {t : Tree P C} (hf : s.tree.Forks p x r t) :
    x.zombie = false ∧ t.task p = some x ∧
      Advance { s with tree := t } x (.moved c) x (some (.forked c)) t.nproc ∧
      ({ t.setTask p (some x) with nproc := t.nproc } : Tree P C) = t := by
  obtain ⟨hcont, hid⟩ := h.moved hi hx rfl
  obtain ⟨x', hx', hz, -⟩ := h.inside hi
  obtain rfl := Option.some.inj (hx'.symm.trans hx)
  obtain ⟨hself, hcid⟩ := forks_task hx hf
  exact ⟨hz, hself, advance_start { s with tree := t } hcont (hcid ▸ hid),
    Tree.setTask_eq_self t hself.symm⟩

/-! ## Every step -/

theorem Inv.step [Finite C] {s' : System P C} {e : Event P C} (h : s.Inv) (hs : s.Step e s') :
    s'.Inv := by
  cases hs with
  | quiet => exact h
  | fork p x hx hz hi hf => exact h.forks hx hz (.inl hi) hf
  | exit p x hx hz hi hinit => exact h.exit hi hinit
  | wait p x hx hz hi hw => exact h.waits hx hi hz hw
  | maxproc p x hx hi n => exact h.maxproc hx hi n
  | claim p x hx hz hi c hc fs n => exact h.claim hc hx hz hi
  | enter p x hx c fs n hi => exact h.advance hx hi (advance_enter s x c fs n)
  | move p x hx c n hi =>
    obtain ⟨n', ha, htree⟩ := h.move hx hi
    rw [htree]
    exact h.advance hx hi ha
  | start p x hx c hi hf =>
    obtain ⟨hz, hself, ha, htree⟩ := h.start hx hi hf
    have h1 := h.forks hx hz (.inr ⟨_, hi, rfl⟩) hf
    have h2 := h1.advance hself hi ha
    rwa [advanced, htree] at h2
  | leave p x hx c hi => exact h.advance hx hi (advance_leave s x c)

end Steps

end System

end Dockv6
