import Mathlib

/-!
# Forests of parent links

A `Family` has members with parent links, some of them dead, and a rank that grows from parent to
child. It is `Rooted` when every member except the root has a parent that is a member and not dead;
the way up then ends at the root.
-/

namespace Dockv6

variable {α : Type*}

/-- Members with parents; some are dead. -/
structure Family (α : Type*) where
  parent : α → Option α
  mem : α → Prop
  dead : α → Prop
  rank : α → ℕ

namespace Family

variable {f g : Family α} {root a p q r : α}

/-- Every member but the root has a parent of smaller rank that is a member and not dead. -/
structure Rooted (f : Family α) (root : α) : Prop where
  mem : f.mem root
  dead : ¬ f.dead root
  top : f.parent root = none
  first : ∀ q, f.mem q → q ≠ root → f.rank root < f.rank q
  parent : ∀ q, f.mem q → q ≠ root →
    ∃ r, f.parent q = some r ∧ f.mem r ∧ ¬ f.dead r ∧ f.rank r < f.rank q
  outside : ∀ q, ¬ f.mem q → f.parent q = none

/-- The two families say the same of an element. -/
structure AgreeAt (f g : Family α) (q : α) : Prop where
  parent : g.parent q = f.parent q
  mem : g.mem q ↔ f.mem q
  dead : g.dead q ↔ f.dead q
  rank : g.rank q = f.rank q

namespace Rooted

/-- Nothing changes for the members, and the others stay outside. -/
theorem congr (h : f.Rooted root) (hmem : ∀ q, f.mem q → f.AgreeAt g q)
    (hout : ∀ q, ¬ f.mem q → ¬ g.mem q ∧ g.parent q = none) : g.Rooted root := by
  have hback : ∀ q, g.mem q → f.mem q := fun q hq => by
    by_contra hnot
    exact (hout q hnot).1 hq
  have hroot := hmem root h.mem
  refine ⟨hroot.mem.mpr h.mem, mt hroot.dead.mp h.dead, hroot.parent.trans h.top,
    fun q hq hne => ?_, fun q hq hne => ?_, fun q hq => ?_⟩
  · rw [hroot.rank, (hmem q (hback q hq)).rank]
    exact h.first q (hback q hq) hne
  · obtain ⟨r, hpar, hr, hdead, hlt⟩ := h.parent q (hback q hq) hne
    have hagree := hmem r hr
    refine ⟨r, (hmem q (hback q hq)).parent.trans hpar, hagree.mem.mpr hr,
      mt hagree.dead.mp hdead, ?_⟩
    rw [hagree.rank, (hmem q (hback q hq)).rank]
    exact hlt
  · by_cases hf : f.mem q
    · exact absurd ((hmem q hf).mem.mpr hf) hq
    · exact (hout q hf).2

/-- The member `p` gets the child `q`. -/
theorem join (h : f.Rooted root) (hq : ¬ f.mem q) (hp : f.mem p) (hdead : ¬ f.dead p)
    (hothers : ∀ r, r ≠ q → f.AgreeAt g r) (hparent : g.parent q = some p) (hmem : g.mem q)
    (hroot : f.rank root < g.rank q) (hrank : f.rank p < g.rank q) : g.Rooted root := by
  have hne : ∀ {r}, f.mem r → r ≠ q := fun hr heq => hq (heq ▸ hr)
  have htop := hothers root (hne h.mem)
  refine ⟨htop.mem.mpr h.mem, mt htop.dead.mp h.dead, htop.parent.trans h.top,
    fun r hr hrt => ?_, fun r hr hrt => ?_, fun r hr => ?_⟩
  · rw [htop.rank]
    by_cases hrq : r = q
    · rwa [hrq]
    · rw [(hothers r hrq).rank]
      exact h.first r ((hothers r hrq).mem.mp hr) hrt
  · by_cases hrq : r = q
    · have hagree := hothers p (hne hp)
      rw [hrq]
      refine ⟨p, hparent, hagree.mem.mpr hp, mt hagree.dead.mp hdead, ?_⟩
      rwa [hagree.rank]
    · have hr' := hothers r hrq
      obtain ⟨t, hpar, ht, hlive, hlt⟩ := h.parent r (hr'.mem.mp hr) hrt
      have hagree := hothers t (hne ht)
      refine ⟨t, hr'.parent.trans hpar, hagree.mem.mpr ht, mt hagree.dead.mp hlive, ?_⟩
      rw [hagree.rank, hr'.rank]
      exact hlt
  · have hrq : r ≠ q := fun heq => hr (heq ▸ hmem)
    rw [(hothers r hrq).parent]
    exact h.outside r (mt (hothers r hrq).mem.mpr hr)

/-- The member `p` dies and the root takes its children. -/
theorem pass (h : f.Rooted root) [DecidableEq α] (hp : p ≠ root) (hmem : ∀ q, g.mem q ↔ f.mem q)
    (hrank : ∀ q, g.rank q = f.rank q) (hdead : ∀ q, g.dead q ↔ q = p ∨ f.dead q)
    (hparent : ∀ q, g.parent q = if f.parent q = some p then some root else f.parent q) :
    g.Rooted root := by
  have hroot : ¬ g.dead root := fun hr => ((hdead root).mp hr).elim (hp ·.symm) h.dead
  refine ⟨(hmem root).mpr h.mem, hroot, ?_, fun q hq hne => ?_, fun q hq hne => ?_, fun q hq => ?_⟩
  · rw [hparent, h.top, if_neg nofun]
  · rw [hrank, hrank]
    exact h.first q ((hmem q).mp hq) hne
  · have hf := (hmem q).mp hq
    obtain ⟨r, hpar, hr, hlive, hlt⟩ := h.parent q hf hne
    rw [hparent, hrank, hpar]
    by_cases hrp : r = p
    · rw [hrp, if_pos rfl]
      exact ⟨root, rfl, (hmem root).mpr h.mem, hroot, hrank root ▸ h.first q hf hne⟩
    · rw [if_neg fun heq => hrp (Option.some.inj heq)]
      exact ⟨r, rfl, (hmem r).mpr hr, fun hd => ((hdead r).mp hd).elim hrp hlive, hrank r ▸ hlt⟩
  · rw [hparent, h.outside q (mt (hmem q).mpr hq), if_neg nofun]

/-- A dead member is no one's parent, so it can go. -/
theorem remove (h : f.Rooted root) (hq : f.dead q) (hothers : ∀ r, r ≠ q → f.AgreeAt g r)
    (hmem : ¬ g.mem q) (hparent : g.parent q = none) : g.Rooted root := by
  have hne : ∀ {r}, ¬ f.dead r → r ≠ q := fun hr heq => hr (heq ▸ hq)
  have hroot := hothers root (hne h.dead)
  refine ⟨hroot.mem.mpr h.mem, mt hroot.dead.mp h.dead, hroot.parent.trans h.top,
    fun r hr hrt => ?_, fun r hr hrt => ?_, fun r hr => ?_⟩
  all_goals by_cases hrq : r = q
  · exact absurd (hrq ▸ hr) hmem
  · rw [hroot.rank, (hothers r hrq).rank]
    exact h.first r ((hothers r hrq).mem.mp hr) hrt
  · exact absurd (hrq ▸ hr) hmem
  · have hr' := hothers r hrq
    obtain ⟨t, hpar, ht, hlive, hlt⟩ := h.parent r (hr'.mem.mp hr) hrt
    have hagree := hothers t (hne hlive)
    refine ⟨t, hr'.parent.trans hpar, hagree.mem.mpr ht, mt hagree.dead.mp hlive, ?_⟩
    rw [hagree.rank, hr'.rank]
    exact hlt
  · rw [hrq]
    exact hparent
  · rw [(hothers r hrq).parent]
    exact h.outside r (mt (hothers r hrq).mem.mpr hr)

end Rooted

/-! ## The way up -/

/-- A parent of `q`, or a parent of one, and so on. -/
def Ancestor (f : Family α) (a q : α) : Prop :=
  Relation.TransGen (fun x y => f.parent x = some y) q a

theorem ancestor_iff (h : f.parent q = some r) : f.Ancestor a q ↔ a = r ∨ f.Ancestor a r := by
  refine ⟨fun ha => ?_, fun ha => ?_⟩
  · obtain ⟨t, ht, hrest⟩ := Relation.TransGen.head'_iff.mp ha
    obtain rfl : r = t := Option.some.inj (h.symm.trans ht)
    exact (Relation.reflTransGen_iff_eq_or_transGen.mp hrest).imp_right id
  · obtain rfl | ha := ha
    · exact .single h
    · exact .head h ha

theorem not_ancestor (h : f.parent q = none) : ¬ f.Ancestor a q := by
  intro ha
  obtain ⟨t, ht, -⟩ := Relation.TransGen.head'_iff.mp ha
  cases h.symm.trans ht

variable [Fintype α]

/-- The elements of smaller rank. -/
def below (f : Family α) (q : α) : Finset α := Finset.univ.filter (f.rank · < f.rank q)

theorem card_below_lt (h : f.rank r < f.rank q) : (f.below r).card < (f.below q).card := by
  refine Finset.card_lt_card ((Finset.ssubset_iff_of_subset fun t ht => ?_).mpr ⟨r, ?_, ?_⟩)
  · have hlt : f.rank t < f.rank r := (Finset.mem_filter.mp ht).2
    exact Finset.mem_filter.mpr ⟨Finset.mem_univ t, hlt.trans h⟩
  · exact Finset.mem_filter.mpr ⟨Finset.mem_univ r, h⟩
  · exact fun hr => lt_irrefl _ (Finset.mem_filter.mp hr).2

end Family

end Dockv6
