import Mathlib

/-!
# Pools of items

Items are on a free list, or kept aside, or owned. A pool says that no item is in two of these
places, nor on the list twice, nor with two owners; items may get lost. A function that works for a
few owners is reasoned about with the items of all others kept aside (`Pool.focus`, `Pool.combine`).
-/

namespace Dockv6

variable {ι ω ω' κ : Type*}

/-- The items on the list `free`, the ones in `kept` and the ones of each owner are different
items. -/
structure Pool (kept : Set ι) (free : List ι) (own : ω → Set ι) : Prop where
  nodup : free.Nodup
  unique : ∀ {a b x}, x ∈ own a → x ∈ own b → a = b
  notFree : ∀ {a x}, x ∈ own a → x ∉ free
  notKept : ∀ {a x}, x ∈ own a → x ∉ kept
  kept_notFree : ∀ {x}, x ∈ kept → x ∉ free

namespace Pool

variable {kept kept' : Set ι} {free : List ι} {own own' : ω → Set ι} {x : ι}

theorem mono (h : Pool kept free own) (hkept : kept' ⊆ kept) (hown : ∀ a, own' a ⊆ own a) :
    Pool kept' free own' where
  nodup := h.nodup
  unique hx hx' := h.unique (hown _ hx) (hown _ hx')
  notFree hx := h.notFree (hown _ hx)
  notKept hx hk := h.notKept (hown _ hx) (hkept hk)
  kept_notFree hk := h.kept_notFree (hkept hk)

/-- The first item of the list is taken and kept aside. -/
theorem take (h : Pool kept (x :: free) own) : Pool (insert x kept) free own where
  nodup := (List.nodup_cons.mp h.nodup).2
  unique := h.unique
  notFree hy hfree := h.notFree hy (List.mem_cons_of_mem x hfree)
  notKept {a y} hy hk := by
    obtain rfl | hk := Set.mem_insert_iff.mp hk
    · exact h.notFree hy List.mem_cons_self
    · exact h.notKept hy hk
  kept_notFree {y} hk hfree := by
    obtain rfl | hk := Set.mem_insert_iff.mp hk
    · exact (List.nodup_cons.mp h.nodup).1 hfree
    · exact h.kept_notFree hk (List.mem_cons_of_mem x hfree)

theorem put (h : Pool kept free own) (hx : x ∉ free) (hkept : kept' ⊆ kept)
    (hown : ∀ a, own' a ⊆ own a)
    (hxk : x ∉ kept') (hxo : ∀ a, x ∉ own' a) : Pool kept' (x :: free) own' where
  nodup := List.nodup_cons.mpr ⟨hx, h.nodup⟩
  unique hy hy' := h.unique (hown _ hy) (hown _ hy')
  notFree {a y} hy hfree := by
    obtain rfl | hfree := List.mem_cons.mp hfree
    · exact hxo a hy
    · exact h.notFree (hown a hy) hfree
  notKept hy hk := h.notKept (hown _ hy) (hkept hk)
  kept_notFree {y} hk hfree := by
    obtain rfl | hfree := List.mem_cons.mp hfree
    · exact hxk hk
    · exact h.kept_notFree (hkept hk) hfree

/-- The owner `a` gets an item that was kept aside. -/
theorem give (h : Pool (insert x kept) free own) (hx : x ∉ kept) {a : ω}
    (hown : ∀ b y, y ∈ own' b → y ∈ own b ∨ b = a ∧ y = x) : Pool kept free own' where
  nodup := h.nodup
  unique {b c y} hb hc := by
    obtain hb | ⟨rfl, rfl⟩ := hown b y hb
    · obtain hc | ⟨rfl, rfl⟩ := hown c y hc
      · exact h.unique hb hc
      · exact absurd (Set.mem_insert _ _) (h.notKept hb)
    · obtain hc | ⟨rfl, -⟩ := hown c y hc
      · exact absurd (Set.mem_insert _ _) (h.notKept hc)
      · rfl
  notFree {b y} hb := by
    obtain hb | ⟨-, rfl⟩ := hown b y hb
    · exact h.notFree hb
    · exact h.kept_notFree (Set.mem_insert _ _)
  notKept {b y} hb := by
    obtain hb | ⟨-, rfl⟩ := hown b y hb
    · exact fun hk => h.notKept hb (Set.mem_insert_of_mem _ hk)
    · exact hx
  kept_notFree hk := h.kept_notFree (Set.mem_insert_of_mem _ hk)

/-- Some of the owners, under other names, with items of the others kept aside. -/
theorem focus (h : Pool kept free own) {e : κ → ω} (he : e.Injective) {loc : κ → Set ι}
    (hloc : ∀ k, loc k ⊆ own (e k))
    (hkept : ∀ x ∈ kept', x ∈ kept ∨ ∃ a, (∀ k, a ≠ e k) ∧ x ∈ own a) : Pool kept' free loc where
  nodup := h.nodup
  unique hk hk' := he (h.unique (hloc _ hk) (hloc _ hk'))
  notFree hk := h.notFree (hloc _ hk)
  notKept {k x} hk hx := by
    obtain hx | ⟨a, ha, hxa⟩ := hkept x hx
    · exact h.notKept (hloc k hk) hx
    · exact ha k (h.unique hxa (hloc k hk))
  kept_notFree {x} hx := by
    obtain hx | ⟨a, -, hxa⟩ := hkept x hx
    · exact h.kept_notFree hx
    · exact h.notFree hxa

/-- Each item of an owner in `own` is an old one that was kept aside, or one of the owners in
`loc`. -/
theorem combine {free0 : List ι} {own0 : ω → Set ι} {loc : κ → Set ι} {own : ω' → Set ι}
    (f : ω → ω') (e : κ → ω') (h0 : Pool kept' free0 own0) (h : Pool kept free loc)
    (hkept : kept' ⊆ kept) (hown : ∀ a x, x ∈ own a →
      (∃ b, f b = a ∧ x ∈ own0 b ∧ x ∈ kept) ∨ ∃ k, e k = a ∧ x ∈ loc k) : Pool kept' free own where
  nodup := h.nodup
  unique {a b x} ha hb := by
    obtain ⟨a', rfl, ha', hxa⟩ | ⟨k, rfl, hk⟩ := hown a x ha <;>
      obtain ⟨b', rfl, hb', hxb⟩ | ⟨k', rfl, hk'⟩ := hown b x hb
    · rw [h0.unique ha' hb']
    · exact absurd hxa (h.notKept hk')
    · exact absurd hxb (h.notKept hk)
    · rw [h.unique hk hk']
  notFree {a x} ha := by
    obtain ⟨b, -, -, hx⟩ | ⟨k, -, hk⟩ := hown a x ha
    · exact h.kept_notFree hx
    · exact h.notFree hk
  notKept {a x} ha hx := by
    obtain ⟨b, -, hb, -⟩ | ⟨k, -, hk⟩ := hown a x ha
    · exact h0.notKept hb hx
    · exact h.notKept hk (hkept hx)
  kept_notFree hx := h.kept_notFree (hkept hx)

/-- The items of all owners. -/
def items (own : ω → Set ι) : Set ι := {x | ∃ a, x ∈ own a}

/-- All items are kept aside for new owners. -/
theorem aside (h : Pool kept free own) : Pool (kept ∪ items own) free fun _ : κ => (∅ : Set ι) where
  nodup := h.nodup
  unique := nofun
  notFree := nofun
  notKept := nofun
  kept_notFree hx := hx.elim h.kept_notFree fun ⟨_, ha⟩ => h.notFree ha

/-- The new owners and the old ones change places. -/
theorem swap {free0 : List ι} {loc : κ → Set ι} (h0 : Pool kept free0 own)
    (h : Pool (kept ∪ items own) free loc) : Pool (kept ∪ items loc) free own := by
  have hsum : Pool kept free (Sum.elim own loc) := by
    refine h0.combine Sum.inl Sum.inr h Set.subset_union_left fun a x hx => ?_
    cases a with
    | inl a => exact .inl ⟨a, rfl, hx, .inr ⟨a, hx⟩⟩
    | inr k => exact .inr ⟨k, rfl, hx⟩
  refine hsum.focus (e := Sum.inl) Sum.inl_injective (fun _ => subset_rfl) fun x hx => ?_
  exact hx.imp_right fun ⟨k, hk⟩ => ⟨Sum.inr k, nofun, hk⟩

/-- Owners whose items were kept aside, when the other ones are done. -/
theorem restore {free0 : List ι} {loc : κ → Set ι} (h0 : Pool kept free0 own)
    (h : Pool (kept ∪ items own) free loc) : Pool kept free own where
  nodup := h.nodup
  unique := h0.unique
  notFree hx := h.kept_notFree (.inr ⟨_, hx⟩)
  notKept := h0.notKept
  kept_notFree hx := h.kept_notFree (.inl hx)

end Pool

end Dockv6
