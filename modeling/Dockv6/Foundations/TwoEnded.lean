import Mathlib

/-!
# Resources with two ends

A resource is taken from a free list and has two ends, each held by at most one handle; closing the
second end puts it back on the list. `TwoEnded`: an end is open exactly when a handle holds it, what
is open is not free, and whatever was made has been freed once, or is open.
-/

namespace Dockv6

open Function

variable {φ ι : Type*} [DecidableEq φ] [DecidableEq ι]

/-- Handles hold ends of resources, as the flags and records say. -/
structure TwoEnded (ends : φ → Option (ι × Bool)) (isOpen : ι → Bool → Bool)
    (free made freed : List ι) : Prop where
  unique : ∀ {f f' k}, ends f = some k → ends f' = some k → f = f'
  open_iff : ∀ x w, isOpen x w = true ↔ ∃ f, ends f = some (x, w)
  nodup : free.Nodup
  notFree : ∀ {f x w}, ends f = some (x, w) → x ∉ free
  count : ∀ x, made.count x = freed.count x + if isOpen x false || isOpen x true then 1 else 0

namespace TwoEnded

variable {ends : φ → Option (ι × Bool)} {isOpen isOpen' : ι → Bool → Bool}
  {free free' made freed freed' : List ι} {f f0 f1 : φ} {x : ι} {w : Bool}

omit [DecidableEq φ] in
/-- Other items come and go on the free list. -/
theorem pages (h : TwoEnded ends isOpen free made freed) (hnodup : free'.Nodup)
    (hfree : ∀ f x w, ends f = some (x, w) → x ∉ free') : TwoEnded ends isOpen free' made freed :=
  { h with nodup := hnodup, notFree := fun hf => hfree _ _ _ hf }

omit [DecidableEq φ] in
theorem isOpen_of (h : TwoEnded ends isOpen free made freed) (hf : ends f = some (x, w)) :
    isOpen x w = true :=
  (h.open_iff x w).mpr ⟨f, hf⟩

/-- A handle closes its end; the resource goes back to the list with the second one. -/
theorem close (h : TwoEnded ends isOpen free made freed) (hf : ends f = some (x, w))
    (hopen : ∀ y v, isOpen' y v = if y = x ∧ v = w then false else isOpen y v)
    (hlast : isOpen x (!w) = false → free' = x :: free ∧ freed' = x :: freed)
    (hmore : isOpen x (!w) = true → free' = free ∧ freed' = freed) :
    TwoEnded (update ends f none) isOpen' free' made freed' := by
  have hold : ∀ {g k}, update ends f none g = some k → g ≠ f ∧ ends g = some k := by
    intro g k hg
    by_cases hgf : g = f
    · rw [hgf, update_self] at hg
      cases hg
    · exact ⟨hgf, by rwa [update_of_ne hgf] at hg⟩
  have hother : ∀ {g v}, update ends f none g = some (x, v) → v = !w := by
    intro g v hg
    obtain ⟨hgf, hg⟩ := hold hg
    cases v <;> cases w <;> first | rfl | exact absurd (h.unique hg hf) hgf
  refine ⟨fun hg hg' => h.unique (hold hg).2 (hold hg').2, fun y v => ?_, ?_, ?_, fun y => ?_⟩
  · rw [hopen]
    split_ifs with hyv
    · obtain ⟨rfl, rfl⟩ := hyv
      refine iff_of_false (by simp) ?_
      rintro ⟨g, hg⟩
      exact absurd (hother hg) (by cases v <;> decide)
    · rw [h.open_iff]
      constructor
      · rintro ⟨g, hg⟩
        refine ⟨g, ?_⟩
        rw [update_of_ne, hg]
        rintro rfl
        cases hf.symm.trans hg
        exact hyv ⟨rfl, rfl⟩
      · rintro ⟨g, hg⟩
        exact ⟨g, (hold hg).2⟩
  · cases hw : isOpen x (!w) with
    | false =>
      rw [(hlast hw).1]
      exact List.nodup_cons.mpr ⟨h.notFree hf, h.nodup⟩
    | true =>
      rw [(hmore hw).1]
      exact h.nodup
  · intro g y v hg
    have hold := (hold hg).2
    cases hw : isOpen x (!w) with
    | false =>
      rw [(hlast hw).1, List.mem_cons]
      rintro (rfl | hy)
      · -- The other end is closed, so nobody holds it.
        have hv := hother hg
        rw [hv] at hold
        rw [h.isOpen_of hold] at hw
        cases hw
      · exact h.notFree hold hy
    | true =>
      rw [(hmore hw).1]
      exact h.notFree hold
  · have hcount := h.count y
    by_cases hy : y = x
    · subst hy
      have hw := h.isOpen_of hf
      cases hother : isOpen y (!w) with
      | false =>
        rw [(hlast hother).2, List.count_cons_self]
        cases w <;> simp_all
      | true =>
        rw [(hmore hother).2]
        cases w <;> simp_all
    · have hfreed : freed'.count y = freed.count y := by
        cases hother : isOpen x (!w) with
        | false =>
          rw [(hlast hother).2]
          exact List.count_cons_of_ne (Ne.symm hy)
        | true => rw [(hmore hother).2]
      have hsame : ∀ v, isOpen' y v = isOpen y v := fun v => by rw [hopen, if_neg fun h => hy h.1]
      rw [hfreed, hsame, hsame]
      exact hcount

/-- The first item of the list becomes a resource, with a handle for each end. -/
theorem make (h : TwoEnded ends isOpen (x :: free) made freed) (h0 : ends f0 = none)
    (h1 : ends f1 = none) (hne : f0 ≠ f1)
    (hopen : ∀ y v, isOpen' y v = if y = x then true else isOpen y v) :
    TwoEnded (update (update ends f0 (some (x, false))) f1 (some (x, true))) isOpen' free
      (x :: made) freed := by
  have hcases : ∀ {g k}, update (update ends f0 (some (x, false))) f1 (some (x, true)) g =
      some k → (g = f1 ∧ k = (x, true)) ∨ (g = f0 ∧ k = (x, false)) ∨
      (ends g = some k ∧ k.1 ≠ x) := by
    intro g k hg
    by_cases hg1 : g = f1
    · rw [hg1, update_self] at hg
      exact .inl ⟨hg1, (Option.some.inj hg).symm⟩
    rw [update_of_ne hg1] at hg
    by_cases hg0 : g = f0
    · rw [hg0, update_self] at hg
      exact .inr (.inl ⟨hg0, (Option.some.inj hg).symm⟩)
    rw [update_of_ne hg0] at hg
    refine .inr (.inr ⟨hg, ?_⟩)
    rintro rfl
    exact h.notFree hg List.mem_cons_self
  have hclosed : ∀ v, isOpen x v = false := by
    intro v
    by_contra hv
    obtain ⟨g, hg⟩ := (h.open_iff x v).mp (by simpa using hv)
    exact h.notFree hg List.mem_cons_self
  obtain ⟨hx, hnodup⟩ := List.nodup_cons.mp h.nodup
  refine ⟨fun {g g' k} hg hg' => ?_, fun y v => ?_, hnodup, fun {g y v} hg => ?_, fun y => ?_⟩
  · obtain ⟨rfl, rfl⟩ | ⟨rfl, rfl⟩ | ⟨hg, hk⟩ := hcases hg <;>
      obtain ⟨rfl, heq⟩ | ⟨rfl, heq⟩ | ⟨hg', hk'⟩ := hcases hg' <;>
      first
        | rfl
        | exact absurd rfl hk'
        | (subst heq; exact absurd rfl hk)
        | cases heq
        | exact h.unique hg hg'
  · rw [hopen]
    split_ifs with hy
    · subst hy
      refine iff_of_true rfl ?_
      cases v with
      | false => exact ⟨f0, by rw [update_of_ne hne, update_self]⟩
      | true => exact ⟨f1, update_self ..⟩
    · rw [h.open_iff]
      constructor
      · rintro ⟨g, hg⟩
        refine ⟨g, ?_⟩
        rw [update_of_ne, update_of_ne, hg]
        · rintro rfl
          cases h0.symm.trans hg
        · rintro rfl
          cases h1.symm.trans hg
      · rintro ⟨g, hg⟩
        obtain ⟨-, heq⟩ | ⟨-, heq⟩ | ⟨hg, -⟩ := hcases hg
        · exact absurd (congrArg Prod.fst heq) hy
        · exact absurd (congrArg Prod.fst heq) hy
        · exact ⟨g, hg⟩
  · obtain ⟨-, heq⟩ | ⟨-, heq⟩ | ⟨hg, -⟩ := hcases hg
    · cases heq
      exact hx
    · cases heq
      exact hx
    · exact fun hy => h.notFree hg (List.mem_cons_of_mem _ hy)
  · have hcount := h.count y
    by_cases hy : y = x
    · subst hy
      rw [hopen, hopen, if_pos rfl, List.count_cons_self, hcount, hclosed, hclosed]
      rfl
    · rw [hopen, hopen, if_neg hy, if_neg hy, List.count_cons_of_ne (Ne.symm hy)]
      exact hcount

end TwoEnded

end Dockv6
