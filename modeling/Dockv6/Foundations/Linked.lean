import Mathlib

/-!
# Linked lists

The nodes from a pointer on, along a map `next`, form a list (`Chain`). A node that is put behind
the last one extends the list (`Chain.concat`), and what happens to `next` at other nodes does not
matter (`Chain.congr`). Where no node leads back to itself (`Acyclic`), every list ends.
-/

namespace Dockv6

open Function

variable {α : Type*}

/-- The nodes from `o` on along `next` are `l`, and the last one has no successor. -/
def Chain (next : α → Option α) : Option α → List α → Prop
  | o, [] => o = none
  | o, a :: l => o = some a ∧ Chain next (next a) l

namespace Chain

variable {next next' : α → Option α} {o : Option α} {l : List α} {a b : α}

theorem congr (h : Chain next o l) (heq : ∀ a ∈ l, next' a = next a) : Chain next' o l := by
  induction l generalizing o with
  | nil => exact h
  | cons a l ih =>
    obtain ⟨rfl, hrest⟩ := h
    refine ⟨rfl, ?_⟩
    rw [heq a List.mem_cons_self]
    exact ih hrest fun b hb => heq b (List.mem_cons_of_mem a hb)

/-- A node is the first one or has a predecessor. -/
theorem eq_or_exists_next (h : Chain next o l) (ha : a ∈ l) :
    o = some a ∨ ∃ b, next b = some a := by
  induction l generalizing o with
  | nil => cases ha
  | cons b l ih =>
    obtain ⟨rfl, hrest⟩ := h
    obtain rfl | ha := List.mem_cons.mp ha
    · exact .inl rfl
    · obtain hb | hnext := ih hrest ha
      · exact .inr ⟨b, hb⟩
      · exact .inr hnext

theorem eq_none_iff (h : Chain next o l) : o = none ↔ l = [] := by
  cases l with
  | nil => exact iff_of_true h rfl
  | cons a l => exact iff_of_false (fun ho => by cases ho.symm.trans h.1) (List.cons_ne_nil a l)

/-- The new node `b` comes behind the last one. -/
theorem concat [DecidableEq α] (h : Chain next o (l ++ [a])) (hnodup : (l ++ [a]).Nodup)
    (hb : b ∉ l ++ [a]) :
    Chain (update (update next a (some b)) b none) o (l ++ [a] ++ [b]) := by
  induction l generalizing o with
  | nil =>
    obtain ⟨rfl, -⟩ := h
    have hne : a ≠ b := fun heq => hb (heq ▸ List.mem_singleton_self a)
    refine ⟨rfl, ?_, ?_⟩
    · rw [update_of_ne hne, update_self]
    · exact update_self _ _ _
  | cons c l ih =>
    obtain ⟨rfl, hrest⟩ := h
    have hcb : c ≠ b := fun heq => hb (heq ▸ List.mem_cons_self)
    have hca : c ≠ a := fun heq => (List.nodup_cons.mp hnodup).1 (heq ▸ List.mem_concat_self)
    refine ⟨rfl, ?_⟩
    rw [update_of_ne hcb, update_of_ne hca]
    exact ih hrest (List.nodup_cons.mp hnodup).2 fun hmem => hb (List.mem_cons_of_mem c hmem)

end Chain

/-- No node leads back to itself along `next`. -/
def Acyclic (next : α → Option α) : Prop :=
  ∀ a, ¬ Relation.TransGen (fun a b => next a = some b) a a

namespace Acyclic

variable {next next' : α → Option α} {a b : α}

/-- Links that take the place of paths. -/
theorem of_paths (h : Acyclic next)
    (hpath : ∀ a b, next' a = some b → Relation.TransGen (fun a b => next a = some b) a b) :
    Acyclic next' :=
  fun a ha => h a (Relation.TransGen.closed hpath _ _ ha)

/-- The new links lead to a node that has no successor. -/
theorem of_sink (h : Acyclic next) (hb : next' b = none)
    (hlink : ∀ a c, next' a = some c → next a = some c ∨ c = b) : Acyclic next' := by
  have hpath : ∀ {a c}, Relation.TransGen (fun a b => next' a = some b) a c →
      Relation.TransGen (fun a b => next a = some b) a c ∨ c = b := by
    intro a c hac
    induction hac with
    | single hlast => exact (hlink _ _ hlast).imp_left .single
    | tail _ hlast ih =>
      obtain hac | rfl := ih
      · exact (hlink _ _ hlast).imp_left hac.tail
      · simp [hb] at hlast
  intro a ha
  obtain haa | rfl := hpath ha
  · exact h a haa
  · obtain ⟨c, hc, -⟩ := Relation.TransGen.head'_iff.mp ha
    simp [hb] at hc

/-- Fewer and fewer nodes lie ahead. -/
theorem ncard_lt [Finite α] (h : Acyclic next) (hab : next a = some b) :
    {c | Relation.TransGen (fun a b => next a = some b) b c}.ncard <
      {c | Relation.TransGen (fun a b => next a = some b) a c}.ncard := by
  refine Set.ncard_lt_ncard ⟨fun c hc => .head hab hc, fun hsub => ?_⟩
  exact h b (hsub (.single hab))

end Acyclic

end Dockv6
