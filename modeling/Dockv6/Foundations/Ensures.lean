import Mathlib

/-!
# What a computation returns, and how it may stop

`Ensures bad x Q` for a computation in `Except`: if `x` returns, the value satisfies `Q`, and if it
stops, not with one of the errors in `bad`. The rules follow the structure of the computation.
-/

namespace Dockv6

universe u v

variable {ε : Type u} {α β : Type v}

/-- The computation returns in `Q`, or stops with an error that is not in `bad`. -/
structure Ensures (bad : ε → Prop) (x : Except ε α) (Q : α → Prop) : Prop where
  value : ∀ {a}, x = .ok a → Q a
  stop : ∀ {e}, x = .error e → ¬ bad e

/-- The computation does not stop with an error in `bad`. -/
abbrev Safe (bad : ε → Prop) (x : Except ε α) : Prop := Ensures bad x fun _ => True

namespace Ensures

variable {bad : ε → Prop} {x y : Except ε α} {Q Q' : α → Prop} {f : α → Except ε β}
  {R : β → Prop} {a : α}
  {e : ε}

protected theorem pure (h : Q a) : Ensures bad (.ok a) Q where
  value ha := Except.ok.inj ha ▸ h
  stop := nofun

protected theorem throw (h : ¬ bad e) : Ensures bad (.error e : Except ε α) Q where
  value := nofun
  stop he := Except.error.inj he ▸ h

theorem bind (hx : Ensures bad x Q) (hf : ∀ a, Q a → Ensures bad (f a) R) :
    Ensures bad (x >>= f) R := by
  cases x with
  | error e => exact .throw (hx.stop rfl)
  | ok a => exact hf a (hx.value rfl)

/-- The first part is known to return. -/
theorem step (hx : x = .ok a) (hf : Ensures bad (f a) R) : Ensures bad (x >>= f) R := by
  rw [hx]
  exact hf

theorem ite {c : Prop} [Decidable c] (hx : c → Ensures bad x Q) (hy : ¬ c → Ensures bad y Q) :
    Ensures bad (if c then x else y) Q := by
  by_cases hc : c
  · rw [if_pos hc]
    exact hx hc
  · rw [if_neg hc]
    exact hy hc

theorem imp (h : Ensures bad x Q) (himp : ∀ a, Q a → Q' a) : Ensures bad x Q' where
  value ha := himp _ (h.value ha)
  stop := h.stop

/-- Fewer errors are excluded. -/
theorem weaken {bad' : ε → Prop} (h : Ensures bad x Q) (hle : ∀ e, bad' e → bad e) :
    Ensures bad' x Q where
  value := h.value
  stop he hbad := h.stop he (hle _ hbad)

theorem safe (h : Ensures bad x Q) : Safe bad x := h.imp fun _ _ => trivial

end Ensures

/-- The computation returns in `Q`: it stops with no error. -/
abbrev Yields (x : Except ε α) (Q : α → Prop) : Prop := Ensures (fun _ => True) x Q

theorem Yields.exists_eq_ok {x : Except ε α} {Q : α → Prop} (h : Yields x Q) :
    ∃ a, x = .ok a ∧ Q a := by
  cases x with
  | error e => exact absurd trivial (h.stop rfl)
  | ok a => exact ⟨a, rfl, h.value rfl⟩

end Dockv6
