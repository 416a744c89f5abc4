import Dockv6.Foundations.Adds

/-!
# Pre- and postconditions

`Triple P x Q` for a computation with a state that may stop: from a state that satisfies `P`, if `x`
returns, the value and the state that it leaves satisfy `Q`. The rules follow the structure of the
computation.
-/

namespace Dockv6

universe u v

variable {σ : Type u} {ε : Type v} {α β : Type u}

/-- From a state in `P`, the computation stops or returns in `Q`. -/
def Triple (P : σ → Prop) (x : StateT σ (Except ε) α) (Q : α → σ → Prop) : Prop :=
  ∀ s a t, x s = .ok (a, t) → P s → Q a t

namespace Triple

variable {P P' : σ → Prop} {x y : StateT σ (Except ε) α} {Q Q' : α → σ → Prop}
  {f : α → StateT σ (Except ε) β} {R : β → σ → Prop}

protected theorem pure {a : α} (h : ∀ s, P s → Q a s) :
    Triple P (pure a : StateT σ (Except ε) α) Q := by
  rintro s b t hrun hs
  cases hrun
  exact h s hs

protected theorem throw (e : ε) : Triple P (throw e : StateT σ (Except ε) α) Q := nofun

theorem bind (hx : Triple P x Q) (hf : ∀ a, Triple (Q a) (f a) R) : Triple P (x >>= f) R := by
  rintro s b t hrun hs
  obtain ⟨a, u, ha, hb⟩ := run_bind_eq_ok.mp hrun
  exact hf a u b t hb (hx s a u ha hs)

theorem ite {c : Prop} [Decidable c] (hx : c → Triple P x Q) (hy : ¬ c → Triple P y Q) :
    Triple P (if c then x else y) Q := by
  split_ifs with hc
  · exact hx hc
  · exact hy hc

theorem pre (hx : Triple P x Q) (h : ∀ s, P' s → P s) : Triple P' x Q :=
  fun s a t hrun hs => hx s a t hrun (h s hs)

theorem post (hx : Triple P x Q) (h : ∀ a s, Q a s → Q' a s) : Triple P x Q' :=
  fun s a t hrun hs => h a t (hx s a t hrun hs)

end Triple

end Dockv6
