import Dockv6.Foundations.Except

/-!
# What a computation adds to a measure of its state

Computations with a state that may stop, `StateT σ (Except ε)`. `Adds μ k x` says that `x`, whenever
it returns, has added `k` to the measure `μ` of the state; the rules follow the structure of the
computation.
-/

namespace Dockv6

universe u v

variable {σ : Type u} {ε : Type v} {α β : Type u}

theorem run_bind_eq_ok {x : StateT σ (Except ε) α} {f : α → StateT σ (Except ε) β} {s : σ}
    {r : β × σ} : (x >>= f) s = .ok r ↔ ∃ a t, x s = .ok (a, t) ∧ f a t = .ok r := by
  constructor
  · intro h
    obtain ⟨⟨a, t⟩, hx, hf⟩ := bind_eq_ok.mp h
    exact ⟨a, t, hx, hf⟩
  · rintro ⟨a, t, hx, hf⟩
    exact bind_eq_ok.mpr ⟨(a, t), hx, hf⟩

/-- Whenever `x` returns, it has added `k` to `μ`. -/
def Adds (μ : σ → ℤ) (k : ℤ) (x : StateT σ (Except ε) α) : Prop :=
  ∀ s a t, x s = .ok (a, t) → μ t = μ s + k

namespace Adds

variable {μ : σ → ℤ} {k l : ℤ} {x y : StateT σ (Except ε) α} {f : α → StateT σ (Except ε) β}

protected theorem pure (a : α) : Adds μ 0 (pure a : StateT σ (Except ε) α) := by
  rintro s b t h
  cases h
  exact (Int.add_zero _).symm

protected theorem throw (e : ε) : Adds μ k (throw e : StateT σ (Except ε) α) := nofun

theorem bind (hx : Adds μ k x) (hf : ∀ a, Adds μ l (f a)) : Adds μ (k + l) (x >>= f) := by
  rintro s b t h
  obtain ⟨a, u, ha, hb⟩ := run_bind_eq_ok.mp h
  rw [hf a u b t hb, hx s a u ha, Int.add_assoc]

/-- A sequence of a part that adds nothing and a part that adds `k`. -/
theorem after (hx : Adds μ 0 x) (hf : ∀ a, Adds μ k (f a)) : Adds μ k (x >>= f) := by
  have := hx.bind hf
  rwa [Int.zero_add] at this

theorem ite {c : Prop} [Decidable c] (hx : Adds μ k x) (hy : Adds μ k y) :
    Adds μ k (if c then x else y) := by
  split_ifs
  · exact hx
  · exact hy

end Adds

end Dockv6
