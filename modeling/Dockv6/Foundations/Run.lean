import Mathlib

/-!
# Runs of a deterministic machine under a condition on its steps

`step s a` is the state after the action `a`, or nothing when `a` is not possible in `s`. `Reach M
ok` holds of the states that a run can reach whose every step `(s, a)` satisfies `ok s a`.
`Reach.invariant` is the induction over runs; `reachable_of_exec` evaluates a run given as data.
-/

namespace Dockv6

/-- A deterministic machine over states `σ` and actions `α`. -/
structure Machine (σ α : Type*) where
  init : σ → Prop
  step : σ → α → Option σ

namespace Machine

variable {σ α : Type*} (M : Machine σ α)

/-- The states reached by runs whose steps all satisfy `ok`. -/
inductive Reach (ok : σ → α → Prop) : σ → Prop
  | init {s : σ} : M.init s → Reach ok s
  | step {s t : σ} {a : α} : Reach ok s → ok s a → M.step s a = some t → Reach ok t

/-- The states reached by any run. -/
def Reachable (s : σ) : Prop := M.Reach (fun _ _ => True) s

variable {M}

/-- An invariant of the steps that satisfy `ok`. The step may use that its source is reached. -/
theorem Reach.invariant {ok : σ → α → Prop} {I : σ → Prop} {s : σ} (h : M.Reach ok s)
    (h0 : ∀ s, M.init s → I s)
    (hs : ∀ s t a, I s → ok s a → M.step s a = some t → I t) : I s := by
  induction h with
  | init hi => exact h0 _ hi
  | step _ hok hst ih => exact hs _ _ _ ih hok hst

theorem Reach.mono {ok ok' : σ → α → Prop} (hle : ∀ s a, ok s a → ok' s a) {s : σ}
    (h : M.Reach ok s) : M.Reach ok' s := by
  induction h with
  | init hi => exact .init hi
  | step _ hok hst ih => exact .step ih (hle _ _ hok) hst

theorem Reach.reachable {ok : σ → α → Prop} {s : σ} (h : M.Reach ok s) : M.Reachable s :=
  h.mono fun _ _ _ => trivial

variable (M) in
/-- Execute a list of actions. -/
def exec (s : σ) : List α → Option σ
  | [] => some s
  | a :: as =>
    match M.step s a with
    | none => none
    | some t => exec t as

theorem Reachable.exec {s t : σ} (hs : M.Reachable s) (l : List α) (h : M.exec s l = some t) :
    M.Reachable t := by
  induction l generalizing s with
  | nil =>
    obtain rfl : s = t := by simpa [Machine.exec] using h
    exact hs
  | cons a l ih =>
    rw [Machine.exec] at h
    split at h
    · exact absurd h (by simp)
    · rename_i u hu
      exact ih (.step hs trivial hu) h

theorem reachable_of_exec {s t : σ} (hs : M.init s) (l : List α) (h : M.exec s l = some t) :
    M.Reachable t :=
  Reachable.exec (.init hs) l h

variable (M) in
/-- The machine that stops where the test fails. -/
def restrict (test : σ → α → Bool) : Machine σ α where
  init := M.init
  step s a := if test s a then M.step s a else none

theorem reach_of_exec_restrict {ok : σ → α → Prop} {test : σ → α → Bool}
    (hok : ∀ s a, test s a = true → ok s a) {s t : σ} (hs : M.Reach ok s) (l : List α)
    (h : (M.restrict test).exec s l = some t) : M.Reach ok t := by
  induction l generalizing s with
  | nil =>
    obtain rfl : s = t := by simpa [Machine.exec] using h
    exact hs
  | cons a l ih =>
    rw [Machine.exec] at h
    split at h
    · exact absurd h (by simp)
    · rename_i u hu
      have hstep : (if test s a then M.step s a else none) = some u := hu
      split_ifs at hstep with htest
      exact ih (.step hs (hok s a htest) hstep) h

variable (M) in
/-- A run given as data, under a condition that can be decided. -/
theorem reach_of_exec_decide (ok : σ → α → Prop) [∀ s a, Decidable (ok s a)] {s t : σ}
    (hs : M.init s)
    (l : List α) (h : (M.restrict fun s a => decide (ok s a)).exec s l = some t) : M.Reach ok t :=
  reach_of_exec_restrict (fun _ _ => of_decide_eq_true) (.init hs) l h

end Machine

end Dockv6
