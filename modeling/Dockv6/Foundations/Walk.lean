import Mathlib

/-!
# Walks that may leave a region through one gate

`walk` follows a list of labels. A region `S` is *enclosed* but for the gate `(r, u)` when every
edge from a node of `S` leads into `S`, other than the edge `u` at `r`. A walk from inside then ends
inside exactly when it comes back after each passage of the gate (`walk_mem_iff`).
-/

namespace Dockv6

variable {ν κ : Type*} (next : ν → κ → Option ν)

/-- The node at the end of a list of labels. -/
def walk (x : ν) : List κ → Option ν
  | [] => some x
  | k :: ks =>
    match next x k with
    | none => none
    | some y => walk y ks

/-- Every edge from `S` leads into `S`, but for the edge `u` at `r`. -/
def Enclosed (S : Set ν) (r : ν) (u : κ) : Prop :=
  ∀ x ∈ S, ∀ k y, next x k = some y → ¬ (x = r ∧ k = u) → y ∈ S

/-- Each time the walk from `x` along `ks` passes the gate `(r, u)`, it is inside `S` again at some
later point. -/
def Returns (S : Set ν) (r : ν) (u : κ) (x : ν) (ks : List κ) : Prop :=
  ∀ pre post y, ks = pre ++ u :: post → walk next x pre = some r → next r u = some y →
    ∃ n z, walk next y (post.take n) = some z ∧ z ∈ S

variable {next}

theorem walk_cons {x y : ν} {k : κ} (h : next x k = some y) (ks : List κ) :
    walk next x (k :: ks) = walk next y ks := by
  simp only [walk, h]

theorem walk_append {x y : ν} {ks ls : List κ} (h : walk next x ks = some y) :
    walk next x (ks ++ ls) = walk next y ls := by
  induction ks generalizing x with
  | nil =>
    obtain rfl : x = y := Option.some.inj h
    rfl
  | cons k ks ih =>
    rw [walk] at h
    split at h
    · cases h
    · rename_i z hz
      rw [List.cons_append, walk_cons hz]
      exact ih h

theorem walk_drop {x y z : ν} {ks : List κ} {n : ℕ} (hy : walk next x (ks.take n) = some y)
    (hz : walk next x ks = some z) : walk next y (ks.drop n) = some z := by
  rw [← walk_append hy, List.take_append_drop]
  exact hz

variable {S : Set ν} {r : ν} {u : κ}

theorem Returns.of_append {x y : ν} (ks : List κ) {ls : List κ}
    (h : Returns next S r u x (ks ++ ls)) (hk : walk next x ks = some y) :
    Returns next S r u y ls := by
  intro pre post z hls hpre hz
  refine h (ks ++ pre) post z (by rw [hls, List.append_assoc]) ?_ hz
  rw [walk_append hk]
  exact hpre

/-- Coming back after each passage of the gate is enough to end inside. The induction is on the
number of labels left: after a passage it goes on from the point where the walk is inside
again. -/
theorem mem_of_returns (hS : Enclosed next S r u) {x z : ν} (hx : x ∈ S) (ks : List κ)
    (hw : walk next x ks = some z) (hr : Returns next S r u x ks) : z ∈ S := by
  induction hn : ks.length using Nat.strongRecOn generalizing x ks with
  | ind n ih =>
  subst hn
  rcases ks with _ | ⟨k, ks⟩
  · obtain rfl : x = z := Option.some.inj hw
    exact hx
  · have hw' := hw
    rw [walk] at hw'
    split at hw'
    · cases hw'
    · rename_i y hy
      by_cases hgate : x = r ∧ k = u
      · obtain ⟨rfl, rfl⟩ := hgate
        obtain ⟨m, z', hz', hmem⟩ := hr [] ks y rfl rfl hy
        have hpre : walk next x (k :: ks.take m) = some z' := by rw [walk_cons hy]; exact hz'
        refine ih (ks.drop m).length ?_ hmem (ks.drop m) (walk_drop hz' hw') ?_ rfl
        · simp only [List.length_cons, List.length_drop]
          omega
        · refine Returns.of_append (k :: ks.take m) ?_ hpre
          rw [List.cons_append, List.take_append_drop]
          exact hr
      · refine ih ks.length (by simp) (hS x hx k y hy hgate) ks hw' ?_ rfl
        exact Returns.of_append [k] hr (by rw [walk_cons hy]; rfl)

/-- A walk from inside an enclosed region ends inside exactly when it comes back after each
passage of the gate. -/
theorem walk_mem_iff (hS : Enclosed next S r u) {x z : ν} (hx : x ∈ S) {ks : List κ}
    (hw : walk next x ks = some z) : z ∈ S ↔ Returns next S r u x ks := by
  refine ⟨fun hz pre post y hks hpre hy => ?_, mem_of_returns hS hx ks hw⟩
  refine ⟨post.length, z, ?_, hz⟩
  rw [hks, walk_append hpre, walk_cons hy] at hw
  rw [List.take_length]
  exact hw

/-- A larger region: a walk that comes back into `S` comes back into every region around it. -/
theorem Returns.mono {S' : Set ν} (hle : S ⊆ S') {x : ν} {ks : List κ}
    (h : Returns next S r u x ks) : Returns next S' r u x ks := by
  intro pre post y hks hpre hy
  obtain ⟨n, z, hz, hm⟩ := h pre post y hks hpre hy
  exact ⟨n, z, hz, hle hm⟩

end Dockv6
