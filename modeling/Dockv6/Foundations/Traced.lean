import Dockv6.Foundations.Except

/-!
# Computations with a record of what they access

A computation that may stop, with the list of what it has accessed by then. The record does not bear
on the outcome (`out`), so that a function with a record can be compared with the one without it.
`All P` says that every access satisfies `P`.
-/

namespace Dockv6

universe u v w

/-- A computation that accesses `A`, stops with `ε` or returns an `α`. -/
structure Traced (A : Type u) (ε : Type v) (α : Type w) where
  /-- What was accessed, in order. -/
  log : List A
  out : Except ε α

namespace Traced

variable {A : Type u} {ε : Type v} {α β : Type w}

instance : Monad (Traced A ε) where
  pure a := ⟨[], .ok a⟩
  bind x f :=
    match x.out with
    | .error e => ⟨x.log, .error e⟩
    | .ok a => ⟨x.log ++ (f a).log, (f a).out⟩

/-- Access `a`. -/
def touch (a : A) : Traced A ε PUnit := ⟨[a], .ok ⟨⟩⟩

/-- Compute without an access. -/
def lift (x : Except ε α) : Traced A ε α := ⟨[], x⟩

/-- Every access satisfies `P`. -/
def All (P : A → Prop) (x : Traced A ε α) : Prop := ∀ a ∈ x.log, P a

@[simp] theorem out_pure (a : α) : (pure a : Traced A ε α).out = .ok a := rfl

@[simp] theorem out_lift (x : Except ε α) : (lift x : Traced A ε α).out = x := rfl

@[simp] theorem out_touch_bind (a : A) (f : PUnit → Traced A ε α) :
    (touch a >>= f).out = (f ⟨⟩).out := rfl

@[simp] theorem out_lift_bind (x : Except ε α) (f : α → Traced A ε β) :
    (lift x >>= f).out = x >>= fun a => (f a).out := by
  cases x <;> rfl

theorem out_bind (x : Traced A ε α) (f : α → Traced A ε β) :
    (x >>= f).out = x.out >>= fun a => (f a).out := by
  obtain ⟨log, e | a⟩ := x <;> rfl

section All

variable {P : A → Prop} {x y : Traced A ε α} {f : α → Traced A ε β}

theorem All.pure (a : α) : (pure a : Traced A ε α).All P := nofun

theorem All.lift (x : Except ε α) : (lift x : Traced A ε α).All P := nofun

theorem All.touch {a : A} (h : P a) : (touch a : Traced A ε PUnit).All P := by
  intro b hb
  rwa [List.mem_singleton.mp hb]

theorem all_bind : (x >>= f).All P ↔ x.All P ∧ ∀ a, x.out = .ok a → (f a).All P := by
  obtain ⟨log, e | a⟩ := x
  · exact ⟨fun h => ⟨h, nofun⟩, fun h => h.1⟩
  · refine List.forall_mem_append.trans
      (and_congr_right fun _ => ⟨fun h b hb => ?_, fun h => h a rfl⟩)
    rwa [← Except.ok.inj hb]

theorem All.bind (hx : x.All P) (hf : ∀ a, x.out = .ok a → (f a).All P) : (x >>= f).All P :=
  all_bind.mpr ⟨hx, hf⟩

theorem All.touch_bind {a : A} {g : PUnit → Traced A ε α} (ha : P a) (hg : (g ⟨⟩).All P) :
    (Traced.touch a >>= g).All P :=
  .bind (.touch ha) fun _ _ => hg

theorem All.left (h : (x >>= f).All P) : x.All P := (all_bind.mp h).1

theorem All.right (h : (x >>= f).All P) {a : α} (ha : x.out = .ok a) : (f a).All P :=
  (all_bind.mp h).2 a ha

theorem All.of_touch {a : A} (h : (Traced.touch a : Traced A ε PUnit).All P) : P a :=
  h a List.mem_cons_self

end All

end Traced

end Dockv6
