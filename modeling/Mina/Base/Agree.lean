/-
Two computations that can raise agree when both raise, with any errors, or
both return related values. What is computed from the results of agreeing
computations by agreeing functions agrees.
-/
import Mina.Base.Exn

universe u v w x

namespace Mina.Exn

variable {α : Type u} {β : Type v} {γ : Type w} {δ : Type x} {R : α → β → Prop} {S : γ → δ → Prop}

inductive Agree (R : α → β → Prop) : Exn α → Exn β → Prop where
  | error (e e' : String) : Agree R (.error e) (.error e')
  | ok {a : α} {b : β} (h : R a b) : Agree R (.ok a) (.ok b)

theorem Agree.andThen {x : Exn α} {y : Exn β} {f : α → Exn γ} {g : β → Exn δ} (h : Agree R x y)
    (hfg : ∀ a b, R a b → Agree S (f a) (g b)) : Agree S (x.andThen f) (y.andThen g) := by
  cases h with
  | error e e' => exact .error e e'
  | ok h => exact hfg _ _ h

theorem Agree.mono {R' : α → β → Prop} {x : Exn α} {y : Exn β} (h : Agree R x y) (hR : ∀ a b, R a b → R' a b) :
    Agree R' x y := by
  cases h with
  | error e e' => exact .error e e'
  | ok h => exact .ok (hR _ _ h)

/-- A computation agrees with itself if its result is related to itself. -/
theorem Agree.refl {R : α → α → Prop} {x : Exn α} (h : ∀ a, x = .ok a → R a a) : Agree R x x := by
  cases x with
  | error e => exact .error e e
  | ok a => exact .ok (h a rfl)

theorem Agree.ite {c : Prop} [Decidable c] {x x' : Exn α} {y y' : Exn β} (h : Agree R x y) (h' : Agree R x' y') :
    Agree R (if c then x else x') (if c then y else y') := by
  split
  · exact h
  · exact h'

/-- Folds over lists of one length agree, if every two steps at one place do. -/
theorem Agree.fold {ι κ : Type x} {f : α → ι → Exn α} {g : β → κ → Exn β} {T : ι → κ → Prop}
    (hfg : ∀ a b i k, R a b → T i k → Agree R (f a i) (g b k)) {l : List ι} {m : List κ} (hl : List.Forall₂ T l m) :
    ∀ {a : α} {b : β}, R a b → Agree R (Exn.fold f a l) (Exn.fold g b m) := by
  induction hl with
  | nil => exact fun h => .ok h
  | cons hik _ ih => exact fun h => (hfg _ _ _ _ h hik).andThen fun _ _ h' => ih h'

end Mina.Exn
