/-
What each operation on a `Cached.t` does when it does not raise. A
registration is its element with the position of its `final_state`: every
`Cached.t` but a pure one belongs to one.
-/
import Mina.CacheLib.Cache

namespace Mina.CacheLib

variable {A B E : Type}

/-! ## Registrations -/

def Cached.registration : Cached A B → Option (A × Nat)
  | .base data _ finalState => some (data, finalState)
  | .derivative original _ _ finalState => some (original, finalState)
  | .pure _ => none

def Cached.transformed : Cached A B → Bool
  | .base _ transformed _ => transformed
  | .derivative _ _ transformed _ => transformed
  | .pure _ => false

section Parts

variable {t : T A B} {c : Cached A B} {x : A} {l : Nat} (h : c.registration = some (x, l))
include h

theorem original_eq : c.original = .ok x := by
  cases c <;> cases h <;> rfl

theorem finalState_eq : c.finalState = .ok l := by
  cases c <;> cases h <;> rfl

theorem wasConsumed_eq : wasConsumed t c = (isFull t l || c.transformed) := by
  cases c <;> cases h <;> rfl

theorem wasFinalized_eq : wasFinalized t c = isFull t l := by
  cases c <;> cases h <;> rfl

theorem mark_eq (value : A → FinalState A) : mark value t c = fill t l (value x) := by
  cases c <;> cases h <;> rfl

theorem markTransformed_eq :
    ∃ c', c.markTransformed = .ok c' ∧ c'.registration = some (x, l) ∧ c'.transformed = true := by
  cases c <;> cases h <;> exact ⟨_, rfl, rfl, rfl⟩

theorem assertNotConsumed_ok {msg : String} {u : Unit} :
    assertNotConsumed t c msg = .ok u ↔ isFull t l = false ∧ c.transformed = false := by
  unfold assertNotConsumed
  rw [wasConsumed_eq h, original_eq h, Exn.andThen_ok]
  cases isFull t l <;> cases c.transformed <;> simp

theorem assertNotFinalized_ok {msg : String} {u : Unit} :
    assertNotFinalized t c msg = .ok u ↔ isFull t l = false := by
  unfold assertNotFinalized
  rw [wasFinalized_eq h, original_eq h, Exn.andThen_ok]
  cases isFull t l <;> simp

end Parts

theorem find_ok {t : T A B} {h : Nat} {c : Cached A B} : find t h = .ok c ↔ t.handles[h]? = some c := by
  unfold find
  cases t.handles[h]? <;> simp

/-- What can be marked is not pure. -/
theorem registration_of_mark {value : A → FinalState A} {t t' : T A B} {c : Cached A B}
    (h : mark value t c = .ok t') : ∃ x l, c.registration = some (x, l) := by
  cases c with
  | base x _ l => exact ⟨x, l, rfl⟩
  | derivative x _ _ l => exact ⟨x, l, rfl⟩
  | pure _ => cases h

theorem registration_of_markTransformed {c c' : Cached A B} (h : c.markTransformed = .ok c') :
    ∃ x l, c.registration = some (x, l) := by
  cases c with
  | base x _ l => exact ⟨x, l, rfl⟩
  | derivative x _ _ l => exact ⟨x, l, rfl⟩
  | pure _ => cases h

theorem fill_ok {t t' : T A B} {l : Nat} {value : FinalState A} :
    fill t l value = .ok t' ↔ isFull t l = false ∧
      { t with finalStates := t.finalStates.set l (some value), events := .fill l :: t.events } = t' := by
  unfold fill
  cases isFull t l <;> simp

/-! ## Operations -/

/-- `h` belongs to the registration `l` of `x`. -/
def Of (t : T A B) (h : Nat) (x : A) (l : Nat) : Prop :=
  ∃ c, t.handles[h]? = some c ∧ c.registration = some (x, l)

theorem transformed_ok {t t' : T A B} {h : Nat} {c : Cached A B} (hok : transformed t h = .ok (c, t')) :
    t.handles[h]? = some c ∧ c.transformed = false ∧
      ∃ x l c', c.registration = some (x, l) ∧ isFull t l = false ∧
        c'.registration = some (x, l) ∧ c'.transformed = true ∧ t' = { t with handles := t.handles.set h c' } := by
  obtain ⟨c₀, hc, hok⟩ := Exn.andThen_eq_ok.1 hok
  obtain ⟨_, hassert, hok⟩ := Exn.andThen_eq_ok.1 hok
  obtain ⟨c', hmark, hok⟩ := Exn.andThen_eq_ok.1 hok
  cases hok
  obtain ⟨x, l, hreg⟩ := registration_of_markTransformed hmark
  obtain ⟨hfull, hflag⟩ := (assertNotConsumed_ok hreg).1 hassert
  obtain ⟨c'', hc'', hreg', htransformed⟩ := markTransformed_eq hreg
  cases hmark.symm.trans hc''
  exact ⟨find_ok.1 hc, hflag, x, l, c', hreg, hfull, hreg', htransformed, rfl⟩

theorem transform_ok {t t' : T A B} {h k : Nat} {f : A ⊕ B → B} (hok : transform t h f = .ok (k, t')) :
    k = t.handles.length ∧ ∃ c t₁ x l, transformed t h = .ok (c, t₁) ∧ c.registration = some (x, l) ∧
      t' = { t₁ with handles := t₁.handles ++ [.derivative x (f c.value) false l] } := by
  obtain ⟨r, hr, hok⟩ := Exn.andThen_eq_ok.1 hok
  have hr : transformed t h = .ok (r.1, r.2) := hr
  obtain ⟨-, -, x, l, -, hreg, -⟩ := transformed_ok hr
  rw [original_eq hreg, Exn.andThen_ok, finalState_eq hreg, Exn.andThen_ok] at hok
  cases hok
  exact ⟨rfl, r.1, r.2, x, l, hr, hreg, rfl⟩

variable [DecidableEq A]

/-- The effect of invalidating a `Cached.t` of the registration `l`. -/
def finalised (t : T A B) (value : FinalState A) (reason : Reason) (x : A) (l : Nat) : T A B :=
  remove { t with finalStates := t.finalStates.set l (some value), events := .fill l :: t.events } reason x l

theorem invalidate_ok {t t' : T A B} {h : Nat} {value : A → FinalState A} {reason : Reason} {v : A ⊕ B}
    (hok : invalidate (mark value) reason t h = .ok (v, t')) :
    ∃ x l, Of t h x l ∧ isFull t l = false ∧ t' = finalised t (value x) reason x l := by
  obtain ⟨c, hc, hok⟩ := Exn.andThen_eq_ok.1 hok
  obtain ⟨_, hassert, hok⟩ := Exn.andThen_eq_ok.1 hok
  obtain ⟨t₁, hmark, hok⟩ := Exn.andThen_eq_ok.1 hok
  obtain ⟨x, l, hreg⟩ := registration_of_mark hmark
  rw [original_eq hreg, Exn.andThen_ok, finalState_eq hreg, Exn.andThen_ok] at hok
  rw [mark_eq hreg] at hmark
  obtain ⟨hfull, rfl⟩ := fill_ok.1 hmark
  cases hok
  exact ⟨x, l, ⟨c, find_ok.1 hc, hreg⟩, hfull, rfl⟩

/-- A pure `Cached.t` cannot be invalidated. -/
theorem invalidate_pure {t : T A B} {h : Nat} {value : A → FinalState A} {reason : Reason} {v : B}
    (hpure : t.handles[h]? = some (.pure v)) :
    invalidate (mark value) reason t h = .error "cannot set consumed state of pure Cached.t" := by
  rw [invalidate, find_ok.2 hpure]
  rfl

theorem finalizer_of {t : T A B} {h : Nat} {c : Cached A B} {x : A} {l : Nat} (hc : t.handles[h]? = some c)
    (hreg : c.registration = some (x, l)) :
    finalizer t h =
      if isFull t l || c.transformed then { t with collected := h :: t.collected }
      else remove { t with collected := h :: t.collected } .unconsumed x l := by
  unfold finalizer
  rw [hc]
  cases c with
  | base data transformed finalState =>
    cases hreg
    rfl
  | derivative original mutant transformed finalState =>
    cases hreg
    rfl
  | pure value => cases hreg

theorem finalizer_none {t : T A B} {h : Nat} (hnone : ∀ x l, ¬ Of t h x l) : finalizer t h = t := by
  unfold finalizer
  split
  next data transformed l hc => exact absurd ⟨_, hc, rfl⟩ (hnone data l)
  next original mutant transformed l hc => exact absurd ⟨_, hc, rfl⟩ (hnone original l)
  next => rfl

/-- `sequence_result` transforms a result and invalidates an error. -/
theorem sequenceResult_ok {t t' : T A B} {h : Nat} {result : A ⊕ B → Except E B} {r : Except E Nat}
    (hok : sequenceResult t h result = .ok (r, t')) :
    ∃ value, peek t h = .ok value ∧
      ((∃ x k, result value = .ok x ∧ transform t h (fun _ => x) = .ok (k, t') ∧ r = .ok k) ∨
        ∃ e v, result value = .error e ∧ invalidateWithFailure t h = .ok (v, t') ∧ r = .error e) := by
  obtain ⟨value, hpeek, hok⟩ := Exn.andThen_eq_ok.1 hok
  refine ⟨value, hpeek, ?_⟩
  split at hok
  next x hx =>
    obtain ⟨s, hs, hok⟩ := Exn.andThen_eq_ok.1 hok
    cases hok
    exact Or.inl ⟨x, s.1, hx, hs, rfl⟩
  next e he =>
    obtain ⟨s, hs, hok⟩ := Exn.andThen_eq_ok.1 hok
    cases hok
    exact Or.inr ⟨e, s.1, he, hs, rfl⟩

end Mina.CacheLib
