/-
Preferences: relations that decide between any two different elements of a
set, transitively. The preferred element of a list, found by comparing one
element after the other, is then preferred to all others (`fold_preferred`),
so it does not depend on their order (`fold_perm`).
-/
import Mina.Base.Exn

universe u

namespace Mina

variable {α : Type u}

/-- `r a b` says that `b` is above `a`. -/
structure StrictlyOrders (S : Set α) (r : α → α → Bool) : Prop where
  asymm : ∀ a ∈ S, ∀ b ∈ S, r a b = true → r b a = false
  trans : ∀ a ∈ S, ∀ b ∈ S, ∀ c ∈ S, r a b = true → r b c = true → r a c = true

/-- `r a b` says that `b` is preferred to `a`. -/
structure Preference (S : Set α) (r : α → α → Bool) : Prop extends StrictlyOrders S r where
  total : ∀ a ∈ S, ∀ b ∈ S, a ≠ b → r a b = true ∨ r b a = true

namespace Preference

variable {S : Set α} {r : α → α → Bool}

/-- Of two different elements exactly one is preferred. -/
theorem iff_not (h : Preference S r) {a b : α} (ha : a ∈ S) (hb : b ∈ S) (hne : a ≠ b) :
    r a b = true ↔ r b a = false := by
  refine ⟨h.asymm a ha b hb, fun hba => ?_⟩
  refine (h.total a ha b hb hne).resolve_right fun hba' => ?_
  rw [hba] at hba'
  cases hba'

/-- What is preferred to all others is determined by the elements. -/
theorem greatest_unique (h : Preference S r) {l l' : List α} (hl : ∀ x ∈ l, x ∈ S) (hperm : l.Perm l') {a b : α}
    (ha : a ∈ l ∧ ∀ x ∈ l, x ≠ a → r x a = true) (hb : b ∈ l' ∧ ∀ x ∈ l', x ≠ b → r x b = true) : a = b := by
  by_contra hne
  have hab := hb.2 a (hperm.mem_iff.1 ha.1) hne
  have hba := ha.2 b (hperm.mem_iff.2 hb.1) (Ne.symm hne)
  rw [h.asymm a (hl a ha.1) b (hl b (hperm.mem_iff.2 hb.1)) hab] at hba
  cases hba

variable {step : α → α → Exn α}

/-- A step that keeps the preferred one of two finds the preferred one of a
list. -/
theorem fold_preferred (h : Preference S r)
    (hstep : ∀ a ∈ S, ∀ b ∈ S, step a b = .ok (if r a b then b else a)) :
    ∀ {l : List α} {a : α}, (∀ x ∈ a :: l, x ∈ S) →
      ∃ w, Exn.fold step a l = .ok w ∧ w ∈ a :: l ∧ ∀ x ∈ a :: l, x ≠ w → r x w = true
  | [], a, _ => by
    refine ⟨a, rfl, by simp, fun x hx hne => ?_⟩
    exact absurd (List.mem_singleton.1 hx) hne
  | b :: l, a, hS => by
    have ha : a ∈ S := hS a (by simp)
    have hb : b ∈ S := hS b (by simp)
    let c := if r a b then b else a
    have hc : c ∈ S ∧ (c = a ∨ c = b) := by
      dsimp only [c]
      split
      · exact ⟨hb, .inr rfl⟩
      · exact ⟨ha, .inl rfl⟩
    have hrest : ∀ x ∈ c :: l, x ∈ S := by
      intro x hx
      rcases List.mem_cons.1 hx with rfl | hx
      · exact hc.1
      · exact hS x (by simp [hx])
    obtain ⟨w, hw, hmem, hmax⟩ := fold_preferred h hstep hrest
    refine ⟨w, Exn.fold_cons_eq_ok.2 ⟨c, hstep a ha b hb, hw⟩, ?_, fun x hx hne => ?_⟩
    · rcases List.mem_cons.1 hmem with rfl | hmem
      · rcases hc.2 with heq | heq <;> rw [heq] <;> simp
      · simp [hmem]
    · have hwS : w ∈ S := hrest w hmem
      -- The one of `a` and `b` that is not kept is below the one that is.
      have below : ∀ y ∈ S, r y c = true → r y w = true := by
        intro y hy hyc
        by_cases hcw : c = w
        · rw [← hcw]
          exact hyc
        · exact h.trans y hy c hc.1 w hwS hyc (hmax c (by simp) hcw)
      have hxS : x ∈ S := hS x hx
      by_cases hxc : x = c
      · exact hmax x (by simp [hxc]) hne
      · rcases List.mem_cons.1 hx with rfl | hx
        · refine below x hxS ?_
          cases hab : r x b with
          | true => simpa [c, hab] using hab
          | false => exact absurd (by simp [c, hab]) hxc
        · rcases List.mem_cons.1 hx with rfl | hx
          · refine below x hxS ?_
            cases hab : r a x with
            | true => exact absurd (by simp [c, hab]) hxc
            | false =>
              have hca : c = a := by simp [c, hab]
              rw [hca] at hxc ⊢
              exact (h.total x hxS a ha hxc).resolve_right fun hax => by rw [hab] at hax; cases hax
          · exact hmax x (by simp [hx]) hne

/-- The preferred one of a list does not depend on the order. -/
theorem fold_perm (h : Preference S r)
    (hstep : ∀ a ∈ S, ∀ b ∈ S, step a b = .ok (if r a b then b else a)) {l l' : List α} {a a' : α}
    (hS : ∀ x ∈ a :: l, x ∈ S) (hperm : (a :: l).Perm (a' :: l')) :
    ∃ w, Exn.fold step a l = .ok w ∧ Exn.fold step a' l' = .ok w := by
  obtain ⟨w, hw, hgreatest⟩ := h.fold_preferred hstep hS
  obtain ⟨w', hw', hgreatest'⟩ := h.fold_preferred hstep fun x hx => hS x (hperm.mem_iff.2 hx)
  rw [h.greatest_unique hS hperm hgreatest hgreatest'] at hw
  exact ⟨w', hw, hw'⟩

end Preference

end Mina
