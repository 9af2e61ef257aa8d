/-
Exceptions: a computation that can raise is an `Except String`, with the
text of what it raises. Its values may live in any universe (a pool holds
finger trees, an amount does not), so sequencing is a function of its own.
-/
import Mathlib

universe u v

namespace Mina

/-- A computation that can raise. -/
abbrev Exn (α : Type u) := Except String α

/-- Two computations in sequence, with any errors. -/
theorem bind_eq_ok {ε α β : Type} {x : Except ε α} {f : α → Except ε β} {b : β} :
    (x >>= f) = .ok b ↔ ∃ a, x = .ok a ∧ f a = .ok b := by
  cases x with
  | error e => exact ⟨fun h => (by cases h), fun ⟨_, h, _⟩ => (by cases h)⟩
  | ok a => exact ⟨fun h => ⟨a, rfl, h⟩, fun ⟨_, h, hf⟩ => Except.ok.inj h ▸ hf⟩

namespace Exn

variable {α : Type u} {β : Type v}

def andThen (x : Exn α) (f : α → Exn β) : Exn β :=
  match x with
  | .ok a => f a
  | .error e => .error e

@[simp] theorem andThen_ok (a : α) (f : α → Exn β) : andThen (.ok a) f = f a := rfl

@[simp] theorem andThen_error (e : String) (f : α → Exn β) : andThen (.error e) f = .error e := rfl

theorem andThen_of_ok {x : Exn α} {a : α} (h : x = .ok a) (f : α → Exn β) : x.andThen f = f a := by
  rw [h, andThen_ok]

theorem exists_of_isOk {x : Exn α} (h : x.isOk = true) : ∃ a, x = .ok a := by
  cases x with
  | ok a => exact ⟨a, rfl⟩
  | error e => cases h

theorem andThen_eq_ok {x : Exn α} {f : α → Exn β} {b : β} :
    x.andThen f = .ok b ↔ ∃ a, x = .ok a ∧ f a = .ok b := by
  cases x <;> simp

/-- `Option.value_exn`. -/
def valueExn : Option α → Exn α
  | some a => .ok a
  | none => .error "Option.value_exn None"

@[simp] theorem valueExn_some (a : α) : valueExn (some a) = .ok a := rfl

theorem valueExn_eq_ok {x : Option α} {a : α} : valueExn x = .ok a ↔ x = some a := by
  cases x <;> simp [valueExn]

/-- `assert`. -/
def assert (b : Bool) (x : Exn α) : Exn α :=
  if b then x else .error "Assert_failure"

theorem assert_eq_ok {b : Bool} {x : Exn α} {a : α} : assert b x = .ok a ↔ b = true ∧ x = .ok a := by
  cases b <;> simp [assert]

@[simp] theorem assert_true (x : Exn α) : assert true x = x := rfl

/-- `List.map` of a function that can raise. -/
def mapList (f : α → Exn β) : List α → Exn (List β)
  | [] => .ok []
  | a :: l => (f a).andThen fun b => (mapList f l).andThen fun bs => .ok (b :: bs)

theorem mapList_eq_ok {f : α → Exn β} : ∀ {l : List α} {bs : List β},
    mapList f l = .ok bs ↔ List.Forall₂ (fun a b => f a = .ok b) l bs
  | [], bs => by
    rw [mapList, Except.ok.injEq, List.forall₂_nil_left_iff]
    exact eq_comm
  | a :: l, bs => by
    simp only [mapList, andThen_eq_ok, mapList_eq_ok, Except.ok.injEq, List.forall₂_cons_left_iff]
    constructor
    · rintro ⟨b, hb, bs', hbs, rfl⟩
      exact ⟨b, bs', hb, hbs, rfl⟩
    · rintro ⟨b, bs', hb, hbs, rfl⟩
      exact ⟨b, hb, bs', hbs, rfl⟩

theorem mapList_mem {f : α → Exn β} {a : α} : ∀ {l : List α} {bs : List β}, mapList f l = .ok bs → a ∈ l →
    ∃ b, f a = .ok b
  | c :: l, bs, h, ha => by
    obtain ⟨b, hb, h⟩ := andThen_eq_ok.1 h
    obtain ⟨bs', hbs, -⟩ := andThen_eq_ok.1 h
    rcases List.mem_cons.1 ha with rfl | ha
    · exact ⟨b, hb⟩
    · exact mapList_mem hbs ha

theorem mapList_result {f : α → Exn β} {b : β} : ∀ {l : List α} {bs : List β}, mapList f l = .ok bs → b ∈ bs →
    ∃ a ∈ l, f a = .ok b
  | [], bs, h, hb => by
    cases h
    cases hb
  | c :: l, bs, h, hb => by
    obtain ⟨b', hc, h⟩ := andThen_eq_ok.1 h
    obtain ⟨bs', hbs, h⟩ := andThen_eq_ok.1 h
    cases h
    rcases List.mem_cons.1 hb with rfl | hb
    · exact ⟨c, by simp, hc⟩
    · obtain ⟨a, ha, hfa⟩ := mapList_result hbs hb
      exact ⟨a, by simp [ha], hfa⟩

theorem mapList_of_forall {f : α → Exn β} {Q : α → β → Prop} : ∀ {l : List α},
    (∀ a ∈ l, ∃ b, f a = .ok b ∧ Q a b) → ∃ bs, mapList f l = .ok bs ∧ List.Forall₂ Q l bs
  | [], _ => ⟨[], rfl, .nil⟩
  | a :: l, h => by
    obtain ⟨b, hb, hq⟩ := h a (by simp)
    obtain ⟨bs, hbs, hqs⟩ := mapList_of_forall (l := l) fun a ha => h a (by simp [ha])
    exact ⟨b :: bs, by rw [mapList, hb, andThen_ok, hbs, andThen_ok], .cons hq hqs⟩

/-- A left fold whose steps can raise. -/
def fold {γ : Type v} (f : α → γ → Exn α) (a : α) : List γ → Exn α
  | [] => .ok a
  | c :: l => (f a c).andThen fun a' => fold f a' l

theorem fold_cons_eq_ok {γ : Type v} {f : α → γ → Exn α} {a b : α} {c : γ} {l : List γ} :
    fold f a (c :: l) = .ok b ↔ ∃ a', f a c = .ok a' ∧ fold f a' l = .ok b := andThen_eq_ok

theorem fold_append {γ : Type v} (f : α → γ → Exn α) (a : α) (l l' : List γ) :
    fold f a (l ++ l') = (fold f a l).andThen fun b => fold f b l' := by
  induction l generalizing a with
  | nil => rfl
  | cons c l ih =>
    rw [List.cons_append, fold, fold]
    cases f a c with
    | error e => rfl
    | ok b => exact ih b

/-- What every step preserves, the fold preserves. -/
theorem fold_induct {γ : Type v} {f : α → γ → Exn α} {P : α → Prop} :
    ∀ {l : List γ} {a b : α}, (∀ a c a', c ∈ l → P a → f a c = .ok a' → P a') → P a →
      fold f a l = .ok b → P b
  | [], _, _, _, ha, h => by cases h; exact ha
  | c :: l, a, b, hf, ha, h => by
    obtain ⟨a', hc, hl⟩ := fold_cons_eq_ok.1 h
    exact fold_induct (fun a c a' hm => hf a c a' (by simp [hm])) (hf a c a' (by simp) ha hc) hl

end Exn

end Mina
