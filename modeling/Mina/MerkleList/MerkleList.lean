/-
Lists of hashes that lead from one value to another
(`merkle_list_prover/merkle_list_prover.ml`,
`merkle_list_verifier/merkle_list_verifier.ml`).

The prover goes from a value to those before it and keeps an element of each
that it leaves, the verifier hashes them again from the other end. The prover
has fuel: it ends where there is no value before (`Ancestry`).
-/
import Mina.Base.Exn

namespace Mina.MerkleList

/-- `Non_empty_list.t` -/
abbrev NonEmptyList (H : Type) := H × List H

def NonEmptyList.toList {H : Type} (l : NonEmptyList H) : List H := l.1 :: l.2

def NonEmptyList.cons {H : Type} (x : H) (l : NonEmptyList H) : NonEmptyList H := (x, l.toList)

/-! ## The prover -/

section Prover

variable {V E : Type} (toProofElem : V → E) (getPrevious : V → Option V)

def findPath : Nat → Option Int → V → Exn (V × List E)
  | 0, _, _ => .error "out of fuel"
  | fuel + 1, length, value =>
    if length = some 0 then .ok (value, [])
    else
      match getPrevious value with
      | none => .ok (value, [])
      | some parent =>
        (findPath fuel (length.map (· - 1)) parent).andThen fun r => .ok (r.1, toProofElem value :: r.2)

def prove (fuel : Nat) (length : Option Int) (last : V) : Exn (V × List E) :=
  (findPath toProofElem getPrevious fuel length last).andThen fun r => .ok (r.1, r.2.reverse)

/-- The values before `v`, nearest first. -/
inductive Ancestry : V → List V → Prop
  | first (v : V) : getPrevious v = none → Ancestry v []
  | next (v parent : V) (l : List V) : getPrevious v = some parent → Ancestry parent l → Ancestry v (parent :: l)

end Prover

/-- As many values as an optional length says. -/
def upTo {V : Type} (length : Option Nat) (l : List V) : List V :=
  match length with
  | none => l
  | some n => l.take n

/-! ## The verifier -/

section Verifier

variable {H E : Type} (hash : H → E → H)

def hashes (init : H) (merkleList : List E) : NonEmptyList H :=
  merkleList.foldl (fun acc proofElem => .cons (hash acc.1 proofElem) acc) (init, [])

def verify [DecidableEq H] (init : H) (merkleList : List E) (targetHash : H) : Option (NonEmptyList H) :=
  let hashes := hashes hash init merkleList
  if targetHash = hashes.1 then some hashes else none

end Verifier

/-! ## What the prover finds -/

section Path

variable {V E : Type} {toProofElem : V → E} {getPrevious : V → Option V}

theorem Ancestry.chain {v : V} {l : List V} (h : Ancestry getPrevious v l) :
    (v :: l).IsChain fun c p => getPrevious c = some p := by
  induction h with
  | first v _ => exact .singleton v
  | next v parent l hprevious _ ih => exact List.isChain_cons_cons.2 ⟨hprevious, ih⟩

/-- The last of them has none before it. -/
theorem Ancestry.last {v : V} {l : List V} (h : Ancestry getPrevious v l) :
    getPrevious ((v :: l).getLast (List.cons_ne_nil v l)) = none := by
  induction h with
  | first v hnone => exact hnone
  | next v parent l _ _ ih => rwa [List.getLast_cons_cons]

/-- They are those before any value with the same one before it. -/
theorem Ancestry.congr {v w : V} {l : List V} (heq : getPrevious v = getPrevious w) (h : Ancestry getPrevious v l) :
    Ancestry getPrevious w l := by
  cases h with
  | first v hnone => exact .first w (heq ▸ hnone)
  | next v parent l hprevious hl => exact .next w parent l (heq ▸ hprevious) hl

theorem Ancestry.forall {P : V → Prop} (hP : ∀ v p, getPrevious v = some p → P p) {v : V} {l : List V}
    (h : Ancestry getPrevious v l) : ∀ p ∈ l, P p := by
  induction h with
  | first v _ =>
    intro p hp
    cases hp
  | next v parent l hprevious _ ih =>
    intro p hp
    rcases List.mem_cons.1 hp with rfl | hp
    · exact hP v p hprevious
    · exact ih p hp

/-- The values before `v` end if those before each other do. -/
theorem exists_ancestry {r : V → V → Prop} (hr : WellFounded r) (hprevious : ∀ v p, getPrevious v = some p → r p v)
    (v : V) : ∃ l, Ancestry getPrevious v l := by
  induction v using hr.induction with
  | _ v ih =>
    cases h : getPrevious v with
    | none => exact ⟨[], .first v h⟩
    | some p =>
      obtain ⟨l, hl⟩ := ih p (hprevious v p h)
      exact ⟨p :: l, .next v p l h hl⟩

/-- The path goes as far as the length says, and leaves out the element of the
value where it ends. -/
theorem findPath_ok {v : V} {l : List V} (h : Ancestry getPrevious v l) : ∀ {fuel : Nat} (length : Option Nat),
    l.length < fuel → findPath toProofElem getPrevious fuel (length.map Int.ofNat) v =
      .ok ((v :: upTo length l).getLast (List.cons_ne_nil _ _), ((v :: upTo length l).dropLast).map toProofElem) := by
  induction h with
  | first v hnone =>
    intro fuel length hfuel
    obtain ⟨fuel, rfl⟩ := Nat.exists_eq_succ_of_ne_zero (Nat.ne_of_gt hfuel)
    have hnil : upTo length ([] : List V) = [] := by cases length <;> simp [upTo]
    rw [findPath, hnone, hnil]
    exact ite_id _
  | next v parent l hprevious _ ih =>
    intro fuel length hfuel
    obtain ⟨fuel, rfl⟩ := Nat.exists_eq_succ_of_ne_zero (Nat.ne_of_gt (Nat.zero_lt_of_lt hfuel))
    have hfuel : l.length < fuel := Nat.lt_of_succ_lt_succ hfuel
    rw [findPath, hprevious]
    match length with
    | none =>
      rw [if_neg (by simp), Option.map_none, Option.map_none]
      dsimp only
      rw [show (none : Option Int) = (none : Option Nat).map Int.ofNat from rfl, ih none hfuel]
      rfl
    | some 0 => exact if_pos rfl
    | some (n + 1) =>
      have hpred : ((some (n + 1)).map Int.ofNat).map (· - 1) = (some n).map Int.ofNat := by simp
      rw [if_neg (by simp; omega), hpred]
      dsimp only
      rw [ih (some n) hfuel]
      rfl

end Path

/-! ## What the verifier accepts -/

section Hashes

variable {H E : Type} {hash : H → E → H}

theorem hashes_snoc (init : H) (l : List E) (e : E) :
    hashes hash init (l ++ [e]) = .cons (hash (hashes hash init l).1 e) (hashes hash init l) := by
  rw [hashes, List.foldl_append]
  rfl

theorem verify_eq_some [DecidableEq H] {init target : H} {l : List E} {result : NonEmptyList H} :
    verify hash init l target = some result ↔ hashes hash init l = result ∧ result.1 = target := by
  rw [verify]
  split
  next h =>
    rw [Option.some.injEq]
    exact ⟨fun heq => ⟨heq, heq ▸ h.symm⟩, fun heq => heq.1⟩
  next h => exact ⟨fun heq => (by cases heq), fun heq => absurd (heq.1 ▸ heq.2).symm h⟩

theorem hashes_length (init : H) (l : List E) : (hashes hash init l).toList.length = l.length + 1 := by
  induction l using List.reverseRecOn with
  | nil => rfl
  | append_singleton l e ih =>
    rw [hashes_snoc, List.length_append, List.length_singleton, ← ih]
    rfl

theorem hashes_getLast? (init : H) (l : List E) : (hashes hash init l).toList.getLast? = some init := by
  induction l using List.reverseRecOn with
  | nil => rfl
  | append_singleton l e ih =>
    rw [hashes_snoc, ← ih]
    exact List.getLast?_cons_cons

/-- Each hash is made of the next one. -/
theorem hashes_chain (init : H) (l : List E) :
    (hashes hash init l).toList.IsChain fun c p => ∃ e, c = hash p e := by
  induction l using List.reverseRecOn with
  | nil => exact .singleton init
  | append_singleton l e ih =>
    rw [hashes_snoc]
    exact List.isChain_cons_cons.2 ⟨⟨e, rfl⟩, ih⟩

/-- The elements of a line of values lead from its last value to its first. -/
theorem hashes_line {V : Type} {toProofElem : V → E} {stateHash : V → H} {l : List V} : ∀ {v : V},
    (v :: l).IsChain (fun c p => stateHash c = hash (stateHash p) (toProofElem c)) →
    (hashes hash (stateHash ((v :: l).getLast (List.cons_ne_nil v l)))
      (((v :: l).dropLast).map toProofElem).reverse).toList = (v :: l).map stateHash := by
  induction l with
  | nil =>
    intro v _
    rfl
  | cons w l ih =>
    intro v h
    obtain ⟨hv, h⟩ := List.isChain_cons_cons.1 h
    have ih := ih h
    rw [List.getLast_cons_cons, List.dropLast_cons_cons, List.map_cons, List.reverse_cons, hashes_snoc, List.map_cons, ← ih,
      NonEmptyList.cons, NonEmptyList.toList, hv]
    have hhead : (hashes hash (stateHash ((w :: l).getLast (List.cons_ne_nil w l)))
        (((w :: l).dropLast).map toProofElem).reverse).1 = stateHash w := List.head_eq_of_cons_eq ih
    rw [hhead]

end Hashes

end Mina.MerkleList
