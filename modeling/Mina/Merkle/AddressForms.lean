/-
The forms of a Merkle address: bytes with the number of bits
(`to_tuple`, `of_tuple`) and a string of digits (`sexp_of_t`, `t_of_sexp`).

Bytes read back to the address, whatever the padding. Digits do not:
`t_of_sexp` takes the code of a character for the direction, and the codes of
the digits are 48 and 49.
-/
import Mina.Merkle.AddressFacts

namespace Mina.Merkle

open Binary

/-! ## Bit strings as lists -/

/-- The bytes of bits, the highest first, of a whole number of bytes. -/
def bytesOf : List Bool → List (Fin 256)
  | a :: b :: c :: d :: e :: f :: g :: h :: l => Fin.ofNat 256 (number [a, b, c, d, e, f, g, h]) :: bytesOf l
  | _ => []

theorem bytesBits_bytesOf (l : List Bool) (hl : l.length % 8 = 0) : bytesBits (bytesOf l) = l := by
  fun_induction bytesOf l with
  | case1 a b c d e f g h l ih =>
    have hbound : number [a, b, c, d, e, f, g, h] < 256 := lt_of_lt_of_eq (number_lt _) (by decide : 2 ^ 8 = 256)
    have hword : word 8 (number [a, b, c, d, e, f, g, h]) = [a, b, c, d, e, f, g, h] :=
      word_number [a, b, c, d, e, f, g, h]
    simp only [List.length_cons] at hl
    rw [bytesBits, List.flatMap_cons, Fin.val_ofNat, Nat.mod_eq_of_lt hbound, hword]
    rw [bytesBits] at ih
    rw [ih (by omega)]
    rfl
  | case2 l hshort =>
    match l with
    | [] => rfl
    | [_] | [_, _] | [_, _, _] | [_, _, _, _] | [_, _, _, _, _] | [_, _, _, _, _, _] | [_, _, _, _, _, _, _] =>
      cases hl
    | _ :: _ :: _ :: _ :: _ :: _ :: _ :: _ :: _ => exact absurd rfl (hshort _ _ _ _ _ _ _ _ _)

theorem getD_of_getElem? {l : List Bool} {i : Nat} {x : Bool} (hx : l[i]? = some x) : l.getD i false = x := by
  rw [List.getD_eq_getElem?_getD, hx, Option.getD_some]

def compareWords (b c : List Bool) : Int := if b < c then -1 else if b = c then 0 else 1

theorem compareWords_lt (b c : List Bool) (_ : b.length = c.length) : compareWords b c < 0 ↔ b < c := by
  rw [compareWords]
  split
  next h => exact iff_of_true (by decide) h
  next h => split <;> exact iff_of_false (by decide) h

theorem compareWords_eq (b c : List Bool) (_ : b.length = c.length) : compareWords b c = 0 ↔ b = c := by
  rw [compareWords]
  split
  next h => exact iff_of_false (by decide) fun heq => List.lt_irrefl c (heq ▸ h)
  next h =>
    split
    next heq => exact iff_of_true rfl heq
    next hne => exact iff_of_false (by decide) hne

/-- Bit strings that are the lists of their bits. -/
def plain : Bitstrings (List Bool) where
  bitstringLength := List.length
  createBitstring n := List.replicate n false
  zeroesBitstring n := List.replicate n false
  onesBitstring n := List.replicate n true
  concat := List.flatten
  subbitstring b off len := (b.drop off).take len
  set b i := b.set i true
  clear b i := b.set i false
  put b i v := b.set i (decide (v ≠ 0))
  get b i := if b.getD i false then 1 else 0
  isSet b i := b.getD i false
  isClear b i := !b.getD i false
  stringOfBitstring := bytesOf
  bitstringOfString := bytesBits
  compare := compareWords
  copy := id
  snoc b x := b ++ [x]

theorem plain_documented : Documented plain id where
  length _ := rfl
  create _ := rfl
  zeroes _ := rfl
  ones _ := rfl
  concat l := by rw [List.flatMap_id]; rfl
  sub _ _ _ _ := rfl
  set _ _ _ := rfl
  clear _ _ _ := rfl
  put _ _ _ _ := rfl
  get b i x hx := congrArg (fun x : Bool => if x then (1 : Int) else 0) (getD_of_getElem? hx)
  isSet b i x hx := getD_of_getElem? hx
  isClear b i x hx := congrArg Bool.not (getD_of_getElem? hx)
  stringOf b hb := bytesBits_bytesOf b hb
  ofString _ := rfl
  compare_lt := compareWords_lt
  compare_eq := compareWords_eq
  copy _ := rfl
  snoc _ _ := rfl

/-! ## Bytes -/

namespace Address

variable {T : Type} {L : Bitstrings T} {bits : T → List Bool} (hL : Documented L bits)
include hL

/-- `add_padding` adds zeros up to a whole number of bytes. -/
theorem addPadding_eq (path : T) : ∃ n, bits (addPadding L path) = bits path ++ List.replicate n false ∧
    (bits (addPadding L path)).length % 8 = 0 := by
  have hdepth := depth_eq hL path
  rw [addPadding]
  split
  next hwhole => exact ⟨0, by rw [List.replicate_zero, List.append_nil], hdepth ▸ hwhole⟩
  next hrest =>
    have hconcat : bits (L.concat [path, L.zeroesBitstring (8 - depth L path % 8)])
        = bits path ++ List.replicate (8 - depth L path % 8) false := by
      rw [hL.concat, List.flatMap_cons, List.flatMap_cons, List.flatMap_nil, List.append_nil, hL.zeroes]
    refine ⟨_, hconcat, ?_⟩
    rw [hconcat, List.length_append, List.length_replicate, ← hdepth]
    omega

/-- Bytes that begin with the bits of an address read back to it. -/
theorem ofTuple_eq {path : T} {s : List (Fin 256)} (hs : bits path <+: bytesBits s) :
    bits (ofTuple L (depth L path, s)) = bits path := by
  have hdepth := depth_eq hL path
  have hlength := hs.length_le
  rw [ofTuple, slice, hL.sub _ _ _ (by rw [hL.ofString]; dsimp only; omega), hL.ofString, List.drop_zero, hdepth]
  exact (List.prefix_iff_eq_take.1 hs).symm

theorem ofTuple_toTuple (path : T) : bits (ofTuple L (toTuple L path)) = bits path := by
  obtain ⟨n, hpad, hwhole⟩ := addPadding_eq hL path
  refine ofTuple_eq hL ?_
  rw [hL.stringOf _ hwhole, hpad]
  exact List.prefix_append _ _

/-! ## Digits -/

theorem toString_eq (path : T) : toString L path = (bits path).map fun b => if b then '1' else '0' := by
  refine List.ext_getElem ?_ ?_
  · rw [toString, List.length_map, List.length_map, List.length_range, depth_eq hL]
  · intro i hi hi'
    rw [List.length_map] at hi'
    simp only [toString, List.getElem_map, List.getElem_range]
    rw [hL.isClear path i _ (List.getElem?_eq_getElem hi')]
    cases (bits path)[i] <;> rfl

omit hL in
/-- No digit's code is a direction. -/
theorem tOfSexp_digit (b : Bool) (l : List Char) :
    ∃ e, tOfSexp L ((if b then '1' else '0') :: l) = .error e := by
  cases b <;> exact ⟨_, rfl⟩

theorem tOfSexp_sexpOfT (path : T) :
    (∃ p, tOfSexp L (sexpOfT L path) = .ok p ∧ bits p = bits path) ↔ depth L path = 0 := by
  rw [sexpOfT, toString_eq hL, depth_eq hL]
  cases hpath : bits path with
  | nil => exact iff_of_true ⟨L.createBitstring 0, rfl, hL.create 0⟩ rfl
  | cons b l =>
    refine iff_of_false ?_ (Nat.succ_ne_zero _)
    rintro ⟨p, hp, -⟩
    obtain ⟨e, he⟩ := tOfSexp_digit (L := L) b (l.map fun b => if b then '1' else '0')
    cases hp.symm.trans he

/-! ## Reading back -/

omit hL in
/-- Every form of an address reads back to it. -/
def ReadsBack (L : Bitstrings T) (bits : T → List Bool) (path : T) : Prop :=
  bits (ofTuple L (toTuple L path)) = bits path ∧
    (∀ s, bits path <+: bytesBits s → bits (ofTuple L (depth L path, s)) = bits path) ∧
    ∃ p, tOfSexp L (sexpOfT L path) = .ok p ∧ bits p = bits path

/-- **Of the forms of an address, the bytes always read back to it, with any
padding. The digits do only for the empty address.** -/
theorem readsBack_iff (path : T) :
    (bits (ofTuple L (toTuple L path)) = bits path ∧
      ∀ s, bits path <+: bytesBits s → bits (ofTuple L (depth L path, s)) = bits path) ∧
    (ReadsBack L bits path ↔ depth L path = 0) := by
  have htuple := ofTuple_toTuple hL path
  have hbytes : ∀ s, bits path <+: bytesBits s → bits (ofTuple L (depth L path, s)) = bits path :=
    fun s hs => ofTuple_eq hL hs
  refine ⟨⟨htuple, hbytes⟩, ?_⟩
  rw [ReadsBack, ← tOfSexp_sexpOfT hL path]
  exact ⟨fun h => h.2.2, fun h => ⟨htuple, hbytes, h⟩⟩

end Address

theorem readsBack_root : Address.ReadsBack plain id [] :=
  (Address.readsBack_iff plain_documented []).2.2 rfl

/-- An address of one bit. -/
theorem readsBack_left : ¬ Address.ReadsBack plain id [false] := by
  rintro ⟨-, -, p, hp, -⟩
  cases hp

end Mina.Merkle
