/-
The addresses of a range, in order, and what Merkle addresses are: binary
numbers (`address_binary`).

Up to depth 61 the number is also an index (`to_int`, `of_int_exn`). There
`1 lsl ledger_depth` is a power of two; at depth 62 it is the least integer
and no index is below it.
-/
import Mina.Merkle.AddressForms

namespace Mina.Merkle

open Binary
open SyncableLedger (Addr)

namespace Address

variable {T : Type} {L : Bitstrings T} {bits : T → List Bool}

/-- The addresses of a tree's depth under an address, each once, in increasing
order. -/
structure LeavesUnder (L : Bitstrings T) (bits : T → List Bool) (ledgerDepth : Nat) (address : T) (l : List T) :
    Prop where
  length : l.length = 2 ^ height L ledgerDepth address
  mem : ∀ m, m ∈ l.map bits ↔ m.length = ledgerDepth ∧ bits address <+: m
  increasing : (l.map bits).Pairwise fun a b => number a < number b

variable (hL : Documented L bits)
include hL

theorem compare_lt {p q : T} (hdepth : depth L p = depth L q) :
    L.compare p q < 0 ↔ number (bits p) < number (bits q) := by
  rw [depth_eq hL, depth_eq hL] at hdepth
  rw [hL.compare_lt p q hdepth, lt_iff_number_lt hdepth]

theorem compare_eq {p q : T} (hdepth : depth L p = depth L q) :
    L.compare p q = 0 ↔ number (bits p) = number (bits q) := by
  have hlength := hdepth
  rw [depth_eq hL, depth_eq hL] at hlength
  rw [hL.compare_eq p q hlength]
  exact ⟨congrArg number, eq_of_number hL hdepth⟩

/-! ## Walks -/

omit hL in
theorem range_succ_words (d n k : Nat) :
    (List.range (k + 1)).map (fun i => word d (n + i))
      = word d n :: (List.range k).map fun i => word d (n + 1 + i) := by
  rw [List.range_succ_eq_map, List.map_cons, List.map_map, Nat.add_zero]
  congr 1
  refine List.map_congr_left fun i _ => ?_
  rw [Function.comp_apply, Nat.add_right_comm, Nat.add_assoc]

theorem bits_eq_word (path : T) : bits path = word (depth L path) (number (bits path)) := by
  rw [depth_eq hL, word_number]

/-- Before the last address of a range there is a next one, nearer to it. -/
theorem next_before {first last : T} {k : Nat} (hdepth : depth L first = depth L last)
    (hk : number (bits last) = number (bits first) + (k + 1)) :
    ∃ first', next L first = some first' ∧ depth L first' = depth L first ∧
      number (bits first') = number (bits first) + 1 := by
  have hsome : next L first ≠ none := fun hnone => by
    have hlast := (next_eq_none hL).1 hnone
    have hbound := number_lt (bits last)
    rw [hdepth] at hlast
    rw [← depth_eq hL] at hbound
    omega
  obtain ⟨first', hfirst'⟩ := Option.ne_none_iff_exists'.1 hsome
  exact ⟨first', hfirst', next_number hL hfirst'⟩

/-- `fold_exl` visits the addresses before the last. -/
theorem foldExl_eq (last : T) (k : Nat) : ∀ first : T, depth L first = depth L last →
    number (bits last) = number (bits first) + k →
    ∃ l : List T, l.map bits = ((List.range k).map fun i => word (depth L first) (number (bits first) + i)) ∧
      ∀ (A : Type) (f : T → A → A) (fuel : Nat) (init : A), k < fuel →
        Range.foldExl L f last fuel first init = .ok (l.foldl (fun a path => f path a) init) := by
  induction k with
  | zero =>
    intro first hdepth hk
    have heq := (compare_eq hL hdepth).2 hk.symm
    refine ⟨[], rfl, fun A f fuel init hfuel => ?_⟩
    cases fuel with
    | zero => exact absurd hfuel (Nat.lt_irrefl 0)
    | succ fuel =>
      rw [Range.foldExl, heq]
      rfl
  | succ k ih =>
    intro first hdepth hk
    obtain ⟨first', hnext, hdepth', hnumber⟩ := next_before hL hdepth hk
    have hlt := (compare_lt hL hdepth).2 (by omega)
    obtain ⟨l, hl, hfold⟩ := ih first' (hdepth'.trans hdepth) (by omega)
    refine ⟨first :: l, ?_, fun A f fuel init hfuel => ?_⟩
    · rw [List.map_cons, hl, range_succ_words, hdepth', hnumber, ← bits_eq_word hL]
    · cases fuel with
      | zero => exact absurd hfuel (Nat.not_lt_zero _)
      | succ fuel =>
        rw [Range.foldExl]
        simp only [if_neg (not_lt.2 hlt.le), if_neg hlt.ne, hnext, Exn.valueExn_some, Exn.andThen_ok]
        exact hfold A f fuel (f first init) (Nat.lt_of_succ_lt_succ hfuel)

/-- The sequence of a range has the addresses up to the last. -/
theorem unfoldRange_eq (last : T) (k : Nat) : ∀ first : T, depth L first = depth L last →
    number (bits last) = number (bits first) + k →
    ∃ l : List T, l.map bits = ((List.range (k + 1)).map fun i => word (depth L first) (number (bits first) + i)) ∧
      ∀ fuel, k + 2 ≤ fuel → Range.unfoldRange L last fuel first false = some l := by
  induction k with
  | zero =>
    intro first hdepth hk
    have heq := (compare_eq hL hdepth).2 hk.symm
    refine ⟨[first], ?_, fun fuel hfuel => ?_⟩
    · rw [range_succ_words, ← bits_eq_word hL]
      rfl
    · obtain ⟨fuel, rfl⟩ : ∃ n, fuel = n + 1 + 1 := ⟨fuel - 2, by omega⟩
      rw [Range.unfoldRange, if_neg Bool.false_ne_true, if_pos heq]
      rfl
  | succ k ih =>
    intro first hdepth hk
    obtain ⟨first', hnext, hdepth', hnumber⟩ := next_before hL hdepth hk
    have hlt := (compare_lt hL hdepth).2 (by omega)
    obtain ⟨l, hl, hunfold⟩ := ih first' (hdepth'.trans hdepth) (by omega)
    refine ⟨first :: l, ?_, fun fuel hfuel => ?_⟩
    · rw [List.map_cons, hl, range_succ_words _ _ (k + 1), hdepth', hnumber, ← bits_eq_word hL]
    · obtain ⟨fuel, rfl⟩ : ∃ n, fuel = n + 1 := ⟨fuel - 1, by omega⟩
      rw [Range.unfoldRange, if_neg Bool.false_ne_true, if_neg hlt.ne, hnext]
      dsimp only
      rw [hunfold _ (by omega)]
      rfl

/-! ## Subtrees -/

theorem subtreeRange_eq {ledgerDepth : Nat} {address : T} (hdepth : depth L address ≤ ledgerDepth) :
    bits (Range.subtreeRange L ledgerDepth address).1
        = bits address ++ List.replicate (height L ledgerDepth address) false ∧
      bits (Range.subtreeRange L ledgerDepth address).2
        = bits address ++ List.replicate (height L ledgerDepth address) true ∧
      depth L (Range.subtreeRange L ledgerDepth address).1 = ledgerDepth ∧
      depth L (Range.subtreeRange L ledgerDepth address).2 = ledgerDepth := by
  have hfirst : bits (Range.subtreeRange L ledgerDepth address).1
      = bits address ++ List.replicate (height L ledgerDepth address) false := by
    rw [Range.subtreeRange, hL.concat, List.flatMap_cons, List.flatMap_cons, List.flatMap_nil, List.append_nil, hL.zeroes]
  have hlast : bits (Range.subtreeRange L ledgerDepth address).2
      = bits address ++ List.replicate (height L ledgerDepth address) true := by
    rw [Range.subtreeRange, hL.concat, List.flatMap_cons, List.flatMap_cons, List.flatMap_nil, List.append_nil, hL.ones]
  refine ⟨hfirst, hlast, ?_, ?_⟩
  · rw [depth_eq hL, hfirst, List.length_append, List.length_replicate, height, ← depth_eq hL]
    omega
  · rw [depth_eq hL, hlast, List.length_append, List.length_replicate, height, ← depth_eq hL]
    omega

/-- The words from the first leaf of a subtree on are its leaves. -/
theorem leavesUnder_of_words {ledgerDepth : Nat} {address : T} {l : List T} (hdepth : depth L address ≤ ledgerDepth)
    (hl : l.map bits = (List.range (2 ^ height L ledgerDepth address)).map fun i =>
      bits address ++ word (height L ledgerDepth address) i) : LeavesUnder L bits ledgerDepth address l where
  length := by rw [← List.length_map (f := bits), hl, List.length_map, List.length_range]
  mem m := by
    have hheight : (bits address).length + height L ledgerDepth address = ledgerDepth := by
      rw [height, depth_eq hL]
      rw [depth_eq hL] at hdepth
      omega
    rw [hl, List.mem_map]
    constructor
    · rintro ⟨i, -, rfl⟩
      exact ⟨by rw [List.length_append, length_word, hheight], List.prefix_append _ _⟩
    · rintro ⟨hm, t, rfl⟩
      have ht : t.length = height L ledgerDepth address := by
        rw [List.length_append] at hm
        omega
      exact ⟨number t, List.mem_range.2 (ht ▸ number_lt t), by rw [← ht, word_number]⟩
  increasing := by
    rw [hl, List.pairwise_map]
    refine List.pairwise_lt_range.imp_of_mem fun {i j} hi hj hij => ?_
    rw [number_append, number_append, length_word, length_word, number_word (List.mem_range.1 hi),
      number_word (List.mem_range.1 hj)]
    exact Nat.add_lt_add_left hij _

/-- The numbers of the leaves of a subtree, from the first. -/
theorem words_under {ledgerDepth : Nat} {address : T} (hdepth : depth L address ≤ ledgerDepth) :
    ((List.range (2 ^ height L ledgerDepth address)).map fun i =>
        word ledgerDepth (number (bits (Range.subtreeRange L ledgerDepth address).1) + i))
      = (List.range (2 ^ height L ledgerDepth address)).map fun i =>
        bits address ++ word (height L ledgerDepth address) i := by
  obtain ⟨hfirst, -, hlength, -⟩ := subtreeRange_eq hL hdepth
  refine List.map_congr_left fun i hi => ?_
  rw [depth_eq hL, hfirst, List.length_append, List.length_replicate] at hlength
  rw [← word_append _ (List.mem_range.1 hi), hlength, hfirst, number_append, number_zeros, List.length_replicate,
    Nat.add_zero]

/-- From the first leaf of a subtree to its last. -/
theorem subtree_distance {ledgerDepth : Nat} {address : T} (hdepth : depth L address ≤ ledgerDepth) :
    number (bits (Range.subtreeRange L ledgerDepth address).2)
      = number (bits (Range.subtreeRange L ledgerDepth address).1) + (2 ^ height L ledgerDepth address - 1) := by
  obtain ⟨hfirst, hlast, -⟩ := subtreeRange_eq hL hdepth
  rw [hfirst, hlast, number_append, number_append, number_zeros, number_ones, List.length_replicate,
    List.length_replicate]
  rfl

theorem subtreeRangeSeq_eq {ledgerDepth : Nat} {address : T} (hdepth : depth L address ≤ ledgerDepth) :
    ∃ l : List T, LeavesUnder L bits ledgerDepth address l ∧
      ∀ fuel, 2 ^ height L ledgerDepth address < fuel →
        Range.subtreeRangeSeq L fuel ledgerDepth address = some l := by
  have hpos := Nat.two_pow_pos (height L ledgerDepth address)
  obtain ⟨-, -, hfirst, hlast⟩ := subtreeRange_eq hL hdepth
  obtain ⟨l, hl, hunfold⟩ := unfoldRange_eq hL _ _ _ (hfirst.trans hlast.symm) (subtree_distance hL hdepth)
  rw [Nat.sub_add_cancel hpos, hfirst] at hl
  exact ⟨l, leavesUnder_of_words hL hdepth (hl.trans (words_under hL hdepth)),
    fun fuel hfuel => hunfold fuel (by omega)⟩

theorem fold_subtreeRange {ledgerDepth : Nat} {address : T} (hdepth : depth L address ≤ ledgerDepth) :
    ∃ l : List T, LeavesUnder L bits ledgerDepth address l ∧
      ∀ (A : Type) (f : T → A → A) (init : A) (fuel : Nat), 2 ^ height L ledgerDepth address ≤ fuel →
        Range.fold L .inclusive f fuel (Range.subtreeRange L ledgerDepth address) init
          = .ok (l.foldl (fun a path => f path a) init) := by
  have hpos := Nat.two_pow_pos (height L ledgerDepth address)
  obtain ⟨-, -, hfirst, hlast⟩ := subtreeRange_eq hL hdepth
  have hdistance := subtree_distance hL hdepth
  obtain ⟨l, hl, hfold⟩ := foldExl_eq hL _ _ _ (hfirst.trans hlast.symm) hdistance
  refine ⟨l ++ [(Range.subtreeRange L ledgerDepth address).2], leavesUnder_of_words hL hdepth ?_, ?_⟩
  · have hend : (List.range (2 ^ height L ledgerDepth address)) =
        List.range (2 ^ height L ledgerDepth address - 1) ++ [2 ^ height L ledgerDepth address - 1] := by
      rw [← List.range_succ, Nat.succ_eq_add_one, Nat.sub_add_cancel hpos]
    have hword := bits_eq_word hL (Range.subtreeRange L ledgerDepth address).2
    rw [hlast] at hword
    rw [← words_under hL hdepth, hend, List.map_append, List.map_append, hl, hfirst, List.map_singleton,
      List.map_singleton, ← hdistance, ← hword]
  · intro A f init fuel hfuel
    rw [Range.fold, hfirst, hlast, decide_eq_true rfl, Exn.assert_true]
    rw [Range.foldIncl, hfold A f fuel init (by omega), Exn.andThen_ok, List.foldl_append]
    rfl

/-! ## Binary numbers -/

omit hL in
/-- Addresses are the binary numbers of their bits. -/
structure BinaryNumbers (L : Bitstrings T) (bits : T → List Bool) : Prop where
  toInt : ∀ a, depth L a ≤ 62 → toInt L a = number (bits a)
  toInt_ofInt : ∀ (d n : Nat), d ≤ 61 → n < 2 ^ d → ∃ a, ofIntExn L d n = .ok a ∧ depth L a = d ∧ Address.toInt L a = n
  ofInt_toInt : ∀ a, depth L a ≤ 61 → ∃ b, ofIntExn L (depth L a) (Address.toInt L a) = .ok b ∧ bits b = bits a
  next : ∀ a b, next L a = some b → depth L b = depth L a ∧ number (bits b) = number (bits a) + 1
  next_last : ∀ a, Address.next L a = none ↔ number (bits a) + 1 = 2 ^ depth L a
  prev_next : ∀ a b, Address.next L a = some b → ∃ c, prev L b = some c ∧ bits c = bits a
  next_prev : ∀ a b, prev L a = some b → ∃ c, Address.next L b = some c ∧ bits c = bits a
  prev_first : ∀ a, prev L a = none ↔ number (bits a) = 0
  parent : ∀ a, depth L a ≠ 0 →
    ∃ b, parent L a = .ok b ∧ depth L b + 1 = depth L a ∧ number (bits b) = number (bits a) / 2
  child : ∀ a D dir, depth L a < D → ∃ b, child L D a dir = .ok b ∧ depth L b = depth L a + 1 ∧
    number (bits b) = 2 * number (bits a) + (Direction.toBool dir).toNat
  sibling : ∀ a, depth L a ≠ 0 → ∃ b, sibling L a = .ok b ∧ depth L b = depth L a ∧
    number (bits b) = if number (bits a) % 2 = 0 then number (bits a) + 1 else number (bits a) - 1
  dirsFromRoot : ∀ a, (dirsFromRoot L a).length = depth L a ∧ Addr.toInt (dirsFromRoot L a) = number (bits a)
  compare : ∀ a b, depth L a = depth L b →
    (L.compare a b < 0 ↔ number (bits a) < number (bits b)) ∧ (L.compare a b = 0 ↔ number (bits a) = number (bits b))
  fold : ∀ a D, depth L a ≤ D → ∃ l, LeavesUnder L bits D a l ∧
    ∀ (A : Type) (f : T → A → A) (init : A) (fuel : Nat), 2 ^ height L D a ≤ fuel →
      Range.fold L .inclusive f fuel (Range.subtreeRange L D a) init = .ok (l.foldl (fun acc path => f path acc) init)
  subtreeRangeSeq : ∀ a D, depth L a ≤ D → ∃ l, LeavesUnder L bits D a l ∧
    ∀ fuel, 2 ^ height L D a < fuel → Range.subtreeRangeSeq L fuel D a = some l

theorem toInt_ofIntExn {d n : Nat} (hd : d ≤ 61) (hn : n < 2 ^ d) :
    ∃ a, ofIntExn L d n = .ok a ∧ depth L a = d ∧ toInt L a = n := by
  obtain ⟨a, ha, hbits⟩ := ofIntExn_ok hL hd hn
  have hdepth : depth L a = d := by rw [depth_eq hL, hbits, length_word]
  exact ⟨a, ha, hdepth, by rw [toInt_eq hL (by omega), hbits, number_word hn]⟩

theorem ofIntExn_toInt {a : T} (ha : depth L a ≤ 61) :
    ∃ b, ofIntExn L (depth L a) (toInt L a) = .ok b ∧ bits b = bits a := by
  have hbound := number_lt (bits a)
  rw [← depth_eq hL] at hbound
  obtain ⟨b, hb, hbits⟩ := ofIntExn_ok hL ha hbound
  exact ⟨b, by rw [toInt_eq hL (by omega), hb], by rw [hbits, ← bits_eq_word hL]⟩

/-- An address below the root is a shorter one and a last bit. -/
theorem exists_snoc {a : T} (ha : depth L a ≠ 0) : ∃ l b, bits a = l ++ [b] ∧ depth L a = l.length + 1 := by
  rw [depth_eq hL] at ha ⊢
  rcases List.eq_nil_or_concat' (bits a) with hnil | ⟨l, b, hsnoc⟩
  · rw [hnil] at ha
    exact absurd rfl ha
  · exact ⟨l, b, hsnoc, by rw [hsnoc, List.length_append, List.length_singleton]⟩

theorem parent_number {a : T} (ha : depth L a ≠ 0) :
    ∃ b, parent L a = .ok b ∧ depth L b + 1 = depth L a ∧ number (bits b) = number (bits a) / 2 := by
  obtain ⟨l, x, hsnoc, hdepth⟩ := exists_snoc hL ha
  obtain ⟨b, hb, hbits⟩ := parent_ok hL ha
  rw [hsnoc, List.dropLast_concat] at hbits
  have hx := Bool.toNat_lt x
  exact ⟨b, hb, by rw [depth_eq hL, hbits, hdepth], by rw [hbits, hsnoc, number_snoc]; omega⟩

theorem child_number {a : T} {ledgerDepth : Nat} (ha : depth L a < ledgerDepth) (dir : SyncableLedger.Direction) :
    ∃ b, child L ledgerDepth a dir = .ok b ∧ depth L b = depth L a + 1 ∧
      number (bits b) = 2 * number (bits a) + (Direction.toBool dir).toNat := by
  obtain ⟨b, hb, hbits⟩ := child_ok hL ha dir
  refine ⟨b, hb, ?_, by rw [hbits, number_snoc]⟩
  rw [depth_eq hL, hbits, List.length_append, List.length_singleton, depth_eq hL]

theorem sibling_number {a : T} (ha : depth L a ≠ 0) :
    ∃ b, sibling L a = .ok b ∧ depth L b = depth L a ∧
      number (bits b) = if number (bits a) % 2 = 0 then number (bits a) + 1 else number (bits a) - 1 := by
  obtain ⟨l, x, hsnoc, hdepth⟩ := exists_snoc hL ha
  obtain ⟨b, hb, hbits⟩ := sibling_ok hL hsnoc
  refine ⟨b, hb, by rw [depth_eq hL, hbits, hdepth, List.length_append, List.length_singleton], ?_⟩
  rw [hbits, hsnoc, number_snoc, number_snoc]
  cases x with
  | false => rw [Bool.toNat_false, if_pos (by omega)]; rfl
  | true => rw [Bool.toNat_true, if_neg (by omega)]; rfl

/-- **Merkle addresses are binary numbers.** -/
theorem address_binary : BinaryNumbers L bits where
  toInt _ ha := toInt_eq hL ha
  toInt_ofInt _ _ hd hn := toInt_ofIntExn hL hd hn
  ofInt_toInt _ ha := ofIntExn_toInt hL ha
  next _ _ hb := next_number hL hb
  next_last _ := next_eq_none hL
  prev_next _ _ hb := prev_next hL hb
  next_prev _ _ hb := next_prev hL hb
  prev_first _ := prev_eq_none hL
  parent _ ha := parent_number hL ha
  child _ _ dir ha := child_number hL ha dir
  sibling _ ha := sibling_number hL ha
  dirsFromRoot a := by
    rw [dirsFromRoot_eq hL, List.length_map, depth_eq hL]
    exact ⟨rfl, toInt_ofBool _⟩
  compare _ _ hab := ⟨compare_lt hL hab, compare_eq hL hab⟩
  fold _ _ ha := fold_subtreeRange hL ha
  subtreeRangeSeq _ _ ha := subtreeRangeSeq_eq hL ha

end Address

theorem address_binary_plain : Address.BinaryNumbers plain id := Address.address_binary plain_documented

/-- At depth 62 zero is too large, and at depth 63 half of the numbers are
negative. -/
theorem address_too_deep :
    (¬ ∃ a, Address.ofIntExn plain 62 0 = .ok a ∧ Address.toInt plain a = 0) ∧
    Address.toInt plain (true :: List.replicate 62 false) = -(2 ^ 62) := by
  refine ⟨fun ⟨a, ha, _⟩ => ?_, by decide +kernel⟩
  rw [Address.ofIntExn, lsl_one_min, if_pos (by decide)] at ha
  cases ha

end Mina.Merkle
