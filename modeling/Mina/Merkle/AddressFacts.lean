/-
Merkle addresses are the binary numbers of their bits.

Each function is described by what it does to the bits (`toInt_eq`,
`ofIntExn_ok`, `next_some`, `parent_ok`, …), and what it does to the number
follows from the numbers of words. The walks over a range of addresses visit
the words from the first to the last in order (`foldExl_eq`, `unfoldRange_eq`).
-/
import Mina.Merkle.Address

namespace Mina.Merkle

open Binary
open SyncableLedger (Addr)

theorem int63_of_lt {n : Nat} (hn : n < 2 ^ 62) : int63 n = n := by
  refine Int.bmod_eq_of_le_mul_two ?_ ?_
  · exact le_trans (by norm_num) (mul_nonneg (Int.natCast_nonneg n) (by norm_num))
  · have hcast : (n : Int) < 2 ^ 62 := by exact_mod_cast hn
    norm_num
    linarith

theorem lsl_bit {b : Bool} {n : Nat} (hn : n < 62) : lsl b.toNat n = ((b.toNat * 2 ^ n : Nat) : Int) := by
  have hcast : (b.toNat : Int) * 2 ^ n = ((b.toNat * 2 ^ n : Nat) : Int) := by push_cast; rfl
  rw [lsl, hcast]
  refine int63_of_lt ?_
  calc b.toNat * 2 ^ n ≤ 1 * 2 ^ n := Nat.mul_le_mul_right _ (Nat.lt_succ_iff.1 (Bool.toNat_lt b))
    _ < 2 ^ 62 := by rw [Nat.one_mul]; exact Nat.pow_lt_pow_right (by decide) hn

theorem lsl_one {n : Nat} (hn : n < 62) : lsl 1 n = ((2 ^ n : Nat) : Int) := by
  have h := lsl_bit (b := true) hn
  rwa [Bool.toNat_true, Nat.one_mul] at h

theorem lsl_one_min : lsl 1 62 = -(2 ^ 62) := by decide

namespace Address

variable {T : Type} {L : Bitstrings T} {bits : T → List Bool} (hL : Documented L bits)
include hL

/-! ## Numbers -/

theorem depth_eq (path : T) : depth L path = (bits path).length := hL.length path

theorem get_ne_zero {path : T} {i : Nat} {b : Bool} (hb : (bits path)[i]? = some b) :
    (if L.get path i ≠ 0 then (1 : Int) else 0) = b.toNat := by
  rw [hL.get path i b hb]
  cases b <;> rfl

/-- The loop of `to_int` has the number of the last bits. -/
theorem toInt_loop (path : T) (hlen : (bits path).length ≤ 62) : ∀ n ≤ (bits path).length,
    (List.range n).foldl (fun acc i =>
      let index := depth L path - 1 - i
      int63 (acc + lsl (if L.get path index ≠ 0 then 1 else 0) i)) 0
        = number ((bits path).drop ((bits path).length - n)) := by
  intro n hn
  induction n with
  | zero => rw [Nat.sub_zero, List.drop_length]; rfl
  | succ n ih =>
    have hindex : (bits path).length - (n + 1) < (bits path).length := by omega
    have hnext : (bits path).length - (n + 1) + 1 = (bits path).length - n := by omega
    have hdepth : depth L path - 1 - n = (bits path).length - (n + 1) := by rw [depth_eq hL]; omega
    have hlength : ((bits path).drop ((bits path).length - n)).length = n := by rw [List.length_drop]; omega
    rw [List.range_succ, List.foldl_append, List.foldl_cons, List.foldl_nil, ih (by omega)]
    simp only [hdepth]
    rw [get_ne_zero hL (List.getElem?_eq_getElem hindex), lsl_bit (by omega), ← Nat.cast_add,
      List.drop_eq_getElem_cons hindex, hnext, number_cons, hlength, Nat.add_comm]
    refine int63_of_lt ?_
    have hbound := number_lt ((bits path).drop ((bits path).length - (n + 1)))
    rw [List.drop_eq_getElem_cons hindex, hnext, number_cons, List.length_cons, hlength] at hbound
    exact lt_of_lt_of_le hbound (Nat.pow_le_pow_right (by decide) (by omega))

theorem toInt_eq {path : T} (hlen : depth L path ≤ 62) : toInt L path = number (bits path) := by
  have hloop := toInt_loop hL path (depth_eq hL path ▸ hlen) _ le_rfl
  rw [Nat.sub_self, List.drop_zero] at hloop
  rw [← hloop, toInt, depth_eq hL]

theorem put_word (buf : T) {pos k : Nat} (hpos : pos < (bits buf).length) :
    bits (L.put buf pos ((k : Int) % 2)) = (bits buf).set pos (decide (k % 2 = 1)) := by
  rw [hL.put buf pos _ hpos]
  congr 1
  exact decide_eq_decide.2 (by omega)

theorem putBits_eq : ∀ (pos : Nat) (buf : T) (k : Nat), pos ≤ (bits buf).length →
    bits (putBits L buf k pos) = word pos k ++ (bits buf).drop pos
  | 0, _, _, _ => rfl
  | pos + 1, buf, k, hpos => by
    have hlength : ((bits buf).set pos (decide (k % 2 = 1))).length = (bits buf).length := List.length_set
    have hhalf : (k : Int).tdiv 2 = ((k / 2 : Nat) : Int) := rfl
    have hput := put_word hL buf (k := k) hpos
    rw [putBits, hhalf, putBits_eq pos _ _ (by rw [hput, hlength]; omega), hput, word, List.append_assoc,
      List.drop_eq_getElem_cons (by rw [hlength]; omega), List.getElem_set_self, List.drop_set_of_lt (Nat.lt_succ_self pos)]
    rfl

/-- `of_int_exn` of a number in range. -/
theorem ofIntExn_ok {d k : Nat} (hd : d ≤ 61) (hk : k < 2 ^ d) :
    ∃ path, ofIntExn L d k = .ok path ∧ bits path = word d k := by
  refine ⟨putBits L (L.createBitstring d) k d, ?_, ?_⟩
  · rw [ofIntExn, lsl_one (by omega), if_neg (by exact_mod_cast not_le.2 hk)]
  · have hlength : (bits (L.createBitstring d)).length = d := by rw [hL.create, List.length_replicate]
    rw [putBits_eq hL d _ _ (le_of_eq hlength.symm), List.drop_of_length_le (le_of_eq hlength), List.append_nil]

/-! ## Neighbours -/

omit hL in
theorem findRightmost_some {test : Nat → Bool} {l : List Bool} {x : Bool} :
    ∀ {n i : Nat}, n ≤ l.length → (∀ i b, l[i]? = some b → test i = decide (b = x)) →
      findRightmost test n = some i →
      i < n ∧ l.take n = l.take i ++ x :: List.replicate (n - (i + 1)) (!x)
  | 0, _, _, _, h => nomatch h
  | n + 1, i, hn, htest, h => by
    have hget := htest n _ (List.getElem?_eq_getElem (by omega))
    rw [findRightmost] at h
    rw [List.take_succ_eq_append_getElem (by omega)]
    split at h
    next htrue =>
      obtain rfl := Option.some.inj h
      have hx : l[n] = x := of_decide_eq_true (hget.symm.trans htrue)
      rw [hx, Nat.sub_self, List.replicate_zero]
      exact ⟨Nat.lt_succ_self n, rfl⟩
    next hfalse =>
      have hx : l[n] = !x := Bool.eq_not.2 fun hx => hfalse (hget.trans (decide_eq_true hx))
      obtain ⟨hi, htake⟩ := findRightmost_some (by omega) htest h
      have hcount : n + 1 - (i + 1) = n - (i + 1) + 1 := by omega
      rw [htake, hx, hcount, List.replicate_succ', List.append_assoc, List.cons_append]
      exact ⟨by omega, rfl⟩

omit hL in
theorem findRightmost_none {test : Nat → Bool} {l : List Bool} {x : Bool} :
    ∀ {n : Nat}, n ≤ l.length → (∀ i b, l[i]? = some b → test i = decide (b = x)) →
      findRightmost test n = none → l.take n = List.replicate n (!x)
  | 0, _, _, _ => List.take_zero
  | n + 1, hn, htest, h => by
    have hget := htest n _ (List.getElem?_eq_getElem (by omega))
    rw [findRightmost] at h
    split at h
    next => cases h
    next hfalse =>
      have hx : l[n] = !x := Bool.eq_not.2 fun hx => hfalse (hget.trans (decide_eq_true hx))
      rw [List.take_succ_eq_append_getElem (by omega), findRightmost_none (by omega) htest h, hx, List.replicate_succ']

omit hL in
/-- Writing `x` from an index to the end. -/
theorem writeBits_eq {write : T → Nat → T} {x : Bool}
    (hwrite : ∀ b i, i < (bits b).length → bits (write b i) = (bits b).set i x) :
    ∀ (n i : Nat) (path : T), i + n = (bits path).length →
      bits (writeBits write path n i) = (bits path).take i ++ List.replicate n x
  | 0, i, path, hi => by rw [writeBits, List.replicate_zero, List.append_nil, List.take_of_length_le (by omega)]
  | n + 1, i, path, hi => by
    have hlt : i < (bits path).length := by omega
    have hlength : (bits (write path i)).length = (bits path).length := by rw [hwrite _ _ hlt, List.length_set]
    rw [writeBits, writeBits_eq hwrite n (i + 1) _ (by omega), hwrite _ _ hlt,
      List.take_succ_eq_append_getElem (by rw [List.length_set]; exact hlt), List.getElem_set_self,
      List.take_set_of_le le_rfl, List.replicate_succ, List.append_assoc, List.singleton_append]

omit hL in
/-- Setting the last bit that is `x` and writing `x` behind it. -/
theorem turn_eq {write fill : T → Nat → T} {x : Bool} {path : T} {l : List Bool} {n : Nat}
    (hset : ∀ b i, i < (bits b).length → bits (write b i) = (bits b).set i (!x))
    (hfill : ∀ b i, i < (bits b).length → bits (fill b i) = (bits b).set i x)
    (hpath : bits path = l ++ x :: List.replicate n (!x)) :
    bits (writeBits fill (write path l.length) n (l.length + 1)) = l ++ (!x) :: List.replicate n x := by
  have hlength : (bits path).length = l.length + 1 + n := by
    rw [hpath, List.length_append, List.length_cons, List.length_replicate]
    omega
  have hwritten : bits (write path l.length) = l ++ (!x) :: List.replicate n (!x) := by
    rw [hset _ _ (by omega), hpath, List.set_append_right _ _ le_rfl, Nat.sub_self, List.set_cons_zero]
  rw [writeBits_eq hfill n _ _ (by rw [hset _ _ (by omega), List.length_set, hlength]), hwritten,
    List.take_length_add_append, List.take_succ_cons, List.take_zero, List.append_assoc]
  rfl

theorem isClear_eq {path : T} (i : Nat) (b : Bool) (hb : (bits path)[i]? = some b) :
    L.isClear path i = decide (b = false) := by
  rw [hL.isClear path i b hb]
  cases b <;> rfl

theorem isSet_eq {path : T} (i : Nat) (b : Bool) (hb : (bits path)[i]? = some b) :
    L.isSet path i = decide (b = true) := by
  rw [hL.isSet path i b hb]
  cases b <;> rfl

omit hL in
/-- Turning the last bit that is `x` and those behind it. -/
theorem turnLast_some {test : Nat → Bool} {write fill : T → Nat → T} {x : Bool} {path p : T}
    (htest : ∀ i b, (bits path)[i]? = some b → test i = decide (b = x))
    (hset : ∀ b i, i < (bits b).length → bits (write b i) = (bits b).set i (!x))
    (hfill : ∀ b i, i < (bits b).length → bits (fill b i) = (bits b).set i x)
    (h : (findRightmost test (bits path).length).map (fun i =>
      writeBits fill (write path i) ((bits path).length - (i + 1)) (i + 1)) = some p) :
    ∃ l n, bits path = l ++ x :: List.replicate n (!x) ∧ bits p = l ++ (!x) :: List.replicate n x := by
  obtain ⟨i, hfind, rfl⟩ := Option.map_eq_some_iff.1 h
  obtain ⟨hi, hbits⟩ := findRightmost_some le_rfl htest hfind
  have hlength : ((bits path).take i).length = i := by rw [List.length_take]; omega
  rw [List.take_length] at hbits
  have hturn := turn_eq hset hfill hbits
  rw [hlength] at hturn
  exact ⟨_, _, hbits, hturn⟩

omit hL in
theorem turnLast_none {test : Nat → Bool} {turn : Nat → T} {x : Bool} {path : T}
    (htest : ∀ i b, (bits path)[i]? = some b → test i = decide (b = x))
    (h : (findRightmost test (bits path).length).map turn = none) :
    bits path = List.replicate (bits path).length (!x) := by
  have hbits := findRightmost_none le_rfl htest (Option.map_eq_none_iff.1 h)
  rwa [List.take_length] at hbits

/-- `next` turns the last zero and the ones behind it. -/
theorem next_some {path p : T} (h : next L path = some p) : ∃ l n,
    bits path = l ++ false :: List.replicate n true ∧ bits p = l ++ true :: List.replicate n false := by
  simp only [next, findRightmostClearBit, clearBits, depth_eq hL] at h
  rw [← hL.copy path]
  exact turnLast_some (isClear_eq hL) hL.set hL.clear h

theorem next_none {path : T} (h : next L path = none) :
    bits path = List.replicate (bits path).length true := by
  simp only [next, findRightmostClearBit, depth_eq hL] at h
  rw [← hL.copy path]
  exact turnLast_none (isClear_eq hL) h

/-- `prev` turns the last one and the zeros behind it. -/
theorem prev_some {path p : T} (h : prev L path = some p) : ∃ l n,
    bits path = l ++ true :: List.replicate n false ∧ bits p = l ++ false :: List.replicate n true := by
  simp only [prev, findRightmostOneBit, setBits, depth_eq hL] at h
  rw [← hL.copy path]
  exact turnLast_some (isSet_eq hL) hL.clear hL.set h

theorem prev_none {path : T} (h : prev L path = none) :
    bits path = List.replicate (bits path).length false := by
  simp only [prev, findRightmostOneBit, depth_eq hL] at h
  rw [← hL.copy path]
  exact turnLast_none (isSet_eq hL) h

theorem next_number {path p : T} (h : next L path = some p) :
    depth L p = depth L path ∧ number (bits p) = number (bits path) + 1 := by
  obtain ⟨l, n, hpath, hp⟩ := next_some hL h
  rw [depth_eq hL, depth_eq hL, hpath, hp]
  refine ⟨?_, number_carry l n⟩
  simp only [List.length_append, List.length_cons, List.length_replicate]

theorem prev_number {path p : T} (h : prev L path = some p) :
    depth L p = depth L path ∧ number (bits p) + 1 = number (bits path) := by
  obtain ⟨l, n, hpath, hp⟩ := prev_some hL h
  rw [depth_eq hL, depth_eq hL, hpath, hp]
  refine ⟨?_, (number_carry l n).symm⟩
  simp only [List.length_append, List.length_cons, List.length_replicate]

/-- Only the last address has no next one. -/
theorem next_eq_none {path : T} : next L path = none ↔ number (bits path) + 1 = 2 ^ depth L path := by
  constructor
  · intro h
    have hpos := Nat.two_pow_pos (bits path).length
    have hnumber := congrArg number (next_none hL h)
    rw [number_ones] at hnumber
    rw [depth_eq hL]
    omega
  · intro hlast
    cases h : next L path with
    | none => rfl
    | some p =>
      obtain ⟨hdepth, hnumber⟩ := next_number hL h
      have hbound := number_lt (bits p)
      rw [← depth_eq hL, hdepth] at hbound
      omega

/-- Only the first address has no previous one. -/
theorem prev_eq_none {path : T} : prev L path = none ↔ number (bits path) = 0 := by
  constructor
  · intro h
    have hnumber := congrArg number (prev_none hL h)
    rwa [number_zeros] at hnumber
  · intro hfirst
    cases h : prev L path with
    | none => rfl
    | some p =>
      obtain ⟨-, hnumber⟩ := prev_number hL h
      omega

theorem eq_of_number {p q : T} (hdepth : depth L p = depth L q) (hnumber : number (bits p) = number (bits q)) :
    bits p = bits q := number_inj (by rwa [depth_eq hL, depth_eq hL] at hdepth) hnumber

theorem prev_next {path p : T} (h : next L path = some p) : ∃ q, prev L p = some q ∧ bits q = bits path := by
  obtain ⟨hdepth, hnumber⟩ := next_number hL h
  have hsome : prev L p ≠ none := fun hnone => by
    have hzero := (prev_eq_none hL).1 hnone
    omega
  obtain ⟨q, hq⟩ := Option.ne_none_iff_exists'.1 hsome
  obtain ⟨hdepth', hnumber'⟩ := prev_number hL hq
  exact ⟨q, hq, eq_of_number hL (hdepth'.trans hdepth) (by omega)⟩

theorem next_prev {path p : T} (h : prev L path = some p) : ∃ q, next L p = some q ∧ bits q = bits path := by
  obtain ⟨hdepth, hnumber⟩ := prev_number hL h
  have hsome : next L p ≠ none := fun hnone => by
    have hlast := (next_eq_none hL).1 hnone
    have hbound := number_lt (bits path)
    rw [hdepth] at hlast
    rw [← depth_eq hL] at hbound
    omega
  obtain ⟨q, hq⟩ := Option.ne_none_iff_exists'.1 hsome
  obtain ⟨hdepth', hnumber'⟩ := next_number hL hq
  exact ⟨q, hq, eq_of_number hL (hdepth'.trans hdepth) (by omega)⟩

/-! ## Parents and children -/

theorem parent_ok {path : T} (hpath : depth L path ≠ 0) :
    ∃ p, parent L path = .ok p ∧ bits p = (bits path).dropLast := by
  refine ⟨_, if_neg hpath, ?_⟩
  have hdepth := depth_eq hL path
  rw [slice, hL.sub _ _ _ (by rw [hL.length]; omega), hL.length, List.drop_zero, List.dropLast_eq_take]

theorem child_ok {ledgerDepth : Nat} {path : T} (hpath : depth L path < ledgerDepth) (dir : SyncableLedger.Direction) :
    ∃ c, child L ledgerDepth path dir = .ok c ∧ bits c = bits path ++ [Direction.toBool dir] :=
  ⟨_, if_neg fun hleaf => absurd (of_decide_eq_true hleaf) (not_le.2 hpath), hL.snoc _ _⟩

theorem sibling_ok {path : T} {l : List Bool} {b : Bool} (hpath : bits path = l ++ [b]) :
    ∃ s, sibling L path = .ok s ∧ bits s = l ++ [!b] := by
  have hcopy := (hL.copy path).trans hpath
  have hdepth : depth L (L.copy path) = l.length + 1 := by rw [depth_eq hL, hcopy, List.length_append, List.length_singleton]
  have hget : (bits (L.copy path))[l.length]? = some b := by rw [hcopy, List.getElem?_concat_length]
  refine ⟨_, if_neg (by omega), ?_⟩
  simp only [hdepth, Nat.add_sub_cancel]
  rw [hL.put _ _ _ (by rw [hcopy, List.length_append, List.length_singleton]; omega), hL.get _ _ _ hget, hcopy,
    List.set_append_right _ _ le_rfl, Nat.sub_self, List.set_cons_zero]
  cases b <;> rfl

/-- The directions are the bits. -/
theorem dirsFromRoot_eq (path : T) : dirsFromRoot L path = (bits path).map Direction.ofBool := by
  refine List.ext_getElem ?_ ?_
  · rw [dirsFromRoot, List.length_map, List.length_map, List.length_range, depth_eq hL]
  · intro i hi hi'
    rw [List.length_map] at hi'
    simp only [dirsFromRoot, List.getElem_map, List.getElem_range]
    rw [hL.isSet path i _ (List.getElem?_eq_getElem hi')]

omit hL in
theorem toInt_ofBool (l : List Bool) : Addr.toInt (l.map Direction.ofBool) = number l := by
  rw [Addr.toInt, List.foldl_map, number]
  congr 1
  funext acc b
  cases b <;> rfl

end Address

end Mina.Merkle
