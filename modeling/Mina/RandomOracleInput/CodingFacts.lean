/-
The coding of an input, byte by byte.

A string that is accepted is laid out as a number of fields, the fields, a
number of bits and bytes (`deserialize_ok_iff`), and an input of fields of 255
bits is written that way (`serialize_ok`). So an input is read back
(`deserialize_serialize`), and a string that is accepted is written back if
its fields and its bits end as they should (`serialize_deserialize_iff`).
-/
import Mina.Base.Binary
import Mina.RandomOracleInput.Coding
import Mina.RandomOracleInput.Packing

namespace Mina.RandomOracleInput.Coding

open Binary (number word)

/-! ## Bytes -/

/-- Zeros up to eight bits. -/
def pad (bs : List Bool) : List Bool := bs ++ List.replicate (8 - bs.length) false

def byteOf (n : Nat) : Byte := ⟨n % 256, Nat.mod_lt n (by decide)⟩

def toByte (bs : List Bool) : Byte := byteOf (number (pad bs))

def byteBits (b : Byte) : List Bool := word 8 b.val

def bytesBits (bytes : List Byte) : List Bool := bytes.flatMap byteBits

theorem length_pad {bs : List Bool} (h : bs.length ≤ 8) : (pad bs).length = 8 := by
  rw [pad, List.length_append, List.length_replicate]
  omega

theorem number_pad_lt {bs : List Bool} (h : bs.length ≤ 8) : number (pad bs) < 256 := by
  have hlt := Binary.number_lt (pad bs)
  rwa [length_pad h] at hlt

theorem toByte_val {bs : List Bool} (h : bs.length ≤ 8) : (toByte bs).val = number (pad bs) :=
  Nat.mod_eq_of_lt (number_pad_lt h)

theorem byteBits_toByte {bs : List Bool} (h : bs.length ≤ 8) : byteBits (toByte bs) = pad bs := by
  rw [byteBits, toByte_val h, ← length_pad h, Binary.word_number]

theorem length_byteBits (b : Byte) : (byteBits b).length = 8 := Binary.length_word _ _

theorem length_bytesBits (bytes : List Byte) : (bytesBits bytes).length = 8 * bytes.length := by
  induction bytes with
  | nil => rfl
  | cons b bytes ih =>
    rw [bytesBits, List.flatMap_cons, List.length_append, length_byteBits, List.length_cons]
    rw [bytesBits] at ih
    omega

theorem bytesBits_inj : ∀ {l m : List Byte}, bytesBits l = bytesBits m → l = m
  | [], [], _ => rfl
  | [], b :: m, h => by
    have hlen := congrArg List.length h
    rw [length_bytesBits, length_bytesBits] at hlen
    cases hlen
  | b :: l, [], h => by
    have hlen := congrArg List.length h
    rw [length_bytesBits, length_bytesBits] at hlen
    cases hlen
  | b :: l, c :: m, h => by
    rw [bytesBits, bytesBits, List.flatMap_cons, List.flatMap_cons] at h
    obtain ⟨hbyte, hrest⟩ := List.append_inj h (by rw [length_byteBits, length_byteBits])
    have hnumber := congrArg number hbyte
    rw [byteBits, byteBits, Binary.number_word b.isLt, Binary.number_word c.isLt] at hnumber
    rw [Fin.ext hnumber, bytesBits_inj hrest]

/-- The bytes of bits, eight bits in each. -/
def toBytes (bs : List Bool) : List Byte := (chunks 8 bs).map toByte

/-- The bits of the bytes of bits, with zeros at the end. -/
theorem bytesBits_toBytes (bs : List Bool) :
    ∃ k, k < 8 ∧ bytesBits (toBytes bs) = bs ++ List.replicate k false := by
  obtain ⟨cs, rest, rfl, hfull, hrest⟩ := exists_chunks (by decide : 0 < 8) bs
  have hcs : bytesBits (cs.map toByte) = cs.flatten := by
    rw [bytesBits, List.flatMap_map, List.flatten_eq_flatMap]
    refine List.flatMap_congr fun c hc => ?_
    rw [byteBits_toByte (hfull c hc).le, pad, hfull c hc, Nat.sub_self, List.replicate_zero, List.append_nil]
    rfl
  rw [toBytes, chunks_unique (by decide) hrest hfull, List.map_append, bytesBits, List.flatMap_append]
  rw [bytesBits] at hcs
  rw [hcs]
  by_cases hnil : rest = []
  · refine ⟨0, by decide, ?_⟩
    rw [if_pos hnil, hnil, List.append_nil]
    rfl
  · have hpos := List.length_pos_iff.2 hnil
    refine ⟨8 - rest.length, by omega, ?_⟩
    rw [if_neg hnil, List.map_singleton, List.flatMap_singleton, byteBits_toByte hrest.le, pad, List.append_assoc]

theorem length_toBytes (bs : List Bool) : 8 * (toBytes bs).length < bs.length + 8 ∧
    bs.length ≤ 8 * (toBytes bs).length := by
  obtain ⟨k, hk, heq⟩ := bytesBits_toBytes bs
  have hlen := congrArg List.length heq
  rw [length_bytesBits, List.length_append, List.length_replicate] at hlen
  omega

/-- The bytes of the first bits are the bytes that the bits are of, if only
zeros are left out and fewer than a byte of them. -/
theorem toBytes_take_iff {bytes : List Byte} {n : Nat} (hn : n ≤ 8 * bytes.length) :
    toBytes ((bytesBits bytes).take n) = bytes ↔
      8 * bytes.length < n + 8 ∧ ∀ b ∈ (bytesBits bytes).drop n, b = false := by
  obtain ⟨k, hk, heq⟩ := bytesBits_toBytes ((bytesBits bytes).take n)
  have hlen : ((bytesBits bytes).take n).length = n := by rw [List.length_take, length_bytesBits, Nat.min_eq_left hn]
  have hdrop : ((bytesBits bytes).drop n).length = 8 * bytes.length - n := by rw [List.length_drop, length_bytesBits]
  constructor
  · intro hbytes
    rw [hbytes] at heq
    have hrest : (bytesBits bytes).drop n = List.replicate k false := by
      have hsplit : (bytesBits bytes).take n ++ (bytesBits bytes).drop n =
          (bytesBits bytes).take n ++ List.replicate k false := by rw [List.take_append_drop, ← heq]
      exact List.append_cancel_left hsplit
    have hk' := congrArg List.length hrest
    rw [hdrop, List.length_replicate] at hk'
    refine ⟨by omega, fun b hb => ?_⟩
    rw [hrest] at hb
    exact List.eq_of_mem_replicate hb
  · rintro ⟨hlt, hzeros⟩
    have hrest : (bytesBits bytes).drop n = List.replicate (8 * bytes.length - n) false :=
      List.eq_replicate_iff.2 ⟨hdrop, hzeros⟩
    have hcount := congrArg List.length heq
    rw [length_bytesBits, List.length_append, hlen, List.length_replicate] at hcount
    have hsame : k = 8 * bytes.length - n := by omega
    refine bytesBits_inj ?_
    rw [heq, hsame, ← hrest, List.take_append_drop]

/-! ## Writing -/

theorem mapList_eq_map {α β : Type} {f : α → Exn β} {g : α → β} {l : List α} (h : ∀ a ∈ l, f a = .ok (g a)) :
    Exn.mapList f l = .ok (l.map g) :=
  Exn.mapList_eq_ok.2 (List.forall₂_map_right_iff.2 (List.forall₂_same.2 h))

theorem numberOf_id : ∀ (acc : Nat) (bs : List Bool), numberOf id acc bs = acc * 2 ^ bs.length + number bs
  | acc, [] => by
    rw [numberOf, List.length_nil, Nat.pow_zero, Nat.mul_one]
    rfl
  | acc, b :: bs => by
    rw [numberOf, numberOf_id, Binary.number_cons, List.length_cons, Nat.pow_succ]
    cases b <;> simp <;> ring

theorem packByte_eq {bs : List Bool} (h : bs.length ≤ 8) : packByte id id bs = .ok (number (pad bs)) := by
  have hcombined : bs ++ List.replicate (8 - bs.length) (id false) = pad bs := rfl
  rw [packByte, hcombined, Exn.assert, if_pos (decide_eq_true (length_pad h)), numberOf_id, Nat.zero_mul, Nat.zero_add]

theorem ofIntExn_number {bs : List Bool} (h : bs.length ≤ 8) : ofIntExn (number (pad bs)) = .ok (toByte bs) := by
  rw [ofIntExn, dif_pos (number_pad_lt h)]
  exact congrArg Except.ok (Fin.ext (toByte_val h).symm)

theorem packedBytes_eq {F : Type} (t : RandomOracleInput F Bool) : packedBytes id id t = .ok (toBytes t.bits) := by
  have hpacked : Exn.mapList id (packBits 8 (packByte id id) t) =
      .ok (((chunks 8 t.bits).reverse).map fun bs => number (pad bs)) := by
    rw [packBits_eq (by decide), ← List.map_reverse]
    refine Exn.mapList_eq_ok.2 (List.forall₂_map_left_iff.2 (List.forall₂_map_right_iff.2 ?_))
    refine List.forall₂_same.2 fun bs hbs => ?_
    exact packByte_eq (length_of_mem_chunks (by decide) (List.mem_reverse.1 hbs)).2
  have hbytes : Exn.mapList ofIntExn (((chunks 8 t.bits).reverse).map fun bs => number (pad bs)) =
      .ok ((chunks 8 t.bits).reverse.map toByte) := by
    refine Exn.mapList_eq_ok.2 (List.forall₂_map_left_iff.2 (List.forall₂_map_right_iff.2 ?_))
    refine List.forall₂_same.2 fun bs hbs => ?_
    exact ofIntExn_number (length_of_mem_chunks (by decide) (List.mem_reverse.1 hbs)).2
  rw [packedBytes, hpacked, Exn.andThen_ok, hbytes, Exn.andThen_ok, List.map_reverse, List.reverse_reverse, toBytes]

theorem stringOfField_eq (xs : List Bool) : stringOfField xs = .ok (toBytes xs) := by
  have hpacked : Exn.mapList (packByte id id) (chunks 8 xs) = .ok ((chunks 8 xs).map fun bs => number (pad bs)) :=
    mapList_eq_map fun bs hbs => packByte_eq (length_of_mem_chunks (by decide) hbs).2
  rw [stringOfField, hpacked, Exn.andThen_ok, toBytes]
  refine Exn.mapList_eq_ok.2 (List.forall₂_map_left_iff.2 (List.forall₂_map_right_iff.2 ?_))
  exact List.forall₂_same.2 fun bs hbs => ofIntExn_number (length_of_mem_chunks (by decide) hbs).2

/-- The four bytes of a length. -/
def wordBytes (x : Nat) : List Byte :=
  [byteOf (x / 2 ^ 24), byteOf (x / 2 ^ 16), byteOf (x / 2 ^ 8), byteOf x]

theorem ofIntExn_land (x : Nat) : ofIntExn (x &&& 0xff) = .ok (byteOf x) := by
  have hmod : x &&& 0xff = x % 256 := Nat.and_two_pow_sub_one_eq_mod x 8
  rw [hmod, ofIntExn, dif_pos (Nat.mod_lt x (by decide))]
  rfl

theorem lenToString_eq (x : Nat) : lenToString x = .ok (wordBytes x) := by
  simp only [lenToString, Exn.mapList, ofIntExn_land, Exn.andThen_ok, Nat.shiftRight_eq_div_pow, wordBytes]

theorem length_bits {F : Type} (t : RandomOracleInput F Bool) : (t.bitstrings.map List.length).sum = t.bits.length := by
  rw [bits, List.length_flatten]

theorem checkFields_ok {F : Type} {string : F → Exn (List Byte)} {bytes : F → List Byte} {fields : List F}
    (hstring : ∀ x ∈ fields, string x = .ok (bytes x)) (hfields : ∀ x ∈ fields, (bytes x).length = 32) :
    checkFields string fields = .ok () := by
  cases fields with
  | nil => rfl
  | cons x xs =>
    have hlen := hfields x List.mem_cons_self
    rw [checkFields, hstring x List.mem_cons_self, Exn.andThen_ok, Exn.assert, if_pos (decide_eq_true hlen)]

/-- An input of fields of 32 bytes is written as its lengths, its fields and
its bits. -/
theorem serialize_ok {F : Type} {string : F → Exn (List Byte)} {bytes : F → List Byte} {t : RandomOracleInput F Bool}
    (hstring : ∀ x ∈ t.fieldElements, string x = .ok (bytes x))
    (hfields : ∀ x ∈ t.fieldElements, (bytes x).length = 32) :
    serialize string id id t = .ok (wordBytes t.fieldElements.length ++ (t.fieldElements.map bytes).flatten ++
      wordBytes t.bits.length ++ toBytes t.bits) := by
  rw [serialize, lenToString_eq, Exn.andThen_ok, checkFields_ok hstring hfields, Exn.andThen_ok,
    mapList_eq_map hstring, Exn.andThen_ok, lenToString_eq, Exn.andThen_ok, packedBytes_eq, Exn.andThen_ok, length_bits]

/-! ## Reading -/

theorem mapResult_eq_map {α β ε : Type} {f : α → Except ε β} {g : α → β} (h : ∀ a, f a = .ok (g a)) :
    ∀ l : List α, mapResult f l = .ok (l.map g)
  | [] => rfl
  | a :: l => by rw [mapResult, h a, mapResult_eq_map h l, List.map_cons]

theorem bitsOfByte_eq (b : Byte) : bitsOfByte id b = .ok (byteBits b) := by
  revert b
  decide +kernel

theorem bitsOfBytes_eq (bytes : List Byte) : bitsOfBytes id bytes = .ok (bytesBits bytes) := by
  rw [bitsOfBytes, mapResult_eq_map bitsOfByte_eq, bytesBits, List.flatMap_def]

theorem lor_bytes {a b c d : Nat} (hb : b < 256) (hc : c < 256) (hd : d < 256) :
    a <<< 24 ||| b <<< 16 ||| c <<< 8 ||| d = ((a * 256 + b) * 256 + c) * 256 + d := by
  have hab : a <<< 24 ||| b <<< 16 = (a * 256 + b) <<< 16 := by
    rw [← Nat.shiftLeft_add_eq_or_of_lt (by rw [Nat.shiftLeft_eq]; omega)]
    simp only [Nat.shiftLeft_eq]
    omega
  have habc : (a * 256 + b) <<< 16 ||| c <<< 8 = ((a * 256 + b) * 256 + c) <<< 8 := by
    rw [← Nat.shiftLeft_add_eq_or_of_lt (by rw [Nat.shiftLeft_eq]; omega)]
    simp only [Nat.shiftLeft_eq]
    omega
  rw [hab, habc, ← Nat.shiftLeft_add_eq_or_of_lt hd, Nat.shiftLeft_eq]

theorem u32_cons (a b c d : Byte) (cs : List Byte) :
    Parser.u32 (a :: b :: c :: d :: cs) = .ok (((a.val * 256 + b.val) * 256 + c.val) * 256 + d.val, cs) := by
  rw [← lor_bytes b.isLt c.isLt d.isLt]
  rfl

theorem u32_wordBytes {x : Nat} (hx : x < 2 ^ 32) (cs : List Byte) : Parser.u32 (wordBytes x ++ cs) = .ok (x, cs) := by
  have hval : ∀ n : Nat, (byteOf n).val = n % 256 := fun _ => rfl
  show Parser.u32 (_ :: _ :: _ :: _ :: cs) = _
  rw [u32_cons, hval, hval, hval, hval]
  congr 2
  omega

theorem u32_eq_ok {cs rest : List Byte} {x : Nat} (h : Parser.u32 cs = .ok (x, rest)) :
    x < 2 ^ 32 ∧ cs = wordBytes x ++ rest := by
  match cs, h with
  | a :: b :: c :: d :: cs, h =>
    rw [u32_cons] at h
    obtain ⟨rfl, rfl⟩ := Prod.mk.inj (Except.ok.inj h)
    have ha := a.isLt
    have hb := b.isLt
    have hc := c.isLt
    have hd := d.isLt
    refine ⟨by omega, ?_⟩
    have hword : wordBytes (((a.val * 256 + b.val) * 256 + c.val) * 256 + d.val) = [a, b, c, d] := by
      have hof : ∀ {n : Nat} {e : Byte}, n % 256 = e.val → byteOf n = e := fun heq => Fin.ext heq
      rw [wordBytes, hof (e := a) (by omega), hof (e := b) (by omega), hof (e := c) (by omega), hof (e := d) (by omega)]
    rw [hword]
    rfl

theorem wordBytes_inj {x y : Nat} (hx : x < 2 ^ 32) (hy : y < 2 ^ 32) (h : wordBytes x = wordBytes y) : x = y := by
  have hread := u32_wordBytes hx []
  rw [h, u32_wordBytes hy] at hread
  exact (Prod.mk.inj (Except.ok.inj hread)).1.symm

theorem manyGo_u8 : ∀ (cs acc : List Byte), Parser.manyGo Parser.u8 cs.length cs acc = (cs.reverse ++ acc, [])
  | [], acc => rfl
  | c :: cs, acc => by
    rw [List.length_cons, Parser.manyGo, Parser.u8]
    dsimp only
    rw [manyGo_u8 cs (c :: acc), List.reverse_cons, List.append_assoc, List.singleton_append]

theorem many_u8 (cs : List Byte) : Parser.many Parser.u8 cs = .ok (cs, []) := by
  rw [Parser.many, manyGo_u8]
  dsimp only
  rw [List.append_nil, List.reverse_reverse]

section

variable {F : Type} {fieldOfString : List Byte → Except ParseError F} {value : List Byte → F}
  (hvalue : ∀ s : List Byte, s.length = 32 → fieldOfString s = .ok (value s))
include hvalue

theorem fieldParser_append {f : List Byte} (hf : f.length = 32) (rest : List Byte) :
    fieldParser fieldOfString (f ++ rest) = .ok (value f, rest) := by
  have hlong : ¬ (f ++ rest).length < 32 := by rw [List.length_append]; omega
  have htake : Parser.take 32 (f ++ rest) = .ok (f, rest) := by
    rw [Parser.take, if_neg hlong, ← hf, List.take_left, List.drop_left]
  rw [fieldParser, Parser.bind, htake]
  dsimp only
  rw [hvalue f hf]
  rfl

theorem fieldParser_eq_ok {cs rest : List Byte} {x : F} (h : fieldParser fieldOfString cs = .ok (x, rest)) :
    ∃ f : List Byte, f.length = 32 ∧ cs = f ++ rest ∧ x = value f := by
  by_cases hlt : cs.length < 32
  · rw [fieldParser, Parser.bind, Parser.take, if_pos hlt] at h
    cases h
  · have hf : (cs.take 32).length = 32 := by rw [List.length_take]; omega
    have happend := fieldParser_append hvalue hf (cs.drop 32)
    rw [List.take_append_drop, h] at happend
    obtain ⟨rfl, rfl⟩ := Prod.mk.inj (Except.ok.inj happend)
    exact ⟨cs.take 32, hf, (List.take_append_drop 32 cs).symm, rfl⟩

theorem exactlyGo_append (rest : List Byte) : ∀ {fs : List (List Byte)} (acc : List F), (∀ f ∈ fs, f.length = 32) →
    Parser.exactlyGo (fieldParser fieldOfString) fs.length (fs.flatten ++ rest) acc =
      .ok ((fs.map value).reverse ++ acc, rest)
  | [], acc, _ => rfl
  | f :: fs, acc, hfs => by
    have hrest := exactlyGo_append rest (value f :: acc) fun g hg => hfs g (List.mem_cons_of_mem f hg)
    rw [List.length_cons, Parser.exactlyGo, List.flatten_cons, List.append_assoc,
      fieldParser_append hvalue (hfs f List.mem_cons_self)]
    dsimp only
    rw [hrest, List.map_cons, List.reverse_cons, List.append_assoc, List.singleton_append]

theorem exactlyGo_eq_ok : ∀ {n : Nat} {cs rest : List Byte} {acc xs : List F},
    Parser.exactlyGo (fieldParser fieldOfString) n cs acc = .ok (xs, rest) →
      ∃ fs : List (List Byte), fs.length = n ∧ (∀ f ∈ fs, f.length = 32) ∧ cs = fs.flatten ++ rest
  | 0, cs, rest, acc, xs, h => by
    obtain ⟨-, rfl⟩ := Prod.mk.inj (Except.ok.inj h)
    exact ⟨[], rfl, fun f hf => (by cases hf), rfl⟩
  | n + 1, cs, rest, acc, xs, h => by
    rw [Parser.exactlyGo] at h
    split at h
    next x cs' hfield =>
      obtain ⟨f, hf, rfl, -⟩ := fieldParser_eq_ok hvalue hfield
      obtain ⟨fs, hlen, hfs, rfl⟩ := exactlyGo_eq_ok h
      refine ⟨f :: fs, by rw [List.length_cons, hlen], fun g hg => ?_, by rw [List.flatten_cons, List.append_assoc]⟩
      rcases List.mem_cons.1 hg with rfl | hg
      · exact hf
      · exact hfs g hg
    next => cases h

theorem exactly_append {rest : List Byte} {fs : List (List Byte)} (hfs : ∀ f ∈ fs, f.length = 32) :
    Parser.exactly fs.length (fieldParser fieldOfString) (fs.flatten ++ rest) = .ok (fs.map value, rest) := by
  rw [Parser.exactly, exactlyGo_append hvalue rest [] hfs]
  dsimp only
  rw [List.append_nil, List.reverse_reverse]

end

/-- How a string is laid out. -/
structure Layout (s : List Byte) (fs : List (List Byte)) (n : Nat) (bytes : List Byte) : Prop where
  fields : fs.length < 2 ^ 32
  fieldBytes : ∀ f ∈ fs, f.length = 32
  bits : n < 2 ^ 32
  string : s = wordBytes fs.length ++ fs.flatten ++ wordBytes n ++ bytes

section

variable {F : Type} {fieldOfString : List Byte → Except ParseError F} {value : List Byte → F}
  (hvalue : ∀ s : List Byte, s.length = 32 → fieldOfString s = .ok (value s))
include hvalue

theorem Layout.deserialize {s : List Byte} {fs : List (List Byte)} {n : Nat} {bytes : List Byte}
    (h : Layout s fs n bytes) :
    deserialize fieldOfString id s = .ok ⟨fs.map value, [(bytesBits bytes).take n]⟩ := by
  have hparser : parser fieldOfString id s = .ok (⟨fs.map value, [(bytesBits bytes).take n]⟩, []) := by
    rw [h.string, List.append_assoc, List.append_assoc, parser, Parser.bind, u32_wordBytes h.fields]
    dsimp only
    rw [Parser.bind, exactly_append hvalue h.fieldBytes]
    dsimp only
    rw [Parser.bind, u32_wordBytes h.bits]
    dsimp only
    rw [Parser.bind, many_u8]
    dsimp only
    rw [bitsOfBytes_eq]
    rfl
  rw [Coding.deserialize, Parser.run, hparser]

/-- A string is accepted if it is laid out as it should be; nothing is asked of
its bytes. -/
theorem deserialize_ok_iff {s : List Byte} {x : RandomOracleInput F Bool} :
    deserialize fieldOfString id s = .ok x ↔
      ∃ fs n bytes, Layout s fs n bytes ∧ x = ⟨fs.map value, [(bytesBits bytes).take n]⟩ := by
  constructor
  · intro h
    suffices hlayout : ∃ fs n bytes, Layout s fs n bytes by
      obtain ⟨fs, n, bytes, hlayout⟩ := hlayout
      rw [hlayout.deserialize hvalue] at h
      exact ⟨fs, n, bytes, hlayout, (Except.ok.inj h).symm⟩
    have hparser : ∃ y rest, parser fieldOfString id s = .ok (y, rest) := by
      rw [deserialize, Parser.run] at h
      split at h
      next y hp => exact ⟨y, [], hp⟩
      next => cases h
      next => cases h
    obtain ⟨y, rest, hp⟩ := hparser
    rw [parser, Parser.bind] at hp
    split at hp
    next len1 cs₁ hlen1 =>
      rw [Parser.bind] at hp
      split at hp
      next fields cs₂ hfields =>
        rw [Parser.bind] at hp
        split at hp
        next len2 cs₃ hlen2 =>
          obtain ⟨hlt1, rfl⟩ := u32_eq_ok hlen1
          obtain ⟨hlt2, rfl⟩ := u32_eq_ok hlen2
          rw [Parser.exactly] at hfields
          split at hfields
          next acc xs hgo =>
            obtain ⟨-, rfl⟩ := Prod.mk.inj (Except.ok.inj hfields)
            obtain ⟨fs, rfl, hfs, rfl⟩ := exactlyGo_eq_ok hvalue hgo
            exact ⟨fs, len2, cs₃, hlt1, hfs, hlt2, by rw [List.append_assoc, List.append_assoc]⟩
          next => cases hfields
        next => cases hp
      next => cases hp
    next => cases hp
  · rintro ⟨fs, n, bytes, hlayout, rfl⟩
    exact hlayout.deserialize hvalue

end

end Mina.RandomOracleInput.Coding
