/-
Inputs are read back from their bytes (`deserialize_serialize`), and bytes are
written back if they are canonical (`serialize_deserialize_iff`).

The reader takes as many bits as are announced, or all if there are fewer, and
drops what comes after them; of the bytes of a field it drops the last bit. So
what it leaves out has to be zeros, and less than a byte.
-/
import Mina.RandomOracleInput.CodingFacts

namespace Mina.RandomOracleInput.Coding

/-- The bits after the first ones are fewer than eight, and zeros. -/
structure Ends (n : Nat) (bytes : List Byte) : Prop where
  enough : n ≤ 8 * bytes.length
  short : 8 * bytes.length < n + 8
  zeros : ∀ b ∈ (bytesBits bytes).drop n, b = false

/-- A string is laid out with fields that end in a zero and the bytes that its
bits need, which end in zeros. -/
def Canonical (s : List Byte) : Prop :=
  ∃ fs n bytes, Layout s fs n bytes ∧ (∀ f ∈ fs, Ends 255 f) ∧ Ends n bytes

theorem ends_iff {n : Nat} (hn : n < 2 ^ 32) {bytes : List Byte} :
    Ends n bytes ↔ wordBytes ((bytesBits bytes).take n).length = wordBytes n ∧
      toBytes ((bytesBits bytes).take n) = bytes := by
  have hlen : ((bytesBits bytes).take n).length = min n (8 * bytes.length) := by
    rw [List.length_take, length_bytesBits]
  constructor
  · intro h
    rw [hlen, Nat.min_eq_left h.enough]
    exact ⟨rfl, (toBytes_take_iff h.enough).2 ⟨h.short, h.zeros⟩⟩
  · rintro ⟨hword, hbytes⟩
    have hcount := wordBytes_inj (by omega) hn hword
    have henough : n ≤ 8 * bytes.length := by omega
    obtain ⟨hshort, hzeros⟩ := (toBytes_take_iff henough).1 hbytes
    exact ⟨henough, hshort, hzeros⟩

/-! ## Fields of 255 bits -/

theorem fieldOfString_eq (sizeInBits : Nat) (s : List Byte) :
    fieldOfString sizeInBits s = .ok ((bytesBits s).take sizeInBits) := by
  rw [fieldOfString, bitsOfBytes_eq]

theorem length_field {x : List Bool} (hx : x.length = 255) : (toBytes x).length = 32 := by
  have hlen := length_toBytes x
  omega

/-- A field is read back from its bytes. -/
theorem field_toBytes {x : List Bool} (hx : x.length = 255) : (bytesBits (toBytes x)).take 255 = x := by
  obtain ⟨k, -, hbits⟩ := bytesBits_toBytes x
  rw [hbits, ← hx, List.take_left]

theorem length_take_field {f : List Byte} (hf : f.length = 32) : ((bytesBits f).take 255).length = 255 := by
  rw [List.length_take, length_bytesBits, hf]
  rfl

theorem ends_field_iff {f : List Byte} (hf : f.length = 32) : Ends 255 f ↔ toBytes ((bytesBits f).take 255) = f := by
  rw [ends_iff (by decide), length_take_field hf]
  exact and_iff_right rfl

/-- **An input is read back from its bytes**, with its bits in one
bitstring. -/
theorem deserialize_serialize {t : RandomOracleInput (List Bool) Bool}
    (hfields : ∀ x ∈ t.fieldElements, x.length = 255) (hcount : t.fieldElements.length < 2 ^ 32)
    (hbits : t.bits.length < 2 ^ 32) :
    ∃ s, serialize stringOfField id id t = .ok s ∧
      deserialize (fieldOfString 255) id s = .ok { fieldElements := t.fieldElements, bitstrings := [t.bits] } := by
  refine ⟨_, serialize_ok (fun x _ => stringOfField_eq x) fun x hx => length_field (hfields x hx), ?_⟩
  have hlayout : Layout (wordBytes t.fieldElements.length ++ (t.fieldElements.map toBytes).flatten ++
      wordBytes t.bits.length ++ toBytes t.bits) (t.fieldElements.map toBytes) t.bits.length (toBytes t.bits) := by
    refine ⟨by rwa [List.length_map], fun f hf => ?_, hbits, by rw [List.length_map]⟩
    obtain ⟨x, hx, rfl⟩ := List.mem_map.1 hf
    exact length_field (hfields x hx)
  obtain ⟨k, -, htail⟩ := bytesBits_toBytes t.bits
  rw [hlayout.deserialize fun s _ => fieldOfString_eq 255 s, List.map_map, htail, List.take_left]
  congr 2
  refine (List.map_congr_left fun x hx => ?_).trans (List.map_id _)
  exact field_toBytes (hfields x hx)

/-- Lists of pieces of the same lengths have the same pieces if they make up
the same. -/
theorem flatten_map_eq {α : Type} {g : List α → List α} : ∀ {l : List (List α)}, (∀ f ∈ l, (g f).length = f.length) →
    ((l.map g).flatten = l.flatten ↔ ∀ f ∈ l, g f = f)
  | [], _ => ⟨fun _ f hf => (by cases hf), fun _ => rfl⟩
  | f :: l, hlen => by
    have hrest := flatten_map_eq (l := l) fun e he => hlen e (List.mem_cons_of_mem f he)
    rw [List.map_cons, List.flatten_cons, List.flatten_cons, List.forall_mem_cons, ← hrest]
    constructor
    · exact fun heq => List.append_inj heq (hlen f List.mem_cons_self)
    · rintro ⟨hf, hl⟩
      rw [hf, hl]

/-- What is written for an input that has been read. -/
theorem Layout.serialize {s : List Byte} {fs : List (List Byte)} {n : Nat} {bytes : List Byte}
    (h : Layout s fs n bytes) :
    serialize stringOfField id id ⟨fs.map fun f => (bytesBits f).take 255, [(bytesBits bytes).take n]⟩ = .ok s ↔
      (∀ f ∈ fs, Ends 255 f) ∧ Ends n bytes := by
  have hwidth : ∀ f ∈ fs, (toBytes ((bytesBits f).take 255)).length = f.length := fun f hf =>
    (length_field (length_take_field (h.fieldBytes f hf))).trans (h.fieldBytes f hf).symm
  have hfields : ∀ x ∈ fs.map fun f => (bytesBits f).take 255, (toBytes x).length = 32 := by
    intro x hx
    obtain ⟨f, hf, rfl⟩ := List.mem_map.1 hx
    exact length_field (length_take_field (h.fieldBytes f hf))
  have hends : (∀ f ∈ fs, Ends 255 f) ↔ ∀ f ∈ fs, toBytes ((bytesBits f).take 255) = f :=
    forall₂_congr fun f hf => ends_field_iff (h.fieldBytes f hf)
  have hbits : RandomOracleInput.bits (⟨fs.map fun f => (bytesBits f).take 255, [(bytesBits bytes).take n]⟩ :
      RandomOracleInput (List Bool) Bool) = (bytesBits bytes).take n := List.flatten_singleton
  have hlength : ((fs.map fun f => toBytes ((bytesBits f).take 255)).flatten).length = fs.flatten.length := by
    rw [List.length_flatten, List.length_flatten, List.map_map]
    congr 1
    exact List.map_congr_left hwidth
  have hfour : ∀ x : Nat, (wordBytes x).length = 4 := fun _ => rfl
  rw [serialize_ok (fun x _ => stringOfField_eq x) hfields, hbits, h.string, Except.ok.injEq, hends, ends_iff h.bits,
    ← flatten_map_eq hwidth, List.length_map, List.map_map, List.append_assoc, List.append_assoc, List.append_assoc,
    List.append_assoc, List.append_cancel_left_eq]
  constructor
  · intro heq
    obtain ⟨hfs, heq⟩ := List.append_inj heq hlength
    exact ⟨hfs, List.append_inj heq ((hfour _).trans (hfour _).symm)⟩
  · rintro ⟨hfs, hword, hbytes⟩
    rw [hword, hbytes]
    exact congrArg (· ++ _) hfs

/-- **An accepted string is written back if and only if it is canonical.** -/
theorem serialize_deserialize_iff {s : List Byte} {x : RandomOracleInput (List Bool) Bool}
    (h : deserialize (fieldOfString 255) id s = .ok x) :
    serialize stringOfField id id x = .ok s ↔ Canonical s := by
  have hvalue : ∀ s : List Byte, s.length = 32 → fieldOfString 255 s = .ok ((bytesBits s).take 255) :=
    fun s _ => fieldOfString_eq 255 s
  constructor
  · intro hwritten
    obtain ⟨fs, n, bytes, hlayout, rfl⟩ := (deserialize_ok_iff hvalue).1 h
    exact ⟨fs, n, bytes, hlayout, hlayout.serialize.1 hwritten⟩
  · rintro ⟨fs, n, bytes, hlayout, hends⟩
    rw [hlayout.deserialize hvalue] at h
    rw [← Except.ok.inj h]
    exact hlayout.serialize.2 hends

/-- One bit is announced and no byte follows: no bit is read. -/
theorem serialize_deserialize_short :
    ¬ ∀ (s : List Byte) (x : RandomOracleInput (List Bool) Bool), deserialize (fieldOfString 255) id s = .ok x →
      serialize stringOfField id id x = .ok s := by
  intro h
  have hwritten := h [0, 0, 0, 0, 0, 0, 0, 1] ⟨[], [[]]⟩ (by decide)
  exact absurd hwritten (by decide)

/-- A field and three bits. -/
theorem deserialize_serialize_three : ∃ s,
    serialize stringOfField id id ⟨[List.replicate 255 true], [[true], [], [false, true]]⟩ = .ok s ∧
      deserialize (fieldOfString 255) id s = .ok ⟨[List.replicate 255 true], [[true, false, true]]⟩ := by
  refine deserialize_serialize (t := ⟨[List.replicate 255 true], [[true], [], [false, true]]⟩) (fun x hx => ?_)
    (by decide) (by decide)
  rw [List.mem_singleton.1 hx, List.length_replicate]

/-- Three bits in a byte. -/
theorem serialize_deserialize_three :
    serialize stringOfField id id ⟨[], [[true, false, true]]⟩ = .ok [0, 0, 0, 0, 0, 0, 0, 3, 160] ↔
      Canonical [0, 0, 0, 0, 0, 0, 0, 3, 160] :=
  serialize_deserialize_iff (by decide)

end Mina.RandomOracleInput.Coding
