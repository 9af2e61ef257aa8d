/-
Packing loses and adds nothing (`pack_to_fields_right`): what is packed are the
chunks of the bits, whatever bitstrings they came in.
-/
import Mina.RandomOracleInput.RandomOracleInput

namespace Mina.RandomOracleInput

variable {F B P : Type} {maxSize : Nat} {pack : List B → P}

/-- The loop takes full chunks off the bits. -/
theorem packFullFields_ok (hsize : 0 < maxSize) : ∀ {fuel : Nat} {bits : List B} (revFields : List P),
    bits.length ≤ fuel → ∃ (cs : List (List B)) (rest : List B),
      packFullFields maxSize pack fuel revFields bits bits.length =
        ((cs.map pack).reverse ++ revFields, rest, rest.length) ∧
      bits = cs.flatten ++ rest ∧ (∀ c ∈ cs, c.length = maxSize) ∧ rest.length < maxSize
  | 0, bits, revFields, hfuel => by
    obtain rfl := List.length_eq_zero_iff.1 (Nat.le_zero.1 hfuel)
    exact ⟨[], [], rfl, rfl, fun c hc => (by cases hc), hsize⟩
  | fuel + 1, bits, revFields, hfuel => by
    rw [packFullFields]
    by_cases hge : bits.length ≥ maxSize
    · rw [if_pos hge, ← List.length_drop]
      obtain ⟨cs, rest, heq, hsplit, hfull, hrest⟩ :=
        packFullFields_ok hsize (pack (bits.take maxSize) :: revFields)
          (show (bits.drop maxSize).length ≤ fuel by rw [List.length_drop]; omega)
      refine ⟨bits.take maxSize :: cs, rest, ?_, ?_, fun c hc => ?_, hrest⟩
      · rw [heq, List.map_cons, List.reverse_cons, List.append_assoc, List.singleton_append]
      · rw [List.flatten_cons, List.append_assoc, ← hsplit, List.take_append_drop]
      · rcases List.mem_cons.1 hc with rfl | hc
        · rw [List.length_take, Nat.min_eq_left hge]
        · exact hfull c hc
    · rw [if_neg hge]
      exact ⟨[], bits, rfl, rfl, fun c hc => (by cases hc), not_le.1 hge⟩

/-- What the fold has after some bitstrings: the full chunks of their bits and
the bits that are left. -/
structure Packed (maxSize : Nat) (pack : List B → P) (bits : List B) (acc : List P × List B × Nat) : Prop where
  split : ∃ cs : List (List B), acc.1 = (cs.map pack).reverse ∧ bits = cs.flatten ++ acc.2.1 ∧
    ∀ c ∈ cs, c.length = maxSize
  length : acc.2.2 = acc.2.1.length
  lt : acc.2.1.length < maxSize

theorem Packed.packBitstring (hsize : 0 < maxSize) {bits : List B} {acc : List P × List B × Nat}
    (h : Packed maxSize pack bits acc) (bitstring : List B) :
    Packed maxSize pack (bits ++ bitstring) (packBitstring maxSize pack acc bitstring) := by
  obtain ⟨cs, hacc, hbits, hfull⟩ := h.split
  have hn : acc.2.2 + bitstring.length = (acc.2.1 ++ bitstring).length := by rw [h.length, List.length_append]
  obtain ⟨cs', rest, heq, hsplit, hfull', hrest⟩ :=
    @packFullFields_ok B P maxSize pack hsize _ _ acc.1 (le_refl (acc.2.1 ++ bitstring).length)
  rw [RandomOracleInput.packBitstring, hn, heq]
  refine ⟨⟨cs ++ cs', ?_, ?_, fun c hc => ?_⟩, rfl, hrest⟩
  · rw [hacc, List.map_append, List.reverse_append]
  · rw [hbits, List.append_assoc, hsplit, List.flatten_append, List.append_assoc]
  · rcases List.mem_append.1 hc with hc | hc
    · exact hfull c hc
    · exact hfull' c hc

theorem Packed.foldl (hsize : 0 < maxSize) : ∀ {bitstrings : List (List B)} {bits : List B} {acc : List P × List B × Nat},
    Packed maxSize pack bits acc →
      Packed maxSize pack (bits ++ bitstrings.flatten)
        (bitstrings.foldl (RandomOracleInput.packBitstring maxSize pack) acc)
  | [], bits, acc, h => by
    rw [List.flatten_nil, List.append_nil]
    exact h
  | bitstring :: bitstrings, bits, acc, h => by
    rw [List.flatten_cons, ← List.append_assoc]
    exact Packed.foldl hsize (h.packBitstring hsize bitstring)

/-- The chunks of the bits are packed, the last one first. -/
theorem packBits_eq (hsize : 0 < maxSize) (t : RandomOracleInput F B) :
    packBits maxSize pack t = ((chunks maxSize t.bits).map pack).reverse := by
  have hpacked : Packed maxSize pack [] (([] : List P), ([] : List B), 0) :=
    ⟨⟨[], rfl, rfl, fun c hc => (by cases hc)⟩, rfl, hsize⟩
  have hall : Packed maxSize pack ([] ++ t.bitstrings.flatten) _ := hpacked.foldl hsize
  obtain ⟨cs, hacc, hbits, hfull⟩ := hall.split
  rw [List.nil_append] at hbits
  rw [packBits, bits, hbits, chunks_unique hsize hall.lt hfull]
  dsimp only
  rw [hacc, hall.length]
  by_cases hnil : (t.bitstrings.foldl (packBitstring maxSize pack) ([], [], 0)).2.1 = []
  · rw [if_pos (List.length_eq_zero_iff.2 hnil), if_pos hnil, List.append_nil]
  · rw [if_neg (mt List.length_eq_zero_iff.1 hnil), if_neg hnil, List.map_append, List.reverse_append,
      List.map_singleton, List.reverse_singleton, List.singleton_append]

theorem packToFields_eq {sizeInBits : Nat} (hsize : 2 ≤ sizeInBits) (pack : List B → F) (t : RandomOracleInput F B) :
    packToFields sizeInBits pack t = t.fieldElements ++ (chunks (sizeInBits - 1) t.bits).map pack := by
  rw [packToFields, packBits_eq (by omega), List.reverse_reverse]

/-- The fields are the input's, and then the bits of the input in order, in
full chunks but for the last. -/
structure Preserved (sizeInBits : Nat) (t : RandomOracleInput (List B) B) (fields : List (List B)) : Prop where
  chunks : ∃ cs : List (List B), fields = t.fieldElements ++ cs ∧ cs.flatten = t.bits ∧
    (∀ c ∈ cs.dropLast, c.length = sizeInBits - 1) ∧ ∀ c ∈ cs, 1 ≤ c.length ∧ c.length ≤ sizeInBits - 1

theorem packToFields_preserved {sizeInBits : Nat} (hsize : 2 ≤ sizeInBits) (t : RandomOracleInput (List B) B) :
    Preserved sizeInBits t (packToFields sizeInBits id t) := by
  have hpos : 0 < sizeInBits - 1 := by omega
  refine ⟨⟨Mina.chunks (sizeInBits - 1) t.bits, ?_, flatten_chunks hpos _,
    fun c hc => length_of_mem_dropLast_chunks hpos hc, fun c hc => length_of_mem_chunks hpos hc⟩⟩
  rw [packToFields_eq hsize, List.map_id]

/-- **Packing loses and adds nothing.** The fields and the bits are all there
in their order, so inputs with as many fields that pack equally have equal
fields and bits; and the two parts of the second coding with fields between
them are what the input packs to with these fields added. -/
theorem pack_to_fields_right {sizeInBits : Nat} (hsize : 2 ≤ sizeInBits) :
    (∀ t : RandomOracleInput (List B) B, Preserved sizeInBits t (packToFields sizeInBits id t)) ∧
      (∀ t₁ t₂ : RandomOracleInput (List B) B, t₁.fieldElements.length = t₂.fieldElements.length →
        packToFields sizeInBits id t₁ = packToFields sizeInBits id t₂ →
          t₁.fieldElements = t₂.fieldElements ∧ t₁.bits = t₂.bits) ∧
      ∀ (t : RandomOracleInput (List B) B) (middle : List (List B)),
        (Coding2.serialize' t id).prefixFields ++ middle ++ (Coding2.serialize' t id).suffixFields =
          packToFields 255 id (t.append (ofFieldElements middle)) := by
  refine ⟨packToFields_preserved hsize, fun t₁ t₂ hlength heq => ?_, fun t middle => ?_⟩
  · have hpos : 0 < sizeInBits - 1 := by omega
    rw [packToFields_eq hsize, packToFields_eq hsize, List.map_id, List.map_id] at heq
    obtain ⟨hfields, hchunks⟩ := List.append_inj heq hlength
    refine ⟨hfields, ?_⟩
    rw [← flatten_chunks hpos t₁.bits, hchunks, flatten_chunks hpos]
  · have hbits : (t.append (ofFieldElements middle)).bits = t.bits := by
      rw [bits, RandomOracleInput.append, ofFieldElements, List.append_nil]
      rfl
    rw [packToFields_eq (by omega), hbits, Coding2.serialize', packBits_eq (by omega), List.reverse_reverse]
    rfl

/-- Three bitstrings with seven bits, in chunks of three. -/
theorem pack_to_fields_right_seven :
    Preserved 4 ⟨[[true]], [[true, false], [], [true, true, true, false, false]]⟩
      (packToFields 4 id ⟨[[true]], [[true, false], [], [true, true, true, false, false]]⟩) :=
  (pack_to_fields_right (by decide)).1 _

example : packToFields 4 id ⟨[[true]], [[true, false], [], [true, true, true, false, false]]⟩ =
    [[true], [true, false, true], [true, true, false], [false]] := by decide

end Mina.RandomOracleInput
