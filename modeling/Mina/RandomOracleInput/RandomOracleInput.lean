/-
Inputs of the random oracle (`random_oracle_input/random_oracle_input.ml`) and
how they are packed into field elements.

An array is a list. The loop of `pack_full_fields` has fuel, the length: for a
size that is not zero no more is used.
-/
import Mina.Base.Chunks
import Mina.Base.Exn

namespace Mina

structure RandomOracleInput (F B : Type) where
  fieldElements : List F
  bitstrings : List (List B)
deriving DecidableEq

namespace RandomOracleInput

variable {F B P : Type}

def append (t₁ t₂ : RandomOracleInput F B) : RandomOracleInput F B where
  fieldElements := t₁.fieldElements ++ t₂.fieldElements
  bitstrings := t₁.bitstrings ++ t₂.bitstrings

/-- `field_elements` -/
def ofFieldElements (x : List F) : RandomOracleInput F B where
  fieldElements := x
  bitstrings := []

/-- The bits of all bitstrings. -/
def bits (t : RandomOracleInput F B) : List B := t.bitstrings.flatten

/-! ## Packing -/

def packFullFields (maxSize : Nat) (pack : List B → P) : Nat → List P → List B → Nat → List P × List B × Nat
  | 0, revFields, bits, length => (revFields, bits, length)
  | fuel + 1, revFields, bits, length =>
    if length ≥ maxSize then
      packFullFields maxSize pack fuel (pack (bits.take maxSize) :: revFields) (bits.drop maxSize) (length - maxSize)
    else (revFields, bits, length)

/-- One bitstring of the fold. -/
def packBitstring (maxSize : Nat) (pack : List B → P) (acc : List P × List B × Nat) (bitstring : List B) :
    List P × List B × Nat :=
  let n := acc.2.2 + bitstring.length
  packFullFields maxSize pack n acc.1 (acc.2.1 ++ bitstring) n

def packBits (maxSize : Nat) (pack : List B → P) (t : RandomOracleInput F B) : List P :=
  let (packedFieldElements, remainingBits, remainingLength) :=
    t.bitstrings.foldl (packBitstring maxSize pack) ([], [], 0)
  if remainingLength = 0 then packedFieldElements else pack remainingBits :: packedFieldElements

def packToFields (sizeInBits : Nat) (pack : List B → F) (t : RandomOracleInput F B) : List F :=
  t.fieldElements ++ (packBits (sizeInBits - 1) pack t).reverse

/-! ## The second coding -/

namespace Coding2

structure Rendered (F : Type) where
  prefixFields : List F
  suffixFields : List F
deriving DecidableEq

def Rendered.map {G : Type} (f : F → G) (r : Rendered F) : Rendered G where
  prefixFields := r.prefixFields.map f
  suffixFields := r.suffixFields.map f

def serialize' (t : RandomOracleInput F B) (pack : List B → F) : Rendered F where
  prefixFields := t.fieldElements
  suffixFields := (packBits 254 pack t).reverse

end Coding2

end RandomOracleInput

end Mina
