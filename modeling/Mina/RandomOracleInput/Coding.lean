/-
The coding of an input as bytes (`Random_oracle_input.Coding`): the number of
fields, the fields, the number of bits and the bits, eight in a byte.

A character is a byte. The parser's errors have one more constructor, for what
`bits_of_byte` raises; the fuel of `many` is the number of the bytes left, of
which each round takes one.
-/
import Mina.RandomOracleInput.RandomOracleInput

namespace Mina.RandomOracleInput.Coding

abbrev Byte := Fin 256

variable {F B α β : Type}

/-! ## Writing -/

/-- `Char.of_int_exn` -/
def ofIntExn (n : Nat) : Exn Byte :=
  if h : n < 256 then .ok ⟨n, h⟩ else .error "Char.of_int_exn got integer out of range"

/-- `len_to_string` -/
def lenToString (x : Nat) : Exn (List Byte) :=
  Exn.mapList ofIntExn [(x >>> 24) &&& 0xff, (x >>> 16) &&& 0xff, (x >>> 8) &&& 0xff, x &&& 0xff]

/-- `go` -/
def numberOf (toBool : B → Bool) : Nat → List B → Nat
  | acc, [] => acc
  | acc, b :: bs => numberOf toBool (acc * 2 + if toBool b then 1 else 0) bs

/-- A byte of eight bits or less, with zeros after them. -/
def packByte (toBool : B → Bool) (ofBool : Bool → B) (bs : List B) : Exn Nat :=
  let pad := List.replicate (8 - bs.length) (ofBool false)
  let combined := bs ++ pad
  Exn.assert (combined.length = 8) (.ok (numberOf toBool 0 combined))

/-- The bits of `serialize`, as bytes. -/
def packedBytes (toBool : B → Bool) (ofBool : Bool → B) (t : RandomOracleInput F B) : Exn (List Byte) :=
  (Exn.mapList id (packBits 8 (packByte toBool ofBool) t)).andThen fun packed =>
    (Exn.mapList ofIntExn packed).andThen fun packed => .ok packed.reverse

/-- Only fields of 32 bytes are supported; the first one is looked at. -/
def checkFields (stringOfField : F → Exn (List Byte)) : List F → Exn Unit
  | [] => .ok ()
  | field :: _ => (stringOfField field).andThen fun s => Exn.assert (s.length = 32) (.ok ())

def serialize (stringOfField : F → Exn (List Byte)) (toBool : B → Bool) (ofBool : Bool → B)
    (t : RandomOracleInput F B) : Exn (List Byte) :=
  (lenToString t.fieldElements.length).andThen fun len1 =>
    (checkFields stringOfField t.fieldElements).andThen fun _ =>
      (Exn.mapList stringOfField t.fieldElements).andThen fun fields =>
        (lenToString (t.bitstrings.map List.length).sum).andThen fun len2 =>
          (packedBytes toBool ofBool t).andThen fun packed => .ok (len1 ++ fields.flatten ++ len2 ++ packed)

/-- The bits of a field as a string. -/
def stringOfField (xs : List Bool) : Exn (List Byte) :=
  (Exn.mapList (packByte id id) (chunks 8 xs)).andThen fun ns => Exn.mapList ofIntExn ns

/-! ## Parsing -/

inductive ParseError where
  | expectedEof
  | unexpectedEof
  | raised (error : String)
deriving DecidableEq

abbrev Parser (α : Type) := List Byte → Except ParseError (α × List Byte)

namespace Parser

def bind (t : Parser α) (f : α → Parser β) : Parser β := fun cs =>
  match t cs with
  | .ok (a, rest) => f a rest
  | .error e => .error e

def pure (a : α) : Parser α := fun cs => .ok (a, cs)

def run (p : Parser α) (cs : List Byte) : Except ParseError α :=
  match p cs with
  | .ok (a, []) => .ok a
  | .ok (_, _ :: _) => .error .expectedEof
  | .error e => .error e

def u8 : Parser Byte
  | c :: cs => .ok (c, cs)
  | [] => .error .unexpectedEof

def u32 : Parser Nat :=
  bind u8 fun a => bind u8 fun b => bind u8 fun c => bind u8 fun d =>
    pure (a.val <<< 24 ||| b.val <<< 16 ||| c.val <<< 8 ||| d.val)

def take (n : Nat) : Parser (List Byte) := fun cs =>
  if cs.length < n then .error .unexpectedEof else .ok (cs.take n, cs.drop n)

/-- The loop of `many`. -/
def manyGo (p : Parser α) : Nat → List Byte → List α → List α × List Byte
  | 0, xs, acc => (acc, xs)
  | fuel + 1, xs, acc =>
    match p xs with
    | .ok (a, xs) => manyGo p fuel xs (a :: acc)
    | .error _ => (acc, xs)

def many (p : Parser α) : Parser (List α) := fun cs =>
  let (acc, xs) := manyGo p cs.length cs []
  .ok (acc.reverse, xs)

/-- The loop of `exactly`. -/
def exactlyGo (p : Parser α) : Nat → List Byte → List α → Except ParseError (List α × List Byte)
  | 0, xs, acc => .ok (acc, xs)
  | i + 1, xs, acc =>
    match p xs with
    | .ok (a, xs) => exactlyGo p i xs (a :: acc)
    | .error e => .error e

def exactly (n : Nat) (p : Parser α) : Parser (List α) := fun cs =>
  match exactlyGo p n cs [] with
  | .ok (acc, xs) => .ok (acc.reverse, xs)
  | .error e => .error e

def returnRes (r : Except ParseError α) : Parser α := fun cs =>
  match r with
  | .ok x => .ok (x, cs)
  | .error e => .error e

end Parser

/-! ## Reading -/

/-- `f` -/
def boolOfInt (ofBool : Bool → B) : Nat → Except ParseError B
  | 0 => .ok (ofBool false)
  | 1 => .ok (ofBool true)
  | _ => .error (.raised "Unexpected boolean integer")

/-- A list of what a function gives, or its first error. -/
def mapResult {ε : Type} (f : α → Except ε β) : List α → Except ε (List β)
  | [] => .ok []
  | a :: l =>
    match f a with
    | .ok b =>
      match mapResult f l with
      | .ok bs => .ok (b :: bs)
      | .error e => .error e
    | .error e => .error e

def bitsOfByte (ofBool : Bool → B) (b : Byte) : Except ParseError (List B) :=
  mapResult (boolOfInt ofBool)
    [(b.val &&& (1 <<< 7)) >>> 7, (b.val &&& (1 <<< 6)) >>> 6, (b.val &&& (1 <<< 5)) >>> 5, (b.val &&& (1 <<< 4)) >>> 4,
      (b.val &&& (1 <<< 3)) >>> 3, (b.val &&& (1 <<< 2)) >>> 2, (b.val &&& (1 <<< 1)) >>> 1, b.val &&& 1]

/-- `List.concat_map` of `bits_of_byte` -/
def bitsOfBytes (ofBool : Bool → B) (bytes : List Byte) : Except ParseError (List B) :=
  match mapResult (bitsOfByte ofBool) bytes with
  | .ok bits => .ok bits.flatten
  | .error e => .error e

def fieldParser (fieldOfString : List Byte → Except ParseError F) : Parser F :=
  Parser.bind (Parser.take 32) fun u8x32 => Parser.returnRes (fieldOfString u8x32)

def parser (fieldOfString : List Byte → Except ParseError F) (ofBool : Bool → B) : Parser (RandomOracleInput F B) :=
  Parser.bind Parser.u32 fun len1 =>
    Parser.bind (Parser.exactly len1 (fieldParser fieldOfString)) fun fields =>
      Parser.bind Parser.u32 fun len2 =>
        Parser.bind (Parser.many Parser.u8) fun bytes =>
          Parser.returnRes <|
            match bitsOfBytes ofBool bytes with
            | .ok bits => .ok { fieldElements := fields, bitstrings := [bits.take len2] }
            | .error e => .error e

def deserialize (fieldOfString : List Byte → Except ParseError F) (ofBool : Bool → B) (s : List Byte) :
    Except ParseError (RandomOracleInput F B) := (parser fieldOfString ofBool).run s

def fieldOfString (sizeInBits : Nat) (s : List Byte) : Except ParseError (List Bool) :=
  match bitsOfBytes id s with
  | .ok bits => .ok (bits.take sizeInBits)
  | .error e => .error e

end Mina.RandomOracleInput.Coding
