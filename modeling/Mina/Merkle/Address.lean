/-
Merkle addresses (`merkle_address.ml`): bit strings, the path from the root
first.

The library of bit strings is not part of the repository. Its functions are a
parameter (`Bitstrings`), and what its documentation says about the bits is a
hypothesis (`Documented`); what a function does in place to a fresh copy is its
result. Integers have 63 bits, and of a shift by
more than 63 places the result is not specified. Walks over a range have fuel.
-/
import Mina.Base.Binary
import Mina.SyncableLedger.MerkleTree

namespace Mina.Merkle

open SyncableLedger (Direction Addr)

/-! ## Bit strings -/

/-- The functions of the library that are used. A string is its bytes. -/
structure Bitstrings (T : Type) where
  bitstringLength : T → Nat
  createBitstring : Nat → T
  zeroesBitstring : Nat → T
  onesBitstring : Nat → T
  concat : List T → T
  subbitstring : T → Nat → Nat → T
  set : T → Nat → T
  clear : T → Nat → T
  put : T → Nat → Int → T
  get : T → Nat → Int
  isSet : T → Nat → Bool
  isClear : T → Nat → Bool
  stringOfBitstring : T → List (Fin 256)
  bitstringOfString : List (Fin 256) → T
  compare : T → T → Int
  /-- The string with the same bits that `let%bitstring` constructs. -/
  copy : T → T
  /-- The string that `let%bitstring` constructs with one more bit. -/
  snoc : T → Bool → T

/-- The bits of bytes, the highest bit of each first. -/
def bytesBits (s : List (Fin 256)) : List Bool := s.flatMap fun c => Binary.word 8 c.val

/-- What is documented: `bits` are the bits of a string, from the first. -/
structure Documented {T : Type} (L : Bitstrings T) (bits : T → List Bool) : Prop where
  length : ∀ b, L.bitstringLength b = (bits b).length
  create : ∀ n, bits (L.createBitstring n) = List.replicate n false
  zeroes : ∀ n, bits (L.zeroesBitstring n) = List.replicate n false
  ones : ∀ n, bits (L.onesBitstring n) = List.replicate n true
  concat : ∀ l, bits (L.concat l) = l.flatMap bits
  sub : ∀ b off len, off + len ≤ (bits b).length → bits (L.subbitstring b off len) = ((bits b).drop off).take len
  set : ∀ b i, i < (bits b).length → bits (L.set b i) = (bits b).set i true
  clear : ∀ b i, i < (bits b).length → bits (L.clear b i) = (bits b).set i false
  put : ∀ b i v, i < (bits b).length → bits (L.put b i v) = (bits b).set i (decide (v ≠ 0))
  get : ∀ b i x, (bits b)[i]? = some x → L.get b i = if x then 1 else 0
  isSet : ∀ b i x, (bits b)[i]? = some x → L.isSet b i = x
  isClear : ∀ b i x, (bits b)[i]? = some x → L.isClear b i = !x
  stringOf : ∀ b, (bits b).length % 8 = 0 → bytesBits (L.stringOfBitstring b) = bits b
  ofString : ∀ s, bits (L.bitstringOfString s) = bytesBits s
  compare_lt : ∀ b c, (bits b).length = (bits c).length → (L.compare b c < 0 ↔ bits b < bits c)
  compare_eq : ∀ b c, (bits b).length = (bits c).length → (L.compare b c = 0 ↔ bits b = bits c)
  copy : ∀ b, bits (L.copy b) = bits b
  snoc : ∀ b x, bits (L.snoc b x) = bits b ++ [x]

/-! ## Integers and directions -/

/-- The integer of 63 bits with the same low bits. -/
def int63 (n : Int) : Int := n.bmod (2 ^ 63)

/-- `lsl` -/
def lsl (a : Int) (n : Nat) : Int := int63 (a * 2 ^ n)

namespace Direction

def ofBool : Bool → Direction
  | false => .left
  | true => .right

def toBool : Direction → Bool
  | .left => false
  | .right => true

def ofInt : Int → Option Direction
  | 0 => some .left
  | 1 => some .right
  | _ => none

def ofIntExn (value : Int) : Exn Direction :=
  match ofInt value with
  | some d => .ok d
  | none => .error s!"Cannot convert integer {value} into a direction"

end Direction

/-! ## Addresses -/

namespace Address

variable {T : Type} (L : Bitstrings T)

def depth (path : T) : Nat := L.bitstringLength path

def addPadding (path : T) : T :=
  let length := depth L path
  if length % 8 = 0 then path else L.concat [path, L.zeroesBitstring (8 - length % 8)]

def slice : T → Nat → Nat → T := L.subbitstring

def toString (path : T) : List Char :=
  (List.range (depth L path)).map fun i => if L.isClear path i then '0' else '1'

/-- `loop` of `of_directions`. -/
def setDirections (path : T) : Nat → List Direction → T
  | _, [] => path
  | i, h :: t => setDirections (if Direction.toBool h then L.set path i else path) (i + 1) t

def ofDirections (dirs : List Direction) : T := setDirections L (L.createBitstring dirs.length) 0 dirs

def toTuple (path : T) : Nat × List (Fin 256) :=
  let length := depth L path
  let paddedBitstring := addPadding L path
  (length, L.stringOfBitstring paddedBitstring)

def ofTuple (p : Nat × List (Fin 256)) : T := slice L (L.bitstringOfString p.2) 0 p.1

/-- The atom that `sexp_of_t` makes. -/
def sexpOfT (path : T) : List Char := toString L path

/-- `t_of_sexp` of an atom. -/
def tOfSexp (buf : List Char) : Exn T :=
  (Exn.mapList (fun c : Char => Direction.ofIntExn c.toNat) buf).andThen fun dirs => .ok (ofDirections L dirs)

def height (ledgerDepth : Nat) (path : T) : Nat := ledgerDepth - depth L path

def parent (path : T) : Exn T :=
  if L.bitstringLength path = 0 then .error "Address length should be nonzero"
  else .ok (slice L path 0 (L.bitstringLength path - 1))

def isLeaf (ledgerDepth : Nat) (path : T) : Bool := L.bitstringLength path ≥ ledgerDepth

def child (ledgerDepth : Nat) (path : T) (dir : Direction) : Exn T :=
  if isLeaf L ledgerDepth path then .error "The address length cannot be greater than depth"
  else .ok (L.snoc path (Direction.toBool dir))

def toInt (path : T) : Int :=
  (List.range (depth L path)).foldl (fun acc i =>
    let index := depth L path - 1 - i
    int63 (acc + lsl (if L.get path index ≠ 0 then 1 else 0) i)) 0

/-- The positions from the last to the first get the bits of a number. -/
def putBits (buf : T) (i : Int) : Nat → T
  | 0 => buf
  | pos + 1 => putBits (L.put buf pos (i % 2)) (i.tdiv 2) pos

def ofIntExn (ledgerDepth : Nat) (index : Int) : Exn T :=
  if index ≥ lsl 1 ledgerDepth then .error "Index is too large"
  else .ok (putBits L (L.createBitstring ledgerDepth) index ledgerDepth)

def dirsFromRoot (t : T) : List Direction :=
  (List.range (depth L t)).map fun pos => Direction.ofBool (L.isSet t pos)

def root : T := L.createBitstring 0

def sibling (path : T) : Exn T :=
  let path := L.copy path
  if depth L path = 0 then .error "index out of bounds"
  else
    let lastBitIndex := depth L path - 1
    let lastBit := if L.get path lastBitIndex = 0 then 1 else 0
    .ok (L.put path lastBitIndex lastBit)

/-- The last index that passes a test, below an index. -/
def findRightmost (test : Nat → Bool) : Nat → Option Nat
  | 0 => none
  | i + 1 => if test i then some i else findRightmost test i

def findRightmostClearBit (path : T) : Nat → Option Nat := findRightmost (L.isClear path)

def findRightmostOneBit (path : T) : Nat → Option Nat := findRightmost (L.isSet path)

/-- Writes `n` bits from an index on. -/
def writeBits (write : T → Nat → T) (path : T) : (n i : Nat) → T
  | 0, _ => path
  | n + 1, i => writeBits write (write path i) n (i + 1)

def clearBits (path : T) (len i : Nat) : T := writeBits L.clear path (len - i) i

def setBits (path : T) (len i : Nat) : T := writeBits L.set path (len - i) i

def next (path : T) : Option T :=
  let path := L.copy path
  let len := depth L path
  (findRightmostClearBit L path len).map fun rightmostClearIndex =>
    clearBits L (L.set path rightmostClearIndex) len (rightmostClearIndex + 1)

def prev (path : T) : Option T :=
  let path := L.copy path
  let len := depth L path
  (findRightmostOneBit L path len).map fun rightmostOneIndex =>
    setBits L (L.clear path rightmostOneIndex) len (rightmostOneIndex + 1)

namespace Range

variable {A : Type}

def foldExl (f : T → A → A) (last : T) : Nat → T → A → Exn A
  | 0, _, _ => .error "out of fuel"
  | fuel + 1, first, init =>
    let comparison := L.compare first last
    if comparison > 0 then .error "first address needs to precede last address"
    else if comparison = 0 then .ok init
    else (Exn.valueExn (next L first)).andThen fun first' => foldExl f last fuel first' (f first init)

def foldIncl (f : T → A → A) (fuel : Nat) (range : T × T) (init : A) : Exn A :=
  (foldExl L f range.2 fuel range.1 init).andThen fun a => .ok (f range.2 a)

inductive Stop where
  | inclusive
  | exclusive

def fold (stop : Stop) (f : T → A → A) (fuel : Nat) (range : T × T) (init : A) : Exn A :=
  Exn.assert (depth L range.1 = depth L range.2) <|
    match stop with
    | .inclusive => foldIncl L f fuel range init
    | .exclusive => foldExl L f range.2 fuel range.1 init

def subtreeRange (ledgerDepth : Nat) (address : T) : T × T :=
  let firstNode := L.concat [address, L.zeroesBitstring (height L ledgerDepth address)]
  let lastNode := L.concat [address, L.onesBitstring (height L ledgerDepth address)]
  (firstNode, lastNode)

/-- The sequence that `subtree_range_seq` unfolds, from a node and whether to
stop; nothing when there is not enough fuel. -/
def unfoldRange (lastNode : T) : Nat → T → Bool → Option (List T)
  | 0, _, _ => none
  | fuel + 1, currentNode, stop =>
    if stop then some []
    else if L.compare currentNode lastNode = 0 then (unfoldRange lastNode fuel currentNode true).map (currentNode :: ·)
    else
      match next L currentNode with
      | none => some []
      | some nextNode => (unfoldRange lastNode fuel nextNode false).map (currentNode :: ·)

def subtreeRangeSeq (fuel ledgerDepth : Nat) (address : T) : Option (List T) :=
  unfoldRange L (subtreeRange L ledgerDepth address).2 fuel (subtreeRange L ledgerDepth address).1 false

end Range

end Address

end Mina.Merkle
