/-
The finger tree of `network_pool/f_sequence.ml`, function by function.

The source's type is nested: a tree of elements holds a tree of nodes of
elements. Here it is an indexed family (`Tree : Type → Type 1`), and the
source's polymorphic recursion is structural recursion on it. A digit
carries the source's two phantom types as `Bool` indices, so what the
source's GADT refutes is refuted here too; the one place where the source
steps around its types (`Obj.magic` in `Digit.split`) is a run-time test
that can fail. The middle tree's `Lazy.t` is its value.
-/
import Mina.Base.Exn

universe u

namespace Mina.FSequence

/-- A container of 1-4 elements. The indices say whether an element may be
added and whether one may be removed. -/
inductive Digit (e : Type) : Bool → Bool → Type where
  | one (a : e) : Digit e true false
  | two (a b : e) : Digit e true true
  | three (a b c : e) : Digit e true true
  | four (a b c d : e) : Digit e false true

namespace Digit

variable {e : Type} {a r : Bool}

/-- A digit whose addability is determined at run time. -/
abbrev AnyA (r : Bool) (e : Type) := (a : Bool) × Digit e a r

/-- A digit whose removability is determined at run time. -/
abbrev AnyR (a : Bool) (e : Type) := (r : Bool) × Digit e a r

/-- Both. -/
abbrev AnyAR (e : Type) := (a : Bool) × (r : Bool) × Digit e a r

def broadenAnyA : AnyA r e → AnyAR e
  | ⟨a, t⟩ => ⟨a, r, t⟩

def broadenAnyR : AnyR a e → AnyAR e
  | ⟨r, t⟩ => ⟨a, r, t⟩

def cons (v : e) : Digit e true r → AnyA true e
  | .one a => ⟨_, .two v a⟩
  | .two a b => ⟨_, .three v a b⟩
  | .three a b c => ⟨_, .four v a b c⟩

def snoc (d : Digit e true r) (v : e) : AnyA true e :=
  match d with
  | .one a => ⟨_, .two a v⟩
  | .two a b => ⟨_, .three a b v⟩
  | .three a b c => ⟨_, .four a b c v⟩

def uncons : Digit e a true → e × AnyR true e
  | .two a b => (a, ⟨_, .one b⟩)
  | .three a b c => (a, ⟨_, .two b c⟩)
  | .four a b c d => (a, ⟨_, .three b c d⟩)

def unsnoc : Digit e a true → AnyR true e × e
  | .two a b => (⟨_, .one a⟩, b)
  | .three a b c => (⟨_, .two a b⟩, c)
  | .four a b c d => (⟨_, .three a b c⟩, d)

def foldr {acc : Type u} (f : e → acc → acc) (z : acc) : Digit e a r → acc
  | .one a => f a z
  | .two a b => f a (f b z)
  | .three a b c => f a (f b (f c z))
  | .four a b c d => f a (f b (f c (f d z)))

def foldl {acc : Type u} (f : acc → e → acc) (z : acc) : Digit e a r → acc
  | .one a => f z a
  | .two a b => f (f z a) b
  | .three a b c => f (f (f z a) b) c
  | .four a b c d => f (f (f (f z a) b) c) d

def toList (t : Digit e a r) : List e := foldr List.cons [] t

/-- The total measure of a digit. -/
def measure (measure' : e → Nat) (t : Digit e a r) : Nat :=
  foldl (fun m x => m + measure' x) 0 t

theorem uncons_toList (d : Digit e a true) : d.toList = d.uncons.1 :: d.uncons.2.2.toList := by
  cases d <;> rfl

/-- `Obj.magic` at the type the source uses it for, as a test: a digit that
is not addable is no `(addable, removable, 'e) t`. -/
def objMagic : AnyA r e → Exn (Digit e true r)
  | ⟨true, d⟩ => .ok d
  | ⟨false, _⟩ => .error "Obj.magic: digit is not addable"

/-- The inner recursion of `split`, over addable digits. -/
def splitAddable (measure' : e → Nat) (target acc : Nat) {r : Bool} (t : Digit e true r) :
    Exn (Option (AnyR true e) × e × Option (AnyR true e)) :=
  match r, t with
  | true, t' =>
    match _h : uncons t' with
    | (head, tail) =>
      if acc + measure' head ≥ target then .ok (none, head, some tail)
      else do
        match ← splitAddable measure' target (acc + measure' head) tail.2 with
        | (some lhs, m, rhs) =>
          let consRes ← objMagic (cons head lhs.2)
          .ok (some ⟨_, consRes⟩, m, rhs)
        | (none, m, rhs) => .ok (some ⟨_, .one head⟩, m, rhs)
  | false, .one a =>
    if acc + measure' a ≥ target then .ok (none, a, none)
    else .error "Digit.split index out of bounds"
termination_by t.toList.length
decreasing_by
  rw [uncons_toList t', _h]
  exact Nat.lt_succ_self _

/-- Split a digit by measure. -/
def split (measure' : e → Nat) (target acc : Nat) {a r : Bool} (t : Digit e a r) :
    Exn (Option (AnyAR e) × e × Option (AnyAR e)) :=
  match a, r, t with
  | true, _, t' => do
    let (lhs, m, rhs) ← splitAddable measure' target acc t'
    .ok (lhs.map broadenAnyR, m, rhs.map broadenAnyR)
  | false, true, t' =>
    let (head, tail) := uncons t'
    if acc + measure' head ≥ target then .ok (none, head, some (broadenAnyR tail))
    else do
      let (lhs, m, rhs) ← splitAddable measure' target (acc + measure' head) tail.2
      match lhs with
      | none => .ok (some ⟨_, _, .one head⟩, m, rhs.map broadenAnyR)
      | some lhs' => .ok (some (broadenAnyA (cons head lhs'.2)), m, rhs.map broadenAnyR)

end Digit

/-- A node of 2-3 elements, with a cached measurement. -/
inductive Node (e : Type) where
  | two (m : Nat) (a b : e)
  | three (m : Nat) (a b c : e)

namespace Node

variable {e : Type}

/-- The cached measurement. -/
def measure : Node e → Nat
  | .two m _ _ => m
  | .three m _ _ _ => m

def toDigit : Node e → Digit e true true
  | .two _ a b => .two a b
  | .three _ a b c => .three a b c

def mk3 (f : e → Nat) (a b c : e) : Node e := .three (f a + f b + f c) a b c

def splitToDigits (measure' : e → Nat) (target acc : Nat) (t : Node e) :
    Exn (Option (Digit.AnyAR e) × e × Option (Digit.AnyAR e)) :=
  t.toDigit.split measure' target acc

end Node

/-- The finger tree: a cached measurement, prefix and suffix fingers, and a
subtree of nodes. -/
inductive Tree : Type → Type 1 where
  | empty {e : Type} : Tree e
  | single {e : Type} (a : e) : Tree e
  | deep {e : Type} {aL rL aR rR : Bool} (m : Nat) (pre : Digit e aL rL) (middle : Tree (Node e))
      (suffix : Digit e aR rR) : Tree e

namespace Tree

def measure {e : Type} (measure' : e → Nat) : Tree e → Nat
  | .empty => 0
  | .single a => measure' a
  | .deep m _ _ _ => m

/-- Smart constructor for deep nodes that tracks measure. -/
def mkDeep {e : Type} {aL rL aR rR : Bool} (measure' : e → Nat) (pre : Digit e aL rL)
    (middle : Tree (Node e)) (suffix : Digit e aR rR) : Tree e :=
  .deep (pre.measure measure' + middle.measure Node.measure + suffix.measure measure') pre middle suffix

def cons' {e : Type} (measure' : e → Nat) (v : e) : Tree e → Tree e
  | .empty => .single v
  | .single v' => mkDeep measure' (.one v) .empty (.one v')
  | @deep _ true _ _ _ _ pre middle suffix => mkDeep measure' (pre.cons v).2 middle suffix
  | @deep _ false _ _ _ _ (.four a b c d) middle suffix =>
    mkDeep measure' (.two v a) (cons' Node.measure (Node.mk3 measure' b c d) middle) suffix

def snoc' {e : Type} (measure' : e → Nat) (t : Tree e) (v : e) : Tree e :=
  match t with
  | .empty => .single v
  | .single v' => mkDeep measure' (.one v') .empty (.one v)
  | @deep _ _ _ true _ _ pre middle suffix => mkDeep measure' pre middle (suffix.snoc v).2
  | @deep _ _ _ false _ _ pre middle (.four a b c d) =>
    mkDeep measure' pre (snoc' Node.measure middle (Node.mk3 measure' a b c)) (.two d v)

/-- Create a finger tree from a digit. -/
def treeOfDigit {e : Type} {a r : Bool} (measure' : e → Nat) (dig : Digit e a r) : Tree e :=
  dig.foldr (cons' measure') .empty

/-- The first element and the rest of the sequence, if it is non-empty. -/
def uncons' {e : Type} (measure' : e → Nat) : Tree e → Option (e × Tree e)
  | .empty => none
  | .single a => some (a, .empty)
  | @deep _ _ true _ _ _ pre middle suffix =>
    let (head, prefixRest) := pre.uncons
    some (head, mkDeep measure' prefixRest.2 middle suffix)
  | @deep _ _ false _ _ _ (.one a) middle suffix =>
    match uncons' Node.measure middle with
    | none => some (a, treeOfDigit measure' suffix)
    | some (node, rest) => some (a, mkDeep measure' node.toDigit rest suffix)

/-- Mirror of `uncons'` for the last element. -/
def unsnoc' {e : Type} (measure' : e → Nat) : Tree e → Option (Tree e × e)
  | .empty => none
  | .single a => some (.empty, a)
  | @deep _ _ _ _ true _ pre middle suffix =>
    let (liat, deah) := suffix.unsnoc
    some (mkDeep measure' pre middle liat.2, deah)
  | @deep _ _ _ _ false _ pre middle (.one a) =>
    match unsnoc' Node.measure middle with
    | none => some (treeOfDigit measure' pre, a)
    | some (rest, node) => some (mkDeep measure' pre rest node.toDigit, a)

/-- What is left of a deep tree once its suffix is used up. -/
def deepNoSuffix {e : Type} {a r : Bool} (measure' : e → Nat) (pre : Digit e a r)
    (middle : Tree (Node e)) : Option (Digit.AnyAR e) → Tree e
  | none =>
    match unsnoc' Node.measure middle with
    | none => treeOfDigit measure' pre
    | some (liat, deah) => mkDeep measure' pre liat deah.toDigit
  | some dig => mkDeep measure' pre middle dig.2.2

/-- What is left of a deep tree once its prefix is used up. -/
def deepNoPrefix {e : Type} {a r : Bool} (measure' : e → Nat) (middle : Tree (Node e))
    (suffix : Digit e a r) : Option (Digit.AnyAR e) → Tree e
  | none =>
    match uncons' Node.measure middle with
    | none => treeOfDigit measure' suffix
    | some (head, tail) => mkDeep measure' head.toDigit tail suffix
  | some dig => mkDeep measure' dig.2.2 middle suffix

/-- The tree of a digit that a split may have left empty. -/
def treeOfDigitOption {e : Type} (measure' : e → Nat) : Option (Digit.AnyAR e) → Tree e
  | none => .empty
  | some dig => treeOfDigit measure' dig.2.2

/-- Split a tree into the elements before a given index, the element at that
index and the elements after it. The index must exist in the tree. -/
def split {e : Type} (measure' : e → Nat) (t : Tree e) (target acc : Nat) :
    Exn (Tree e × e × Tree e) :=
  match t with
  | .empty => .error "FSequence.split index out of bounds (1)"
  | .single x =>
    if acc + measure' x ≥ target then .ok (.empty, x, .empty)
    else .error "FSequence.split index out of bounds (2)"
  | .deep _ pre middle suffix =>
    let accP := acc + pre.measure measure'
    if accP ≥ target then
      -- the split point is in the left finger
      match pre.split measure' target acc with
      | .error err => .error err
      | .ok (dl, m, dr) => .ok (treeOfDigitOption measure' dl, m, deepNoPrefix measure' middle suffix dr)
    else
      let accM := accP + middle.measure Node.measure
      if accM ≥ target then
        -- the split point is in the subtree, whose midpoint is a node
        match split Node.measure middle target accP with
        | .error err => .error err
        | .ok (lhs, m, rhs) =>
          match m.splitToDigits measure' target (lhs.measure Node.measure + accP) with
          | .error err => .error err
          | .ok (mLhs, mM, mRhs) =>
            .ok (deepNoSuffix measure' pre lhs mLhs, mM, deepNoPrefix measure' rhs suffix mRhs)
      else
        let accS := accM + suffix.measure measure'
        if accS ≥ target then
          -- the split point is in the right finger
          match suffix.split measure' target accM with
          | .error err => .error err
          | .ok (dl, m, dr) => .ok (deepNoSuffix measure' pre middle dl, m, treeOfDigitOption measure' dr)
        else .error "FSequence.split index out of bounds (3)"

end Tree

/-! ## The elements of a tree

The recursions below go through `uncons`, so that they end is a fact about
the elements of a tree, read off its shape. -/

/-- The elements below a node, for elements that stand for the lists `g`. -/
def Node.flat {e x : Type} (g : e → List x) (n : Node e) : List x := n.toDigit.toList.flatMap g

/-- The elements below a tree, for elements that stand for the lists `g`. -/
def Tree.flat {e x : Type} (g : e → List x) : Tree e → List x
  | .empty => []
  | .single a => g a
  | .deep _ pre middle suffix =>
    pre.toList.flatMap g ++ middle.flat (Node.flat g) ++ suffix.toList.flatMap g

section Flat

variable {e x : Type} {a r aL rL aR rR : Bool}

@[simp] theorem Digit.toList_one (v : e) : (Digit.one v).toList = [v] := rfl
@[simp] theorem Digit.toList_two (v w : e) : (Digit.two v w).toList = [v, w] := rfl
@[simp] theorem Digit.toList_three (u v w : e) : (Digit.three u v w).toList = [u, v, w] := rfl
@[simp] theorem Digit.toList_four (t u v w : e) : (Digit.four t u v w).toList = [t, u, v, w] := rfl

@[simp] theorem Digit.cons_toList (v : e) (d : Digit e true r) : (d.cons v).2.toList = v :: d.toList := by
  cases d <;> rfl

@[simp] theorem Digit.snoc_toList (d : Digit e true r) (v : e) : (d.snoc v).2.toList = d.toList ++ [v] := by
  cases d <;> rfl

theorem Digit.foldr_eq {acc : Type u} (f : e → acc → acc) (z : acc) (d : Digit e a r) :
    d.foldr f z = d.toList.foldr f z := by
  cases d <;> rfl

theorem Digit.toList_ne_nil (d : Digit e a r) : d.toList ≠ [] := by
  cases d <;> simp

@[simp] theorem Node.flat_mk3 (f : e → Nat) (g : e → List x) (u v w : e) :
    (Node.mk3 f u v w).flat g = g u ++ g v ++ g w := by
  simp [Node.flat, Node.mk3, Node.toDigit]

@[simp] theorem Tree.flat_mkDeep (f : e → Nat) (g : e → List x) (pre : Digit e aL rL)
    (middle : Tree (Node e)) (suffix : Digit e aR rR) :
    (Tree.mkDeep f pre middle suffix).flat g =
      pre.toList.flatMap g ++ middle.flat (Node.flat g) ++ suffix.toList.flatMap g := rfl

@[simp] theorem Tree.flat_cons' (f : e → Nat) (g : e → List x) (v : e) (t : Tree e) :
    (t.cons' f v).flat g = g v ++ t.flat g := by
  induction t with
  | empty => simp [cons', flat]
  | single => simp [cons', flat]
  | deep m pre middle suffix ih => cases pre <;> simp [cons', flat, ih]

@[simp] theorem Tree.flat_treeOfDigit (f : e → Nat) (g : e → List x) (d : Digit e a r) :
    (treeOfDigit f d).flat g = d.toList.flatMap g := by
  rw [treeOfDigit, Digit.foldr_eq]
  induction d.toList with
  | nil => rfl
  | cons v l ih => simp [ih]

theorem Tree.uncons'_eq_none {f : e → Nat} {t : Tree e} (h : t.uncons' f = none) : t = .empty := by
  cases t with
  | empty => rfl
  | single => simp [uncons'] at h
  | deep m pre middle suffix =>
    cases pre <;> simp only [uncons', reduceCtorEq] at h
    split at h <;> simp at h

theorem Tree.flat_uncons' {f : e → Nat} {g : e → List x} {t t' : Tree e} {v : e}
    (h : t.uncons' f = some (v, t')) : t.flat g = g v ++ t'.flat g := by
  induction t with
  | empty => simp [uncons'] at h
  | single =>
    simp only [uncons', Option.some.injEq, Prod.mk.injEq] at h
    obtain ⟨rfl, rfl⟩ := h
    simp [flat]
  | deep m pre middle suffix ih =>
    cases pre with
    | one u =>
      simp only [uncons'] at h
      split at h
      · next hm =>
        simp only [Option.some.injEq, Prod.mk.injEq] at h
        obtain ⟨rfl, rfl⟩ := h
        simp [flat, uncons'_eq_none hm]
      · next node rest hm =>
        simp only [Option.some.injEq, Prod.mk.injEq] at h
        obtain ⟨rfl, rfl⟩ := h
        simp [flat, ih hm, Node.flat]
    | _ =>
      simp only [uncons', Digit.uncons, Option.some.injEq, Prod.mk.injEq] at h
      obtain ⟨rfl, rfl⟩ := h
      simp [flat]

end Flat

/-! ## The top level: every element counts one -/

section Top

variable {e : Type}

/-- `Fn.const 1`, the measure of an element of a top-level tree. -/
def one (_ : e) : Nat := 1

def empty : Tree e := .empty

def singleton (v : e) : Tree e := .single v

def cons (v : e) (t : Tree e) : Tree e := t.cons' one v

def snoc (t : Tree e) (v : e) : Tree e := t.snoc' one v

def uncons (t : Tree e) : Option (e × Tree e) := t.uncons' one

def unsnoc (t : Tree e) : Option (Tree e × e) := t.unsnoc' one

/-- The elements of a top-level tree. -/
def elems (t : Tree e) : List e := t.flat fun v => [v]

theorem elems_uncons {t t' : Tree e} {v : e} (h : uncons t = some (v, t')) :
    elems t = v :: elems t' := Tree.flat_uncons' h

def headExn (t : Tree e) : Exn e :=
  match uncons t with
  | none => .error "Option.value_exn None"
  | some (head, _) => .ok head

def lastExn (t : Tree e) : Exn e :=
  match unsnoc t with
  | none => .error "Option.value_exn None"
  | some (_, last) => .ok last

def foldl {acc : Type u} (f : acc → e → acc) (z : acc) (t : Tree e) : acc :=
  match _h : uncons t with
  | none => z
  | some (head, tail) => foldl f (f z head) tail
termination_by (elems t).length
decreasing_by
  rw [elems_uncons _h]
  exact Nat.lt_succ_self _

def foldr {acc : Type u} (f : e → acc → acc) (z : acc) (t : Tree e) : acc :=
  match _h : uncons t with
  | none => z
  | some (head, tail) => f head (foldr f z tail)
termination_by (elems t).length
decreasing_by
  rw [elems_uncons _h]
  exact Nat.lt_succ_self _

/-- `Container.Make`'s `is_empty`: no iteration of the fold. -/
def isEmpty (t : Tree e) : Bool := foldl (fun _ _ => false) true t

def length (t : Tree e) : Nat := t.measure one

/-- `Sequence.unfold ~init:t ~f:uncons`. -/
def toSeq (t : Tree e) : List e :=
  match _h : uncons t with
  | none => []
  | some (head, tail) => head :: toSeq tail
termination_by (elems t).length
decreasing_by
  rw [elems_uncons _h]
  exact Nat.lt_succ_self _

/-- Compare two trees element by element. -/
def equal (eqInner : e → e → Bool) (xs ys : Tree e) : Bool :=
  match _h : uncons xs, uncons ys with
  | some (x, xsTail), some (y, ysTail) => eqInner x y && equal eqInner xsTail ysTail
  | _, _ => false
termination_by (elems xs).length
decreasing_by
  rw [elems_uncons _h]
  exact Nat.lt_succ_self _

def toList (t : Tree e) : List e := toSeq t

/-- Split a tree into the elements before some index and the elements at or
after it, also when the index is out of range. -/
def splitAt (t : Tree e) (idx : Nat) : Exn (Tree e × Tree e) :=
  match t with
  | .empty => .ok (empty, empty)
  | _ =>
    if idx = 0 then .ok (empty, t)
    else if t.measure one ≥ idx then do
      let (lhs, m, rhs) ← t.split one idx 0
      .ok (snoc lhs m, rhs)
    else .ok (t, empty)

end Top

end Mina.FSequence
