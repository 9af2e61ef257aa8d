/-
Amounts in the circuit (`Checked` and `Signed.Checked` of `currency/currency.ml`).

A variable is 64 booleans, a signed one has a field element with the square 1
beside them. Sums are computed in the field and unpacked: each of them is the
image of an integer between `-2^65` and `2^65`, and in a field of more than
`2^66` elements the images of the negative ones are too large to be unpacked.
So an operation has an output if and only if the plain one has, and it is the
same integer (`currency_exact`); of the sign, which the prover chooses, only
that of zero is free.
-/
import Mina.Base.FeeExcessChecked

namespace Mina.Currency

/-! ## Variables -/

/-- `Unpacked.var`: the bits of an amount, the lowest first. -/
abbrev Var := Fin 64 → Bool

/-- What a variable is read as. -/
def Var.value (v : Var) : Amount := ⟨Nat.ofBits v, Nat.ofBits_lt_two_pow v⟩

def toInt (x : Amount) : ℤ := x.val

def Var.toInt (v : Var) : ℤ := Currency.toInt v.value

def varOfT (t : Amount) : Var := fun i => t.val.testBit i

section

variable {p : ℕ}

/-- `Field.Var.project`, by Horner's rule. -/
def project {n : ℕ} (bits : Fin n → Bool) : ZMod p :=
  Fin.foldr n (fun i acc => 2 * acc + if bits i then 1 else 0) 0

def packVar (v : Var) : ZMod p := project v

/-- `Field.Checked.unpack` and `unpack_flagged` with the length of an amount.
The first cannot be satisfied where it is `none`. -/
structure Unpacking (p : ℕ) where
  unpackVar : ZMod p → Option Var
  unpackFlagged : ZMod p → Var × Bool
  unpackVar_isSome : ∀ x, (unpackVar x).isSome ↔ x.val < 2 ^ 64
  unpackVar_value : ∀ x v, unpackVar x = some v → v.value.val = x.val
  unpackFlagged_success : ∀ x, (unpackFlagged x).2 = true ↔ x.val < 2 ^ 64
  unpackFlagged_value : ∀ x, (unpackFlagged x).2 = true → (unpackFlagged x).1.value.val = x.val

/-- `Sgn.to_field`. -/
def sgnToField : Sgn → ZMod p
  | .pos => 1
  | .neg => -1

/-- `Sgn.of_field_exn`. -/
def sgnOfFieldExn (x : ZMod p) : Exn Sgn :=
  if x = 1 then .ok .pos
  else if x = -1 then .ok .neg
  else .error "Sgn.of_field: Expected positive or negative 1"

/-- `Signed.var`, with the check of `Sgn.typ`. -/
structure SignedVar (p : ℕ) where
  magnitude : Var
  sgn : ZMod p
  check : sgn * sgn = 1

namespace SignedVar

/-- `Signed.typ.read`. -/
def read (x : SignedVar p) : Exn SignedAmount :=
  (sgnOfFieldExn x.sgn).andThen fun sgn => .ok ⟨x.magnitude.value, sgn⟩

/-- What a variable is read as, by `read_eq`. -/
def value (x : SignedVar p) : SignedAmount := ⟨x.magnitude.value, if x.sgn = 1 then .pos else .neg⟩

def toInt (x : SignedVar p) : ℤ := x.value.toInt

def toFieldVar (x : SignedVar p) : ZMod p := packVar x.magnitude * x.sgn

end SignedVar

/-! ## The operations -/

namespace Checked

variable (u : Unpacking p)

def sub (x y : Var) : Option Var := u.unpackVar (packVar x - packVar y)

/-- The bits and the underflow. -/
def subFlagged (x y : Var) : Var × Bool :=
  let z := u.unpackFlagged (packVar x - packVar y)
  (z.1, !z.2)

def add (x y : Var) : Option Var := u.unpackVar (packVar x + packVar y)

/-- The bits and the overflow. -/
def addFlagged (x y : Var) : Var × Bool :=
  let z := u.unpackFlagged (packVar x + packVar y)
  (z.1, !z.2)

def addSigned (t : Var) (d : SignedVar p) : Option Var := u.unpackVar (packVar t + d.toFieldVar)

def addSignedFlagged (t : Var) (d : SignedVar p) : Var × Bool :=
  let z := u.unpackFlagged (packVar t + d.toFieldVar)
  (z.1, !z.2)

end Checked

namespace SignedChecked

/-- The sign that `Signed.Checked.add` asks the prover to compute. -/
def computeSgn (x y : SignedVar p) : Exn (ZMod p) :=
  x.read.andThen fun x => y.read.andThen fun y =>
    match SignedAmount.add x y with
    | some z => .ok (sgnToField z.sgn)
    | none => .error "Option.value_exn None"

/-- `Signed.Checked.add`, when the prover supplies the sign `sgn`. -/
def add (u : Unpacking p) (sgn : ZMod p) (x y : SignedVar p) : Option (SignedVar p) :=
  if check : sgn * sgn = 1 then
    (u.unpackVar (sgn * (x.toFieldVar + y.toFieldVar))).map fun magnitude => { magnitude, sgn, check }
  else none

def equal (t1 t2 : SignedVar p) : Bool := t1.toFieldVar = t2.toFieldVar

end SignedChecked

end

/-! ## Exactness -/

/-- A result is there if and only if the integer `n` can be represented, and
is `n` then. -/
def Exact {α : Type} (toInt : α → ℤ) (result : Option α) (n : ℤ) : Prop :=
  (result.isSome ↔ ∃ z, toInt z = n) ∧ ∀ z, result = some z → toInt z = n

/-- The flag is raised if and only if the integer cannot be represented, and
the bits are the integer otherwise. -/
def ExactFlagged (result : Var × Bool) (n : ℤ) : Prop :=
  (result.2 = true ↔ ¬∃ z : Var, z.toInt = n) ∧ (result.2 = false → result.1.toInt = n)

structure PlainExact : Prop where
  add : ∀ x y : Amount, Exact toInt (Currency.add x y) (toInt x + toInt y)
  sub : ∀ x y : Amount, Exact toInt (Currency.sub x y) (toInt x - toInt y)
  scale : ∀ (x : Amount) (i : ℕ), 1 ≤ i → i < 2 ^ 64 →
    ∃ r, Currency.scale x i = .ok r ∧ Exact toInt r (toInt x * i)
  signedAdd : ∀ s t : SignedAmount, Exact SignedAmount.toInt (SignedAmount.add s t) (s.toInt + t.toInt)

structure CheckedExact {p : ℕ} (u : Unpacking p) : Prop where
  add : ∀ x y : Var, Exact Var.toInt (Checked.add u x y) (x.toInt + y.toInt)
  addFlagged : ∀ x y : Var, ExactFlagged (Checked.addFlagged u x y) (x.toInt + y.toInt)
  sub : ∀ x y : Var, Exact Var.toInt (Checked.sub u x y) (x.toInt - y.toInt)
  subFlagged : ∀ x y : Var, ExactFlagged (Checked.subFlagged u x y) (x.toInt - y.toInt)
  addSigned : ∀ (t : Var) (d : SignedVar p), Exact Var.toInt (Checked.addSigned u t d) (t.toInt + d.toInt)
  addSignedFlagged : ∀ (t : Var) (d : SignedVar p),
    ExactFlagged (Checked.addSignedFlagged u t d) (t.toInt + d.toInt)

/-- `Signed.Checked.add` and `equal`, whatever the prover supplies. -/
structure SignedExact {p : ℕ} (u : Unpacking p) : Prop where
  satisfiable : ∀ x y : SignedVar p,
    (∃ sgn, (SignedChecked.add u sgn x y).isSome) ↔ (SignedAmount.add x.value y.value).isSome
  output : ∀ (x y : SignedVar p) (sgn : ZMod p) (z : SignedVar p),
    SignedChecked.add u sgn x y = some z → z.toInt = x.toInt + y.toInt
  /-- Two provers have the same output, unless it is zero. -/
  unique : ∀ x y : SignedVar p, x.toInt + y.toInt ≠ 0 → ∀ (sgn sgn' : ZMod p) (z z' : SignedVar p),
    SignedChecked.add u sgn x y = some z → SignedChecked.add u sgn' x y = some z' → z = z'
  /-- Zero has either sign. -/
  zero : ∀ x y : SignedVar p, x.toInt + y.toInt = 0 → ∀ sgn : ZMod p, sgn * sgn = 1 →
    ∃ z, SignedChecked.add u sgn x y = some z ∧ z.sgn = sgn ∧ z.magnitude.value = 0
  /-- The prover of the source has the plain result. -/
  honest : ∀ (x y : SignedVar p) (z : SignedAmount), SignedAmount.add x.value y.value = some z →
    ∃ sgn w, SignedChecked.computeSgn x y = .ok sgn ∧ SignedChecked.add u sgn x y = some w ∧ w.value = z
  equal : ∀ x y : SignedVar p, SignedChecked.equal x y = SignedAmount.equal x.value y.value

/-! ## The plain operations -/

theorem toInt_nonneg (x : Amount) : 0 ≤ toInt x := Int.natCast_nonneg _

theorem toInt_lt (x : Amount) : toInt x < 2 ^ 64 := by
  have := x.isLt
  rw [toInt]
  omega

theorem toInt_inj {x y : Amount} (h : toInt x = toInt y) : x = y :=
  Fin.ext (Int.natCast_inj.1 h)

/-- The integers that are amounts. -/
theorem exists_toInt {n : ℤ} : (∃ z, toInt z = n) ↔ 0 ≤ n ∧ n < 2 ^ 64 := by
  constructor
  · intro h
    obtain ⟨z, rfl⟩ := h
    exact ⟨toInt_nonneg z, toInt_lt z⟩
  · intro h
    exact ⟨⟨n.toNat, by omega⟩, Int.toNat_of_nonneg h.1⟩

/-- The integers that are signed amounts. -/
theorem exists_signed {n : ℤ} : (∃ z : SignedAmount, z.toInt = n) ↔ |n| < 2 ^ 64 := by
  constructor
  · intro h
    obtain ⟨z, rfl⟩ := h
    exact z.abs_toInt_lt
  · intro h
    have hn : n.natAbs < 2 ^ 64 := by
      rw [Int.abs_eq_natAbs] at h
      omega
    rcases Int.natAbs_eq n with hpos | hneg
    · exact ⟨⟨⟨n.natAbs, hn⟩, .pos⟩, hpos.symm⟩
    · exact ⟨⟨⟨n.natAbs, hn⟩, .neg⟩, hneg.symm⟩

/-- A result that is none where the integer is no amount, and the integer
where there is one. -/
theorem Exact.of_iff {result : Option Amount} {n : ℤ} (h : ∀ z, result = some z ↔ toInt z = n) :
    Exact toInt result n := by
  refine ⟨?_, fun z hz => (h z).1 hz⟩
  rw [Option.isSome_iff_exists]
  exact exists_congr h

theorem add_exact (x y : Amount) : Exact toInt (Currency.add x y) (toInt x + toInt y) := by
  refine .of_iff fun z => ?_
  rw [add_eq_some, toInt, toInt, toInt]
  omega

theorem sub_exact (x y : Amount) : Exact toInt (Currency.sub x y) (toInt x - toInt y) := by
  refine .of_iff fun z => ?_
  rw [sub_eq_some, toInt, toInt, toInt]
  omega

/-- The quotient of the largest amount bounds the factors without overflow. -/
theorem scale_exact (x : Amount) {i : ℕ} (hi : 1 ≤ i) (hint : i < 2 ^ 64) :
    ∃ r, Currency.scale x i = .ok r ∧ Exact toInt r (toInt x * i) := by
  have hval : (Fin.ofNat (2 ^ 64) i).val = i := Nat.mod_eq_of_lt hint
  have hzero : Fin.ofNat (2 ^ 64) i ≠ 0 := by
    intro h
    rw [Fin.ext_iff, hval, Fin.val_zero] at h
    omega
  refine ⟨_, by rw [scale]; exact if_neg hzero, .of_iff fun z => ?_⟩
  have hle : x ≤ Fin.last _ / Fin.ofNat (2 ^ 64) i ↔ x.val * i < 2 ^ 64 := by
    rw [Fin.le_def, Fin.div_val, hval, Nat.le_div_iff_mul_le hi, Fin.val_last]
    omega
  have hcast : toInt z = toInt x * i ↔ z.val = x.val * i := by
    rw [toInt, toInt]
    exact_mod_cast Iff.rfl
  rw [hcast]
  by_cases hmax : x.val * i < 2 ^ 64
  · have hmul : (x * Fin.ofNat (2 ^ 64) i).val = x.val * i := by
      rw [Fin.val_mul, hval, Nat.mod_eq_of_lt hmax]
    rw [if_pos (hle.2 hmax), Option.some.injEq, Fin.ext_iff, hmul]
    exact eq_comm
  · have := z.isLt
    rw [if_neg (mt hle.1 hmax)]
    simp only [reduceCtorEq, false_iff]
    omega

theorem signedAdd_exact (s t : SignedAmount) :
    Exact SignedAmount.toInt (SignedAmount.add s t) (s.toInt + t.toInt) := by
  refine ⟨?_, fun z hz => SignedAmount.add_toInt hz⟩
  cases h : SignedAmount.add s t with
  | none =>
    have hbig := SignedAmount.add_eq_none h
    rw [exists_signed]
    exact iff_of_false Bool.false_ne_true (not_lt.2 hbig)
  | some z => exact iff_of_true rfl ⟨z, SignedAmount.add_toInt h⟩

theorem plainExact : PlainExact :=
  ⟨add_exact, sub_exact, fun x _ => scale_exact x, signedAdd_exact⟩

/-! ## Variables as integers -/

theorem value_inj {v w : Var} (h : v.value = w.value) : v = w := by
  funext i
  have hbits := Fin.ext_iff.1 h
  calc v i = (Nat.ofBits v).testBit i := (Nat.testBit_ofBits_lt v i i.isLt).symm
    _ = (Nat.ofBits w).testBit i := by rw [show Nat.ofBits v = Nat.ofBits w from hbits]
    _ = w i := Nat.testBit_ofBits_lt w i i.isLt

theorem value_val (v : Var) : v.value.val = Nat.ofBits v := rfl

theorem value_varOfT (t : Amount) : (varOfT t).value = t := by
  have hbits : varOfT t = fun i : Fin 64 => t.val.testBit i := rfl
  rw [Fin.ext_iff, value_val, hbits, Nat.ofBits_testBit, Nat.mod_eq_of_lt t.isLt]

theorem exists_var {n : ℤ} : (∃ z : Var, z.toInt = n) ↔ 0 ≤ n ∧ n < 2 ^ 64 := by
  rw [← exists_toInt]
  constructor
  · intro h
    obtain ⟨v, hv⟩ := h
    exact ⟨v.value, hv⟩
  · intro h
    obtain ⟨t, ht⟩ := h
    exact ⟨varOfT t, by rw [Var.toInt, value_varOfT, ht]⟩

theorem Var.abs_toInt_lt (v : Var) : |v.toInt| < 2 ^ 64 := by
  rw [Var.toInt, abs_of_nonneg (toInt_nonneg _)]
  exact toInt_lt _

theorem abs_add_lt {m n : ℤ} (hm : |m| < 2 ^ 64) (hn : |n| < 2 ^ 64) : |m + n| < 2 ^ 65 := by
  rw [abs_lt] at *
  omega

theorem abs_sub_lt {m n : ℤ} (hm : |m| < 2 ^ 64) (hn : |n| < 2 ^ 64) : |m - n| < 2 ^ 65 := by
  rw [abs_lt] at *
  omega

section

variable {p : ℕ}

theorem project_eq {n : ℕ} (bits : Fin n → Bool) : (project bits : ZMod p) = (Nat.ofBits bits : ℕ) := by
  induction n with
  | zero => rw [project, Fin.foldr_zero, Nat.ofBits_zero, Nat.cast_zero]
  | succ n ih =>
    have hsucc : (project bits : ZMod p) = 2 * project (bits ∘ Fin.succ) + if bits 0 then 1 else 0 :=
      Fin.foldr_succ ..
    rw [hsucc, ih, Nat.ofBits_succ]
    cases bits 0 <;> simp

theorem packVar_eq (v : Var) : (packVar v : ZMod p) = (v.toInt : ℤ) := by
  rw [packVar, project_eq, Var.toInt, toInt, Int.cast_natCast]
  rfl

/-- The sign of a variable as an integer. -/
def SignedVar.sign (x : SignedVar p) : ℤ := if x.sgn = 1 then 1 else -1

theorem sign_cases (x : SignedVar p) : x.sign = 1 ∨ x.sign = -1 := by
  rw [SignedVar.sign]
  split
  · exact .inl rfl
  · exact .inr rfl

theorem sign_mul_self (x : SignedVar p) : x.sign * x.sign = 1 := by
  rcases sign_cases x with h | h <;> rw [h] <;> rfl

theorem toInt_eq (x : SignedVar p) : x.toInt = x.magnitude.toInt * x.sign := by
  rw [SignedVar.toInt, SignedVar.value, SignedVar.sign]
  by_cases h : x.sgn = 1
  · rw [if_pos h, if_pos h, mul_one]
    rfl
  · rw [if_neg h, if_neg h, mul_neg_one]
    rfl

theorem abs_sign_mul (x : SignedVar p) (n : ℤ) : |x.sign * n| = |n| := by
  rcases sign_cases x with h | h
  · rw [h, one_mul]
  · rw [h, neg_one_mul, abs_neg]

theorem SignedVar.abs_toInt_lt (x : SignedVar p) : |x.toInt| < 2 ^ 64 := x.value.abs_toInt_lt

theorem packVar_add (x y : Var) : (packVar x + packVar y : ZMod p) = (x.toInt + y.toInt : ℤ) := by
  rw [packVar_eq, packVar_eq, Int.cast_add]

theorem packVar_sub (x y : Var) : (packVar x - packVar y : ZMod p) = (x.toInt - y.toInt : ℤ) := by
  rw [packVar_eq, packVar_eq, Int.cast_sub]

theorem sgnToField_mul_self (s : Sgn) : (sgnToField s * sgnToField s : ZMod p) = 1 := by
  cases s with
  | pos => exact one_mul 1
  | neg => exact neg_one_mul (-1) |>.trans (neg_neg 1)

/-- `Signed.Checked.constant`. -/
def SignedVar.constant (t : SignedAmount) : SignedVar p :=
  ⟨varOfT t.magnitude, sgnToField t.sgn, sgnToField_mul_self t.sgn⟩

variable [Fact p.Prime]

theorem sgn_cases (x : SignedVar p) : x.sgn = 1 ∨ x.sgn = -1 := mul_self_eq_one_iff.1 x.check

theorem read_eq (x : SignedVar p) : x.read = .ok x.value := by
  rw [SignedVar.read, sgnOfFieldExn, SignedVar.value]
  split
  · rfl
  next h => rw [if_pos ((sgn_cases x).resolve_left h)]; rfl

theorem cast_sign (x : SignedVar p) : ((x.sign : ℤ) : ZMod p) = x.sgn := by
  rw [SignedVar.sign]
  split
  next h => rw [h, Int.cast_one]
  next h => rw [(sgn_cases x).resolve_left h, Int.cast_neg, Int.cast_one]

theorem toFieldVar_eq (x : SignedVar p) : x.toFieldVar = (x.toInt : ℤ) := by
  rw [SignedVar.toFieldVar, packVar_eq, toInt_eq, Int.cast_mul, cast_sign]

/-! ## Integers in the field -/

/-- A negative integer that is not too large is not in the range of the
amounts. -/
theorem val_intCast (hp : 2 ^ 66 < p) {n : ℤ} (hn : |n| < 2 ^ 65) :
    ((n : ZMod p).val : ℤ) = if 0 ≤ n then n else n + p := by
  obtain ⟨hlow, hhigh⟩ := abs_lt.1 hn
  rw [ZMod.val_intCast]
  split
  next h => exact Int.emod_eq_of_lt h (by omega)
  next h =>
    rw [← Int.add_emod_right]
    exact Int.emod_eq_of_lt (by omega) (by omega)

theorem intCast_inj (hp : 2 ^ 66 < p) {m n : ℤ} (hm : |m| < 2 ^ 65) (hn : |n| < 2 ^ 65) :
    (m : ZMod p) = n ↔ m = n := by
  refine ⟨fun h => ?_, fun h => by rw [h]⟩
  have hval := val_intCast hp hm
  rw [h, val_intCast hp hn] at hval
  obtain ⟨hmlow, hmhigh⟩ := abs_lt.1 hm
  obtain ⟨hnlow, hnhigh⟩ := abs_lt.1 hn
  split at hval <;> split at hval <;> omega

variable (u : Unpacking p)

theorem unpackVar_exact (hp : 2 ^ 66 < p) {n : ℤ} (hn : |n| < 2 ^ 65) :
    Exact Var.toInt (u.unpackVar (n : ZMod p)) n := by
  have hval := val_intCast hp hn
  obtain ⟨hlow, hhigh⟩ := abs_lt.1 hn
  constructor
  · rw [u.unpackVar_isSome, exists_var]
    split at hval <;> omega
  · intro v hv
    have hlt := (u.unpackVar_isSome n).1 (Option.isSome_iff_exists.2 ⟨v, hv⟩)
    rw [Var.toInt, toInt, u.unpackVar_value n v hv, hval]
    split at hval
    next h => exact if_pos h
    next => omega

theorem unpackFlagged_exact (hp : 2 ^ 66 < p) {n : ℤ} (hn : |n| < 2 ^ 65) :
    ExactFlagged ((u.unpackFlagged (n : ZMod p)).1, !(u.unpackFlagged (n : ZMod p)).2) n := by
  have hval := val_intCast hp hn
  obtain ⟨hlow, hhigh⟩ := abs_lt.1 hn
  constructor
  · rw [Bool.not_eq_true', ← Bool.not_eq_true, u.unpackFlagged_success, exists_var]
    split at hval <;> omega
  · intro hflag
    have hsuccess : (u.unpackFlagged (n : ZMod p)).2 = true := by simpa using hflag
    have hlt := (u.unpackFlagged_success n).1 hsuccess
    rw [Var.toInt, toInt, u.unpackFlagged_value n hsuccess, hval]
    split at hval
    next h => exact if_pos h
    next => omega

/-! ## The circuit -/

theorem packVar_addSigned (t : Var) (d : SignedVar p) :
    (packVar t + d.toFieldVar : ZMod p) = (t.toInt + d.toInt : ℤ) := by
  rw [packVar_eq, toFieldVar_eq, Int.cast_add]

theorem checkedExact (hp : 2 ^ 66 < p) : CheckedExact u where
  add x y := by
    rw [Checked.add, packVar_add]
    exact unpackVar_exact u hp (abs_add_lt x.abs_toInt_lt y.abs_toInt_lt)
  addFlagged x y := by
    rw [Checked.addFlagged, packVar_add]
    exact unpackFlagged_exact u hp (abs_add_lt x.abs_toInt_lt y.abs_toInt_lt)
  sub x y := by
    rw [Checked.sub, packVar_sub]
    exact unpackVar_exact u hp (abs_sub_lt x.abs_toInt_lt y.abs_toInt_lt)
  subFlagged x y := by
    rw [Checked.subFlagged, packVar_sub]
    exact unpackFlagged_exact u hp (abs_sub_lt x.abs_toInt_lt y.abs_toInt_lt)
  addSigned t d := by
    rw [Checked.addSigned, packVar_addSigned]
    exact unpackVar_exact u hp (abs_add_lt t.abs_toInt_lt d.abs_toInt_lt)
  addSignedFlagged t d := by
    rw [Checked.addSignedFlagged, packVar_addSigned]
    exact unpackFlagged_exact u hp (abs_add_lt t.abs_toInt_lt d.abs_toInt_lt)

/-! ## Signed amounts -/

/-- The outputs of the circuit: the prover's sign turns the sum into a
magnitude. -/
theorem signedAdd_eq_some (hp : 2 ^ 66 < p) {sgn : ZMod p} {x y z : SignedVar p} :
    SignedChecked.add u sgn x y = some z ↔
      z.sgn = sgn ∧ z.magnitude.toInt = z.sign * (x.toInt + y.toInt) := by
  have hunpack (z : SignedVar p) :
      Exact Var.toInt (u.unpackVar (z.sgn * (x.toFieldVar + y.toFieldVar))) (z.sign * (x.toInt + y.toInt)) := by
    have hcast : z.sgn * (x.toFieldVar + y.toFieldVar) = (z.sign * (x.toInt + y.toInt) : ℤ) := by
      rw [toFieldVar_eq, toFieldVar_eq, Int.cast_mul, cast_sign, Int.cast_add]
    rw [hcast]
    refine unpackVar_exact u hp ?_
    rw [abs_sign_mul]
    exact abs_add_lt x.abs_toInt_lt y.abs_toInt_lt
  constructor
  · intro h
    rw [SignedChecked.add] at h
    split at h
    next hcheck =>
      obtain ⟨magnitude, hmagnitude, rfl⟩ := Option.map_eq_some_iff.1 h
      exact ⟨rfl, (hunpack ⟨magnitude, sgn, hcheck⟩).2 _ hmagnitude⟩
    next => cases h
  · intro h
    obtain ⟨rfl, hmagnitude⟩ := h
    obtain ⟨v, hv⟩ := Option.isSome_iff_exists.1 ((hunpack z).1.2 ⟨_, hmagnitude⟩)
    have hvz : v = z.magnitude := value_inj (toInt_inj (((hunpack z).2 v hv).trans hmagnitude.symm))
    rw [SignedChecked.add, dif_pos z.check, hv, hvz]
    rfl

theorem signedAdd_output (hp : 2 ^ 66 < p) {sgn : ZMod p} {x y z : SignedVar p}
    (h : SignedChecked.add u sgn x y = some z) : z.toInt = x.toInt + y.toInt := by
  obtain ⟨-, hmagnitude⟩ := (signedAdd_eq_some u hp).1 h
  calc z.toInt = z.magnitude.toInt * z.sign := toInt_eq z
    _ = (z.sign * z.sign) * (x.toInt + y.toInt) := by rw [hmagnitude]; ring
    _ = x.toInt + y.toInt := by rw [sign_mul_self, one_mul]

theorem signedVar_ext {z z' : SignedVar p} (hmagnitude : z.magnitude.toInt = z'.magnitude.toInt)
    (hsign : z.sign = z'.sign) : z = z' := by
  have hsgn : z.sgn = z'.sgn := by rw [← cast_sign z, ← cast_sign z', hsign]
  have hvar : z.magnitude = z'.magnitude := value_inj (toInt_inj hmagnitude)
  obtain ⟨m, s, hs⟩ := z
  obtain ⟨m', s', hs'⟩ := z'
  cases hvar
  cases hsgn
  rfl

theorem signedAdd_unique (hp : 2 ^ 66 < p) {x y : SignedVar p} (hsum : x.toInt + y.toInt ≠ 0)
    {sgn sgn' : ZMod p} {z z' : SignedVar p} (h : SignedChecked.add u sgn x y = some z)
    (h' : SignedChecked.add u sgn' x y = some z') : z = z' := by
  obtain ⟨-, hm⟩ := (signedAdd_eq_some u hp).1 h
  obtain ⟨-, hm'⟩ := (signedAdd_eq_some u hp).1 h'
  -- a magnitude is not negative, so its sign is the one of the sum
  have hpos : 0 ≤ z.magnitude.toInt := toInt_nonneg _
  have hpos' : 0 ≤ z'.magnitude.toInt := toInt_nonneg _
  have hsign : z.sign = z'.sign := by
    rw [hm] at hpos
    rw [hm'] at hpos'
    rcases sign_cases z with h1 | h1 <;> rcases sign_cases z' with h2 | h2 <;> rw [h1] at hpos ⊢ <;>
      rw [h2] at hpos' ⊢ <;> omega
  exact signedVar_ext (by rw [hm, hm', hsign]) hsign

theorem value_constant (hp : 2 ^ 66 < p) (t : SignedAmount) : (SignedVar.constant t : SignedVar p).value = t := by
  have hne : (-1 : ZMod p) ≠ 1 := by
    have : Fact (2 < p) := ⟨by omega⟩
    exact ZMod.neg_one_ne_one
  obtain ⟨magnitude, sgn⟩ := t
  rw [SignedVar.value, SignedVar.constant, value_varOfT]
  cases sgn with
  | pos => rw [if_pos]; rfl
  | neg => rw [if_neg]; exact hne

theorem signedAdd_zero (hp : 2 ^ 66 < p) {x y : SignedVar p} (hsum : x.toInt + y.toInt = 0) {sgn : ZMod p}
    (hsgn : sgn * sgn = 1) :
    ∃ z, SignedChecked.add u sgn x y = some z ∧ z.sgn = sgn ∧ z.magnitude.value = 0 := by
  refine ⟨⟨varOfT 0, sgn, hsgn⟩, (signedAdd_eq_some u hp).2 ⟨rfl, ?_⟩, rfl, value_varOfT 0⟩
  rw [hsum, mul_zero, Var.toInt, value_varOfT]
  rfl

theorem signedAdd_honest (hp : 2 ^ 66 < p) {x y : SignedVar p} {z : SignedAmount}
    (h : SignedAmount.add x.value y.value = some z) :
    ∃ sgn w, SignedChecked.computeSgn x y = .ok sgn ∧ SignedChecked.add u sgn x y = some w ∧ w.value = z := by
  have hvalue := value_constant (p := p) hp z
  refine ⟨sgnToField z.sgn, .constant z, ?_, (signedAdd_eq_some u hp).2 ⟨rfl, ?_⟩, hvalue⟩
  · rw [SignedChecked.computeSgn, read_eq, read_eq, Exn.andThen_ok, Exn.andThen_ok, h]
  · have hsum : (SignedVar.constant z : SignedVar p).toInt = x.toInt + y.toInt := by
      rw [SignedVar.toInt, hvalue]
      exact SignedAmount.add_toInt h
    rw [← hsum, toInt_eq, mul_comm, mul_assoc, sign_mul_self, mul_one]

theorem signedAdd_satisfiable (hp : 2 ^ 66 < p) (x y : SignedVar p) :
    (∃ sgn, (SignedChecked.add u sgn x y).isSome) ↔ (SignedAmount.add x.value y.value).isSome := by
  constructor
  · intro h
    obtain ⟨sgn, hsome⟩ := h
    obtain ⟨z, hz⟩ := Option.isSome_iff_exists.1 hsome
    exact (signedAdd_exact x.value y.value).1.2 ⟨z.value, signedAdd_output u hp hz⟩
  · intro h
    obtain ⟨z, hz⟩ := Option.isSome_iff_exists.1 h
    obtain ⟨sgn, w, -, hw, -⟩ := signedAdd_honest u hp hz
    exact ⟨sgn, Option.isSome_iff_exists.2 ⟨w, hw⟩⟩

/-- Signed amounts are equal if they are the same integer. -/
theorem equal_iff_toInt {s t : SignedAmount} : SignedAmount.equal s t = true ↔ s.toInt = t.toInt := by
  rw [SignedAmount.equal, decide_eq_true_eq, SignedAmount.magnitude_eq_zero, SignedAmount.magnitude_eq_zero]
  constructor
  · intro h
    rcases h with hzero | rfl
    · rw [hzero.1, hzero.2]
    · rfl
  · intro h
    by_cases hzero : s.toInt = 0
    · exact .inl ⟨hzero, h ▸ hzero⟩
    · refine .inr (SignedAmount.Canonical.eq_of_toInt ?_ ?_ h)
      · exact fun hs => absurd (SignedAmount.magnitude_eq_zero.1 hs) hzero
      · exact fun ht => absurd (SignedAmount.magnitude_eq_zero.1 ht) (h ▸ hzero)

theorem equal_exact (hp : 2 ^ 66 < p) (x y : SignedVar p) :
    SignedChecked.equal x y = SignedAmount.equal x.value y.value := by
  have hfield : x.toFieldVar = y.toFieldVar ↔ x.toInt = y.toInt := by
    rw [toFieldVar_eq, toFieldVar_eq]
    exact intCast_inj hp (x.abs_toInt_lt.trans (by norm_num)) (y.abs_toInt_lt.trans (by norm_num))
  rw [Bool.eq_iff_iff, SignedChecked.equal, decide_eq_true_eq, hfield, equal_iff_toInt]
  rfl

theorem signedExact (hp : 2 ^ 66 < p) : SignedExact u where
  satisfiable := signedAdd_satisfiable u hp
  output _ _ _ _ h := signedAdd_output u hp h
  unique _ _ hsum _ _ _ _ h h' := signedAdd_unique u hp hsum h h'
  zero _ _ hsum _ hsgn := signedAdd_zero u hp hsum hsgn
  honest _ _ _ h := signedAdd_honest u hp h
  equal := equal_exact hp

/-- **Currency arithmetic is exact**: outside of the circuit, in it, and for
signed amounts whatever sign the prover supplies. -/
theorem currency_exact (hp : 2 ^ 66 < p) : PlainExact ∧ CheckedExact u ∧ SignedExact u :=
  ⟨plainExact, checkedExact u hp, signedExact u hp⟩

end

/-- The unpacking by the canonical representative. -/
def canonicalUnpacking (p : ℕ) : Unpacking p where
  unpackVar x := if h : x.val < 2 ^ 64 then some (varOfT ⟨x.val, h⟩) else none
  unpackFlagged x := (varOfT (Fin.ofNat _ x.val), x.val < 2 ^ 64)
  unpackVar_isSome x := by
    split
    next h => exact iff_of_true rfl h
    next h => exact iff_of_false Bool.false_ne_true h
  unpackVar_value x v hv := by
    split at hv
    · cases hv
      rw [value_varOfT]
    · cases hv
  unpackFlagged_success x := decide_eq_true_iff
  unpackFlagged_value x hx := by
    rw [value_varOfT]
    exact Nat.mod_eq_of_lt (of_decide_eq_true hx)

/-- In the field of a Mersenne prime, the largest amount and one are too
large to add. -/
theorem currency_exact_mersenne :
    Nat.Prime (mersenne 89) ∧ 2 ^ 66 < mersenne 89 ∧
      Checked.add (canonicalUnpacking (mersenne 89)) (varOfT (Fin.last _)) (varOfT 1) = none ∧
      PlainExact ∧ CheckedExact (canonicalUnpacking (mersenne 89)) ∧
      SignedExact (canonicalUnpacking (mersenne 89)) := by
  have hprime : Nat.Prime (mersenne 89) := lucas_lehmer_sufficiency _ (by norm_num) (by norm_num)
  have : Fact (Nat.Prime (mersenne 89)) := ⟨hprime⟩
  have hp : 2 ^ 66 < mersenne 89 := by norm_num [mersenne]
  have hexact := currency_exact (canonicalUnpacking (mersenne 89)) hp
  refine ⟨hprime, hp, ?_, hexact⟩
  rw [← Option.not_isSome_iff_eq_none, (hexact.2.1.add _ _).1, exists_var]
  rw [Var.toInt, Var.toInt, value_varOfT, value_varOfT]
  decide

end Mina.Currency
