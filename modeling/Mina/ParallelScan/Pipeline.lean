/-
What the scan state is for, without its trees: a pipeline of full blocks of
data that are merged, behind a block that is being filled.

`Pipeline` keeps the data and the number of jobs that are left of the round;
a round is the time between two full blocks. Its operations take jobs
(`work`) and data (`fill`, `rotate`), and neither loses nor reorders any
data: what has come out, and then what is in the pipeline, is what went in
(`data_work`, `data_fill`, `data_turn`).
-/
import Mina.ParallelScan.Rounds

namespace Mina.ParallelScan

open Mina.ParallelScan.Tree State

/-- A pipeline with blocks of `2 ^ h` data, of which every `D`th is worked on
in a round. -/
structure Pipeline (B : Type) (h D : Nat) where
  /-- The data of the block that is being filled. -/
  current : List B
  /-- The full blocks, newest first. -/
  full : List (Nat → B)
  /-- The jobs of the round that are not completed. -/
  left : Nat
  room : current.length < 2 ^ h
  left_le : left ≤ before h (full.length / D)
  full_le : full.length ≤ (h + 1) * D
  full_lt : left = 0 → full.length < (h + 1) * D

namespace Pipeline

variable {M B : Type} {h D : Nat} (p : Pipeline B h D)

/-- The free places of the block that is being filled. -/
def space : Nat := 2 ^ h - p.current.length

theorem space_pos : 0 < p.space := Nat.sub_pos_of_lt p.room

/-- The data in the pipeline, in the order in which it came. -/
def data : List B := (p.full.reverse.flatMap fun ds => (List.range (2 ^ h)).map ds) ++ p.current

/-- The stages of the trees. -/
def stage (n : Nat) : Nat × Nat :=
  if p.left = 0 then finishedAt D n else busyAt h D (before h (p.full.length / D) - p.left) n

theorem blocks_le (hD : 0 < D) : p.full.length / D ≤ h + 1 :=
  (Nat.div_le_div_right p.full_le).trans (by rw [Nat.mul_div_cancel _ hD])

/-- The pipeline without any data. -/
def start (hD : 0 < D) : Pipeline B h D where
  current := []
  full := []
  left := 0
  room := Nat.two_pow_pos h
  left_le := Nat.zero_le _
  full_le := Nat.zero_le _
  full_lt := fun _ => Nat.mul_pos (Nat.succ_pos h) hD

/-! ## Jobs -/

/-- With `n` more jobs completed the oldest block comes out. -/
def Emits (n : Nat) : Prop := p.left ≤ n ∧ p.full.length = (h + 1) * D

instance emitsDecidable (n : Nat) : Decidable (p.Emits n) := inferInstanceAs (Decidable (_ ∧ _))

theorem left_pos_of_length (hlen : p.full.length = (h + 1) * D) : 0 < p.left := by
  by_contra hz
  exact absurd (p.full_lt (by omega)) (by rw [hlen]; exact Nat.lt_irrefl _)

theorem length_pos_of_left (hleft : 0 < p.left) : 0 < p.full.length := by
  by_contra hz
  have hle := p.left_le
  rw [show p.full.length = 0 by omega, Nat.zero_div, before_zero] at hle
  omega

/-- The blocks after `n` more jobs. -/
def blocks (n : Nat) : List (Nat → B) := if p.Emits n then p.full.dropLast else p.full

/-- What comes out with `n` more jobs. -/
def output (res : AvailableJob M B → M) (n : Nat) : Option (M × List B) :=
  if p.Emits n then p.full.getLast?.map fun ds => (proof res ds h 0, (List.range (2 ^ h)).map ds) else none

/-- `n` more jobs of the round. -/
def work (n : Nat) : Pipeline B h D where
  current := p.current
  full := p.blocks n
  left := p.left - n
  room := p.room
  left_le := by
    by_cases he : p.Emits n
    · rw [Nat.sub_eq_zero_of_le he.1]
      exact Nat.zero_le _
    · rw [blocks, if_neg he]
      exact (Nat.sub_le _ _).trans p.left_le
  full_le := by
    have hle := p.full_le
    rw [blocks]
    split
    · rw [List.length_dropLast]
      omega
    · exact hle
  full_lt := by
    intro hz
    have hle := p.full_le
    rw [blocks]
    split
    next he =>
      have hpos := p.length_pos_of_left (p.left_pos_of_length he.2)
      rw [List.length_dropLast]
      omega
    next he => exact Nat.lt_of_le_of_ne hle fun hlen => he ⟨by omega, hlen⟩

theorem work_all : (p.work p.left).left = 0 := Nat.sub_self _

theorem work_zero : p.work 0 = p := by
  have hn : ¬ p.Emits 0 := fun he => by
    have hpos := p.left_pos_of_length he.2
    have := he.1
    omega
  simp only [work, blocks, if_neg hn, Nat.sub_zero]

theorem output_zero (res : AvailableJob M B → M) : p.output res 0 = none := by
  rw [output, if_neg]
  intro he
  have hpos := p.left_pos_of_length he.2
  have := he.1
  omega

/-! ## Data -/

/-- The block of a list. -/
def block (l : List B) (hne : l ≠ []) (i : Nat) : B := l.getD i (l.head hne)

theorem map_block {l : List B} (hne : l ≠ []) {n : Nat} (hn : l.length = n) :
    (List.range n).map (block l hne) = l := by
  refine List.ext_getElem (by simp [hn]) fun i hi hi' => ?_
  rw [List.getElem_map, List.getElem_range, block, List.getD_eq_getElem _ _ hi']

/-- Data that leaves room in the block. -/
def fill (data : List B) (hroom : p.current.length + data.length < 2 ^ h) : Pipeline B h D :=
  { p with current := p.current ++ data, room := by rw [List.length_append]; exact hroom }

/-- Data that makes the block full, which starts a round. -/
def rotate (hD : 0 < D) (data : List B) (hfull : p.current.length + data.length = 2 ^ h) (hleft : p.left = 0) :
    Pipeline B h D where
  current := []
  full := block (p.current ++ data) (List.ne_nil_of_length_pos (by
    rw [List.length_append, hfull]
    exact Nat.two_pow_pos h)) :: p.full
  left := before h ((p.full.length + 1) / D)
  room := Nat.two_pow_pos h
  left_le := le_rfl
  full_le := p.full_lt hleft
  full_lt := by
    intro hz
    refine Nat.lt_of_le_of_ne (p.full_lt hleft) fun hlen => ?_
    rw [show p.full.length + 1 = (h + 1) * D from hlen, Nat.mul_div_cancel _ hD, before_all] at hz
    have := Nat.two_pow_pos h
    omega

theorem rotate_start (hD : 0 < D) {data : List B} (hfull : p.current.length + data.length = 2 ^ h)
    (hleft : p.left = 0) :
    before h ((p.rotate hD data hfull hleft).full.length / D) - (p.rotate hD data hfull hleft).left = 0 :=
  Nat.sub_self _

/-- `n` more jobs of the round, and data that leaves room in the block. -/
def stay (data : List B) (hspace : data.length < p.space) (n : Nat) : Pipeline B h D :=
  (p.work n).fill data (by
    rw [space] at hspace
    exact Nat.lt_sub_iff_add_lt'.1 hspace)

/-- The jobs that are left, data that makes the block full and goes on into
the next one, and `n` jobs of the new round. -/
def turn (hD : 0 < D) (data : List B) (hspace : p.space ≤ data.length) (hdata : data.length ≤ 2 ^ h) (n : Nat) :
    Pipeline B h D :=
  (((p.work p.left).rotate hD (data.take p.space)
    (by
      have hroom := p.room
      rw [List.length_take, Nat.min_eq_left hspace]
      exact Nat.add_sub_cancel' hroom.le)
    p.work_all).work n).fill (data.drop p.space)
    (by
      have hpos := p.space_pos
      have htwo := Nat.two_pow_pos h
      rw [List.length_drop]
      exact (Nat.zero_add _).trans_lt (by omega))

/-- A full block moves every block one position. -/
theorem stage_rotate (hD : 0 < D) {data : List B} (hfull : p.current.length + data.length = 2 ^ h) (hleft : p.left = 0)
    {n : Nat} (hn : n ≤ p.full.length) : (p.rotate hD data hfull hleft).stage n = (n / D, 0) := by
  have hnew : (p.rotate hD data hfull hleft).left = before h ((p.full.length + 1) / D) := rfl
  have hlen : (p.rotate hD data hfull hleft).full.length = p.full.length + 1 := rfl
  rw [stage, hnew, hlen, Nat.sub_self]
  split
  next hz =>
    -- no block is worked on yet
    have hfew : (p.full.length + 1) / D = 0 := by
      by_contra hpos
      have hmono := before_mono (h := h) (Nat.one_le_iff_ne_zero.2 hpos)
      have hone := before_succ (Nat.zero_le h)
      have := Nat.two_pow_pos (h - 0)
      rw [Nat.zero_add] at hone
      omega
    have hlt := (Nat.div_eq_zero_iff_lt hD).1 hfew
    rw [finishedAt, Nat.mod_eq_of_lt (by omega), if_neg (by omega)]
  next hz => rw [busyAt, progress, Nat.zero_sub, Nat.min_zero, ite_self]

/-! ## What goes in and comes out -/

/-- The data that comes out with a proof. -/
def emitted (out : Option (M × List B)) : List B := out.elim [] (·.2)

theorem data_work (res : AvailableJob M B → M) (n : Nat) : emitted (p.output res n) ++ (p.work n).data = p.data := by
  by_cases he : p.Emits n
  · have hpos := p.length_pos_of_left (p.left_pos_of_length he.2)
    obtain ⟨init, ds, hsplit⟩ := (List.eq_nil_or_concat' p.full).resolve_left (List.ne_nil_of_length_pos hpos)
    have hfull : (p.work n).full = init := (if_pos he).trans (by rw [hsplit, List.dropLast_concat])
    have hcurrent : (p.work n).current = p.current := rfl
    rw [output, if_pos he, data, data, hfull, hcurrent, hsplit, List.getLast?_concat, List.reverse_append,
      List.flatMap_append, List.append_assoc]
    simp [emitted]
  · have hfull : (p.work n).full = p.full := if_neg he
    rw [output, if_neg he, data, hfull]
    rfl

theorem data_fill {data : List B} (hroom : p.current.length + data.length < 2 ^ h) :
    (p.fill data hroom).data = p.data ++ data := (List.append_assoc _ _ _).symm

theorem data_rotate (hD : 0 < D) {data : List B} (hfull : p.current.length + data.length = 2 ^ h) (hleft : p.left = 0) :
    (p.rotate hD data hfull hleft).data = p.data ++ data := by
  have hlen : (p.current ++ data).length = 2 ^ h := by rw [List.length_append, hfull]
  simp only [Pipeline.data, rotate, List.reverse_cons, List.flatMap_append, List.flatMap_singleton, map_block _ hlen,
    List.append_nil, List.append_assoc]

/-- With few enough jobs for the new round nothing comes out of it. -/
theorem output_turn (hD : 0 < D) (res : AvailableJob M B → M) {data : List B}
    (hfull : p.current.length + data.length = 2 ^ h) (hleft : p.left = 0) {n : Nat} (hn : n + 1 < 2 * 2 ^ h) :
    (p.rotate hD data hfull hleft).output res n = none := by
  rw [output, if_neg]
  intro he
  have hlen : p.full.length + 1 = (h + 1) * D := he.2
  have hall : before h ((p.full.length + 1) / D) ≤ n := he.1
  rw [hlen, Nat.mul_div_cancel _ hD, before_all] at hall
  omega

theorem data_stay (res : AvailableJob M B → M) {data : List B} (hspace : data.length < p.space) (n : Nat) :
    emitted (p.output res n) ++ (p.stay data hspace n).data = p.data ++ data := by
  rw [stay, data_fill, ← List.append_assoc, data_work]

theorem data_turn (hD : 0 < D) (res : AvailableJob M B → M) {data : List B} (hspace : p.space ≤ data.length)
    (hdata : data.length ≤ 2 ^ h) {n : Nat} (hn : n + 1 < 2 * 2 ^ h) :
    emitted (p.output res p.left) ++ (p.turn hD data hspace hdata n).data = p.data ++ data := by
  have hfull : (p.work p.left).current.length + (data.take p.space).length = 2 ^ h := by
    rw [List.length_take, Nat.min_eq_left hspace]
    exact Nat.add_sub_cancel' p.room.le
  have hnone := (p.work p.left).output_turn hD res hfull p.work_all hn
  have hsecond := ((p.work p.left).rotate hD (data.take p.space) hfull p.work_all).data_work res n
  rw [hnone, emitted, Option.elim_none, List.nil_append, data_rotate] at hsecond
  have hfirst := p.data_work res p.left
  rw [turn, data_fill, hsecond, ← List.append_assoc, ← List.append_assoc, hfirst, List.append_assoc,
    List.take_append_drop]

/-! ## What is left -/

theorem space_fill {data : List B} (hroom : p.current.length + data.length < 2 ^ h) :
    (p.fill data hroom).space = p.space - data.length := by
  rw [space, space, Nat.sub_sub]
  exact congrArg (2 ^ h - ·) List.length_append

theorem space_stay {data : List B} (hspace : data.length < p.space) (n : Nat) :
    (p.stay data hspace n).space = p.space - data.length := (p.work n).space_fill _

theorem left_stay {data : List B} (hspace : data.length < p.space) (n : Nat) :
    (p.stay data hspace n).left = p.left - n := rfl

theorem space_turn (hD : 0 < D) {data : List B} (hspace : p.space ≤ data.length) (hdata : data.length ≤ 2 ^ h) (n : Nat) :
    (p.turn hD data hspace hdata n).space = 2 ^ h - (data.length - p.space) := by
  rw [turn, space_fill, List.length_drop]
  rfl

/-- The jobs of a full round for the trees there are. -/
theorem left_turn (hD : 2 ≤ D) {data : List B} (hspace : p.space ≤ data.length) (hdata : data.length ≤ 2 ^ h) (n : Nat) :
    (p.turn (by omega) data hspace hdata n).left = before h ((p.full.length + 1) / D) - n := by
  have hleft : (p.turn (by omega) data hspace hdata n).left = before h (((p.work p.left).full.length + 1) / D) - n := rfl
  rw [hleft]
  by_cases he : p.Emits p.left
  · have hfull : (p.work p.left).full = p.full.dropLast := if_pos he
    have hpos : 0 < (h + 1) * D := Nat.mul_pos (Nat.succ_pos h) (by omega)
    rw [hfull, List.length_dropLast, he.2, Nat.sub_add_cancel hpos, Nat.mul_div_cancel _ (by omega), Nat.mul_comm,
      Nat.mul_add_div (by omega), Nat.div_eq_of_lt (by omega), Nat.add_zero]
  · have hfull : (p.work p.left).full = p.full := if_neg he
    rw [hfull]

end Pipeline

end Mina.ParallelScan
