/-
The minimum window density (`Min_window_density` of
`consensus/proof_of_stake.ml`).

The densities of the last sub-windows are kept in a list, that of sub-window
`j` at the index `j` modulo their number. The list is never shifted: what has
gone out of the window is cleared by comparing indices. `Counts` says that
every index holds the true count of the sub-window it stands for; a block
keeps it so (`counts_update`), and the density compared with the minimum is
the sum of the true counts of the window before it (`currentDensity_val`).
-/
import Mina.Consensus.GlobalSlot

namespace Mina.Consensus

namespace MinWindowDensity

/-- The window before the next slot: the previous densities, without those
that are not in it. -/
def currentSubWindowDensities (constants : Constants) (prevGlobalSlot nextGlobalSlot : GlobalSlot)
    (prevSubWindowDensities : List Length) : List Length :=
  let prevGlobalSubWindow := GlobalSubWindow.ofGlobalSlot constants prevGlobalSlot
  let nextGlobalSubWindow := GlobalSubWindow.ofGlobalSlot constants nextGlobalSlot
  let prevRelativeSubWindow := GlobalSubWindow.subWindow constants prevGlobalSubWindow
  let nextRelativeSubWindow := GlobalSubWindow.subWindow constants nextGlobalSubWindow
  let sameSubWindow := prevGlobalSubWindow = nextGlobalSubWindow
  let overlappingWindow :=
    GlobalSubWindow.add prevGlobalSubWindow constants.subWindowsPerWindow ≥ nextGlobalSubWindow
  prevSubWindowDensities.mapIdx fun i density =>
    let gtPrevSubWindow := Length.ofInt i > prevRelativeSubWindow
    let ltNextSubWindow := Length.ofInt i < nextRelativeSubWindow
    let withinRange :=
      if prevRelativeSubWindow < nextRelativeSubWindow then gtPrevSubWindow ∧ ltNextSubWindow
      else gtPrevSubWindow ∨ ltNextSubWindow
    if sameSubWindow then density else if overlappingWindow ∧ ¬ withinRange then density else 0

/-- The minimum density, and the densities with the block of the next slot
counted. -/
def updateMinWindowDensity (incrWindow : Bool) (constants : Constants) (prevGlobalSlot nextGlobalSlot : GlobalSlot)
    (prevSubWindowDensities : List Length) (prevMinWindowDensity : Length) : Length × List Length :=
  let prevGlobalSubWindow := GlobalSubWindow.ofGlobalSlot constants prevGlobalSlot
  let nextGlobalSubWindow := GlobalSubWindow.ofGlobalSlot constants nextGlobalSlot
  let nextRelativeSubWindow := GlobalSubWindow.subWindow constants nextGlobalSubWindow
  let sameSubWindow := prevGlobalSubWindow = nextGlobalSubWindow
  let current := currentSubWindowDensities constants prevGlobalSlot nextGlobalSlot prevSubWindowDensities
  let currentWindowDensity := current.foldl (· + ·) 0
  let minWindowDensity :=
    if sameSubWindow ∨ nextGlobalSlot.slotNumber < constants.gracePeriodEnd then prevMinWindowDensity
    else min currentWindowDensity prevMinWindowDensity
  let nextSubWindowDensities :=
    current.mapIdx fun i density =>
      let isNextSubWindow := Length.ofInt i = nextRelativeSubWindow
      if isNextSubWindow then
        let f : Length → Length := if incrWindow then Length.succ else id
        if sameSubWindow then f density else f 0
      else density
  (minWindowDensity, nextSubWindowDensities)

/-- What is kept from block to block. -/
structure Window where
  globalSlot : GlobalSlot
  subWindowDensities : List Length
  minWindowDensity : Length

/-- One block. -/
def Window.update (constants : Constants) (w : Window) (nextGlobalSlot : GlobalSlot) : Window :=
  let (minWindowDensity, subWindowDensities) :=
    updateMinWindowDensity true constants w.globalSlot nextGlobalSlot w.subWindowDensities w.minWindowDensity
  { globalSlot := nextGlobalSlot, subWindowDensities, minWindowDensity }

/-- `update_several_times`. -/
def Window.updates (constants : Constants) (w : Window) (slots : List GlobalSlot) : Window :=
  slots.foldl (Window.update constants) w

/-! ## Indices of a window -/

section Indices

variable {W g g' j : Int}

/-- The index of a sub-window of the window before `g'`. -/
theorem emod_window (hn : 0 ≤ g' % W) (hn' : g' % W < W) (hj : g' - W ≤ j) (hj' : j < g') :
    j % W = if g' - j ≤ g' % W then g' % W - (g' - j) else g' % W - (g' - j) + W := by
  have hdiv := Int.emod_add_mul_ediv g' W
  split
  next h =>
    rw [show j = g' % W - (g' - j) + W * (g' / W) by omega, Int.add_mul_emod_self_left,
      Int.emod_eq_of_lt (by omega) (by omega)]
    omega
  next h =>
    have hprev : W * (g' / W - 1) = W * (g' / W) - W := by rw [Int.mul_sub, Int.mul_one]
    rw [show j = g' % W - (g' - j) + W + W * (g' / W - 1) by omega, Int.add_mul_emod_self_left,
      Int.emod_eq_of_lt (by omega) (by omega)]
    omega

/-- Which indices are cleared: those of the sub-windows between the two. -/
theorem within_iff (hW : 0 < W) (hlt : g < g') (hle : g' ≤ g + W) (hj : g' - W ≤ j) (hj' : j < g') :
    (if g % W < g' % W then j % W > g % W ∧ j % W < g' % W else j % W > g % W ∨ j % W < g' % W) ↔ g < j := by
  have hdiv := Int.emod_add_mul_ediv g' W
  have hn := Int.emod_nonneg g' hW.ne'
  have hn' := Int.emod_lt_of_pos g' hW
  have hp := emod_window hn hn' (show g' - W ≤ g by omega) hlt
  have hi := emod_window hn hn' hj hj'
  split <;> omega

theorem emod_injOn (hW : 0 < W) : Set.InjOn (· % W) (Finset.Ico (g' - W) g' : Set Int) := by
  intro j hj k hk hjk
  rw [Finset.mem_coe, Finset.mem_Ico] at hj hk
  have hn := Int.emod_nonneg g' hW.ne'
  have hn' := Int.emod_lt_of_pos g' hW
  have hj' := emod_window hn hn' hj.1 hj.2
  have hk' := emod_window hn hn' hk.1 hk.2
  simp only at hjk
  split at hj' <;> split at hk' <;> omega

end Indices

/-! ## Counts -/

section Counts

variable (constants : Constants)

/-- The sub-window of a slot. -/
def subWindowOf (s : GlobalSlot) : Int := (GlobalSubWindow.ofGlobalSlot constants s).val

/-- The density at an index. -/
def densityAt (densities : List Length) (j : Int) : Option Nat :=
  (densities[(j % constants.subWindowsPerWindow.val).toNat]?).map Fin.val

/-- The densities of the window that ends with sub-window `g` are given by
`c`. -/
def Counts (densities : List Length) (g : Int) (c : Int → Nat) : Prop :=
  ∀ j, g - constants.subWindowsPerWindow.val < j → j ≤ g → densityAt constants densities j = some (c j)

variable {constants} {prev next : GlobalSlot} {densities : List Length} {c : Int → Nat}

theorem index_lt {W : Nat} (hW : 0 < W) (j : Int) : (j % W).toNat < W := by
  have := Int.emod_nonneg j (show (W : Int) ≠ 0 by omega)
  have := Int.emod_lt_of_pos j (show (0 : Int) < W by omega)
  omega

theorem length_current : (currentSubWindowDensities constants prev next densities).length = densities.length :=
  List.length_mapIdx

theorem current_same (hsame : subWindowOf constants prev = subWindowOf constants next) :
    currentSubWindowDensities constants prev next densities = densities := by
  rw [subWindowOf, subWindowOf] at hsame
  have heq : GlobalSubWindow.ofGlobalSlot constants prev = GlobalSubWindow.ofGlobalSlot constants next :=
    Fin.ext (by exact_mod_cast hsame)
  simp only [currentSubWindowDensities, heq, if_true]
  exact List.mapIdx_eq_iff.2 fun i => by cases densities[i]? <;> rfl

/-- Between two sub-windows, the window before the next one has the true
counts. -/
theorem densityAt_current (hW : 0 < constants.subWindowsPerWindow.val)
    (hlen : densities.length = constants.subWindowsPerWindow.val)
    (hadd : (GlobalSubWindow.ofGlobalSlot constants prev).val + constants.subWindowsPerWindow.val < 2 ^ 32)
    (hc : Counts constants densities (subWindowOf constants prev) c)
    (hzero : ∀ j > subWindowOf constants prev, c j = 0)
    (hlt : subWindowOf constants prev < subWindowOf constants next) {j : Int}
    (hj : subWindowOf constants next - constants.subWindowsPerWindow.val ≤ j) (hj' : j < subWindowOf constants next) :
    densityAt constants (currentSubWindowDensities constants prev next densities) j = some (c j) := by
  have hpos : (0 : Int) < constants.subWindowsPerWindow.val := by omega
  have hbound := constants.subWindowsPerWindow.isLt
  have hi := index_lt hW j
  have hindex : (((j % constants.subWindowsPerWindow.val).toNat : Nat) : Int) = j % constants.subWindowsPerWindow.val :=
    Int.toNat_of_nonneg (Int.emod_nonneg j hpos.ne')
  have hdiff : ¬ GlobalSubWindow.ofGlobalSlot constants prev = GlobalSubWindow.ofGlobalSlot constants next := by
    intro heq
    rw [subWindowOf, subWindowOf, heq] at hlt
    exact lt_irrefl _ hlt
  have hover : GlobalSubWindow.add (GlobalSubWindow.ofGlobalSlot constants prev) constants.subWindowsPerWindow ≥
      GlobalSubWindow.ofGlobalSlot constants next ↔
        subWindowOf constants next ≤ subWindowOf constants prev + constants.subWindowsPerWindow.val := by
    rw [ge_iff_le, Fin.le_def, GlobalSubWindow.add_val hadd, subWindowOf, subWindowOf]
    omega
  rw [densityAt, currentSubWindowDensities, List.getElem?_mapIdx]
  simp only [if_neg hdiff, hover]
  by_cases hle : subWindowOf constants next ≤ subWindowOf constants prev + constants.subWindowsPerWindow.val
  case neg =>
    rw [List.getElem?_eq_getElem (by omega), hzero j (by omega)]
    simp only [hle, false_and, if_false, Option.map_some]
    rfl
  have hwithin := within_iff hpos hlt hle hj hj'
  rw [← hindex, subWindowOf, subWindowOf, ← Int.natCast_emod, ← Int.natCast_emod] at hwithin
  simp only [gt_iff_lt, Nat.cast_lt, ← GlobalSubWindow.subWindow_val] at hwithin
  have hofInt := Length.ofInt_val (show (j % constants.subWindowsPerWindow.val).toNat < 2 ^ 32 by omega)
  have hrange : (if GlobalSubWindow.subWindow constants (GlobalSubWindow.ofGlobalSlot constants prev) <
        GlobalSubWindow.subWindow constants (GlobalSubWindow.ofGlobalSlot constants next) then
      Length.ofInt (j % constants.subWindowsPerWindow.val).toNat >
          GlobalSubWindow.subWindow constants (GlobalSubWindow.ofGlobalSlot constants prev) ∧
        Length.ofInt (j % constants.subWindowsPerWindow.val).toNat <
          GlobalSubWindow.subWindow constants (GlobalSubWindow.ofGlobalSlot constants next)
      else
        Length.ofInt (j % constants.subWindowsPerWindow.val).toNat >
            GlobalSubWindow.subWindow constants (GlobalSubWindow.ofGlobalSlot constants prev) ∨
          Length.ofInt (j % constants.subWindowsPerWindow.val).toNat <
            GlobalSubWindow.subWindow constants (GlobalSubWindow.ofGlobalSlot constants next)) ↔
      subWindowOf constants prev < j := by
    simp only [gt_iff_lt, Fin.lt_def, hofInt]
    exact hwithin
  simp only [hrange, hle, true_and]
  by_cases hgt : subWindowOf constants prev < j
  · rw [hzero j hgt, List.getElem?_eq_getElem (by omega)]
    simp only [hgt, not_true, if_false, Option.map_some]
    rfl
  · have hkept := hc j (by omega) (by omega)
    simp only [hgt, not_false_iff, if_true, Option.map_map]
    exact hkept

/-! ## The next block -/

/-- A block keeps the counts, and adds itself to its sub-window. -/
theorem counts_update (hW : 0 < constants.subWindowsPerWindow.val)
    (hlen : densities.length = constants.subWindowsPerWindow.val)
    (hadd : (GlobalSubWindow.ofGlobalSlot constants prev).val + constants.subWindowsPerWindow.val < 2 ^ 32)
    (hc : Counts constants densities (subWindowOf constants prev) c)
    (hzero : ∀ j > subWindowOf constants prev, c j = 0)
    (hle : subWindowOf constants prev ≤ subWindowOf constants next)
    (hsucc : c (subWindowOf constants next) + 1 < 2 ^ 32) (m : Length) :
    Counts constants (updateMinWindowDensity true constants prev next densities m).2 (subWindowOf constants next)
      fun j => c j + if j = subWindowOf constants next then 1 else 0 := by
  intro j hj hj'
  have hpos : (0 : Int) < constants.subWindowsPerWindow.val := by omega
  have hbound := constants.subWindowsPerWindow.isLt
  have hi := index_lt hW j
  have hcurrent : ∀ j, subWindowOf constants next - constants.subWindowsPerWindow.val < j →
      j < subWindowOf constants next ∨ subWindowOf constants prev = subWindowOf constants next →
      j ≤ subWindowOf constants next →
      densityAt constants (currentSubWindowDensities constants prev next densities) j = some (c j) := by
    intro j hj hj' hj''
    rcases Int.lt_or_eq_of_le hle with hlt | hsame
    · exact densityAt_current hW hlen hadd hc hzero hlt hj.le (by omega)
    · rw [current_same hsame]
      exact hc j (by omega) (by omega)
  have hnext : Length.ofInt (j % constants.subWindowsPerWindow.val).toNat =
      GlobalSubWindow.subWindow constants (GlobalSubWindow.ofGlobalSlot constants next) ↔
        j = subWindowOf constants next := by
    have hindex : (((j % constants.subWindowsPerWindow.val).toNat : Nat) : Int) =
        j % constants.subWindowsPerWindow.val := Int.toNat_of_nonneg (Int.emod_nonneg j hpos.ne')
    rw [Fin.ext_iff, Length.ofInt_val (by omega), GlobalSubWindow.subWindow_val, ← Int.natCast_inj, hindex,
      Int.natCast_emod]
    constructor
    · intro heq
      by_contra hne
      have hwindow := emod_window (Int.emod_nonneg (subWindowOf constants next) hpos.ne')
        (Int.emod_lt_of_pos (subWindowOf constants next) hpos) hj.le (by omega)
      rw [heq, subWindowOf] at hwindow
      rw [subWindowOf] at hj hj' hne
      split at hwindow <;> omega
    · intro heq
      rw [heq, subWindowOf]
  have hlenCurrent : (currentSubWindowDensities constants prev next densities).length =
      constants.subWindowsPerWindow.val := length_current.trans hlen
  simp only [updateMinWindowDensity, densityAt, List.getElem?_mapIdx, hnext, if_true]
  by_cases heq : j = subWindowOf constants next
  case neg =>
    simp only [heq, if_false, Nat.add_zero, Option.map_map]
    exact hcurrent j hj (by omega) hj'
  simp only [heq, if_true]
  rcases Int.lt_or_eq_of_le hle with hlt | hsame
  · have hdiff : ¬ GlobalSubWindow.ofGlobalSlot constants prev = GlobalSubWindow.ofGlobalSlot constants next := by
      intro hsame
      rw [subWindowOf, subWindowOf, hsame] at hlt
      exact lt_irrefl _ hlt
    rw [hzero _ hlt, List.getElem?_eq_getElem (by rw [hlenCurrent, ← heq]; exact hi)]
    simp only [hdiff, if_false, Option.map_some]
    rfl
  · have hd := hcurrent _ (by omega) (.inr hsame) le_rfl
    have hsame' : GlobalSubWindow.ofGlobalSlot constants prev = GlobalSubWindow.ofGlobalSlot constants next := by
      rw [subWindowOf, subWindowOf] at hsame
      exact Fin.ext (by exact_mod_cast hsame)
    rw [densityAt, Option.map_eq_some_iff] at hd
    obtain ⟨d, hd, hval⟩ := hd
    rw [hd]
    simp only [hsame', if_true, Option.map_some, Option.some.injEq]
    rw [Length.succ_val (by omega), hval]

/-! ## The density of the window before a block -/

theorem foldl_add_val {l : List Length} {a : Length} (hl : a.val + (l.map Fin.val).sum < 2 ^ 32) :
    (l.foldl (· + ·) a).val = a.val + (l.map Fin.val).sum := by
  induction l generalizing a with
  | nil => rfl
  | cons x l ih =>
    rw [List.map_cons, List.sum_cons] at hl ⊢
    have hx : (a + x).val = a.val + x.val := by
      rw [Fin.val_add, Nat.mod_eq_of_lt (by omega)]
    rw [List.foldl_cons, ih (by rw [hx]; omega), hx, Nat.add_assoc]

theorem sum_range_getElem? (l : List Nat) : ∑ i ∈ Finset.range l.length, (l[i]?).getD 0 = l.sum := by
  induction l with
  | nil => rfl
  | cons x l ih =>
    rw [List.length_cons, Finset.sum_range_succ', List.sum_cons, ← ih, Nat.add_comm]
    rfl

/-- The sum of a list by the sub-windows of a window. -/
theorem sum_densityAt {l : List Length} (hW : 0 < constants.subWindowsPerWindow.val)
    (hlen : l.length = constants.subWindowsPerWindow.val) {g : Int}
    (hl : ∀ j ∈ Finset.Ico (g - constants.subWindowsPerWindow.val) g, densityAt constants l j = some (c j)) :
    (l.map Fin.val).sum = ∑ j ∈ Finset.Ico (g - constants.subWindowsPerWindow.val) g, c j := by
  have hpos : (0 : Int) < constants.subWindowsPerWindow.val := by omega
  have himage := Int.image_Ico_emod (g - constants.subWindowsPerWindow.val) constants.subWindowsPerWindow.val hpos.le
  have hcast : Finset.Ico (0 : Int) constants.subWindowsPerWindow.val =
      (Finset.Ico 0 constants.subWindowsPerWindow.val).image (Nat.cast : Nat → Int) := by
    ext i
    rw [Finset.mem_image, Finset.mem_Ico]
    constructor
    · intro hi
      exact ⟨i.toNat, Finset.mem_Ico.2 (by omega), by omega⟩
    · rintro ⟨n, hn, rfl⟩
      rw [Finset.mem_Ico] at hn
      omega
  rw [sub_add_cancel, hcast] at himage
  calc (l.map Fin.val).sum
      = ∑ i ∈ Finset.Ico 0 constants.subWindowsPerWindow.val, ((l.map Fin.val)[i]?).getD 0 := by
        rw [← sum_range_getElem?, List.length_map, hlen, Finset.range_eq_Ico]
    _ = ∑ i ∈ (Finset.Ico 0 constants.subWindowsPerWindow.val).image (Nat.cast : Nat → Int),
          ((l.map Fin.val)[i.toNat]?).getD 0 := by
        rw [Finset.sum_image (fun _ _ _ _ h => by exact_mod_cast h)]
        rfl
    _ = ∑ j ∈ Finset.Ico (g - constants.subWindowsPerWindow.val) g,
          ((l.map Fin.val)[(j % constants.subWindowsPerWindow.val).toNat]?).getD 0 := by
        rw [← himage, Finset.sum_image (emod_injOn hpos)]
    _ = ∑ j ∈ Finset.Ico (g - constants.subWindowsPerWindow.val) g, c j := by
        refine Finset.sum_congr rfl fun j hj => ?_
        have hd := hl j hj
        rw [densityAt, ← List.getElem?_map] at hd
        rw [hd, Option.getD_some]

theorem currentDensity_val (hW : 0 < constants.subWindowsPerWindow.val)
    (hlen : densities.length = constants.subWindowsPerWindow.val)
    (hadd : (GlobalSubWindow.ofGlobalSlot constants prev).val + constants.subWindowsPerWindow.val < 2 ^ 32)
    (hc : Counts constants densities (subWindowOf constants prev) c)
    (hzero : ∀ j > subWindowOf constants prev, c j = 0)
    (hlt : subWindowOf constants prev < subWindowOf constants next)
    (hsum : ∑ j ∈ Finset.Ico (subWindowOf constants next - constants.subWindowsPerWindow.val)
      (subWindowOf constants next), c j < 2 ^ 32) :
    ((currentSubWindowDensities constants prev next densities).foldl (· + ·) 0).val =
      ∑ j ∈ Finset.Ico (subWindowOf constants next - constants.subWindowsPerWindow.val)
        (subWindowOf constants next), c j := by
  have heq := sum_densityAt hW (length_current.trans hlen) fun j hj =>
    densityAt_current hW hlen hadd hc hzero hlt (Finset.mem_Ico.1 hj).1 (Finset.mem_Ico.1 hj).2
  have hzero' : (0 : Length).val = 0 := rfl
  rw [foldl_add_val (by rw [heq, hzero', Nat.zero_add]; exact hsum), heq, hzero', Nat.zero_add]

end Counts

/-! ## Runs -/

section Runs

variable (constants : Constants) (w : Window)

/-- The blocks in sub-window `j`, and what it had at the start. -/
def trueCount (slots : List GlobalSlot) (j : Int) : Nat :=
  slots.countP (fun s => decide (subWindowOf constants s = j)) +
    if subWindowOf constants w.globalSlot - constants.subWindowsPerWindow.val < j ∧
      j ≤ subWindowOf constants w.globalSlot then (densityAt constants w.subWindowDensities j).getD 0 else 0

/-- The true counts of the window before the sub-window of `s`. -/
def windowSum (slots : List GlobalSlot) (s : GlobalSlot) : Nat :=
  ((List.range constants.subWindowsPerWindow.val).map fun i : Nat =>
    trueCount constants w slots (subWindowOf constants s - constants.subWindowsPerWindow.val + (i : Int))).sum

/-- The sums at the blocks past the grace period that are in another
sub-window than the block before. -/
def comparedSums (slots : List GlobalSlot) : List Nat :=
  (((w.globalSlot :: slots).zip slots).filter fun e =>
    decide (subWindowOf constants e.1 ≠ subWindowOf constants e.2 ∧
      constants.gracePeriodEnd ≤ e.2.slotNumber)).map fun e => windowSum constants w slots e.2

/-- No addition wraps around. -/
structure NoWrap (slots : List GlobalSlot) : Prop where
  subWindow : ∀ s ∈ w.globalSlot :: slots,
    (GlobalSubWindow.ofGlobalSlot constants s).val + constants.subWindowsPerWindow.val < 2 ^ 32
  count : ∀ s ∈ slots, trueCount constants w slots (subWindowOf constants s) < 2 ^ 32
  sum : ∀ s ∈ slots, windowSum constants w slots s < 2 ^ 32

/-- The slots do not decrease. -/
def Ordered (slots : List GlobalSlot) : Prop :=
  (w.globalSlot :: slots).Pairwise fun s t => s.slotNumber ≤ t.slotNumber

variable {constants w} {slots : List GlobalSlot} {s : GlobalSlot}

variable (constants) in
theorem subWindowOf_mono {s t : GlobalSlot} (h : s.slotNumber ≤ t.slotNumber) :
    subWindowOf constants s ≤ subWindowOf constants t := by
  rw [subWindowOf, subWindowOf, GlobalSubWindow.ofGlobalSlot_val, GlobalSubWindow.ofGlobalSlot_val]
  exact_mod_cast Nat.div_le_div_right (Fin.le_def.1 h)

theorem updates_concat : w.updates constants (slots ++ [s]) = (w.updates constants slots).update constants s := by
  rw [Window.updates, List.foldl_append]
  rfl

variable (constants slots) in
theorem globalSlot_updates : (w.updates constants slots).globalSlot = slots.getLastD w.globalSlot := by
  induction slots using List.reverseRecOn with
  | nil => rfl
  | append_singleton slots s ih => rw [updates_concat, List.getLastD_concat]; rfl

theorem trueCount_concat (j : Int) :
    trueCount constants w (slots ++ [s]) j =
      trueCount constants w slots j + if j = subWindowOf constants s then 1 else 0 := by
  rw [trueCount, trueCount, List.countP_append, List.countP_singleton, Nat.add_right_comm]
  congr 1
  by_cases hj : j = subWindowOf constants s
  · rw [if_pos hj, if_pos (decide_eq_true hj.symm)]
  · rw [if_neg hj, if_neg fun h => hj (of_decide_eq_true h).symm]

theorem zip_concat (a : GlobalSlot) : (a :: (slots ++ [s])).zip (slots ++ [s]) =
    (a :: slots).zip slots ++ [(slots.getLastD a, s)] := by
  induction slots generalizing a with
  | nil => rfl
  | cons b slots ih =>
    have hcons := ih b
    rw [List.cons_append, List.zip_cons_cons, List.zip_cons_cons, List.cons_append, List.getLastD_cons, ← hcons]

theorem windowSum_eq : windowSum constants w slots s =
    ∑ j ∈ Finset.Ico (subWindowOf constants s - constants.subWindowsPerWindow.val) (subWindowOf constants s),
      trueCount constants w slots j := by
  have himage : Finset.Ico (subWindowOf constants s - constants.subWindowsPerWindow.val) (subWindowOf constants s) =
      (Finset.range constants.subWindowsPerWindow.val).image fun i : Nat =>
        subWindowOf constants s - constants.subWindowsPerWindow.val + i := by
    ext j
    rw [Finset.mem_image, Finset.mem_Ico]
    constructor
    · intro hj
      refine ⟨(j - (subWindowOf constants s - constants.subWindowsPerWindow.val)).toNat, ?_, by omega⟩
      rw [Finset.mem_range]
      omega
    · rintro ⟨i, hi, rfl⟩
      rw [Finset.mem_range] at hi
      omega
  rw [himage, Finset.sum_image fun _ _ _ _ h => by exact_mod_cast add_left_cancel h, Finset.sum_eq_multiset_sum,
    Finset.range_val, Multiset.range, Multiset.map_coe, Multiset.sum_coe, windowSum]

theorem ordered_concat : Ordered w (slots ++ [s]) ↔
    Ordered w slots ∧ ∀ t ∈ w.globalSlot :: slots, t.slotNumber ≤ s.slotNumber := by
  rw [Ordered, ← List.cons_append, List.pairwise_append]
  simp [Ordered]

theorem getLastD_mem (a : GlobalSlot) : slots.getLastD a ∈ a :: slots := by
  induction slots using List.reverseRecOn with
  | nil => exact List.mem_singleton_self a
  | append_singleton slots s ih => rw [List.getLastD_concat]; simp

/-- After the last block there are none. -/
theorem trueCount_zero (ho : Ordered w slots) {j : Int}
    (hj : subWindowOf constants (slots.getLastD w.globalSlot) < j) : trueCount constants w slots j = 0 := by
  induction slots using List.reverseRecOn generalizing j with
  | nil =>
    rw [trueCount, List.countP_nil, if_neg fun h => absurd h.2 (not_le.2 hj)]
  | append_singleton slots s ih =>
    obtain ⟨ho, hlast⟩ := ordered_concat.1 ho
    rw [List.getLastD_concat] at hj
    have hle := subWindowOf_mono constants (hlast _ (getLastD_mem w.globalSlot))
    rw [trueCount_concat, ih ho (by omega), if_neg (by omega)]

theorem trueCount_mono (j : Int) : trueCount constants w slots j ≤ trueCount constants w (slots ++ [s]) j := by
  rw [trueCount_concat]
  exact Nat.le_add_right _ _

theorem windowSum_mono (t : GlobalSlot) : windowSum constants w slots t ≤ windowSum constants w (slots ++ [s]) t := by
  rw [windowSum_eq, windowSum_eq]
  exact Finset.sum_le_sum fun j _ => trueCount_mono j

/-- A block does not change the counts of the windows before it. -/
theorem windowSum_concat {t : GlobalSlot} (hle : t.slotNumber ≤ s.slotNumber) :
    windowSum constants w (slots ++ [s]) t = windowSum constants w slots t := by
  rw [windowSum_eq, windowSum_eq]
  refine Finset.sum_congr rfl fun j hj => ?_
  have hlt := (Finset.mem_Ico.1 hj).2
  have hmono := subWindowOf_mono constants hle
  rw [trueCount_concat, if_neg (by omega), Nat.add_zero]

theorem NoWrap.init (hw : NoWrap constants w (slots ++ [s])) : NoWrap constants w slots where
  subWindow t ht := hw.subWindow t (by rw [← List.cons_append]; exact List.mem_append_left _ ht)
  count t ht := (trueCount_mono _).trans_lt (hw.count t (List.mem_append_left _ ht))
  sum t ht := (windowSum_mono t).trans_lt (hw.sum t (List.mem_append_left _ ht))

theorem comparedSums_concat (ho : Ordered w (slots ++ [s])) :
    comparedSums constants w (slots ++ [s]) = comparedSums constants w slots ++
      if subWindowOf constants (slots.getLastD w.globalSlot) ≠ subWindowOf constants s ∧
        constants.gracePeriodEnd ≤ s.slotNumber then [windowSum constants w slots s] else [] := by
  have hlast := (ordered_concat.1 ho).2
  rw [comparedSums, comparedSums, zip_concat, List.filter_append, List.map_append]
  congr 1
  · refine List.map_congr_left fun e he => ?_
    have hmem := (List.of_mem_zip (List.mem_filter.1 he).1).2
    exact windowSum_concat (hlast e.2 (List.mem_cons_of_mem _ hmem))
  · rw [List.filter_singleton]
    dsimp only
    split
    next hcond => rw [decide_eq_true hcond, cond_true, List.map_singleton, windowSum_concat le_rfl]
    next hcond => rw [decide_eq_false hcond, cond_false, List.map_nil]

theorem updates_exact (hW : 1 ≤ constants.subWindowsPerWindow.val)
    (hlen : w.subWindowDensities.length = constants.subWindowsPerWindow.val) (ho : Ordered w slots)
    (hw : NoWrap constants w slots) :
    (w.updates constants slots).subWindowDensities.length = constants.subWindowsPerWindow.val ∧
      Counts constants (w.updates constants slots).subWindowDensities
        (subWindowOf constants (w.updates constants slots).globalSlot) (trueCount constants w slots) ∧
      (w.updates constants slots).minWindowDensity.val =
        (comparedSums constants w slots).foldl min w.minWindowDensity.val := by
  induction slots using List.reverseRecOn with
  | nil =>
    refine ⟨hlen, fun j hj hj' => ?_, rfl⟩
    have hsome : densityAt constants w.subWindowDensities j = some _ :=
      congrArg (Option.map Fin.val) (List.getElem?_eq_getElem (by rw [hlen]; exact index_lt hW j))
    rw [trueCount, List.countP_nil, if_pos ⟨hj, hj'⟩, Nat.zero_add]
    exact hsome.trans (by rw [hsome]; rfl)
  | append_singleton slots s ih =>
    obtain ⟨ihlen, ihcounts, ihmin⟩ := ih (ordered_concat.1 ho).1 hw.init
    have hprev := globalSlot_updates (w := w) constants slots
    have hlast := (ordered_concat.1 ho).2 _ (getLastD_mem w.globalSlot)
    rw [← hprev] at hlast
    have hle := subWindowOf_mono constants hlast
    have hmem : (w.updates constants slots).globalSlot ∈ w.globalSlot :: (slots ++ [s]) := by
      rw [hprev, ← List.cons_append]
      exact List.mem_append_left _ (getLastD_mem w.globalSlot)
    have hadd := hw.subWindow _ hmem
    have hzero : ∀ j > subWindowOf constants (w.updates constants slots).globalSlot, trueCount constants w slots j = 0 :=
      fun j hj => trueCount_zero (ordered_concat.1 ho).1 (by rw [← hprev]; exact hj)
    have hsucc := hw.count s (by simp)
    rw [trueCount_concat, if_pos rfl] at hsucc
    have hsum := hw.sum s (by simp)
    rw [windowSum_concat le_rfl, windowSum_eq] at hsum
    refine ⟨?_, ?_, ?_⟩
    · rw [updates_concat]
      exact List.length_mapIdx.trans (length_current.trans ihlen)
    · rw [updates_concat]
      have hcounts := counts_update (by omega) ihlen hadd ihcounts hzero hle hsucc
        (w.updates constants slots).minWindowDensity
      intro j hj hj'
      rw [trueCount_concat]
      exact hcounts j hj hj'
    · rw [updates_concat, comparedSums_concat ho, List.foldl_append, ← ihmin, ← hprev]
      simp only [Window.update, updateMinWindowDensity]
      have hsame : GlobalSubWindow.ofGlobalSlot constants (w.updates constants slots).globalSlot =
          GlobalSubWindow.ofGlobalSlot constants s ↔
            subWindowOf constants (w.updates constants slots).globalSlot = subWindowOf constants s := by
        rw [subWindowOf, subWindowOf, Int.natCast_inj, Fin.ext_iff]
      by_cases heq : subWindowOf constants (w.updates constants slots).globalSlot = subWindowOf constants s
      · rw [if_pos (.inl (hsame.2 heq)), if_neg fun h => h.1 heq, List.foldl_nil]
      by_cases hgrace : s.slotNumber < constants.gracePeriodEnd
      · rw [if_pos (.inr hgrace), if_neg fun h => absurd hgrace (not_lt.2 h.2), List.foldl_nil]
      · rw [if_neg (not_or.2 ⟨fun h => heq (hsame.1 h), hgrace⟩), if_pos ⟨heq, not_lt.1 hgrace⟩, List.foldl_cons, List.foldl_nil,
          Fin.coe_min, currentDensity_val (by omega) ihlen hadd ihcounts hzero (lt_of_le_of_ne hle heq) hsum,
          windowSum_eq, min_comm]

theorem update_le (s : GlobalSlot) : (w.update constants s).minWindowDensity ≤ w.minWindowDensity := by
  simp only [Window.update, updateMinWindowDensity]
  split
  · exact le_rfl
  · exact min_le_right _ _

theorem updates_le (pre post : List GlobalSlot) :
    (w.updates constants (pre ++ post)).minWindowDensity ≤ (w.updates constants pre).minWindowDensity := by
  induction post using List.reverseRecOn with
  | nil => rw [List.append_nil]
  | append_singleton post s ih =>
    rw [← List.append_assoc, updates_concat]
    exact (update_le s).trans ih

/-- **The window densities count the blocks exactly.** After every block the
density of each sub-window of the window is the number of blocks in it, with
what it had at the start; the minimum is the least of the true sums that are
compared, and never increases. -/
theorem window_densities_exact (hW : 1 ≤ constants.subWindowsPerWindow.val)
    (hlen : w.subWindowDensities.length = constants.subWindowsPerWindow.val) (ho : Ordered w slots)
    (hw : NoWrap constants w slots) :
    (∀ j, subWindowOf constants (slots.getLastD w.globalSlot) - constants.subWindowsPerWindow.val < j →
      j ≤ subWindowOf constants (slots.getLastD w.globalSlot) →
      densityAt constants (w.updates constants slots).subWindowDensities j = some (trueCount constants w slots j)) ∧
    (w.updates constants slots).minWindowDensity.val =
      (comparedSums constants w slots).foldl min w.minWindowDensity.val ∧
    ∀ pre, pre <+: slots → (w.updates constants slots).minWindowDensity ≤ (w.updates constants pre).minWindowDensity := by
  obtain ⟨-, hcounts, hmin⟩ := updates_exact hW hlen ho hw
  rw [globalSlot_updates] at hcounts
  refine ⟨hcounts, hmin, fun pre hpre => ?_⟩
  obtain ⟨post, rfl⟩ := hpre
  exact updates_le pre post

/-- Two blocks in the sub-window after the first one, and one two windows
later. -/
theorem window_densities_exact_three :
    let constants : Constants := ⟨2, 3, 30, 0⟩
    let w : Window := ⟨⟨1, 30⟩, [4, 5, 6], 9⟩
    let slots : List GlobalSlot := [⟨2, 30⟩, ⟨3, 30⟩, ⟨14, 30⟩]
    (∀ j, subWindowOf constants (slots.getLastD w.globalSlot) - constants.subWindowsPerWindow.val < j →
      j ≤ subWindowOf constants (slots.getLastD w.globalSlot) →
      densityAt constants (w.updates constants slots).subWindowDensities j = some (trueCount constants w slots j)) ∧
    (w.updates constants slots).minWindowDensity.val =
      (comparedSums constants w slots).foldl min w.minWindowDensity.val ∧
    ∀ pre, pre <+: slots → (w.updates constants slots).minWindowDensity ≤ (w.updates constants pre).minWindowDensity :=
  window_densities_exact (by decide) (by decide) (by unfold Ordered; decide) ⟨by decide, by decide, by decide⟩

end Runs

end MinWindowDensity

end Mina.Consensus
