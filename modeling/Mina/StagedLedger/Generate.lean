/-
`generate`: a diff over one or two partitions of the scan state's space.

The first pre-diff is made without a coinbase. When it leaves one or two slots
free, the coinbase is put there in as many parts, and works that were discarded
come back; when it leaves none, the second pre-diff has the coinbase; otherwise
it is made again with a coinbase, and there is no second one.

With the fuel for that many iterations of each loop; `none` when it runs out.
-/
import Mina.StagedLedger.OnePrediff

namespace Mina.StagedLedger

/-- `Scan_state.Space_partition.t`: slots and jobs. -/
structure SpacePartition where
  first : Int × Int
  second : Option (Int × Int)

/-- `Staged_ledger_diff.At_most_one.t`. -/
inductive AtMostOne (α : Type) where
  | zero
  | one (x : Option α)

/-- `pre_diff_with_at_most_two_coinbase`, and the same with at most one. -/
structure PreDiff (F Status Coinbases : Type) where
  completedWorks : List (TransactionSnarkWork F)
  commands : List (Resources.Command Status)
  coinbase : Coinbases

abbrev PreDiffTwo (F Status : Type) := PreDiff F Status (AtMostTwo CoinbaseFeeTransfer)

abbrev PreDiffOne (F Status : Type) := PreDiff F Status (AtMostOne CoinbaseFeeTransfer)

namespace Resources

variable {F Status : Type}

def spaceAvailable (res : T F Status) : Bool := res.maxSpace > slotsOccupied res

def availableSpace (t : T F Status) : Int := t.maxSpace - slotsOccupied t

/-! ## Pre-diffs -/

def preDiffWithTwo (res : T F Status) : PreDiffTwo F Status where
  completedWorks := res.completedWorkRev.reverse
  commands := res.commandsRev.reverse
  coinbase := res.coinbase

def toAtMostOne : AtMostTwo CoinbaseFeeTransfer → AtMostOne CoinbaseFeeTransfer
  | .zero => .zero
  | .one x => .one x
  | .two _ => .zero

def preDiffWithOne (res : T F Status) : PreDiffOne F Status where
  completedWorks := res.completedWorkRev.reverse
  commands := res.commandsRev.reverse
  coinbase := toAtMostOne res.coinbase

def makeDiff (res : T F Status × Option (T F Status)) : PreDiffTwo F Status × Option (PreDiffOne F Status) :=
  (preDiffWithTwo res.1, res.2.map preDiffWithOne)

def hasNoCommands (res : T F Status) : Bool := res.commandsRev.length = 0

def isEmpty (res : T F Status) : Bool := hasNoCommands res && coinbaseAdded res = 0

/-- Going on with the result of a loop, unless its fuel ran out. -/
def andThenSome {α β : Type} (x : Exn (Option α)) (f : α → Exn (Option β)) : Exn (Option β) :=
  x.andThen fun a => a.elim (.ok none) f

section Generate

variable [DecidableEq F] (c : ConstraintConstants) (fuel : Nat) (cwSeq : List (TransactionSnarkWork F))
  (tsSeq : List (Command Status)) (receiver : PublicKey) (isCoinbaseReceiverNew superchargeCoinbase : Bool)

/-- `try_with_coinbase`: only the first partition, with a coinbase. -/
def tryWithCoinbase (cwSeq1 : List (TransactionSnarkWork F)) (first : Int × Int) :
    Exn (Option (T F Status × Option (T F Status))) :=
  andThenSome (onePrediff c fuel cwSeq1 tsSeq receiver true first.1 first.2 isCoinbaseReceiverNew superchargeCoinbase)
    fun res => .ok (some (res, none))

def secondPreDiff (res : T F Status) (partition : Int × Int) (addCoinbase : Bool)
    (work : List (TransactionSnarkWork F)) : Exn (Option (T F Status)) :=
  onePrediff c fuel work res.discarded.commandsRev receiver addCoinbase partition.1 partition.2 isCoinbaseReceiverNew
    superchargeCoinbase

def incrCoinbaseAndCompute (cwSeq1 cwSeq2 : List (TransactionSnarkWork F)) (first y : Int × Int) (res : T F Status)
    (count : Count) : Exn (Option (T F Status × Option (T F Status))) :=
  (incrCoinbasePartBy c res count).andThen fun newRes =>
    if spaceAvailable newRes then
      -- Not all slots could be filled, for want of budget or of work.
      tryWithCoinbase c fuel tsSeq receiver isCoinbaseReceiverNew superchargeCoinbase cwSeq1 first
    else
      andThenSome (secondPreDiff c fuel receiver isCoinbaseReceiverNew superchargeCoinbase newRes y false cwSeq2)
        fun res2 =>
          if isEmpty res2 then
            tryWithCoinbase c fuel tsSeq receiver isCoinbaseReceiverNew superchargeCoinbase cwSeq1 first
          else .ok (some (newRes, some res2))

/-- The resources for two partitions, before it is checked that there is a
coinbase. -/
def twoPartitions (cwSeq1 cwSeq2 : List (TransactionSnarkWork F)) (first y : Int × Int) :
    Exn (Option (T F Status × Option (T F Status))) :=
  andThenSome (onePrediff c fuel cwSeq1 tsSeq receiver false first.1 first.2 isCoinbaseReceiverNew superchargeCoinbase)
    fun res =>
      if res.commandsRev.isEmpty then
        tryWithCoinbase c fuel tsSeq receiver isCoinbaseReceiverNew superchargeCoinbase cwSeq1 first
      else if availableSpace res = 0 then
        andThenSome (secondPreDiff c fuel receiver isCoinbaseReceiverNew superchargeCoinbase res y true cwSeq2)
          fun res2 => .ok (some (res, some res2))
      else if availableSpace res = 1 then
        incrCoinbaseAndCompute c fuel tsSeq receiver isCoinbaseReceiverNew superchargeCoinbase cwSeq1 cwSeq2 first y res
          .one
      else if availableSpace res = 2 then
        incrCoinbaseAndCompute c fuel tsSeq receiver isCoinbaseReceiverNew superchargeCoinbase cwSeq1 cwSeq2 first y res
          .two
      else tryWithCoinbase c fuel tsSeq receiver isCoinbaseReceiverNew superchargeCoinbase cwSeq1 first

/-- The resources that the pre-diffs are made from. -/
def generateResources (partitions : SpacePartition) : Exn (Option (T F Status × Option (T F Status))) :=
  match partitions.second with
  | none => tryWithCoinbase c fuel tsSeq receiver isCoinbaseReceiverNew superchargeCoinbase cwSeq partitions.first
  | some y =>
    let cwSeq1 := cwSeq.take partitions.first.2.toNat
    let cwSeq2 := cwSeq.drop partitions.first.2.toNat
    Exn.assert (cwSeq.length ≤ partitions.first.2 + y.2) <|
      andThenSome (twoPartitions c fuel tsSeq receiver isCoinbaseReceiverNew superchargeCoinbase cwSeq1 cwSeq2
          partitions.first y) fun res =>
        if coinbaseAdded res.1 + (res.2.map coinbaseAdded).getD 0 > 0 then .ok (some res)
        else
          -- The coinbase takes priority over commands.
          tryWithCoinbase c fuel tsSeq receiver isCoinbaseReceiverNew superchargeCoinbase cwSeq1 partitions.first

def generate (partitions : SpacePartition) : Exn (Option (PreDiffTwo F Status × Option (PreDiffOne F Status))) :=
  andThenSome (generateResources c fuel cwSeq tsSeq receiver isCoinbaseReceiverNew superchargeCoinbase partitions)
    fun res => .ok (some (makeDiff res))

end Generate

/-- `Pre_diff_info.check_coinbase`; the error has the two values that its text
prints. -/
def checkCoinbase (diff : PreDiffTwo F Status × Option (PreDiffOne F Status)) :
    Except (AtMostTwo CoinbaseFeeTransfer × AtMostOne CoinbaseFeeTransfer) Unit :=
  match diff.1.coinbase, (diff.2.map (·.coinbase)).getD .zero with
  | .zero, .zero => .ok ()
  | .zero, .one _ => .ok ()
  | .one _, .zero => .ok ()
  | .two _, .zero => .ok ()
  | x, y => .error (x, y)

/-! ## What a loop with enough fuel returns -/

/-- With enough fuel the value is there, and has the property. -/
def Returns {α : Type} (f : Nat → Exn (Option α)) (P : α → Prop) : Prop :=
  ∃ fuel a, (∀ fuel' ≥ fuel, f fuel' = .ok (some a)) ∧ P a

theorem Returns.pure {α : Type} {P : α → Prop} {a : α} (h : P a) : Returns (fun _ => .ok (some a)) P :=
  ⟨0, a, fun _ _ => rfl, h⟩

theorem Returns.andThenSome {α β : Type} {f : Nat → Exn (Option α)} {g : Nat → α → Exn (Option β)} {P : α → Prop}
    {Q : β → Prop} (hf : Returns f P) (hg : ∀ a, P a → Returns (fun fuel => g fuel a) Q) :
    Returns (fun fuel => andThenSome (f fuel) (g fuel)) Q := by
  obtain ⟨fuel, a, ha, hP⟩ := hf
  obtain ⟨fuel', b, hb, hQ⟩ := hg a hP
  refine ⟨max fuel fuel', b, fun more hmore => ?_, hQ⟩
  dsimp only
  rw [Resources.andThenSome, ha more (le_trans (le_max_left _ _) hmore), Exn.andThen_ok, Option.elim_some]
  exact hb more (le_trans (le_max_right _ _) hmore)

theorem Returns.imp {α : Type} {f : Nat → Exn (Option α)} {P Q : α → Prop} (hf : Returns f P)
    (h : ∀ a, P a → Q a) : Returns f Q := by
  obtain ⟨fuel, a, ha, hP⟩ := hf
  exact ⟨fuel, a, ha, h a hP⟩

section Facts

variable [DecidableEq F] {c : ConstraintConstants} {cwSeq : List (TransactionSnarkWork F)}
  {tsSeq : List (Command Status)} {receiver : PublicKey} {isCoinbaseReceiverNew superchargeCoinbase addCoinbase : Bool}
  {slots jobCount : Int} {amount : Option Amount} {t res res' : T F Status}

theorem onePrediff_returns (hs : Sums tsSeq cwSeq) (hspace : 1 ≤ slots ∨ cwSeq = [])
    (hamount : coinbaseAmount superchargeCoinbase c = .ok amount) :
    Returns (fun fuel => onePrediff c fuel cwSeq tsSeq receiver addCoinbase slots jobCount isCoinbaseReceiverNew
      superchargeCoinbase) (IsPrediff c cwSeq tsSeq receiver addCoinbase slots jobCount amount) := by
  obtain ⟨_, fuel, t, -, -, hreturns, ht⟩ := @onePrediff_ends F Status _ c tsSeq cwSeq slots jobCount receiver addCoinbase
    superchargeCoinbase isCoinbaseReceiverNew amount hs hspace hamount
  exact ⟨fuel, t, hreturns, ht⟩

/-! ## One pre-diff -/

namespace IsPrediff

omit [DecidableEq F] in
/-- The slots that are occupied fit. -/
theorem slotsOccupied_le (h : IsPrediff c cwSeq tsSeq receiver addCoinbase slots jobCount amount t)
    (hslots : 0 ≤ slots) : (slotsOccupied t : Int) ≤ slots := by
  rcases h.met with hzero | hmet
  · omega
  · have := hmet.space
    rw [spaceConstraintSatisfied, decide_eq_true_iff, h.payable.space] at this
    exact this

omit [DecidableEq F] in
theorem length_works (h : IsPrediff c cwSeq tsSeq receiver addCoinbase slots jobCount amount t) :
    cwSeq.length = t.completedWorkRev.length + t.discarded.completedWork.length := by
  have := congrArg List.length h.loop.works
  rwa [List.length_append, List.length_reverse] at this

omit [DecidableEq F] in
/-- No more works are discarded than slots are left, when there is a command. -/
theorem length_discarded_le (h : IsPrediff c cwSeq tsSeq receiver addCoinbase slots jobCount amount t)
    (hcommands : t.commandsRev ≠ []) (hjobs : jobCount ≤ slots) (hworks : (cwSeq.length : Int) ≤ jobCount) :
    (t.discarded.completedWork.length : Int) ≤ availableSpace t := by
  have hlength := h.length_works
  have hpos := List.length_pos_iff.2 hcommands
  have hslots := slotsOccupied_eq t
  have hmet := h.met.resolve_left (by omega)
  have hspace := hmet.space
  rw [spaceConstraintSatisfied, decide_eq_true_iff, h.payable.space] at hspace
  have hwork := hmet.work
  rw [workConstraintSatisfied, workDone, h.payable.space, h.payable.jobs] at hwork
  simp only [Bool.or_eq_true, decide_eq_true_iff] at hwork
  rw [availableSpace, h.payable.space]
  omega

end IsPrediff

/-! ## More parts of the coinbase -/

/-- What so many more parts of the coinbase change. -/
structure Incremented (k : Nat) (res res' : T F Status) : Prop where
  space : res'.maxSpace = res.maxSpace
  amount : res'.superchargeCoinbase = res.superchargeCoinbase
  commands : res'.commandsRev = res.commandsRev
  discardedCommands : res'.discarded.commandsRev = res.discarded.commandsRev
  works : res'.completedWorkRev.reverse ++ res'.discarded.completedWork =
    res.completedWorkRev.reverse ++ res.discarded.completedWork
  fewer : res'.discarded.completedWork.length = res.discarded.completedWork.length - k
  parts : res'.coinbase.parts ≤ res.coinbase.parts + k
  slots : res.discarded.completedWork = [] → slotsOccupied res' ≤ slotsOccupied res + k

omit [DecidableEq F] in
theorem Incremented.trans {j k : Nat} {res'' : T F Status} (h : Incremented j res res') (h' : Incremented k res' res'') :
    Incremented (j + k) res res'' := by
  refine ⟨h'.space.trans h.space, h'.amount.trans h.amount, h'.commands.trans h.commands,
    h'.discardedCommands.trans h.discardedCommands, h'.works.trans h.works, ?_, ?_, fun hnil => ?_⟩
  · have := h.fewer
    have := h'.fewer
    omega
  · have := h.parts
    have := h'.parts
    omega
  · have hnone : res'.discarded.completedWork = [] := by
      rw [← List.length_eq_zero_iff, h.fewer, hnil]
      exact Nat.zero_sub _
    have := h.slots hnil
    have := h'.slots hnone
    omega

theorem incrCoinbase_ok {coinbase : AtMostTwo CoinbaseFeeTransfer} (h : coinbase.parts ≤ 1) :
    ∃ coinbase', incrCoinbase coinbase = .ok coinbase' ∧ coinbase'.parts = coinbase.parts + 1 := by
  cases coinbase with
  | zero => exact ⟨_, rfl, rfl⟩
  | one x => cases x <;> exact ⟨_, rfl, rfl⟩
  | two x =>
    rw [AtMostTwo.parts] at h
    omega

/-- A discarded work comes back, or there is none and the fee transfers stay. -/
theorem incrCoinbaseByOne_ok (hparts : res.coinbase.parts ≤ 1)
    (hamount : coinbaseAmount res.superchargeCoinbase c = .ok amount)
    (hlt : ((res.completedWorkRev.reverse ++ res.discarded.completedWork).map (·.fee.val)).sum < 2 ^ 64) :
    ∃ res', incrCoinbaseByOne c res = .ok res' ∧ Incremented 1 res res' := by
  obtain ⟨coinbase, hincr, hmore⟩ := incrCoinbase_ok hparts
  rw [incrCoinbaseByOne, hincr]
  cases hdiscarded : res.discarded.completedWork with
  | cons w remWork =>
    dsimp only
    rw [hdiscarded, List.map_append, List.map_reverse, List.sum_append, List.sum_reverse, List.map_cons,
      List.sum_cons] at hlt
    obtain ⟨res', hres⟩ := exists_reselectCoinbaseWork (c := c) (t := { res with
      completedWorkRev := w :: res.completedWorkRev
      discarded := { res.discarded with completedWork := remWork }
      coinbase }) hamount (by rw [List.map_cons, List.sum_cons]; omega)
    have hre := reselectCoinbaseWork_eq_ok hres
    have hpart := hre.parts
    refine ⟨res', hres, ?_⟩
    rw [hre.eq]
    refine ⟨rfl, rfl, rfl, rfl, ?_, ?_, hpart.le.trans hmore.le, fun hnil => ?_⟩
    · simp [hdiscarded]
    · simp [hdiscarded]
    · rw [hdiscarded] at hnil
      cases hnil
  | nil =>
    dsimp only
    have hslots : slotsOccupied { res with coinbase } = slotsOccupied res + 1 := by
      rw [slotsOccupied_eq, slotsOccupied_eq]
      dsimp only
      omega
    split
    next =>
      exact ⟨_, rfl, rfl, rfl, rfl, rfl, rfl, by simp [hdiscarded], hmore.le, fun _ => hslots.le⟩
    next =>
      exact ⟨_, rfl, rfl, rfl, rfl, rfl, rfl, by simp [hdiscarded], Nat.le_succ _, fun _ => Nat.le_succ _⟩

def Count.toNat : Count → Nat
  | .one => 1
  | .two => 2

theorem incrCoinbasePartBy_ok (hparts : res.coinbase.parts = 0)
    (hamount : coinbaseAmount res.superchargeCoinbase c = .ok amount)
    (hlt : ((res.completedWorkRev.reverse ++ res.discarded.completedWork).map (·.fee.val)).sum < 2 ^ 64)
    (count : Count) : ∃ res', incrCoinbasePartBy c res count = .ok res' ∧ Incremented count.toNat res res' := by
  obtain ⟨res1, h1, hone⟩ := incrCoinbaseByOne_ok (by omega) hamount hlt
  cases count with
  | one => exact ⟨res1, h1, hone⟩
  | two =>
    obtain ⟨res2, h2, htwo⟩ := @incrCoinbaseByOne_ok F Status _ c amount res1 (by have := hone.parts; omega)
      (hone.amount.symm ▸ hamount) (hone.works.symm ▸ hlt)
    exact ⟨res2, by rw [incrCoinbasePartBy, h1, Exn.andThen_ok, h2], hone.trans htwo⟩

/-! ## Diffs -/

omit [DecidableEq F] in
theorem Sums.sublist {ucs : List (Command Status)} {cws : List (TransactionSnarkWork F)} (hs : Sums tsSeq cwSeq)
    (hucs : ucs.Sublist tsSeq) (hcws : cws.Sublist cwSeq) : Sums ucs cws :=
  ⟨hs.exists_sumFees hucs, sumFees_ok (fun w _ => ⟨w.fee, rfl⟩)
    ((sum_map_le_of_sublist hcws _).trans_lt hs.sum_works_lt)⟩

/-- Resources to which a discarded work has come back with a part of the
coinbase. -/
def PulledBack (c : ConstraintConstants) (newRes : T F Status) : Prop :=
  ∃ res count, res.discarded.completedWork ≠ [] ∧ incrCoinbasePartBy c res count = .ok newRes

/-- What holds of the resources that the pre-diffs are made from. -/
structure Fits (c : ConstraintConstants) (tsSeq : List (Command Status)) (cwSeq : List (TransactionSnarkWork F))
    (s1 s2 : Int) (res : T F Status × Option (T F Status)) : Prop where
  commands : res.1.commandsRev.reverse ++ (res.2.elim [] fun t => t.commandsRev.reverse) <+: tsSeq.reverse
  works : res.1.completedWorkRev.reverse ++ (res.2.elim [] fun t => t.completedWorkRev.reverse) <+: cwSeq
  first : (slotsOccupied res.1 : Int) ≤ s1 ∨ PulledBack c res.1
  filled : ∀ t ∈ res.2, s1 ≤ slotsOccupied res.1
  second : ∀ t ∈ res.2, (slotsOccupied t : Int) ≤ s2
  coinbase : checkCoinbase (makeDiff res) = .ok ()

omit [DecidableEq F] in
theorem coinbase_eq_zero {coinbase : AtMostTwo CoinbaseFeeTransfer} (h : coinbase.parts ≤ 0) : coinbase = .zero := by
  cases coinbase with
  | zero => rfl
  | one x => cases h
  | two x => cases h

namespace IsPrediff

variable {cwSeq1 cwSeq2 : List (TransactionSnarkWork F)} {s1 j1 s2 j2 : Int} {res2 : T F Status}

theorem fits_single (h : IsPrediff c cwSeq1 tsSeq receiver true s1 j1 amount t) (hs1 : 0 ≤ s1)
    (hsub : cwSeq1 <+: cwSeq) : Fits c tsSeq cwSeq s1 s2 (t, none) := by
  refine ⟨?_, ?_, .inl (h.slotsOccupied_le hs1), fun _ ht => (by cases ht), fun _ ht => (by cases ht), ?_⟩
  · rw [Option.elim_none, List.append_nil, h.loop.commands, List.reverse_append]
    exact List.prefix_append _ _
  · rw [Option.elim_none, List.append_nil]
    exact List.IsPrefix.trans ⟨_, h.loop.works.symm⟩ hsub
  · have hparts := h.parts
    rw [checkCoinbase, makeDiff, preDiffWithTwo]
    dsimp only
    cases hcoinbase : t.coinbase with
    | zero => rfl
    | one x => rfl
    | two x =>
      rw [hcoinbase, AtMostTwo.parts, if_pos rfl] at hparts
      omega

/-- Two pre-diffs, of which the first has all its works and fills its space. -/
theorem fits_pair (h : IsPrediff c cwSeq2 t.discarded.commandsRev receiver addCoinbase s2 j2 amount res2)
    (hs2 : 0 ≤ s2) (hcommands : tsSeq = t.discarded.commandsRev ++ t.commandsRev)
    (hworks : t.completedWorkRev.reverse = cwSeq1) (hfirst : (slotsOccupied t : Int) ≤ s1 ∨ PulledBack c t)
    (hfilled : s1 ≤ slotsOccupied t) (hparts : if addCoinbase then t.coinbase.parts = 0 else t.coinbase.parts ≤ 2) :
    Fits c tsSeq (cwSeq1 ++ cwSeq2) s1 s2 (t, some res2) := by
  refine ⟨?_, ?_, hfirst, fun _ _ => hfilled, fun t' ht' => ?_, ?_⟩
  · rw [Option.elim_some, hcommands, List.reverse_append, h.loop.commands, List.reverse_append, ← List.append_assoc]
    exact List.prefix_append _ _
  · rw [Option.elim_some, hworks, h.loop.works, ← List.append_assoc]
    exact List.prefix_append _ _
  · cases ht'
    exact h.slotsOccupied_le hs2
  · have hsecond := h.parts
    rw [checkCoinbase, makeDiff, preDiffWithTwo]
    dsimp only [Option.map_some, Option.getD_some, preDiffWithOne]
    cases addCoinbase with
    | true =>
      rw [if_pos rfl] at hparts hsecond
      rw [coinbase_eq_zero hparts.le]
      cases hcoinbase : res2.coinbase with
      | zero => rfl
      | one x => rfl
      | two x =>
        rw [hcoinbase, AtMostTwo.parts] at hsecond
        omega
    | false =>
      rw [coinbase_eq_zero hsecond]
      cases t.coinbase <;> rfl

end IsPrediff

/-! ## Two partitions -/

section TwoPartitions

variable {cwSeq1 cwSeq2 : List (TransactionSnarkWork F)} {first y : Int × Int}

/-- What `try_with_coinbase` returns. -/
theorem tryWithCoinbase_returns (hs : Sums tsSeq cwSeq1) (hspace : 1 ≤ first.1 ∨ cwSeq1 = []) (hfirst : 0 ≤ first.1)
    (hamount : coinbaseAmount superchargeCoinbase c = .ok amount) (hsub : cwSeq1 <+: cwSeq) (s2 : Int) :
    Returns (fun fuel => tryWithCoinbase c fuel tsSeq receiver isCoinbaseReceiverNew superchargeCoinbase cwSeq1 first)
      (Fits c tsSeq cwSeq first.1 s2) :=
  (onePrediff_returns hs hspace hamount).andThenSome fun _ ht => .pure (ht.fits_single hfirst hsub)

theorem secondPreDiff_returns (hs : Sums tsSeq cwSeq2) (hspace : 1 ≤ y.1 ∨ cwSeq2 = [])
    (hamount : coinbaseAmount superchargeCoinbase c = .ok amount)
    (hcommands : tsSeq = res.discarded.commandsRev ++ res.commandsRev) (addCoinbase : Bool) :
    Returns (fun fuel => secondPreDiff c fuel receiver isCoinbaseReceiverNew superchargeCoinbase res y addCoinbase cwSeq2)
      (IsPrediff c cwSeq2 res.discarded.commandsRev receiver addCoinbase y.1 y.2 amount) := by
  have hsublist : res.discarded.commandsRev.Sublist tsSeq := by
    rw [hcommands]
    exact List.sublist_append_left _ _
  exact onePrediff_returns (hs.sublist hsublist (List.Sublist.refl _)) hspace hamount

/-- All works are back in the list when as many parts are added as there are
slots left. -/
theorem incrCoinbaseAndCompute_returns (hs1 : Sums tsSeq cwSeq1) (hs2 : Sums tsSeq cwSeq2)
    (hspace1 : 1 ≤ first.1 ∨ cwSeq1 = []) (hspace2 : 1 ≤ y.1 ∨ cwSeq2 = []) (hfirst : 0 ≤ first.1) (hy : 0 ≤ y.1)
    (hamount : coinbaseAmount superchargeCoinbase c = .ok amount) {count : Count}
    (hres : IsPrediff c cwSeq1 tsSeq receiver false first.1 first.2 amount res)
    (hdiscarded : res.discarded.completedWork.length ≤ count.toNat)
    (hslots : availableSpace res = (count.toNat : Int)) :
    Returns (fun fuel => incrCoinbaseAndCompute c fuel tsSeq receiver isCoinbaseReceiverNew superchargeCoinbase cwSeq1
      cwSeq2 first y res count) (Fits c tsSeq (cwSeq1 ++ cwSeq2) first.1 y.1) := by
  have htry := @tryWithCoinbase_returns F Status _ c (cwSeq1 ++ cwSeq2) tsSeq receiver isCoinbaseReceiverNew
    superchargeCoinbase amount cwSeq1 first hs1 hspace1 hfirst hamount (List.prefix_append _ _) y.1
  have hparts := Nat.le_zero.1 hres.parts
  obtain ⟨newRes, hnew, hincr⟩ := incrCoinbasePartBy_ok hparts hres.payable.amount
    (hres.loop.works ▸ hs1.sum_works_lt) count
  have hnone : newRes.discarded.completedWork = [] := by
    rw [← List.length_eq_zero_iff, hincr.fewer]
    exact Nat.sub_eq_zero_of_le hdiscarded
  have hworks : newRes.completedWorkRev.reverse = cwSeq1 := by
    rw [hres.loop.works, ← hincr.works, hnone, List.append_nil]
  have hcommands : tsSeq = newRes.discarded.commandsRev ++ newRes.commandsRev := by
    rw [hincr.discardedCommands, hincr.commands]
    exact hres.loop.commands
  have hmax : newRes.maxSpace = first.1 := hincr.space.trans hres.payable.space
  simp only [incrCoinbaseAndCompute, hnew, Exn.andThen_ok]
  by_cases havailable : spaceAvailable newRes = true
  · simp only [havailable, if_true]
    exact htry
  · simp only [havailable, Bool.false_eq_true, if_false]
    rw [spaceAvailable, decide_eq_true_iff, hmax] at havailable
    refine (secondPreDiff_returns hs2 hspace2 hamount hcommands false).andThenSome fun res2 hres2 => ?_
    by_cases hempty : isEmpty res2 = true
    · simp only [hempty, if_true]
      exact htry
    · simp only [hempty, Bool.false_eq_true, if_false]
      refine .pure (hres2.fits_pair hy hcommands hworks ?_ (by omega) ?_)
      · by_cases hpulled : res.discarded.completedWork = []
        · have := hincr.slots hpulled
          rw [availableSpace, hres.payable.space] at hslots
          exact .inl (by omega)
        · exact .inr ⟨res, count, hpulled, hnew⟩
      · have := hincr.parts
        rw [if_neg Bool.false_ne_true]
        cases count <;> simp only [Count.toNat] at this <;> omega

theorem twoPartitions_returns (hs1 : Sums tsSeq cwSeq1) (hs2 : Sums tsSeq cwSeq2) (hfirst : 0 ≤ first.2 ∧ first.2 ≤ first.1)
    (hy : 0 ≤ y.2 ∧ y.2 ≤ y.1) (hworks1 : (cwSeq1.length : Int) ≤ first.2) (hworks2 : (cwSeq2.length : Int) ≤ y.2)
    (hamount : coinbaseAmount superchargeCoinbase c = .ok amount) :
    Returns (fun fuel => twoPartitions c fuel tsSeq receiver isCoinbaseReceiverNew superchargeCoinbase cwSeq1 cwSeq2
      first y) (Fits c tsSeq (cwSeq1 ++ cwSeq2) first.1 y.1) := by
  have hspace : ∀ {ws : List (TransactionSnarkWork F)} {s j : Int}, (ws.length : Int) ≤ j → j ≤ s → 1 ≤ s ∨ ws = [] := by
    intro ws s j hws hjs
    rcases ws with _ | ⟨w, ws⟩
    · exact .inr rfl
    · rw [List.length_cons] at hws
      exact .inl (by omega)
  have hspace1 := hspace hworks1 hfirst.2
  have hspace2 := hspace hworks2 hy.2
  have htry := @tryWithCoinbase_returns F Status _ c (cwSeq1 ++ cwSeq2) tsSeq receiver isCoinbaseReceiverNew
    superchargeCoinbase amount cwSeq1 first hs1 hspace1 (by omega) hamount (List.prefix_append _ _) y.1
  refine (onePrediff_returns hs1 hspace1 hamount).andThenSome fun res hres => ?_
  by_cases hcommands : res.commandsRev.isEmpty = true
  · simp only [hcommands, if_true]
    exact htry
  simp only [hcommands, Bool.false_eq_true, if_false]
  have hdiscarded := hres.length_discarded_le (fun hnil => hcommands (by rw [hnil, List.isEmpty_nil])) hfirst.2 hworks1
  by_cases hzero : availableSpace res = 0
  · simp only [hzero, if_true]
    rw [hzero] at hdiscarded
    have hnone := List.length_eq_zero_iff.1 (by omega : res.discarded.completedWork.length = 0)
    have hslots : (slotsOccupied res : Int) = first.1 := by
      rw [availableSpace, hres.payable.space] at hzero
      omega
    refine (secondPreDiff_returns hs2 hspace2 hamount hres.loop.commands true).andThenSome fun res2 hres2 => ?_
    refine .pure (hres2.fits_pair (by omega) hres.loop.commands ?_ (.inl hslots.le) hslots.ge ?_)
    · rw [hres.loop.works, hnone, List.append_nil]
    · rw [if_pos rfl]
      exact Nat.le_zero.1 hres.parts
  simp only [hzero, if_false]
  by_cases hone : availableSpace res = 1
  · simp only [hone, if_true]
    exact incrCoinbaseAndCompute_returns hs1 hs2 hspace1 hspace2 (by omega) (by omega) hamount hres
      (by rw [hone] at hdiscarded; exact Int.ofNat_le.1 hdiscarded) hone
  simp only [hone, if_false]
  by_cases htwo : availableSpace res = 2
  · simp only [htwo, if_true]
    exact incrCoinbaseAndCompute_returns hs1 hs2 hspace1 hspace2 (by omega) (by omega) hamount hres
      (by rw [htwo] at hdiscarded; exact Int.ofNat_le.1 hdiscarded) htwo
  · simp only [htwo, if_false]
    exact htry

end TwoPartitions

/-! ## The diff -/

theorem Returns.and_self {α : Type} {f : Nat → Exn (Option α)} {P : α → Prop} (h : Returns f P) :
    Returns f fun a => P a ∧ ∃ fuel, ∀ fuel' ≥ fuel, f fuel' = .ok (some a) := by
  obtain ⟨fuel, a, ha, hP⟩ := h
  exact ⟨fuel, a, ha, hP, fuel, ha⟩

/-- How many parts of the coinbase there are. -/
def coinbaseParts (res : T F Status × Option (T F Status)) : Nat :=
  coinbaseAdded res.1 + (res.2.map coinbaseAdded).getD 0

variable {partitions : SpacePartition}

/-- The resources fit, and without a part of the coinbase they are those that
`one_prediff` returns with a coinbase for the first partition. -/
def Diff (c : ConstraintConstants) (cwSeq : List (TransactionSnarkWork F)) (tsSeq : List (Command Status))
    (receiver : PublicKey) (isCoinbaseReceiverNew superchargeCoinbase : Bool) (partitions : SpacePartition)
    (res : T F Status × Option (T F Status)) : Prop :=
  Fits c tsSeq cwSeq partitions.first.1 ((partitions.second.map (·.1)).getD 0) res ∧
    (coinbaseParts res = 0 → res.2 = none ∧ ∃ fuel, ∀ fuel' ≥ fuel, onePrediff c fuel'
      (cwSeq.take partitions.first.2.toNat) tsSeq receiver true partitions.first.1 partitions.first.2
      isCoinbaseReceiverNew superchargeCoinbase = .ok (some res.1))

/-- The diff of the first partition alone. -/
theorem tryWithCoinbase_diff {cwSeq1 : List (TransactionSnarkWork F)} (hs : Sums tsSeq cwSeq1)
    (hspace : 1 ≤ partitions.first.1 ∨ cwSeq1 = []) (hfirst : 0 ≤ partitions.first.1)
    (hamount : coinbaseAmount superchargeCoinbase c = .ok amount)
    (htake : cwSeq.take partitions.first.2.toNat = cwSeq1) :
    Returns (fun fuel => tryWithCoinbase c fuel tsSeq receiver isCoinbaseReceiverNew superchargeCoinbase cwSeq1
      partitions.first) (Diff c cwSeq tsSeq receiver isCoinbaseReceiverNew superchargeCoinbase partitions) := by
  refine (onePrediff_returns hs hspace hamount).and_self.andThenSome fun _ ht => .pure ⟨?_, fun _ => ⟨rfl, ?_⟩⟩
  · exact ht.1.fits_single hfirst (htake ▸ List.take_prefix _ _)
  · rw [htake]
    exact ht.2

theorem generateResources_returns (hs : Sums tsSeq cwSeq) (hamount : coinbaseAmount superchargeCoinbase c = .ok amount)
    (hfirst : 0 ≤ partitions.first.2 ∧ partitions.first.2 ≤ partitions.first.1)
    (hsecond : ∀ y ∈ partitions.second, 0 ≤ y.2 ∧ y.2 ≤ y.1)
    (hlength : (cwSeq.length : Int) ≤ partitions.first.2 + (partitions.second.map (·.2)).getD 0) :
    Returns (fun fuel => generateResources c fuel cwSeq tsSeq receiver isCoinbaseReceiverNew superchargeCoinbase
      partitions) (Diff c cwSeq tsSeq receiver isCoinbaseReceiverNew superchargeCoinbase partitions) := by
  have htake : (cwSeq.take partitions.first.2.toNat).length ≤ partitions.first.2 := by
    rw [List.length_take]
    omega
  have hs1 : Sums tsSeq (cwSeq.take partitions.first.2.toNat) :=
    hs.sublist (List.Sublist.refl _) (List.take_sublist _ _)
  have hspace : 1 ≤ partitions.first.1 ∨ cwSeq.take partitions.first.2.toNat = [] := by
    by_cases hnil : cwSeq.take partitions.first.2.toNat = []
    · exact .inr hnil
    · have := List.length_pos_iff.2 hnil
      exact .inl (by omega)
  cases hpartition : partitions.second with
  | none =>
    rw [hpartition, Option.map_none, Option.getD_none] at hlength
    have hall : cwSeq.take partitions.first.2.toNat = cwSeq := List.take_of_length_le (by omega)
    simp only [generateResources, hpartition]
    exact tryWithCoinbase_diff hs (hall ▸ hspace) (by omega) hamount hall
  | some y =>
    rw [hpartition, Option.map_some, Option.getD_some] at hlength
    have hy := hsecond y hpartition
    have hdrop : (cwSeq.drop partitions.first.2.toNat).length ≤ y.2 := by
      rw [List.length_drop]
      omega
    have hassert : decide ((cwSeq.length : Int) ≤ partitions.first.2 + y.2) = true := decide_eq_true hlength
    simp only [generateResources, hpartition, hassert, Exn.assert_true]
    refine (twoPartitions_returns hs1 (hs.sublist (List.Sublist.refl _) (List.drop_sublist _ _)) hfirst hy htake hdrop
      hamount).andThenSome fun res hres => ?_
    by_cases hadded : coinbaseAdded res.1 + (res.2.map coinbaseAdded).getD 0 > 0
    · simp only [hadded, if_true]
      rw [List.take_append_drop] at hres
      refine .pure ⟨?_, fun hzero => ?_⟩
      · rw [hpartition, Option.map_some, Option.getD_some]
        exact hres
      · rw [coinbaseParts] at hzero
        omega
    · simp only [hadded, if_false]
      exact tryWithCoinbase_diff hs1 hspace (by omega) hamount rfl

end Facts

end Resources

end Mina.StagedLedger
