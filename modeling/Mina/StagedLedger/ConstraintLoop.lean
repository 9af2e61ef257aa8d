/-
`check_constraints_and_update` ends, loses nothing, and ends in resources that
meet the constraints.

Discarding from an empty list changes nothing, so the loop could go round
without progress. It does not, because of two facts about the resources that
the loop goes through (`Loop`). The map and the coinbase pay only for works
in the list, so without commands and without a coinbase there are at most
half as many slots as works (rounded up, with the fee for the receiver), which
is not too much work and leaves a work to discard. And with no works left the
budget is the fees of the commands, so the budget only is an error while there
is a work to discard; the last work is only discarded for an error, and then
the budget is computed from scratch.
-/
import Mina.StagedLedger.ResourcesFacts

namespace Mina.StagedLedger.Resources

variable {F Status : Type}

/-- What holds of the resources in every iteration. -/
structure Loop (c : ConstraintConstants) (ucSeq : List (Command Status)) (cwSeq : List (TransactionSnarkWork F))
    (t : T F Status) : Prop where
  commands : ucSeq = t.discarded.commandsRev ++ t.commandsRev
  works : cwSeq = t.completedWorkRev.reverse ++ t.discarded.completedWork
  space : 1 ≤ t.maxSpace ∨ t.completedWorkRev = []
  amount : ∃ amount, coinbaseAmount t.superchargeCoinbase c = .ok amount
  feeTransfers : ∀ key ∈ t.feeTransfers, key ∈ t.completedWorkRev.map (·.prover)
  coinbase : ∀ ft ∈ t.coinbase.toList, ft.receiverPk ∈ t.completedWorkRev.map (·.prover)
  budget : t.completedWorkRev = [] → ∃ b, t.budget = .ok b ∧ b.val = (t.commandsRev.map (feeOf commandFee)).sum

/-- The sums of the fees do not overflow. -/
structure Sums (ucSeq : List (Command Status)) (cwSeq : List (TransactionSnarkWork F)) : Prop where
  commands : ∃ fees, sumFees commandFee ucSeq = .ok (.ok fees)
  works : ∃ fees, sumFees (fun w => .ok w.fee) cwSeq = .ok (.ok fees)

/-- What is left to discard. -/
def size (t : T F Status) : Nat := t.commandsRev.length + t.completedWorkRev.length + t.coinbase.parts

namespace Sums

variable {ucSeq : List (Command Status)} {cwSeq : List (TransactionSnarkWork F)}

theorem fee_ok (h : Sums ucSeq cwSeq) : ∀ uc ∈ ucSeq, ∃ fee, commandFee uc = .ok fee := by
  obtain ⟨fees, hfees⟩ := h.commands
  exact fees_of_sumFeesFrom hfees

theorem sum_works_lt (h : Sums ucSeq cwSeq) : (cwSeq.map (·.fee.val)).sum < 2 ^ 64 := by
  obtain ⟨fees, hfees⟩ := h.works
  have := sumFees_eq_ok hfees
  exact lt_of_eq_of_lt this.symm fees.isLt

/-- Some of the commands have a sum of their fees. -/
theorem exists_sumFees (h : Sums ucSeq cwSeq) {ucs : List (Command Status)} (hsub : ucs.Sublist ucSeq) :
    ∃ fees, sumFees commandFee ucs = .ok (.ok fees) := by
  obtain ⟨fees, hfees⟩ := h.commands
  refine sumFees_ok (fun uc huc => h.fee_ok uc (hsub.subset huc)) ?_
  exact (sum_map_le_of_sublist hsub _).trans_lt (lt_of_eq_of_lt (sumFees_eq_ok hfees).symm fees.isLt)

end Sums

/-- The slot of the receiver's fee transfer. -/
def feeForSelf : Except String Fee → Nat
  | .error _ => 0
  | .ok b => if b > 0 then 1 else 0

theorem feeForSelf_le (budget : Except String Fee) : feeForSelf budget ≤ 1 := by
  cases budget with
  | error e => exact Nat.zero_le _
  | ok b =>
    rw [feeForSelf]
    split <;> decide

theorem slotsOccupied_eq (t : T F Status) : slotsOccupied t = t.commandsRev.length +
    ((t.feeTransfers.filter fun key _ => t.receiverPk ≠ key).size + feeForSelf t.budget + 1) / 2 +
      t.coinbase.parts := by
  rw [← coinbaseAdded_eq]
  exact rfl

namespace Loop

variable {c : ConstraintConstants} {ucSeq : List (Command Status)} {cwSeq : List (TransactionSnarkWork F)}
  {t t' : T F Status}

theorem commands_sublist (h : Loop c ucSeq cwSeq t) : t.commandsRev.Sublist ucSeq := by
  rw [h.commands]
  exact List.sublist_append_right _ _

theorem sum_works_lt (h : Loop c ucSeq cwSeq t) (hs : Sums ucSeq cwSeq) :
    (t.completedWorkRev.map (·.fee.val)).sum < 2 ^ 64 := by
  have := hs.sum_works_lt
  rw [h.works, List.map_append, List.sum_append, List.map_reverse, List.sum_reverse] at this
  omega

/-- There are at most as many provers to pay as works. -/
theorem size_feeTransfers (h : Loop c ucSeq cwSeq t) (p : PublicKey → Fee → Bool) :
    (t.feeTransfers.filter p).size ≤ t.completedWorkRev.length := by
  refine Std.ExtTreeMap.size_filter_le_size.trans ?_
  rw [← Std.ExtTreeMap.length_keys]
  refine le_of_le_of_eq ?_ (List.length_map fun w : TransactionSnarkWork F => w.prover)
  refine (List.subperm_of_subset Std.ExtTreeMap.nodup_keys fun key hkey => ?_).length_le
  exact h.feeTransfers key (Std.ExtTreeMap.mem_of_mem_keys hkey)

/-- Without commands and without a coinbase only fee transfers take slots. -/
theorem slotsOccupied_le (h : Loop c ucSeq cwSeq t) (hcommands : t.commandsRev = [])
    (hcoinbase : t.coinbase.parts = 0) : slotsOccupied t ≤ (t.completedWorkRev.length + 2) / 2 := by
  have hothers := h.size_feeTransfers fun key _ => t.receiverPk ≠ key
  have hself := feeForSelf_le t.budget
  rw [slotsOccupied_eq, hcoinbase, hcommands, List.length_nil]
  omega

/-- Without commands and without a coinbase, slots are occupied for works. -/
theorem works_ne_nil (h : Loop c ucSeq cwSeq t) (hcommands : t.commandsRev = []) (hcoinbase : t.coinbase.parts = 0)
    (hslots : slotsOccupied t ≠ 0) : t.completedWorkRev ≠ [] := by
  intro hnil
  obtain ⟨b, hb, hval⟩ := h.budget hnil
  rw [hcommands] at hval
  have hzero : b = 0 := Fin.ext hval
  have hothers := h.size_feeTransfers fun key _ => t.receiverPk ≠ key
  rw [hnil] at hothers
  rw [slotsOccupied_eq, hcommands, hcoinbase, hb, hzero, Nat.le_zero.1 hothers] at hslots
  exact hslots rfl

/-- With nothing but one work or more there is not too little work. -/
theorem enough_work (h : Loop c ucSeq cwSeq t) (hcommands : t.commandsRev = []) (hcoinbase : t.coinbase.parts = 0)
    (hslots : slotsOccupied t ≠ 0) : workConstraintSatisfied t = true := by
  have hle := h.slotsOccupied_le hcommands hcoinbase
  have := List.length_pos_iff.2 (h.works_ne_nil hcommands hcoinbase hslots)
  rw [workConstraintSatisfied, Bool.or_eq_true, decide_eq_true_iff]
  exact .inr (by omega)

end Loop

/-! ## The operations -/

variable {c : ConstraintConstants} {ucSeq : List (Command Status)} {cwSeq : List (TransactionSnarkWork F)}
  {t : T F Status}

/-- Discarding a command, or a part of the coinbase when there is none, keeps
what the loop relies on. -/
theorem Loop.discardUserCommand (h : Loop c ucSeq cwSeq t) (hs : Sums ucSeq cwSeq)
    (hmore : t.commandsRev ≠ [] ∨ t.coinbase.parts ≠ 0) :
    ∃ r, discardUserCommand t = .ok r ∧ size r.1 < size t ∧ Loop c ucSeq cwSeq r.1 := by
  cases hcommands : t.commandsRev with
  | nil =>
    have hparts := hmore.resolve_left (absurd hcommands)
    have hsum : sumFees commandFee t.commandsRev = .ok (.ok 0) := by
      rw [hcommands]
      rfl
    have hok : ∃ t', decrCoinbase t = .ok t' := by
      have update : ∀ ft coinbase, ∃ t', updateFeeTransfers t ft coinbase = .ok t' := by
        intro ft coinbase
        obtain ⟨budget, hbudget⟩ := exists_rebudget
          (t := { t with coinbase, feeTransfers := t.feeTransfers.insert ft.receiverPk ft.fee }) hsum
        exact ⟨_, by rw [updateFeeTransfers, hbudget, Exn.andThen_ok]⟩
      rw [decrCoinbase]
      split
      next => exact ⟨_, rfl⟩
      next => exact ⟨_, rfl⟩
      next => exact ⟨_, rfl⟩
      next => exact ⟨_, rfl⟩
      next => exact update _ _
      next => exact update _ _
    obtain ⟨t', ht'⟩ := hok
    refine ⟨(t', none), by rw [discardUserCommand_nil hcommands, ht', Exn.andThen_ok], ?_⟩
    rcases decrCoinbase_eq_ok ht' with hfree | hpaid
    · obtain ⟨coinbase, -, rfl, hlist, hfewer⟩ := hfree
      refine ⟨?_, h.commands, h.works, h.space, h.amount, h.feeTransfers, fun ft hft => ?_, h.budget⟩
      · rw [size, size]
        dsimp only
        omega
      · exact h.coinbase ft (hlist ▸ hft)
    · obtain ⟨ft, coinbase, budget, -, rfl, hlist, hfewer, -⟩ := hpaid
      have hft : ft.receiverPk ∈ t.completedWorkRev.map (·.prover) := h.coinbase ft (by simp [hlist])
      refine ⟨?_, h.commands, h.works, h.space, h.amount, fun key hkey => ?_, fun ft' hft' => ?_, fun hnil => ?_⟩
      · rw [size, size]
        dsimp only
        omega
      · rcases Std.ExtTreeMap.mem_insert.1 hkey with heq | hkey
        · rw [compare_eq_iff_eq] at heq
          exact heq ▸ hft
        · exact h.feeTransfers key hkey
      · exact h.coinbase ft' (hlist ▸ List.mem_append_left _ hft')
      · have hnil : t.completedWorkRev = [] := hnil
        rw [hnil] at hft
        cases hft
  | cons uc rem =>
    have hsub : (uc :: rem).Sublist ucSeq := hcommands ▸ h.commands_sublist
    obtain ⟨fee, hfee⟩ := hs.fee_ok uc (hsub.subset (by simp))
    obtain ⟨fees, hfees⟩ := hs.exists_sumFees ((List.sublist_cons_self uc rem).trans hsub)
    have hok : ∃ r, Resources.discardUserCommand t = .ok r := by
      rw [Resources.discardUserCommand]
      split
      next hnil =>
        rw [hnil] at hcommands
        cases hcommands
      next uc' rem' hcons =>
        rw [hcons] at hcommands
        obtain ⟨rfl, rfl⟩ := List.cons.inj hcommands
        cases t.budget with
        | ok b =>
          rw [hfee]
          exact ⟨_, rfl⟩
        | error e =>
          obtain ⟨budget, hbudget⟩ := exists_rebudget (t := { t with
            commandsRev := rem'
            budget := .error e
            discarded := t.discarded.addUserCommand uc' }) hfees
          dsimp only
          exact ⟨_, by rw [hbudget, Exn.andThen_ok]⟩
    obtain ⟨r, hr⟩ := hok
    obtain ⟨budget', rfl, hsubtract, -⟩ := discardUserCommand_cons hcommands hr
    refine ⟨_, hr, ?_, ?_, h.works, h.space, h.amount, h.feeTransfers, h.coinbase, fun hnil => ?_⟩
    · rw [size, size, hcommands, List.length_cons]
      dsimp only
      omega
    · rw [h.commands, hcommands]
      simp [Discarded.addUserCommand]
    · obtain ⟨b, hb, hval⟩ := h.budget hnil
      obtain ⟨fee', hfee', hrest⟩ := hsubtract b hb
      rw [hcommands, List.map_cons, List.sum_cons, feeOf_of_ok hfee'] at hval
      cases hsub : Currency.sub b fee' with
      | none =>
        have := Currency.sub_eq_none.1 hsub
        omega
      | some d =>
        obtain ⟨hle, hd⟩ := Currency.sub_eq_some.1 hsub
        refine ⟨d, by rw [hrest, hsub, option], ?_⟩
        dsimp only
        omega

section Operations

variable [DecidableEq F]

/-- Discarding a work keeps what the loop relies on, when it is not the last
one or the budget was an error. -/
theorem Loop.discardLastWork (h : Loop c ucSeq cwSeq t) (hs : Sums ucSeq cwSeq)
    {w : TransactionSnarkWork F} {rem : List (TransactionSnarkWork F)} (hworks : t.completedWorkRev = w :: rem) :
    ∃ r, discardLastWork c t = .ok r ∧ r.1.completedWorkRev = rem ∧ r.1.commandsRev = t.commandsRev ∧
      r.1.coinbase.parts = t.coinbase.parts ∧ (rem ≠ [] ∨ t.budget.isOk = false → Loop c ucSeq cwSeq r.1) := by
  obtain ⟨amount, hamount⟩ := h.amount
  have hsum := h.sum_works_lt hs
  rw [hworks, List.map_cons, List.sum_cons] at hsum
  obtain ⟨fees, hfees⟩ := hs.exists_sumFees h.commands_sublist
  obtain ⟨newT, hnew⟩ := exists_reselectCoinbaseWork (c := c) (t := { t with
    completedWorkRev := rem
    discarded := t.discarded.addCompletedWork w }) hamount (by dsimp only; omega)
  have hre := reselectCoinbaseWork_eq_ok hnew
  have hcommands : newT.commandsRev = t.commandsRev := by rw [hre.eq]
  obtain ⟨budget, hbudget⟩ := exists_rebudget (t := newT) (hcommands.symm ▸ hfees)
  have hok : ∃ r, Resources.discardLastWork c t = .ok r := by
    rw [Resources.discardLastWork]
    split
    next => exact ⟨_, rfl⟩
    next w' rem' hcons =>
      rw [hcons] at hworks
      obtain ⟨rfl, rfl⟩ := List.cons.inj hworks
      rw [hnew, Exn.andThen_ok]
      cases t.budget with
      | ok b => exact ⟨_, rfl⟩
      | error e =>
        dsimp only
        rw [hbudget]
        exact ⟨_, rfl⟩
  obtain ⟨r, hr⟩ := hok
  obtain ⟨newT', budget', hre', hresult, -, herror⟩ := discardLastWork_cons hworks hr
  clear hre hcommands hbudget hnew
  have hparts : newT'.coinbase.parts = t.coinbase.parts := hre'.parts
  rw [hre'.eq] at hresult
  have hprovers := hre'.feeTransfers_provers
  refine ⟨r, hr, by rw [hresult], by rw [hresult], by rw [hresult]; exact hparts, fun hlast => ?_⟩
  · rw [hresult]
    have hspace : 1 ≤ t.maxSpace := h.space.resolve_right (by simp [hworks])
    refine ⟨h.commands, ?_, .inl hspace, h.amount, hprovers, hre'.coinbase_provers, fun hnil => ?_⟩
    · rw [h.works, hworks]
      simp [Discarded.addCompletedWork]
    · have hnil : rem = [] := hnil
      subst hnil
      have hempty : newT'.feeTransfers = ∅ :=
        Std.ExtTreeMap.eq_empty_iff_forall_not_mem.2 fun key hkey => by simpa using hprovers key hkey
      have hcommands' : newT'.commandsRev = t.commandsRev := by rw [hre'.eq]
      have herror := herror (hlast.resolve_left (absurd rfl))
      rw [rebudget_of_empty (hcommands'.symm ▸ hfees) hempty] at herror
      exact ⟨fees, (Except.ok.inj herror).symm, sumFees_eq_ok hfees⟩

/-! ## The loop -/

/-- With nothing but works, which take too much space, there is enough work
after discarding one. -/
theorem Loop.workedMore (h : Loop c ucSeq cwSeq t) (hs : Sums ucSeq cwSeq) (hcommands : t.commandsRev = [])
    (hcoinbase : t.coinbase.parts = 0) (hslots : slotsOccupied t ≠ 0) (hspace : spaceConstraintSatisfied t = false) :
    workedMore c t = .ok true := by
  have hle := h.slotsOccupied_le hcommands hcoinbase
  rw [spaceConstraintSatisfied, decide_eq_false_iff_not] at hspace
  cases hworks : t.completedWorkRev with
  | nil => exact absurd hworks (h.works_ne_nil hcommands hcoinbase hslots)
  | cons w rem =>
    have hmin : 1 ≤ t.maxSpace := h.space.resolve_right (by simp [hworks])
    rw [hworks, List.length_cons] at hle
    have hrem : 0 < rem.length := by omega
    obtain ⟨r, hr, hrest, hcommands', hparts, hloop⟩ := h.discardLastWork hs hworks
    have hle' := (hloop (.inl (List.length_pos_iff.1 hrem))).slotsOccupied_le (hcommands'.trans hcommands)
      (hparts.trans hcoinbase)
    rw [hrest] at hle'
    rw [Resources.workedMore, hr, Exn.andThen_ok, hrest]
    simp only [Except.ok.injEq, Bool.and_eq_true, decide_eq_true_iff]
    omega

/-- After a work has been discarded and there is still enough, one is left. -/
theorem discardLastWork_of_workedMore (hmore : workedMore c t = .ok true) :
    ∃ w rem, t.completedWorkRev = w :: rem ∧ rem ≠ [] := by
  obtain ⟨r, hr, hmore⟩ := Exn.andThen_eq_ok.1 hmore
  have hlength : 0 < r.1.completedWorkRev.length := by
    have := Except.ok.inj hmore
    simp only [Bool.and_eq_true, decide_eq_true_iff] at this
    exact this.1
  cases hworks : t.completedWorkRev with
  | nil =>
    rw [discardLastWork_nil hworks] at hr
    cases hr
    rw [hworks] at hlength
    cases hlength
  | cons w rem =>
    obtain ⟨newT, budget, hre, rfl, -⟩ := discardLastWork_cons hworks hr
    rw [hre.eq] at hlength
    exact ⟨w, rem, rfl, List.length_pos_iff.1 hlength⟩

/-- The constraints that the loop establishes. -/
structure ConstraintsSatisfied (t : T F Status) : Prop where
  work : workConstraintSatisfied t = true
  budget : budgetSufficient t = true
  space : spaceConstraintSatisfied t = true

theorem exists_workedMore (h : Loop c ucSeq cwSeq t) (hs : Sums ucSeq cwSeq) :
    ∃ more, workedMore c t = .ok more := by
  cases hworks : t.completedWorkRev with
  | nil => exact ⟨_, by rw [workedMore, discardLastWork_nil hworks, Exn.andThen_ok]⟩
  | cons w rem =>
    obtain ⟨r, hr, -⟩ := h.discardLastWork hs hworks
    exact ⟨_, by rw [workedMore, hr, Exn.andThen_ok]⟩

/-- An iteration ends the loop, or goes on with less to discard. -/
theorem Loop.step (h : Loop c ucSeq cwSeq t) (hs : Sums ucSeq cwSeq) :
    ((slotsOccupied t = 0 ∨ ConstraintsSatisfied t) ∧
      ∀ fuel, checkConstraintsAndUpdate c (fuel + 1) t = .ok (some t)) ∨
    ∃ t', Loop c ucSeq cwSeq t' ∧ size t' < size t ∧
      ∀ fuel, checkConstraintsAndUpdate c (fuel + 1) t = checkConstraintsAndUpdate c fuel t' := by
  -- Discarding a command goes on when there is one, or a coinbase.
  have discard_command : (t.commandsRev = [] → t.coinbase.parts = 0 → False) →
      (∀ fuel, checkConstraintsAndUpdate c (fuel + 1) t =
        (Resources.discardUserCommand t).andThen fun r => checkConstraintsAndUpdate c fuel r.1) →
      ∃ t', Loop c ucSeq cwSeq t' ∧ size t' < size t ∧
        ∀ fuel, checkConstraintsAndUpdate c (fuel + 1) t = checkConstraintsAndUpdate c fuel t' := by
    intro hmore hloop
    have hmore : t.commandsRev ≠ [] ∨ t.coinbase.parts ≠ 0 := by
      by_cases hcommands : t.commandsRev = []
      · exact .inr (hmore hcommands)
      · exact .inl hcommands
    obtain ⟨r, hr, hless, hkept⟩ := h.discardUserCommand hs hmore
    exact ⟨r.1, hkept, hless, fun fuel => by rw [hloop, hr, Exn.andThen_ok]⟩
  -- Discarding a work goes on when there is one and the loop's facts are kept.
  have discard_work : ∀ {w rem}, t.completedWorkRev = w :: rem → (rem ≠ [] ∨ t.budget.isOk = false) →
      (∀ fuel, checkConstraintsAndUpdate c (fuel + 1) t =
        (Resources.discardLastWork c t).andThen fun r => checkConstraintsAndUpdate c fuel r.1) →
      ∃ t', Loop c ucSeq cwSeq t' ∧ size t' < size t ∧
        ∀ fuel, checkConstraintsAndUpdate c (fuel + 1) t = checkConstraintsAndUpdate c fuel t' := by
    intro w rem hworks hlast hloop
    obtain ⟨r, hr, hrest, hcommands, hparts, hkept⟩ := h.discardLastWork hs hworks
    refine ⟨r.1, hkept hlast, ?_, fun fuel => by rw [hloop, hr, Exn.andThen_ok]⟩
    rw [size, size, hrest, hcommands, hparts, hworks, List.length_cons]
    omega
  by_cases hslots : slotsOccupied t = 0
  · exact .inl ⟨.inl hslots, fun fuel => by rw [checkConstraintsAndUpdate, if_pos hslots]⟩
  by_cases hwork : workConstraintSatisfied t = true
  · by_cases hbudget : budgetSufficient t = true
    · by_cases hspace : spaceConstraintSatisfied t = true
      · refine .inl ⟨.inr ⟨hwork, hbudget, hspace⟩, fun fuel => ?_⟩
        rw [checkConstraintsAndUpdate, if_neg hslots, if_pos hwork, if_pos hbudget, if_pos hspace]
      · obtain ⟨more, hmore⟩ := exists_workedMore h hs
        cases more with
        | true =>
          obtain ⟨w, rem, hworks, hrem⟩ := discardLastWork_of_workedMore hmore
          refine .inr (discard_work hworks (.inl hrem) fun fuel => ?_)
          rw [checkConstraintsAndUpdate, if_neg hslots, if_pos hwork, if_pos hbudget, if_neg hspace, hmore,
            Exn.andThen_ok, if_pos rfl]
        | false =>
          refine .inr (discard_command (fun hcommands hparts => ?_) fun fuel => ?_)
          · have := h.workedMore hs hcommands hparts hslots (Bool.eq_false_iff.2 hspace)
            rw [hmore] at this
            cases this
          · rw [checkConstraintsAndUpdate, if_neg hslots, if_pos hwork, if_pos hbudget, if_neg hspace, hmore,
              Exn.andThen_ok, if_neg Bool.false_ne_true]
    · have herror : t.budget.isOk = false := Bool.eq_false_iff.2 hbudget
      cases hworks : t.completedWorkRev with
      | nil =>
        obtain ⟨b, hb, -⟩ := h.budget hworks
        rw [hb] at herror
        cases herror
      | cons w rem =>
        refine .inr (discard_work hworks (.inr herror) fun fuel => ?_)
        rw [checkConstraintsAndUpdate, if_neg hslots, if_pos hwork, if_neg hbudget]
  · refine .inr (discard_command (fun hcommands hparts => hwork (h.enough_work hcommands hparts hslots)) fun fuel => ?_)
    rw [checkConstraintsAndUpdate, if_neg hslots, if_neg hwork]

/-- From any resources that the loop goes through it ends. -/
theorem Loop.terminates (hs : Sums ucSeq cwSeq) : ∀ n (t : T F Status), size t < n → Loop c ucSeq cwSeq t →
    ∃ fuel t', (∀ fuel' ≥ fuel, checkConstraintsAndUpdate c fuel' t = .ok (some t')) ∧
      (slotsOccupied t' = 0 ∨ ConstraintsSatisfied t') ∧ Loop c ucSeq cwSeq t'
  | 0, _, hn, _ => absurd hn (Nat.not_lt_zero _)
  | n + 1, t, hn, h => by
    have next : ∀ {fuel fuel' : Nat}, fuel + 1 ≤ fuel' → ∃ more, fuel' = more + 1 ∧ fuel ≤ more := by
      intro fuel fuel' hle
      exact ⟨fuel' - 1, by omega, by omega⟩
    rcases h.step hs with hdone | hstep
    · obtain ⟨hmet, hend⟩ := hdone
      refine ⟨1, t, fun fuel' hfuel => ?_, hmet, h⟩
      obtain ⟨more, rfl, -⟩ := next hfuel
      exact hend more
    · obtain ⟨t1, h1, hless, hloop⟩ := hstep
      obtain ⟨fuel, t', hend, hmet, h'⟩ := Loop.terminates hs n t1 (by omega) h1
      refine ⟨fuel + 1, t', fun fuel' hfuel => ?_, hmet, h'⟩
      obtain ⟨more, rfl, hmore⟩ := next hfuel
      rw [hloop]
      exact hend more hmore

/-! ## From the start -/

/-- What the loop relies on holds of the initial resources. -/
theorem Loop.init {slots jobCount : Int} {receiverPk : PublicKey}
    {addCoinbase superchargeCoinbase isCoinbaseReceiverNew : Bool} {t : T F Status}
    (h : init c ucSeq cwSeq slots jobCount receiverPk addCoinbase superchargeCoinbase isCoinbaseReceiverNew = .ok t)
    (hs : Sums ucSeq cwSeq) (hspace : 1 ≤ slots ∨ cwSeq = []) : Loop c ucSeq cwSeq t := by
  obtain ⟨r, hr, h⟩ := Exn.andThen_eq_ok.1 h
  obtain ⟨feeTransfers, hmap, h⟩ := Exn.andThen_eq_ok.1 h
  obtain ⟨revenue, hrevenue, h⟩ := Exn.andThen_eq_ok.1 h
  obtain ⟨cost, hcost, h⟩ := Exn.andThen_eq_ok.1 h
  obtain ⟨hamount, hlist, hsingles⟩ := initCoinbaseAndFeeTransfers_eq_ok hr
  cases h
  refine ⟨rfl, by simp, hspace.imp id List.reverse_eq_nil_iff.2, hamount, fun key hkey => ?_, fun ft hft => ?_,
    fun hnil => ?_⟩
  · obtain ⟨e, he, rfl⟩ := List.mem_map.1 ((FeeMap.ofAlistReduce_eq_ok hmap key).2.1 hkey)
    rw [hsingles] at he
    obtain ⟨w, hw, hprover⟩ := List.mem_map.1 (mem_singles he)
    exact List.mem_map.2 ⟨w, List.mem_reverse.2 (List.mem_of_mem_filter hw), hprover⟩
  · dsimp only at hft
    rw [hlist] at hft
    obtain ⟨w, hw, rfl⟩ := List.mem_map.1 hft
    exact List.mem_map.2 ⟨w, List.mem_reverse.2 (initTaken_subset _ _ _ _ (paid_subset _ hw)), rfl⟩
  · have hnil : cwSeq = [] := List.reverse_eq_nil_iff.1 hnil
    subst hnil
    have hnothing : r.2 = [] := hsingles
    rw [hnothing] at hcost
    cases hcost
    obtain ⟨fees, hfees⟩ := hs.commands
    obtain rfl := Except.ok.inj (hrevenue.symm.trans hfees)
    exact ⟨fees, feeDifference_zero fees, sumFees_eq_ok hfees⟩

/-- **The loop ends and loses nothing.** From the initial resources for
commands and works whose fees sum without overflow, with space for a slot, the
loop ends: no slot is occupied, or the constraints on work, budget and space
are met; and in the order of application, what is kept of the commands and of
the works comes first, and what is discarded is the rest. -/
theorem checkConstraintsAndUpdate_ends {ucSeq : List (Command Status)} {cwSeq : List (TransactionSnarkWork F)}
    {slots jobCount : Int} {receiverPk : PublicKey}
    {addCoinbase superchargeCoinbase isCoinbaseReceiverNew : Bool} {t : T F Status} {commandFees workFees : Fee}
    (h : init c ucSeq cwSeq slots jobCount receiverPk addCoinbase superchargeCoinbase isCoinbaseReceiverNew = .ok t)
    (hcommands : sumFees commandFee ucSeq = .ok (.ok commandFees))
    (hworks : sumFees (fun w => .ok w.fee) cwSeq = .ok (.ok workFees)) (hspace : 1 ≤ slots) :
    ∃ fuel t', (∀ fuel' ≥ fuel, checkConstraintsAndUpdate c fuel' t = .ok (some t')) ∧
      (slotsOccupied t' = 0 ∨ ConstraintsSatisfied t') ∧
      ucSeq.reverse = t'.commandsRev.reverse ++ t'.discarded.commandsRev.reverse ∧
      cwSeq = t'.completedWorkRev.reverse ++ t'.discarded.completedWork := by
  have hs : Sums ucSeq cwSeq := ⟨⟨commandFees, hcommands⟩, ⟨workFees, hworks⟩⟩
  obtain ⟨fuel, t', hend, hmet, hkept⟩ := Loop.terminates hs (size t + 1) t (Nat.lt_succ_self _) (.init h hs (.inl hspace))
  refine ⟨fuel, t', hend, hmet, ?_, hkept.works⟩
  rw [← List.reverse_append, ← hkept.commands]

end Operations

/-- One slot, one command and the works whose fees it does not pay. -/
theorem checkConstraintsAndUpdate_ends_sample :
    ∃ t fuel t', init Sample.constants [Sample.command 3 3] Sample.works 1 2 ⟨4, false⟩ false false false = .ok t ∧
      (∀ fuel' ≥ fuel, checkConstraintsAndUpdate Sample.constants fuel' t = .ok (some t')) ∧
      (slotsOccupied t' = 0 ∨ ConstraintsSatisfied t') ∧
      [Sample.command 3 3].reverse = t'.commandsRev.reverse ++ t'.discarded.commandsRev.reverse ∧
      Sample.works = t'.completedWorkRev.reverse ++ t'.discarded.completedWork := by
  have h : ∃ t, init Sample.constants [Sample.command 3 3] Sample.works 1 2 ⟨4, false⟩ false false false = .ok t :=
    ⟨_, rfl⟩
  obtain ⟨t, ht⟩ := h
  obtain ⟨fuel, t', hend⟩ := checkConstraintsAndUpdate_ends ht rfl rfl (by decide)
  exact ⟨t, fuel, t', ht, hend⟩

end Mina.StagedLedger.Resources
