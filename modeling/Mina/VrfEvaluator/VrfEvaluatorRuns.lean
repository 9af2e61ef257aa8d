/-
Runs of the VRF evaluator. What `slots_won_so_far` returned since the epoch
was set, with what is still in the queue, is the list of the slots won up to
where the evaluation stands (`Progress`).

`current_slot` is `None` after the evaluation and before its first bind as
well, so a call in between answers `Completed` too early
(`completed_too_early`). And an evaluation that was replaced goes on until
the signal reaches the bind where it stands. A run without these keeps the
rest (`slots_won_right`).
-/
import Mina.VrfEvaluator.VrfEvaluator

namespace Mina.VrfEvaluator

open Consensus (Length ConsensusConstants)

variable {K R D : Type} (constants : ConsensusConstants) (check : D → K → Length → Option R)

/-- The first slot after the epoch. -/
def epochEnd (e : EpochData D) : Nat := (e.epoch.val + 1) * constants.slotsPerEpoch.val

/-- The start slot is a slot of the epoch. -/
def InEpoch (e : EpochData D) : Prop :=
  e.epoch.val * constants.slotsPerEpoch.val ≤ e.globalSlot.val ∧ e.globalSlot.val < epochEnd constants e

/-- What the epochs that are set are promised to be. -/
def Allowed (o : Observed K R D) : Event K D → Prop
  | .setNewEpochState e => InEpoch constants e ∧ ∀ current, o.worker.epochData.2 = some current → current.epoch ≤ e.epoch
  | _ => True

/-- `slots_won_so_far` is not called before the first step of the current
evaluation, and the signal reaches a replaced evaluation before that goes on.
The epoch has a successor. -/
def Keeps (o : Observed K R D) : Event K D → Prop
  | .setNewEpochState e => e.epoch.val + 1 < 2 ^ 32
  | .slotsWonSoFar => ∀ older ev, o.worker.evaluations = older ++ [ev] → ev.place ≠ .start
  | .resume i => ∀ ev, o.worker.evaluations[i]? = some ev → i + 1 = o.worker.evaluations.length ∨ ev.signalled = true
  | _ => True

/-- What the calls return for an evaluation, the last of `older ++ [ev]`. -/
structure Reports (o : Observed K R D) (older : List (Evaluation K R D)) (ev : Evaluation K R D) : Prop where
  /-- They are slots of this evaluation. -/
  own : ∀ w ∈ o.returned, w.1 = older.length
  increasing : (o.returned.map fun w => w.2.globalSlot.val).Pairwise (· < ·)
  won : ∀ w ∈ o.returned, ev.epochData.globalSlot ≤ w.2.globalSlot ∧ w.2.globalSlot.val < epochEnd constants ev.epochData ∧
    w.2.producer ∈ ev.keypairs ∧ check ev.epochData.rest w.2.producer w.2.globalSlot = some w.2.result
  completed : o.completed = true → ∀ slot : Length, ev.epochData.globalSlot ≤ slot → slot.val < epochEnd constants ev.epochData →
    (∃ key ∈ ev.keypairs, (check ev.epochData.rest key slot).isSome) → ∃ w ∈ o.returned, w.2.globalSlot = slot

def Right (o : Observed K R D) : Prop :=
  ∀ older ev, o.worker.evaluations = older ++ [ev] → Reports constants check o older ev

/-- One step of a run whose events keep to `P`. -/
def Step (P : Observed K R D → Event K D → Prop) (o o' : Observed K R D) : Prop :=
  ∃ event, Allowed constants o event ∧ P o event ∧ step constants check o event = o'

def Run (P : Observed K R D → Event K D → Prop) : Observed K R D → Observed K R D → Prop :=
  Relation.ReflTransGen (Step constants check P)

/-! ## The slots that are won -/

section Winners

variable (e : EpochData D) (keypairs : List K)

/-- What the first key that wins a slot wins. -/
def wonAt (slot : Length) : List K → Option (SlotWon K R)
  | [] => none
  | key :: keypairs =>
    match check e.rest key slot with
    | none => wonAt slot keypairs
    | some result => some (slotWon e key slot (slot - e.globalSlot) result)

/-- The slots won before the slot `m`. -/
def winners (m : Nat) : List (SlotWon K R) :=
  (List.range' e.globalSlot.val (m - e.globalSlot.val)).filterMap fun n => wonAt check e (Length.ofInt n) keypairs

variable {check e keypairs}

theorem wonAt_some {slot : Length} {w : SlotWon K R} : ∀ {keypairs : List K}, wonAt check e slot keypairs = some w →
    w.globalSlot = slot ∧ w.producer ∈ keypairs ∧ check e.rest w.producer slot = some w.result
  | [], h => by cases h
  | key :: keypairs, h => by
    rw [wonAt] at h
    split at h
    next =>
      obtain ⟨hslot, hmem, hcheck⟩ := wonAt_some h
      exact ⟨hslot, List.mem_cons_of_mem _ hmem, hcheck⟩
    next result hresult =>
      cases h
      exact ⟨rfl, List.mem_cons_self, hresult⟩

theorem wonAt_isSome {slot : Length} {key : K} : ∀ {keypairs : List K}, key ∈ keypairs →
    (check e.rest key slot).isSome = true → ∃ w, wonAt check e slot keypairs = some w
  | k :: keypairs, hmem, h => by
    rw [wonAt]
    split
    next hnone =>
      rcases List.mem_cons.1 hmem with rfl | hmem
      · rw [hnone] at h
        cases h
      · exact wonAt_isSome hmem h
    next result _ => exact ⟨_, rfl⟩

theorem winners_start : winners check e keypairs e.globalSlot.val = [] := by
  rw [winners, Nat.sub_self]
  rfl

theorem winners_succ {m : Nat} (hm : e.globalSlot.val ≤ m) :
    winners check e keypairs (m + 1) = winners check e keypairs m ++ (wonAt check e (Length.ofInt m) keypairs).toList := by
  have hsub : m + 1 - e.globalSlot.val = (m - e.globalSlot.val) + 1 := by omega
  rw [winners, winners, hsub, List.range'_1_concat, List.filterMap_append, Nat.add_sub_cancel' hm]
  cases hwon : wonAt check e (Length.ofInt m) keypairs <;> simp [hwon]

theorem winners_nil (m : Nat) : winners check e [] m = [] := by
  rw [winners, List.filterMap_eq_nil_iff]
  intro n _
  rfl

theorem mem_winners {m : Nat} (hm : m ≤ 2 ^ 32) {w : SlotWon K R} : w ∈ winners check e keypairs m ↔
    ∃ slot : Length, e.globalSlot ≤ slot ∧ slot.val < m ∧ wonAt check e slot keypairs = some w := by
  rw [winners, List.mem_filterMap]
  constructor
  · intro h
    obtain ⟨n, hn, hw⟩ := h
    obtain ⟨hle, hlt⟩ := List.mem_range'_1.1 hn
    have hval : (Length.ofInt n).val = n := Length.ofInt_val (by omega)
    exact ⟨Length.ofInt n, Fin.le_def.2 (by omega), by omega, hw⟩
  · intro h
    obtain ⟨slot, hle, hlt, hw⟩ := h
    have hle := Fin.le_def.1 hle
    refine ⟨slot.val, List.mem_range'_1.2 ⟨hle, by omega⟩, ?_⟩
    rw [show Length.ofInt slot.val = slot from Fin.ext (Length.ofInt_val slot.isLt)]
    exact hw

theorem winners_increasing (m : Nat) (hm : m ≤ 2 ^ 32) :
    ((winners check e keypairs m).map fun w => w.globalSlot.val).Pairwise (· < ·) := by
  rw [winners, List.pairwise_map, List.pairwise_filterMap]
  refine List.Pairwise.imp_of_mem ?_ (List.pairwise_lt_range' (s := e.globalSlot.val))
  intro a b ha hb hlt w hw w' hw'
  obtain ⟨-, hb⟩ := List.mem_range'_1.1 hb
  rw [(wonAt_some hw).1, (wonAt_some hw').1, Length.ofInt_val (by omega), Length.ofInt_val (by omega)]
  exact hlt

end Winners

/-! ## The current evaluation -/

/-- One slot after the last one that is evaluated. -/
def lastSlot (e : EpochData D) : Nat := min (epochEnd constants e) (2 ^ 32)

/-- An evaluation evaluates a slot of its epoch. -/
structure Evaluating (ev : Evaluation K R D) (time : ConsensusTime) : Prop where
  slotsPerEpoch : time.slotsPerEpoch = constants.slotsPerEpoch
  start : ev.epochData.globalSlot ≤ time.slotNumber
  bound : time.slotNumber.val < epochEnd constants ev.epochData

/-- Where the current evaluation stands when `out` has been put in the queue
so far. Without keys nothing is won, and the slots may wrap around. -/
inductive Progress (ev : Evaluation K R D) (out : List (SlotWon K R)) (currentSlot : Option Length) :
    At K R → Prop
  | start : out = [] → Progress ev out currentSlot .start
  | idle (time : ConsensusTime) : ev.keypairs = [] → out = [] → currentSlot ≠ none →
      Progress ev out currentSlot (.checking time [])
  | checking (time : ConsensusTime) (keypairs : List K) : Evaluating constants ev time →
      out = winners check ev.epochData ev.keypairs time.slotNumber.val →
      wonAt check ev.epochData time.slotNumber ev.keypairs = wonAt check ev.epochData time.slotNumber keypairs →
      currentSlot ≠ none → Progress ev out currentSlot (.checking time keypairs)
  | won (time : ConsensusTime) (w : SlotWon K R) : Evaluating constants ev time →
      out = winners check ev.epochData ev.keypairs time.slotNumber.val →
      wonAt check ev.epochData time.slotNumber ev.keypairs = some w →
      currentSlot ≠ none → Progress ev out currentSlot (.won time w)
  | returned : out = winners check ev.epochData ev.keypairs (lastSlot constants ev.epochData) →
      Progress ev out currentSlot .returned
  | raised : out = winners check ev.epochData ev.keypairs (lastSlot constants ev.epochData) →
      currentSlot ≠ none → Progress ev out currentSlot .raised

variable {constants check}

/-- The end of the epoch is where the epoch of the slot is greater. -/
theorem epoch_lt_iff {e : EpochData D} {time : ConsensusTime} (hspe : time.slotsPerEpoch = constants.slotsPerEpoch)
    (hpos : 0 < constants.slotsPerEpoch.val) :
    e.epoch < time.epoch ↔ epochEnd constants e ≤ time.slotNumber.val := by
  have hval : time.epoch.val = time.slotNumber.val / constants.slotsPerEpoch.val := by
    rw [Consensus.GlobalSlot.epoch, hspe, Fin.div_val]
  rw [Fin.lt_def, hval, epochEnd, ← Nat.succ_le_iff, Nat.le_div_iff_mul_le hpos]

theorem InEpoch.pos {e : EpochData D} (h : InEpoch constants e) : 0 < constants.slotsPerEpoch.val := by
  have hlt := h.2
  unfold epochEnd at hlt
  by_contra hzero
  rw [Nat.eq_zero_of_not_pos hzero] at hlt
  omega

/-- Slots that wrap around are before the start. -/
theorem InEpoch.start_pos {e : EpochData D} (h : InEpoch constants e) (hend : 2 ^ 32 ≤ epochEnd constants e) :
    0 < e.globalSlot.val := by
  have hspe := constants.slotsPerEpoch.isLt
  have hle := h.1
  have hsucc : epochEnd constants e = e.epoch.val * constants.slotsPerEpoch.val + constants.slotsPerEpoch.val :=
    Nat.succ_mul _ _
  omega

theorem goTo_last {t : WorkerState K R D} {older : List (Evaluation K R D)} {ev : Evaluation K R D}
    (hlast : t.evaluations = older ++ [ev]) (place : At K R) :
    goTo t older.length ev place = { t with evaluations := older ++ [{ ev with place }] } := by
  rw [goTo, hlast, List.set_append_right _ _ le_rfl, Nat.sub_self]
  rfl

theorem go_checking {e : EpochData D} {time : ConsensusTime} (h : e.globalSlot ≤ time.slotNumber) (keypairs : List K) :
    go (R := R) e time keypairs = .checking time keypairs := by
  cases keypairs with
  | nil => rfl
  | cons key keypairs => rw [go, sub, if_neg (Fin.not_lt.2 h)]

section Find

variable {t : WorkerState K R D} {older : List (Evaluation K R D)} {ev : Evaluation K R D}
  (hin : InEpoch constants ev.epochData) (hlast : t.evaluations = older ++ [ev]) {out : List (SlotWon K R)}
  {time : ConsensusTime} (hspe : time.slotsPerEpoch = constants.slotsPerEpoch)
include hin hlast hspe

/-- The evaluation goes on with the slot `m`, or is over. -/
theorem progress_find (hkeys : ev.keypairs ≠ []) {m : Nat} (hm : time.slotNumber = Length.ofInt m)
    (hstart : ev.epochData.globalSlot.val ≤ m) (hend : m ≤ lastSlot constants ev.epochData)
    (hout : out = winners check ev.epochData ev.keypairs m) :
    ∃ currentSlot place, findWinningSlot t older.length ev time = { t with
        currentSlot, evaluations := older ++ [{ ev with place }] } ∧
      Progress constants check { ev with place } out currentSlot place := by
  have hiff := epoch_lt_iff (e := ev.epochData) hspe hin.pos
  unfold findWinningSlot
  dsimp only
  by_cases hlt : m < 2 ^ 32
  · have hval : time.slotNumber.val = m := by rw [hm, Length.ofInt_val hlt]
    rw [hval] at hiff
    by_cases hend' : m < epochEnd constants ev.epochData
    · rw [if_neg fun h => absurd (hiff.1 h) (Nat.not_le.2 hend')]
      have hle : ev.epochData.globalSlot ≤ time.slotNumber := Fin.le_def.2 (hval ▸ hstart)
      rw [go_checking hle, goTo_last (by exact hlast)]
      refine ⟨some time.slotNumber, _, rfl, .checking time _ ⟨hspe, hle, hval ▸ hend'⟩ ?_ rfl ?_⟩
      · rw [hval]
        exact hout
      · exact Option.some_ne_none _
    · rw [if_pos (hiff.2 (Nat.not_lt.1 hend')), goTo_last (by exact hlast)]
      have hm' : m = lastSlot constants ev.epochData := by
        unfold lastSlot at hend ⊢
        omega
      exact ⟨none, _, rfl, .returned (hm' ▸ hout)⟩
  · -- the slots wrap around to one before the start
    have hm' : m = 2 ^ 32 := by
      unfold lastSlot at hend
      omega
    have hwrap : 2 ^ 32 ≤ epochEnd constants ev.epochData := by
      unfold lastSlot at hend
      omega
    have hzero : time.slotNumber.val = 0 := by
      rw [hm, hm']
      rfl
    have hpos := hin.start_pos hwrap
    rw [hzero] at hiff
    rw [if_neg fun h => absurd (hiff.1 h) (by omega)]
    obtain ⟨key, keypairs, hcons⟩ := List.exists_cons_of_ne_nil hkeys
    have hgo : go (R := R) ev.epochData time ev.keypairs = .raised := by
      rw [hcons, go, sub, if_pos (Fin.lt_def.2 (by omega))]
    rw [hgo, goTo_last (by exact hlast)]
    have hlastSlot : m = lastSlot constants ev.epochData := by
      unfold lastSlot
      omega
    exact ⟨some time.slotNumber, _, rfl, .raised (hlastSlot ▸ hout) (Option.some_ne_none _)⟩

omit hin hspe in
/-- Without keys the evaluation goes through the slots. -/
theorem progress_idle (hkeys : ev.keypairs = []) (hout : out = []) :
    ∃ currentSlot place, findWinningSlot t older.length ev time = { t with
        currentSlot, evaluations := older ++ [{ ev with place }] } ∧
      Progress constants check { ev with place } out currentSlot place := by
  unfold findWinningSlot
  dsimp only
  split
  next =>
    rw [goTo_last (by exact hlast)]
    refine ⟨none, _, rfl, .returned ?_⟩
    change out = winners check ev.epochData ev.keypairs _
    rw [hkeys, winners_nil, hout]
  next =>
    have hgo : go (R := R) ev.epochData time ev.keypairs = .checking time [] := by
      rw [hkeys]
      rfl
    rw [hgo, goTo_last (by exact hlast)]
    exact ⟨some time.slotNumber, _, rfl, .idle time hkeys hout (Option.some_ne_none _)⟩

end Find

section Resume

variable {t : WorkerState K R D} {older : List (Evaluation K R D)} {ev : Evaluation K R D}
  (hin : InEpoch constants ev.epochData) (hlast : t.evaluations = older ++ [ev]) {out : List (SlotWon K R)}
include hin hlast

/-- The evaluation goes on with the slot after one that it evaluated. -/
theorem progress_succ {time : ConsensusTime} (hevaluating : Evaluating constants ev time)
    (hout : out = winners check ev.epochData ev.keypairs (time.slotNumber.val + 1)) :
    ∃ currentSlot place, findWinningSlot t older.length ev (succ time) = { t with
        currentSlot, evaluations := older ++ [{ ev with place }] } ∧
      Progress constants check { ev with place } out currentSlot place := by
  by_cases hkeys : ev.keypairs = []
  · refine progress_idle hlast hkeys ?_
    rw [hout, hkeys, winners_nil]
  · have hstart := Fin.le_def.1 hevaluating.start
    have hbound := hevaluating.bound
    have hlt := time.slotNumber.isLt
    refine progress_find hin hlast hevaluating.slotsPerEpoch hkeys ?_ ?_ ?_ hout
    · exact Fin.ext (Fin.val_add time.slotNumber 1)
    · omega
    · unfold lastSlot
      omega

/-- What an evaluation does in one step. -/
theorem progress_resume (hprogress : Progress constants check ev out t.currentSlot ev.place) :
    ∃ currentSlot place new, resume constants check t older.length ev = { t with
        slotsWon := t.slotsWon ++ new.map fun w => (older.length, w)
        currentSlot, evaluations := older ++ [{ ev with place }] } ∧
      Progress constants check { ev with place } (out ++ new) currentSlot place := by
  have hstay : ∀ place, ev.place = place → t = { t with evaluations := older ++ [{ ev with place }] } := by
    intro place hplace
    cases hplace
    rw [← hlast]
  generalize hplace : ev.place = place at hprogress
  have hresume : ∀ {t' : WorkerState K R D},
      (∃ currentSlot place, t' = { t with currentSlot, evaluations := older ++ [{ ev with place }] } ∧
        Progress constants check { ev with place } out currentSlot place) →
      ∃ currentSlot place new, t' = { t with
        slotsWon := t.slotsWon ++ new.map fun w => (older.length, w)
        currentSlot, evaluations := older ++ [{ ev with place }] } ∧
      Progress constants check { ev with place } (out ++ new) currentSlot place := by
    intro t' h
    obtain ⟨currentSlot, place, rfl, hp⟩ := h
    refine ⟨currentSlot, place, [], ?_, ?_⟩
    · rw [List.map_nil, List.append_nil]
    · rw [List.append_nil]
      exact hp
  unfold resume
  cases hprogress with
  | start hout =>
    rw [hplace]
    apply hresume
    by_cases hkeys : ev.keypairs = []
    · exact progress_idle hlast hkeys hout
    · have hlt := ev.epochData.globalSlot.isLt
      have hbound := hin.2
      refine progress_find hin hlast rfl hkeys (m := ev.epochData.globalSlot.val) ?_ le_rfl ?_ ?_
      · exact Fin.ext (Length.ofInt_val hlt).symm
      · unfold lastSlot
        omega
      · rw [hout, winners_start]
  | idle time hkeys hout hcurrent =>
    rw [hplace]
    exact hresume (progress_idle hlast hkeys hout)
  | checking time keypairs hevaluating hout hwon hcurrent =>
    rw [hplace]
    cases keypairs with
    | nil =>
      refine hresume (progress_succ hin hlast hevaluating ?_)
      rw [winners_succ (Fin.le_def.1 hevaluating.start),
        show Length.ofInt time.slotNumber.val = time.slotNumber from Fin.ext (Length.ofInt_val time.slotNumber.isLt),
        hwon]
      simpa [wonAt] using hout
    | cons key keypairs =>
      dsimp only
      rw [wonAt] at hwon
      split
      next hcheck =>
        rw [hcheck] at hwon
        apply hresume
        rw [go_checking hevaluating.start, goTo_last hlast]
        exact ⟨t.currentSlot, _, rfl, .checking time keypairs ⟨hevaluating.1, hevaluating.2, hevaluating.3⟩ hout hwon hcurrent⟩
      next result hcheck =>
        rw [hcheck] at hwon
        apply hresume
        rw [goTo_last hlast]
        refine ⟨t.currentSlot, _, rfl, .won time _ ⟨hevaluating.1, hevaluating.2, hevaluating.3⟩ hout ?_ hcurrent⟩
        rw [sub, if_neg (Fin.not_lt.2 hevaluating.start)]
        exact hwon
  | won time w hevaluating hout hwon hcurrent =>
    rw [hplace]
    have hnext : out ++ [w] = winners check ev.epochData ev.keypairs (time.slotNumber.val + 1) := by
      rw [winners_succ (Fin.le_def.1 hevaluating.start),
        show Length.ofInt time.slotNumber.val = time.slotNumber from Fin.ext (Length.ofInt_val time.slotNumber.isLt),
        hwon, ← hout]
      rfl
    obtain ⟨currentSlot, place, hfind, hp⟩ :=
      progress_succ (t := { t with slotsWon := t.slotsWon ++ [(older.length, w)] }) hin hlast hevaluating hnext
    exact ⟨currentSlot, place, [w], hfind, hp⟩
  | returned hout =>
    rw [hplace]
    exact hresume ⟨t.currentSlot, _, hstay _ hplace, .returned hout⟩
  | raised hout hcurrent =>
    rw [hplace]
    exact hresume ⟨t.currentSlot, _, hstay _ hplace, .raised hout hcurrent⟩

end Resume

/-! ## The invariant -/

variable (constants check)

/-- The slots that were put in the queue since the epoch was set. -/
def Observed.out (o : Observed K R D) : List (SlotWon K R) := (o.returned ++ o.worker.slotsWon).map Prod.snd

/-- What holds while `ev` is the current evaluation. -/
structure Current (o : Observed K R D) (older : List (Evaluation K R D)) (ev : Evaluation K R D) : Prop where
  last : o.worker.evaluations = older ++ [ev]
  epochData : o.worker.epochData = (ev.interrupt, some ev.epochData)
  inEpoch : InEpoch constants ev.epochData
  progress : Progress constants check ev o.out o.worker.currentSlot ev.place
  own : ∀ w ∈ o.returned ++ o.worker.slotsWon, w.1 = older.length
  completed : o.completed = true → ev.place = .returned ∧ o.worker.slotsWon = []

/-- The ivar of the current evaluation is not filled. -/
structure Ivars (t : WorkerState K R D) : Prop where
  bound : ∀ ivar ∈ t.filled, ivar < t.ivars
  current : t.epochData.1 < t.ivars
  fresh : t.epochData.1 ∉ t.filled

structure Inv (o : Observed K R D) : Prop where
  ivars : Ivars o.worker
  unset : o.worker.evaluations = [] → o.worker.epochData.2 = none
  current : ∀ older ev, o.worker.evaluations = older ++ [ev] → Current constants check o older ev

variable {constants check}

theorem inv_start : Inv constants check (start : Observed K R D) := by
  refine ⟨⟨?_, ?_, ?_⟩, fun _ => rfl, ?_⟩
  · intro ivar hmem
    cases hmem
  · exact Nat.zero_lt_one
  · exact List.not_mem_nil
  · intro older ev h
    exact absurd h.symm (by simp [start, create])

theorem Progress.winners {ev : Evaluation K R D} {out : List (SlotWon K R)} {currentSlot : Option Length}
    {place : At K R} (h : Progress constants check ev out currentSlot place) (hin : InEpoch constants ev.epochData) :
    ∃ m, m ≤ lastSlot constants ev.epochData ∧ out = winners check ev.epochData ev.keypairs m := by
  have hmin : ∀ {slot : Length}, slot.val < epochEnd constants ev.epochData →
      slot.val ≤ lastSlot constants ev.epochData := by
    intro slot hlt
    have hbound := slot.isLt
    unfold lastSlot
    omega
  cases h with
  | start hout => exact ⟨_, hmin hin.2, by rw [hout, winners_start]⟩
  | idle time hkeys hout => exact ⟨0, Nat.zero_le _, by rw [hout, hkeys, winners_nil]⟩
  | checking time keypairs hevaluating hout => exact ⟨_, hmin hevaluating.bound, hout⟩
  | won time w hevaluating hout => exact ⟨_, hmin hevaluating.bound, hout⟩
  | returned hout => exact ⟨_, le_rfl, hout⟩
  | raised hout => exact ⟨_, le_rfl, hout⟩

theorem Inv.right {o : Observed K R D} (h : Inv constants check o) : Right constants check o := by
  intro older ev hlast
  obtain ⟨-, -, hin, hprogress, hown, hcompleted⟩ := h.current older ev hlast
  obtain ⟨m, hm, hout⟩ := hprogress.winners hin
  have hlast32 : lastSlot constants ev.epochData ≤ 2 ^ 32 := Nat.min_le_right _ _
  have hend : lastSlot constants ev.epochData ≤ epochEnd constants ev.epochData := Nat.min_le_left _ _
  have happend : o.returned.map Prod.snd ++ o.worker.slotsWon.map Prod.snd = winners check ev.epochData ev.keypairs m := by
    rw [← hout, Observed.out, List.map_append]
  refine ⟨fun w hw => hown w (List.mem_append_left _ hw), ?_, ?_, ?_⟩
  · have hincreasing : ((winners check ev.epochData ev.keypairs m).map fun w => w.globalSlot.val).Pairwise (· < ·) :=
      winners_increasing m (by omega)
    rw [← happend, List.map_append, List.map_map] at hincreasing
    exact (List.pairwise_append.1 hincreasing).1
  · intro w hw
    have hmem : w.2 ∈ winners check ev.epochData ev.keypairs m := by
      rw [← happend]
      exact List.mem_append_left _ (List.mem_map_of_mem hw)
    obtain ⟨slot, hstart, hlt, hwon⟩ := (mem_winners (by omega)).1 hmem
    obtain ⟨rfl, hproducer, hcheck⟩ := wonAt_some hwon
    exact ⟨hstart, by omega, hproducer, hcheck⟩
  · intro hdone slot hstart hlt hkey
    obtain ⟨hplace, hempty⟩ := hcompleted hdone
    obtain ⟨key, hkey, hwins⟩ := hkey
    obtain ⟨w, hw⟩ := wonAt_isSome hkey hwins
    have hall : o.out = winners check ev.epochData ev.keypairs (lastSlot constants ev.epochData) := by
      rw [hplace] at hprogress
      cases hprogress with
      | returned hout => exact hout
    have hmem : w ∈ o.out := by
      have hbound := slot.isLt
      rw [hall, mem_winners hlast32]
      refine ⟨slot, hstart, ?_, hw⟩
      unfold lastSlot
      omega
    rw [Observed.out, hempty, List.append_nil, List.mem_map] at hmem
    obtain ⟨w', hw', rfl⟩ := hmem
    exact ⟨w', hw', (wonAt_some hw).1⟩

/-! ## One step -/

section Steps

variable {o : Observed K R D} (h : Inv constants check o)
include h

theorem Inv.setNewEpochState {e : EpochData D} (hallowed : Allowed constants o (.setNewEpochState e))
    (hkeeps : Keeps o (.setNewEpochState e)) : Inv constants check (step constants check o (.setNewEpochState e)) := by
  obtain ⟨hin, hle⟩ := hallowed
  have hupdate : VrfEvaluator.setNewEpochState o.worker e = update o.worker e := by
    unfold VrfEvaluator.setNewEpochState
    split
    next => rfl
    next current hcurrent =>
      have hle := Fin.le_def.1 (hle current hcurrent)
      rw [if_pos]
      rw [Fin.lt_def, Length.succ_val hkeeps]
      omega
  rw [step, hupdate]
  have hfilled : ∀ ivar, ivar ∈ fillIfEmpty o.worker.filled o.worker.epochData.1 → ivar < o.worker.ivars := by
    intro ivar hmem
    unfold fillIfEmpty at hmem
    split at hmem
    next => exact h.ivars.bound ivar hmem
    next =>
      rcases List.mem_cons.1 hmem with rfl | hmem
      · exact h.ivars.current
      · exact h.ivars.bound ivar hmem
  refine ⟨⟨fun ivar hmem => Nat.lt_succ_of_lt (hfilled ivar hmem), Nat.lt_succ_self _, fun hmem => ?_⟩, fun hnil => ?_, ?_⟩
  · exact Nat.lt_irrefl _ (hfilled _ hmem)
  · exact absurd hnil (by simp [update, evaluate])
  · intro older ev hlast
    obtain ⟨rfl, rfl⟩ := List.append_singleton_inj.1 hlast
    refine ⟨rfl, rfl, hin, .start rfl, ?_, fun hc => (by cases hc)⟩
    intro w hw
    cases hw

theorem Inv.slotsWonSoFar (hkeeps : Keeps o (.slotsWonSoFar : Event K D)) :
    Inv constants check (step constants check o .slotsWonSoFar) := by
  refine ⟨⟨h.ivars.bound, h.ivars.current, h.ivars.fresh⟩, h.unset, fun older ev hlast => ?_⟩
  obtain ⟨-, hdata, hin, hprogress, hown, hcompleted⟩ := h.current older ev hlast
  refine ⟨hlast, hdata, hin, ?_, ?_, fun hdone => ⟨?_, rfl⟩⟩
  · have hout : (step constants check o .slotsWonSoFar).out = o.out := by
      simp only [Observed.out, step, VrfEvaluator.slotsWonSoFar, List.append_nil]
    rw [hout]
    exact hprogress
  · intro w hw
    simp only [step, VrfEvaluator.slotsWonSoFar, List.append_nil] at hw
    exact hown w hw
  · simp only [step, VrfEvaluator.slotsWonSoFar, Bool.or_eq_true] at hdone
    rcases hdone with hdone | hdone
    · exact (hcompleted hdone).1
    · -- `current_slot` is `None` only at the first bind and at the end
      have hnone : o.worker.currentSlot = none := by
        cases hslot : o.worker.currentSlot with
        | none => rfl
        | some slot =>
          rw [hslot] at hdone
          cases hdone
      rw [hnone] at hprogress
      have hstart := hkeeps older ev hlast
      generalize ev.place = place at hprogress hstart
      cases hprogress with
      | start => exact absurd rfl hstart
      | idle _ _ _ hcurrent => exact absurd rfl hcurrent
      | checking _ _ _ _ _ hcurrent => exact absurd rfl hcurrent
      | won _ _ _ _ _ hcurrent => exact absurd rfl hcurrent
      | returned => rfl
      | raised _ hcurrent => exact absurd rfl hcurrent

theorem Inv.updateBlockProducerKeys (keypairs : List K) :
    Inv constants check (step constants check o (.updateBlockProducerKeys keypairs)) := by
  refine ⟨⟨h.ivars.bound, h.ivars.current, h.ivars.fresh⟩, h.unset, fun older ev hlast => ?_⟩
  obtain ⟨-, hdata, hin, hprogress, hown, hcompleted⟩ := h.current older ev hlast
  exact ⟨hlast, hdata, hin, hprogress, hown, hcompleted⟩

theorem Inv.resume {i : Nat} (hkeeps : Keeps o (.resume i : Event K D)) :
    Inv constants check (step constants check o (.resume i)) := by
  rw [step]
  split
  next ev hev =>
    split
    next => exact h
    next hsignal =>
      have hi := (hkeeps ev hev).resolve_right hsignal
      have hsplit : o.worker.evaluations = o.worker.evaluations.take i ++ [ev] := by
        have hlt := (List.getElem?_eq_some_iff.1 hev).1
        have hget := (List.getElem?_eq_some_iff.1 hev).2
        rw [← hget, List.take_append_getElem hlt, hi, List.take_length]
      obtain ⟨-, hdata, hin, hprogress, hown, hcompleted⟩ := h.current _ ev hsplit
      have hlen : (o.worker.evaluations.take i).length = i := by
        rw [List.length_take]
        omega
      generalize o.worker.evaluations.take i = older at hsplit hown hlen
      subst hlen
      by_cases hdone : o.completed = true
      · have hstay : VrfEvaluator.resume constants check o.worker older.length ev = o.worker := by
          rw [VrfEvaluator.resume, (hcompleted hdone).1]
        rw [hstay]
        exact h
      · obtain ⟨currentSlot, place, new, hresume, hp⟩ := progress_resume hin hsplit hprogress
        rw [hresume]
        refine ⟨⟨h.ivars.bound, h.ivars.current, h.ivars.fresh⟩, fun hnil => ?_, fun older' ev' hlast => ?_⟩
        · exact absurd hnil (by simp)
        · obtain ⟨rfl, rfl⟩ := List.append_singleton_inj.1 hlast
          refine ⟨rfl, hdata, hin, ?_, ?_, fun hdone' => absurd hdone' hdone⟩
          · have hout : (o.returned ++ (o.worker.slotsWon ++ new.map fun w => (older.length, w))).map Prod.snd =
                o.out ++ new := by
              rw [Observed.out, ← List.append_assoc, List.map_append, List.map_map]
              exact congrArg _ (List.map_id' new)
            rw [Observed.out, hout]
            exact hp
          · intro w hw
            rw [← List.append_assoc, List.mem_append] at hw
            rcases hw with hw | hw
            · exact hown w hw
            · obtain ⟨v, -, rfl⟩ := List.mem_map.1 hw
              rfl
  next => exact h

theorem Inv.signal (i : Nat) : Inv constants check (step constants check o (.signal i)) := by
  have hfresh := h.ivars.fresh
  rw [step]
  split
  next ev hev =>
    split
    next hfilled =>
      refine ⟨⟨h.ivars.bound, h.ivars.current, h.ivars.fresh⟩, fun hnil => ?_, fun older cur hlast => ?_⟩
      · exact h.unset ((List.set_eq_nil_iff ..).1 hnil)
      · obtain hnil | ⟨before, last, hbefore⟩ := List.eq_nil_or_concat o.worker.evaluations
        · rw [hnil] at hev
          cases hev
        · rw [List.concat_eq_append] at hbefore
          obtain ⟨-, hdata, hin, hprogress, hown, hcompleted⟩ := h.current before last hbefore
          have hi : i < before.length := by
            have hlt := (List.getElem?_eq_some_iff.1 hev).1
            rw [hbefore, List.length_append, List.length_singleton] at hlt
            by_contra hge
            obtain rfl : i = before.length := by omega
            rw [hbefore, List.getElem?_concat_length] at hev
            cases hev
            rw [hdata] at hfresh
            exact hfresh hfilled
          simp only [hbefore, List.set_append_left _ _ hi] at hlast
          obtain ⟨rfl, rfl⟩ := List.append_singleton_inj.1 hlast
          refine ⟨?_, hdata, hin, hprogress, fun w hw => ?_, hcompleted⟩
          · simp only [hbefore, List.set_append_left _ _ hi]
          · rw [List.length_set]
            exact hown w hw
    next => exact h
  next => exact h

end Steps

theorem Inv.run {o o' : Observed K R D} (hrun : Run constants check Keeps o o') (h : Inv constants check o) :
    Inv constants check o' := by
  induction hrun with
  | refl => exact h
  | tail _ hstep ih =>
    obtain ⟨event, hallowed, hkeeps, rfl⟩ := hstep
    cases event with
    | setNewEpochState e => exact ih.setNewEpochState hallowed hkeeps
    | slotsWonSoFar => exact ih.slotsWonSoFar hkeeps
    | updateBlockProducerKeys keypairs => exact ih.updateBlockProducerKeys keypairs
    | resume i => exact ih.resume hkeeps
    | signal i => exact ih.signal i

/-! ## Main results -/

/-- **The evaluator reports every slot won before it answers `Completed`**,
and each of them once, in every state of a run that keeps to `Keeps`. -/
theorem slots_won_right {o : Observed K R D} (hrun : Run constants check Keeps start o) : Right constants check o :=
  (Inv.run hrun inv_start).right

/-- Epochs of one slot, which every key wins. -/
def oneSlot : ConsensusConstants where
  slotsPerSubWindow := 1
  subWindowsPerWindow := 1
  slotsPerEpoch := 1
  gracePeriodEnd := 0
  k := 1
  slotsPerWindow := 1
  checkpointWindowSizeInSlots := 1

def everyKey (_ : Unit) (_ : Unit) (_ : Length) : Option Unit := some ()

def firstEpoch : EpochData Unit where
  epoch := 0
  globalSlot := 0
  globalSlotSinceGenesis := 0
  rest := ()

def observed : List (Event Unit Unit) → Observed Unit Unit Unit := List.foldl (step oneSlot everyKey) start

/-- An event that sets no epoch. -/
theorem run_step {P : Observed Unit Unit Unit → Event Unit Unit → Prop} {events : List (Event Unit Unit)}
    (hrun : Run oneSlot everyKey P start (observed events)) (event : Event Unit Unit)
    (hallowed : Allowed oneSlot (observed events) event) (hP : P (observed events) event) :
    Run oneSlot everyKey P start (observed (events ++ [event])) := by
  refine hrun.tail ⟨event, hallowed, hP, ?_⟩
  rw [observed, List.foldl_append]
  rfl

theorem firstEpoch_allowed (keypairs : List Unit) :
    Allowed oneSlot (observed [.updateBlockProducerKeys keypairs]) (.setNewEpochState firstEpoch) := by
  refine ⟨⟨Nat.le_refl 0, Nat.zero_lt_one⟩, ?_⟩
  intro current h
  cases h

theorem slots_won_right_one :
    (observed [.updateBlockProducerKeys [()], .setNewEpochState firstEpoch, .resume 0, .resume 0, .resume 0,
      .slotsWonSoFar]).completed = true ∧
    Right oneSlot everyKey (observed [.updateBlockProducerKeys [()], .setNewEpochState firstEpoch, .resume 0,
      .resume 0, .resume 0, .slotsWonSoFar]) := by
  refine ⟨rfl, slots_won_right ?_⟩
  have hkeys : Run oneSlot everyKey Keeps start (observed [.updateBlockProducerKeys [()]]) :=
    Relation.ReflTransGen.single ⟨.updateBlockProducerKeys [()], trivial, trivial, rfl⟩
  have hset := run_step hkeys (.setNewEpochState firstEpoch) (firstEpoch_allowed _)
    (show 0 + 1 < 2 ^ 32 by decide)
  have hstart := run_step hset (.resume 0) trivial fun _ _ => Or.inl rfl
  have hcheck := run_step hstart (.resume 0) trivial fun _ _ => Or.inl rfl
  have hwon := run_step hcheck (.resume 0) trivial fun _ _ => Or.inl rfl
  refine run_step hwon .slotsWonSoFar trivial ?_
  intro older ev hlast hplace
  obtain ⟨-, rfl⟩ := List.append_singleton_inj.1 (show older ++ [ev] = [] ++ [_] from hlast.symm)
  cases hplace

/-- The answer `Completed` before the first step. -/
theorem completed_too_early : ¬ ∀ o : Observed Unit Unit Unit, Run oneSlot everyKey (fun _ _ => True) start o →
    Right oneSlot everyKey o := by
  intro h
  have hkeys : Run oneSlot everyKey (fun _ _ => True) start (observed [.updateBlockProducerKeys [()]]) :=
    Relation.ReflTransGen.single ⟨.updateBlockProducerKeys [()], trivial, trivial, rfl⟩
  have hset := run_step hkeys (.setNewEpochState firstEpoch) (firstEpoch_allowed _) trivial
  have hpoll := run_step hset .slotsWonSoFar trivial trivial
  obtain ⟨w, hw, -⟩ := (h _ hpoll [] _ rfl).completed rfl 0 le_rfl Nat.zero_lt_one ⟨(), List.mem_cons_self, rfl⟩
  cases hw

end Mina.VrfEvaluator
