/-
`update` as an operation of the pipeline.

The data of an update may all go into the current tree (`Models.update_fill`),
or make it full and go on into a new one (`Models.update_turn`); then the
jobs left of the old round come first, and those of the new one after.
-/
import Mina.ParallelScan.Models

namespace Mina.ParallelScan

open Mina.ParallelScan.Tree State

variable {M B : Type} {res : AvailableJob M B → M} {ds : Nat → B} {h delay k m : Nat} {t : JobTree M B}

/-! ## Sequence numbers -/

section Renumber

variable {newSeq : Int → Int}

theorem renumberMerge_weight (n : MergeNode M) : (renumberMerge newSeq n).1 = n.1 := by
  obtain ⟨w, j⟩ := n
  cases j <;> rfl

theorem renumberMerge_empty {n : MergeNode M} (hn : n.2 = .empty) : (renumberMerge newSeq n).2 = .empty := by
  obtain ⟨w, j⟩ := n
  subst hn
  rfl

theorem renumberBase_empty {n : BaseNode B} (hn : n.2 = .empty) : (renumberBase newSeq n).2 = .empty := by
  obtain ⟨w, j⟩ := n
  subst hn
  rfl

theorem MergeIs.renumber {e i : Nat} {sl : Slot} {n : MergeNode M} (hn : MergeIs res ds e i sl n.2) :
    MergeIs res ds e i sl (renumberMerge newSeq n).2 := by
  obtain ⟨w, j⟩ := n
  cases sl with
  | empty | part =>
    simp only [MergeIs] at hn ⊢
    subst hn
    rfl
  | todo | done =>
    obtain ⟨seq, rfl⟩ := hn
    exact ⟨newSeq seq, rfl⟩

theorem BaseIs.renumber {i : Nat} {sl : Slot} {n : BaseNode B} (hn : BaseIs ds i sl n.2) :
    BaseIs ds i sl (renumberBase newSeq n).2 := by
  obtain ⟨w, j⟩ := n
  cases sl with
  | empty => exact renumberBase_empty hn
  | part => exact hn.elim
  | todo | done =>
    obtain ⟨seq, rfl⟩ := hn
    exact ⟨newSeq seq, rfl⟩

theorem Weighs.renumber {lens : WeightLens} {u : Nat} {fm : Nat → Nat → MergeNode M} (hw : Weighs lens u m fm) :
    Weighs lens u m fun l i => renumberMerge newSeq (fm l i) :=
  ⟨fun l hl i hi => by rw [renumberMerge_weight]; exact hw.left l hl i hi,
    fun l hl i hi => by rw [renumberMerge_weight]; exact hw.right l hl i hi⟩

theorem Stage.renumber (hst : Stage res ds h k m t) :
    Stage res ds h k m (Tree.map (renumberMerge newSeq) (renumberBase newSeq) t) := by
  obtain ⟨fm, fb, rfl, hholds, hweighs, hone⟩ := hst
  refine ⟨_, _, mapDepth_build h 0 _ _ fm fb, ⟨fun l hl i hi => (hholds.merge l hl i hi).renumber,
    fun i hi => (hholds.base i hi).renumber⟩, hweighs.renumber, fun he => ?_⟩
  rw [renumberMerge_weight]
  exact hone he

theorem Filling.renumber {l : List B} (hf : Filling h l t) :
    Filling h l (Tree.map (renumberMerge newSeq) (renumberBase newSeq) t) := by
  obtain ⟨fm, fb, rfl, hempty, hbase, hweighs⟩ := hf
  refine ⟨_, _, mapDepth_build h 0 _ _ fm fb, fun e he i hi => renumberMerge_empty (hempty e he i hi), fun i hi => ?_,
    hweighs.renumber⟩
  have hb := hbase i hi
  cases hl : l[i]? with
  | none =>
    rw [hl] at hb
    exact renumberBase_empty hb
  | some d =>
    rw [hl] at hb
    have htodo : BaseIs (fun _ => d) i .todo (fb i).2 := hb
    exact htodo.renumber

end Renumber

variable {p : Pipeline B h (delay + 1)} {s : State M B}

theorem Models.incrSequenceNo (hm : Models res p s) : Models res p (incrSequenceNo s) := by
  unfold State.incrSequenceNo
  split
  · refine ⟨hm.max, hm.delay, hm.head.renumber, ?_⟩
    exact hm.tail.map fun _ _ ds t hst => hst.renumber
  · exact ⟨hm.max, hm.delay, hm.head, hm.tail⟩

/-! ## The jobs of the next round -/

theorem roundJobs_congr {D : Nat} (hD : 2 ≤ D) (x y : Nat → B) {dss : List (Nat → B)}
    (hlen : dss.length = (h + 1) * D) :
    roundJobs res h D (x :: dss) = roundJobs res h D (y :: dss.dropLast) := by
  have hdiv : (dss.length + 1) / D = h + 1 := by
    rw [hlen, Nat.mul_comm, Nat.mul_add_div (by omega), Nat.div_eq_of_lt (by omega), Nat.add_zero]
  have hpos : 0 < (h + 1) * D := Nat.mul_pos (Nat.succ_pos h) (by omega)
  have hdiv' : (dss.dropLast.length + 1) / D = h + 1 := by
    rw [List.length_dropLast, hlen, Nat.sub_add_cancel hpos, Nat.mul_div_cancel _ (by omega)]
  rw [roundJobs, roundJobs, List.length_cons, List.length_cons, hdiv, hdiv']
  refine List.flatMap_congr fun k hk => ?_
  have hlast : k * D + (D - 1) < (h + 1) * D := position_lt (by omega) (by
    rw [Nat.mul_div_cancel _ (by omega)]
    exact List.mem_range.1 hk)
  rw [blockJobs, blockJobs, show k * D + (D - 1) = k * D + (D - 2) + 1 by omega, List.getElem?_cons_succ,
    List.getElem?_cons_succ, List.getElem?_dropLast, if_pos (by omega)]

/-- The jobs of the round after this one, when the current block is full. -/
theorem Models.workForTree_next (hdelay : 0 < delay) (hm : Models res p s) (ds : Nat → B) :
    s.workForTree .next = roundJobs res h (delay + 1) (ds :: p.full) := by
  simp only [State.workForTree, hm.max, hm.delay]
  refine work_next (by omega) hm.tail (fun q hq => ?_) p.full_le s.trees.head ds
  rw [Pipeline.stage]
  split
  · rw [finishedAt, if_neg hq]
  · rw [busyAt, progress, if_neg hq]

theorem Models.length_workForTree_next (hdelay : 0 < delay) (hm : Models res p s) (ds : Nat → B) :
    (s.workForTree .next).length = before h ((p.full.length + 1) / (delay + 1)) := by
  have hD : 0 < delay + 1 := Nat.succ_pos delay
  have hle := p.full_le
  have hdiv : (p.full.length + 1) / (delay + 1) < h + 2 :=
    (Nat.div_lt_iff_lt_mul hD).2 (by rw [Nat.add_mul] at hle ⊢; omega)
  rw [hm.workForTree_next hdelay ds, length_roundJobs hD (by rw [List.length_cons]; omega), List.length_cons]

theorem Models.workForNextUpdate (hh : 0 < h) (hm : Models res p s) {n : Nat} (hn : n ≤ 2 ^ h) :
    (s.workForNextUpdate n).flatten =
      if p.space < n then s.workForTree .current ++ (s.workForTree .next).take (2 * (n - p.space))
      else (s.workForTree .current).take (2 * n) := by
  have hcurrent : s.workForTree .current = State.work s.trees.tail (s.delay + 1) s.maxBaseJobs := rfl
  have hnext : s.workForTree .next = State.work s.trees.toList (s.delay + 1) s.maxBaseJobs := rfl
  have hcount : ((min n s.maxBaseJobs : Nat) : Int) = n := by rw [hm.max, Nat.min_eq_left hn]
  simp only [State.workForNextUpdate, hm.availableSpace hh, hcount, hcurrent, hnext, Nat.cast_lt]
  by_cases hlt : p.space < n
  · have htake : (((n : Int) - p.space) * 2).toNat = 2 * (n - p.space) := by omega
    rw [if_pos hlt, if_pos hlt, htake, List.flatten_filter_not_isEmpty, List.flatten_cons, List.flatten_singleton]
  · rw [if_neg hlt, if_neg hlt, hm.max, Nat.min_eq_left hn]
    cases (State.work s.trees.tail (s.delay + 1) (2 ^ h)).take (2 * n) with
    | nil => rfl
    | cons => simp

/-! ## The update -/

/-- The update passes the check of the number of jobs. -/
def Sufficient (s : State M B) (data : List B) (completed : List M) : Prop :=
  ¬ insufficient s.maxBaseJobs data.length (((s.workForNextUpdate data.length).flatten.length + 1) / 2)
    ((completed.length + 1) / 2)

/-- The steps of an update that passes the first two checks. -/
theorem update_steps {data : List B} {completed : List M} (hdata : data.length ≤ s.maxBaseJobs)
    (hjobs : Sufficient s data completed) {s₁ s₂ s₃ s₄ : State M B} {out out' : Option (M × List B)}
    (h₁ : State.addMergeJobs (completed.take (s.workForTree .current).length) (State.incrSequenceNo s) = .ok (out, s₁))
    (h₂ : State.addData (data.take s.trees.head.availableSpace.toNat) s₁ = .ok s₂)
    (h₃ : State.addMergeJobs (completed.drop (s.workForTree .current).length) s₂ = .ok (out', s₃))
    (h₄ : State.addData (data.drop s.trees.head.availableSpace.toNat) s₃ = .ok s₄)
    (hlen : s₄.trees.tail.length + 1 ≤ s₄.maxTrees) :
    State.update data completed s = .ok (out, { s₄ with acc := out.or s₄.acc }) := by
  have hdata' : ¬ data.length > s.maxBaseJobs := by omega
  have hlen' : ¬ (s₄.trees.tail.length + 1 > s₄.maxTrees) := by omega
  have hcurrent : s.workForTree .current = State.work s.trees.tail (s.delay + 1) s.maxBaseJobs := rfl
  rw [hcurrent] at h₁ h₃
  have hmax : ({ s₄ with acc := out.or s₄.acc } : State M B).maxTrees = s₄.maxTrees := rfl
  simp only [State.update, check, if_neg hdata', if_neg hjobs, h₁, h₂, h₃, h₄, Exn.andThen_ok, hmax,
    NonEmptyList.toList, List.length_cons, if_neg hlen']

/-- What an accepted update has done. -/
theorem update_inv {data : List B} {completed : List M} {out : Option (M × List B)} {s' : State M B}
    (hok : State.update data completed s = .ok (out, s')) :
    data.length ≤ s.maxBaseJobs ∧ Sufficient s data completed ∧ ∃ a s₂ b,
      State.addMergeJobs (completed.take (s.workForTree .current).length) (State.incrSequenceNo s) = .ok a ∧
        State.addData (data.take s.trees.head.availableSpace.toNat) a.2 = .ok s₂ ∧
        State.addMergeJobs (completed.drop (s.workForTree .current).length) s₂ = .ok b := by
  have hcurrent : s.workForTree .current = State.work s.trees.tail (s.delay + 1) s.maxBaseJobs := rfl
  simp only [State.update, check] at hok
  split at hok
  · cases hok
  next hdata =>
    split at hok
    · cases hok
    next hjobs =>
      obtain ⟨a, h₁, hok⟩ := Exn.andThen_eq_ok.1 hok
      obtain ⟨s₂, h₂, hok⟩ := Exn.andThen_eq_ok.1 hok
      obtain ⟨b, h₃, -⟩ := Exn.andThen_eq_ok.1 hok
      exact ⟨not_lt.1 hdata, hjobs, a, s₂, b, by rw [hcurrent]; exact h₁, h₂, by rw [hcurrent]; exact h₃⟩

theorem addMergeJobs_nil (s : State M B) : State.addMergeJobs [] s = .ok (none, s) := rfl

theorem addData_nil (s : State M B) : State.addData [] s = .ok s := rfl

theorem Models.room (hm : Models res p s) : s.trees.tail.length + 1 ≤ s.maxTrees := by
  have hle := p.full_le
  rw [hm.maxTrees, hm.length]
  omega

/-- All data goes into the current tree. -/
theorem Models.update_fill (hh : 0 < h) (hm : Models res p s) {data : List B} {n : Nat} (hspace : data.length < p.space)
    (hn : n ≤ p.left) (hjobs : Sufficient s data (((s.workForTree .current).take n).map res)) :
    ∃ s', State.update data (((s.workForTree .current).take n).map res) s = .ok (p.output res n, s') ∧
      Models res (p.stay data hspace n) s' := by
  have hroom : (p.work n).current.length + data.length < 2 ^ h := Nat.lt_sub_iff_add_lt'.1 hspace
  obtain ⟨s₁, h₁, hm₁⟩ := hm.incrSequenceNo.addMergeJobs hh hn
  obtain ⟨s₂, h₂, hm₂⟩ := hm₁.addData_fill hh hroom
  rw [hm.incrSequenceNo.workForTree, ← hm.workForTree] at h₁
  have hspace' : s.trees.head.availableSpace.toNat = p.space := by rw [hm.availableSpace hh, Int.toNat_natCast]
  have hlen : (((s.workForTree .current).take n).map res).length ≤ (s.workForTree .current).length := by
    rw [List.length_map]
    exact List.length_take_le' _ _
  have hupdate := update_steps (by rw [hm.max]; omega) hjobs
    (by rw [List.take_of_length_le hlen]; exact h₁)
    (by rw [hspace', List.take_of_length_le hspace.le]; exact h₂)
    (by rw [List.drop_of_length_le hlen]; exact addMergeJobs_nil s₂)
    (by rw [hspace', List.drop_of_length_le hspace.le]; exact addData_nil s₂) hm₂.room
  exact ⟨_, hupdate, hm₂.max, hm₂.delay, hm₂.head, hm₂.tail⟩

/-- Then an update with more jobs than are left is refused. -/
theorem Models.update_le (hh : 0 < h) (hm : Models res p s) {data : List B} (hspace : data.length < p.space)
    {completed jobs : List (AvailableJob M B)} (hlisted : completed <+: s.workForTree .current ++ jobs)
    {out : Option (M × List B)} {s' : State M B} (hok : State.update data (completed.map res) s = .ok (out, s')) :
    completed.length ≤ p.left := by
  by_contra hlt
  have hleft := hm.length_workForTree
  obtain ⟨-, -, a, s₂, b, h₁, h₂, h₃⟩ := update_inv hok
  obtain ⟨s₁, h₁', hm₁⟩ := hm.incrSequenceNo.addMergeJobs hh le_rfl
  have htake : (completed.map res).take (s.workForTree .current).length =
      (((State.incrSequenceNo s).workForTree .current).take p.left).map res := by
    obtain ⟨rest, hrest⟩ := hlisted
    have hprefix := congrArg (List.take p.left) hrest
    rw [List.take_append_of_le_length (by omega), List.take_append_of_le_length (by omega)] at hprefix
    rw [hm.incrSequenceNo.workForTree, ← hm.workForTree, hleft, ← List.map_take, hprefix]
  rw [htake, h₁', Except.ok.injEq] at h₁
  subst h₁
  have hspace' : s.trees.head.availableSpace.toNat = p.space := by rw [hm.availableSpace hh, Int.toNat_natCast]
  obtain ⟨s₂', h₂', hm₂⟩ := hm₁.addData_fill hh (Nat.lt_sub_iff_add_lt'.1 hspace)
  rw [hspace', List.take_of_length_le hspace.le] at h₂
  cases h₂'.symm.trans h₂
  have hmore : (s₂.workForTree .current).length < ((completed.map res).drop (s.workForTree .current).length).length := by
    rw [hm₂.length_workForTree, List.length_drop, List.length_map, hleft]
    exact p.work_all.trans_lt (by omega)
  obtain ⟨e, he⟩ := addMergeJobs_refused hmore
  rw [he] at h₃
  cases h₃

/-- Data makes the current tree full. -/
theorem Models.update_turn (hh : 0 < h) (hdelay : 0 < delay) (hm : Models res p s) {data : List B} {n : Nat}
    (hspace : p.space ≤ data.length) (hdata : data.length ≤ 2 ^ h) (hn : n ≤ (s.workForTree .next).length)
    (hjobs : Sufficient s data ((s.workForTree .current ++ (s.workForTree .next).take n).map res)) :
    ∃ s', State.update data ((s.workForTree .current ++ (s.workForTree .next).take n).map res) s =
        .ok (p.output res p.left, s') ∧
      Models res (p.turn (Nat.succ_pos delay) data hspace hdata n) s' := by
  have hD : 0 < delay + 1 := Nat.succ_pos delay
  have hleft := hm.length_workForTree
  have hspace' : s.trees.head.availableSpace.toNat = p.space := by rw [hm.availableSpace hh, Int.toNat_natCast]
  have hfull : (p.work p.left).current.length + (data.take p.space).length = 2 ^ h := by
    rw [List.length_take, Nat.min_eq_left hspace]
    exact Nat.add_sub_cancel' p.room.le
  obtain ⟨s₁, h₁, hm₁⟩ := hm.incrSequenceNo.addMergeJobs hh le_rfl
  rw [hm.incrSequenceNo.workForTree, ← hm.workForTree] at h₁
  obtain ⟨s₂, h₂, hm₂⟩ := hm₁.addData_rotate hh hfull p.work_all
  -- the new round has the jobs that were listed for it
  have hround : s₂.workForTree .current = s.workForTree .next := by
    rw [hm₂.workForTree, Pipeline.rotate_start, List.drop_zero]
    by_cases he : p.Emits p.left
    · have hblocks : (p.work p.left).full = p.full.dropLast := if_pos he
      have hdata : data ≠ [] := List.ne_nil_of_length_pos (p.space_pos.trans_le hspace)
      rw [hm.workForTree_next hdelay fun _ => data.head hdata, roundJobs_congr (by omega) _ _ he.2, ← hblocks]
      rfl
    · have hblocks : (p.work p.left).full = p.full := if_neg he
      rw [hm.workForTree_next hdelay, ← hblocks]
      rfl
  have hn' : n ≤ ((p.work p.left).rotate hD (data.take p.space) hfull p.work_all).left := by
    rw [← hm₂.length_workForTree, hround]
    exact hn
  obtain ⟨s₃, h₃, hm₃⟩ := hm₂.addMergeJobs hh hn'
  rw [hround] at h₃
  have hrest : (data.drop p.space).length < 2 ^ h := by
    have hpos := p.space_pos
    have htwo := Nat.two_pow_pos h
    rw [List.length_drop]
    omega
  obtain ⟨s₄, h₄, hm₄⟩ := hm₃.addData_fill hh ((Nat.zero_add _).trans_lt hrest)
  have hlen : ((s.workForTree .current).map res).length = (s.workForTree .current).length := List.length_map _
  have hupdate := update_steps (by rw [hm.max]; exact hdata) hjobs
    (by rw [List.map_append, List.take_left' hlen, ← List.take_of_length_le hleft.le]; exact h₁)
    (by rw [hspace']; exact h₂) (by rw [List.map_append, List.drop_left' hlen]; exact h₃)
    (by rw [hspace']; exact h₄) hm₄.room
  exact ⟨_, hupdate, hm₄.max, hm₄.delay, hm₄.head, hm₄.tail⟩

/-! ## An update without data -/

theorem availableSpace_renumber (newSeq : Int → Int) (t : JobTree M B) :
    (Tree.map (renumberMerge newSeq) (renumberBase newSeq) t).availableSpace = t.availableSpace := by
  cases t with
  | leaf d =>
    obtain ⟨w, j⟩ := d
    cases j <;> rfl
  | node depth value sub =>
    have hweight : (renumberMerge newSeq value).1 = value.1 := renumberMerge_weight value
    simp only [Tree.map, Tree.mapDepth, Tree.availableSpace, hweight]

theorem incrSequenceNo_space (s : State M B) :
    (State.incrSequenceNo s).trees.head.availableSpace = s.trees.head.availableSpace ∧
      (State.incrSequenceNo s).maxBaseJobs = s.maxBaseJobs := by
  rw [State.incrSequenceNo]
  split
  · exact ⟨availableSpace_renumber _ _, rfl⟩
  · exact ⟨rfl, rfl⟩

theorem addMergeJobs_head {completed : List M} {r : Option (M × List B) × State M B}
    (hok : State.addMergeJobs completed s = .ok r) :
    r.2.trees.head = s.trees.head ∧ r.2.maxBaseJobs = s.maxBaseJobs := by
  rw [State.addMergeJobs] at hok
  split at hok
  · cases hok
    exact ⟨rfl, rfl⟩
  · simp only [check] at hok
    split at hok
    · cases hok
    · obtain ⟨x, -, hok⟩ := Exn.andThen_eq_ok.1 hok
      cases hok
      exact ⟨rfl, rfl⟩

theorem nextOnNewTree_iff : s.nextOnNewTree = true ↔ s.trees.head.availableSpace = s.maxBaseJobs :=
  decide_eq_true_iff

/-- The current tree has as much space as before. -/
theorem update_nil {completed : List M} {r : Option (M × List B) × State M B}
    (hok : State.update [] completed s = .ok r) : r.2.nextOnNewTree = s.nextOnNewTree := by
  simp only [State.update, check] at hok
  split at hok
  · cases hok
  split at hok
  · cases hok
  obtain ⟨a, h₁, hok⟩ := Exn.andThen_eq_ok.1 hok
  obtain ⟨s₂, h₂, hok⟩ := Exn.andThen_eq_ok.1 hok
  obtain ⟨b, h₃, hok⟩ := Exn.andThen_eq_ok.1 hok
  obtain ⟨s₄, h₄, hok⟩ := Exn.andThen_eq_ok.1 hok
  rw [List.take_nil, addData_nil, Except.ok.injEq] at h₂
  rw [List.drop_nil, addData_nil, Except.ok.injEq] at h₄
  subst h₂ h₄
  obtain ⟨hhead₁, hmax₁⟩ := addMergeJobs_head h₁
  obtain ⟨hhead₃, hmax₃⟩ := addMergeJobs_head h₃
  obtain ⟨hspace, hmax⟩ := incrSequenceNo_space s
  split at hok
  · cases hok
  cases hok
  rw [Bool.eq_iff_iff, nextOnNewTree_iff, nextOnNewTree_iff, ← hspace, ← hmax, ← hhead₁, ← hmax₁, ← hhead₃, ← hmax₃]

theorem nextOnNewTree_empty (h delay : Nat) : (State.empty (2 ^ h) delay : State M B).nextOnNewTree = true := by
  have hlevel : ¬ ((h : Nat) : Int) = -1 := by omega
  rw [nextOnNewTree_iff]
  simp only [State.empty, NonEmptyList.singleton, ceilLog2_pow, State.createTree, State.createTreeForLevel,
    if_neg hlevel]
  cases h with
  | zero => rfl
  | succ h =>
    have hpow := Nat.pow_succ (n := 2) (m := h)
    simp only [State.createLevels, Tree.availableSpace, Int.toNat_natCast, Nat.zero_add, Nat.pow_one]
    omega

end Mina.ParallelScan
