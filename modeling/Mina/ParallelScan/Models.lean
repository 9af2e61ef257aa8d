/-
Scan states and pipelines: `Models` says that a scan state holds what a
pipeline says. The work it lists is the pipeline's (`Models.workForTree`),
and its two operations are the pipeline's (`Models.addMergeJobs`,
`Models.addData_fill` and `Models.addData_rotate`).
-/
import Mina.ParallelScan.MergeJobs
import Mina.ParallelScan.Pipeline

namespace Mina.ParallelScan

open Mina.ParallelScan.Tree State

section Models

variable {M B : Type} (res : AvailableJob M B → M) {h delay : Nat}

/-- The scan state `s` holds what the pipeline `p` says. -/
structure Models (p : Pipeline B h (delay + 1)) (s : State M B) : Prop where
  max : s.maxBaseJobs = 2 ^ h
  delay : s.delay = delay
  head : Filling h p.current s.trees.head
  tail : Stages res h p.stage p.full s.trees.tail

variable {res} {p : Pipeline B h (delay + 1)} {s : State M B}

theorem Models.length (hm : Models res p s) : s.trees.tail.length = p.full.length := hm.tail.length

theorem Models.maxTrees (hm : Models res p s) : s.maxTrees = (h + 1) * (delay + 1) + 1 := by
  rw [State.maxTrees, hm.max, hm.delay, ceilLog2_pow]

theorem Models.availableSpace (hh : 0 < h) (hm : Models res p s) : s.trees.head.availableSpace = p.space :=
  hm.head.availableSpace hh

theorem Models.workForTree (hm : Models res p s) :
    s.workForTree .current =
      (roundJobs res h (delay + 1) p.full).drop (before h (p.full.length / (delay + 1)) - p.left) := by
  have hD : 0 < delay + 1 := Nat.succ_pos delay
  have hround : (roundJobs res h (delay + 1) p.full).length = _ := length_roundJobs hD (p.blocks_le hD)
  have htail := hm.tail
  simp only [State.workForTree, hm.max, hm.delay]
  by_cases hz : p.left = 0
  · rw [work_finished hD (htail.congr fun n _ => by rw [Pipeline.stage, if_pos hz]) (p.full_lt hz),
      List.drop_eq_nil_of_le (by omega)]
  · exact work_busy hD (htail.congr fun n _ => by rw [Pipeline.stage, if_neg hz]) p.full_le

theorem Models.length_workForTree (hm : Models res p s) : (s.workForTree .current).length = p.left := by
  have hD : 0 < delay + 1 := Nat.succ_pos delay
  have hround : (roundJobs res h (delay + 1) p.full).length = _ := length_roundJobs hD (p.blocks_le hD)
  have hle := p.left_le
  rw [hm.workForTree, List.length_drop, hround]
  omega

/-- The scan state at the start. -/
theorem models_empty (hh : 0 < h) (delay : Nat) :
    Models res (Pipeline.start (h := h) (Nat.succ_pos delay)) (State.empty (2 ^ h) delay : State M B) := by
  refine ⟨rfl, rfl, ?_, trivial⟩
  rw [State.empty, ceilLog2_pow]
  exact filling_createTree hh

/-! ## Completed jobs -/

/-- The trees after a round's jobs, when some are left or none comes out. -/
theorem work_stages (hh : 0 < h) {n : Nat} (hn : 0 < n) (hle : n ≤ p.left)
    (he : ¬ p.Emits n) {ts : List (JobTree M B)}
    (hst : Stages res h (busyAt h (delay + 1) (before h (p.full.length / (delay + 1)) - p.left + n)) p.full ts) :
    Stages res h (p.work n).stage (p.work n).full (if n = p.left then ts.map (Tree.resetWeights .merge) else ts) := by
  have hD : 0 < delay + 1 := Nat.succ_pos delay
  have hleft := p.left_le
  have hlen := hst.length
  have hfull : (p.work n).full = p.full := if_neg he
  have hrest : (p.work n).left = p.left - n := rfl
  rw [hfull]
  by_cases hall : n = p.left
  · rw [if_pos hall]
    have hlt : p.full.length < (h + 1) * (delay + 1) :=
      Nat.lt_of_le_of_ne p.full_le fun hlen => he ⟨hall.ge, hlen⟩
    refine (stages_reset hh hD hst (fun k hk => ?_) (by rw [hlen]; exact hlt)).congr fun q _ => ?_
    · rw [hlen] at hk
      have := before_mono (h := h) (Nat.succ_le_of_lt hk)
      rw [Nat.succ_eq_add_one] at this
      omega
    · rw [Pipeline.stage, hrest, if_pos (by omega)]
  · rw [if_neg hall]
    refine hst.congr fun q _ => ?_
    rw [Pipeline.stage, hrest, if_neg (by omega), hfull]
    congr 1
    omega

/-- The next jobs of the round. -/
theorem Models.addMergeJobs (hh : 0 < h) (hm : Models res p s) {n : Nat} (hn : n ≤ p.left) :
    ∃ s', State.addMergeJobs (((s.workForTree .current).take n).map res) s = .ok (p.output res n, s') ∧
      Models res (p.work n) s' := by
  have hD : 0 < delay + 1 := Nat.succ_pos delay
  have hwork := hm.length_workForTree
  have hlen := hm.length
  have hleft := p.left_le
  rcases Nat.eq_zero_or_pos n with rfl | hpos
  · refine ⟨s, ?_, by rw [p.work_zero]; exact hm⟩
    rw [List.take_zero, p.output_zero]
    rfl
  have hstage : p.stage = busyAt h (delay + 1) (before h (p.full.length / (delay + 1)) - p.left) := by
    funext q
    rw [Pipeline.stage, if_neg (by omega)]
  have hst := hm.tail
  rw [hstage] at hst
  have hxs : (((s.workForTree .current).take n).map res).length = n := by
    rw [List.length_map, List.length_take]
    omega
  have hres : ∀ q ds, p.full[q]? = some ds → ResultsAt res h (delay + 1)
      (before h (p.full.length / (delay + 1)) - p.left) (((s.workForTree .current).take n).map res) q ds := by
    intro q ds hds
    rw [hm.workForTree]
    exact resultsAt_take hD (p.blocks_le hD) hds n
  generalize ((s.workForTree .current).take n).map res = xs at hxs hres ⊢
  generalize hc : before h (p.full.length / (delay + 1)) - p.left = c at hst hres
  have hdrop : (xs.map (Job.merge : M → Job M B)).drop (before h (0 / (delay + 1)) - c) = xs.map Job.merge := by
    rw [Nat.zero_div, before_zero, Nat.zero_sub, List.drop_zero]
  have hfit : xs.length ≤ (s.workForTree .current).length := by omega
  by_cases hlast : p.full.length = (h + 1) * (delay + 1)
  case neg =>
    have hne : ¬ p.Emits n := fun he => hlast he.2
    have hlt := Nat.lt_of_le_of_ne p.full_le hlast
    obtain ⟨ts, hfold, hts⟩ := fold_merges s.currJobSeqNo hh hD 0 [] (by simpa only [Nat.zero_add] using hst)
      (by simpa only [Nat.zero_add] using hres) (by omega)
    simp only [Nat.zero_add, List.append_nil] at hfold hts
    rw [hdrop] at hfold
    have hdone := addMergeJobs_none (s := s) (by omega) hfit
      (by rw [hm.max, hm.delay, ceilLog2_pow]; exact hfold)
    rw [Pipeline.output, if_neg hne]
    refine ⟨_, hdone, hm.max, hm.delay, hm.head, ?_⟩
    have hroom : ts.length + 1 < s.maxTrees ∧ xs.length = (s.workForTree .current).length ↔ n = p.left := by
      rw [hm.maxTrees, hts.length]
      omega
    simp only [hroom]
    exact work_stages hh hpos hn hne (by rw [← hxs, hc]; exact hts)
  have hne : p.full ≠ [] := List.ne_nil_of_length_pos (p.length_pos_of_left (by omega))
  obtain ⟨dss₀, ds, ts₀, t, hdss, hts, hst₀, hroot⟩ := hst.snoc hne
  have hlen₀ : ts₀.length + 1 = (h + 1) * (delay + 1) := by
    rw [← hlast, hdss, List.length_append, List.length_singleton, hst₀.length]
  have hpos₀ := root_div hD hlen₀
  obtain ⟨ts, hfold, hts'⟩ := fold_merges s.currJobSeqNo hh hD 0 [] (by simpa only [Nat.zero_add] using hst₀)
    (fun q ds hds => by
      rw [Nat.zero_add]
      refine hres q ds ?_
      rw [hdss, List.getElem?_append_left (List.getElem?_eq_some_iff.1 hds).1, hds]) (by omega)
  simp only [Nat.zero_add, List.append_nil] at hfold hts'
  rw [hdrop] at hfold
  have hds : p.full[ts₀.length]? = some ds := by
    rw [hdss, hst₀.length, List.getElem?_append_right le_rfl, Nat.sub_self]
    rfl
  rw [← hst₀.length] at hroot
  rw [hlast, Nat.mul_div_cancel _ hD] at hc hleft
  have hround := before_succ (Nat.le_refl h)
  rw [Nat.sub_self, Nat.pow_zero] at hround
  have happend : Exn.fold (addMergeJobsStep h (delay + 1) s.currJobSeqNo) ([], none, xs.map Job.merge)
      s.trees.tail.zipIdx = Exn.fold (addMergeJobsStep h (delay + 1) s.currJobSeqNo)
        (ts.reverse, none, (xs.map Job.merge).drop (before h (ts₀.length / (delay + 1)) - c)) [(t, ts₀.length)] := by
    rw [hts, List.zipIdx_append, Nat.zero_add, List.zipIdx_singleton, Exn.fold_append, hfold, Exn.andThen_ok]
  rw [Exn.fold] at happend
  by_cases hall : n = p.left
  · have he : p.Emits n := ⟨hall.ge, hlast⟩
    obtain ⟨t', rest, hstep, hbase⟩ := addMergeJobsStep_root s.currJobSeqNo hh hD ts.reverse hroot
      (hres _ ds hds) hlen₀ (by omega) (by omega)
    rw [hstep, Exn.andThen_ok, Exn.fold] at happend
    have hdone := addMergeJobs_some (s := s) (by omega) hfit
      (by rw [hm.max, hm.delay, ceilLog2_pow]; exact happend)
    have hout : p.output res n = some (proof res ds h 0, t'.baseJobs) := by
      rw [Pipeline.output, if_pos he, hdss, List.getLast?_append, List.getLast?_singleton, hbase]
      rfl
    rw [hout]
    refine ⟨_, hdone, hm.max, hm.delay, hm.head, ?_⟩
    have hfull : (p.work n).full = dss₀ := (if_pos he).trans (by rw [hdss, List.dropLast_concat])
    have hrest : (p.work n).left = p.left - n := rfl
    rw [hfull]
    refine (stages_reset hh hD hts' (fun k hk => ?_) (by rw [hts'.length, ← hst₀.length]; omega)).congr fun q _ => ?_
    · have : ts.length / (delay + 1) = h := by rw [hts'.length, ← hst₀.length, hpos₀.2]
      have := before_mono (h := h) (show k + 1 ≤ h by omega)
      omega
    · rw [Pipeline.stage, hrest, if_pos (by omega)]
  · have he : ¬ p.Emits n := fun he => hall (Nat.le_antisymm hn he.1)
    have hjobs : (xs.map (Job.merge : M → Job M B)).drop (before h (ts₀.length / (delay + 1)) - c) = [] := by
      rw [hpos₀.2, List.drop_eq_nil_iff, List.length_map]
      omega
    rw [addMergeJobsStep_idle _ _ hjobs, Exn.andThen_ok, Exn.fold,
      show t :: ts.reverse = (ts ++ [t]).reverse by rw [List.reverse_append]; rfl] at happend
    have hdone := addMergeJobs_none (s := s) (by omega) hfit (by rw [hm.max, hm.delay, ceilLog2_pow]; exact happend)
    rw [Pipeline.output, if_neg he]
    refine ⟨_, hdone, hm.max, hm.delay, hm.head, ?_⟩
    have hsame : progress h (delay + 1) (c + xs.length) ts₀.length = progress h (delay + 1) c ts₀.length := by
      rw [progress, progress, if_pos hpos₀.1, if_pos hpos₀.1, hpos₀.2,
        Nat.sub_eq_zero_of_le (show c + xs.length ≤ before h h by omega),
        Nat.sub_eq_zero_of_le (show c ≤ before h h by omega)]
    have hroot' : Stage res ds h (busyAt h (delay + 1) (c + xs.length) dss₀.length).1
        (busyAt h (delay + 1) (c + xs.length) dss₀.length).2 t := by
      rw [busyAt, ← hst₀.length, hsame]
      exact hroot
    have hstages := hts'.concat hroot'
    rw [← hdss] at hstages
    have hroom : (ts ++ [t]).length + 1 < s.maxTrees ∧ xs.length = (s.workForTree .current).length ↔ n = p.left := by
      rw [hm.maxTrees, hwork, hxs]
      omega
    simp only [hroom]
    exact work_stages hh hpos hn he (by rw [hlast, Nat.mul_div_cancel _ hD, ← hxs, hc]; exact hstages)

/-! ## New data -/

theorem tail_appendTrees (t : JobTree M B) (ts : List (JobTree M B)) :
    appendTrees (NonEmptyList.singleton t) ts = ⟨t, ts⟩ := by
  cases ts <;> rfl

theorem tail_appendTrees_cons (t t' : JobTree M B) (ts : List (JobTree M B)) :
    appendTrees (NonEmptyList.cons t (NonEmptyList.singleton t')) ts = ⟨t, t' :: ts⟩ := by
  cases ts <;> rfl

/-- Data that leaves room in the current tree. -/
theorem Models.addData_fill (hh : 0 < h) (hm : Models res p s) {data : List B}
    (hroom : p.current.length + data.length < 2 ^ h) :
    ∃ s', State.addData data s = .ok s' ∧ Models res (p.fill data hroom) s' := by
  by_cases hnil : data.length = 0
  · have hsame : p.current ++ data = p.current := by rw [List.length_eq_zero_iff.1 hnil, List.append_nil]
    refine ⟨s, by rw [State.addData, if_pos hnil], hm.max, hm.delay, ?_, hm.tail⟩
    exact (congrArg (Filling h · s.trees.head) hsame).mpr hm.head
  have hspace := hm.availableSpace hh
  have hsp : p.space = 2 ^ h - p.current.length := rfl
  obtain ⟨t', hok, hfill⟩ := hm.head.update s.currJobSeqNo hh hroom.le
  have hle : ¬ (data.length : Int) > s.trees.head.availableSpace := by
    rw [hspace]
    omega
  have hne : ¬ ((data.map (Job.base : B → Job M B)).length : Int) = s.trees.head.availableSpace := by
    rw [hspace, List.length_map]
    omega
  refine ⟨{ s with trees := ⟨t'.resetWeights .merge, s.trees.tail⟩ }, ?_, hm.max, hm.delay, hfill.resetMerge, hm.tail⟩
  simp only [State.addData, if_neg hnil, check, if_neg hle, hm.max, ceilLog2_pow, hok, tag_ok, Exn.andThen_ok,
    if_neg hne, tail_appendTrees]

/-- Data that makes the current tree full. -/
theorem Models.addData_rotate (hh : 0 < h) (hm : Models res p s) {data : List B}
    (hfull : p.current.length + data.length = 2 ^ h) (hleft : p.left = 0) :
    ∃ s', State.addData data s = .ok s' ∧ Models res (p.rotate (Nat.succ_pos delay) data hfull hleft) s' := by
  have hroom := p.room
  have hspace := hm.availableSpace hh
  have hsp : p.space = 2 ^ h - p.current.length := rfl
  obtain ⟨t', hok, hfill⟩ := hm.head.update s.currJobSeqNo hh hfull.le
  have hnil : ¬ data.length = 0 := by omega
  have hle : ¬ (data.length : Int) > s.trees.head.availableSpace := by
    rw [hspace]
    omega
  have heq : ((data.map (Job.base : B → Job M B)).length : Int) = s.trees.head.availableSpace := by
    rw [hspace, List.length_map]
    omega
  refine ⟨{ s with trees := ⟨createTree h, t'.resetWeights .both :: s.trees.tail⟩ }, ?_, hm.max, hm.delay,
    filling_createTree hh, ?_⟩
  · simp only [State.addData, if_neg hnil, check, if_neg hle, hm.max, ceilLog2_pow, hok, tag_ok, Exn.andThen_ok,
      if_pos heq, tail_appendTrees_cons]
  · have hold : p.stage = finishedAt (delay + 1) := by
      funext q
      rw [Pipeline.stage, if_pos hleft]
    have hst := hm.tail
    rw [hold] at hst
    refine ⟨?_, hst.congr fun q hq => ?_⟩
    · rw [p.stage_rotate _ hfull hleft (Nat.zero_le _), Nat.zero_div]
      refine hfill.reset hh fun i hi => ?_
      rw [Pipeline.block, List.getD_eq_getElem _ _ (by rw [List.length_append]; omega), ← List.getElem?_eq_getElem]
    · rw [hm.length] at hq
      rw [p.stage_rotate _ hfull hleft hq, finishedAt_succ (Nat.succ_pos delay)]

end Models

end Mina.ParallelScan
