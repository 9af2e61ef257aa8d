/-
Scan states after runs with the results of any number of the listed jobs, also
after runs that left work behind.

An update is the two operations of the line with the data between them
(`Stands.update`). A full block moves every tree one position and the results
that are left are for the jobs that were listed for the trees there
(`Stands.listed_next`); when the oldest tree has not come out there is one
tree too many, and no result can change that (`Stands.addMergeJobs_overlong`),
so the update is refused. From this, over every run: the data in the trees are
those that went in and have not come out (`run_conserves`), and the fold over
what is live in the trees is their product (`foldChronological_pendingData`).
-/
import Mina.ParallelScan.Moves
import Mina.ParallelScan.Chronological

namespace Mina.ParallelScan

open Mina.ParallelScan.Tree State

variable {M B : Type} {h D : Nat} {res : AvailableJob M B → M} {gs : List (Standing B h)} {l : List B}
  {s s' : State M B}

/-! ## Sequence numbers and data -/

theorem Standing.Of.renumber {g : Standing B h} {t : JobTree M B} (hg : g.Of res t) (newSeq : Int → Int) :
    g.Of res (Tree.map (renumberMerge newSeq) (renumberBase newSeq) t) := by
  obtain ⟨fm, fb, rfl, hholds, hsends, htotal⟩ := hg
  refine ⟨_, _, mapDepth_build h 0 _ _ fm fb, ⟨fun l hl i hi => (hholds.merge l hl i hi).renumber,
    fun i hi => (hholds.base i hi).renumber⟩, ⟨fun l hl i hi => ?_, fun l hl i hi => ?_⟩, ?_⟩
  · rw [renumberMerge_weight]
    exact hsends.left l hl i hi
  · rw [renumberMerge_weight]
    exact hsends.right l hl i hi
  · rw [renumberMerge_weight]
    exact htotal

theorem Stands.incrSequenceNo (hs : Stands res D l gs s) : Stands res D l gs (State.incrSequenceNo s) := by
  unfold State.incrSequenceNo
  split
  · refine ⟨hs.depth, hs.delay, hs.room, hs.head.renumber, List.forall₂_map_left_iff.2 ?_⟩
    exact hs.tail.imp fun t g hg => hg.renumber _
  · exact ⟨hs.depth, hs.delay, hs.room, hs.head, hs.tail⟩

theorem Stands.availableSpace (hh : 0 < h) (hs : Stands res D l gs s) :
    s.trees.head.availableSpace.toNat = 2 ^ h - l.length := by
  rw [hs.head.availableSpace hh, Int.toNat_natCast]

theorem Stands.max_le (hs : Stands res D l gs s) : s.maxBaseJobs ≤ 2 ^ h := by
  rw [← hs.depth]
  exact Nat.le_pow_clog Nat.one_lt_two _

/-- Data that leaves room on the current tree. -/
theorem Stands.addData_fill (hh : 0 < h) (hs : Stands res D l gs s) {data : List B}
    (hroom : l.length + data.length < 2 ^ h) (hok : State.addData data s = .ok s') : Stands res D (l ++ data) gs s' := by
  by_cases hnil : data.length = 0
  · rw [State.addData, if_pos hnil] at hok
    cases hok
    rw [List.length_eq_zero_iff.1 hnil, List.append_nil]
    exact hs
  have hspace := hs.head.availableSpace hh
  obtain ⟨t', hupdate, hfill⟩ := hs.head.update s.currJobSeqNo hh hroom.le
  have hle : ¬ (data.length : Int) > s.trees.head.availableSpace := by
    rw [hspace]
    omega
  have hne : ¬ ((data.map (Job.base : B → Job M B)).length : Int) = s.trees.head.availableSpace := by
    rw [hspace, List.length_map]
    omega
  simp only [State.addData, if_neg hnil, check, if_neg hle, hs.depth, hupdate, tag_ok, Exn.andThen_ok, if_neg hne,
    tail_appendTrees] at hok
  cases hok
  exact ⟨hs.depth, hs.delay, by rw [List.length_append]; exact hroom, hfill.resetMerge, hs.tail⟩

/-- Data that makes the current tree full. -/
theorem Stands.addData_full (hh : 0 < h) (hs : Stands res D l gs s) {data : List B}
    (hfull : l.length + data.length = 2 ^ h) (hok : State.addData data s = .ok s') :
    ∃ ds : Nat → B, l ++ data = (List.range (2 ^ h)).map ds ∧
      Stands res D [] (rotated D (blockStanding ds) gs) s' := by
  have hroom := hs.room
  have hspace := hs.head.availableSpace hh
  obtain ⟨t', hupdate, hfill⟩ := hs.head.update s.currJobSeqNo hh hfull.le
  have hnil : ¬ data.length = 0 := by omega
  have hle : ¬ (data.length : Int) > s.trees.head.availableSpace := by
    rw [hspace]
    omega
  have heq : ((data.map (Job.base : B → Job M B)).length : Int) = s.trees.head.availableSpace := by
    rw [hspace, List.length_map]
    omega
  have hlen : (l ++ data).length = 2 ^ h := by rw [List.length_append, hfull]
  have hne : l ++ data ≠ [] := List.ne_nil_of_length_pos (by rw [hlen]; exact Nat.two_pow_pos h)
  simp only [State.addData, if_neg hnil, check, if_neg hle, hs.depth, hupdate, tag_ok, Exn.andThen_ok, if_pos heq,
    tail_appendTrees_cons] at hok
  cases hok
  refine ⟨Pipeline.block (l ++ data) hne, (Pipeline.map_block hne hlen).symm, hs.depth, hs.delay, Nat.two_pow_pos h,
    filling_createTree hh, forall₂_rotated (Standing.reset_of_filling hh hfill fun i hi => ?_) hs.tail⟩
  rw [Pipeline.block, List.getD_eq_getElem _ _ (by rw [hlen]; exact hi), ← List.getElem?_eq_getElem]

/-! ## The jobs of the next round -/

theorem baseTodo_leafIs {o : Option B} {n : BaseNode B} (hn : LeafIs o n.2) :
    (baseTodo n : Option (AvailableJob M B)) = o.map .base := by
  obtain ⟨w, j⟩ := n
  cases o with
  | none =>
    dsimp only [LeafIs] at hn
    rw [hn]
    rfl
  | some d =>
    obtain ⟨seq, hn⟩ := hn
    dsimp only at hn
    rw [hn]
    rfl

theorem Filling.jobs {t : JobTree M B} (hf : Filling h l t) (hl : l.length ≤ 2 ^ h) :
    t.jobsOnLevel h h = l.map .base := by
  obtain ⟨fm, fb, rfl, -, hbase, -⟩ := hf
  have hread := jobsOnLevel_build (h := h) fm fb h
  rw [if_neg (Nat.lt_irrefl h), if_pos rfl, List.filterMap_congr fun i hi =>
    baseTodo_leafIs (hbase i (List.mem_range.1 hi))] at hread
  rw [hread]
  have hmap := congrArg (List.map (AvailableJob.base : B → AvailableJob M B)) (filterMap_getElem? l (2 ^ h))
  rw [List.map_filterMap, List.take_of_length_le hl] at hmap
  exact hmap

theorem workTrees_one (ts : List (JobTree M B)) : workTrees ts 1 = ts := by
  have hall : ∀ p ∈ ts.zipIdx, decide (p.2 % 1 = 1 - 1) = true := fun p _ => by
    rw [Nat.mod_one, decide_eq_true_eq]
  rw [workTrees, List.filter_eq_self.2 hall, List.zipIdx_map_fst]

/-- Without a delay the current tree is the first. -/
theorem work_cons_one (t : JobTree M B) (ts : List (JobTree M B)) (maxBaseJobs : Nat) :
    t.jobsOnLevel (ceilLog2 maxBaseJobs) (ceilLog2 maxBaseJobs) <+: State.work (t :: ts) 1 maxBaseJobs := by
  rw [State.work, workTrees_one, List.take_succ_cons, workToDo, List.zipIdx_cons, List.flatMap_cons]
  dsimp only
  rw [Nat.cast_zero, sub_zero]
  exact List.prefix_append _ _

/-- With a delay the current tree has no turn. -/
theorem work_cons (hD : 2 ≤ D) (t t' : JobTree M B) (ts : List (JobTree M B)) (maxBaseJobs : Nat) :
    State.work (t :: ts) D maxBaseJobs = State.work (t' :: ts) D maxBaseJobs := by
  have hfirst : ¬ 0 % D = D - 1 := by
    rw [Nat.zero_mod]
    omega
  have htrees : workTrees (t :: ts) D = workTrees (t' :: ts) D := by
    simp only [workTrees, List.zipIdx_cons, List.filter_cons, hfirst, decide_false, Bool.false_eq_true, if_false]
  rw [State.work, State.work, htrees]

/-- What is listed for the next round is what the trees have to do after a
full block. -/
theorem Stands.listed_next (hs : Stands res D l gs s) (hsound : Sound D gs) {gs₁ : List (Standing B h)}
    (hnext : 2 ≤ D → workFrom res D 1 gs₁ = workFrom res D 1 gs) {ds : Nat → B} {data : List B}
    (hds : l ++ data = (List.range (2 ^ h)).map ds) {t₀ : JobTree M B} (h₀ : (blockStanding (h := h) ds).Of res t₀)
    {jobs : List (AvailableJob M B)} (hjobs : jobs <+: s.workForTree .next) (hcov : 2 ≤ D ∨ jobs.length ≤ l.length) :
    jobs <+: workFrom res D 0 (rotated D (blockStanding ds) gs₁) := by
  have hD := hs.pos
  have hrest : workFrom res D 1 ((gs₁.zipIdx).map (moved D)) = workFrom res D 1 gs₁ := workFrom_map moved_jobs 1 0 gs₁
  have hlisted : s.workForTree .next = State.work (s.trees.head :: s.trees.tail) (s.delay + 1) s.maxBaseJobs := rfl
  rw [hlisted, hs.delay] at hjobs
  rcases Nat.eq_or_lt_of_le (show 1 ≤ D from hD) with hD1 | hD2
  · -- the current tree is the first, with the data it had
    subst hD1
    have hlen : jobs.length ≤ l.length := hcov.resolve_left (by omega)
    have hfirst := work_cons_one s.trees.head s.trees.tail s.maxBaseJobs
    rw [hs.depth, hs.head.jobs hs.room.le] at hfirst
    have hbase : jobs <+: l.map .base :=
      List.prefix_of_prefix_length_le hjobs hfirst (by rw [List.length_map]; exact hlen)
    have hblock : (Frontier.start h).jobs res ds 0 = (l ++ data).map .base := by
      rw [hds, Frontier.jobs, List.map_map]
      rfl
    have hstart : (blockStanding (h := h) ds).front.jobs res (blockStanding (h := h) ds).ds 0 =
        (Frontier.start h).jobs res ds 0 := rfl
    rw [rotated, workFrom, if_pos (by omega), Nat.zero_div, hstart, hblock, List.map_append, List.append_assoc]
    exact hbase.trans (List.prefix_append _ _)
  · have hdiv : (t₀ :: s.trees.tail).length / D ≤ h + 1 := by
      have hlen := hsound.length
      have hlt : (gs.length + 1) / D < h + 2 := (Nat.div_lt_iff_lt_mul hD).2 (by rw [Nat.add_mul] at hlen ⊢; omega)
      rw [List.length_cons, hs.tail.length_eq]
      omega
    rw [work_cons hD2 _ t₀, work_eq_workFrom hD hs.depth (.cons h₀ hs.tail) hdiv, workFrom,
      if_neg (by rw [Nat.zero_mod]; omega), List.nil_append, Nat.zero_add, ← hnext hD2] at hjobs
    rw [rotated, workFrom, if_neg (by rw [Nat.zero_mod]; omega), List.nil_append, Nat.zero_add, hrest]
    exact hjobs

/-- The jobs that are listed for an update: those of the round, and at most
two of the next one for every place on the next tree. -/
theorem Stands.listed (hh : 0 < h) (hs : Stands res D l gs s) :
    (s.workForNextUpdate s.maxBaseJobs).flatten <+:
      s.workForTree .current ++ (s.workForTree .next).take (2 * (s.maxBaseJobs - (2 ^ h - l.length))) := by
  have hcurrent : s.workForTree .current = State.work s.trees.tail (s.delay + 1) s.maxBaseJobs := rfl
  have hnext : s.workForTree .next = State.work s.trees.toList (s.delay + 1) s.maxBaseJobs := rfl
  simp only [State.workForNextUpdate, hs.head.availableSpace hh, hcurrent, hnext, Nat.min_self, Nat.cast_lt]
  by_cases hlt : 2 ^ h - l.length < s.maxBaseJobs
  · have htake : (((s.maxBaseJobs : Nat) : Int) - ((2 ^ h - l.length : Nat) : Int)) * 2 =
        ((2 * (s.maxBaseJobs - (2 ^ h - l.length)) : Nat) : Int) := by omega
    rw [if_pos hlt, htake, Int.toNat_natCast, List.flatten_filter_not_isEmpty, List.flatten_cons,
      List.flatten_singleton]
  · rw [if_neg hlt]
    refine List.IsPrefix.trans ?_ (List.prefix_append _ _)
    cases hset : (State.work s.trees.tail (s.delay + 1) s.maxBaseJobs).take (2 * s.maxBaseJobs) with
    | nil => exact List.nil_prefix
    | cons j js =>
      rw [if_neg (by simp), List.flatten_singleton, ← hset]
      exact List.take_prefix _ _

/-! ## The update -/

/-- What an accepted update has done, with its last check. -/
theorem update_accepted {data : List B} {completed : List M} {out : Option (M × List B)}
    (hok : State.update data completed s = .ok (out, s')) : data.length ≤ s.maxBaseJobs ∧ ∃ s₁ s₂ b s₄,
      State.addMergeJobs (completed.take (s.workForTree .current).length) (State.incrSequenceNo s) = .ok (out, s₁) ∧
        State.addData (data.take s.trees.head.availableSpace.toNat) s₁ = .ok s₂ ∧
        State.addMergeJobs (completed.drop (s.workForTree .current).length) s₂ = .ok b ∧
        State.addData (data.drop s.trees.head.availableSpace.toNat) b.2 = .ok s₄ ∧
        s₄.trees.tail.length + 1 ≤ s₄.maxTrees ∧ s' = { s₄ with acc := out.or s₄.acc } := by
  have hcurrent : s.workForTree .current = State.work s.trees.tail (s.delay + 1) s.maxBaseJobs := rfl
  rw [hcurrent]
  simp only [State.update, check] at hok
  split at hok
  · cases hok
  next hdata =>
    split at hok
    · cases hok
    next hjobs =>
      obtain ⟨a, h₁, hok⟩ := Exn.andThen_eq_ok.1 hok
      obtain ⟨s₂, h₂, hok⟩ := Exn.andThen_eq_ok.1 hok
      obtain ⟨b, h₃, hok⟩ := Exn.andThen_eq_ok.1 hok
      obtain ⟨s₄, h₄, hok⟩ := Exn.andThen_eq_ok.1 hok
      split at hok
      · cases hok
      next hlen =>
        cases hok
        exact ⟨not_lt.1 hdata, a.2, s₂, b, s₄, h₁, h₂, h₃, h₄, not_lt.1 hlen, rfl⟩

/-- The data in a scan state that stands so, oldest first. -/
theorem Stands.pendingData (hs : Stands res D l gs s) : s.pendingData = blocksData h (gs.map (·.ds)) ++ l := by
  have htail : s.trees.tail.reverse.flatMap Tree.baseJobs = blocksData h (gs.map (·.ds)) := by
    have hdata := hs.tail
    clear hs
    generalize s.trees.tail = ts at hdata
    induction hdata with
    | nil => rfl
    | cons hg _ ih =>
      rw [List.reverse_cons, List.flatMap_append, ih, List.flatMap_singleton, hg.content.data, List.map_cons,
        ← List.singleton_append, blocksData_append]
      exact congrArg (_ ++ ·) (List.flatMap_singleton _ _).symm
  rw [State.pendingData, NonEmptyList.toList, List.reverse_cons, List.flatMap_append, htail, List.flatMap_singleton,
    hs.head.data hs.room.le]

/-- More results than are listed after a full round are refused. -/
theorem Stands.addMergeJobs_nothing (hs : Stands res D l gs s) (hlen : gs.length ≤ (h + 1) * D)
    (hnone : workFrom res D 0 gs = []) {xs : List M} {r : Option (M × List B) × State M B}
    (hok : State.addMergeJobs xs s = .ok r) : r = (none, s) := by
  by_cases hnil : xs = []
  · subst hnil
    cases hok
    rfl
  · have hpos := List.length_pos_iff.2 hnil
    have hmore : (s.workForTree .current).length < xs.length := by
      rw [hs.workForTree hlen, hnone, List.length_nil]
      exact hpos
    obtain ⟨e, he⟩ := addMergeJobs_refused hmore
    rw [he] at hok
    cases hok

/-- With one more tree than there is room for, the second set of results
leaves all of them. -/
theorem Stands.addMergeJobs_overlong (hh : 0 < h) {ds : Nat → B} (hs : Stands res D l (rotated D (blockStanding ds) gs) s)
    (hsound : Sound D gs) (hfull : gs.length = (h + 1) * D) {jobs : List (AvailableJob M B)}
    (hjobs : jobs <+: workFrom res D 0 (rotated D (blockStanding ds) gs)) (hfew : jobs.length ≤ before h h)
    (hone : D = 1 → jobs.length ≤ 2 ^ h) {r : Option (M × List B) × State M B}
    (hok : State.addMergeJobs (jobs.map res) s = .ok r) :
    r.2.trees.tail.length = s.trees.tail.length ∧ r.2.maxTrees = s.maxTrees ∧ r.2.trees.head = s.trees.head ∧
      r.2.maxBaseJobs = s.maxBaseJobs := by
  by_cases hnil : jobs = []
  · subst hnil
    cases hok
    exact ⟨rfl, rfl, rfl, rfl⟩
  have hpos := List.length_pos_iff.2 hnil
  have hlen : (jobs.map res).length = jobs.length := List.length_map _
  obtain ⟨hle, q, hfold⟩ := addMergeJobs_fold (by rw [ne_eq, List.map_eq_nil_iff]; exact hnil) hok
  have hfold' := hfold
  rw [hs.depth, hs.delay] at hfold
  obtain ⟨ts', rest, rfl, hts'⟩ := hsound.fold_overlong hh hs.pos hfull hs.tail (hjobs.map res)
    (by rw [hlen]; exact hfew) (by rw [hlen]; exact hone) hfold
  have hdone := addMergeJobs_none (by omega) hle hfold'
  rw [hok, Except.ok.injEq] at hdone
  subst hdone
  refine ⟨?_, rfl, rfl, rfl⟩
  dsimp only
  split
  · rw [List.length_map, hts']
  · exact hts'

theorem addData_tail {data : List B} (hok : State.addData data s = .ok s') :
    s.trees.tail.length ≤ s'.trees.tail.length ∧ s'.maxTrees = s.maxTrees := by
  rw [State.addData] at hok
  split at hok
  · cases hok
    exact ⟨le_rfl, rfl⟩
  · simp only [check] at hok
    split at hok
    · cases hok
    · obtain ⟨p, -, hok⟩ := Exn.andThen_eq_ok.1 hok
      cases hok
      refine ⟨?_, rfl⟩
      dsimp only
      split
      · rw [tail_appendTrees_cons, List.length_cons]
        exact Nat.le_succ _
      · rw [tail_appendTrees]

/-- Results for the second set of jobs go to other jobs when there is no
delay, unless they are for data that are on the current tree already. -/
def Covered (t : State M B) (_ : List B) (completed : List (AvailableJob M B)) : Prop :=
  1 ≤ t.delay ∨ completed.length ≤ (t.workForTree .current).length + t.trees.head.baseJobs.length

/-- An update keeps the line sound; what comes out, and then what is in the
scan state, is what was in it and what came in. -/
theorem Stands.update (hh : 0 < h) (hs : Stands res D l gs s) (hsound : Sound D gs) {data : List B}
    {completed : List (AvailableJob M B)} {out : Option (M × List B)} (hcall : Call res s data completed out s')
    (hcov : Covered s data completed) :
    ∃ (l' : List B) (gs' : List (Standing B h)), Stands res D l' gs' s' ∧ Sound D gs' ∧
      Pipeline.emitted out ++ s'.pendingData = s.pendingData ++ data ∧
        ∀ o ∈ out, ∃ ds : Nat → B, o = (proof res ds h 0, (List.range (2 ^ h)).map ds) := by
  have hD := hs.pos
  have hroom := hs.room
  have hmax := hs.max_le
  have hcurrent := hs.workForTree hsound.length
  have hlisted := hcall.listed.trans (hs.listed hh)
  obtain ⟨hdata, s₁, s₂, b, s₄, h₁, h₂, h₃, h₄, hlast, rfl⟩ := update_accepted hcall.accepted
  rw [hs.availableSpace hh] at h₂ h₄
  rw [← List.map_take] at h₁
  rw [← List.map_drop] at h₃
  -- the results for the round
  have hjobs₁ : completed.take (s.workForTree .current).length <+: workFrom res D 0 gs := by
    have htake := hlisted.take (s.workForTree .current).length
    rw [List.take_left] at htake
    rw [← hcurrent]
    exact htake
  have hjobs₂ : completed.drop (s.workForTree .current).length <+:
      (s.workForTree .next).take (2 * (s.maxBaseJobs - (2 ^ h - l.length))) := by
    have hdrop := hlisted.drop (s.workForTree .current).length
    rw [List.drop_left] at hdrop
    exact hdrop
  obtain ⟨gs₁, hs₁, hwork₁⟩ := hs.incrSequenceNo.addMergeJobs hh hsound hjobs₁ h₁
  have hlen₁ : (completed.take (s.workForTree .current).length).length = min (workFrom res D 0 gs).length completed.length := by
    rw [List.length_take, hcurrent]
  have hfew : (completed.drop (s.workForTree .current).length).length ≤ before h h := by
    have hle := hjobs₂.length_le.trans (List.length_take_le _ _)
    have hround := before_succ (Nat.le_refl h)
    rw [before_all, Nat.sub_self, Nat.pow_zero] at hround
    omega
  have hpending := hs.pendingData
  have hdata₁ := hwork₁.data
  rcases Nat.lt_or_ge data.length (2 ^ h - l.length) with hlt | hge
  case inl =>
    rw [List.take_of_length_le hlt.le] at h₂
    rw [List.drop_of_length_le hlt.le, addData_nil, Except.ok.injEq] at h₄
    have hs₂ := hs₁.addData_fill hh (by omega) h₂
    -- there are no results left, or all jobs of the round are completed
    have hb : b = (none, s₂) := by
      by_cases hnil : completed.drop (s.workForTree .current).length = []
      · rw [hnil] at h₃
        cases h₃
        rfl
      · rw [List.drop_eq_nil_iff, hcurrent] at hnil
        exact hs₂.addMergeJobs_nothing hwork₁.sound.length (hwork₁.all (by omega)) h₃
    subst hb h₄
    refine ⟨l ++ data, gs₁, ⟨hs₂.depth, hs₂.delay, hs₂.room, hs₂.head, hs₂.tail⟩, hwork₁.sound, ?_, hwork₁.proof⟩
    have hpending₂ : ({ s₂ with acc := out.or s₂.acc } : State M B).pendingData = s₂.pendingData := rfl
    rw [hpending₂, hs₂.pendingData, hpending, ← hdata₁, List.append_assoc, List.append_assoc]
  case inr =>
    have htake : (data.take (2 ^ h - l.length)).length = 2 ^ h - l.length := by
      rw [List.length_take, Nat.min_eq_left hge]
    obtain ⟨ds, hds, hs₂⟩ := hs₁.addData_full hh (by omega) h₂
    obtain ⟨t₀, ts, h₀, -, -⟩ := List.forall₂_cons_right_iff.1 hs₂.tail
    have hcov₂ : 2 ≤ D ∨ (completed.drop (s.workForTree .current).length).length ≤ l.length := by
      refine hcov.imp (fun hdelay => by have := hs.delay; omega) fun hle => ?_
      rw [hs.head.data hroom.le] at hle
      rw [List.length_drop]
      omega
    have hjobs := hs.listed_next hsound hwork₁.next hds h₀ (hjobs₂.trans (List.take_prefix _ _)) hcov₂
    rcases Nat.lt_or_ge gs₁.length ((h + 1) * D) with hspace | hover
    case inl =>
      obtain ⟨out', s₃⟩ := b
      have hsound₂ : Sound D (rotated D (blockStanding ds) gs₁) := hwork₁.sound.rotated hD hspace
      obtain ⟨gs₃, hs₃, hwork₃⟩ := hs₂.addMergeJobs hh hsound₂ hjobs h₃
      -- the root of a tree comes after all other jobs of its round
      have hout : out' = none := by
        by_contra hne
        have := hwork₃.root hne fun x hx _ => hwork₁.sound.toPlaced.rotated_start hD hx
        omega
      subst hout
      have hs₄ := hs₃.addData_fill hh (by rw [List.length_drop, List.length_nil]; omega) h₄
      refine ⟨_, gs₃, ⟨hs₄.depth, hs₄.delay, hs₄.room, hs₄.head, hs₄.tail⟩, hwork₃.sound, ?_, hwork₁.proof⟩
      have hpending₄ : ({ s₄ with acc := out.or s₄.acc } : State M B).pendingData = s₄.pendingData := rfl
      have hblocks : blocksData h (gs₃.map (·.ds)) = blocksData h (gs₁.map (·.ds)) ++ (l ++ data.take (2 ^ h - l.length)) := by
        have hdata₃ := hwork₃.data
        have hmoved : (rotated D (blockStanding ds) gs₁).map (·.ds) = ds :: gs₁.map (·.ds) := by
          rw [rotated, List.map_cons, map_ds fun x => (moved_jobs x).1]
          rfl
        rw [hmoved, ← List.singleton_append, blocksData_append, Pipeline.emitted, Option.elim_none,
          List.nil_append] at hdata₃
        rw [hdata₃, hds]
        exact congrArg (_ ++ ·) (List.flatMap_singleton _ _)
      rw [hpending₄, hs₄.pendingData, hblocks, List.nil_append, hpending, ← hdata₁]
      simp only [List.append_assoc, List.take_append_drop]
    case inr =>
      -- the line has one more tree than there is room for
      have hfull : gs₁.length = (h + 1) * D := Nat.le_antisymm hwork₁.sound.length hover
      obtain ⟨htail, hmaxTrees, -⟩ := hs₂.addMergeJobs_overlong hh hwork₁.sound hfull hjobs hfew
        (fun hone => (hcov₂.resolve_left (by omega)).trans (by omega)) h₃
      obtain ⟨hle, hmax₄⟩ := addData_tail h₄
      have htrees := hs₂.tail.length_eq
      rw [length_rotated] at htrees
      rw [hmax₄, hmaxTrees, hs₂.maxTrees] at hlast
      omega

/-! ## Runs -/

section Runs

variable {maxBaseJobs delay : Nat} {t : State M B}

/-- The scan state at the start. -/
theorem stands_empty (hh : 0 < ceilLog2 maxBaseJobs) (delay : Nat) :
    Stands (h := ceilLog2 maxBaseJobs) res (delay + 1) [] [] (State.empty maxBaseJobs delay : State M B) :=
  ⟨rfl, rfl, Nat.two_pow_pos _, filling_createTree hh, .nil⟩

theorem sound_nil (D : Nat) : Sound D ([] : List (Standing B h)) where
  length := Nat.zero_le _
  idle x hx := by cases hx
  waits x hx := by cases hx
  root x hx := by cases hx
  waiting _ _ := .inl fun x hx => by cases hx
  working := .inr <| .inr ⟨fun x hx => (by cases hx), fun x hx => (by cases hx)⟩

theorem Reachable.stands (hmax : 2 ≤ maxBaseJobs) (hrun : Reachable res maxBaseJobs delay Covered t) :
    ∃ (l : List B) (gs : List (Standing B (ceilLog2 maxBaseJobs))),
      Stands res (delay + 1) l gs t ∧ Sound (delay + 1) gs := by
  have hh : 0 < ceilLog2 maxBaseJobs := Nat.clog_pos Nat.one_lt_two hmax
  induction hrun with
  | empty => exact ⟨[], [], stands_empty hh delay, sound_nil _⟩
  | update _ hcall hcov ih =>
    obtain ⟨l, gs, hs, hsound⟩ := ih
    obtain ⟨l', gs', hs', hsound', -⟩ := hs.update hh hsound hcall hcov
    exact ⟨l', gs', hs', hsound'⟩

variable {op : M → M → M} {f : B → M}

/-- **The chronological fold covers the pending data in order.** In every run
with results for any number of the listed jobs, also one that left work
behind, the fold over what is live in the trees is the product of the pending
data. -/
theorem foldChronological_pendingData (hmax : 2 ≤ maxBaseJobs) (hop : ∀ a b c, op (op a b) c = op a (op b c))
    (hrun : Reachable (jobResult op f) maxBaseJobs delay Covered t) :
    t.foldChronological none (foldStepA op) (foldStepD op f) = product op f t.pendingData := by
  obtain ⟨l, gs, hs, hsound⟩ := hrun.stands hmax
  refine foldChronological_eq fun tree htree => ?_
  rcases List.mem_cons.1 htree with rfl | htree
  · exact hs.head.reads hs.room.le
  · obtain ⟨p, hp⟩ := List.mem_iff_getElem?.1 htree
    obtain ⟨hlt, rfl⟩ := List.getElem?_eq_some_iff.1 hp
    have hlen := hs.tail.length_eq
    have hg := (List.forall₂_iff_get.1 hs.tail).2 p hlt (by omega)
    refine hg.content.reads hop (hsound.root (gs[p], p) ?_)
    rw [List.mem_zipIdx_iff_getElem?]
    exact List.getElem?_eq_getElem _

/-- The states after calls that all satisfy `P`, with the data that went in
and what came out. -/
inductive Run (res : AvailableJob M B → M) (maxBaseJobs delay : Nat)
    (P : State M B → List B → List (AvailableJob M B) → Prop) : List B → List (M × List B) → State M B → Prop
  | empty : Run res maxBaseJobs delay P [] [] (State.empty maxBaseJobs delay)
  | update {t t' : State M B} {data new : List B} {outs : List (M × List B)} {out : Option (M × List B)}
    {completed : List (AvailableJob M B)} : Run res maxBaseJobs delay P data outs t → Call res t new completed out t' →
      P t new completed → Run res maxBaseJobs delay P (data ++ new) (outs ++ out.toList) t'

theorem Run.reachable {P : State M B → List B → List (AvailableJob M B) → Prop} {data : List B}
    {outs : List (M × List B)} (hrun : Run res maxBaseJobs delay P data outs t) :
    Reachable res maxBaseJobs delay P t := by
  induction hrun with
  | empty => exact .empty
  | update _ hcall hP ih => exact ih.update hcall hP

/-- **No data are lost, repeated or reordered.** In every run with results for
any number of the listed jobs, what has come out, and then what is pending, is
what went in; and what comes out is a full block with its product. -/
theorem run_conserves (hmax : 2 ≤ maxBaseJobs) (hop : ∀ a b c, op (op a b) c = op a (op b c)) {data : List B}
    {outs : List (M × List B)} (hrun : Run (jobResult op f) maxBaseJobs delay Covered data outs t) :
    outs.flatMap (·.2) ++ t.pendingData = data ∧
      ∀ o ∈ outs, o.2.length = 2 ^ ceilLog2 maxBaseJobs ∧ product op f o.2 = some o.1 := by
  have hh : 0 < ceilLog2 maxBaseJobs := Nat.clog_pos Nat.one_lt_two hmax
  induction hrun with
  | empty =>
    have hs : Stands (jobResult op f) (delay + 1) [] ([] : List (Standing B (ceilLog2 maxBaseJobs)))
        (State.empty maxBaseJobs delay) := stands_empty hh delay
    refine ⟨?_, fun o ho => by cases ho⟩
    rw [hs.pendingData]
    rfl
  | @update t t' data new outs out completed hrun hcall hcov ih =>
    obtain ⟨l, gs, hs, hsound⟩ := hrun.reachable.stands hmax
    obtain ⟨l', gs', -, -, hpending, hproof⟩ := hs.update hh hsound hcall hcov
    have hemitted : out.toList.flatMap (·.2) = Pipeline.emitted out := by
      cases out <;> simp [Pipeline.emitted]
    refine ⟨?_, fun o ho => ?_⟩
    · rw [List.flatMap_append, hemitted, List.append_assoc, hpending, ← List.append_assoc, ih.1]
    · rcases List.mem_append.1 ho with ho | ho
      · exact ih.2 o ho
      · obtain ⟨ds, rfl⟩ := hproof o (Option.mem_toList.1 ho)
        have hproduct := product_proof (f := f) hop ds (ceilLog2 maxBaseJobs) 0
        simp only [Nat.zero_mul, Nat.zero_add] at hproduct
        exact ⟨by rw [List.length_map, List.length_range], hproduct⟩

end Runs

/-! ## Two runs with lists -/

section Samples

/-- The state after an update with the results of the first `n` listed jobs,
or the state itself when it is refused. -/
def afterCall (data : List Nat) (n : Nat) (t : State (List Nat) Nat) : State (List Nat) Nat :=
  let completed := (t.workForNextUpdate t.maxBaseJobs).flatten.take n
  ((State.update data (completed.map (jobResult (· ++ ·) fun n => [n])) t).toOption.map (·.2)).getD t

theorem call_afterCall (data : List Nat) (n : Nat) (t : State (List Nat) Nat) (out : Option (List Nat × List Nat))
    (hok : State.update data (((t.workForNextUpdate t.maxBaseJobs).flatten.take n).map
      (jobResult (· ++ ·) fun n => [n])) t = .ok (out, afterCall data n t)) :
    Call (jobResult (· ++ ·) fun n => [n]) t data ((t.workForNextUpdate t.maxBaseJobs).flatten.take n) out
      (afterCall data n t) := ⟨List.take_prefix _ _, hok⟩

/-- One of the two base jobs of the oldest tree is left behind. -/
def leftBehind : State (List Nat) Nat :=
  afterCall [6] 0 (afterCall [5] 1 (afterCall [3, 4] 0 (afterCall [1, 2] 0 (State.empty 2 1))))

theorem foldChronological_leftBehind :
    leftBehind.foldChronological none (foldStepA (· ++ ·)) (foldStepD (· ++ ·) fun n => [n]) =
      product (· ++ ·) (fun n => [n]) leftBehind.pendingData := by
  have h₁ := Reachable.empty.update (call_afterCall [1, 2] 0 (State.empty 2 1) none rfl) (P := Covered) (.inl le_rfl)
  have h₂ := h₁.update (call_afterCall [3, 4] 0 _ none rfl) (.inl le_rfl)
  have h₃ := h₂.update (call_afterCall [5] 1 _ none rfl) (.inl le_rfl)
  have h₄ := h₃.update (call_afterCall [6] 0 _ none rfl) (.inl le_rfl)
  exact foldChronological_pendingData (by decide) List.append_assoc h₄

/-- The first block has come out. -/
def firstOut : State (List Nat) Nat :=
  afterCall [9, 10] 3 <| afterCall [7, 8] 2 <| afterCall [5, 6] 2 <| afterCall [3, 4] 0 <| afterCall [1, 2] 0 <|
    State.empty 2 1

theorem run_conserves_firstOut :
    [([1, 2], [1, 2])].flatMap (·.2) ++ firstOut.pendingData = [1, 2, 3, 4, 5, 6, 7, 8, 9, 10] ∧
      ∀ o ∈ [(([1, 2] : List Nat), ([1, 2] : List Nat))],
        o.2.length = 2 ^ ceilLog2 2 ∧ product (· ++ ·) (fun n => [n]) o.2 = some o.1 := by
  have h₁ := Run.empty.update (call_afterCall [1, 2] 0 (State.empty 2 1) none rfl) (P := Covered) (.inl le_rfl)
  have h₂ := h₁.update (call_afterCall [3, 4] 0 _ none rfl) (.inl le_rfl)
  have h₃ := h₂.update (call_afterCall [5, 6] 2 _ none rfl) (.inl le_rfl)
  have h₄ := h₃.update (call_afterCall [7, 8] 2 _ none rfl) (.inl le_rfl)
  have h₅ := h₄.update (call_afterCall [9, 10] 3 _ (some ([1, 2], [1, 2])) rfl) (.inl le_rfl)
  exact run_conserves (by decide) List.append_assoc h₅

end Samples

end Mina.ParallelScan
