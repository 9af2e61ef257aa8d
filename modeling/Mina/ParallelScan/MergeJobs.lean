/-
The fold of `add_merge_jobs` over the trees that are being merged.

The results of the next jobs of the round move every tree to where it should
be (`fold_merges`). The last tree there can be comes to its root with the
last job of a round (`addMergeJobsStep_root`), and when the round is
completed, resetting the weights readies the others to move
(`stages_reset`).
-/
import Mina.ParallelScan.Rounds

namespace Mina.ParallelScan

open Mina.ParallelScan.Tree State

variable {M B : Type} {res : AvailableJob M B → M} {h D c n : Nat} (seqNo : Int) {xs : List M}

/-- `xs` has the results of the jobs of the tree at position `n`, as far as
they come after the first `c` jobs of the round. -/
def ResultsAt (res : AvailableJob M B → M) (h D c : Nat) (xs : List M) (n : Nat) (ds : Nat → B) : Prop :=
  n % D = D - 1 → ∀ i < 2 ^ (h - n / D), c ≤ before h (n / D) + i → before h (n / D) + i < c + xs.length →
    xs[before h (n / D) + i - c]? = some (proof res ds (n / D) i)

/-! ## One tree -/

/-- The jobs for a tree that is worked on. -/
theorem taken_results {ds : Nat → B} (hres : ResultsAt res h D c xs n ds) (hn : n % D = D - 1) {q : Nat}
    (hq : q < ((xs.drop (before h (n / D) - c)).take (2 ^ (h - n / D) - progress h D c n)).length) :
    ((xs.drop (before h (n / D) - c)).take (2 ^ (h - n / D) - progress h D c n))[q]? =
      some (proof res ds (n / D) (progress h D c n + q)) := by
  rw [progress, if_pos hn] at hq ⊢
  rw [List.length_take, List.length_drop] at hq
  rw [List.getElem?_take_of_lt (by omega), List.getElem?_drop]
  have hget := hres hn (min (2 ^ (h - n / D)) (c - before h (n / D)) + q) (by omega) (by omega) (by omega)
  rw [← hget]
  congr 1
  omega

theorem progress_add (hn : n % D = D - 1) :
    progress h D c n + ((xs.drop (before h (n / D) - c)).take (2 ^ (h - n / D) - progress h D c n)).length =
      progress h D (c + xs.length) n := by
  simp only [progress, if_pos hn, List.length_take, List.length_drop]
  omega

/-- One step of the fold, for a tree that does not come to its root. -/
theorem addMergeJobsStep_ok (hh : 0 < h) (hD : 0 < D) {ds : Nat → B} {t : JobTree M B} (done : List (JobTree M B))
    (hst : Stage res ds h (n / D) (progress h D c n) t) (hres : ResultsAt res h D c xs n ds)
    (hn : n + 1 < (h + 1) * D) :
    ∃ t', addMergeJobsStep h D seqNo (done, none, (xs.map Job.merge).drop (before h (n / D) - c)) (t, n) =
        .ok (t' :: done, none, (xs.map Job.merge).drop (before h ((n + 1) / D) - c)) ∧
      Stage res ds h (n / D) (progress h D (c + xs.length) n) t' := by
  by_cases hturn : n % D = D - 1
  case neg =>
    refine ⟨t, ?_, ?_⟩
    · rw [addMergeJobsStep, if_neg fun hn => hturn hn.1, mod_succ_ne hD hturn]
    · rw [progress, if_neg hturn] at hst ⊢
      exact hst
  have hk := div_lt hD hturn hn
  have hnext := before_succ hk.le
  have hle : before h (n / D) ≤ before h (n / D + 1) := before_mono (Nat.le_succ _)
  rw [mod_succ hD hturn]
  by_cases hempty : ((xs.map (Job.merge : M → Job M B)).drop (before h (n / D) - c)).isEmpty
  case pos =>
    have hlen : xs.length ≤ before h (n / D) - c := by
      rw [List.isEmpty_iff, List.drop_eq_nil_iff, List.length_map] at hempty
      exact hempty
    refine ⟨t, ?_, ?_⟩
    · rw [addMergeJobsStep, if_neg fun hn => hn.2 hempty, List.isEmpty_iff.1 hempty,
        List.drop_eq_nil_of_le (by rw [List.length_map]; omega)]
    · have hsame : progress h D (c + xs.length) n = progress h D c n := by
        simp only [progress, if_pos hturn]
        omega
      rw [hsame]
      exact hst
  have hprogress : progress h D c n ≤ 2 ^ (h - n / D) := by
    rw [progress, if_pos hturn]
    exact Nat.min_le_left _ _
  have hrequired := hst.requiredJobCount hh hk.le (fun e => absurd e (Nat.ne_of_lt hk))
  obtain ⟨t', hok, -, hst'⟩ := hst.update seqNo ((xs.drop (before h (n / D) - c)).take
    (2 ^ (h - n / D) - progress h D c n)) hh hk.le (by rw [List.length_take]; omega)
    (fun q hq => taken_results hres hturn hq)
  refine ⟨t', ?_, by rw [← progress_add hturn]; exact hst' (.inl hk)⟩
  have hlevel : ((h : Int) - (n / D : Nat)) = ((h - n / D : Nat) : Int) := by rw [Nat.cast_sub hk.le]
  have hroot : ¬ (h = n / D ∧ progress h D c n ≤ 0 ∧ 0 < progress h D c n +
      ((xs.drop (before h (n / D) - c)).take (2 ^ (h - n / D) - progress h D c n)).length) := by omega
  rw [addMergeJobsStep, if_pos ⟨hturn, hempty⟩, hrequired, Int.toNat_natCast, hlevel, ← List.map_drop, ← List.map_take,
    hok, if_neg hroot, tag_ok, Exn.andThen_ok, ← List.map_drop, List.drop_drop]
  have hdrop : before h (n / D) - c + (2 ^ (h - n / D) - progress h D c n) = before h (n / D + 1) - c := by
    rw [progress, if_pos hturn]
    omega
  rw [hdrop, List.map_drop]

/-! ## All trees -/

theorem fold_merges (hh : 0 < h) (hD : 0 < D) {dss : List (Nat → B)} {ts : List (JobTree M B)} (n : Nat)
    (done : List (JobTree M B)) (hst : Stages res h (fun p => busyAt h D c (n + p)) dss ts)
    (hres : ∀ p ds, dss[p]? = some ds → ResultsAt res h D c xs (n + p) ds) (hn : n + ts.length < (h + 1) * D) :
    ∃ ts', Exn.fold (addMergeJobsStep h D seqNo) (done, none, (xs.map Job.merge).drop (before h (n / D) - c))
        (ts.zipIdx n) =
          .ok (ts'.reverse ++ done, none, (xs.map Job.merge).drop (before h ((n + ts.length) / D) - c)) ∧
      Stages res h (fun p => busyAt h D (c + xs.length) (n + p)) dss ts' := by
  induction dss generalizing ts n done with
  | nil =>
    cases ts with
    | nil => exact ⟨[], rfl, trivial⟩
    | cons t ts => exact hst.elim
  | cons ds dss ih =>
    cases ts with
    | nil => exact hst.elim
    | cons t ts =>
      rw [List.length_cons] at hn
      have hstep := @addMergeJobsStep_ok M B res h D c n seqNo xs hh hD ds t done hst.1 (hres 0 ds rfl) (by omega)
      obtain ⟨t', hok, ht'⟩ := hstep
      have hshift : ∀ c, (fun p => busyAt h D c (n + (p + 1))) = fun p => busyAt h D c (n + 1 + p) := fun c => by
        funext p
        rw [Nat.add_right_comm, Nat.add_assoc]
      obtain ⟨ts', hoks, hts'⟩ := ih (n + 1) (t' :: done) (by rw [← hshift]; exact hst.2)
        (fun p ds hds => by
          rw [Nat.add_right_comm, Nat.add_assoc]
          exact hres (p + 1) ds hds) (by omega)
      refine ⟨t' :: ts', ?_, ht', by rw [hshift]; exact hts'⟩
      rw [List.zipIdx_cons, Exn.fold, hok, Exn.andThen_ok, hoks, List.length_cons, Nat.add_right_comm n 1,
        Nat.add_assoc n]
      simp

/-- The first `n` jobs that are left give the results they should. -/
theorem resultsAt_take {dss : List (Nat → B)} (hD : 0 < D) (hlen : dss.length / D ≤ h + 1) {p : Nat} {ds : Nat → B}
    (hds : dss[p]? = some ds) (n : Nat) :
    ResultsAt res h D c ((((roundJobs res h D dss).drop c).take n).map res) p ds := by
  intro hp i hi hc hlt
  have hget : (roundJobs res h D dss)[before h (p / D) + i]? = _ := roundJobs_get hD hlen hds hp hi
  have hbound := (List.getElem?_eq_some_iff.1 hget).1
  rw [List.length_map, List.length_take] at hlt
  rw [List.getElem?_map, List.getElem?_take_of_lt (by omega), List.getElem?_drop, Nat.add_sub_cancel' hc, hget,
    proof_eq]
  rfl

/-! ## The last tree there can be -/

theorem root_div (hD : 0 < D) (hn : n + 1 = (h + 1) * D) : n % D = D - 1 ∧ n / D = h := by
  have hn' : n = h * D + (D - 1) := by
    rw [Nat.add_mul, Nat.one_mul] at hn
    omega
  exact ⟨hn' ▸ position_mod hD h, hn' ▸ position_div hD h⟩

/-- With the last job of the round it comes to its root. -/
theorem addMergeJobsStep_root (hh : 0 < h) (hD : 0 < D) {ds : Nat → B} {t : JobTree M B} (done : List (JobTree M B))
    (hst : Stage res ds h (n / D) (progress h D c n) t) (hres : ResultsAt res h D c xs n ds)
    (hn : n + 1 = (h + 1) * D) (hc : c ≤ before h h) (hlen : c + xs.length = before h (h + 1)) :
    ∃ t' jobs, addMergeJobsStep h D seqNo (done, none, (xs.map Job.merge).drop (before h (n / D) - c)) (t, n) =
        .ok (t' :: done, some (proof res ds h 0), jobs) ∧
      t'.baseJobs = (List.range (2 ^ h)).map ds := by
  obtain ⟨hturn, hk⟩ := root_div hD hn
  have hnone : progress h D c n = 0 := by
    rw [progress, if_pos hturn, hk, Nat.sub_eq_zero_of_le hc, Nat.min_zero]
  have hone := before_succ (Nat.le_refl h)
  rw [Nat.sub_self, Nat.pow_zero] at hone
  have hx := hres hturn 0 (by rw [hk, Nat.sub_self]; exact Nat.one_pos) (by rw [hk]; omega) (by rw [hk]; omega)
  rw [hk, Nat.add_zero] at hx
  rw [hnone, hk] at hst
  have hlast : xs.drop (before h h - c) = [proof res ds h 0] := by
    rw [List.drop_eq_getElem_cons (by omega), List.drop_eq_nil_of_le (by omega)]
    rw [List.getElem?_eq_getElem (by omega), Option.some.injEq] at hx
    rw [hx]
  have hrequired := hst.requiredJobCount hh le_rfl fun _ => rfl
  obtain ⟨t', hok, hcontent, -⟩ := hst.update seqNo [proof res ds h 0] hh le_rfl (by simp) (by simp)
  rw [Nat.sub_self, Nat.pow_zero, Nat.sub_zero] at hrequired
  rw [Nat.sub_self, if_pos ⟨rfl, le_rfl, by simp⟩] at hok
  refine ⟨t', [], ?_, hcontent.baseJobs⟩
  have hlevel : ((h : Int) - (h : Nat)) = ((0 : Nat) : Int) := by omega
  rw [addMergeJobsStep, hk, ← List.map_drop, hlast, if_pos ⟨hturn, by simp⟩, hrequired, hlevel]
  simp only [List.map_cons, List.map_nil, Int.toNat_natCast, List.take_succ_cons, List.take_nil] at hok ⊢
  rw [hok, tag_ok, Exn.andThen_ok]
  rfl

/-- Before that, no job is left for it. -/
theorem addMergeJobsStep_idle (done : List (JobTree M B)) {jobs : List (Job M B)} (hjobs : jobs = []) (t : JobTree M B) :
    addMergeJobsStep h D seqNo (done, none, jobs) (t, n) = .ok (t :: done, none, []) := by
  rw [hjobs, addMergeJobsStep, if_neg fun hn => hn.2 rfl]

/-! ## Resetting the weights -/

/-- When the whole round is completed, resetting the weights readies the
trees to move. -/
theorem stages_reset (hh : 0 < h) (hD : 0 < D) {dss : List (Nat → B)} {ts : List (JobTree M B)}
    (hst : Stages res h (busyAt h D c) dss ts) (hc : ∀ k < ts.length / D, before h (k + 1) ≤ c)
    (hlen : ts.length < (h + 1) * D) : Stages res h (finishedAt D) dss (ts.map (Tree.resetWeights .merge)) := by
  refine hst.map fun p hp ds t hs => ?_
  by_cases hturn : p % D = D - 1
  · have hk := div_lt (h := h) hD hturn (by omega)
    have hlt : p / D < ts.length / D := by
      rw [← Nat.succ_le_iff, Nat.succ_eq_add_one, ← mod_succ hD hturn]
      exact Nat.div_le_div_right hp
    have hfull := hc (p / D) hlt
    rw [before_succ hk.le] at hfull
    simp only [busyAt, progress, if_pos hturn] at hs
    simp only [finishedAt, if_pos hturn]
    rw [Nat.min_eq_left (by omega)] at hs
    exact (hs.content.next hk).reset hh hk
  · have hk : p / D ≤ h := by
      have : p / D < h + 1 := (Nat.div_lt_iff_lt_mul hD).2 (by omega)
      omega
    simp only [busyAt, progress, if_neg hturn] at hs
    simp only [finishedAt, if_neg hturn]
    exact hs.content.reset hh hk

/-! ## The operation -/

section Operation

variable {s : State M B} {ts : List (JobTree M B)} {rest : List (Job M B)}

theorem addMergeJobs_none (hne : xs.length ≠ 0) (hle : xs.length ≤ (s.workForTree .current).length)
    (hfold : Exn.fold (addMergeJobsStep (ceilLog2 s.maxBaseJobs) (s.delay + 1) s.currJobSeqNo)
      ([], none, xs.map Job.merge) s.trees.tail.zipIdx = .ok (ts.reverse, none, rest)) :
    addMergeJobs xs s = .ok (none, { s with trees := ⟨s.trees.head,
      if ts.length + 1 < s.maxTrees ∧ xs.length = (s.workForTree .current).length then
        ts.map (Tree.resetWeights .merge) else ts⟩ }) := by
  have hcheck : ¬ (xs.map (Job.merge : M → Job M B)).length > (s.workForTree .current).length := by
    rw [List.length_map]
    omega
  simp only [addMergeJobs, if_neg hne, check, if_neg hcheck, hfold, Exn.andThen_ok, List.reverse_reverse,
    List.length_cons]
  simp

theorem addMergeJobs_some (hne : xs.length ≠ 0) (hle : xs.length ≤ (s.workForTree .current).length) {t : JobTree M B}
    {out : M}
    (hfold : Exn.fold (addMergeJobsStep (ceilLog2 s.maxBaseJobs) (s.delay + 1) s.currJobSeqNo)
      ([], none, xs.map Job.merge) s.trees.tail.zipIdx = .ok (t :: ts.reverse, some out, rest)) :
    addMergeJobs xs s = .ok (some (out, t.baseJobs),
      { s with trees := ⟨s.trees.head, ts.map (Tree.resetWeights .merge)⟩ }) := by
  have hcheck : ¬ (xs.map (Job.merge : M → Job M B)).length > (s.workForTree .current).length := by
    rw [List.length_map]
    omega
  simp only [addMergeJobs, if_neg hne, check, if_neg hcheck, hfold, Exn.andThen_ok, List.reverse_reverse,
    Option.isSome_some, true_or, if_true]

/-- More results than there are jobs are refused. -/
theorem addMergeJobs_refused (hlt : (s.workForTree .current).length < xs.length) :
    ∃ e, addMergeJobs xs s = .error e := by
  have hcheck : (xs.map (Job.merge : M → Job M B)).length > (s.workForTree .current).length := by
    rw [List.length_map]
    exact hlt
  simp only [addMergeJobs, if_neg (show ¬ xs.length = 0 by omega), check, if_pos hcheck]
  exact ⟨_, rfl⟩

end Operation

end Mina.ParallelScan
