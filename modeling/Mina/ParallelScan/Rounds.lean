/-
The trees that are being merged, over one round: the time between two new
trees.

Every `D`th tree is worked on, each one level further than the one before,
and the jobs of a round are done tree by tree from left to right. So `c`
completed jobs say how far every tree is (`progress`), the work that is
listed is what is left of the round's jobs (`work_busy`), and adding the
results of the next jobs moves `c` on (`fold_merges`). When all are done the
weights are reset, and the trees are ready to move one position.
-/
import Mina.ParallelScan.StageFacts

namespace Mina.ParallelScan

open Mina.ParallelScan.Tree State

/-! ## Counting jobs -/

/-- The jobs of the first `k` trees that are worked on in a round. -/
def before (h k : Nat) : Nat := 2 ^ (h + 1) - 2 ^ (h + 1 - k)

theorem before_zero (h : Nat) : before h 0 = 0 := by
  rw [before, Nat.sub_zero, Nat.sub_self]

theorem before_succ {h k : Nat} (hk : k ≤ h) : before h (k + 1) = before h k + 2 ^ (h - k) := by
  have h1 : 2 ^ (h + 1 - k) = 2 ^ (h - k) * 2 := by
    rw [← Nat.pow_succ, Nat.succ_eq_add_one, show h - k + 1 = h + 1 - k by omega]
  have h2 : 2 ^ (h + 1 - k) ≤ 2 ^ (h + 1) := Nat.pow_le_pow_right (by omega) (by omega)
  rw [before, before, show h + 1 - (k + 1) = h - k by omega]
  omega

theorem before_mono {h k k' : Nat} (hk : k ≤ k') : before h k ≤ before h k' := by
  have : 2 ^ (h + 1 - k') ≤ 2 ^ (h + 1 - k) := Nat.pow_le_pow_right (by omega) (by omega)
  rw [before, before]
  omega

theorem before_all (h : Nat) : before h (h + 1) = 2 * 2 ^ h - 1 := by
  rw [before, Nat.sub_self, Nat.pow_zero, Nat.pow_succ, Nat.mul_comm]

/-- The completed jobs of the tree at position `p`, of `c` in the round. -/
def progress (h D c p : Nat) : Nat := if p % D = D - 1 then min (2 ^ (h - p / D)) (c - before h (p / D)) else 0

theorem mod_succ {D p : Nat} (hD : 0 < D) (hp : p % D = D - 1) : (p + 1) / D = p / D + 1 := by
  have hdiv := Nat.div_add_mod p D
  refine Nat.div_eq_of_lt_le ?_ ?_
  · rw [Nat.add_mul, Nat.one_mul, Nat.mul_comm]
    omega
  · rw [Nat.add_mul, Nat.add_mul, Nat.one_mul, Nat.mul_comm]
    omega

theorem mod_succ_ne {D p : Nat} (hD : 0 < D) (hp : p % D ≠ D - 1) : (p + 1) / D = p / D := by
  have hdiv := Nat.div_add_mod p D
  have hlt := Nat.mod_lt p hD
  refine Nat.div_eq_of_lt_le ?_ ?_
  · rw [Nat.mul_comm]
    omega
  · rw [Nat.add_mul, Nat.one_mul, Nat.mul_comm]
    omega

/-- A tree that is worked on, but is not the last there can be, has not come
to its root. -/
theorem div_lt {D h p : Nat} (hD : 0 < D) (hp : p % D = D - 1) (hlt : p + 1 < (h + 1) * D) : p / D < h := by
  have hdiv := Nat.div_add_mod p D
  by_contra hge
  have : h * D ≤ p / D * D := Nat.mul_le_mul_right D (not_lt.1 hge)
  rw [Nat.add_mul, Nat.one_mul] at hlt
  rw [Nat.mul_comm] at hdiv
  omega

/-! ## Trees by position -/

section Stages

variable {M B : Type} (res : AvailableJob M B → M) (h : Nat)

/-- The trees `ts` have the data `dss`, and are at the stages `σ`. -/
def Stages (σ : Nat → Nat × Nat) : List (Nat → B) → List (JobTree M B) → Prop
  | [], [] => True
  | ds :: dss, t :: ts => Stage res ds h (σ 0).1 (σ 0).2 t ∧ Stages (fun p => σ (p + 1)) dss ts
  | _, _ => False

variable {res h} {σ τ : Nat → Nat × Nat} {dss : List (Nat → B)} {ts : List (JobTree M B)}

theorem Stages.length (hst : Stages res h σ dss ts) : ts.length = dss.length := by
  induction dss generalizing σ ts with
  | nil =>
    cases ts with
    | nil => rfl
    | cons t ts => exact hst.elim
  | cons ds dss ih =>
    cases ts with
    | nil => exact hst.elim
    | cons t ts => rw [List.length_cons, List.length_cons, ih hst.2]

theorem Stages.get (hst : Stages res h σ dss ts) {p : Nat} {t : JobTree M B} (ht : ts[p]? = some t) :
    ∃ ds, dss[p]? = some ds ∧ Stage res ds h (σ p).1 (σ p).2 t := by
  induction dss generalizing σ ts p with
  | nil =>
    cases ts with
    | nil => simp at ht
    | cons t ts => exact hst.elim
  | cons ds dss ih =>
    cases ts with
    | nil => exact hst.elim
    | cons t' ts =>
      cases p with
      | zero =>
        rw [List.getElem?_cons_zero, Option.some.injEq] at ht
        subst ht
        exact ⟨ds, rfl, hst.1⟩
      | succ p =>
        rw [List.getElem?_cons_succ] at ht
        obtain ⟨ds', hds, hs⟩ := ih hst.2 ht
        exact ⟨ds', hds, hs⟩

/-- A step on every tree. -/
theorem Stages.map (hst : Stages res h σ dss ts) {g : JobTree M B → JobTree M B}
    (hg : ∀ p < ts.length, ∀ ds t, Stage res ds h (σ p).1 (σ p).2 t → Stage res ds h (τ p).1 (τ p).2 (g t)) :
    Stages res h τ dss (ts.map g) := by
  induction dss generalizing σ τ ts with
  | nil =>
    cases ts with
    | nil => trivial
    | cons t ts => exact hst.elim
  | cons ds dss ih =>
    cases ts with
    | nil => exact hst.elim
    | cons t ts =>
      refine ⟨hg 0 (by simp) ds t hst.1, ih hst.2 fun p hp ds t => hg (p + 1) ?_ ds t⟩
      rw [List.length_cons]
      omega

theorem Stages.congr (hst : Stages res h σ dss ts) (hστ : ∀ p < ts.length, σ p = τ p) : Stages res h τ dss ts := by
  have hmap : Stages res h τ dss (ts.map id) := hst.map fun p hp ds t hs => by
    rw [← hστ p hp]
    exact hs
  rwa [List.map_id] at hmap

/-- The last tree apart. -/
theorem Stages.snoc (hst : Stages res h σ dss ts) (hne : dss ≠ []) :
    ∃ dss₀ ds ts₀ t, dss = dss₀ ++ [ds] ∧ ts = ts₀ ++ [t] ∧ Stages res h σ dss₀ ts₀ ∧
      Stage res ds h (σ dss₀.length).1 (σ dss₀.length).2 t := by
  induction dss generalizing σ ts with
  | nil => exact absurd rfl hne
  | cons ds dss ih =>
    cases ts with
    | nil => exact hst.elim
    | cons t ts =>
      cases dss with
      | nil =>
        cases ts with
        | nil => exact ⟨[], ds, [], t, rfl, rfl, trivial, hst.1⟩
        | cons t' ts => exact hst.2.elim
      | cons ds' dss =>
        obtain ⟨dss₀, ds₀, ts₀, t₀, hdss, hts, hst₀, hs⟩ := ih hst.2 (by simp)
        exact ⟨ds :: dss₀, ds₀, t :: ts₀, t₀, by rw [hdss]; rfl, by rw [hts]; rfl, ⟨hst.1, hst₀⟩, hs⟩

theorem Stages.concat (hst : Stages res h σ dss ts) {ds : Nat → B} {t : JobTree M B}
    (ht : Stage res ds h (σ dss.length).1 (σ dss.length).2 t) : Stages res h σ (dss ++ [ds]) (ts ++ [t]) := by
  induction dss generalizing σ ts with
  | nil =>
    cases ts with
    | nil => exact ⟨ht, trivial⟩
    | cons t' ts => exact hst.elim
  | cons ds' dss ih =>
    cases ts with
    | nil => exact hst.elim
    | cons t' ts => exact ⟨hst.1, ih hst.2 ht⟩

end Stages

/-! ## The work of a round -/

section Work

variable {M B : Type}

theorem workTrees_snoc (ts : List (JobTree M B)) (t : JobTree M B) (D : Nat) :
    workTrees (ts ++ [t]) D = workTrees ts D ++ if ts.length % D = D - 1 then [t] else [] := by
  rw [workTrees, workTrees, List.zipIdx_append, List.filter_append, List.map_append, Nat.zero_add, List.zipIdx_singleton]
  by_cases hp : ts.length % D = D - 1 <;> simp [hp]

theorem workTrees_length {D : Nat} (hD : 0 < D) (ts : List (JobTree M B)) :
    (workTrees ts D).length = ts.length / D := by
  induction ts using List.reverseRecOn with
  | nil => simp [workTrees]
  | append_singleton ts t ih =>
    rw [workTrees_snoc, List.length_append, List.length_append, List.length_singleton, ih]
    by_cases hp : ts.length % D = D - 1
    · rw [if_pos hp, mod_succ hD hp, List.length_singleton]
    · rw [if_neg hp, mod_succ_ne hD hp, List.length_nil, Nat.add_zero]

/-- The trees whose turn it is. -/
theorem workTrees_get {D : Nat} (hD : 0 < D) (ts : List (JobTree M B)) (k : Nat) :
    (workTrees ts D)[k]? = ts[k * D + (D - 1)]? := by
  induction ts using List.reverseRecOn with
  | nil => simp [workTrees]
  | append_singleton ts t ih =>
    have hlen := workTrees_length hD ts
    have hdiv := Nat.div_add_mod ts.length D
    have hmod := Nat.mod_lt ts.length hD
    rw [workTrees_snoc]
    rcases Nat.lt_trichotomy (k * D + (D - 1)) ts.length with hlt | heq | hgt
    · have hk : k < ts.length / D := by
        by_contra hge
        have : ts.length / D * D ≤ k * D := Nat.mul_le_mul_right D (not_lt.1 hge)
        rw [Nat.mul_comm] at hdiv
        omega
      rw [List.getElem?_append_left (by rw [hlen]; exact hk), List.getElem?_append_left hlt, ih]
    · have hp : ts.length % D = D - 1 := by
        rw [← heq, Nat.mul_add_mod', Nat.mod_eq_of_lt (by omega)]
      have hk : ts.length / D = k := by
        rw [← heq, Nat.mul_comm, Nat.mul_add_div hD, Nat.div_eq_of_lt (by omega), Nat.add_zero]
      rw [if_pos hp, List.getElem?_append_right (by rw [hlen, hk]), hlen, hk, Nat.sub_self, heq,
        List.getElem?_append_right (le_refl ts.length), Nat.sub_self]
    · have hk : ts.length / D ≤ k := by
        by_contra hlt
        have : (k + 1) * D ≤ ts.length / D * D := Nat.mul_le_mul_right D (by omega)
        rw [Nat.mul_comm] at hdiv
        rw [Nat.add_mul, Nat.one_mul] at this
        omega
      have hnone : (ts ++ [t])[k * D + (D - 1)]? = none :=
        List.getElem?_eq_none (by rw [List.length_append, List.length_singleton]; omega)
      rw [hnone, List.getElem?_append_right (by rw [hlen]; exact hk)]
      by_cases hp : ts.length % D = D - 1
      · have : k ≠ ts.length / D := by
          rintro rfl
          rw [Nat.mul_comm] at hgt
          omega
        rw [if_pos hp, hlen, List.getElem?_eq_none (by rw [List.length_singleton]; omega)]
      · rw [if_neg hp]
        rfl

theorem flatMap_zipIdx {α β : Type*} (f : α × Nat → List β) (l : List α) :
    l.zipIdx.flatMap f = (List.range l.length).flatMap fun k => (l[k]?).elim [] fun t => f (t, k) := by
  induction l using List.reverseRecOn with
  | nil => rfl
  | append_singleton l t ih =>
    rw [List.zipIdx_append, List.flatMap_append, ih, List.length_append, List.length_singleton, List.range_succ,
      List.flatMap_append, Nat.zero_add, List.zipIdx_singleton]
    congr 1
    · refine List.flatMap_congr fun k hk => ?_
      rw [List.getElem?_append_left (List.mem_range.1 hk)]
    · simp

theorem ceilLog2_pow (h : Nat) : ceilLog2 (2 ^ h) = h := Nat.clog_pow 2 h (by norm_num)

/-- The work on trees whose `k`th one to work on has `jobs k` to do. -/
theorem work_eq {D h : Nat} (hD : 0 < D) {ts : List (JobTree M B)} (jobs : Nat → List (AvailableJob M B))
    (hlen : ts.length / D ≤ h + 1)
    (hjobs : ∀ k ≤ h, ∀ t, ts[k * D + (D - 1)]? = some t → t.jobsOnLevel h (h - k : Nat) = jobs k) :
    work ts D (2 ^ h) = (List.range (ts.length / D)).flatMap jobs := by
  have hwl := workTrees_length hD ts
  rw [work, workToDo, ceilLog2_pow, flatMap_zipIdx, List.take_of_length_le (by rw [hwl]; exact hlen), hwl]
  refine List.flatMap_congr fun k hk => ?_
  rw [List.mem_range] at hk
  have hsome : k < (workTrees ts D).length := by rw [hwl]; exact hk
  rw [List.getElem?_eq_getElem hsome]
  have hget := workTrees_get hD ts k
  rw [List.getElem?_eq_getElem hsome] at hget
  have hle : k ≤ h := by omega
  rw [Option.elim_some, ← hjobs k hle _ hget.symm, Nat.cast_sub hle]

/-- The stages of the trees when `c` jobs of the round are completed. -/
def busyAt (h D c p : Nat) : Nat × Nat := (p / D, progress h D c p)

/-- The stages of the trees when all jobs of the round are completed. -/
def finishedAt (D p : Nat) : Nat × Nat := (if p % D = D - 1 then p / D + 1 else p / D, 0)

theorem finishedAt_succ {D : Nat} (hD : 0 < D) (p : Nat) : finishedAt D p = ((p + 1) / D, 0) := by
  rw [finishedAt]
  by_cases hp : p % D = D - 1
  · rw [if_pos hp, mod_succ hD hp]
  · rw [if_neg hp, mod_succ_ne hD hp]

variable (res : AvailableJob M B → M) (h D : Nat)

/-- The jobs of the `k`th tree that is worked on. -/
def blockJobs (dss : List (Nat → B)) (k : Nat) : List (AvailableJob M B) :=
  (dss[k * D + (D - 1)]?).elim [] fun ds => (List.range (2 ^ (h - k))).map (job res ds k)

/-- The jobs of a round, in the order in which they are done. -/
def roundJobs (dss : List (Nat → B)) : List (AvailableJob M B) :=
  (List.range (dss.length / D)).flatMap (blockJobs res h D dss)

variable {res h D} {dss : List (Nat → B)}

theorem position_lt (hD : 0 < D) {k n : Nat} (hk : k < n / D) : k * D + (D - 1) < n := by
  have h1 : (k + 1) * D ≤ n / D * D := Nat.mul_le_mul_right D hk
  have h2 := Nat.div_mul_le_self n D
  rw [Nat.add_mul, Nat.one_mul] at h1
  omega

theorem position_mod (hD : 0 < D) (k : Nat) : (k * D + (D - 1)) % D = D - 1 := by
  rw [Nat.mul_add_mod', Nat.mod_eq_of_lt (by omega)]

theorem position_div (hD : 0 < D) (k : Nat) : (k * D + (D - 1)) / D = k := by
  rw [Nat.mul_comm, Nat.mul_add_div hD, Nat.div_eq_of_lt (by omega), Nat.add_zero]

theorem length_blockJobs (hD : 0 < D) {k : Nat} (hk : k < dss.length / D) :
    (blockJobs res h D dss k).length = 2 ^ (h - k) := by
  rw [blockJobs, List.getElem?_eq_getElem (position_lt hD hk), Option.elim_some, List.length_map, List.length_range]

theorem length_flatMap_blocks (hD : 0 < D) {K : Nat} (hK : K ≤ dss.length / D) (hh : K ≤ h + 1) :
    ((List.range K).flatMap (blockJobs res h D dss)).length = before h K := by
  induction K with
  | zero => rw [before_zero]; rfl
  | succ K ih =>
    rw [List.range_succ, List.flatMap_append, List.length_append, ih (by omega) (by omega), before_succ (by omega),
      List.flatMap_singleton, length_blockJobs hD (by omega)]

theorem length_roundJobs (hD : 0 < D) (hh : dss.length / D ≤ h + 1) :
    (roundJobs res h D dss).length = before h (dss.length / D) := length_flatMap_blocks hD le_rfl hh

/-- Dropping the first jobs of a round, tree by tree. -/
theorem drop_blocks (hD : 0 < D) (c : Nat) {K : Nat} (hK : K ≤ dss.length / D) (hh : K ≤ h + 1) :
    (List.range K).flatMap (fun k => (blockJobs res h D dss k).drop (min (2 ^ (h - k)) (c - before h k))) =
      ((List.range K).flatMap (blockJobs res h D dss)).drop c := by
  induction K with
  | zero => simp
  | succ K ih =>
    rw [List.range_succ, List.flatMap_append, List.flatMap_append, ih (by omega) (by omega), List.drop_append,
      length_flatMap_blocks hD (by omega) (by omega), List.flatMap_singleton, List.flatMap_singleton]
    congr 1
    have hlen : (blockJobs res h D dss K).length = 2 ^ (h - K) := length_blockJobs hD (by omega)
    rcases Nat.le_total (2 ^ (h - K)) (c - before h K) with hle | hle
    · rw [Nat.min_eq_left hle, List.drop_eq_nil_of_le (by omega), List.drop_eq_nil_of_le (by omega)]
    · rw [Nat.min_eq_right hle]

/-- A job of a round. -/
theorem roundJobs_get (hD : 0 < D) (hh : dss.length / D ≤ h + 1) {p : Nat} {ds : Nat → B} (hds : dss[p]? = some ds)
    (hp : p % D = D - 1) {i : Nat} (hi : i < 2 ^ (h - p / D)) :
    (roundJobs res h D dss)[before h (p / D) + i]? = some (job res ds (p / D) i) := by
  have hpos : p / D * D + (D - 1) = p := by
    have := Nat.div_add_mod p D
    rw [Nat.mul_comm] at this
    omega
  have hlt : p < dss.length := (List.getElem?_eq_some_iff.1 hds).1
  have hk : p / D < dss.length / D := by
    by_contra hge
    have h1 : dss.length / D * D ≤ p / D * D := Nat.mul_le_mul_right D (not_lt.1 hge)
    have h2 := Nat.div_add_mod dss.length D
    have h3 := Nat.mod_lt dss.length hD
    rw [Nat.mul_comm] at h2
    omega
  have hblock : blockJobs res h D dss (p / D) = (List.range (2 ^ (h - p / D))).map (job res ds (p / D)) := by
    rw [blockJobs, hpos, hds, Option.elim_some]
  have hsplit : List.range (dss.length / D) =
      List.range (p / D) ++ (p / D) :: (List.range' (p / D + 1) (dss.length / D - (p / D + 1))) := by
    have hrest := List.range'_append_1 (s := 0) (m := p / D) (n := dss.length / D - (p / D + 1) + 1)
    rw [Nat.zero_add, show p / D + (dss.length / D - (p / D + 1) + 1) = dss.length / D by omega] at hrest
    rw [List.range_eq_range', List.range_eq_range', ← List.range'_succ, hrest]
  have hlen : ((List.range (p / D)).flatMap (blockJobs res h D dss)).length = before h (p / D) :=
    length_flatMap_blocks hD (by omega) (by omega)
  rw [roundJobs, hsplit, List.flatMap_append, List.flatMap_cons, List.getElem?_append_right (by omega), hlen,
    Nat.add_sub_cancel_left, hblock, List.getElem?_append_left (by rw [List.length_map, List.length_range]; exact hi),
    List.getElem?_map, List.getElem?_range hi]
  rfl

variable {ts : List (JobTree M B)} {c : Nat}

theorem Stage.content {ds : Nat → B} {k m : Nat} {t : JobTree M B} (hst : Stage res ds h k m t) :
    Content res ds h (slot k m) t := by
  obtain ⟨fm, fb, ht, hholds, -⟩ := hst
  exact ⟨fm, fb, ht, hholds⟩

/-- The work that is listed is what is left of the round. -/
theorem work_busy (hD : 0 < D) (hst : Stages res h (busyAt h D c) dss ts) (hlen : dss.length ≤ (h + 1) * D) :
    work ts D (2 ^ h) = (roundJobs res h D dss).drop c := by
  have hK : dss.length / D ≤ h + 1 := (Nat.div_le_div_right hlen).trans (by rw [Nat.mul_div_cancel _ hD])
  have hl := hst.length
  rw [roundJobs, ← drop_blocks hD c le_rfl hK, work_eq hD _ (by rw [hl]; exact hK), hl]
  intro k hk t ht
  obtain ⟨ds, hds, hs⟩ := hst.get ht
  simp only [busyAt, progress, position_mod hD, position_div hD, if_true] at hs
  rw [hs.content.jobsOnLevel hk, blockJobs, hds, Option.elim_some, List.map_drop]

theorem work_finished (hD : 0 < D) (hst : Stages res h (finishedAt D) dss ts) (hlen : dss.length < (h + 1) * D) :
    work ts D (2 ^ h) = [] := by
  have hK : dss.length / D ≤ h + 1 := (Nat.div_le_div_right hlen.le).trans (by rw [Nat.mul_div_cancel _ hD])
  have hl := hst.length
  rw [work_eq hD (fun _ => []) (by rw [hl]; exact hK)]
  · simp
  intro k hk t ht
  obtain ⟨ds, hds, hs⟩ := hst.get ht
  have hlt := div_lt (h := h) hD (position_mod hD k) (by
    have := (List.getElem?_eq_some_iff.1 ht).1
    omega)
  rw [position_div hD] at hlt
  simp only [finishedAt, position_mod hD, position_div hD, if_true] at hs
  exact hs.content.jobsOnLevel_below (by omega) (by omega)

/-- The work of the next round, before the current tree moves. -/
theorem work_next (hD : 2 ≤ D) {σ : Nat → Nat × Nat} (hst : Stages res h σ dss ts)
    (hσ : ∀ p, p % D ≠ D - 1 → σ p = (p / D, 0)) (hlen : dss.length ≤ (h + 1) * D) (t : JobTree M B) (ds : Nat → B) :
    work (t :: ts) D (2 ^ h) = roundJobs res h D (ds :: dss) := by
  have hl := hst.length
  have hK : (dss.length + 1) / D ≤ h + 1 := by
    have : (dss.length + 1) / D < h + 2 := (Nat.div_lt_iff_lt_mul (by omega)).2 (by rw [Nat.add_mul] at hlen ⊢; omega)
    omega
  rw [roundJobs, List.length_cons, work_eq (by omega) _ (by rw [List.length_cons, hl]; exact hK), List.length_cons, hl]
  intro k hk t' ht'
  have hpos : k * D + (D - 1) = k * D + (D - 2) + 1 := by omega
  rw [hpos, List.getElem?_cons_succ] at ht'
  obtain ⟨ds', hds', hs⟩ := hst.get ht'
  have hmod : (k * D + (D - 2)) % D = D - 2 := by rw [Nat.mul_add_mod', Nat.mod_eq_of_lt (by omega)]
  have hdiv : (k * D + (D - 2)) / D = k := by
    rw [Nat.mul_comm, Nat.mul_add_div (by omega), Nat.div_eq_of_lt (by omega), Nat.add_zero]
  rw [hσ _ (by omega), hdiv] at hs
  rw [hs.content.jobsOnLevel hk, List.drop_zero, blockJobs, hpos, List.getElem?_cons_succ, hds', Option.elim_some]

end Work

end Mina.ParallelScan
