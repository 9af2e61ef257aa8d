/-
The nested trees of the scan state, level by level.

A tree of depth `h` is `build h 0 fm fb`: the function `fm` gives the node at
each level and index, and `fb` each leaf. Every traversal of the nested type
has one lemma that says what it does to these two functions, so that nothing
after this module sees a pair of pairs.
-/
import Mina.ParallelScan.State

namespace Mina.ParallelScan.Tree

variable {M N B C D W R A : Type}

/-- The tree with `h` levels below level `d`, from its nodes and leaves. -/
def build : (h d : Nat) → {M B : Type} → (Nat → Nat → M) → (Nat → B) → Tree M B
  | 0, _, _, _, _, fb => .leaf (fb 0)
  | h + 1, d, _, _, fm, fb =>
    .node d (fm 0 0)
      (build h (d + 1) (fun l i => (fm (l + 1) (2 * i), fm (l + 1) (2 * i + 1)))
        fun i => (fb (2 * i), fb (2 * i + 1)))

theorem double_lt {i l : Nat} (hi : i < 2 ^ l) : 2 * i < 2 ^ (l + 1) ∧ 2 * i + 1 < 2 ^ (l + 1) := by
  rw [Nat.pow_succ]
  omega

theorem build_congr {h d : Nat} {fm fm' : Nat → Nat → M} {fb fb' : Nat → B}
    (hm : ∀ l < h, ∀ i < 2 ^ l, fm l i = fm' l i) (hb : ∀ i < 2 ^ h, fb i = fb' i) :
    build h d fm fb = build h d fm' fb' := by
  induction h generalizing d M B with
  | zero => rw [build, build, hb 0 (by simp)]
  | succ h ih =>
    rw [build, build, hm 0 (by omega) 0 (by simp)]
    refine congrArg _ (ih (fun l hl i hi => ?_) fun i hi => ?_)
    · rw [hm (l + 1) (by omega) _ (double_lt hi).1, hm (l + 1) (by omega) _ (double_lt hi).2]
    · rw [hb _ (double_lt hi).1, hb _ (double_lt hi).2]

theorem mapDepth_build (h d : Nat) (fMerge : Nat → M → N) (fBase : B → C) (fm : Nat → Nat → M) (fb : Nat → B) :
    mapDepth fMerge fBase (build h d fm fb) =
      build h d (fun l i => fMerge (d + l) (fm l i)) fun i => fBase (fb i) := by
  induction h generalizing d M N B C with
  | zero => rfl
  | succ h ih =>
    simp only [build, mapDepth, ih, Nat.add_zero]
    congr 2
    funext l i
    rw [Nat.add_right_comm]
    rfl

/-- Jobs that go down a tree: `js l i` are those that reach the node `(l, i)`.
The walk stops below the level to be updated. -/
theorem updateSplit_build {h d : Nat} {fMerge : D → Nat → M → Exn (M × Option R)} {fBase : D → B → Exn B}
    {weightMerge : M → W × W} {jobsSplit : W × W → D → D × D} {updateLevel : Nat} {fm : Nat → Nat → M}
    {fb : Nat → B} (fm' : Nat → Nat → M) (fb' : Nat → B) (js : Nat → Nat → D) (res : Nat → Nat → Option R)
    (hd : d ≤ updateLevel) (hh : updateLevel ≤ d + h)
    (hm : ∀ l < h, d + l ≤ updateLevel → ∀ i < 2 ^ l, fMerge (js l i) (d + l) (fm l i) = .ok (fm' l i, res l i))
    (hm' : ∀ l < h, updateLevel < d + l → ∀ i < 2 ^ l, fm' l i = fm l i)
    (hs : ∀ l < h, d + l < updateLevel → ∀ i < 2 ^ l,
      jobsSplit (weightMerge (fm l i)) (js l i) = (js (l + 1) (2 * i), js (l + 1) (2 * i + 1)))
    (hb : updateLevel = d + h → ∀ i < 2 ^ h, fBase (js h i) (fb i) = .ok (fb' i))
    (hb' : updateLevel < d + h → ∀ i < 2 ^ h, fb' i = fb i) :
    updateSplit fMerge fBase weightMerge (js 0 0) updateLevel jobsSplit (build h d fm fb) =
      .ok (build h d fm' fb', if h = 0 then none else res 0 0) := by
  induction h generalizing d M B D W R with
  | zero =>
    rw [build, updateSplit, hb (by omega) 0 (by simp), Exn.andThen_ok]
    rfl
  | succ h ih =>
    have hroot := hm 0 (by omega) (by omega) 0 (by simp)
    rw [Nat.add_zero] at hroot
    rw [build, updateSplit, hroot, Exn.andThen_ok, if_neg (Nat.succ_ne_zero h)]
    by_cases hlevel : updateLevel = d
    · rw [if_pos (by rw [hlevel])]
      simp only [Exn.andThen_ok]
      rw [build]
      refine congrArg (fun sub => Except.ok (node d (fm' 0 0) sub, res 0 0)) (build_congr ?_ ?_)
      · intro l hl i hi
        rw [hm' (l + 1) (by omega) (by omega) _ (double_lt hi).1,
          hm' (l + 1) (by omega) (by omega) _ (double_lt hi).2]
      · intro i hi
        rw [hb' (by omega) _ (double_lt hi).1, hb' (by omega) _ (double_lt hi).2]
    · have hroots := hs 0 (by omega) (by omega) 0 (by simp)
      have hsub := @ih (M × M) (B × B) (D × D) (W × W) (R × R) (d + 1)
        (fun b i v =>
          (fMerge b.1 i v.1).andThen fun left =>
          (fMerge b.2 i v.2).andThen fun right =>
          .ok ((left.1, right.1), left.2.bind fun x => right.2.map fun y => (x, y)))
        (fun b v =>
          (fBase b.1 v.1).andThen fun left => (fBase b.2 v.2).andThen fun right => .ok (left, right))
        (fun v => (weightMerge v.1, weightMerge v.2)) (fun w j => (jobsSplit w.1 j.1, jobsSplit w.2 j.2))
        (fun l i => (fm (l + 1) (2 * i), fm (l + 1) (2 * i + 1))) (fun i => (fb (2 * i), fb (2 * i + 1)))
        (fun l i => (fm' (l + 1) (2 * i), fm' (l + 1) (2 * i + 1))) (fun i => (fb' (2 * i), fb' (2 * i + 1)))
        (fun l i => (js (l + 1) (2 * i), js (l + 1) (2 * i + 1)))
        (fun l i => (res (l + 1) (2 * i)).bind fun x => (res (l + 1) (2 * i + 1)).map fun y => (x, y))
        (by omega) (by omega) ?_ ?_ ?_ ?_ ?_
      · rw [if_neg (by exact_mod_cast hlevel), hroots]
        simp only [Nat.mul_zero, Nat.zero_add] at hsub ⊢
        simp only [hsub, Exn.andThen_ok]
        rw [build]
      · intro l hl hle i hi
        have hlevel' : d + 1 + l = d + (l + 1) := by omega
        simp only [hlevel', hm (l + 1) (by omega) (by omega) _ (double_lt hi).1,
          hm (l + 1) (by omega) (by omega) _ (double_lt hi).2, Exn.andThen_ok]
      · intro l hl hlt i hi
        simp only [hm' (l + 1) (by omega) (by omega) _ (double_lt hi).1,
          hm' (l + 1) (by omega) (by omega) _ (double_lt hi).2]
      · intro l hl hlt i hi
        simp only [hs (l + 1) (by omega) (by omega) _ (double_lt hi).1,
          hs (l + 1) (by omega) (by omega) _ (double_lt hi).2]
      · intro he i hi
        simp only [hb (by omega) _ (double_lt hi).1, hb (by omega) _ (double_lt hi).2, Exn.andThen_ok]
      · intro hlt i hi
        simp only [hb' (by omega) _ (double_lt hi).1, hb' (by omega) _ (double_lt hi).2]

/-- A node of the updated level that refuses its jobs makes the update fail. -/
theorem updateSplit_build_error {h d : Nat} {fMerge : D → Nat → M → Exn (M × Option R)} {fBase : D → B → Exn B}
    {weightMerge : M → W × W} {jobsSplit : W × W → D → D × D} {s : Nat} {fm : Nat → Nat → M} {fb : Nat → B}
    (js : Nat → Nat → D) (hh : s < h)
    (hs : ∀ l < s, ∀ i < 2 ^ l, jobsSplit (weightMerge (fm l i)) (js l i) = (js (l + 1) (2 * i), js (l + 1) (2 * i + 1)))
    {i : Nat} (hi : i < 2 ^ s) (herr : ∃ e, fMerge (js s i) (d + s) (fm s i) = .error e) :
    ∃ e, updateSplit fMerge fBase weightMerge (js 0 0) ((d + s : Nat) : Int) jobsSplit (build h d fm fb) = .error e := by
  induction s generalizing h d M B D W R i with
  | zero =>
    obtain ⟨h, rfl⟩ : ∃ n, h = n + 1 := ⟨h - 1, by omega⟩
    obtain ⟨e, herr⟩ := herr
    obtain rfl : i = 0 := by simpa using hi
    rw [Nat.add_zero] at herr
    exact ⟨e, by rw [build, updateSplit, herr, Exn.andThen_error]⟩
  | succ s ih =>
    obtain ⟨h, rfl⟩ : ∃ n, h = n + 1 := ⟨h - 1, by omega⟩
    rw [build, updateSplit]
    cases hroot : fMerge (js 0 0) d (fm 0 0) with
    | error e => exact ⟨e, rfl⟩
    | ok p =>
      have hlevel : ¬ ((d + (s + 1) : Nat) : Int) = d := by omega
      have hroots := hs 0 (by omega) 0 (by simp)
      simp only [Nat.mul_zero, Nat.zero_add] at hroots
      rw [Exn.andThen_ok, if_neg hlevel, hroots]
      suffices hsub : ∃ e, updateSplit (R := R × R)
          (fun b i v =>
            (fMerge b.1 i v.1).andThen fun left =>
            (fMerge b.2 i v.2).andThen fun right =>
            .ok ((left.1, right.1), left.2.bind fun x => right.2.map fun y => (x, y)))
          (fun b v =>
            (fBase b.1 v.1).andThen fun left => (fBase b.2 v.2).andThen fun right => .ok (left, right))
          (fun v => (weightMerge v.1, weightMerge v.2)) (js 1 0, js 1 1) ((d + (s + 1) : Nat) : Int)
          (fun w j => (jobsSplit w.1 j.1, jobsSplit w.2 j.2))
          (build h (d + 1) (fun l i => (fm (l + 1) (2 * i), fm (l + 1) (2 * i + 1)))
            fun i => (fb (2 * i), fb (2 * i + 1))) = .error e by
        obtain ⟨e, hsub⟩ := hsub
        exact ⟨e, by rw [hsub]; rfl⟩
      rw [Nat.add_comm s 1, ← Nat.add_assoc]
      refine ih (fun l i => (js (l + 1) (2 * i), js (l + 1) (2 * i + 1))) (by omega) (fun l hl i hi => ?_)
        (i := i / 2) (by rw [Nat.pow_succ] at hi; omega) ?_
      · simp only [hs (l + 1) (by omega) _ (double_lt hi).1, hs (l + 1) (by omega) _ (double_lt hi).2]
      · obtain ⟨e, herr⟩ := herr
        rw [← Nat.add_assoc, Nat.add_right_comm] at herr
        rcases Nat.mod_two_eq_zero_or_one i with heven | hodd
        · rw [show 2 * (i / 2) = i by omega, herr]
          exact ⟨e, rfl⟩
        · rw [show 2 * (i / 2) + 1 = i by omega, herr]
          cases fMerge (js (s + 1) (2 * (i / 2))) (d + 1 + s) (fm (s + 1) (2 * (i / 2))) with
          | error e' => exact ⟨e', rfl⟩
          | ok left => exact ⟨e, rfl⟩

/-- What goes up a tree: `a l i` is what the node `(l, i)` answers to its
parent, and `a h i` what the leaf `i` does. -/
theorem updateAccumulate_build {h d : Nat} {fMerge : D × D → M → M × D} {fBase : B → B × D}
    {fm fm' : Nat → Nat → M} {fb fb' : Nat → B} {a : Nat → Nat → D}
    (hm : ∀ l < h, ∀ i < 2 ^ l,
      fMerge (a (l + 1) (2 * i), a (l + 1) (2 * i + 1)) (fm l i) = (fm' l i, a l i))
    (hb : ∀ i < 2 ^ h, fBase (fb i) = (fb' i, a h i)) :
    updateAccumulate fMerge fBase (build h d fm fb) = (build h d fm' fb', a 0 0) := by
  induction h generalizing d M B D with
  | zero => rw [build, updateAccumulate, hb 0 (by simp)]; rfl
  | succ h ih =>
    have hsub := @ih (M × M) (B × B) (D × D) (d + 1)
      (fun b v => transpose (fMerge b.1 v.1, fMerge b.2 v.2)) (fun d => transpose (fBase d.1, fBase d.2))
      (fun l i => (fm (l + 1) (2 * i), fm (l + 1) (2 * i + 1)))
      (fun l i => (fm' (l + 1) (2 * i), fm' (l + 1) (2 * i + 1)))
      (fun i => (fb (2 * i), fb (2 * i + 1))) (fun i => (fb' (2 * i), fb' (2 * i + 1)))
      (fun l i => (a (l + 1) (2 * i), a (l + 1) (2 * i + 1)))
      (fun l hl i hi => by
        simp only [transpose, hm (l + 1) (by omega) _ (double_lt hi).1, hm (l + 1) (by omega) _ (double_lt hi).2])
      (fun i hi => by simp only [transpose, hb _ (double_lt hi).1, hb _ (double_lt hi).2])
    have hroot := hm 0 (by omega) 0 (by simp)
    rw [build, updateAccumulate, hsub]
    simp only [Nat.mul_zero, Nat.zero_add] at hroot ⊢
    rw [hroot, build]

theorem foldl_range_pairs (f : A → Nat → A) (n : Nat) (acc : A) :
    (List.range n).foldl (fun acc i => f (f acc (2 * i)) (2 * i + 1)) acc = (List.range (2 * n)).foldl f acc := by
  induction n with
  | zero => rfl
  | succ n ih => rw [Nat.mul_succ, List.range_succ, List.range_succ, List.range_succ]; simp [ih]

/-- A fold over a tree is a fold over its levels, and then its leaves. -/
theorem foldDepth_build (h d : Nat) (fMerge : Nat → A → M → A) (fBase : A → B → A) (fm : Nat → Nat → M)
    (fb : Nat → B) (acc : A) :
    foldDepth fMerge fBase acc (build h d fm fb) =
      (List.range (2 ^ h)).foldl (fun acc i => fBase acc (fb i))
        ((List.range h).foldl
          (fun acc l => (List.range (2 ^ l)).foldl (fun acc i => fMerge (d + l) acc (fm l i)) acc) acc) := by
  induction h generalizing d M B acc with
  | zero => rfl
  | succ h ih =>
    rw [build, foldDepth, ih, foldl_range_pairs (fun acc i => fBase acc (fb i)), List.range_succ_eq_map,
      List.foldl_cons, List.foldl_map, Nat.pow_succ, Nat.mul_comm 2]
    simp only [Nat.pow_zero, Nat.add_zero, List.range_one, List.foldl_cons, List.foldl_nil]
    congr 1
    refine List.foldl_ext _ _ _ fun acc l _ => ?_
    rw [foldl_range_pairs (fun acc i => fMerge (d + 1 + l) acc (fm (l + 1) i)), Nat.succ_eq_add_one, Nat.pow_succ,
      Nat.mul_comm 2, Nat.add_right_comm, Nat.add_assoc]

theorem createLevels_build (n d : Nat) (fmerge : Nat → M) (base : B) :
    State.createLevels n d fmerge base = build n d (fun l _ => fmerge (d + l)) fun _ => base := by
  induction n generalizing d M B with
  | zero => rfl
  | succ n ih =>
    simp only [State.createLevels, build, ih, Nat.add_zero]
    congr 2
    funext l i
    rw [Nat.add_right_comm]
    rfl

/-! ## Reading a tree -/

theorem foldl_range_level (F : A → A) (level h : Nat) (acc : A) :
    (List.range h).foldl (fun acc l => if l = level then F acc else acc) acc = if level < h then F acc else acc := by
  induction h with
  | zero => simp
  | succ h ih =>
    rw [List.range_succ, List.foldl_append, ih, List.foldl_cons, List.foldl_nil]
    by_cases heq : h = level
    · rw [if_pos heq, if_neg (by omega), if_pos (by omega)]
    · rw [if_neg heq]
      by_cases hlt : level < h
      · rw [if_pos hlt, if_pos (by omega)]
      · rw [if_neg hlt, if_neg (by omega)]

theorem foldl_filterMap {E : Type} (g : Nat → Option E) (l : List Nat) (acc : List E) :
    l.foldl (fun acc i => ((g i).map (· :: acc)).getD acc) acc = (l.filterMap g).reverse ++ acc := by
  induction l generalizing acc with
  | nil => rfl
  | cons i l ih =>
    rw [List.foldl_cons, ih]
    cases hg : g i with
    | none => simp [hg]
    | some e => simp [hg]

theorem foldl_const (l : List Nat) (acc : A) : l.foldl (fun acc _ => acc) acc = acc := by
  induction l with
  | nil => rfl
  | cons i l ih => exact ih

section Reading

variable {h : Nat} (fm : Nat → Nat → MergeNode M) (fb : Nat → BaseNode B)

theorem jobsOnLevel_build (level : Nat) :
    (build h 0 fm fb).jobsOnLevel h level =
      if level < h then (List.range (2 ^ level)).filterMap fun i => mergeTodo (fm level i)
      else if level = h then (List.range (2 ^ h)).filterMap fun i => baseTodo (fb i)
      else [] := by
  have hlevel : (List.range h).foldl
      (fun acc l => (List.range (2 ^ l)).foldl
        (fun acc i => if ((0 + l : Nat) : Int) = (level : Int) then ((mergeTodo (fm l i)).map (· :: acc)).getD acc
          else acc) acc) ([] : List (AvailableJob M B)) =
      if level < h then ((List.range (2 ^ level)).filterMap fun i => mergeTodo (fm level i)).reverse else [] := by
    have hstep : (fun (acc : List (AvailableJob M B)) (l : Nat) => (List.range (2 ^ l)).foldl
        (fun acc i => if ((0 + l : Nat) : Int) = (level : Int) then ((mergeTodo (fm l i)).map (· :: acc)).getD acc
          else acc) acc) =
        fun acc l => if l = level
          then ((List.range (2 ^ level)).filterMap fun i => mergeTodo (fm level i)).reverse ++ acc else acc := by
      funext acc l
      by_cases hl : l = level
      · subst hl
        simp only [Nat.zero_add, if_true]
        exact foldl_filterMap _ _ _
      · have hl' : ¬ ((0 + l : Nat) : Int) = (level : Int) := by omega
        simp only [if_neg hl, if_neg hl', foldl_const]
    rw [hstep, foldl_range_level, List.append_nil]
  rw [jobsOnLevel, foldDepth_build, hlevel]
  by_cases hlt : level < h
  · have hne : ¬ (level : Int) = (h : Int) := by omega
    simp only [if_pos hlt, if_neg hne, foldl_const, List.reverse_reverse]
  · by_cases heq : level = h
    · simp only [heq, if_true, foldl_filterMap, List.append_nil, List.reverse_reverse, Nat.lt_irrefl,
        if_false]
    · have hne : ¬ (level : Int) = (h : Int) := by omega
      simp only [if_neg hlt, if_neg heq, if_neg hne, foldl_const, List.reverse_nil]

theorem foldl_nil {E : Type} (l : List Nat) : l.foldl (fun (_ : List E) _ => []) [] = [] := by
  induction l with
  | nil => rfl
  | cons i l ih => exact ih

theorem baseJobs_build : (build h 0 fm fb).baseJobs = (List.range (2 ^ h)).filterMap fun i => leafJob (fb i) := by
  have hmerge : (List.range h).foldl
      (fun (acc : List B) l => (List.range (2 ^ l)).foldl (fun (_ : List B) (_ : Nat) => []) acc) [] = [] := by
    generalize List.range h = l
    induction l with
    | nil => rfl
    | cons i l ih => rw [List.foldl_cons, foldl_nil, ih]
  rw [baseJobs, foldDepth_build, hmerge, foldl_filterMap, List.append_nil, List.reverse_reverse]

theorem requiredJobCount_build (hh : 0 < h) :
    (build h 0 fm fb).requiredJobCount = (fm 0 0).1.1.merge + (fm 0 0).1.2.merge := by
  obtain ⟨h, rfl⟩ : ∃ n, h = n + 1 := ⟨h - 1, by omega⟩
  rfl

theorem availableSpace_build (hh : 0 < h) :
    (build h 0 fm fb).availableSpace = (fm 0 0).1.1.base + (fm 0 0).1.2.base := by
  obtain ⟨h, rfl⟩ : ∃ n, h = n + 1 := ⟨h - 1, by omega⟩
  rfl

/-! ## Weights -/

/-- The weights that a node `e` levels above the leaves answers to its parent
when the weights are reset. -/
def resetUp (ty : WeightType) : (e i : Nat) → Weight × Weight
  | 0, i => (resetBase ty (fb i)).2
  | e + 1, i => (resetMerge ty (resetUp ty e (2 * i), resetUp ty e (2 * i + 1)) (fm (h - (e + 1)) i)).2

theorem resetWeights_build (ty : WeightType) :
    (build h 0 fm fb).resetWeights ty =
      build h 0
        (fun l i => (resetMerge ty (resetUp (h := h) fm fb ty (h - (l + 1)) (2 * i),
          resetUp (h := h) fm fb ty (h - (l + 1)) (2 * i + 1)) (fm l i)).1)
        fun i => (resetBase ty (fb i)).1 := by
  rw [resetWeights, updateAccumulate_build (a := fun l i => resetUp (h := h) fm fb ty (h - l) i)]
  · intro l hl i _
    have hlevel : h - l = h - (l + 1) + 1 := by omega
    rw [hlevel, resetUp, ← hlevel, show h - (h - l) = l by omega]
  · intro i _
    rw [Nat.sub_self, resetUp]

end Reading

section Nodes

variable {ty : WeightType}

theorem resetMerge_job (lst : (Weight × Weight) × (Weight × Weight)) (n : MergeNode M) :
    (resetMerge ty lst n).1.2 = n.2 := rfl

theorem resetMerge_up (lst : (Weight × Weight) × (Weight × Weight)) (n : MergeNode M) :
    (resetMerge ty lst n).1.1 = (resetMerge ty lst n).2 := rfl

theorem resetBase_job (n : BaseNode B) : (resetBase ty n).1.2 = n.2 := by
  cases ty <;> rfl

/-- A node that is to do counts itself. -/
theorem resetMerge_todo {lst : (Weight × Weight) × (Weight × Weight)} {n : MergeNode M} {l r : M} {seq : Int}
    (hn : n.2 = .full ⟨l, r, seq, .todo⟩) :
    (resetMerge .merge lst n).2 = ({ n.1.1 with merge := 1 }, { n.1.2 with merge := 0 }) := by
  obtain ⟨⟨w1, w2⟩, j⟩ := n
  simp only at hn
  subst hn
  rfl

/-- A node that is not to do counts what is below it. -/
theorem resetMerge_sum (hty : ty = .merge ∨ ty = .both) (lst : (Weight × Weight) × (Weight × Weight))
    {n : MergeNode M} (hn : ty = .merge → ∀ l r seq, n.2 ≠ .full ⟨l, r, seq, .todo⟩) :
    (resetMerge ty lst n).2.1.merge = lst.1.1.merge + lst.1.2.merge ∧
      (resetMerge ty lst n).2.2.merge = lst.2.1.merge + lst.2.2.merge := by
  obtain ⟨⟨w1, w2⟩, j⟩ := n
  rcases hty with rfl | rfl
  · rcases j with _ | a | ⟨l, r, seq, _ | _⟩
    · exact ⟨rfl, rfl⟩
    · exact ⟨rfl, rfl⟩
    · exact absurd rfl (hn rfl l r seq)
    · exact ⟨rfl, rfl⟩
  · exact ⟨rfl, rfl⟩

theorem mergeTodo_full {n : MergeNode M} {l r : M} {seq : Int} {st : JobStatus} (hn : n.2 = .full ⟨l, r, seq, st⟩) :
    (mergeTodo n : Option (AvailableJob M B)) = if st = .todo then some (.merge l r) else none := by
  obtain ⟨w, j⟩ := n
  simp only at hn
  subst hn
  cases st <;> rfl

theorem baseTodo_full {n : BaseNode B} {d : B} {seq : Int} {st : JobStatus} (hn : n.2 = .full ⟨d, seq, st⟩) :
    (baseTodo n : Option (AvailableJob M B)) = if st = .todo then some (.base d) else none := by
  obtain ⟨w, j⟩ := n
  simp only at hn
  subst hn
  cases st <;> rfl

theorem leafJob_full {n : BaseNode B} {r : BaseRecord B} (hn : n.2 = .full r) : leafJob n = some r.job := by
  obtain ⟨w, j⟩ := n
  simp only at hn
  subst hn
  rfl

end Nodes

theorem two_pow_sub {e h : Nat} (he : e < h) : 2 ^ (h - e) = 2 ^ (h - (e + 1)) * 2 := by
  rw [← Nat.pow_succ, Nat.succ_eq_add_one, show h - (e + 1) + 1 = h - e by omega]

end Mina.ParallelScan.Tree
