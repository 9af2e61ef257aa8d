/-
How a tree moves from stage to stage: completed jobs advance it
(`Stage.update`), new data fills it (`Filling.update`), and resetting the
weights starts the next level (`Content.reset`) or the merging of a full tree
(`Filling.reset`). `Content.jobsOnLevel` reads the jobs that are to do.
-/
import Mina.ParallelScan.Stage

namespace Mina.ParallelScan

open Mina.ParallelScan.Tree

variable {M B : Type} {res : AvailableJob M B → M} {ds : Nat → B} {h k m : Nat} {t : JobTree M B} (seqNo : Int)

/-! ## Completed jobs -/

theorem slot_ne (k m n e i : Nat) (h : e ≠ k) (h' : e ≠ k + 1) : slot k m e i = slot k n e i := by
  simp [slot, h, h']

section Update

variable {fm : Nat → Nat → MergeNode M} {fb : Nat → BaseNode B} {xs : List M}

/-- What the update makes of a node. -/
structure NodeUpdate (res : AvailableJob M B → M) (ds : Nat → B) (h k m : Nat) (seqNo : Int) (xs : List M)
    (l i : Nat) (n n' : MergeNode M) : Prop where
  ok : l ≤ h - k → addMerges Weight.mergeLens (h - k : Nat) seqNo
    (share m (h - k - l) i (xs.map (Job.merge : M → Job M B))) l n =
      .ok (n', if h = k ∧ m ≤ i ∧ i < m + xs.length then some (proof res ds k i) else none)
  below : h - k < l → n' = n
  job : MergeIs res ds (h - l) i (slot k (m + xs.length) (h - l) i) n'.2
  left : l < h - k → n'.1.1.merge = remaining (m + xs.length) (h - k - (l + 1)) (2 * i)
  right : l < h - k → n'.1.2.merge = remaining (m + xs.length) (h - k - (l + 1)) (2 * i + 1)
  nil : xs = [] → l = h - k → n' = n

theorem nodeUpdate (hk : k ≤ h) (hxs : ∀ q < xs.length, xs[q]? = some (proof res ds k (m + q)))
    (hholds : Holds res ds h (slot k m) fm fb) (hweighs : Weighs Weight.mergeLens (h - k) m fm) {l i : Nat}
    (hl : l < h) (hi : i < 2 ^ l) : ∃ n', NodeUpdate res ds h k m seqNo xs l i (fm l i) n' := by
  have hmerge := hholds.merge l hl i hi
  rcases Nat.lt_trichotomy l (h - k) with hlt | heq | hgt
  · have hleft := hweighs.left l hlt i hi
    have hright := hweighs.right l hlt i hi
    have hroot : ¬ (h = k ∧ m ≤ i ∧ i < m + xs.length) := by omega
    rcases Nat.eq_or_lt_of_le (show l + 1 ≤ h - k by omega) with hnext | habove
    · have he : h - l = k + 1 := by omega
      rw [← hnext, Nat.sub_self] at hleft hright
      rw [he] at hmerge
      obtain ⟨n', hn, his, hnl, hnr⟩ := addMerges_results seqNo (l := l) hxs hmerge hleft hright
      refine ⟨n', fun _ => ?_, fun hgt => by omega, by rw [he]; exact his, fun _ => ?_, fun _ => ?_,
        fun _ _ => by omega⟩
      · rw [if_neg hroot, ← hnext, show l + 1 - l = 1 by omega]
        exact hn
      · rw [← hnext, Nat.sub_self]
        exact hnl
      · rw [← hnext, Nat.sub_self]
        exact hnr
    · obtain ⟨n', hn, hsame, hnl, hnr⟩ := addMerges_above seqNo mergeLens_lawful
        (u := h - k) (l := l) (s := h - k - (l + 1)) (i := i) (by omega) (by omega)
        (xs.map (Job.merge : M → Job M B)) hleft hright
      rw [List.length_map] at hnl hnr
      refine ⟨n', fun _ => ?_, fun hgt => by omega, ?_, fun _ => hnl, fun _ => hnr, fun _ _ => by omega⟩
      · rw [if_neg hroot, show h - k - l = h - k - (l + 1) + 1 by omega]
        exact hn
      · rw [hsame, slot_ne k (m + xs.length) m _ _ (by omega) (by omega)]
        exact hmerge
  · have he : h - l = k := by omega
    rw [he] at hmerge
    obtain ⟨n', hn, his, hsame⟩ := addMerges_completed seqNo (l := l) hxs hmerge
    refine ⟨n', fun _ => ?_, fun hgt => by omega, by rw [he]; exact his, fun _ => by omega, fun _ => by omega,
      fun e _ => hsame e⟩
    have hroot : h = k ↔ l = 0 := by omega
    simp only [← heq, Nat.sub_self, hroot]
    exact hn
  · refine ⟨fm l i, fun _ => by omega, fun _ => rfl, ?_, fun _ => by omega, fun _ => by omega, fun _ _ => rfl⟩
    rw [slot_ne k (m + xs.length) m _ _ (by omega) (by omega)]
    exact hmerge

/-- What the update makes of a leaf. -/
structure LeafUpdate (ds : Nat → B) (h k m : Nat) (seqNo : Int) (xs : List M) (i : Nat) (n n' : BaseNode B) :
    Prop where
  ok : k = 0 → addBases Weight.mergeLens (h - k : Nat) seqNo
    (share m (h - k - h) i (xs.map (Job.merge : M → Job M B))) n = .ok n'
  below : 0 < k → n' = n
  job : BaseIs ds i (slot k (m + xs.length) 0 i) n'.2

theorem leafUpdate (hxs : ∀ q < xs.length, xs[q]? = some (proof res ds k (m + q)))
    (hholds : Holds res ds h (slot k m) fm fb) {i : Nat} (hi : i < 2 ^ h) :
    ∃ n', LeafUpdate ds h k m seqNo xs i (fb i) n' := by
  have hbase := hholds.base i hi
  rcases Nat.eq_zero_or_pos k with rfl | hk
  · obtain ⟨n', hn, his⟩ := addBases_completed seqNo (u := (h - 0 : Nat)) hxs hbase
    refine ⟨n', fun _ => ?_, fun hlt => by omega, his⟩
    rw [show h - 0 - h = 0 by omega]
    exact hn
  · refine ⟨fb i, fun he => by omega, fun _ => rfl, ?_⟩
    rw [slot, if_pos hk] at hbase ⊢
    exact hbase

variable (xs) in
/-- Completed jobs: the next ones to do, in order. Completing the root gives
the proof of the whole tree. -/
theorem Stage.update (hh : 0 < h) (hk : k ≤ h) (hst : Stage res ds h k m t)
    (hlen : m + xs.length ≤ 2 ^ (h - k)) (hxs : ∀ q < xs.length, xs[q]? = some (proof res ds k (m + q))) :
    ∃ t', t.update Weight.mergeLens (h - k : Nat) seqNo (xs.map Job.merge) =
        .ok (t', if h = k ∧ m ≤ 0 ∧ 0 < m + xs.length then some (proof res ds k 0) else none) ∧
      Content res ds h (slot k (m + xs.length)) t' ∧ (k < h ∨ xs = [] → Stage res ds h k (m + xs.length) t') := by
  obtain ⟨fm, fb, rfl, hholds, hweighs, hone⟩ := hst
  have hnode : ∀ l i, ∃ n', l < h → i < 2 ^ l → NodeUpdate res ds h k m seqNo xs l i (fm l i) n' := by
    intro l i
    by_cases hli : l < h ∧ i < 2 ^ l
    · obtain ⟨n', hn'⟩ := nodeUpdate seqNo hk hxs hholds hweighs hli.1 hli.2
      exact ⟨n', fun _ _ => hn'⟩
    · exact ⟨fm l i, fun hl hi => absurd ⟨hl, hi⟩ hli⟩
  have hleaf : ∀ i, ∃ n', i < 2 ^ h → LeafUpdate ds h k m seqNo xs i (fb i) n' := by
    intro i
    by_cases hi : i < 2 ^ h
    · obtain ⟨n', hn'⟩ := leafUpdate seqNo hxs hholds hi
      exact ⟨n', fun _ => hn'⟩
    · exact ⟨fb i, fun hi' => absurd hi' hi⟩
  choose fm' hfm' using hnode
  choose fb' hfb' using hleaf
  have hroot : share m (h - k - 0) 0 (xs.map (Job.merge : M → Job M B)) = xs.map Job.merge :=
    share_root m _ _ (by rw [List.length_map]; exact hlen)
  have hholds' : Holds res ds h (slot k (m + xs.length)) fm' fb' :=
    ⟨fun l hl i hi => (hfm' l i hl hi).job, fun i hi => (hfb' i hi).job⟩
  refine ⟨build h 0 fm' fb', ?_, ⟨fm', fb', rfl, hholds'⟩, fun hkx => ⟨fm', fb', rfl, hholds', ?_, fun he => ?_⟩⟩
  · rw [Tree.update, ← hroot]
    refine (updateSplit_build fm' fb' (fun l i => share m (h - k - l) i (xs.map (Job.merge : M → Job M B)))
      (fun _ i => if h = k ∧ m ≤ i ∧ i < m + xs.length then some (proof res ds k i) else none)
      (Nat.zero_le _) (by omega) ?_ ?_ ?_ ?_ ?_).trans (by rw [if_neg (by omega)])
    · intro l hl hle i hi
      rw [Nat.zero_add]
      exact (hfm' l i hl hi).ok (by omega)
    · intro l hl hlt i hi
      exact (hfm' l i hl hi).below (by omega)
    · intro l hl hlt i hi
      rw [show h - k - l = h - k - (l + 1) + 1 by omega]
      have hleft := hweighs.left l (by omega) i hi
      have hright := hweighs.right l (by omega) i hi
      simp only [splitJobs, hleft, hright, Int.toNat_natCast, share_left, share_right]
    · intro he i hi
      exact (hfb' i hi).ok (by omega)
    · intro hlt i hi
      exact (hfb' i hi).below (by omega)
  · exact ⟨fun l hl i hi => (hfm' l i (by omega) hi).left hl, fun l hl i hi => (hfm' l i (by omega) hi).right hl⟩
  · have hnil : xs = [] := hkx.resolve_left (by omega)
    rw [(hfm' 0 0 hh (by simp)).nil hnil (by omega)]
    exact hone he

end Update

/-! ## New data -/

theorem Filling.update {l data : List B} (hh : 0 < h) (hf : Filling h l t)
    (hlen : l.length + data.length ≤ 2 ^ h) :
    ∃ t', t.update Weight.baseLens (h : Nat) seqNo (data.map Job.base) = .ok (t', none) ∧
      Filling h (l ++ data) t' := by
  obtain ⟨fm, fb, rfl, hempty, hbase, hweighs⟩ := hf
  have hnode : ∀ e i, ∃ n' : MergeNode M, e < h → i < 2 ^ e →
      addMerges Weight.baseLens (h : Nat) seqNo (share l.length (h - e) i (data.map (Job.base : B → Job M B))) e
          (fm e i) = .ok (n', none) ∧ n'.2 = .empty ∧
        n'.1.1.base = remaining (l.length + data.length) (h - (e + 1)) (2 * i) ∧
        n'.1.2.base = remaining (l.length + data.length) (h - (e + 1)) (2 * i + 1) := by
    intro e i
    by_cases hei : e < h ∧ i < 2 ^ e
    case neg => exact ⟨fm e i, fun he hi => absurd ⟨he, hi⟩ hei⟩
    obtain ⟨he, hi⟩ := hei
    have hleft := hweighs.left e he i hi
    have hright := hweighs.right e he i hi
    rcases Nat.eq_or_lt_of_le (show e + 1 ≤ h by omega) with hnext | habove
    · rw [← hnext, Nat.sub_self] at hleft hright
      obtain ⟨n', hn, hemp, hnl, hnr⟩ := addMerges_data seqNo (l := e) l data (hempty e he i hi) hleft hright
      refine ⟨n', fun _ _ => ?_⟩
      rw [← hnext, show e + 1 - e = 1 by omega, Nat.sub_self]
      exact ⟨hn, hemp, hnl, hnr⟩
    · obtain ⟨n', hn, hsame, hnl, hnr⟩ := addMerges_above seqNo baseLens_lawful
        (u := h) (l := e) (s := h - (e + 1)) (i := i) (by omega) (by omega)
        (data.map (Job.base : B → Job M B)) hleft hright
      rw [List.length_map] at hnl hnr
      refine ⟨n', fun _ _ => ?_⟩
      rw [show h - e = h - (e + 1) + 1 by omega]
      exact ⟨hn, hsame.trans (hempty e he i hi), hnl, hnr⟩
  have hleaf : ∀ i, ∃ n' : BaseNode B, i < 2 ^ h →
      addBases Weight.baseLens (h : Nat) seqNo (share l.length 0 i (data.map (Job.base : B → Job M B))) (fb i) =
          .ok n' ∧ LeafIs (l ++ data)[i]? n'.2 := by
    intro i
    by_cases hi : i < 2 ^ h
    case neg => exact ⟨fb i, fun hi' => absurd hi' hi⟩
    have hb := hbase i hi
    rw [share_data]
    by_cases hl : l.length ≤ i
    · rw [List.getElem?_eq_none hl] at hb
      rw [if_pos hl, List.getElem?_append_right hl]
      cases hd : data[i - l.length]? with
      | none => exact ⟨fb i, fun _ => ⟨rfl, hb⟩⟩
      | some d =>
        refine ⟨(Weight.baseLens.set (Weight.baseLens.get (fb i).1 - 1) (fb i).1, .full ⟨d, seqNo, .todo⟩),
          fun _ => ⟨?_, seqNo, rfl⟩⟩
        rw [show fb i = ((fb i).1, .empty) from Prod.ext rfl hb]
        rfl
    · rw [if_neg hl, List.getElem?_append_left (by omega)]
      exact ⟨fb i, fun _ => ⟨rfl, hb⟩⟩
  choose fm' hfm' using hnode
  choose fb' hfb' using hleaf
  have hroot : share l.length (h - 0) 0 (data.map (Job.base : B → Job M B)) = data.map Job.base :=
    share_root _ _ _ (by rw [List.length_map]; exact hlen)
  refine ⟨build h 0 fm' fb', ?_, fm', fb', rfl, fun e he i hi => (hfm' e i he hi).2.1, fun i hi => (hfb' i hi).2, ?_⟩
  · rw [Tree.update, ← hroot]
    refine (updateSplit_build fm' fb' (fun e i => share l.length (h - e) i (data.map (Job.base : B → Job M B)))
      (fun _ _ => none) (Nat.zero_le _) (by omega) ?_ ?_ ?_ ?_ ?_).trans (by rw [ite_self])
    · intro e he hle i hi
      rw [Nat.zero_add]
      exact (hfm' e i he hi).1
    · intro e he hlt
      omega
    · intro e he hlt i hi
      rw [show h - e = h - (e + 1) + 1 by omega]
      have hleft := hweighs.left e he i hi
      have hright := hweighs.right e he i hi
      simp only [splitJobs, hleft, hright, Int.toNat_natCast, share_left, share_right]
    · intro _ i hi
      rw [Nat.sub_self]
      exact (hfb' i hi).1
    · intro hlt
      omega
  · rw [List.length_append]
    exact ⟨fun e he i hi => (hfm' e i he hi).2.2.1, fun e he i hi => (hfm' e i he hi).2.2.2⟩

theorem Filling.availableSpace {l : List B} (hh : 0 < h) (hf : Filling h l t) :
    t.availableSpace = (2 ^ h - l.length : Nat) := by
  obtain ⟨fm, fb, rfl, -, -, hweighs⟩ := hf
  have hleft := hweighs.left 0 hh 0 (by simp)
  have hright := hweighs.right 0 hh 0 (by simp)
  have hsplit := remaining_split l.length (h - 1) 0
  rw [show h - 1 + 1 = h by omega, remaining, Nat.zero_mul, Nat.sub_zero] at hsplit
  rw [availableSpace_build fm fb hh, show (fm 0 0).1.1.base = _ from hleft, show (fm 0 0).1.2.base = _ from hright,
    hsplit, Nat.cast_add]

theorem Stage.requiredJobCount (hh : 0 < h) (hk : k ≤ h) (hm : k = h → m = 0) (hst : Stage res ds h k m t) :
    t.requiredJobCount = (2 ^ (h - k) - m : Nat) := by
  obtain ⟨fm, fb, rfl, -, hweighs, hone⟩ := hst
  rw [requiredJobCount_build fm fb hh]
  rcases Nat.eq_or_lt_of_le hk with rfl | hlt
  · rw [hone rfl, hm rfl, Nat.sub_self]
    rfl
  · have hleft := hweighs.left 0 (by omega) 0 (by simp)
    have hright := hweighs.right 0 (by omega) 0 (by simp)
    have hsplit := remaining_split m (h - k - 1) 0
    rw [show h - k - 1 + 1 = h - k by omega, remaining, Nat.zero_mul, Nat.sub_zero] at hsplit
    rw [show (fm 0 0).1.1.merge = _ from hleft, show (fm 0 0).1.2.merge = _ from hright, hsplit, Nat.cast_add]

/-! ## Resetting the weights -/

section Reset

variable {fm : Nat → Nat → MergeNode M} {fb : Nat → BaseNode B} {ty : WeightType}

/-- The jobs to do at or below a node, when the weights are reset at the
start of a level. -/
theorem resetUp_merge (hty : ty = .merge ∨ ty = .both ∧ k = 0) (hholds : Holds res ds h (slot k 0) fm fb) {e i : Nat}
    (he : e ≤ h) (hi : i < 2 ^ (h - e)) :
    (resetUp (h := h) fm fb ty e i).1.merge + (resetUp (h := h) fm fb ty e i).2.merge =
      if e < k then 0 else (2 ^ (e - k) : Nat) := by
  have hty' : ty = .merge ∨ ty = .both := hty.imp_right And.left
  induction e generalizing i with
  | zero =>
    have hb := hholds.base i hi
    rw [slot] at hb
    rcases Nat.eq_zero_or_pos k with rfl | hk
    · rw [if_neg (by omega), if_pos rfl, if_neg (by omega)] at hb
      obtain ⟨seq, hb⟩ := hb
      rw [if_neg (by omega), resetUp]
      rcases hty' with rfl | rfl <;> simp [resetBase, updateMergeWeight, hb]
    · rw [if_pos hk] at hb
      obtain ⟨seq, hb⟩ := hb
      rw [if_pos hk, resetUp]
      rcases hty' with rfl | rfl <;> simp [resetBase, updateMergeWeight, hb]
  | succ e ih =>
    have hpow := two_pow_sub (show e < h by omega)
    have hl := ih (i := 2 * i) (by omega) (by omega)
    have hr := ih (i := 2 * i + 1) (by omega) (by omega)
    have hm := hholds.merge (h - (e + 1)) (by omega) i hi
    rw [show h - (h - (e + 1)) = e + 1 by omega] at hm
    rw [resetUp]
    by_cases hek : e + 1 = k
    -- the level of the jobs to do
    · rw [hek, slot_at, if_neg (by omega)] at hm
      obtain ⟨seq, hm⟩ := hm
      rw [if_neg (by omega), hek, Nat.sub_self]
      obtain rfl : ty = .merge := hty.resolve_right (by omega)
      rw [resetMerge_todo hm]
      rfl
    · have hnot : ty = .merge → ∀ l r seq, (fm (h - (e + 1)) i).2 ≠ .full ⟨l, r, seq, .todo⟩ := by
        intro _ l r seq hfull
        rw [hfull, slot, if_neg hek] at hm
        by_cases hlt : e + 1 < k
        · rw [if_pos hlt] at hm
          obtain ⟨seq', hm⟩ := hm
          simp at hm
        · rw [if_neg hlt] at hm
          by_cases hnext : e + 1 = k + 1
          · rw [if_pos hnext, if_neg (by omega), if_neg (by omega)] at hm
            simp [MergeIs] at hm
          · rw [if_neg hnext] at hm
            simp [MergeIs] at hm
      obtain ⟨h1, h2⟩ := resetMerge_sum hty' (resetUp (h := h) fm fb ty e (2 * i), resetUp (h := h) fm fb ty e (2 * i + 1)) hnot
      rw [h1, h2, hl, hr]
      by_cases hlt : e + 1 < k
      · rw [if_pos (by omega), if_pos hlt]
        rfl
      · rw [if_neg (by omega), if_neg hlt, show e + 1 - k = e - k + 1 by omega, Nat.pow_succ]
        push_cast
        ring

/-- The weights are right after a reset at the start of a level. -/
theorem stage_of_reset (hh : 0 < h) (hk : k ≤ h) (hty : ty = .merge ∨ ty = .both ∧ k = 0)
    (hholds : Holds res ds h (slot k 0) fm fb) : Stage res ds h k 0 ((build h 0 fm fb).resetWeights ty) := by
  have hty' : ty = .merge ∨ ty = .both := hty.imp_right And.left
  refine ⟨_, _, resetWeights_build fm fb ty, ⟨fun l hl i hi => ?_, fun i hi => ?_⟩, ?_, ?_⟩
  · rw [resetMerge_job]
    exact hholds.merge l hl i hi
  · rw [resetBase_job]
    exact hholds.base i hi
  · have hsum : ∀ l < h - k, ∀ i < 2 ^ l,
        (resetMerge ty (resetUp (h := h) fm fb ty (h - (l + 1)) (2 * i),
          resetUp (h := h) fm fb ty (h - (l + 1)) (2 * i + 1)) (fm l i)).2.1.merge =
            remaining 0 (h - k - (l + 1)) (2 * i) ∧
        (resetMerge ty (resetUp (h := h) fm fb ty (h - (l + 1)) (2 * i),
          resetUp (h := h) fm fb ty (h - (l + 1)) (2 * i + 1)) (fm l i)).2.2.merge =
            remaining 0 (h - k - (l + 1)) (2 * i + 1) := by
      intro l hl i hi
      have hm := hholds.merge l (by omega) i hi
      have hnot : ty = .merge → ∀ a b seq, (fm l i).2 ≠ .full ⟨a, b, seq, .todo⟩ := by
        intro _ a b seq hfull
        rw [hfull, slot, if_neg (by omega), if_neg (by omega)] at hm
        by_cases hnext : h - l = k + 1
        · rw [if_pos hnext, if_neg (by omega), if_neg (by omega)] at hm
          simp [MergeIs] at hm
        · rw [if_neg hnext] at hm
          simp [MergeIs] at hm
      obtain ⟨h1, h2⟩ := resetMerge_sum hty' (resetUp (h := h) fm fb ty (h - (l + 1)) (2 * i),
          resetUp (h := h) fm fb ty (h - (l + 1)) (2 * i + 1)) hnot
      have hpow := double_lt hi
      have hlevel : h - (h - (l + 1)) = l + 1 := by omega
      have hl' := resetUp_merge (e := h - (l + 1)) (i := 2 * i) hty hholds (by omega) (by rw [hlevel]; exact hpow.1)
      have hr' := resetUp_merge (e := h - (l + 1)) (i := 2 * i + 1) hty hholds (by omega) (by rw [hlevel]; exact hpow.2)
      rw [h1, h2, hl', hr', if_neg (by omega), remaining, remaining, Nat.zero_sub, Nat.zero_sub, Nat.sub_zero,
        show h - (l + 1) - k = h - k - (l + 1) by omega]
      exact ⟨rfl, rfl⟩
    exact ⟨fun l hl i hi => (hsum l hl i hi).1, fun l hl i hi => (hsum l hl i hi).2⟩
  · intro he
    have hroot := resetUp_merge (e := h) (i := 0) hty hholds le_rfl (by simp)
    rw [if_neg (by omega), he, Nat.sub_self] at hroot
    obtain ⟨n, rfl⟩ : ∃ n, h = n + 1 := ⟨h - 1, by omega⟩
    rw [resetUp, Nat.sub_self] at hroot
    rw [resetMerge_up]
    simpa using hroot

theorem Content.reset (hh : 0 < h) (hk : k ≤ h) (hc : Content res ds h (slot k 0) t) :
    Stage res ds h k 0 (t.resetWeights .merge) := by
  obtain ⟨fm, fb, rfl, hholds⟩ := hc
  exact stage_of_reset hh hk (.inl rfl) hholds

/-- The last job of a level leaves the tree at the start of the next. -/
theorem Content.next (hk : k < h) (hc : Content res ds h (slot k (2 ^ (h - k))) t) :
    Content res ds h (slot (k + 1) 0) t := by
  obtain ⟨fm, fb, rfl, hholds⟩ := hc
  have hslot : ∀ e ≤ h, ∀ i < 2 ^ (h - e), slot k (2 ^ (h - k)) e i = slot (k + 1) 0 e i := by
    intro e he i hi
    rcases Nat.lt_trichotomy e k with hlt | rfl | hgt
    · simp [slot, hlt, Nat.lt_succ_of_lt hlt]
    · simp [slot, hi]
    · rcases Nat.eq_or_lt_of_le hgt with rfl | hgt'
      · have hpow := two_pow_sub hk
        rw [Nat.succ_eq_add_one] at hi ⊢
        rw [slot_above, fill, slot_at, if_pos (by omega), if_neg (by omega)]
      · have h1 : ¬ e < k := by omega
        have h2 : ¬ e = k := by omega
        have h3 : ¬ e = k + 1 := by omega
        have h4 : ¬ e < k + 1 := by omega
        simp [slot, h1, h2, h3, h4]
  refine ⟨fm, fb, rfl, ⟨fun l hl i hi => ?_, fun i hi => ?_⟩⟩
  · rw [← hslot (h - l) (by omega) i (by rw [show h - (h - l) = l by omega]; exact hi)]
    exact hholds.merge l hl i hi
  · rw [← hslot 0 (by omega) i hi]
    exact hholds.base i hi

/-- A full tree is merged from its leaves on. -/
theorem Filling.reset {l : List B} (hh : 0 < h) (hf : Filling h l t) (hds : ∀ i < 2 ^ h, l[i]? = some (ds i)) :
    Stage res ds h 0 0 (t.resetWeights .both) := by
  obtain ⟨fm, fb, rfl, hempty, hbase, -⟩ := hf
  refine stage_of_reset hh (Nat.zero_le h) (.inr ⟨rfl, rfl⟩) ⟨fun e he i hi => ?_, fun i hi => ?_⟩
  · have hslot : slot 0 0 (h - e) i = .empty := by
      rw [slot, if_neg (by omega), if_neg (by omega)]
      by_cases h1 : h - e = 0 + 1
      · rw [if_pos h1, if_neg (by omega), if_neg (by omega)]
      · rw [if_neg h1]
    rw [hslot]
    exact hempty e he i hi
  · have hb := hbase i hi
    rw [hds i hi] at hb
    exact hb

/-- The weights of data to come do not change when the others are reset. -/
theorem Filling.resetMerge {l : List B} (hf : Filling h l t) : Filling h l (t.resetWeights .merge) := by
  obtain ⟨fm, fb, rfl, hempty, hbase, hweighs⟩ := hf
  have hkeep : ∀ (lst : (Weight × Weight) × (Weight × Weight)) (n : MergeNode M), n.2 = .empty →
      (Tree.resetMerge .merge lst n).1.1.1.base = n.1.1.base ∧ (Tree.resetMerge .merge lst n).1.1.2.base = n.1.2.base := by
    intro lst n hn
    obtain ⟨⟨w1, w2⟩, j⟩ := n
    simp only at hn
    subst hn
    exact ⟨rfl, rfl⟩
  refine ⟨_, _, resetWeights_build fm fb .merge, fun e he i hi => ?_, fun i hi => ?_, ⟨fun e he i hi => ?_, fun e he i hi => ?_⟩⟩
  · rw [resetMerge_job]
    exact hempty e he i hi
  · simp only [resetBase_job]
    exact hbase i hi
  · exact (hkeep _ _ (hempty e he i hi)).1.trans (hweighs.left e he i hi)
  · exact (hkeep _ _ (hempty e he i hi)).2.trans (hweighs.right e he i hi)

end Reset

/-! ## Reading a tree -/

theorem filterMap_range {α : Type} (g : Nat → α) (m n : Nat) :
    ((List.range n).filterMap fun i => if i < m then none else some (g i)) = ((List.range n).drop m).map g := by
  rw [← List.filterMap_eq_map']
  conv_lhs => rw [← List.take_append_drop m (List.range n), List.filterMap_append]
  have hnil : ((List.range n).take m).filterMap (fun i => if i < m then none else some (g i)) = [] := by
    rw [List.filterMap_eq_nil_iff]
    intro i hi
    rw [List.take_range, List.mem_range] at hi
    rw [if_pos (by omega)]
  rw [hnil, List.nil_append]
  refine List.filterMap_congr fun i hi => ?_
  rw [List.range_eq_range', List.drop_range', List.mem_range'_1] at hi
  rw [if_neg (by omega)]

/-- The jobs to do are those of the level that is being completed. -/
theorem Content.jobsOnLevel (hk : k ≤ h) (hc : Content res ds h (slot k m) t) :
    t.jobsOnLevel h (h - k : Nat) = ((List.range (2 ^ (h - k))).drop m).map (job res ds k) := by
  obtain ⟨fm, fb, rfl, hholds⟩ := hc
  rw [jobsOnLevel_build, ← filterMap_range]
  rcases Nat.eq_zero_or_pos k with rfl | hpos
  · rw [Nat.sub_zero, if_neg (Nat.lt_irrefl h), if_pos rfl]
    refine List.filterMap_congr fun i hi => ?_
    have hb := hholds.base i (List.mem_range.1 hi)
    rw [slot_at] at hb
    by_cases him : i < m
    · rw [if_pos him] at hb ⊢
      obtain ⟨seq, hb⟩ := hb
      rw [baseTodo_full hb]
      rfl
    · rw [if_neg him] at hb ⊢
      obtain ⟨seq, hb⟩ := hb
      rw [baseTodo_full hb]
      rfl
  · rw [if_pos (by omega)]
    refine List.filterMap_congr fun i hi => ?_
    have hm := hholds.merge (h - k) (by omega) i (List.mem_range.1 hi)
    rw [show h - (h - k) = k by omega, slot_at] at hm
    obtain ⟨k, rfl⟩ : ∃ n, k = n + 1 := ⟨k - 1, by omega⟩
    by_cases him : i < m
    · rw [if_pos him] at hm ⊢
      obtain ⟨seq, hm⟩ := hm
      rw [mergeTodo_full hm]
      rfl
    · rw [if_neg him] at hm ⊢
      obtain ⟨seq, hm⟩ := hm
      rw [mergeTodo_full hm]
      rfl

/-- Nothing is left to do below that level. -/
theorem Content.jobsOnLevel_below (hc : Content res ds h (slot k m) t) {level : Nat} (hlevel : h - k < level)
    (hk : k ≤ h) : t.jobsOnLevel h level = [] := by
  obtain ⟨fm, fb, rfl, hholds⟩ := hc
  rw [jobsOnLevel_build]
  by_cases hlt : level < h
  · rw [if_pos hlt, List.filterMap_eq_nil_iff]
    intro i hi
    have hm := hholds.merge level hlt i (List.mem_range.1 hi)
    rw [slot, if_pos (by omega)] at hm
    obtain ⟨seq, hm⟩ := hm
    rw [mergeTodo_full hm]
    rfl
  · rw [if_neg hlt]
    by_cases heq : level = h
    · rw [if_pos heq, List.filterMap_eq_nil_iff]
      intro i hi
      have hb := hholds.base i (List.mem_range.1 hi)
      rw [slot, if_pos (by omega)] at hb
      obtain ⟨seq, hb⟩ := hb
      rw [baseTodo_full hb]
      rfl
    · rw [if_neg heq]

theorem Content.baseJobs (hc : Content res ds h (slot k m) t) : t.baseJobs = (List.range (2 ^ h)).map ds := by
  obtain ⟨fm, fb, rfl, hholds⟩ := hc
  rw [baseJobs_build, ← List.filterMap_eq_map']
  refine List.filterMap_congr fun i hi => ?_
  have hb := hholds.base i (List.mem_range.1 hi)
  have hfull : ∃ seq st, (fb i).2 = .full ⟨ds i, seq, st⟩ := by
    rw [slot] at hb
    split at hb
    · obtain ⟨seq, hb⟩ := hb
      exact ⟨seq, _, hb⟩
    · rw [if_pos (by omega)] at hb
      split at hb
      · obtain ⟨seq, hb⟩ := hb
        exact ⟨seq, _, hb⟩
      · obtain ⟨seq, hb⟩ := hb
        exact ⟨seq, _, hb⟩
  obtain ⟨seq, st, hfull⟩ := hfull
  rw [leafJob_full hfull]

/-- A new tree. -/
theorem filling_createTree (hh : 0 < h) : Filling h [] (State.createTree h : JobTree M B) := by
  refine ⟨_, _, createLevels_build _ _ _ _, fun _ _ _ _ => rfl, fun i hi => rfl, ⟨fun l hl i hi => ?_, fun l hl i hi => ?_⟩⟩
  all_goals
    have hlevel : ¬ ((h : Int) = -1) := by omega
    have hdiv : 2 ^ h / 2 ^ (l + 1) = 2 ^ (h - (l + 1)) := Nat.pow_div (by omega) (by omega)
    simp only [if_neg hlevel, Nat.zero_add, Int.toNat_natCast, hdiv, remaining, List.length_nil, Nat.zero_sub,
      Nat.sub_zero]
    rfl

end Mina.ParallelScan
