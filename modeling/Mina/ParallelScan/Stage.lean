/-
What a tree of the scan state holds, and what an update does to it.

The levels of a tree are merged one after another from the leaves up. A tree
whose first `k` levels of jobs are completed, and `m` jobs of the next one,
is at `Stage k m`: `slot` says what every node holds then, and the weights
count the jobs that are left below a node. A tree that is being filled with
data is `Filling`. Jobs that come in are shared among the nodes from left to
right (`share`), as the weights say, so that the next ones to do are done.
-/
import Mina.Base.Parts
import Mina.ParallelScan.TreeFacts

namespace Mina.ParallelScan

open Mina.ParallelScan.Tree

/-! ## Shares -/

/-- Of the `2 ^ s` positions in block `i`, how many are not below `m`. -/
def remaining (m s i : Nat) : Nat := 2 ^ s - (m - i * 2 ^ s)

/-- The part of `jobs`, taken as the jobs for the positions from `m` on, that
falls in block `i` of `2 ^ s` positions. -/
def share {α : Type} (m s i : Nat) (jobs : List α) : List α := (jobs.drop (i * 2 ^ s - m)).take (remaining m s i)

section Share

variable {α : Type} (m s i : Nat) (jobs : List α)

theorem block_left : 2 * i * 2 ^ s = i * 2 ^ (s + 1) := Parts.block_left s i

theorem block_right : (2 * i + 1) * 2 ^ s = i * 2 ^ (s + 1) + 2 ^ s := by
  rw [Nat.pow_succ]
  ring

theorem sub_mono : Monotone fun j => j - m := fun _ _ hle => Nat.sub_le_sub_right hle m

theorem remaining_eq : remaining m s i = Parts.span (fun j => j - m) s i := by
  rw [remaining, Parts.span, Nat.succ_mul]
  omega

theorem share_eq : share m s i jobs = Parts.part (fun j => j - m) s i jobs := by
  rw [share, Parts.part, remaining_eq]

theorem remaining_split : remaining m (s + 1) i = remaining m s (2 * i) + remaining m s (2 * i + 1) := by
  simp only [remaining_eq]
  exact Parts.span_succ (sub_mono m)

theorem share_left : (share m (s + 1) i jobs).take (remaining m s (2 * i)) = share m s (2 * i) jobs := by
  simp only [remaining_eq, share_eq]
  exact Parts.part_left (sub_mono m)

theorem share_right : ((share m (s + 1) i jobs).drop (remaining m s (2 * i))).take (remaining m s (2 * i + 1)) =
    share m s (2 * i + 1) jobs := by
  simp only [remaining_eq, share_eq]
  exact Parts.part_right (sub_mono m)

theorem share_append : share m (s + 1) i jobs = share m s (2 * i) jobs ++ share m s (2 * i + 1) jobs := by
  simp only [share_eq]
  exact Parts.part_append (sub_mono m)

/-- What is taken is no longer left. -/
theorem remaining_add : remaining (m + jobs.length) s i + (share m s i jobs).length = remaining m s i := by
  simp only [remaining_eq, share_eq, ← Nat.sub_sub]
  exact Parts.span_sub (sub_mono m)

theorem share_zero : share m 0 i jobs = if m ≤ i then jobs[i - m]?.toList else [] := by
  rw [share, remaining, Nat.pow_zero, Nat.mul_one]
  by_cases h : m ≤ i
  · rw [if_pos h, Nat.sub_eq_zero_of_le h, Nat.sub_zero, List.take_one, List.head?_drop]
  · rw [if_neg h, show 1 - (m - i) = 0 by omega, List.take_zero]

theorem share_root (h : m + jobs.length ≤ 2 ^ s) : share m s 0 jobs = jobs := by
  rw [share, remaining, Nat.zero_mul, Nat.zero_sub, List.drop_zero, Nat.sub_zero, List.take_of_length_le (by omega)]

end Share

/-! ## Proofs and slots -/

section Slots

variable {M B : Type} (res : AvailableJob M B → M) (ds : Nat → B)

/-- The result of the `i`th job on the level `k` above the leaves. -/
def proof : Nat → Nat → M
  | 0, i => res (.base (ds i))
  | k + 1, i => res (.merge (proof k (2 * i)) (proof k (2 * i + 1)))

/-- The `i`th job on the level `k` above the leaves. -/
def job : Nat → Nat → AvailableJob M B
  | 0, i => .base (ds i)
  | k + 1, i => .merge (proof res ds k (2 * i)) (proof res ds k (2 * i + 1))

theorem proof_eq (k i : Nat) : proof res ds k i = res (job res ds k i) := by
  cases k <;> rfl

/-- What a node can hold. -/
inductive Slot where
  | empty
  | part
  | todo
  | done

/-- What the `i`th node on the level `e` above the leaves holds when `k`
levels and `m` jobs of the next one are completed. -/
def slot (k m e i : Nat) : Slot :=
  if e < k then .done
  else if e = k then if i < m then .done else .todo
  else if e = k + 1 then if 2 * i + 1 < m then .todo else if 2 * i < m then .part else .empty
  else .empty

/-- The merge node of a slot, whatever its sequence number. -/
def MergeIs (e i : Nat) : Slot → MergeJob M → Prop
  | .empty, j => j = .empty
  | .part, j => j = .part (proof res ds (e - 1) (2 * i))
  | .todo, j => ∃ seq, j = .full ⟨proof res ds (e - 1) (2 * i), proof res ds (e - 1) (2 * i + 1), seq, .todo⟩
  | .done, j => ∃ seq, j = .full ⟨proof res ds (e - 1) (2 * i), proof res ds (e - 1) (2 * i + 1), seq, .done⟩

/-- The leaf of a slot. -/
def BaseIs (i : Nat) : Slot → BaseJob B → Prop
  | .empty, j => j = .empty
  | .part, _ => False
  | .todo, j => ∃ seq, j = .full ⟨ds i, seq, .todo⟩
  | .done, j => ∃ seq, j = .full ⟨ds i, seq, .done⟩

/-- The nodes and leaves of a tree of depth `h` are those of its slots. -/
structure Holds (h : Nat) (σ : Nat → Nat → Slot) (fm : Nat → Nat → MergeNode M) (fb : Nat → BaseNode B) : Prop where
  merge : ∀ l < h, ∀ i < 2 ^ l, MergeIs res ds (h - l) i (σ (h - l) i) (fm l i).2
  base : ∀ i < 2 ^ h, BaseIs ds i (σ 0 i) (fb i).2

/-- The weights above level `u` count the jobs of that level that are left. -/
structure Weighs (lens : WeightLens) (u m : Nat) (fm : Nat → Nat → MergeNode M) : Prop where
  left : ∀ l < u, ∀ i < 2 ^ l, lens.get (fm l i).1.1 = remaining m (u - (l + 1)) (2 * i)
  right : ∀ l < u, ∀ i < 2 ^ l, lens.get (fm l i).1.2 = remaining m (u - (l + 1)) (2 * i + 1)

/-- A tree with the jobs of the slots `σ`. -/
def Content (h : Nat) (σ : Nat → Nat → Slot) (t : JobTree M B) : Prop :=
  ∃ fm fb, t = build h 0 fm fb ∧ Holds res ds h σ fm fb

/-- A tree with data `ds`, `k` levels of jobs and `m` jobs of the next one
completed. -/
def Stage (h k m : Nat) (t : JobTree M B) : Prop :=
  ∃ fm fb, t = build h 0 fm fb ∧ Holds res ds h (slot k m) fm fb ∧ Weighs Weight.mergeLens (h - k) m fm ∧
    (k = h → (fm 0 0).1.1.merge + (fm 0 0).1.2.merge = 1)

/-- The leaf of a datum, or of none. -/
def LeafIs : Option B → BaseJob B → Prop
  | none, j => j = .empty
  | some d, j => ∃ seq, j = .full ⟨d, seq, .todo⟩

/-- A tree that is being filled and has the data `l`. -/
def Filling (h : Nat) (l : List B) (t : JobTree M B) : Prop :=
  ∃ fm fb, t = build h 0 fm fb ∧ (∀ l < h, ∀ i < 2 ^ l, (fm l i).2 = .empty) ∧
    (∀ i < 2 ^ h, LeafIs l[i]? (fb i).2) ∧
    Weighs Weight.baseLens h l.length fm

end Slots

/-! ## Jobs at a node -/

/-- A lens that gets what was set. -/
structure LawfulLens (lens : WeightLens) : Prop where
  get_set : ∀ n w, lens.get (lens.set n w) = n

theorem mergeLens_lawful : LawfulLens Weight.mergeLens := ⟨fun _ _ => rfl⟩

theorem baseLens_lawful : LawfulLens Weight.baseLens := ⟨fun _ _ => rfl⟩

section Node

variable {M B : Type} {lens : WeightLens} (seqNo : Int)

/-- More than one level above the updated one, only the weights change: they
count down the jobs that are sent left and right. -/
theorem addMerges_counts (hlens : LawfulLens lens) {u l a b : Nat} (hu : l + 1 < u) {ls rs : List (Job M B)}
    {node : MergeNode M} (hleft : lens.get node.1.1 = (a + ls.length : Nat))
    (hright : lens.get node.1.2 = (b + rs.length : Nat)) (hsplit : (ls ++ rs).take (a + ls.length) = ls) :
    ∃ node', addMerges lens u seqNo (ls ++ rs) l node = .ok (node', none) ∧ node'.2 = node.2 ∧
      lens.get node'.1.1 = a ∧ lens.get node'.1.2 = b := by
  obtain ⟨⟨w1, w2⟩, j⟩ := node
  simp only at hleft hright
  have h1 : ¬ (l : Int) = (u : Int) - 1 := by omega
  have h2 : ¬ (l : Int) = (u : Int) := by omega
  have h3 : (l : Int) < (u : Int) - 1 := by omega
  have hlen := congrArg List.length hsplit
  rw [List.length_take, List.length_append] at hlen
  simp only [addMerges, if_neg h1, if_neg h2, if_pos h3]
  cases hjobs : ls ++ rs with
  | nil =>
    obtain ⟨hnil, hnil'⟩ := List.append_eq_nil_iff.1 hjobs
    rw [hnil, List.length_nil, Nat.add_zero] at hleft
    rw [hnil', List.length_nil, Nat.add_zero] at hright
    exact ⟨((w1, w2), j), rfl, rfl, hleft, hright⟩
  | cons job rest =>
    have htotal : (job :: rest).length = ls.length + rs.length := by rw [← hjobs, List.length_append]
    refine ⟨_, rfl, rfl, ?_, ?_⟩
    · rw [hlens.get_set, hleft, htotal]
      omega
    · rw [hlens.get_set, hleft, hright, htotal]
      omega

theorem addMerges_above (hlens : LawfulLens lens) {u l s i m : Nat} (hu : u = l + 1 + s) (hs : 0 < s)
    (jobs : List (Job M B)) {node : MergeNode M} (hleft : lens.get node.1.1 = remaining m s (2 * i))
    (hright : lens.get node.1.2 = remaining m s (2 * i + 1)) :
    ∃ node', addMerges lens u seqNo (share m (s + 1) i jobs) l node = .ok (node', none) ∧ node'.2 = node.2 ∧
      lens.get node'.1.1 = remaining (m + jobs.length) s (2 * i) ∧
      lens.get node'.1.2 = remaining (m + jobs.length) s (2 * i + 1) := by
  rw [← remaining_add m s _ jobs] at hleft hright
  rw [share_append]
  refine addMerges_counts seqNo hlens (by omega) hleft hright ?_
  rw [remaining_add, ← share_append, share_left]

theorem slot_at (k m i : Nat) : slot k m k i = if i < m then .done else .todo := by
  simp [slot]

/-- What the `i`th node of a level is once the first `m` jobs of the level
below it are completed. -/
def fill (m i : Nat) : Slot := if 2 * i + 1 < m then .todo else if 2 * i < m then .part else .empty

theorem slot_above (k m i : Nat) : slot k m (k + 1) i = fill m i := by
  simp [slot, fill]

theorem remaining_zero (m i : Nat) : remaining m 0 i = 1 - (m - i) := by
  rw [remaining, Nat.pow_zero, Nat.mul_one]

variable {res : AvailableJob M B → M} {ds : Nat → B} {k m : Nat} {xs : List M}

/-- The results that reach the position `j`, of those for the `n` positions
from `m` on. -/
def fed (res : AvailableJob M B → M) (ds : Nat → B) (k m n j : Nat) : List (Job M B) :=
  if m ≤ j ∧ j < m + n then [.merge (proof res ds k j)] else []

/-- The results that reach a node of the completed level. -/
theorem share_results (hxs : ∀ q < xs.length, xs[q]? = some (proof res ds k (m + q))) (j : Nat) :
    share m 0 j (xs.map (Job.merge : M → Job M B)) = fed res ds k m xs.length j := by
  rw [share_zero, List.getElem?_map, fed]
  by_cases h : m ≤ j
  · by_cases h' : j < m + xs.length
    · rw [if_pos h, if_pos ⟨h, h'⟩, hxs (j - m) (by omega), Nat.add_sub_cancel' h]
      rfl
    · rw [if_pos h, if_neg (fun hn => h' hn.2), List.getElem?_eq_none (by omega)]
      rfl
  · rw [if_neg h, if_neg fun hn => h hn.1]

/-- One level above the completed jobs, their results make new ones. -/
theorem addMerges_fed {l i n : Nat} {node : MergeNode M} (hnode : MergeIs res ds (k + 1) i (fill m i) node.2) :
    ∃ node', addMerges Weight.mergeLens (l + 1 : Nat) seqNo
        (fed res ds k m n (2 * i) ++ fed res ds k m n (2 * i + 1)) l node = .ok (node', none) ∧
      MergeIs res ds (k + 1) i (fill (m + n) i) node'.2 ∧
      node'.1.1.merge = node.1.1.merge - (fed res ds k m n (2 * i)).length ∧
      node'.1.2.merge = node.1.2.merge - (fed res ds k m n (2 * i + 1)).length := by
  obtain ⟨⟨w1, w2⟩, j⟩ := node
  have hlevel : (l : Int) = ((l + 1 : Nat) : Int) - 1 := by omega
  simp only [fill] at hnode ⊢
  simp only [addMerges, if_pos hlevel, fed]
  by_cases hl : m ≤ 2 * i ∧ 2 * i < m + n
  · rw [if_pos hl]
    rw [if_neg (by omega), if_neg (by omega)] at hnode
    subst hnode
    by_cases hr : m ≤ 2 * i + 1 ∧ 2 * i + 1 < m + n
    · rw [if_pos hr, if_pos hr.2]
      exact ⟨_, rfl, ⟨seqNo, rfl⟩, rfl, rfl⟩
    · have hr' : ¬ 2 * i + 1 < m + n := by omega
      rw [if_neg hr, if_neg hr', if_pos hl.2]
      exact ⟨_, rfl, rfl, rfl, (sub_zero _).symm⟩
  · rw [if_neg hl]
    by_cases hr : m ≤ 2 * i + 1 ∧ 2 * i + 1 < m + n
    · rw [if_neg (by omega), if_pos (by omega)] at hnode
      rw [if_pos hr, if_pos hr.2]
      subst hnode
      exact ⟨_, rfl, ⟨seqNo, rfl⟩, (sub_zero _).symm, rfl⟩
    · rw [if_neg hr]
      refine ⟨_, rfl, ?_, (sub_zero _).symm, (sub_zero _).symm⟩
      have hsame : (if 2 * i + 1 < m + n then Slot.todo else if 2 * i < m + n then .part else .empty) =
          if 2 * i + 1 < m then .todo else if 2 * i < m then .part else .empty := by
        by_cases h1 : 2 * i + 1 < m
        · rw [if_pos h1, if_pos (by omega)]
        · by_cases h2 : 2 * i < m
          · rw [if_neg h1, if_pos h2, if_neg (by omega), if_pos (by omega)]
          · rw [if_neg h1, if_neg h2, if_neg (by omega), if_neg (by omega)]
      rw [hsame]
      exact hnode

theorem addMerges_results {l i : Nat} {node : MergeNode M}
    (hxs : ∀ q < xs.length, xs[q]? = some (proof res ds k (m + q)))
    (hnode : MergeIs res ds (k + 1) i (slot k m (k + 1) i) node.2)
    (hleft : node.1.1.merge = remaining m 0 (2 * i)) (hright : node.1.2.merge = remaining m 0 (2 * i + 1)) :
    ∃ node', addMerges Weight.mergeLens (l + 1 : Nat) seqNo
        (share m 1 i (xs.map (Job.merge : M → Job M B))) l node = .ok (node', none) ∧
      MergeIs res ds (k + 1) i (slot k (m + xs.length) (k + 1) i) node'.2 ∧
      node'.1.1.merge = remaining (m + xs.length) 0 (2 * i) ∧
      node'.1.2.merge = remaining (m + xs.length) 0 (2 * i + 1) := by
  rw [slot_above] at hnode ⊢
  obtain ⟨node', hok, his, hl, hr⟩ := addMerges_fed (n := xs.length) (l := l) seqNo hnode
  have hcount : ∀ j, remaining (m + xs.length) 0 j + (fed res ds k m xs.length j).length = remaining m 0 j := by
    intro j
    rw [← share_results hxs, ← List.length_map (f := (Job.merge : M → Job M B)), remaining_add]
  rw [share_append, share_results hxs, share_results hxs]
  refine ⟨node', hok, his, ?_, ?_⟩
  · rw [hl, hleft, ← hcount]
    omega
  · rw [hr, hright, ← hcount]
    omega

/-- On the level of the completed jobs they are marked as done. -/
theorem addMerges_marked {l i n : Nat} {node : MergeNode M} {σ : Slot}
    (hnode : MergeIs res ds k i (if m ≤ i ∧ i < m + n then .todo else σ) node.2) :
    ∃ node', addMerges Weight.mergeLens (l : Nat) seqNo (fed res ds k m n i) l node =
        .ok (node', if l = 0 ∧ m ≤ i ∧ i < m + n then some (proof res ds k i) else none) ∧
      MergeIs res ds k i (if m ≤ i ∧ i < m + n then .done else σ) node'.2 ∧
      (¬ (m ≤ i ∧ i < m + n) → node' = node) ∧
      (l = 0 ∧ m ≤ i ∧ i < m + n → node'.1.1.merge = 0 ∧ node'.1.2.merge = 0) := by
  obtain ⟨⟨w1, w2⟩, j⟩ := node
  have hlevel : ¬ (l : Int) = (l : Int) - 1 := by omega
  simp only [addMerges, if_neg hlevel, if_true, fed]
  by_cases h : m ≤ i ∧ i < m + n
  · rw [if_pos h] at hnode
    obtain ⟨seq, rfl⟩ := hnode
    simp only [if_pos h]
    by_cases h0 : l = 0
    · simp only [h0, if_true, true_and, if_pos h]
      exact ⟨_, rfl, ⟨seq, rfl⟩, fun hn => absurd h hn, fun _ => ⟨rfl, rfl⟩⟩
    · simp only [h0, if_false, false_and]
      exact ⟨_, rfl, ⟨seq, rfl⟩, fun hn => absurd h hn, fun hn => hn.elim⟩
  · simp only [h, and_false, if_false] at hnode ⊢
    exact ⟨_, rfl, hnode, fun _ => rfl, fun hn => hn.elim⟩

theorem slot_marked (k m n i : Nat) : (slot k m k i = if m ≤ i ∧ i < m + n then .todo else slot k m k i) ∧
    slot k (m + n) k i = if m ≤ i ∧ i < m + n then .done else slot k m k i := by
  rw [slot_at, slot_at]
  by_cases h : m ≤ i ∧ i < m + n
  · rw [if_pos h, if_pos h, if_neg (by omega), if_pos (by omega)]
    exact ⟨rfl, rfl⟩
  · rw [if_neg h, if_neg h]
    refine ⟨rfl, ?_⟩
    by_cases hi : i < m
    · rw [if_pos hi, if_pos (by omega)]
    · rw [if_neg hi, if_neg (by omega)]

theorem addMerges_completed {l i : Nat} {node : MergeNode M}
    (hxs : ∀ q < xs.length, xs[q]? = some (proof res ds k (m + q)))
    (hnode : MergeIs res ds k i (slot k m k i) node.2) :
    ∃ node', addMerges Weight.mergeLens (l : Nat) seqNo (share m 0 i (xs.map (Job.merge : M → Job M B))) l node =
        .ok (node', if l = 0 ∧ m ≤ i ∧ i < m + xs.length then some (proof res ds k i) else none) ∧
      MergeIs res ds k i (slot k (m + xs.length) k i) node'.2 ∧ (xs = [] → node' = node) := by
  rw [(slot_marked k m xs.length i).1] at hnode
  obtain ⟨node', hok, his, hsame, -⟩ := addMerges_marked seqNo (l := l) hnode
  rw [share_results hxs, (slot_marked k m xs.length i).2]
  refine ⟨node', hok, his, fun hnil => hsame ?_⟩
  rw [hnil, List.length_nil]
  omega

theorem addBases_marked {u : Int} {i n : Nat} {node : BaseNode B} {σ : Slot}
    (hnode : BaseIs ds i (if m ≤ i ∧ i < m + n then .todo else σ) node.2) :
    ∃ node', addBases Weight.mergeLens u seqNo (fed res ds 0 m n i) node = .ok node' ∧
      BaseIs ds i (if m ≤ i ∧ i < m + n then .done else σ) node'.2 := by
  obtain ⟨w, j⟩ := node
  rw [fed]
  by_cases h : m ≤ i ∧ i < m + n
  · rw [if_pos h] at hnode ⊢
    obtain ⟨seq, rfl⟩ := hnode
    rw [if_pos h]
    exact ⟨_, rfl, seq, rfl⟩
  · rw [if_neg h] at hnode ⊢
    rw [if_neg h]
    exact ⟨_, rfl, hnode⟩

theorem addBases_completed {u : Int} {i : Nat} {node : BaseNode B}
    (hxs : ∀ q < xs.length, xs[q]? = some (proof res ds 0 (m + q)))
    (hnode : BaseIs ds i (slot 0 m 0 i) node.2) :
    ∃ node', addBases Weight.mergeLens u seqNo (share m 0 i (xs.map (Job.merge : M → Job M B))) node = .ok node' ∧
      BaseIs ds i (slot 0 (m + xs.length) 0 i) node'.2 := by
  rw [(slot_marked 0 m xs.length i).1] at hnode
  rw [share_results hxs, (slot_marked 0 m xs.length i).2]
  exact addBases_marked seqNo hnode

/-- The data that reaches a leaf. -/
theorem share_data (l data : List B) (j : Nat) :
    share l.length 0 j (data.map (Job.base : B → Job M B)) =
      if l.length ≤ j then ((data[j - l.length]?).map Job.base).toList else [] := by
  rw [share_zero, List.getElem?_map]

/-- One level above the leaves, new data changes the weights only. -/
theorem addMerges_data {l i : Nat} (d data : List B) {node : MergeNode M} (hnode : node.2 = .empty)
    (hleft : node.1.1.base = remaining d.length 0 (2 * i))
    (hright : node.1.2.base = remaining d.length 0 (2 * i + 1)) :
    ∃ node', addMerges Weight.baseLens (l + 1 : Nat) seqNo
        (share d.length 1 i (data.map (Job.base : B → Job M B))) l node = .ok (node', none) ∧
      node'.2 = .empty ∧ node'.1.1.base = remaining (d.length + data.length) 0 (2 * i) ∧
      node'.1.2.base = remaining (d.length + data.length) 0 (2 * i + 1) := by
  obtain ⟨⟨w1, w2⟩, j⟩ := node
  simp only [remaining_zero] at hnode hleft hright ⊢
  subst hnode
  have hlevel : (l : Int) = ((l + 1 : Nat) : Int) - 1 := by omega
  rw [share_append, share_data, share_data]
  simp only [addMerges, if_pos hlevel]
  by_cases h1 : d.length ≤ 2 * i
  · have h2 : d.length ≤ 2 * i + 1 := by omega
    rw [if_pos h1, if_pos h2]
    cases hg1 : data[2 * i - d.length]? with
    | none =>
      have := List.getElem?_eq_none_iff.1 hg1
      rw [List.getElem?_eq_none (by omega)]
      exact ⟨_, rfl, rfl, by simp only; omega, by simp only; omega⟩
    | some a =>
      have := (List.getElem?_eq_some_iff.1 hg1).1
      cases hg2 : data[2 * i + 1 - d.length]? with
      | none =>
        have := List.getElem?_eq_none_iff.1 hg2
        have hw : ¬ w1.base = 0 := by omega
        refine ⟨_, if_neg hw, rfl, ?_, ?_⟩ <;> simp only [Weight.baseLens] <;> omega
      | some b =>
        have := (List.getElem?_eq_some_iff.1 hg2).1
        refine ⟨_, rfl, rfl, ?_, ?_⟩ <;> simp only [Weight.baseLens] <;> omega
  · rw [if_neg h1]
    by_cases h2 : d.length ≤ 2 * i + 1
    · rw [if_pos h2]
      cases hg2 : data[2 * i + 1 - d.length]? with
      | none =>
        have := List.getElem?_eq_none_iff.1 hg2
        exact ⟨_, rfl, rfl, by simp only; omega, by simp only; omega⟩
      | some b =>
        have := (List.getElem?_eq_some_iff.1 hg2).1
        have hw : w1.base = 0 := by omega
        refine ⟨_, if_pos hw, rfl, ?_, ?_⟩ <;> simp only [Weight.baseLens] <;> omega
    · rw [if_neg h2]
      exact ⟨_, rfl, rfl, by simp only; omega, by simp only; omega⟩

end Node

end Mina.ParallelScan
