/-
`fold_chronological`: what the trees of a scan state hold, in order.

The fold reads a tree from the root down, level by level, and of each level
only what is live: the left proof of a job that waits for its right one, the
proofs of a job that is to do. `scan_statement` of the staged ledger merges
them in this order. A level begins where the one above it ends
(`Frontier.reach`), so the tree is read from left to right (`Content.reads`).
-/
import Mina.ParallelScan.Turns
import Mina.ParallelScan.Stranded
import Mina.ParallelScan.Leaner

namespace Mina.ParallelScan

open Mina.ParallelScan.Tree State

variable {M B : Type}

namespace State

/-- `fold_chronological`: the oldest tree first, and each from the root
down. -/
def foldChronological {A : Type} (t : State M B) (init : A) (fMerge : A → MergeNode M → A)
    (fBase : A → BaseNode B → A) : A :=
  t.trees.toList.reverse.foldl (fun acc tree => tree.foldDepth (fun _ => fMerge) fBase acc) init

end State

/-! ## Statements -/

section Steps

variable (op : M → M → M) (f : B → M)

/-- `merge_acc`. -/
def mergeAcc : Option M → M → Option M
  | none, s₂ => some s₂
  | some s₁, s₂ => some (op s₁ s₂)

/-- `fold_step_a`. -/
def foldStepA (acc : Option M) : MergeNode M → Option M
  | (_, .part proof) => mergeAcc op acc proof
  | (_, .full ⟨proof₁, proof₂, _, .todo⟩) => mergeAcc op acc (op proof₁ proof₂)
  | _ => acc

/-- `fold_step_d`. -/
def foldStepD (acc : Option M) : BaseNode B → Option M
  | (_, .full ⟨transaction, _, .todo⟩) => mergeAcc op acc (f transaction)
  | _ => acc

/-- The product with more data on the right. -/
def foldData (acc : Option M) (data : List B) : Option M := data.foldl (fun acc d => mergeAcc op acc (f d)) acc

variable {op f}

theorem foldData_append (acc : Option M) (data data' : List B) :
    foldData op f acc (data ++ data') = foldData op f (foldData op f acc data) data' := List.foldl_append

theorem mergeAcc_assoc (hop : ∀ a b c, op (op a b) c = op a (op b c)) (acc : Option M) (a b : M) :
    mergeAcc op (mergeAcc op acc a) b = mergeAcc op acc (op a b) := by
  cases acc with
  | none => rfl
  | some s => exact congrArg some (hop s a b)

theorem foldData_mergeAcc (hop : ∀ a b c, op (op a b) c = op a (op b c)) (acc : Option M) (a : M) (data : List B) :
    foldData op f (mergeAcc op acc a) data = mergeAcc op acc ((data.map f).foldl op a) := by
  induction data generalizing a with
  | nil => rfl
  | cons d data ih =>
    rw [foldData, List.foldl_cons, mergeAcc_assoc hop]
    exact ih (op a (f d))

theorem foldData_of_product (hop : ∀ a b c, op (op a b) c = op a (op b c)) (acc : Option M) {data : List B} {p : M}
    (hp : product op f data = some p) : foldData op f acc data = mergeAcc op acc p := by
  cases data with
  | nil => cases hp
  | cons d data =>
    rw [product, Option.some.injEq] at hp
    rw [← hp]
    exact foldData_mergeAcc hop acc (f d) data

theorem foldData_none (data : List B) : foldData op f none data = product op f data := by
  cases data with
  | nil => rfl
  | cons d data =>
    have hsome : ∀ a, foldData op f (some a) data = some ((data.map f).foldl op a) := by
      induction data with
      | nil => exact fun _ => rfl
      | cons d data ih => exact fun a => ih (op a (f d))
    exact hsome (f d)

end Steps

/-! ## A frontier from left to right -/

/-- The data from position `a` up to `b`. -/
def segment (ds : Nat → B) (a b : Nat) : List B := (List.range' a (b - a)).map ds

theorem segment_append (ds : Nat → B) {a b c : Nat} (hab : a ≤ b) (hbc : b ≤ c) :
    segment ds a b ++ segment ds b c = segment ds a c := by
  have happend := @List.range'_append_1 a (b - a) (c - b)
  rw [Nat.add_sub_cancel' hab, show b - a + (c - b) = c - a by omega] at happend
  rw [segment, segment, ← List.map_append, happend, segment]

theorem segment_self (ds : Nat → B) (a : Nat) : segment ds a a = [] := by
  rw [segment, Nat.sub_self]
  rfl

section Frontier

variable {op : M → M → M} {f : B → M} {ds : Nat → B} {h : Nat} {F : Frontier h}

/-- Steps each of which takes a segment of the data. -/
theorem foldl_segments (bound : Nat → Nat) (hmono : Monotone bound) {step : Option M → Nat → Option M} {n : Nat}
    (hstep : ∀ i < n, ∀ acc, step acc i = foldData op f acc (segment ds (bound i) (bound (i + 1)))) (acc : Option M) :
    (List.range n).foldl step acc = foldData op f acc (segment ds (bound 0) (bound n)) := by
  induction n with
  | zero => rw [segment_self]; rfl
  | succ n ih =>
    rw [List.range_succ, List.foldl_append, ih fun i hi => hstep i (by omega), List.foldl_cons, List.foldl_nil,
      hstep n (Nat.lt_succ_self n), ← foldData_append, segment_append ds (hmono (Nat.zero_le n)) (hmono (Nat.le_succ n))]

theorem foldData_proof (hop : ∀ a b c, op (op a b) c = op a (op b c)) (acc : Option M) (e i : Nat) :
    foldData op f acc (segment ds (2 ^ e * i) (2 ^ e * (i + 1))) =
      mergeAcc op acc (proof (jobResult op f) ds e i) := by
  have hproduct := product_proof (f := f) hop ds e i
  refine foldData_of_product hop acc (hproduct ▸ congrArg _ ?_)
  rw [segment, Nat.mul_succ, Nat.add_sub_cancel_left, List.range'_eq_map_range, List.map_map, Nat.mul_comm i]
  rfl

/-- Where the nodes before `i` have come to, in nodes of the height below:
what is above a node that is done is read before, and what has no proof yet is
read after. -/
def Frontier.reach (F : Frontier h) (e i : Nat) : Nat := max (2 * F.done (e + 1)) (min (2 * i) (F.done e))

theorem Frontier.reach_mono (F : Frontier h) (e : Nat) : Monotone (F.reach e) := by
  intro i j hij
  rw [reach, reach]
  omega

theorem Frontier.reach_zero (F : Frontier h) (e : Nat) : F.reach e 0 = 2 * F.done (e + 1) := by
  rw [reach]
  omega

theorem Frontier.reach_all (F : Frontier h) {e : Nat} (he : e < h) : F.reach e (2 ^ (h - (e + 1))) = F.done e := by
  have hmerge := F.merge_le e
  have hle := F.done_le he.le
  rw [two_pow_sub he] at hle
  rw [reach]
  omega

/-- A merge node reads what is live of it. -/
theorem foldStepA_slot (hop : ∀ a b c, op (op a b) c = op a (op b c)) {e i : Nat} {n : MergeNode M}
    (hn : MergeIs (jobResult op f) ds (e + 1) i (F.slot (e + 1) i) n.2) (acc : Option M) :
    foldStepA op acc n = foldData op f acc (segment ds (2 ^ e * F.reach e i) (2 ^ e * F.reach e (i + 1))) := by
  have hmerge := F.merge_le e
  obtain ⟨w, j⟩ := n
  by_cases hdone : i < F.done (e + 1)
  · rw [Frontier.slot_done hdone] at hn
    obtain ⟨seq, hn⟩ := hn
    dsimp only at hn
    rw [hn, Frontier.reach, Frontier.reach, show max (2 * F.done (e + 1)) (min (2 * i) (F.done e)) =
      max (2 * F.done (e + 1)) (min (2 * (i + 1)) (F.done e)) by omega, segment_self]
    rfl
  rw [Frontier.slot, if_neg hdone, fill] at hn
  have hleft : F.reach e i = min (2 * i) (F.done e) := by
    rw [Frontier.reach]
    omega
  have hright : F.reach e (i + 1) = min (2 * i + 2) (F.done e) := by
    rw [Frontier.reach]
    omega
  rw [hleft, hright]
  by_cases htodo : 2 * i + 1 < F.done e
  · rw [if_pos htodo] at hn
    obtain ⟨seq, hn⟩ := hn
    dsimp only at hn
    rw [hn, Nat.min_eq_left (by omega), Nat.min_eq_left (by omega),
      ← segment_append ds (b := 2 ^ e * (2 * i + 1)) (Nat.mul_le_mul_left _ (by omega)) (Nat.mul_le_mul_left _ (by omega)),
      foldData_append, foldData_proof hop, foldData_proof hop, mergeAcc_assoc hop]
    rfl
  rw [if_neg htodo] at hn
  by_cases hpart : 2 * i < F.done e
  · rw [if_pos hpart] at hn
    dsimp only [MergeIs] at hn
    rw [hn, Nat.min_eq_left (by omega), show min (2 * i + 2) (F.done e) = 2 * i + 1 by omega, foldData_proof hop]
    rfl
  · rw [if_neg hpart] at hn
    dsimp only [MergeIs] at hn
    rw [hn, Nat.min_eq_right (by omega), Nat.min_eq_right (by omega), segment_self]
    rfl

theorem foldStepD_slot {i : Nat} {n : BaseNode B} (hn : BaseIs ds i (F.slot 0 i) n.2) (acc : Option M) :
    foldStepD op f acc n = foldData op f acc (segment ds (max (F.done 0) i) (max (F.done 0) (i + 1))) := by
  obtain ⟨w, j⟩ := n
  rw [Frontier.slot] at hn
  by_cases hdone : i < F.done 0
  · rw [if_pos hdone] at hn
    obtain ⟨seq, hn⟩ := hn
    dsimp only at hn
    rw [hn, Nat.max_eq_left (by omega), Nat.max_eq_left (by omega), segment_self]
    rfl
  · rw [if_neg hdone] at hn
    obtain ⟨seq, hn⟩ := hn
    dsimp only at hn
    rw [hn, Nat.max_eq_right (by omega), Nat.max_eq_right (by omega), segment, Nat.add_sub_cancel_left]
    rfl

variable (op f) in
/-- The fold over the tree reads its data in order. -/
def Reads (t : JobTree M B) : Prop :=
  ∀ acc, t.foldDepth (fun _ => foldStepA op) (foldStepD op f) acc = foldData op f acc t.baseJobs

/-- A tree that is not merged is read from the root down as its data are from
left to right: a level goes on where the one above it ends. -/
theorem Content.reads (hop : ∀ a b c, op (op a b) c = op a (op b c)) {t : JobTree M B}
    (hc : Content (jobResult op f) ds h F.slot t) (hroot : F.done h = 0) : Reads op f t := by
  intro acc
  have hdata := hc.data
  obtain ⟨fm, fb, rfl, hholds⟩ := hc
  have hlevel : ∀ l < h, ∀ acc, (List.range (2 ^ l)).foldl (fun acc i => foldStepA op acc (fm l i)) acc =
      foldData op f acc (segment ds (2 ^ (h - l) * F.done (h - l)) (2 ^ (h - (l + 1)) * F.done (h - (l + 1)))) := by
    intro l hl acc
    have he : h - l = h - (l + 1) + 1 := by omega
    have hcount : 2 ^ l = 2 ^ (h - (h - (l + 1) + 1)) := by rw [← he, Nat.sub_sub_self hl.le]
    rw [foldl_segments (fun i => 2 ^ (h - (l + 1)) * F.reach (h - (l + 1)) i)
      (fun i j hij => Nat.mul_le_mul_left _ (F.reach_mono _ hij)) (fun i hi acc => ?_), F.reach_zero, hcount,
      F.reach_all (by omega), he, Nat.pow_succ, Nat.mul_assoc]
    have hm := hholds.merge l hl i hi
    rw [he] at hm
    exact foldStepA_slot hop hm acc
  have hmono : ∀ l < h, 2 ^ (h - l) * F.done (h - l) ≤ 2 ^ (h - (l + 1)) * F.done (h - (l + 1)) := by
    intro l hl
    have he : h - l = h - (l + 1) + 1 := by omega
    rw [he, Nat.pow_succ, Nat.mul_assoc]
    exact Nat.mul_le_mul_left _ (F.merge_le _)
  have hupper : ∀ n ≤ h, ∀ acc, (List.range n).foldl
      (fun acc l => (List.range (2 ^ l)).foldl (fun acc i => foldStepA op acc (fm l i)) acc) acc =
        foldData op f acc (segment ds 0 (2 ^ (h - n) * F.done (h - n))) := by
    intro n hn acc
    induction n with
    | zero =>
      rw [Nat.sub_zero, hroot, Nat.mul_zero, segment_self]
      rfl
    | succ n ih =>
      rw [List.range_succ, List.foldl_append, ih (by omega), List.foldl_cons, List.foldl_nil, hlevel n hn,
        ← foldData_append, segment_append ds (Nat.zero_le _) (hmono n hn)]
  have hleaves : ∀ acc, (List.range (2 ^ h)).foldl (fun acc i => foldStepD op f acc (fb i)) acc =
      foldData op f acc (segment ds (F.done 0) (2 ^ h)) := by
    intro acc
    rw [foldl_segments (fun i => max (F.done 0) i) (fun i j hij => by dsimp only; omega)
      (fun i hi acc => foldStepD_slot (hholds.base i hi) acc), Nat.max_eq_left (Nat.zero_le _),
      Nat.max_eq_right F.base_le]
  rw [foldDepth_build, hupper h le_rfl, hleaves, ← foldData_append, Nat.sub_self, Nat.pow_zero, Nat.one_mul,
    segment_append ds (Nat.zero_le _) F.base_le, hdata, segment, Nat.sub_zero, List.range_eq_range']

theorem filterMap_getElem? (l : List B) (n : Nat) : (List.range n).filterMap (l[·]?) = l.take n := by
  induction n with
  | zero => rw [List.take_zero]; rfl
  | succ n ih =>
    rw [List.range_succ, List.filterMap_append, ih, List.take_add_one]
    cases hn : l[n]? <;> simp [hn]

theorem leafJob_leafIs {o : Option B} {n : BaseNode B} (hn : LeafIs o n.2) : leafJob n = o := by
  obtain ⟨w, j⟩ := n
  cases o with
  | none =>
    dsimp only [LeafIs] at hn
    rw [hn]
    rfl
  | some d =>
    obtain ⟨seq, hn⟩ := hn
    dsimp only at hn
    rw [hn]
    rfl

theorem foldStepD_leafIs {o : Option B} {n : BaseNode B} (hn : LeafIs o n.2) (acc : Option M) :
    foldStepD op f acc n = foldData op f acc o.toList := by
  obtain ⟨w, j⟩ := n
  cases o with
  | none =>
    dsimp only [LeafIs] at hn
    rw [hn]
    rfl
  | some d =>
    obtain ⟨seq, hn⟩ := hn
    dsimp only at hn
    rw [hn]
    rfl

theorem Filling.data {l : List B} {t : JobTree M B} (hf : Filling h l t) (hl : l.length ≤ 2 ^ h) : t.baseJobs = l := by
  obtain ⟨fm, fb, rfl, -, hbase, -⟩ := hf
  rw [baseJobs_build, List.filterMap_congr fun i hi => leafJob_leafIs (hbase i (List.mem_range.1 hi)),
    filterMap_getElem?, List.take_of_length_le hl]

/-- A tree that is being filled has no merge jobs. -/
theorem Filling.reads {l : List B} {t : JobTree M B} (hf : Filling h l t) (hl : l.length ≤ 2 ^ h) :
    Reads op f t := by
  intro acc
  have hdata := hf.data hl
  obtain ⟨fm, fb, rfl, hempty, hbase, -⟩ := hf
  have hupper : ∀ n ≤ h, (List.range n).foldl
      (fun acc l => (List.range (2 ^ l)).foldl (fun acc i => foldStepA op acc (fm l i)) acc) acc = acc := by
    intro n hn
    induction n with
    | zero => rfl
    | succ n ih =>
      rw [List.range_succ, List.foldl_append, ih (by omega), List.foldl_cons, List.foldl_nil]
      refine (List.foldl_ext _ (fun acc _ => acc) _ fun acc i hi => ?_).trans (foldl_const _ _)
      have hnode := hempty n hn i (List.mem_range.1 hi)
      rw [show fm n i = ((fm n i).1, .empty) from Prod.ext rfl hnode]
      rfl
  have hleaves : ∀ n ≤ 2 ^ h, (List.range n).foldl (fun acc i => foldStepD op f acc (fb i)) acc =
      foldData op f acc (l.take n) := by
    intro n hn
    induction n with
    | zero => rw [List.take_zero]; rfl
    | succ n ih =>
      rw [List.range_succ, List.foldl_append, ih (by omega), List.foldl_cons, List.foldl_nil,
        foldStepD_leafIs (hbase n hn), ← foldData_append, List.take_add_one]
  rw [foldDepth_build, hupper h le_rfl, hleaves _ le_rfl, hdata, List.take_of_length_le hl]

/-! ## A scan state -/

theorem foldChronological_eq {t : State M B} (ht : ∀ tree ∈ t.trees.toList, Reads op f tree) :
    t.foldChronological none (foldStepA op) (foldStepD op f) = product op f t.pendingData := by
  rw [← foldData_none, State.foldChronological, State.pendingData]
  have hfold : ∀ (ts : List (JobTree M B)) (acc : Option M), (∀ tree ∈ ts, Reads op f tree) →
      ts.foldl (fun acc tree => tree.foldDepth (fun _ => foldStepA op) (foldStepD op f) acc) acc =
        foldData op f acc (ts.flatMap Tree.baseJobs) := by
    intro ts
    induction ts with
    | nil => exact fun _ _ => rfl
    | cons tree ts ih =>
      intro acc hts
      rw [List.foldl_cons, hts tree List.mem_cons_self acc, ih _ fun t ht => hts t (List.mem_cons_of_mem _ ht),
        List.flatMap_cons, foldData_append]
  exact hfold _ none fun tree htree => ht tree (List.mem_reverse.1 htree)

end Frontier

end Mina.ParallelScan
