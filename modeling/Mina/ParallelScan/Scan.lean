/-
The scan state as an ordered scan: with the work of every update done, what
comes out are the data in the order in which they went in, in blocks of
`max_base_jobs`, each with the product of its data (`scan_in_order`).

The jobs that are left stay within the free places of the current tree, two
for each (`Within`): so a tree never gets full before its round is done.
-/
import Mina.ParallelScan.Update

namespace Mina.ParallelScan

open Mina.ParallelScan.Tree State

variable {M B : Type} {h delay : Nat}

/-! ## Jobs within the budget -/

/-- At most two jobs are left for every free place of the current tree. -/
def Pipeline.Within {D : Nat} (p : Pipeline B h D) : Prop := p.left ≤ 2 * p.space

theorem before_lt (h k : Nat) : before h k < 2 * 2 ^ h := by
  have := Nat.two_pow_pos (h + 1 - k)
  have := Nat.two_pow_pos h
  have := Nat.pow_succ (n := 2) (m := h)
  rw [before]
  omega

section Complete

variable {res : AvailableJob M B → M} {p : Pipeline B h (delay + 1)} {s : State M B}

theorem sufficient_of_required {data : List B} {completed : List M}
    (hlen : (s.workForNextUpdate data.length).flatten.length ≤ completed.length) : Sufficient s data completed := by
  intro hins
  have := hins.1
  omega

/-- The work for data that makes the current tree full begins with all that
is left of the round. -/
theorem Models.work_turn (hh : 0 < h) (hm : Models res p s) (hwithin : p.Within) {n : Nat} (hspace : p.space ≤ n)
    (hn : n ≤ 2 ^ h) :
    (s.workForNextUpdate n).flatten =
      s.workForTree .current ++ (s.workForTree .next).take (2 * (n - p.space)) := by
  have hleft := hm.length_workForTree
  rw [hm.workForNextUpdate hh hn]
  split
  next hlt => rfl
  next hge =>
    have heq : n = p.space := by omega
    have hall : (s.workForTree .current).length ≤ 2 * n := by
      rw [hleft, heq]
      exact hwithin
    rw [List.take_of_length_le hall, heq, Nat.sub_self, Nat.mul_zero, List.take_zero, List.append_nil]

theorem output_mem {n : Nat} {o : M × List B} (ho : o ∈ p.output res n) :
    ∃ ds : Nat → B, o = (proof res ds h 0, (List.range (2 ^ h)).map ds) := by
  rw [Pipeline.output] at ho
  split at ho
  · rw [Option.mem_def, Option.map_eq_some_iff] at ho
    obtain ⟨ds, -, rfl⟩ := ho
    exact ⟨ds, rfl⟩
  · cases ho

/-- The update that has the results of all the work for its data. -/
theorem Models.update_complete (hh : 0 < h) (hdelay : 0 < delay) (hm : Models res p s) (hwithin : p.Within)
    {data : List B} (hdata : data.length ≤ 2 ^ h) :
    ∃ (out : Option (M × List B)) (s' : State M B) (p' : Pipeline B h (delay + 1)),
      State.update data ((s.workForNextUpdate data.length).flatten.map res) s = .ok (out, s') ∧
        Models res p' s' ∧ p'.Within ∧ Pipeline.emitted out ++ p'.data = p.data ++ data ∧
        (p.space ≤ data.length → s.workForTree .current <+: (s.workForNextUpdate data.length).flatten) ∧
        ∀ o ∈ out, ∃ ds : Nat → B, o = (proof res ds h 0, (List.range (2 ^ h)).map ds) := by
  have hleft := hm.length_workForTree
  have hsuff : Sufficient s data ((s.workForNextUpdate data.length).flatten.map res) :=
    sufficient_of_required (by rw [List.length_map])
  rcases Nat.lt_or_ge data.length p.space with hlt | hge
  case inl =>
    have hwork := hm.workForNextUpdate hh hdata
    rw [if_neg (by omega), List.take_eq_take_min, hleft] at hwork
    rw [hwork] at hsuff ⊢
    obtain ⟨s', hok, hm'⟩ := hm.update_fill hh hlt (Nat.min_le_right _ _) hsuff
    refine ⟨_, s', _, hok, hm', ?_, ?_, fun hle => absurd hle (by omega), fun o => output_mem⟩
    · rw [Pipeline.Within] at hwithin ⊢
      rw [Pipeline.space_stay, Pipeline.left_stay]
      omega
    · exact p.data_stay res hlt _
  case inr =>
    have hne : data ≠ [] := List.ne_nil_of_length_pos (p.space_pos.trans_le hge)
    have hnext := hm.length_workForTree_next hdelay fun _ => data.head hne
    have hwork := hm.work_turn hh hwithin hge hdata
    rw [List.take_eq_take_min] at hwork
    rw [hwork] at hsuff ⊢
    obtain ⟨s', hok, hm'⟩ := hm.update_turn hh hdelay hge hdata (Nat.min_le_right _ _) hsuff
    have hpos := p.space_pos
    have hround := before_lt h ((p.full.length + 1) / (delay + 1))
    refine ⟨_, s', _, hok, hm', ?_, ?_, fun _ => List.prefix_append _ _, fun o => output_mem⟩
    · rw [Pipeline.Within, Pipeline.space_turn, p.left_turn (by omega)]
      omega
    · exact p.data_turn _ res hge hdata (by omega)

end Complete

/-! ## Products in order -/

section Product

variable (op : M → M → M) (f : B → M)

/-- The result of a job: `f` of a datum, or `op` of two proofs. -/
def jobResult : AvailableJob M B → M
  | .base d => f d
  | .merge a b => op a b

/-- The product of `f` over a list that is not empty, in order. -/
def product : List B → Option M
  | [] => none
  | d :: ds => some ((ds.map f).foldl op (f d))

variable {op f}

theorem foldl_op (hop : ∀ a b c, op (op a b) c = op a (op b c)) (a b : M) (l : List M) :
    l.foldl op (op a b) = op a (l.foldl op b) := by
  induction l generalizing b with
  | nil => rfl
  | cons x l ih => rw [List.foldl_cons, List.foldl_cons, hop, ih]

theorem product_append (hop : ∀ a b c, op (op a b) c = op a (op b c)) {l l' : List B} {a b : M}
    (ha : product op f l = some a) (hb : product op f l' = some b) : product op f (l ++ l') = some (op a b) := by
  cases l with
  | nil => cases ha
  | cons d ds =>
    cases l' with
    | nil => cases hb
    | cons d' ds' =>
      rw [product, Option.some.injEq] at ha hb
      rw [List.cons_append, product, List.map_append, List.foldl_append, ha, List.map_cons, List.foldl_cons,
        foldl_op hop, hb]

/-- A proof is the product of the data below it. -/
theorem product_proof (hop : ∀ a b c, op (op a b) c = op a (op b c)) (ds : Nat → B) (k i : Nat) :
    product op f ((List.range (2 ^ k)).map fun j => ds (i * 2 ^ k + j)) = some (proof (jobResult op f) ds k i) := by
  induction k generalizing i with
  | zero => simp [product, proof, jobResult]
  | succ k ih =>
    have hleft := ih (2 * i)
    have hright := ih (2 * i + 1)
    rw [block_left] at hleft
    rw [block_right] at hright
    have hsplit : (List.range (2 ^ (k + 1))).map (fun j => ds (i * 2 ^ (k + 1) + j)) =
        (List.range (2 ^ k)).map (fun j => ds (i * 2 ^ (k + 1) + j)) ++
          (List.range (2 ^ k)).map (fun j => ds (i * 2 ^ (k + 1) + 2 ^ k + j)) := by
      rw [show 2 ^ (k + 1) = 2 ^ k + 2 ^ k by rw [Nat.pow_succ]; omega, List.range_add, List.map_append, List.map_map]
      simp only [Function.comp_def, Nat.add_assoc]
    rw [hsplit]
    exact product_append hop hleft hright

end Product

/-! ## Runs -/

section Runs

variable (op : M → M → M) (f : B → M)

/-- One update after another, each with the results of all the work for its
data: what they emit, and the last state. -/
def scan : List (List B) → State M B → Exn (List (M × List B) × State M B)
  | [], t => .ok ([], t)
  | data :: rest, t =>
    (State.update data ((t.workForNextUpdate data.length).flatten.map (jobResult op f)) t).andThen fun (out, t) =>
    (scan rest t).andThen fun (outs, t) => .ok (out.toList ++ outs, t)

variable {op f} {p : Pipeline B h (delay + 1)} {s : State M B}

theorem scan_models (hh : 0 < h) (hdelay : 0 < delay) (hm : Models (jobResult op f) p s) (hwithin : p.Within)
    {datas : List (List B)} (hdatas : ∀ data ∈ datas, data.length ≤ 2 ^ h) :
    ∃ (outs : List (M × List B)) (s' : State M B) (p' : Pipeline B h (delay + 1)),
      scan op f datas s = .ok (outs, s') ∧ Models (jobResult op f) p' s' ∧
        outs.flatMap (·.2) ++ p'.data = p.data ++ datas.flatten ∧
        ∀ o ∈ outs, ∃ ds : Nat → B, o = (proof (jobResult op f) ds h 0, (List.range (2 ^ h)).map ds) := by
  induction datas generalizing p s with
  | nil => exact ⟨[], s, p, rfl, hm, by simp, by simp⟩
  | cons data datas ih =>
    obtain ⟨out, s₁, p₁, hok, hm₁, hwithin₁, hdata, -, hout⟩ :=
      hm.update_complete hh hdelay hwithin (hdatas data List.mem_cons_self)
    obtain ⟨outs, s₂, p₂, hoks, hm₂, hdata₂, houts⟩ :=
      ih hm₁ hwithin₁ fun data hd => hdatas data (List.mem_cons_of_mem _ hd)
    refine ⟨out.toList ++ outs, s₂, p₂, ?_, hm₂, ?_, fun o ho => ?_⟩
    · rw [scan, hok, Exn.andThen_ok]
      simp only [hoks, Exn.andThen_ok]
    · have hemitted : out.toList.flatMap (·.2) = Pipeline.emitted out := by
        cases out <;> simp [Pipeline.emitted]
      rw [List.flatMap_append, List.append_assoc, hdata₂, hemitted, List.flatten_cons, ← List.append_assoc, hdata,
        List.append_assoc]
    · rcases List.mem_append.1 ho with ho | ho
      · exact hout o (Option.mem_toList.1 ho)
      · exact houts o ho

/-- **The scan state is an ordered scan.** With the results of all the work
for its data, every update is accepted. What comes out are blocks of
`max_base_jobs` data, each with its product in order, and their data are the
first of the data that went in. -/
theorem scan_in_order (hh : 1 ≤ h) (hdelay : 1 ≤ delay) (hop : ∀ a b c, op (op a b) c = op a (op b c))
    {datas : List (List B)} (hdatas : ∀ data ∈ datas, data.length ≤ 2 ^ h) :
    ∃ (outs : List (M × List B)) (t : State M B), scan op f datas (State.empty (2 ^ h) delay) = .ok (outs, t) ∧
      (∀ o ∈ outs, o.2.length = 2 ^ h) ∧ outs.flatMap (·.2) <+: datas.flatten ∧
      ∀ o ∈ outs, product op f o.2 = some o.1 := by
  have hempty : Models (jobResult op f) (Pipeline.start (h := h) (Nat.succ_pos delay)) _ := models_empty hh delay
  obtain ⟨outs, t, p, hok, -, hdata, houts⟩ := scan_models hh hdelay hempty (Nat.zero_le _) hdatas
  refine ⟨outs, t, hok, fun o ho => ?_, ⟨p.data, hdata⟩, fun o ho => ?_⟩
  · obtain ⟨ds, rfl⟩ := houts o ho
    rw [List.length_map, List.length_range]
  · obtain ⟨ds, rfl⟩ := houts o ho
    have hproduct := product_proof (f := f) hop ds h 0
    simp only [Nat.zero_mul, Nat.zero_add] at hproduct
    exact hproduct

/-- The lists of a stream of lists, two data a block. -/
theorem scan_in_order_append :
    ∃ (outs : List (List Nat × List Nat)) (t : State (List Nat) Nat),
      scan (· ++ ·) (fun n => [n]) [[1, 2], [3], [4, 5]] (State.empty (2 ^ 1) 1) = .ok (outs, t) ∧
        (∀ o ∈ outs, o.2.length = 2 ^ 1) ∧ outs.flatMap (·.2) <+: [1, 2, 3, 4, 5] ∧
        ∀ o ∈ outs, product (· ++ ·) (fun n => [n]) o.2 = some o.1 :=
  scan_in_order (by decide) (by decide) (fun a b c => List.append_assoc a b c) (by decide)

end Runs

end Mina.ParallelScan
