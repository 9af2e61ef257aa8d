/-
A scan state that was restored follows the run of the one that was not
(`restored_follows`).

What is serialised of a scan state is the state without its completed merge
jobs (`withLeanerTrees`). All work is listed, and all data read, from what is
serialised alone. An update takes two states that are the same but for
completed jobs to such states: it addresses the merge nodes of two levels of a
tree, and on the lower a completed job and an empty node both refuse jobs,
while there is no completed job on the upper, since the level of a tree only
moves towards the root.
-/
import Mina.ParallelScan.Leaner

namespace Mina.ParallelScan

open Mina.ParallelScan.Tree State
open Exn (Agree)

variable {M B : Type}

/-! ## Lists of trees -/

/-- The level that is updated on the `n`th tree after the current one. -/
def levelOf (depth delay n : Nat) : Int := (depth : Int) - (n / delay : Nat)

/-- The trees from the `n`th on are the same but for completed jobs. -/
inductive SameTrees (depth delay : Nat) : Nat → List (JobTree M B) → List (JobTree M B) → Prop
  | nil (n : Nat) : SameTrees depth delay n [] []
  | cons {n : Nat} {t t' : JobTree M B} {ts ts' : List (JobTree M B)} (h : SameTree (levelOf depth delay n) t t')
    (hs : SameTrees depth delay (n + 1) ts ts') : SameTrees depth delay n (t :: ts) (t' :: ts')

section Trees

variable {depth delay n : Nat} {t t' : JobTree M B} {ts ts' : List (JobTree M B)}

theorem levelOf_le (depth delay : Nat) {n m : Nat} (h : n ≤ m) : levelOf depth delay m ≤ levelOf depth delay n := by
  have := Nat.div_le_div_right (c := delay) h
  rw [levelOf, levelOf]
  omega

theorem levelOf_zero (depth delay : Nat) : levelOf depth delay 0 = depth := by
  rw [levelOf, Nat.zero_div, Nat.cast_zero, sub_zero]

namespace SameTrees

theorem lean (h : SameTrees depth delay n ts ts') : ts.map leanTree = ts'.map leanTree := by
  induction h with
  | nil => rfl
  | cons h _ ih => rw [List.map_cons, List.map_cons, h.lean, ih]

theorem length (h : SameTrees depth delay n ts ts') : ts.length = ts'.length := by
  rw [← List.length_map (f := leanTree), h.lean, List.length_map]

theorem snoc (h : SameTrees depth delay n ts ts') (ht : SameTree (levelOf depth delay (n + ts.length)) t t') :
    SameTrees depth delay n (ts ++ [t]) (ts' ++ [t']) := by
  induction h with
  | nil => exact .cons ht (.nil _)
  | cons h hs ih =>
    rw [List.length_cons, ← Nat.add_assoc, Nat.add_right_comm] at ht
    exact .cons h (ih ht)

theorem of_snoc (h : SameTrees depth delay n (ts ++ [t]) (ts' ++ [t'])) :
    SameTrees depth delay n ts ts' ∧ t.baseJobs = t'.baseJobs := by
  induction ts generalizing n ts' with
  | nil =>
    cases ts' with
    | nil =>
      cases h with
      | cons h _ => exact ⟨.nil n, by rw [← baseJobs_lean, h.lean, baseJobs_lean]⟩
    | cons x xs =>
      have hlen := h.length
      simp at hlen
  | cons x xs ih =>
    cases ts' with
    | nil =>
      have hlen := h.length
      simp at hlen
    | cons y ys =>
      cases h with
      | cons h hs => exact ⟨.cons h (ih hs).1, (ih hs).2⟩

/-- A list of trees can move on. -/
theorem shift (h : SameTrees depth delay n ts ts') : SameTrees depth delay (n + 1) ts ts' := by
  induction h with
  | nil => exact .nil _
  | cons h _ ih => exact .cons (h.mono (levelOf_le depth delay (Nat.le_succ _))) ih

theorem map (h : SameTrees depth delay n ts ts') {g : JobTree M B → JobTree M B}
    (hg : ∀ u t t', SameTree u t t' → SameTree u (g t) (g t')) : SameTrees depth delay n (ts.map g) (ts'.map g) := by
  induction h with
  | nil => exact .nil _
  | cons h _ ih => exact .cons (hg _ _ _ h) ih

theorem lean_right (h : SameTrees depth delay n ts ts) : SameTrees depth delay n ts (ts.map leanTree) := by
  induction ts generalizing n with
  | nil => exact .nil _
  | cons t ts ih =>
    cases h with
    | cons h hs => exact .cons h.lean_right (ih hs)

end SameTrees

end Trees

/-! ## What reads a state -/

section Reads

theorem workTrees_map (g : JobTree M B → JobTree M B) (ts : List (JobTree M B)) (delay : Nat) :
    workTrees (ts.map g) delay = (workTrees ts delay).map g := by
  rw [workTrees, workTrees, List.zipIdx_map, List.filter_map, List.map_map, List.map_map]
  rfl

theorem work_lean (ts : List (JobTree M B)) (delay maxBaseJobs : Nat) :
    State.work (ts.map leanTree) delay maxBaseJobs = State.work ts delay maxBaseJobs := by
  simp only [State.work, workToDo, workTrees_map, ← List.map_take, List.zipIdx_map, List.flatMap_map, Prod.map,
    jobsOnLevel_lean, id]

theorem leanTree_createTree (depth : Nat) : leanTree (createTree depth : JobTree M B) = createTree depth := by
  have hlevels : ∀ {M B : Type} (n d : Nat) {fmerge : Nat → M} {f : Nat → M → M} {base : B} {g : B → B}
      (_ : ∀ i, f i (fmerge i) = fmerge i) (_ : g base = base),
      (createLevels n d fmerge base).mapDepth f g = createLevels n d fmerge base := by
    intro M B n
    induction n generalizing M B with
    | zero =>
      intro d fmerge f base g hf hg
      rw [createLevels, Tree.mapDepth, hg]
    | succ n ih =>
      intro d fmerge f base g hf hg
      rw [createLevels, Tree.mapDepth, hf, ih]
      · intro i
        rw [hf]
      · rw [hg]
  exact hlevels _ _ (fun _ => rfl) rfl

variable (t : State M B)

theorem workForTree_lean (dataTree : DataTree) : t.withLeanerTrees.workForTree dataTree = t.workForTree dataTree := by
  cases dataTree with
  | current => exact work_lean t.trees.tail _ _
  | next => exact work_lean t.trees.toList _ _

theorem workForNextUpdate_lean (n : Nat) : t.withLeanerTrees.workForNextUpdate n = t.workForNextUpdate n := by
  have hspace : t.withLeanerTrees.trees.head.availableSpace = t.trees.head.availableSpace :=
    availableSpace_lean t.trees.head
  have hcurrent : State.work t.withLeanerTrees.trees.tail = State.work t.trees.tail := by
    funext delay maxBaseJobs
    exact work_lean _ _ _
  have hall : State.work t.withLeanerTrees.trees.toList = State.work t.trees.toList := by
    funext delay maxBaseJobs
    exact work_lean t.trees.toList _ _
  have hmax : t.withLeanerTrees.maxBaseJobs = t.maxBaseJobs := rfl
  have hdelay : t.withLeanerTrees.delay = t.delay := rfl
  simp only [State.workForNextUpdate, hspace, hcurrent, hall, hmax, hdelay]

theorem workOfNewTrees_lean (n : Nat) : t.withLeanerTrees.workOfNewTrees n = t.workOfNewTrees n := by
  induction n generalizing t with
  | zero => rfl
  | succ n ih =>
    have hnew : ({ t.withLeanerTrees with
        trees := t.withLeanerTrees.trees.cons (createTree (ceilLog2 t.withLeanerTrees.maxBaseJobs)) } : State M B) =
          ({ t with trees := t.trees.cons (createTree (ceilLog2 t.maxBaseJobs)) } : State M B).withLeanerTrees := by
      simp only [withLeanerTrees, NonEmptyList.map, NonEmptyList.cons, List.map_cons, leanTree_createTree]
    simp only [workOfNewTrees, hnew, workForTree_lean, ih]

/-- The two states list the same work and hold the same data. -/
structure SameWork (t t' : State M B) : Prop where
  forNextUpdate : t.workForNextUpdate = t'.workForNextUpdate
  all : t.allWork = t'.allWork
  pending : t.pendingData = t'.pendingData
  partition : t.partitionIfOverflowing = t'.partitionIfOverflowing

/-- All work is listed, and all data read, from what is serialised. -/
theorem sameWork_lean : SameWork t t.withLeanerTrees where
  forNextUpdate := funext fun n => (workForNextUpdate_lean t n).symm
  all := by
    have hdelay : t.withLeanerTrees.delay = t.delay := rfl
    simp only [allWork, workForTree_lean, workOfNewTrees_lean, hdelay]
  pending := by
    have htrees : t.withLeanerTrees.trees.toList = t.trees.toList.map leanTree := rfl
    simp only [pendingData, htrees, ← List.map_reverse, List.flatMap_map, baseJobs_lean]
  partition := by
    have hspace : t.withLeanerTrees.freeSpaceOnCurrentTree = t.freeSpaceOnCurrentTree :=
      availableSpace_lean t.trees.head
    have hmax : t.withLeanerTrees.maxBaseJobs = t.maxBaseJobs := rfl
    simp only [partitionIfOverflowing, workForTree_lean, hspace, hmax]

theorem SameWork.of_lean {t t' : State M B} (h : t.withLeanerTrees = t'.withLeanerTrees) : SameWork t t' := by
  have hw := sameWork_lean t
  have hw' := sameWork_lean t'
  rw [← h] at hw'
  exact ⟨hw.forNextUpdate.trans hw'.forNextUpdate.symm, hw.all.trans hw'.all.symm, hw.pending.trans hw'.pending.symm,
    hw.partition.trans hw'.partition.symm⟩

end Reads

/-! ## States -/

/-- Two states that are the same but for completed jobs. -/
inductive Same : State M B → State M B → Prop
  | mk {s : State M B} {trees : NonEmptyList (JobTree M B)}
    (head : SameTree (ceilLog2 s.maxBaseJobs : Nat) s.trees.head trees.head)
    (tail : SameTrees (ceilLog2 s.maxBaseJobs) (s.delay + 1) 0 s.trees.tail trees.tail) :
    Same s { s with trees := trees }

theorem Agree.tag {α β : Type 1} {R : α → β → Prop} {x : Exn α} {y : Exn β} (text : String) (h : Agree R x y) :
    Agree R (State.tag text x) (State.tag text y) := by
  cases h with
  | error e e' => exact .error _ _
  | ok h => exact .ok h

section States

variable {s s' : State M B}

theorem Same.lean (h : Same s s') : s.withLeanerTrees = s'.withLeanerTrees := by
  cases h with
  | mk head tail => simp only [withLeanerTrees, NonEmptyList.map, head.lean, tail.lean]

theorem Same.head (h : Same s s') : SameTree (ceilLog2 s.maxBaseJobs : Nat) s.trees.head s'.trees.head := by
  cases h
  assumption

theorem Same.tail (h : Same s s') :
    SameTrees (ceilLog2 s.maxBaseJobs) (s.delay + 1) 0 s.trees.tail s'.trees.tail := by
  cases h
  assumption

theorem Same.workForTree (h : Same s s') (dataTree : DataTree) : s'.workForTree dataTree = s.workForTree dataTree := by
  rw [← workForTree_lean s', ← h.lean, workForTree_lean]

theorem Same.availableSpace (h : Same s s') : s'.trees.head.availableSpace = s.trees.head.availableSpace := by
  cases h with
  | mk head _ => rw [← availableSpace_lean, ← head.lean, availableSpace_lean]

theorem addMergeJobsStep_agree {depth delay n : Nat} {seqNo : Int} {t t' : JobTree M B}
    {acc acc' : List (JobTree M B) × Option M × List (Job M B)} (ht : SameTree (levelOf depth delay n) t t')
    (hacc : SameTrees depth delay 0 acc.1.reverse acc'.1.reverse) (hlen : acc.1.length = n) (hjobs : acc.2 = acc'.2) :
    Agree (fun r r' => SameTrees depth delay 0 r.1.reverse r'.1.reverse ∧ r.1.length = n + 1 ∧ r.2 = r'.2)
      (addMergeJobsStep depth delay seqNo acc (t, n)) (addMergeJobsStep depth delay seqNo acc' (t', n)) := by
  obtain ⟨trees, scanResult, jobs⟩ := acc
  obtain ⟨trees', scanResult', jobs'⟩ := acc'
  cases hjobs
  have hrequired : t'.requiredJobCount = t.requiredJobCount := by
    rw [← requiredJobCount_lean, ← ht.lean, requiredJobCount_lean]
  have hsnoc : ∀ {u u' : JobTree M B}, SameTree (levelOf depth delay n) u u' →
      SameTrees depth delay 0 (u :: trees).reverse (u' :: trees').reverse := by
    intro u u' hu
    rw [List.reverse_cons, List.reverse_cons]
    refine hacc.snoc ?_
    rw [List.length_reverse, Nat.zero_add, hlen]
    exact hu
  unfold addMergeJobsStep
  dsimp only
  rw [hrequired]
  refine .ite ((Agree.tag _ ht.update).andThen fun p p' hp => ?_) (.ok ⟨hsnoc ht, congrArg (· + 1) hlen, rfl⟩)
  exact .ok ⟨hsnoc hp.1, congrArg (· + 1) hlen, by rw [hp.2]⟩

theorem fold_agree {depth delay n : Nat} {seqNo : Int} {ts ts' : List (JobTree M B)}
    {acc acc' : List (JobTree M B) × Option M × List (Job M B)} (hts : SameTrees depth delay n ts ts')
    (hacc : SameTrees depth delay 0 acc.1.reverse acc'.1.reverse) (hlen : acc.1.length = n) (hjobs : acc.2 = acc'.2) :
    Agree (fun r r' => SameTrees depth delay 0 r.1.reverse r'.1.reverse ∧ r.2 = r'.2)
      (Exn.fold (addMergeJobsStep depth delay seqNo) acc (ts.zipIdx n))
      (Exn.fold (addMergeJobsStep depth delay seqNo) acc' (ts'.zipIdx n)) := by
  induction hts generalizing acc acc' with
  | nil => exact .ok ⟨hacc, hjobs⟩
  | cons h _ ih =>
    exact (addMergeJobsStep_agree h hacc hlen hjobs).andThen fun r r' hr => ih hr.1 hr.2.1 hr.2.2

theorem addMergeJobs_agree (h : Same s s') (completed : List M) :
    Agree (fun r r' => r.1 = r'.1 ∧ Same r.2 r'.2) (State.addMergeJobs completed s) (State.addMergeJobs completed s') := by
  have hwork := h.workForTree .current
  cases h with
  | @mk trees head tail =>
  unfold State.addMergeJobs check
  dsimp only
  rw [hwork]
  refine .ite (.ok ⟨rfl, .mk head tail⟩) (.ite (.error _ _) ?_)
  refine (fold_agree tail (.nil 0) rfl rfl).andThen fun r r' hr => ?_
  obtain ⟨updatedTrees, resultOpt, rest⟩ := r
  obtain ⟨updatedTrees', resultOpt', rest'⟩ := r'
  obtain ⟨htrees, heq⟩ := hr
  cases heq
  have hreset : ∀ {ts ts' : List (JobTree M B)} {c : Prop} [Decidable c],
      SameTrees (ceilLog2 s.maxBaseJobs) (s.delay + 1) 0 ts ts' →
        SameTrees (ceilLog2 s.maxBaseJobs) (s.delay + 1) 0 (if c then ts.map (Tree.resetWeights .merge) else ts)
          (if c then ts'.map (Tree.resetWeights .merge) else ts') := by
    intro ts ts' c _ hts
    split
    · exact hts.map fun _ _ _ ht => ht.resetWeights .merge
    · exact hts
  have hlength := htrees.length
  rw [List.length_reverse, List.length_reverse] at hlength
  cases resultOpt with
  | none =>
    refine .ok ⟨rfl, .mk head ?_⟩
    dsimp only
    rw [List.length_cons, List.length_cons, List.length_reverse, List.length_reverse, hlength]
    exact hreset htrees
  | some result =>
    cases updatedTrees with
    | nil =>
      cases updatedTrees' with
      | nil => exact .ok ⟨rfl, .mk head (hreset (.nil 0))⟩
      | cons t' ts' => cases hlength
    | cons t ts =>
      cases updatedTrees' with
      | nil => cases hlength
      | cons t' ts' =>
        rw [List.reverse_cons, List.reverse_cons] at htrees
        obtain ⟨hts, hjobs⟩ := htrees.of_snoc
        refine .ok ⟨congrArg (fun jobs => some (result, jobs)) hjobs, .mk head ?_⟩
        dsimp only
        simp only [Option.isSome_some, true_or, if_true]
        exact hts.map fun _ _ _ ht => ht.resetWeights .merge

theorem addData_agree (h : Same s s') (data : List B) : Agree Same (State.addData data s) (State.addData data s') := by
  have hspace := h.availableSpace
  cases h with
  | @mk trees head tail =>
  unfold State.addData check
  dsimp only at hspace ⊢
  rw [hspace]
  refine .ite (.ok (.mk head tail)) (.ite (.error _ _) ?_)
  refine (Agree.tag _ head.update).andThen fun p p' hp => .ok ?_
  split
  · rw [tail_appendTrees_cons, tail_appendTrees_cons]
    refine .mk (sameTree_createTree _ _) (.cons ?_ tail.shift)
    rw [levelOf_zero]
    exact hp.1.resetWeights .both
  · rw [tail_appendTrees, tail_appendTrees]
    exact .mk (hp.1.resetWeights .merge) tail

theorem Same.leaves (h : Same s s') :
    s.trees.toList.map Tree.leaves = s'.trees.toList.map Tree.leaves ∧ s.trees.last.leaves = s'.trees.last.leaves := by
  have hmap : ∀ ts : List (JobTree M B), (ts.map leanTree).map Tree.leaves = ts.map Tree.leaves := fun ts => by
    rw [List.map_map]
    exact List.map_congr_left fun t _ => leaves_lean t
  have hlast : ∀ s : State M B, s.withLeanerTrees.trees.last.leaves = s.trees.last.leaves := fun s => by
    simp only [withLeanerTrees, NonEmptyList.map, NonEmptyList.last, List.getLastD_eq_getLast?, List.getLast?_map]
    cases s.trees.tail.getLast? with
    | none => exact leaves_lean _
    | some t => exact leaves_lean _
  constructor
  · rw [← hmap s.trees.toList, ← hmap s'.trees.toList]
    exact congrArg (fun t : State M B => t.trees.toList.map Tree.leaves) h.lean
  · rw [← hlast s, ← hlast s', h.lean]

theorem foldl_leaves {α : Type} {g : α → JobTree M B → α}
    (hg : ∀ a t t', t.leaves = t'.leaves → g a t = g a t') : ∀ {ts ts' : List (JobTree M B)},
    ts.map Tree.leaves = ts'.map Tree.leaves → ∀ a, ts.foldl g a = ts'.foldl g a
  | [], [], _, _ => rfl
  | [], _ :: _, h, _ => by cases h
  | _ :: _, [], h, _ => by cases h
  | t :: ts, t' :: ts', h, a => by
    obtain ⟨ht, hts⟩ := List.cons.inj h
    rw [List.foldl_cons, List.foldl_cons, hg a t t' ht]
    exact foldl_leaves hg hts _

theorem Same.seqNo (h : Same s s') {n n' : Int} (hn : n = n') :
    Same { s with currJobSeqNo := n } { s' with currJobSeqNo := n' } := by
  subst hn
  cases h with
  | mk head tail => exact @Same.mk _ _ { s with currJobSeqNo := n } _ head tail

/-- The new sequence numbers are computed from the leaves. -/
theorem Same.resetSeqNo (h : Same s s') : Same (State.resetSeqNo s) (State.resetSeqNo s') := by
  have hlast := h.leaves.2
  cases h with
  | @mk trees head tail =>
  have hmapped : ∀ newSeq : Int → Int,
      Same { s with trees := s.trees.map (Tree.map (renumberMerge newSeq) (renumberBase newSeq)) }
        { s with trees := trees.map (Tree.map (renumberMerge newSeq) (renumberBase newSeq)) } := fun newSeq =>
    @Same.mk _ _ { s with trees := s.trees.map _ } _ (head.renumber newSeq)
      (tail.map fun _ _ _ ht => ht.renumber newSeq)
  unfold State.resetSeqNo
  dsimp only at hlast ⊢
  rw [hlast]
  refine (hmapped _).seqNo (foldl_leaves (fun a t t' ht => ?_) (hmapped _).leaves.1 0)
  rw [ht]

theorem Same.incrSequenceNo (h : Same s s') : Same (State.incrSequenceNo s) (State.incrSequenceNo s') := by
  have hreset := h.resetSeqNo
  cases h with
  | @mk trees head tail =>
  unfold State.incrSequenceNo
  dsimp only
  split
  · exact hreset
  · exact (Same.mk head tail).seqNo rfl

/-- An update takes states that are the same but for completed jobs to such
states, and emits the same. -/
theorem update_agree (h : Same s s') (data : List B) (completed : List M) :
    Agree (fun r r' => r.1 = r'.1 ∧ Same r.2 r'.2) (State.update data completed s) (State.update data completed s') := by
  have hnext : s'.workForNextUpdate data.length = s.workForNextUpdate data.length := by
    rw [← workForNextUpdate_lean s', ← h.lean, workForNextUpdate_lean]
  have hspace := h.availableSpace
  have hwork : State.work s'.trees.tail (s'.delay + 1) s'.maxBaseJobs =
      State.work s.trees.tail (s.delay + 1) s.maxBaseJobs := h.workForTree .current
  have hmax : s'.maxBaseJobs = s.maxBaseJobs := by
    cases h
    rfl
  unfold State.update check
  dsimp only
  rw [hnext, hspace, hwork, hmax]
  refine .ite (.error _ _) (.ite (.error _ _) ?_)
  refine (addMergeJobs_agree h.incrSequenceNo _).andThen fun r₁ r₁' hr => ?_
  refine (addData_agree hr.2 _).andThen fun s₂ s₂' h₂ => ?_
  refine (addMergeJobs_agree h₂ _).andThen fun r₃ r₃' h₃ => ?_
  refine (addData_agree h₃.2 _).andThen fun s₄ s₄' h₄ => ?_
  rw [hr.1]
  cases h₄ with
  | @mk trees head tail =>
    have hlength : trees.toList.length = s₄.trees.toList.length := congrArg (· + 1) tail.length.symm
    dsimp only [maxTrees]
    rw [hlength]
    exact .ite (.error _ _) (.ok ⟨rfl, .mk head tail⟩)

end States

/-! ## Runs -/

/-- The states that accepted updates lead to. -/
inductive Reached (maxBaseJobs delay : Nat) : State M B → Prop
  | empty : Reached maxBaseJobs delay (State.empty maxBaseJobs delay)
  | update {t t' : State M B} {data : List B} {completed : List M} {out : Option (M × List B)}
    (h : Reached maxBaseJobs delay t) (hok : State.update data completed t = .ok (out, t')) :
    Reached maxBaseJobs delay t'

/-- One update after another, with what they emit. -/
def runUpdates : List (List B × List M) → State M B → Exn (List (Option (M × List B)) × State M B)
  | [], t => .ok ([], t)
  | (data, completed) :: rest, t =>
    (State.update data completed t).andThen fun (out, t) =>
    (runUpdates rest t).andThen fun (outs, t) => .ok (out :: outs, t)

theorem runUpdates_agree {s s' : State M B} (h : Same s s') (updates : List (List B × List M)) :
    Agree (fun r r' => r.1 = r'.1 ∧ Same r.2 r'.2) (runUpdates updates s) (runUpdates updates s') := by
  induction updates generalizing s s' with
  | nil => exact .ok ⟨rfl, h⟩
  | cons u rest ih =>
    refine (update_agree h u.1 u.2).andThen fun r r' hr => ?_
    refine (ih hr.2).andThen fun q q' hq => .ok ⟨?_, hq.2⟩
    rw [hr.1, hq.1]

variable {maxBaseJobs delay : Nat}

/-- No merge job above the level of its tree is completed. -/
theorem Reached.same {t : State M B} (h : Reached maxBaseJobs delay t) : Same t t := by
  induction h with
  | empty => exact @Same.mk _ _ (State.empty maxBaseJobs delay) _ (sameTree_createTree _ _) (.nil 0)
  | @update t t' data completed out _ hok ih =>
    have hagree := update_agree ih data completed
    rw [hok] at hagree
    cases hagree with
    | ok h => exact h.2

/-- So it is the same as what is serialised of it. -/
theorem Same.lean_right {t : State M B} (h : Same t t) : Same t t.withLeanerTrees :=
  .mk h.head.lean_right h.tail.lean_right

/-- What two updates or runs emit is the same, what is serialised of the
states they lead to is the same, and so are their work and their data. -/
structure SameResult {O : Type} (r r' : O × State M B) : Prop where
  emitted : r.1 = r'.1
  serialised : r.2.withLeanerTrees = r'.2.withLeanerTrees
  work : SameWork r.2 r'.2

theorem SameResult.of_same {O : Type} {r r' : O × State M B} (h : r.1 = r'.1 ∧ Same r.2 r'.2) : SameResult r r' :=
  ⟨h.1, h.2.lean, .of_lean h.2.lean⟩

/-- **A restored scan state follows the run of the one that was not.** The
state without its completed merge jobs, which is what is serialised, lists the
same work and holds the same data. An update of the two, and so a run of them,
fails for both or has the same results. -/
theorem restored_follows {t : State M B} (h : Reached maxBaseJobs delay t) :
    SameWork t t.withLeanerTrees ∧
      (∀ (data : List B) (completed : List M),
        Agree SameResult (State.update data completed t) (State.update data completed t.withLeanerTrees)) ∧
      ∀ updates : List (List B × List M),
        Agree SameResult (runUpdates updates t) (runUpdates updates t.withLeanerTrees) := by
  have hsame := h.same.lean_right
  refine ⟨sameWork_lean t, fun data completed => ?_, fun updates => ?_⟩
  · exact (update_agree hsame data completed).mono fun r r' => .of_same
  · exact (runUpdates_agree hsame updates).mono fun r r' => .of_same

/-- The state after an update, or the state itself when it is refused. -/
def after (data completed : List Nat) (t : State Nat Nat) : State Nat Nat :=
  match State.update data completed t with
  | .ok (_, t') => t'
  | .error _ => t

/-- The two merge jobs above the leaves of the oldest tree are completed. -/
def halfMerged : State Nat Nat :=
  after [9] [0, 0, 0, 0, 0, 0] (after [5, 6, 7, 8] [0, 0, 0, 0] (after [1, 2, 3, 4] [] (State.empty (2 ^ 2) 0)))

theorem restored_follows_halfMerged : SameWork halfMerged halfMerged.withLeanerTrees ∧
    (∀ data completed : List Nat,
      Agree SameResult (State.update data completed halfMerged)
        (State.update data completed halfMerged.withLeanerTrees)) ∧
    ∀ updates : List (List Nat × List Nat),
      Agree SameResult (runUpdates updates halfMerged) (runUpdates updates halfMerged.withLeanerTrees) := by
  have hupdate : ∀ {t : State Nat Nat} (data completed : List Nat), Reached (2 ^ 2) 0 t →
      State.update data completed t = .ok (none, after data completed t) →
        Reached (2 ^ 2) 0 (after data completed t) := fun data completed h hok => .update h hok
  have h₁ := hupdate [1, 2, 3, 4] [] .empty rfl
  have h₂ := hupdate [5, 6, 7, 8] [0, 0, 0, 0] h₁ rfl
  have h₃ := hupdate [9] [0, 0, 0, 0, 0, 0] h₂ rfl
  exact restored_follows h₃

end Mina.ParallelScan
