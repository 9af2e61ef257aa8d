/-
The trees of the scan state (`parallel_scan/parallel_scan.ml`, module
`Tree`), function by function.

A tree of depth `d` is a nested type: under each `node` the values are pairs
of the values above, so a level of the tree is one value, and the leaves are
one value too. `updateSplit` walks down with the jobs, which split as the
levels do; `updateAccumulate` walks up. An `Or_error.t` is an `Exn`.
-/
import Mina.Base.Exn

namespace Mina.ParallelScan

/-- Each node of a tree is a job. Once completed it is `done`, and its result
is part of a new job one level up. -/
inductive JobStatus where
  | todo
  | done
deriving DecidableEq

/-- The number of new jobs, base and merge, that can be added below a node. -/
structure Weight where
  base : Int
  merge : Int
deriving DecidableEq

structure WeightLens where
  get : Weight → Int
  set : Int → Weight → Weight

namespace Weight

def baseLens : WeightLens := ⟨(·.base), fun n w => { w with base := n }⟩

def mergeLens : WeightLens := ⟨(·.merge), fun n w => { w with merge := n }⟩

end Weight

structure BaseRecord (B : Type) where
  job : B
  seqNo : Int
  status : JobStatus
deriving DecidableEq

inductive BaseJob (B : Type) where
  | empty
  | full (r : BaseRecord B)
deriving DecidableEq

structure MergeRecord (M : Type) where
  left : M
  right : M
  seqNo : Int
  status : JobStatus
deriving DecidableEq

/-- `part`: only the left component of the job is available, since jobs are
always completed from left to right. -/
inductive MergeJob (M : Type) where
  | empty
  | part (left : M)
  | full (r : MergeRecord M)
deriving DecidableEq

namespace BaseJob

def jobStr {B : Type} : BaseJob B → String
  | .empty => "Base.Empty"
  | .full _ => "Base.Full"

end BaseJob

namespace MergeJob

def jobStr {M : Type} : MergeJob M → String
  | .empty => "Merge.Empty"
  | .full _ => "Merge.Full"
  | .part _ => "Merge.Part"

end MergeJob

/-- `Base.t`: what a leaf holds. -/
abbrev BaseNode (B : Type) := Weight × BaseJob B

/-- `Merge.t`: what an inner node holds. -/
abbrev MergeNode (M : Type) := (Weight × Weight) × MergeJob M

/-- The jobs on a tree that can be done. -/
inductive AvailableJob (M B : Type) where
  | base (d : B)
  | merge (left right : M)
deriving DecidableEq

/-- New jobs to be added: transactions, or results of completed jobs. -/
inductive Job (M B : Type) where
  | base (d : B)
  | merge (proof : M)

inductive Tree : Type → Type → Type 1 where
  | leaf {M B : Type} (d : B) : Tree M B
  | node {M B : Type} (depth : Nat) (value : M) (subTree : Tree (M × M) (B × B)) : Tree M B

namespace Tree

/-! ## Traversals -/

def mapDepth {M N B C : Type} (fMerge : Nat → M → N) (fBase : B → C) : Tree M B → Tree N C
  | .leaf d => .leaf (fBase d)
  | .node depth value sub =>
    .node depth (fMerge depth value)
      (mapDepth (fun i v => (fMerge i v.1, fMerge i v.2)) (fun d => (fBase d.1, fBase d.2)) sub)

def map {M N B C : Type} (fMerge : M → N) (fBase : B → C) (tree : Tree M B) : Tree N C :=
  mapDepth (fun _ => fMerge) fBase tree

/-- `fold_depth`, level by level from the root: the fold of the source in
the identity monad, none of whose steps stops it. -/
def foldDepth {A M B : Type} (fMerge : Nat → A → M → A) (fBase : A → B → A) (acc : A) : Tree M B → A
  | .leaf d => fBase acc d
  | .node depth value sub =>
    foldDepth (fun i acc v => fMerge i (fMerge i acc v.1) v.2) (fun acc d => fBase (fBase acc d.1) d.2)
      (fMerge depth acc value) sub

/-- `fMerge` and `fBase` update the nodes with new jobs and mark old jobs as
done; the result is the final proof. -/
def updateSplit {M B D W R : Type} (fMerge : D → Nat → M → Exn (M × Option R)) (fBase : D → B → Exn B)
    (weightMerge : M → W × W) (jobs : D) (updateLevel : Int) (jobsSplit : W × W → D → D × D) :
    Tree M B → Exn (Tree M B × Option R)
  | .leaf d => (fBase jobs d).andThen fun updated => .ok (.leaf updated, none)
  | .node depth value sub =>
    (fMerge jobs depth value).andThen fun (value', scanResult) =>
    (if updateLevel = depth then .ok (sub, none)
      else
        updateSplit (R := R × R)
          (fun b i v =>
            (fMerge b.1 i v.1).andThen fun left =>
            (fMerge b.2 i v.2).andThen fun right =>
            .ok ((left.1, right.1), left.2.bind fun x => right.2.map fun y => (x, y)))
          (fun b v =>
            (fBase b.1 v.1).andThen fun left => (fBase b.2 v.2).andThen fun right => .ok (left, right))
          (fun v => (weightMerge v.1, weightMerge v.2)) (jobsSplit (weightMerge value) jobs) updateLevel
          (fun w j => (jobsSplit w.1 j.1, jobsSplit w.2 j.2)) sub).andThen fun (sub', _) =>
    .ok (.node depth value' sub', scanResult)

def transpose {A B C D : Type} (p : (A × B) × (C × D)) : (A × C) × (B × D) := ((p.1.1, p.2.1), (p.1.2, p.2.2))

def updateAccumulate {M B D : Type} (fMerge : D × D → M → M × D) (fBase : B → B × D) :
    Tree M B → Tree M B × D
  | .leaf d => let (newBase, countList) := fBase d; (.leaf newBase, countList)
  | .node depth value sub =>
    let (sub', counts) :=
      updateAccumulate
        (fun b v => transpose (fMerge b.1 v.1, fMerge b.2 v.2)) (fun d => transpose (fBase d.1, fBase d.2)) sub
    let (value', countList) := fMerge counts value
    (.node depth value' sub', countList)

/-! ## Adding jobs -/

section Update

variable {M B : Type} (lens : WeightLens) (updateLevel seqNo : Int)

def addMerges (jobs : List (Job M B)) (curLevel : Nat) (node : MergeNode M) : Exn (MergeNode M × Option M) :=
  let ((w1, w2), m) := node
  let left := lens.get w1
  let right := lens.get w2
  if curLevel = updateLevel - 1 then
    -- create new jobs from the completed ones
    match jobs, m with
    | [], m => .ok (((w1, w2), m), none)
    | [.merge a, .merge b], .empty =>
      .ok (((lens.set (left - 1) w1, lens.set (right - 1) w2), .full ⟨a, b, seqNo, .todo⟩), none)
    | [.merge a], .empty => .ok (((lens.set (left - 1) w1, lens.set right w2), .part a), none)
    | [.merge b], .part a =>
      .ok (((lens.set left w1, lens.set (right - 1) w2), .full ⟨a, b, seqNo, .todo⟩), none)
    | [.base _], .empty =>
      -- whether this is the first or the second of the two base jobs
      if left = 0 then .ok (((lens.set left w1, lens.set (right - 1) w2), m), none)
      else .ok (((lens.set (left - 1) w1, lens.set right w2), m), none)
    | [.base _, .base _], .empty => .ok (((lens.set (left - 1) w1, lens.set (right - 1) w2), m), none)
    | xs, m =>
      .error s!"Got {xs.length} jobs when updating level {updateLevel} and when one of the merge nodes at level {curLevel} is {m.jobStr}"
  else if curLevel = updateLevel then
    -- mark completed jobs as done
    match jobs, m with
    | [.merge a], .full ⟨l, r, seq, .todo⟩ =>
      let newJob := MergeJob.full ⟨l, r, seq, .done⟩
      if curLevel = 0 then .ok (((lens.set 0 w1, lens.set 0 w2), newJob), some a)
      else .ok (((w1, w2), newJob), none)
    | [], m => .ok (((w1, w2), m), none)
    | xs, m =>
      .error s!"Got {xs.length} jobs when updating level {updateLevel} and when one of the merge nodes at level {curLevel} is {m.jobStr}"
  else if curLevel < updateLevel - 1 then
    -- update the job count for all the levels above
    match jobs with
    | [] => .ok (((w1, w2), m), none)
    | _ =>
      let jobsSentLeft := min (jobs.length : Int) left
      let jobsSentRight := min (jobs.length - jobsSentLeft) right
      .ok (((lens.set (left - jobsSentLeft) w1, lens.set (right - jobsSentRight) w2), m), none)
  else .ok (((w1, w2), m), none)

def addBases (jobs : List (Job M B)) (node : BaseNode B) : Exn (BaseNode B) :=
  let (w, d) := node
  let weight := lens.get w
  match jobs, d with
  | [], d => .ok (w, d)
  | [.base b], .empty => .ok (lens.set (weight - 1) w, .full ⟨b, seqNo, .todo⟩)
  | [.merge _], .full r => .ok (w, .full { r with status := .done })
  | xs, d =>
    .error s!"Got {xs.length} jobs when updating level {updateLevel} and when one of the base nodes is {d.jobStr}"

/-- How the jobs of a node split between its two subtrees. -/
def splitJobs (w : Weight × Weight) (jobs : List (Job M B)) : List (Job M B) × List (Job M B) :=
  let l := lens.get w.1
  let r := lens.get w.2
  (jobs.take l.toNat, (jobs.drop l.toNat).take r.toNat)

def update (completedJobs : List (Job M B)) (tree : Tree (MergeNode M) (BaseNode B)) :
    Exn (Tree (MergeNode M) (BaseNode B) × Option M) :=
  updateSplit (addMerges lens updateLevel seqNo) (addBases lens updateLevel seqNo) (·.1) completedJobs
    updateLevel (splitJobs lens) tree

end Update

/-! ## Weights -/

inductive WeightType where
  | base
  | merge
  | both

/-- The merge weight of a base node counts nodes with status `todo` only. -/
def updateMergeWeight {B : Type} (job : BaseJob B) (weight : Weight) : Weight :=
  match job with
  | .full ⟨_, _, .todo⟩ => { weight with merge := 1 }
  | _ => { weight with merge := 0 }

/-- The base weight of a base node counts empty nodes only. -/
def updateBaseWeight {B : Type} (job : BaseJob B) (weight : Weight) : Weight :=
  match job with
  | .empty => { weight with base := 1 }
  | _ => { weight with base := 0 }

/-- The new leaf, and its weight with a dummy one for a right part. -/
def resetBase {B : Type} (weightType : WeightType) (base : BaseNode B) : BaseNode B × (Weight × Weight) :=
  match weightType with
  | .merge =>
    let w := updateMergeWeight base.2 base.1
    ((w, base.2), (w, { base.1 with merge := 0 }))
  | .base =>
    let w := updateBaseWeight base.2 base.1
    ((w, base.2), (w, { base.1 with base := 0 }))
  | .both =>
    let w' := updateBaseWeight base.2 base.1
    let w := updateMergeWeight base.2 w'
    ((w, base.2), (w, { base := 0, merge := 0 }))

/-- Weights of all other jobs are the sum of the weights of their children. -/
def resetSum (lens : WeightLens) (lst : (Weight × Weight) × (Weight × Weight)) (w : Weight × Weight) :
    Weight × Weight :=
  (lens.set (lens.get lst.1.1 + lens.get lst.1.2) w.1, lens.set (lens.get lst.2.1 + lens.get lst.2.2) w.2)

def resetMerge {M : Type} (weightType : WeightType) (lst : (Weight × Weight) × (Weight × Weight))
    (m : MergeNode M) : MergeNode M × (Weight × Weight) :=
  let w' :=
    match weightType with
    | .merge =>
      -- the merge weight of a merge node counts itself only when it is to do
      match m with
      | ((w1, w2), .full ⟨_, _, _, .todo⟩) => ({ w1 with merge := 1 }, { w2 with merge := 0 })
      | (w, _) => resetSum Weight.mergeLens lst w
    | .base => resetSum Weight.baseLens lst m.1
    | .both => resetSum Weight.mergeLens lst (resetSum Weight.baseLens lst m.1)
  ((w', m.2), w')

section

variable {M B : Type}

def resetWeights (weightType : WeightType) (tree : Tree (MergeNode M) (BaseNode B)) :
    Tree (MergeNode M) (BaseNode B) :=
  (updateAccumulate (resetMerge weightType) (resetBase weightType) tree).1

/-! ## Reading a tree -/

/-- The job of a merge node that is to do. -/
def mergeTodo : MergeNode M → Option (AvailableJob M B)
  | (_, .full ⟨left, right, _, .todo⟩) => some (.merge left right)
  | _ => none

/-- The job of a base node that is to do. -/
def baseTodo : BaseNode B → Option (AvailableJob M B)
  | (_, .full ⟨job, _, .todo⟩) => some (.base job)
  | _ => none

def jobsOnLevel (depth level : Int) (tree : Tree (MergeNode M) (BaseNode B)) : List (AvailableJob M B) :=
  (foldDepth (fun i acc a => if i = level then ((mergeTodo a).map (· :: acc)).getD acc else acc)
    (fun acc d => if level = depth then ((baseTodo d).map (· :: acc)).getD acc else acc) [] tree).reverse

/-- The job a leaf holds. -/
def leafJob : BaseNode B → Option B
  | (_, .full r) => some r.job
  | _ => none

def baseJobs (tree : Tree (MergeNode M) (BaseNode B)) : List B :=
  (foldDepth (fun _ _ _ => []) (fun acc d => ((leafJob d).map (· :: acc)).getD acc) [] tree).reverse

def leaves (tree : Tree (MergeNode M) (BaseNode B)) : List (BaseNode B) :=
  (foldDepth (fun _ _ _ => []) (fun acc d => ((leafJob d).map fun _ => d :: acc).getD acc) [] tree).reverse

def requiredJobCount : Tree (MergeNode M) (BaseNode B) → Int
  | .node _ value _ => value.1.1.merge + value.1.2.merge
  | .leaf d => d.1.merge

def availableSpace : Tree (MergeNode M) (BaseNode B) → Int
  | .node _ value _ => value.1.1.base + value.1.2.base
  | .leaf d => d.1.base

end

end Tree

end Mina.ParallelScan
