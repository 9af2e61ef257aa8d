/-
The scan state (`parallel_scan/parallel_scan.ml`): a non-empty list of
trees, newest first, of which the first is being filled with data and the
others are being merged, and `update`, which adds data and completed jobs.

A computation in `State_or_error` is a function of the state that answers an
`Exn`. `max_base_jobs` and `delay` are natural numbers here; sequence numbers
are integers, reset before they reach `Int.max_value`.
-/
import Mina.ParallelScan.Tree

namespace Mina.ParallelScan

/-- `Non_empty_list`: a head and the rest. -/
structure NonEmptyList (α : Type 1) where
  head : α
  tail : List α

namespace NonEmptyList

variable {α β : Type 1}

def singleton (x : α) : NonEmptyList α := ⟨x, []⟩

def cons (x : α) (xs : NonEmptyList α) : NonEmptyList α := ⟨x, xs.head :: xs.tail⟩

def toList (xs : NonEmptyList α) : List α := xs.head :: xs.tail

def last (xs : NonEmptyList α) : α := xs.tail.getLastD xs.head

def map (f : α → β) (xs : NonEmptyList α) : NonEmptyList β := ⟨f xs.head, xs.tail.map f⟩

def append (xs ys : NonEmptyList α) : NonEmptyList α := ⟨xs.head, xs.tail ++ ys.toList⟩

def ofListOpt : List α → Option (NonEmptyList α)
  | [] => none
  | x :: xs => some ⟨x, xs⟩

end NonEmptyList

/-- A tree of the scan state. -/
abbrev JobTree (M B : Type) := Tree (MergeNode M) (BaseNode B)

structure State (M B : Type) where
  trees : NonEmptyList (JobTree M B)
  /-- The last emitted proof and the corresponding transactions. -/
  acc : Option (M × List B)
  /-- The sequence number of the jobs added, one for every update. -/
  currJobSeqNo : Int
  maxBaseJobs : Nat
  delay : Nat

namespace State

variable {M B : Type}

/-! ## Creation -/

/-- `go`, from level `d` with `n` levels to go. -/
def createLevels {M B : Type} : (n d : Nat) → (Nat → M) → B → Tree M B
  | 0, _, _, base => .leaf base
  | n + 1, d, fmerge, base =>
    .node d (fmerge d) (createLevels n (d + 1) (fun i => (fmerge i, fmerge i)) (base, base))

def createTreeForLevel (level : Int) (depth : Nat) (mergeJob : MergeJob M) (baseJob : BaseJob B) : JobTree M B :=
  let baseWeight : Weight := if level = -1 then ⟨0, 0⟩ else ⟨1, 0⟩
  createLevels depth 0
    (fun d =>
      let weight : Weight × Weight :=
        if level = -1 then (⟨0, 0⟩, ⟨0, 0⟩)
        else
          let x : Int := (2 ^ level.toNat / 2 ^ (d + 1) : Nat)
          (⟨x, 0⟩, ⟨x, 0⟩)
      (weight, mergeJob))
    (baseWeight, baseJob)

def createTree (depth : Nat) : JobTree M B := createTreeForLevel depth depth .empty .empty

/-- `Int.ceil_log2`. -/
def ceilLog2 (n : Nat) : Nat := Nat.clog 2 n

def empty (maxBaseJobs delay : Nat) : State M B where
  trees := .singleton (createTree (ceilLog2 maxBaseJobs))
  acc := none
  currJobSeqNo := 0
  maxBaseJobs := maxBaseJobs
  delay := delay

/-! ## Work -/

def maxTrees (t : State M B) : Nat := (ceilLog2 t.maxBaseJobs + 1) * (t.delay + 1) + 1

def workToDo (trees : List (JobTree M B)) (maxBaseJobs : Nat) : List (AvailableJob M B) :=
  let depth := ceilLog2 maxBaseJobs
  trees.zipIdx.flatMap fun (tree, i) => tree.jobsOnLevel depth ((depth : Int) - i)

/-- The trees whose turn it is: every `delay`th one. -/
def workTrees (trees : List (JobTree M B)) (delay : Nat) : List (JobTree M B) :=
  (trees.zipIdx.filter fun p => p.2 % delay = delay - 1).map (·.1)

def work (trees : List (JobTree M B)) (delay maxBaseJobs : Nat) : List (AvailableJob M B) :=
  let depth := ceilLog2 maxBaseJobs
  workToDo ((workTrees trees delay).take (depth + 1)) maxBaseJobs

inductive DataTree where
  | current
  | next

def workForTree (t : State M B) (dataTree : DataTree) : List (AvailableJob M B) :=
  let delay := t.delay + 1
  let trees :=
    match dataTree with
    | .current => t.trees.tail
    | .next => t.trees.toList
  work trees delay t.maxBaseJobs

def workForNextUpdate (t : State M B) (dataCount : Nat) : List (List (AvailableJob M B)) :=
  let delay := t.delay + 1
  let currentTreeSpace := t.trees.head.availableSpace
  let set1 := work t.trees.tail delay t.maxBaseJobs
  let count := min dataCount t.maxBaseJobs
  if currentTreeSpace < count then
    let set2 := (work t.trees.toList delay t.maxBaseJobs).take ((count - currentTreeSpace) * 2).toNat
    [set1, set2].filter fun s => !s.isEmpty
  else
    let set := set1.take (2 * count)
    if set.isEmpty then [] else [set]

def freeSpaceOnCurrentTree (t : State M B) : Int := t.trees.head.availableSpace

/-- The work of `n` rounds to come, each of which begins with a new tree. -/
def workOfNewTrees (t : State M B) : Nat → List (List (AvailableJob M B))
  | 0 => []
  | n + 1 =>
    let t' := { t with trees := t.trees.cons (createTree (ceilLog2 t.maxBaseJobs)) }
    match t'.workForTree .current with
    | [] => workOfNewTrees t' n
    | work => work :: workOfNewTrees t' n

/-- The work on all the levels and all the trees. -/
def allWork (t : State M B) : List (List (AvailableJob M B)) :=
  let set1 := t.workForTree .current
  let otherSets := workOfNewTrees t (t.delay + 1)
  if set1.isEmpty then otherSets else set1 :: otherSets

/-! ## Adding completed jobs and data -/

/-- `check b ~message`: an error when `b` holds. -/
def check {α : Type 1} (b : Prop) [Decidable b] (message : String) (x : Exn α) : Exn α :=
  if b then .error message else x

/-- `Error.tag`. -/
def tag {α : Type 1} (text : String) : Exn α → Exn α
  | .ok a => .ok a
  | .error e => .error (text ++ ": " ++ e)

theorem tag_ok {α : Type 1} (text : String) (a : α) : tag text (.ok a) = .ok a := rfl

/-- One tree's step of `add_merge_jobs`. -/
def addMergeJobsStep (depth delay : Nat) (seqNo : Int)
    (acc : List (JobTree M B) × Option M × List (Job M B)) (entry : JobTree M B × Nat) :
    Exn (List (JobTree M B) × Option M × List (Job M B)) :=
  let (trees, scanResult, jobs) := acc
  let (tree, i) := entry
  if i % delay = delay - 1 ∧ ¬ jobs.isEmpty then
    -- every nth (n = delay) tree
    (tag s!"Error while adding merge jobs to tree: (tree_number {i})"
        (tree.update Weight.mergeLens ((depth : Int) - (i / delay : Nat)) seqNo
          (jobs.take tree.requiredJobCount.toNat))).andThen fun (tree', scanResult') =>
    .ok (tree' :: trees, scanResult', jobs.drop tree.requiredJobCount.toNat)
  else .ok (tree :: trees, scanResult, jobs)

def addMergeJobs (completedJobs : List M) (state : State M B) :
    Exn (Option (M × List B) × State M B) :=
  if completedJobs.length = 0 then .ok (none, state)
  else
    let delay := state.delay + 1
    let depth := ceilLog2 state.maxBaseJobs
    let mergeJobs : List (Job M B) := completedJobs.map .merge
    let jobsRequired := state.workForTree .current
    check (mergeJobs.length > jobsRequired.length)
      s!"More work than required: Required- {jobsRequired.length} got- {mergeJobs.length}" <|
    let currTree := state.trees.head
    let toBeUpdatedTrees := state.trees.tail
    (Exn.fold (addMergeJobsStep depth delay state.currJobSeqNo) ([], none, mergeJobs)
        toBeUpdatedTrees.zipIdx).andThen fun (updatedTrees, resultOpt, _) =>
    let (updatedTrees, resultOpt) : List (JobTree M B) × Option (M × List B) :=
      match resultOpt with
      | none => (updatedTrees.reverse, none)
      | some res =>
        match updatedTrees with
        | [] => ([], none)
        | t :: ts => (ts.reverse, some (res, t.baseJobs))
    let updatedTrees :=
      -- exact number of jobs
      if resultOpt.isSome ∨
          ((currTree :: updatedTrees).length < state.maxTrees ∧ completedJobs.length = jobsRequired.length) then
        updatedTrees.map (Tree.resetWeights .merge)
      else updatedTrees
    .ok (resultOpt, { state with trees := ⟨currTree, updatedTrees⟩ })

/-- `append bs bs'`. -/
def appendTrees (bs : NonEmptyList (JobTree M B)) (bs' : List (JobTree M B)) : NonEmptyList (JobTree M B) :=
  match NonEmptyList.ofListOpt bs' with
  | none => bs
  | some bs' => bs.append bs'

def addData (data : List B) (state : State M B) : Exn (State M B) :=
  if data.length = 0 then .ok state
  else
    let depth := ceilLog2 state.maxBaseJobs
    let tree := state.trees.head
    let baseJobs : List (Job M B) := data.map .base
    let availableSpace := tree.availableSpace
    check (data.length > availableSpace)
      s!"Data count ({data.length}) exceeded available space ({availableSpace})" <|
    (tag "Error while adding base jobs to the tree"
        (tree.update Weight.baseLens depth state.currJobSeqNo baseJobs)).andThen fun (tree, _) =>
    let updatedTrees : NonEmptyList (JobTree M B) :=
      if baseJobs.length = availableSpace then
        .cons (createTree depth) (.singleton (tree.resetWeights .both))
      else .singleton (tree.resetWeights .merge)
    .ok { state with trees := appendTrees updatedTrees state.trees.tail }

/-! ## Sequence numbers -/

/-- `Int.max_value`. -/
def maxValue : Int := 4611686018427387903

/-- `f_merge` of `reset_seq_no`. -/
def renumberMerge (newSeq : Int → Int) : MergeNode M → MergeNode M
  | (w, .full r) => (w, .full { r with seqNo := newSeq r.seqNo })
  | m => m

/-- `f_base` of `reset_seq_no`. -/
def renumberBase (newSeq : Int → Int) : BaseNode B → BaseNode B
  | (w, .full r) => (w, .full { r with seqNo := newSeq r.seqNo })
  | b => b

def resetSeqNo (state : State M B) : State M B :=
  let oldestSeqNo :=
    match state.trees.last.leaves.head? with
    | some (_, .full r) => r.seqNo
    | _ => 0
  let newSeq (seq : Int) : Int := seq - oldestSeqNo + 1
  let tree' : JobTree M B → JobTree M B := Tree.map (renumberMerge newSeq) (renumberBase newSeq)
  let nextSeqNo := (state.trees.toList.map tree').foldl
    (fun maxSeq tree =>
      match tree.leaves.getLast? with
      | some (_, .full r) => max r.seqNo maxSeq
      | _ => maxSeq) (0 : Int)
  { state with currJobSeqNo := nextSeqNo, trees := state.trees.map tree' }

def incrSequenceNo (state : State M B) : State M B :=
  if state.currJobSeqNo + 1 = maxValue then resetSeqNo state
  else { state with currJobSeqNo := state.currJobSeqNo + 1 }

/-! ## The update -/

/-- `Insufficient jobs`: the number of bundles of two jobs got is below the
number required, and the data is too much for that. -/
def insufficient (maxBaseJobs dataCount required got : Nat) : Prop :=
  got < required ∧ (dataCount : Int) > (maxBaseJobs : Int) - required + got

instance insufficientDecidable (maxBaseJobs dataCount required got : Nat) :
    Decidable (insufficient maxBaseJobs dataCount required got) :=
  inferInstanceAs (Decidable (_ ∧ _))

def update (data : List B) (completedJobs : List M) (t : State M B) :
    Exn (Option (M × List B) × State M B) :=
  let dataCount := data.length
  check (dataCount > t.maxBaseJobs) s!"Data count ({dataCount}) exceeded maximum ({t.maxBaseJobs})" <|
  let requiredJobs := (t.workForNextUpdate dataCount).flatten
  let required := (requiredJobs.length + 1) / 2
  let got := (completedJobs.length + 1) / 2
  check (insufficient t.maxBaseJobs dataCount required got)
    s!"Insufficient jobs (Data count {dataCount}): Required- {required} got- {got}" <|
  let delay := t.delay + 1
  -- increment the sequence number
  let state := incrSequenceNo t
  let availableSpace := t.trees.head.availableSpace
  -- part of the data may go on the first tree and the rest of it on a new
  -- one, which also takes the jobs of two different sets of trees
  let data1 := data.take availableSpace.toNat
  let data2 := data.drop availableSpace.toNat
  let requiredJobsForCurrentTree := (work t.trees.tail delay t.maxBaseJobs).length
  let jobs1 := completedJobs.take requiredJobsForCurrentTree
  let jobs2 := completedJobs.drop requiredJobsForCurrentTree
  (addMergeJobs jobs1 state).andThen fun (resultOpt, state) =>
  (addData data1 state).andThen fun state =>
  -- empty if all the data fit in the current tree
  (addMergeJobs jobs2 state).andThen fun (_, state) =>
  (addData data2 state).andThen fun state =>
  -- update the latest emitted value
  let state := { state with acc := resultOpt.or state.acc }
  check (state.trees.toList.length > state.maxTrees)
    s!"Tree list length ({state.trees.toList.length}) exceeded maximum ({state.maxTrees})" <|
  .ok (resultOpt, state)

/-! ## What the staged ledger reads -/

def jobsForNextUpdate (t : State M B) : List (List (AvailableJob M B)) := t.workForNextUpdate t.maxBaseJobs

def freeSpace (t : State M B) : Nat := t.maxBaseJobs

def nextOnNewTree (t : State M B) : Bool := t.freeSpaceOnCurrentTree = t.maxBaseJobs

/-- Slots with the number of jobs for them, on the current tree and on the
next one. -/
structure SpacePartition where
  first : Int × Nat
  second : Option (Int × Nat)

def partitionIfOverflowing (t : State M B) : SpacePartition :=
  let curTreeSpace := t.freeSpaceOnCurrentTree
  let workCount := (t.workForTree .current).length
  let workCountNewTree := (t.workForTree .next).length
  { first := (curTreeSpace, workCount)
    second :=
      if curTreeSpace < t.maxBaseJobs then
        let slots := t.maxBaseJobs - curTreeSpace
        some (slots, min workCountNewTree (2 * slots).toNat)
      else none }

end State

end Mina.ParallelScan
