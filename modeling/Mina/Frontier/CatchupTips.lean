/-
The tips of the hash tree of catchup (`transition_frontier/catchup_hash_tree.ml`),
which `max_catchup_chain_length` reads.

Each operation does to the rest of the tree what it does without tips. The
length's walk up the tree has fuel, and the hash set of tips is folded in the
order of the hashes.
-/
import Mina.Frontier.CatchupHashTreeFacts

namespace Mina.CatchupHashTree

open Std (ExtTreeMap ExtTreeSet)

variable {F J : Type} [LinearOrder F] [LinearOrder J]

structure WithTips (F J : Type) [LinearOrder F] [LinearOrder J] where
  tree : T F J
  tips : ExtTreeSet F compare

namespace WithTips

/-! ## Operations -/

def create (rootHash parent : F) : WithTips F J where
  tree := CatchupHashTree.create rootHash parent
  tips := ∅

def add (t : WithTips F J) (h parent : F) (job : J) : WithTips F J where
  tree := CatchupHashTree.add t.tree h parent job
  tips :=
    if h ∈ t.tree.nodes then t.tips
    else (if h ∈ t.tree.children then t.tips else t.tips.insert h).erase parent

def breadcrumbAdded (t : WithTips F J) (h parent : F) : WithTips F J where
  tree := CatchupHashTree.breadcrumbAdded t.tree h parent
  tips := t.tips.erase h

def removeNode (t : WithTips F J) (h : F) : WithTips F J where
  tree := CatchupHashTree.removeNode t.tree h
  tips := t.tips.erase h

def prune (t : WithTips F J) : Exn (WithTips F J) :=
  (walk (pushed t.tree.children) (t.tree.nodes.keys.length + 2) [] [t.tree.root]).andThen fun keep =>
    .ok (t.tree.nodes.keys.foldl (fun t h => if h ∈ keep then t else removeNode t h) t)

def catchupFailed (t : WithTips F J) (job : J) : WithTips F J :=
  let nodes := t.tree.nodes.map fun _ node => node.removeJob job
  let toRemove := nodes.foldl (fun acc key node => if node.abandoned then key :: acc else acc) []
  toRemove.foldl removeNode { t with tree := { t.tree with nodes } }

def applyDiff (t : WithTips F J) : Diff F → Exn (WithTips F J)
  | .newNode h parent => .ok (breadcrumbAdded t h parent)
  | .rootTransitioned newRoot garbage =>
    let t := garbage.foldl removeNode t
    let t := match t.tree.nodes[newRoot]? with
      | none => t
      | some x => { t with
          tree := { t.tree with root := newRoot, nodes := t.tree.nodes.insert newRoot { x with state := .haveBreadcrumb } } }
    prune t
  | .bestTipChanged => .ok t

def missingLength (t : T F J) : Nat → Nat → Node F J → Exn Nat
  | 0, _, _ => .error "out of fuel"
  | fuel + 1, acc, node =>
    match node.state with
    | .haveBreadcrumb => .ok acc
    | .partOfCatchups _ =>
      match t.nodes[node.parent]? with
      | none => .ok acc
      | some parent => missingLength t fuel (acc + 1) parent

def maxCatchupChainLength (fuel : Nat) (t : WithTips F J) : Exn Nat :=
  Exn.fold (fun acc tip =>
    (Exn.valueExn t.tree.nodes[tip]?).andThen fun node =>
      (missingLength t.tree fuel 0 node).andThen fun n => .ok (max acc n)) 0 t.tips.toList

/-! ## Runs -/

def step (t : WithTips F J) : Event F J → Exn (WithTips F J)
  | .add h parent job => .ok (add t h parent job)
  | .diff d => applyDiff t d
  | .catchupFailed job => .ok (catchupFailed t job)

/-- `x` is a child of `p` in the tree. -/
def Child (t : T F J) (p x : F) : Prop := ∃ node, t.nodes[x]? = some node ∧ node.parent = p

/-- A block is added under one that is in the tree, a breadcrumb under one
that is there; and the root moves to a child of it, with garbage that is not
below. -/
def Admitted (t : T F J) : Event F J → Prop
  | .add _ parent _ => parent ∈ t.nodes
  | .diff (.newNode _ parent) => ∃ node, t.nodes[parent]? = some node ∧ node.state = .haveBreadcrumb
  | .diff (.rootTransitioned newRoot garbage) => Child t t.root newRoot ∧ ∀ h ∈ garbage, ¬ Reach t newRoot h
  | .diff .bestTipChanged => True
  | .catchupFailed _ => True

/-- The job is the last that looks for a block. -/
def Last (t : T F J) (job : J) (h : F) : Prop :=
  ∃ node, t.nodes[h]? = some node ∧ (node.removeJob job).abandoned = true

/-- No step takes the last child from a block without a breadcrumb that stays,
or the parent from a block that stays, and the root does not become a block
without a breadcrumb and children. -/
def Steady (t : T F J) : Event F J → Prop
  | .catchupFailed job =>
    (∀ p x, Child t p x → Last t job p → Last t job x) ∧
      ∀ p node, t.nodes[p]? = some node → node.noBreadcrumb → ¬ Last t job p →
        (∃ x, Child t p x) → ∃ x, Child t p x ∧ ¬ Last t job x
  | .diff (.rootTransitioned newRoot _) =>
    ∀ node, t.nodes[newRoot]? = some node → node.noBreadcrumb → ∃ x, Child t newRoot x
  | _ => True

/-- Runs of admitted steps that meet a condition. -/
inductive Runs (Condition : T F J → Event F J → Prop) (t : WithTips F J) : List (Event F J) → WithTips F J → Prop
  | nil : Runs Condition t [] t
  | snoc {events : List (Event F J)} {event : Event F J} {t₁ t₂ : WithTips F J} : Runs Condition t events t₁ →
      Admitted t₁.tree event → Condition t₁.tree event → step t₁ event = .ok t₂ →
      Runs Condition t (events ++ [event]) t₂

/-! ## What the tips are for -/

/-- Consecutive blocks without a breadcrumb, from the lowest up. -/
def Missing (t : T F J) (l : List F) : Prop :=
  (∀ h ∈ l, ∃ node, t.nodes[h]? = some node ∧ node.noBreadcrumb) ∧ l.IsChain fun h p => Child t p h

/-- The tips are the blocks without a breadcrumb and children, and the length
is that of the longest chain of blocks without a breadcrumb. -/
structure Right (t : WithTips F J) : Prop where
  tips : ∀ h, h ∈ t.tips ↔ (∃ node, t.tree.nodes[h]? = some node ∧ node.noBreadcrumb) ∧ ∀ x, ¬ Child t.tree h x
  length : ∃ n, IsGreatest {n | ∃ l, Missing t.tree l ∧ l.length = n} n ∧
    ∃ enough, ∀ fuel, enough ≤ fuel → maxCatchupChainLength fuel t = .ok n

end WithTips

end Mina.CatchupHashTree
