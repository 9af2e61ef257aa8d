/-
The hash tree of catchup (`transition_frontier/catchup_hash_tree.ml`): the
blocks of the frontier and those that catchup jobs look for, each with its
parent, and of a block without a breadcrumb the jobs that look for it.

What the tree logs and `tips`, which only `max_catchup_chain_length` reads, are
left out. Of a diff the tree reads the hashes of the new node and its parent,
or those of the new root and of the garbage. State hashes are `F` and the ids
of jobs `J`; the walk of `prune` has fuel: the number of nodes.
-/
import Mina.Base.Currency
import Mina.Base.Forest
import Mina.NetworkPool.MapSet

namespace Mina.CatchupHashTree

open Std (ExtTreeMap ExtTreeSet)

variable {F J : Type} [LinearOrder F] [LinearOrder J]

/-- `Node.State.t`. -/
inductive NodeState (J : Type) [LinearOrder J] where
  | haveBreadcrumb
  | partOfCatchups (ids : ExtTreeSet J compare)

structure Node (F J : Type) [LinearOrder J] where
  parent : F
  state : NodeState J

structure T (F J : Type) [LinearOrder F] [LinearOrder J] where
  nodes : ExtTreeMap F (Node F J) compare
  children : MapSet F F
  root : F

/-- `create`, with the hash and the parent's hash of the root breadcrumb. -/
def create (rootHash parent : F) : T F J where
  nodes := (∅ : ExtTreeMap F (Node F J) compare).insert rootHash { parent, state := .haveBreadcrumb }
  children := MapSet.insert ∅ parent rootHash
  root := rootHash

def addChild (t : T F J) (h parent : F) : T F J := { t with children := MapSet.insert t.children parent h }

def add (t : T F J) (h parent : F) (job : J) : T F J :=
  match t.nodes[h]? with
  | some node =>
    match node.state with
    | .haveBreadcrumb => t
    | .partOfCatchups s => { t with nodes := t.nodes.insert h { node with state := .partOfCatchups (s.insert job) } }
  | none =>
    let t := addChild t h parent
    { t with nodes := t.nodes.insert h { parent, state := .partOfCatchups ∅ } }

def breadcrumbAdded (t : T F J) (h parent : F) : T F J :=
  match t.nodes[h]? with
  | none =>
    let t := addChild t h parent
    { t with nodes := t.nodes.insert h { parent, state := .haveBreadcrumb } }
  | some x => { t with nodes := t.nodes.insert h { x with state := .haveBreadcrumb } }

/-- What `remove_node` does to the children of the parent. -/
def removeChild (children : MapSet F F) (parent h : F) : MapSet F F :=
  ExtTreeMap.alter children parent fun
    | none => none
    | some s =>
      let s' := s.erase h
      if s'.isEmpty then none else some s'

def removeNode (t : T F J) (h : F) : T F J :=
  match t.nodes[h]? with
  | none => t
  | some node => { t with nodes := t.nodes.erase h, children := removeChild t.children node.parent h }

/-- The children in the order in which they go onto the stack of `prune`. -/
def pushed (children : MapSet F F) (h : F) : List F :=
  match children[h]? with
  | none => []
  | some cs => cs.toList.reverse

/-- Remove everything not reachable from the root. -/
def prune (t : T F J) : Exn (T F J) :=
  (walk (pushed t.children) (t.nodes.keys.length + 2) [] [t.root]).andThen fun keep =>
    .ok (t.nodes.keys.foldl (fun t h => if h ∈ keep then t else removeNode t h) t)

def Node.removeJob (node : Node F J) (job : J) : Node F J :=
  match node.state with
  | .haveBreadcrumb => node
  | .partOfCatchups s => { node with state := .partOfCatchups (s.erase job) }

/-- No job is left that the node is part of. -/
def Node.abandoned (node : Node F J) : Bool :=
  match node.state with
  | .haveBreadcrumb => false
  | .partOfCatchups s => s.isEmpty

def catchupFailed (t : T F J) (job : J) : T F J :=
  let nodes := t.nodes.map fun _ node => node.removeJob job
  let toRemove := nodes.foldl (fun acc key node => if node.abandoned then key :: acc else acc) []
  toRemove.foldl removeNode { t with nodes }

inductive Diff (F : Type) where
  | newNode (h parent : F)
  | rootTransitioned (newRoot : F) (garbage : List F)
  | bestTipChanged

def applyDiff (t : T F J) : Diff F → Exn (T F J)
  | .newNode h parent => .ok (breadcrumbAdded t h parent)
  | .rootTransitioned newRoot garbage =>
    let t := garbage.foldl removeNode t
    let t := match t.nodes[newRoot]? with
      | none => t
      | some x => { t with root := newRoot, nodes := t.nodes.insert newRoot { x with state := .haveBreadcrumb } }
    prune t
  | .bestTipChanged => .ok t

/-! ## Runs -/

/-- What happens to a tree. -/
inductive Event (F J : Type) where
  | add (h parent : F) (job : J)
  | diff (d : Diff F)
  | catchupFailed (job : J)

/-- The tree and what the jobs have done to it: those that ever added a block,
those that added it when it was in the tree, since it was last put there, and
those that have failed. -/
structure World (F J : Type) [LinearOrder F] [LinearOrder J] where
  tree : T F J
  adders : F → List J
  again : F → List J
  failed : List J

def start (rootHash parent : F) : World F J where
  tree := create rootHash parent
  adders _ := []
  again _ := []
  failed := []

def step (w : World F J) : Event F J → Exn (World F J)
  | .add h parent job =>
    let again := match w.tree.nodes[h]? with
      | none => []
      | some _ => job :: w.again h
    .ok { w with
      tree := add w.tree h parent job
      adders := Function.update w.adders h (job :: w.adders h)
      again := Function.update w.again h again }
  | .diff d => (applyDiff w.tree d).andThen fun tree => .ok { w with tree }
  | .catchupFailed job => .ok { w with tree := catchupFailed w.tree job, failed := job :: w.failed }

/-- `x` is reached from `a` by the table of children. -/
def Reach (t : T F J) (a x : F) : Prop := Relation.ReflTransGen (MapSet.Mem t.children) a x

def Node.noBreadcrumb (node : Node F J) : Prop := node.state ≠ .haveBreadcrumb

/-- What the callers see to: a job that has failed adds nothing more and adds
a block under one that is in the tree; a breadcrumb is added under one that is
there; and the root moves to a child of it, with garbage that is not below. -/
def Event.Allowed (w : World F J) : Event F J → Prop
  | .add _ parent job => parent ∈ w.tree.nodes ∧ job ∉ w.failed
  | .diff (.newNode _ parent) => ∃ node, w.tree.nodes[parent]? = some node ∧ node.state = .haveBreadcrumb
  | .diff (.rootTransitioned newRoot garbage) =>
    (∃ node, w.tree.nodes[newRoot]? = some node ∧ node.parent = w.tree.root) ∧
      ∀ h ∈ garbage, ¬ Reach w.tree newRoot h
  | .diff .bestTipChanged => True
  | .catchupFailed _ => True

/-- The states that the events lead to. -/
inductive Runs (w : World F J) : List (Event F J) → World F J → Prop
  | nil : Runs w [] w
  | snoc {events : List (Event F J)} {event : Event F J} {w₁ w₂ : World F J} : Runs w events w₁ →
      event.Allowed w₁ → step w₁ event = .ok w₂ → Runs w (events ++ [event]) w₂

end Mina.CatchupHashTree
