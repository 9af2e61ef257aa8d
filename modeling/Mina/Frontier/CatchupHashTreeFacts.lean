/-
The hash tree of catchup over whole runs.

The table of children is always the inverse of the parent links
(`ChildrenInverse`), so what `prune` keeps is what the links lead to from the
root. A block's ids are the jobs that added it again and have not failed; the
job that put it into the tree is not among them, and so a block goes when its
last other job fails, though the first may still look for it.
-/
import Mina.Frontier.CatchupHashTree

namespace Mina.CatchupHashTree

open Std (ExtTreeMap ExtTreeSet)
open Relation

variable {F J : Type} [LinearOrder F] [LinearOrder J]

structure ChildrenInverse (t : T F J) : Prop where
  mem : ∀ p h, MapSet.Mem t.children p h ↔ ∃ node, t.nodes[h]? = some node ∧ node.parent = p
  noEmpty : MapSet.NoEmpty t.children

/-! ## Children -/

theorem mem_removeChild {children : MapSet F F} {i j h x : F} :
    MapSet.Mem (removeChild children i h) j x ↔ MapSet.Mem children j x ∧ ¬ (j = i ∧ x = h) := by
  simp only [MapSet.Mem, removeChild, ExtTreeMap.getElem?_alter, compare_eq_iff_eq]
  by_cases hij : i = j
  · subst hij
    cases hs : children[i]? with
    | none => simp
    | some s =>
      by_cases hempty : (s.erase h).isEmpty = true
      · have hnone := MapSet.isEmpty_eq_true.1 hempty x
        simp only [ExtTreeSet.mem_erase, compare_eq_iff_eq, not_and, ne_eq] at hnone
        simp only [if_true, hempty, reduceCtorEq, false_and, exists_false, Option.some.injEq, exists_eq_left',
          true_and, false_iff, not_and, not_not]
        intro hx
        by_contra hne
        exact hnone (fun heq => hne heq.symm) hx
      · simp [hempty, ExtTreeSet.mem_erase, @eq_comm _ h x, and_comm]
  · have hji : ¬ j = i := fun heq => hij heq.symm
    simp [hij, hji]

theorem noEmpty_removeChild {children : MapSet F F} (hne : MapSet.NoEmpty children) (i h : F) :
    MapSet.NoEmpty (removeChild children i h) := by
  intro j set hset
  rw [removeChild, ExtTreeMap.getElem?_alter] at hset
  split at hset
  next hij =>
    cases hs : children[i]? with
    | none =>
      rw [hs] at hset
      cases hset
    | some s =>
      rw [hs] at hset
      dsimp only at hset
      split at hset
      next => cases hset
      next hempty =>
        cases hset
        rw [MapSet.isEmpty_eq_true, not_forall_not] at hempty
        exact hempty
  next => exact hne j set hset

theorem mem_pushed {children : MapSet F F} {p x : F} : x ∈ pushed children p ↔ MapSet.Mem children p x := by
  rw [pushed, MapSet.Mem]
  cases children[p]? with
  | none => simp
  | some cs => simp [ExtTreeSet.mem_toList]

theorem nodup_pushed (children : MapSet F F) (p : F) : (pushed children p).Nodup := by
  rw [pushed]
  cases children[p]? with
  | none => exact List.nodup_nil
  | some cs =>
    refine List.nodup_reverse.2 (cs.distinct_toList.imp fun {a b} hne heq => hne ?_)
    rw [heq, compare_eq_iff_eq]

/-! ## Removing nodes -/

theorem removeNode_nodes (t : T F J) (h x : F) :
    (removeNode t h).nodes[x]? = if x = h then none else t.nodes[x]? := by
  rw [removeNode]
  cases hn : t.nodes[h]? with
  | none =>
    dsimp only
    split
    next hx => rw [hx, hn]
    next => rfl
  | some node =>
    dsimp only
    rw [ExtTreeMap.getElem?_erase]
    simp only [compare_eq_iff_eq, @eq_comm _ x h]

theorem removeNode_root (t : T F J) (h : F) : (removeNode t h).root = t.root := by
  rw [removeNode]
  split <;> rfl

theorem ChildrenInverse.removeNode {t : T F J} (ht : ChildrenInverse t) (h : F) :
    ChildrenInverse (removeNode t h) := by
  cases hn : t.nodes[h]? with
  | none =>
    rw [CatchupHashTree.removeNode, hn]
    exact ht
  | some node =>
    refine ⟨fun p x => ?_, ?_⟩
    · rw [removeNode_nodes, CatchupHashTree.removeNode, hn]
      dsimp only
      rw [mem_removeChild, ht.mem]
      by_cases hx : x = h
      · subst hx
        simp only [hn, Option.some.injEq, exists_eq_left', and_true, if_true, reduceCtorEq, false_and, exists_false,
          iff_false, not_and, not_not]
        exact fun heq => heq.symm
      · simp only [hx, and_false, not_false_eq_true, and_true, if_false]
    · rw [CatchupHashTree.removeNode, hn]
      exact noEmpty_removeChild ht.noEmpty _ _

theorem removeNodes_nodes : ∀ (l : List F) (t : T F J) (x : F),
    (l.foldl removeNode t).nodes[x]? = if x ∈ l then none else t.nodes[x]?
  | [], t, x => by simp
  | h :: l, t, x => by
    rw [List.foldl_cons, removeNodes_nodes l, removeNode_nodes]
    by_cases hx : x = h <;> by_cases hl : x ∈ l <;> simp [hx, hl]

theorem removeNodes_root : ∀ (l : List F) (t : T F J), (l.foldl removeNode t).root = t.root
  | [], _ => rfl
  | h :: l, t => by rw [List.foldl_cons, removeNodes_root l, removeNode_root]

theorem ChildrenInverse.removeNodes : ∀ (l : List F) {t : T F J}, ChildrenInverse t →
    ChildrenInverse (l.foldl CatchupHashTree.removeNode t)
  | [], _, ht => ht
  | h :: l, _, ht => ChildrenInverse.removeNodes l (ht.removeNode h)

/-! ## Reaching -/

section Reach

variable {t : T F J} {Link : F → F → Prop} {rank : F → Nat}

/-- The links of the nodes. -/
def Linked (Link : F → F → Prop) (t : T F J) : Prop := ∀ h node, t.nodes[h]? = some node → Link node.parent h

theorem ChildrenInverse.forest (ht : ChildrenInverse t) (hlink : Linked Link t)
    (hrank : ∀ p h, Link p h → rank p < rank h) : Forest (MapSet.Mem t.children) rank := by
  refine ⟨fun p q x hp hq => ?_, fun p x hp => ?_⟩
  · obtain ⟨node, hnode, rfl⟩ := (ht.mem p x).1 hp
    obtain ⟨node', hnode', rfl⟩ := (ht.mem q x).1 hq
    rw [hnode] at hnode'
    cases hnode'
    rfl
  · obtain ⟨node, hnode, rfl⟩ := (ht.mem p x).1 hp
    exact hrank _ _ (hlink x node hnode)

theorem keep_foldl (keep : List F) (t₀ : T F J) (l : List F) :
    l.foldl (fun t h => if h ∈ keep then t else removeNode t h) t₀ =
      (l.filter fun h => h ∉ keep).foldl removeNode t₀ := by
  rw [List.foldl_filter]
  simp only [decide_not, Bool.not_eq_true', decide_eq_false_iff_not, ite_not]

/-- What `prune` leaves is what is reached from the root. -/
theorem prune_ok (ht : ChildrenInverse t) (hlink : Linked Link t) (hrank : ∀ p h, Link p h → rank p < rank h) :
    ∃ t', prune t = .ok t' ∧ ChildrenInverse t' ∧ t'.root = t.root ∧
      (∀ h, Reach t t.root h → t'.nodes[h]? = t.nodes[h]?) ∧ ∀ h, ¬ Reach t t.root h → t'.nodes[h]? = none := by
  have hnode : ∀ p x, MapSet.Mem t.children p x → x ∈ t.nodes.keys := fun p x hp => by
    obtain ⟨node, hn, -⟩ := (ht.mem p x).1 hp
    rw [ExtTreeMap.mem_keys, ExtTreeMap.mem_iff_isSome_getElem?, hn]
    rfl
  obtain ⟨keep, hwalk, hkeep⟩ := walk_ok (ht.forest hlink hrank) (fun p x => mem_pushed)
    (nodup_pushed t.children) hnode t.root (le_refl _)
  refine ⟨_, (Exn.andThen_of_ok hwalk _).trans rfl, ?_⟩
  rw [keep_foldl]
  refine ⟨ht.removeNodes _, removeNodes_root _ _, fun h hr => ?_, fun h hr => ?_⟩
  · rw [removeNodes_nodes, if_neg]
    simp [hkeep, show ReflTransGen (MapSet.Mem t.children) t.root h from hr]
  · rw [removeNodes_nodes]
    split
    next => rfl
    next hmem =>
      cases hn : t.nodes[h]? with
      | none => rfl
      | some node =>
        refine absurd (List.mem_filter.2 ⟨?_, ?_⟩) hmem
        · rw [ExtTreeMap.mem_keys, ExtTreeMap.mem_iff_isSome_getElem?, hn]
          rfl
        · rw [decide_eq_true_eq, hkeep]
          exact hr

/-- Pruning to what is below a new root, after garbage that is not below it
has gone. -/
theorem prune_garbage {t₀ : T F J} (ht₀ : ChildrenInverse t₀) (hlink₀ : Linked Link t₀)
    (hrank : ∀ p h, Link p h → rank p < rank h) {newRoot : F} {garbage : List F} {root : Node F J}
    (hroot : t₀.nodes[newRoot]? = some root) (hgarbage : ∀ h ∈ garbage, ¬ Reach t₀ newRoot h)
    (htroot : t.root = newRoot) (ht : ChildrenInverse t) (hnodes : ∀ x, t.nodes[x]? =
      if newRoot = x then some { root with state := .haveBreadcrumb } else if x ∈ garbage then none
      else t₀.nodes[x]?) :
    ∃ t', prune t = .ok t' ∧ ChildrenInverse t' ∧ t'.root = newRoot ∧
      (∀ x, Reach t₀ newRoot x → t'.nodes[x]? =
        if newRoot = x then some { root with state := .haveBreadcrumb } else t₀.nodes[x]?) ∧
      ∀ x, ¬ Reach t₀ newRoot x → t'.nodes[x]? = none := by
  have hkept₀ : ∀ x, Reach t₀ newRoot x → t.nodes[x]? =
      if newRoot = x then some { root with state := .haveBreadcrumb } else t₀.nodes[x]? := by
    intro x hr
    rw [hnodes, if_neg (fun hin => hgarbage x hin hr : x ∉ garbage)]
  have hold : ∀ (x : F) (node : Node F J), t.nodes[x]? = some node →
      ∃ node₀ : Node F J, t₀.nodes[x]? = some node₀ ∧ node₀.parent = node.parent := by
    intro x node hx
    rw [hnodes] at hx
    split at hx
    next heq =>
      cases hx
      exact ⟨root, heq ▸ hroot, rfl⟩
    next =>
      split at hx
      next => cases hx
      next => exact ⟨node, hx, rfl⟩
  have hlink : Linked Link t := fun x node hx => by
    obtain ⟨node₀, hx₀, hparent⟩ := hold x node hx
    exact hparent ▸ hlink₀ x node₀ hx₀
  have hdown : ∀ x, Reach t₀ newRoot x → Reach t newRoot x := by
    intro x hr
    induction hr with
    | refl => exact .refl
    | @tail y z hy hc ih =>
      refine ih.tail ((ht.mem y z).2 ?_)
      obtain ⟨node, hz, hparent⟩ := (ht₀.mem y z).1 hc
      rw [hkept₀ z (hy.tail hc)]
      split
      next heq =>
        rw [← heq, hroot] at hz
        cases hz
        exact ⟨_, rfl, hparent⟩
      next => exact ⟨node, hz, hparent⟩
  have hup : ∀ x, Reach t newRoot x → Reach t₀ newRoot x := by
    intro x hr
    induction hr with
    | refl => exact .refl
    | @tail y z _ hc ih =>
      obtain ⟨node, hz, rfl⟩ := (ht.mem y z).1 hc
      obtain ⟨node₀, hz₀, hparent⟩ := hold z node hz
      exact ih.tail ((ht₀.mem _ z).2 ⟨node₀, hz₀, hparent⟩)
  obtain ⟨t', hprune, hinverse', hroot', hkept, hremoved⟩ := prune_ok ht hlink hrank
  rw [htroot] at hroot' hkept hremoved
  exact ⟨t', hprune, hinverse', hroot', fun x hr => (hkept x (hdown x hr)).trans (hkept₀ x hr),
    fun x hr => hremoved x fun hr' => hr (hup x hr')⟩

end Reach

/-! ## Operations -/

section Operations

variable {t : T F J}

theorem ChildrenInverse.addNode (ht : ChildrenInverse t) {h : F} (hn : t.nodes[h]? = none) (node : Node F J) :
    ChildrenInverse { t with
      nodes := t.nodes.insert h node
      children := MapSet.insert t.children node.parent h } := by
  refine ⟨fun p x => ?_, MapSet.noEmpty_insert ht.noEmpty _ _⟩
  rw [MapSet.mem_insert, ht.mem, ExtTreeMap.getElem?_insert]
  simp only [compare_eq_iff_eq]
  by_cases hx : h = x
  · subst hx
    simp [hn, @eq_comm _ p]
  · have hx' : ¬ x = h := fun heq => hx heq.symm
    simp [hx, hx']

/-- The nodes change, but not their parents. -/
theorem ChildrenInverse.ofParents {t' : T F J} (ht : ChildrenInverse t) (hchildren : t'.children = t.children)
    (hparents : ∀ h : F, (t'.nodes[h]?).map Node.parent = (t.nodes[h]?).map Node.parent) : ChildrenInverse t' := by
  refine ⟨fun p x => ?_, hchildren ▸ ht.noEmpty⟩
  have hparent := hparents x
  rw [hchildren, ht.mem]
  have hiff : ∀ o : Option (Node F J), (∃ node, o = some node ∧ node.parent = p) ↔ o.map Node.parent = some p :=
    fun o => by simp
  rw [hiff, hiff, hparent]

theorem create_childrenInverse (rootHash parent : F) : ChildrenInverse (create rootHash parent : T F J) := by
  refine ⟨fun p x => ?_, MapSet.noEmpty_insert (fun key set hset => ?_) _ _⟩
  · rw [create]
    dsimp only
    rw [MapSet.mem_insert, ExtTreeMap.getElem?_insert]
    simp only [MapSet.Mem, compare_eq_iff_eq]
    by_cases hx : rootHash = x
    · subst hx
      simp [@eq_comm _ p]
    · have hx' : ¬ x = rootHash := fun heq => hx heq.symm
      simp [hx, hx']
  · simp at hset

theorem create_nodes {rootHash parent h : F} {node : Node F J}
    (hn : (create rootHash parent : T F J).nodes[h]? = some node) :
    h = rootHash ∧ node = { parent, state := .haveBreadcrumb } := by
  simp only [create, ExtTreeMap.getElem?_insert, compare_eq_iff_eq] at hn
  split at hn
  next hh =>
    cases hn
    exact ⟨hh.symm, rfl⟩
  next => simp at hn

theorem insert_state_nodes {h : F} {node : Node F J} (hn : t.nodes[h]? = some node) (state : NodeState J) (x : F) :
    ((t.nodes.insert h { node with state })[x]?).map Node.parent = (t.nodes[x]?).map Node.parent := by
  rw [ExtTreeMap.getElem?_insert]
  simp only [compare_eq_iff_eq]
  split
  next hx => rw [← hx, hn, Option.map_some, Option.map_some]
  next => rfl

omit [LinearOrder F] in
theorem removeJob_parent (node : Node F J) (job : J) : (node.removeJob job).parent = node.parent := by
  rw [Node.removeJob]
  split <;> rfl

omit [LinearOrder F] in
theorem mem_foldl_abandoned {x : F} : ∀ (l : List (F × Node F J)) (acc : List F),
    x ∈ l.foldl (fun acc e => if e.2.abandoned then e.1 :: acc else acc) acc ↔
      x ∈ acc ∨ ∃ node, (x, node) ∈ l ∧ node.abandoned = true
  | [], acc => by simp
  | (key, node) :: l, acc => by
    rw [List.foldl_cons, mem_foldl_abandoned l]
    by_cases hnode : node.abandoned = true
    · simp only [hnode, if_true, List.mem_cons, Prod.mk.injEq]
      constructor
      · intro h
        rcases h with (rfl | h) | ⟨n, hn, ha⟩
        · exact Or.inr ⟨node, Or.inl ⟨rfl, rfl⟩, hnode⟩
        · exact Or.inl h
        · exact Or.inr ⟨n, Or.inr hn, ha⟩
      · intro h
        rcases h with h | ⟨n, ⟨rfl, rfl⟩ | hn, ha⟩
        · exact Or.inl (Or.inr h)
        · exact Or.inl (Or.inl rfl)
        · exact Or.inr ⟨n, hn, ha⟩
    · simp only [hnode, Bool.false_eq_true, if_false, List.mem_cons, Prod.mk.injEq]
      refine or_congr_right (exists_congr fun n => and_congr_left fun ha => ?_)
      constructor
      · exact Or.inr
      · intro h
        rcases h with ⟨-, rfl⟩ | h
        · exact absurd ha hnode
        · exact h

/-- A job's failure takes it off every node, and the abandoned nodes out. -/
theorem catchupFailed_nodes (t : T F J) (job : J) (x : F) :
    (catchupFailed t job).nodes[x]? =
      ((t.nodes[x]?).map fun node => node.removeJob job).filter fun node => !node.abandoned := by
  rw [catchupFailed, removeNodes_nodes, ExtTreeMap.foldl_eq_foldl_toList, ExtTreeMap.getElem?_map]
  have hmem := mem_foldl_abandoned (x := x) (t.nodes.map fun _ node => node.removeJob job).toList []
  simp only [ExtTreeMap.mem_toList_iff_getElem?_eq_some, ExtTreeMap.getElem?_map, List.not_mem_nil, false_or] at hmem
  cases hn : t.nodes[x]? with
  | none => simp
  | some node =>
    rw [hn] at hmem
    simp only [Option.map_some, Option.some.injEq, exists_eq_left'] at hmem ⊢
    rw [Option.filter_some]
    by_cases ha : (node.removeJob job).abandoned = true
    · rw [if_pos (hmem.2 ha), ha]
      rfl
    · rw [if_neg fun h => ha (hmem.1 h), Bool.eq_false_iff.2 ha]
      rfl

theorem ChildrenInverse.catchupFailed (ht : ChildrenInverse t) (job : J) :
    ChildrenInverse (catchupFailed t job) := by
  rw [CatchupHashTree.catchupFailed]
  refine ChildrenInverse.removeNodes _ (ht.ofParents rfl fun h => ?_)
  rw [ExtTreeMap.getElem?_map, Option.map_map]
  exact congrArg (fun f => (t.nodes[h]?).map f) (funext fun node => removeJob_parent node job)

section Add

variable {h parent : F} {job : J}

theorem add_new (hn : t.nodes[h]? = none) (x : F) :
    (add t h parent job).nodes[x]? =
      if h = x then some { parent, state := .partOfCatchups ∅ } else t.nodes[x]? := by
  rw [add, hn]
  dsimp only [addChild]
  rw [ExtTreeMap.getElem?_insert]
  simp only [compare_eq_iff_eq]

theorem add_part {node : Node F J} {s : ExtTreeSet J compare} (hn : t.nodes[h]? = some node)
    (hs : node.state = .partOfCatchups s) (x : F) :
    (add t h parent job).nodes[x]? =
      if h = x then some { node with state := .partOfCatchups (s.insert job) } else t.nodes[x]? := by
  rw [add, hn]
  dsimp only
  rw [hs]
  dsimp only
  rw [ExtTreeMap.getElem?_insert]
  simp only [compare_eq_iff_eq]

theorem add_have {node : Node F J} (hn : t.nodes[h]? = some node) (hs : node.state = .haveBreadcrumb) :
    add t h parent job = t := by
  rw [add, hn]
  dsimp only
  rw [hs]

theorem add_part_inverse {node : Node F J} {s : ExtTreeSet J compare} (ht : ChildrenInverse t)
    (hn : t.nodes[h]? = some node) (hs : node.state = .partOfCatchups s) : ChildrenInverse (add t h parent job) := by
  refine ht.ofParents ?_ fun x => ?_
  · rw [add, hn]
    dsimp only
    rw [hs]
  · rw [add_part hn hs]
    split
    next hx => rw [← hx, hn]; rfl
    next => rfl

end Add

theorem catchupFailed_root (t : T F J) (job : J) : (catchupFailed t job).root = t.root := by
  rw [catchupFailed]
  exact removeNodes_root _ _

end Operations

end Mina.CatchupHashTree
