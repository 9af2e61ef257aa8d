/-
The tips of the hash tree over whole runs (`tips_right`).

A node's removal takes it off the tips but never makes its parent one, and the
length does not count a block whose parent is gone. In a run without such
steps (`Steady`) the tips are the blocks without a breadcrumb and children:
all blocks but the root have their parent in the tree, and above a block with
a breadcrumb all have one, so that each chain of blocks without a breadcrumb
goes on down to a tip.
-/
import Mina.Frontier.CatchupTips
import Mina.Frontier.CatchupJobs

namespace Mina.CatchupHashTree

open Std (ExtTreeMap ExtTreeSet)
open Relation

variable {F J : Type} [LinearOrder F] [LinearOrder J]

namespace WithTips

structure Inv (Link : F → F → Prop) (t : WithTips F J) : Prop where
  inverse : ChildrenInverse t.tree
  linked : Linked Link t.tree
  root : ∃ node, t.tree.nodes[t.tree.root]? = some node ∧ node.state = .haveBreadcrumb
  rooted : ∀ h node, t.tree.nodes[h]? = some node → h ≠ t.tree.root → node.parent ∈ t.tree.nodes
  above : ∀ h node, t.tree.nodes[h]? = some node → node.state = .haveBreadcrumb → h ≠ t.tree.root →
    ∀ up, t.tree.nodes[node.parent]? = some up → up.state = .haveBreadcrumb
  tips : ∀ h, h ∈ t.tips ↔ (∃ node, t.tree.nodes[h]? = some node ∧ node.noBreadcrumb) ∧ ∀ x, ¬ Child t.tree h x

variable {Link : F → F → Prop} {t t' : WithTips F J}

theorem mem_children_iff {t : T F J} (ht : ChildrenInverse t) {h : F} : h ∈ t.children ↔ ∃ x, Child t h x := by
  rw [ExtTreeMap.mem_iff_isSome_getElem?, Option.isSome_iff_exists]
  constructor
  · intro hset
    obtain ⟨set, hset⟩ := hset
    obtain ⟨x, hx⟩ := ht.noEmpty h set hset
    exact ⟨x, (ht.mem h x).1 ⟨set, hset, hx⟩⟩
  · intro hchild
    obtain ⟨x, hx⟩ := hchild
    obtain ⟨set, hset, -⟩ := (ht.mem h x).2 hx
    exact ⟨set, hset⟩

theorem Inv.mem_nodes (hinv : Inv Link t) {h : F} (hh : h ∈ t.tips) : h ∈ t.tree.nodes := by
  obtain ⟨⟨node, hnode, -⟩, -⟩ := (hinv.tips h).1 hh
  exact mem_nodes_iff.2 ⟨node, hnode⟩

/-! ## The longest chain -/

section Length

variable {rank : F → Nat}

theorem child_rank (hlink : Linked Link t.tree) (hrank : ∀ p h, Link p h → rank p < rank h) {p x : F}
    (hx : Child t.tree p x) : rank p < rank x := by
  obtain ⟨node, hnode, rfl⟩ := hx
  exact hrank _ _ (hlink x node hnode)

/-- The walk up from a block counts the blocks of the longest chain from it. -/
theorem Inv.missingLength_ok (hinv : Inv Link t) (hrank : ∀ p h, Link p h → rank p < rank h) :
    ∀ (bound : Nat) (h : F) (node : Node F J), rank h < bound → t.tree.nodes[h]? = some node →
      ∃ l, Missing t.tree l ∧ (∀ l', Missing t.tree (h :: l') → (h :: l').length ≤ l.length) ∧
        (node.noBreadcrumb → ∃ up, l = h :: up) ∧
        ∀ fuel acc, bound ≤ fuel → missingLength t.tree fuel acc node = .ok (acc + l.length) := by
  intro bound
  induction bound with
  | zero =>
    intro h node hbound
    exact absurd hbound (Nat.not_lt_zero _)
  | succ bound ih =>
    intro h node hbound hnode
    cases hstate : node.state with
    | haveBreadcrumb =>
      refine ⟨[], ⟨fun _ hx => (by cases hx), .nil⟩, fun l' hl' => ?_, fun hno => absurd hstate hno, ?_⟩
      · obtain ⟨node', hnode', hno⟩ := hl'.1 h List.mem_cons_self
        rw [hnode] at hnode'
        cases hnode'
        exact absurd hstate hno
      · intro fuel acc hfuel
        obtain ⟨fuel, rfl⟩ : ∃ n, fuel = n + 1 := ⟨fuel - 1, by omega⟩
        rw [missingLength, hstate]
        rfl
    | partOfCatchups ids =>
      have hno : node.noBreadcrumb := fun heq => by rw [hstate] at heq; cases heq
      have hne : h ≠ t.tree.root := by
        rintro rfl
        obtain ⟨root, hroot, hhave⟩ := hinv.root
        rw [hnode] at hroot
        cases hroot
        exact hno hhave
      obtain ⟨up, hup⟩ := mem_nodes_iff.1 (hinv.rooted h node hnode hne)
      have hlt := hrank _ _ (hinv.linked h node hnode)
      obtain ⟨l, hl, hmax, hhead, hwalk⟩ := ih node.parent up (by omega) hup
      have hchain : Missing t.tree (h :: l) := by
        refine ⟨fun x hx => ?_, ?_⟩
        · rcases List.mem_cons.1 hx with rfl | hx
          · exact ⟨node, hnode, hno⟩
          · exact hl.1 x hx
        · cases l with
          | nil => exact .singleton _
          | cons p l =>
            have hp : up.noBreadcrumb := by
              intro hhave
              have hlen := hwalk (bound + 1) 0 (Nat.le_succ bound)
              rw [missingLength, hhave] at hlen
              cases hlen
            obtain ⟨l', heq⟩ := hhead hp
            cases heq
            exact List.isChain_cons_cons.2 ⟨⟨node, hnode, rfl⟩, hl.2⟩
      refine ⟨h :: l, hchain, fun l' hl' => ?_, fun _ => ⟨l, rfl⟩, ?_⟩
      · cases l' with
        | nil => exact Nat.succ_le_succ (Nat.zero_le _)
        | cons p l' =>
          obtain ⟨⟨node', hnode', rfl⟩, htail⟩ := List.isChain_cons_cons.1 hl'.2
          rw [hnode] at hnode'
          cases hnode'
          exact Nat.succ_le_succ (hmax l' ⟨fun x hx => hl'.1 x (List.mem_cons_of_mem _ hx), htail⟩)
      · intro fuel acc hfuel
        obtain ⟨fuel, rfl⟩ : ∃ n, fuel = n + 1 := ⟨fuel - 1, by omega⟩
        rw [missingLength, hstate]
        dsimp only
        rw [hup]
        dsimp only
        rw [hwalk fuel (acc + 1) (by omega), List.length_cons, Nat.add_right_comm, Nat.add_assoc]

/-- The root is above all. -/
theorem Inv.root_rank (hinv : Inv Link t) (hrank : ∀ p h, Link p h → rank p < rank h) :
    ∀ (bound : Nat) (h : F), rank h < bound → h ∈ t.tree.nodes → rank t.tree.root ≤ rank h := by
  intro bound
  induction bound with
  | zero =>
    intro h hbound
    exact absurd hbound (Nat.not_lt_zero _)
  | succ bound ih =>
    intro h hbound hh
    obtain ⟨node, hnode⟩ := mem_nodes_iff.1 hh
    by_cases hroot : h = t.tree.root
    · rw [hroot]
    · have hlt := hrank _ _ (hinv.linked h node hnode)
      exact (ih node.parent (by omega) (hinv.rooted h node hnode hroot)).trans hlt.le

/-- The root's parent is not in the tree. -/
theorem Inv.root_orphan (hinv : Inv Link t) (hrank : ∀ p h, Link p h → rank p < rank h) {h : F}
    (hlink : Link h t.tree.root) : h ∉ t.tree.nodes := by
  intro hh
  have hle := hinv.root_rank hrank _ h (Nat.lt_succ_self _) hh
  have hlt := hrank _ _ hlink
  omega

theorem Inv.child_ne_root (hinv : Inv Link t) (hrank : ∀ p h, Link p h → rank p < rank h) {p x : F}
    (hp : p ∈ t.tree.nodes) (hx : Child t.tree p x) : x ≠ t.tree.root := by
  rintro rfl
  obtain ⟨node, hnode, rfl⟩ := hx
  exact hinv.root_orphan hrank (hinv.linked _ node hnode) hp

/-- A chain goes on down to a tip. -/
theorem Inv.exists_tip (hinv : Inv Link t) (hrank : ∀ p h, Link p h → rank p < rank h) {highest : Nat}
    (hhighest : ∀ h ∈ t.tree.nodes, rank h ≤ highest) : ∀ (bound : Nat) (h : F) (l : List F),
      highest < rank h + bound → Missing t.tree (h :: l) →
      ∃ tip ∈ t.tips, ∃ l', Missing t.tree (tip :: l') ∧ (h :: l).length ≤ (tip :: l').length := by
  intro bound
  induction bound with
  | zero =>
    intro h l hbound hl
    obtain ⟨node, hnode, -⟩ := hl.1 h List.mem_cons_self
    exact absurd (hhighest h (mem_nodes_iff.2 ⟨node, hnode⟩)) (not_le.2 hbound)
  | succ bound ih =>
    intro h l hbound hl
    obtain ⟨node, hnode, hno⟩ := hl.1 h List.mem_cons_self
    by_cases hchild : ∃ x, Child t.tree h x
    · obtain ⟨x, hx⟩ := hchild
      have hne := hinv.child_ne_root hrank (mem_nodes_iff.2 ⟨node, hnode⟩) hx
      have hlt := child_rank hinv.linked hrank hx
      obtain ⟨child, hxnode, rfl⟩ := hx
      have hxno : child.noBreadcrumb := fun hhave => hno (hinv.above x child hxnode hhave hne node hnode)
      obtain ⟨tip, htip, l', hl', hlen⟩ := ih x (child.parent :: l) (by omega)
        ⟨List.forall_mem_cons.2 ⟨⟨child, hxnode, hxno⟩, hl.1⟩, List.isChain_cons_cons.2 ⟨⟨child, hxnode, rfl⟩, hl.2⟩⟩
      exact ⟨tip, htip, l', hl', (Nat.le_succ _).trans hlen⟩
    · exact ⟨h, (hinv.tips h).2 ⟨⟨node, hnode, hno⟩, not_exists.1 hchild⟩, l, hl, le_rfl⟩

/-- The fold over some tips gives the length of the longest chain from them. -/
theorem Inv.fold_ok (hinv : Inv Link t) (hrank : ∀ p h, Link p h → rank p < rank h) {highest : Nat}
    (hhighest : ∀ h ∈ t.tree.nodes, rank h ≤ highest) : ∀ (tips : List F) (acc : Nat), (∀ h ∈ tips, h ∈ t.tips) →
      ∃ n, acc ≤ n ∧ (n = acc ∨ ∃ l, Missing t.tree l ∧ l.length = n) ∧
        (∀ h ∈ tips, ∀ l, Missing t.tree (h :: l) → (h :: l).length ≤ n) ∧
        ∀ fuel, highest + 1 ≤ fuel → Exn.fold (fun acc tip =>
          (Exn.valueExn t.tree.nodes[tip]?).andThen fun node =>
            (missingLength t.tree fuel 0 node).andThen fun n => .ok (max acc n)) acc tips = .ok n := by
  intro tips
  induction tips with
  | nil =>
    intro acc _
    exact ⟨acc, le_rfl, .inl rfl, fun _ hh => (by cases hh), fun _ _ => rfl⟩
  | cons tip tips ih =>
    intro acc htips
    obtain ⟨node, hnode⟩ := mem_nodes_iff.1 (hinv.mem_nodes (htips tip List.mem_cons_self))
    have hbound := hhighest tip (mem_nodes_iff.2 ⟨node, hnode⟩)
    obtain ⟨l, hl, hmax, -, hwalk⟩ := hinv.missingLength_ok hrank (highest + 1) tip node (by omega) hnode
    obtain ⟨n, hle, hn, hlongest, hfold⟩ := ih (max acc l.length) fun h hh => htips h (List.mem_cons_of_mem _ hh)
    refine ⟨n, (le_max_left _ _).trans hle, ?_, ?_, ?_⟩
    · rcases hn with rfl | hn
      · rcases max_choice acc l.length with hacc | hlen
        · exact .inl hacc
        · exact .inr ⟨l, hl, hlen.symm⟩
      · exact .inr hn
    · intro h hh l' hl'
      rcases List.mem_cons.1 hh with rfl | hh
      · exact (hmax l' hl').trans ((le_max_right _ _).trans hle)
      · exact hlongest h hh l' hl'
    · intro fuel hfuel
      rw [Exn.fold, hnode, Exn.valueExn_some, Exn.andThen_ok, hwalk fuel 0 hfuel, Exn.andThen_ok, Exn.andThen_ok,
        Nat.zero_add]
      exact hfold fuel hfuel

/-- The tips being right, the length is. -/
theorem Inv.right (hinv : Inv Link t) (hrank : ∀ p h, Link p h → rank p < rank h) : Right t := by
  refine ⟨hinv.tips, ?_⟩
  have hhighest : ∀ h ∈ t.tree.nodes, rank h ≤ t.tree.nodes.keys.toFinset.sup rank := fun h hh =>
    Finset.le_sup (List.mem_toFinset.2 (ExtTreeMap.mem_keys.2 hh))
  obtain ⟨n, -, hn, hlongest, hfold⟩ := hinv.fold_ok hrank hhighest t.tips.toList 0 fun h hh =>
    ExtTreeSet.mem_toList.1 hh
  refine ⟨n, ⟨?_, ?_⟩, _, hfold⟩
  · rcases hn with rfl | hn
    · exact ⟨[], ⟨fun _ hh => (by cases hh), .nil⟩, rfl⟩
    · exact hn
  · rintro _ ⟨l, hl, rfl⟩
    cases l with
    | nil => exact Nat.zero_le n
    | cons h l =>
      obtain ⟨tip, htip, l', hl', hlen⟩ := hinv.exists_tip hrank hhighest
        (t.tree.nodes.keys.toFinset.sup rank + 1) h l (by omega) hl
      exact hlen.trans (hlongest tip (ExtTreeSet.mem_toList.2 htip) l' hl')

end Length

/-! ## Changes -/

theorem Inv.create {rootHash parent : F} (hlink : Link parent rootHash) :
    Inv Link (WithTips.create rootHash parent : WithTips F J) where
  inverse := create_childrenInverse rootHash parent
  linked h node hn := by
    obtain ⟨rfl, rfl⟩ := create_nodes hn
    exact hlink
  root := ⟨{ parent, state := .haveBreadcrumb }, ExtTreeMap.getElem?_insert_self, rfl⟩
  rooted h node hn hne := absurd (create_nodes hn).1 hne
  above h node hn _ hne := absurd (create_nodes hn).1 hne
  tips h := by
    refine iff_of_false ExtTreeSet.not_mem_empty ?_
    rintro ⟨⟨node, hn, hno⟩, -⟩
    obtain ⟨-, rfl⟩ := create_nodes hn
    exact hno rfl

/-- A new node under one that is in the tree. -/
theorem Inv.insertNew (hinv : Inv Link t) {rank : F → Nat} (hrank : ∀ p h, Link p h → rank p < rank h) {h : F}
    (new : Node F J) (hh : t.tree.nodes[h]? = none) (hlink : Link new.parent h)
    (hparent : ∃ up, t.tree.nodes[new.parent]? = some up ∧ (new.state = .haveBreadcrumb → up.state = .haveBreadcrumb))
    (hinverse : ChildrenInverse t'.tree) (hroot : t'.tree.root = t.tree.root)
    (hnodes : ∀ x, t'.tree.nodes[x]? = if h = x then some new else t.tree.nodes[x]?)
    (htips : ∀ y, y ∈ t'.tips ↔ y ∈ t.tips ∧ y ≠ new.parent ∨ y = h ∧ new.noBreadcrumb ∧ ∀ x, ¬ Child t.tree h x) :
    Inv Link t' := by
  obtain ⟨up, hup, hhave⟩ := hparent
  have hmem : ∀ x, x ∈ t.tree.nodes → h ≠ x := by
    rintro x hx rfl
    obtain ⟨node, hnode⟩ := mem_nodes_iff.1 hx
    rw [hh] at hnode
    cases hnode
  have hparent := hmem _ (mem_nodes_iff.2 ⟨up, hup⟩)
  have hself : t'.tree.nodes[h]? = some new := by rw [hnodes, if_pos rfl]
  have hother : ∀ x, h ≠ x → t'.tree.nodes[x]? = t.tree.nodes[x]? := fun x hx => by rw [hnodes, if_neg hx]
  have hrootNe : h ≠ t.tree.root := by
    obtain ⟨root, hroot, -⟩ := hinv.root
    exact hmem _ (mem_nodes_iff.2 ⟨root, hroot⟩)
  -- the new block is above none, as it is not above the root
  have hbarren : ∀ x, ¬ Child t.tree h x := by
    rintro x ⟨node, hnode, rfl⟩
    by_cases hx : x = t.tree.root
    · have hle := hinv.root_rank hrank _ new.parent (Nat.lt_succ_self _) (mem_nodes_iff.2 ⟨up, hup⟩)
      have hlt := hrank _ _ hlink
      have hlt' := hrank _ _ (hinv.linked x node hnode)
      rw [hx] at hlt'
      omega
    · exact hmem _ (hinv.rooted x node hnode hx) rfl
  refine ⟨hinverse, fun x node hx => ?_, ?_, fun x node hx hne => ?_, fun x node hx hbread hne up' hup' => ?_, fun y => ?_⟩
  · rw [hnodes] at hx
    split at hx
    next heq =>
      cases hx
      exact heq ▸ hlink
    next => exact hinv.linked x node hx
  · rw [hroot, hother _ hrootNe]
    exact hinv.root
  · rw [hroot] at hne
    rw [hnodes] at hx
    split at hx
    next heq =>
      cases hx
      exact mem_nodes_iff.2 ⟨up, by rw [hother _ hparent, hup]⟩
    next =>
      have hold := hinv.rooted x node hx hne
      rw [mem_nodes_iff, hother _ (hmem _ hold), ← mem_nodes_iff]
      exact hold
  · rw [hroot] at hne
    rw [hnodes] at hx
    split at hx
    next heq =>
      cases hx
      rw [hother _ hparent, hup] at hup'
      cases hup'
      exact hhave hbread
    next =>
      rw [hother _ (hmem _ (hinv.rooted x node hx hne))] at hup'
      exact hinv.above x node hx hbread hne up' hup'
  · have hchild : ∀ x, Child t'.tree y x ↔ Child t.tree y x ∨ x = h ∧ y = new.parent := by
      intro x
      rw [Child, hnodes]
      by_cases hx : h = x
      · subst hx
        rw [if_pos rfl]
        simp only [Option.some.injEq, exists_eq_left', Child, hh, reduceCtorEq, false_and, exists_false, false_or,
          true_and, eq_comm]
      · have hx' : ¬ x = h := fun heq => hx heq.symm
        rw [if_neg hx, Child]
        simp only [hx', false_and, or_false]
    rw [htips]
    simp only [hchild, not_or, not_and]
    by_cases hy : y = h
    · subst hy
      have hout : y ∉ t.tips := fun hin => hmem y (hinv.mem_nodes hin) rfl
      rw [hself]
      simp only [hout, false_and, false_or, true_and, Option.some.injEq, exists_eq_left']
      refine and_congr_right fun _ => ⟨fun hnone x => ⟨hnone x, fun _ => hparent⟩, fun hnone x => (hnone x).1⟩
    · rw [hother y (fun heq => hy heq.symm), hinv.tips y]
      simp only [hy, false_and, or_false]
      constructor
      · intro hall
        exact ⟨hall.1.1, fun x => ⟨hall.1.2 x, fun _ => hall.2⟩⟩
      · intro hall
        exact ⟨⟨hall.1, fun x => (hall.2 x).1⟩, (hall.2 h).2 rfl⟩

/-- Nodes go or get a breadcrumb. -/
theorem Inv.change (hinv : Inv Link t) (hinverse : ChildrenInverse t'.tree)
    (hnodes : ∀ (x : F) (node' : Node F J), t'.tree.nodes[x]? = some node' →
      ∃ node : Node F J, t.tree.nodes[x]? = some node ∧ node'.parent = node.parent ∧ (node'.noBreadcrumb → node.noBreadcrumb))
    (hroot : ∃ node, t'.tree.nodes[t'.tree.root]? = some node ∧ node.state = .haveBreadcrumb)
    (hrooted : ∀ x node', t'.tree.nodes[x]? = some node' → x ≠ t'.tree.root → node'.parent ∈ t'.tree.nodes)
    (habove : ∀ x node', t'.tree.nodes[x]? = some node' → node'.state = .haveBreadcrumb → x ≠ t'.tree.root →
      ∀ up, t'.tree.nodes[node'.parent]? = some up → up.state = .haveBreadcrumb)
    (htips : ∀ y, y ∈ t'.tips ↔ y ∈ t.tips ∧ ∃ node', t'.tree.nodes[y]? = some node' ∧ node'.noBreadcrumb)
    (hlast : ∀ y node', t'.tree.nodes[y]? = some node' → node'.noBreadcrumb → (∃ x, Child t.tree y x) →
      ∃ x, Child t'.tree y x) : Inv Link t' := by
  refine ⟨hinverse, fun x node' hx => ?_, hroot, hrooted, habove, fun y => ?_⟩
  · obtain ⟨node, hnode, hparent, -⟩ := hnodes x node' hx
    exact hparent ▸ hinv.linked x node hnode
  · rw [htips, hinv.tips]
    constructor
    · rintro ⟨⟨-, hbarren⟩, node', hnode', hno⟩
      refine ⟨⟨node', hnode', hno⟩, ?_⟩
      rintro x ⟨child, hx, rfl⟩
      obtain ⟨node, hnode, hparent, -⟩ := hnodes x child hx
      exact hbarren x ⟨node, hnode, hparent.symm⟩
    · rintro ⟨⟨node', hnode', hno⟩, hbarren⟩
      obtain ⟨node, hnode, -, himp⟩ := hnodes y node' hnode'
      refine ⟨⟨⟨node, hnode, himp hno⟩, fun x hx => ?_⟩, node', hnode', hno⟩
      obtain ⟨x', hx'⟩ := hlast y node' hnode' hno ⟨x, hx⟩
      exact hbarren x' hx'

/-! ## Adding -/

/-- A node's parent stays and it keeps looking for its block or has found it. -/
theorem Inv.setState (hinv : Inv Link t) {h : F} {node : Node F J} (node' : Node F J) (hh : t.tree.nodes[h]? = some node)
    (hparent : node'.parent = node.parent) (hno : node'.noBreadcrumb → node.noBreadcrumb)
    (habove : ∀ up, t.tree.nodes[node.parent]? = some up → h ≠ t.tree.root → node'.state = .haveBreadcrumb →
      up.state = .haveBreadcrumb)
    (hroot : h = t.tree.root → node'.state = .haveBreadcrumb)
    (hinverse : ChildrenInverse t'.tree) (hroot' : t'.tree.root = t.tree.root)
    (hnodes : ∀ x, t'.tree.nodes[x]? = if h = x then some node' else t.tree.nodes[x]?)
    (htips : ∀ y, y ∈ t'.tips ↔ y ∈ t.tips ∧ (y = h → node'.noBreadcrumb)) : Inv Link t' := by
  have hself : t'.tree.nodes[h]? = some node' := by rw [hnodes, if_pos rfl]
  have hold : ∀ (x : F) (n' : Node F J), t'.tree.nodes[x]? = some n' → ∃ n : Node F J, t.tree.nodes[x]? = some n ∧
      n'.parent = n.parent ∧ (n'.noBreadcrumb → n.noBreadcrumb) := by
    intro x n' hx
    rw [hnodes] at hx
    split at hx
    next heq =>
      cases hx
      exact ⟨node, heq ▸ hh, hparent, hno⟩
    next => exact ⟨n', hx, rfl, id⟩
  have hmem : ∀ x, x ∈ t.tree.nodes → x ∈ t'.tree.nodes := by
    intro x hx
    rw [mem_nodes_iff, hnodes]
    split
    next => exact ⟨node', rfl⟩
    next => exact mem_nodes_iff.1 hx
  refine hinv.change hinverse hold ?_ (fun x n' hx hne => ?_) (fun x n' hx hbread hne up hup => ?_) (fun y => ?_)
    fun y n' hy _ hchild => ?_
  · rw [hroot', hnodes]
    split
    next heq => exact ⟨node', rfl, hroot heq⟩
    next => exact hinv.root
  · obtain ⟨n, hn, hparent', -⟩ := hold x n' hx
    rw [hparent']
    exact hmem _ (hinv.rooted x n hn (hroot' ▸ hne))
  · rw [hroot'] at hne
    obtain ⟨old, hold', -, hupno⟩ := hold _ up hup
    have hhave : old.state = .haveBreadcrumb → up.state = .haveBreadcrumb := fun hs =>
      not_not.1 fun hup' => hupno hup' hs
    rw [hnodes] at hx
    split at hx
    next heq =>
      cases hx
      rw [hparent] at hold'
      exact hhave (habove old hold' (heq ▸ hne) hbread)
    next => exact hhave (hinv.above x n' hx hbread hne old hold')
  · rw [htips]
    refine and_congr_right fun hy => ?_
    obtain ⟨⟨n, hn, hnno⟩, -⟩ := (hinv.tips y).1 hy
    rw [hnodes]
    by_cases heq : h = y
    · subst heq
      rw [if_pos rfl]
      simp only [true_imp_iff, Option.some.injEq, exists_eq_left']
    · rw [if_neg heq]
      exact iff_of_true (fun hyh => absurd hyh.symm heq) ⟨n, hn, hnno⟩
  · obtain ⟨x, child, hx, hparent'⟩ := hchild
    refine ⟨x, ?_⟩
    rw [Child, hnodes]
    split
    next heq =>
      rw [← heq, hh] at hx
      cases hx
      exact ⟨node', rfl, hparent.trans hparent'⟩
    next => exact ⟨child, hx, hparent'⟩

theorem Inv.add (hinv : Inv Link t) {rank : F → Nat} (hrank : ∀ p h, Link p h → rank p < rank h) {h parent : F}
    {job : J} (hparent : parent ∈ t.tree.nodes) (hlink : Link parent h) : Inv Link (add t h parent job) := by
  cases hh : t.tree.nodes[h]? with
  | none =>
    have hout : h ∉ t.tree.nodes := fun hin => by
      obtain ⟨node, hnode⟩ := mem_nodes_iff.1 hin
      rw [hh] at hnode
      cases hnode
    obtain ⟨up, hup⟩ := mem_nodes_iff.1 hparent
    refine hinv.insertNew hrank { parent, state := .partOfCatchups ∅ } hh hlink
      ⟨up, hup, fun hs => by cases hs⟩ ?_ ?_ (add_new hh) fun y => ?_
    · rw [WithTips.add, CatchupHashTree.add, hh]
      exact hinv.inverse.addNode hh _
    · rw [WithTips.add, CatchupHashTree.add, hh]
      rfl
    · rw [WithTips.add]
      dsimp only
      rw [if_neg hout, ExtTreeSet.mem_erase, ne_eq, compare_eq_iff_eq]
      have hno : (NodeState.partOfCatchups ∅ : NodeState J) ≠ .haveBreadcrumb := fun hs => by cases hs
      have hne : h ≠ parent := fun heq => hout (heq ▸ hparent)
      split
      next hchild =>
        have hnot : ¬ ∀ x, ¬ Child t.tree h x := not_forall_not.2 ((mem_children_iff hinv.inverse).1 hchild)
        rw [@eq_comm _ parent y, and_comm]
        exact (or_iff_left fun hall => hnot hall.2.2).symm
      next hchild =>
        have hbarren : ∀ x, ¬ Child t.tree h x := fun x hx => hchild ((mem_children_iff hinv.inverse).2 ⟨x, hx⟩)
        rw [ExtTreeSet.mem_insert, compare_eq_iff_eq, @eq_comm _ h y, @eq_comm _ parent y]
        simp only [Node.noBreadcrumb, ne_eq, hno, not_false_eq_true, hbarren, implies_true, and_true]
        constructor
        · rintro ⟨hyp, rfl | hy⟩
          · exact .inr rfl
          · exact .inl ⟨hy, hyp⟩
        · rintro (⟨hy, hyp⟩ | rfl)
          · exact ⟨hyp, .inr hy⟩
          · exact ⟨hne, .inl rfl⟩
  | some node =>
    have hin : h ∈ t.tree.nodes := mem_nodes_iff.2 ⟨node, hh⟩
    have htips : (WithTips.add t h parent job).tips = t.tips := if_pos hin
    cases hs : node.state with
    | haveBreadcrumb =>
      have hsame : WithTips.add t h parent job = t := by
        rw [WithTips.add, add_have hh hs, if_pos hin]
      exact hsame.symm ▸ hinv
    | partOfCatchups ids =>
      have hno : node.noBreadcrumb := fun heq => by rw [hs] at heq; cases heq
      refine hinv.setState { node with state := .partOfCatchups (ids.insert job) } hh rfl (fun _ => hno)
        (fun _ _ _ heq => by cases heq) ?_ (add_part_inverse hinv.inverse hh hs) ?_ (add_part hh hs) fun y => ?_
      · rintro rfl
        obtain ⟨root, hroot, hhave⟩ := hinv.root
        rw [hh] at hroot
        cases hroot
        exact absurd hhave hno
      · rw [WithTips.add, CatchupHashTree.add, hh]
        dsimp only
        rw [hs]
      · rw [htips]
        exact (and_iff_left fun _ heq => by cases heq).symm

theorem Inv.breadcrumbAdded (hinv : Inv Link t) {rank : F → Nat} (hrank : ∀ p h, Link p h → rank p < rank h)
    (hone : ∀ p q h, Link p h → Link q h → p = q) {h parent : F} {up : Node F J}
    (hup : t.tree.nodes[parent]? = some up) (hhave : up.state = .haveBreadcrumb) (hlink : Link parent h) :
    Inv Link (breadcrumbAdded t h parent) := by
  have hmem : ∀ y, y ∈ (WithTips.breadcrumbAdded t h parent).tips ↔ y ∈ t.tips ∧ y ≠ h := by
    intro y
    rw [WithTips.breadcrumbAdded, ExtTreeSet.mem_erase, ne_eq, compare_eq_iff_eq, and_comm, @eq_comm _ h y]
  cases hh : t.tree.nodes[h]? with
  | none =>
    refine hinv.insertNew hrank { parent, state := .haveBreadcrumb } hh hlink ⟨up, hup, fun _ => hhave⟩ ?_ ?_
      (fun x => ?_) fun y => ?_
    · rw [WithTips.breadcrumbAdded, CatchupHashTree.breadcrumbAdded, hh]
      exact hinv.inverse.addNode hh _
    · rw [WithTips.breadcrumbAdded, CatchupHashTree.breadcrumbAdded, hh]
      rfl
    · rw [WithTips.breadcrumbAdded, CatchupHashTree.breadcrumbAdded, hh]
      dsimp only [addChild]
      rw [ExtTreeMap.getElem?_insert]
      simp only [compare_eq_iff_eq]
    · have hout : h ∉ t.tips := fun hin => by
        obtain ⟨node, hnode⟩ := mem_nodes_iff.1 (hinv.mem_nodes hin)
        rw [hh] at hnode
        cases hnode
      have hparent : parent ∉ t.tips := fun hin => by
        obtain ⟨⟨node, hnode, hno⟩, -⟩ := (hinv.tips parent).1 hin
        rw [hup] at hnode
        cases hnode
        exact hno hhave
      have hno : ¬ Node.noBreadcrumb ({ parent, state := .haveBreadcrumb } : Node F J) := fun hno => hno rfl
      rw [hmem]
      simp only [hno, false_and, and_false, or_false]
      refine and_congr_right fun hy => iff_of_true ?_ ?_
      · rintro rfl
        exact hout hy
      · rintro rfl
        exact hparent hy
  | some node =>
    have hparent := hone _ _ _ (hinv.linked h node hh) hlink
    refine hinv.setState { node with state := .haveBreadcrumb } hh rfl (fun hno => absurd rfl hno)
      (fun up' hup' _ _ => ?_) (fun _ => rfl) ?_ ?_ (fun x => ?_) fun y => ?_
    · rw [hparent, hup] at hup'
      cases hup'
      exact hhave
    · rw [WithTips.breadcrumbAdded, CatchupHashTree.breadcrumbAdded, hh]
      exact hinv.inverse.ofParents rfl (insert_state_nodes hh _)
    · rw [WithTips.breadcrumbAdded, CatchupHashTree.breadcrumbAdded, hh]
    · rw [WithTips.breadcrumbAdded, CatchupHashTree.breadcrumbAdded, hh]
      dsimp only
      rw [ExtTreeMap.getElem?_insert]
      simp only [compare_eq_iff_eq]
    · rw [hmem]
      exact and_congr_right fun _ => imp_congr_right fun _ => iff_of_false id fun hno => hno rfl

/-! ## Removing -/

theorem removeNodes_tree : ∀ (l : List F) (t : WithTips F J),
    (l.foldl removeNode t).tree = l.foldl CatchupHashTree.removeNode t.tree
  | [], _ => rfl
  | h :: l, t => by
    rw [List.foldl_cons, List.foldl_cons, removeNodes_tree l]
    rfl

theorem mem_removeNodes_tips {h : F} : ∀ (l : List F) (t : WithTips F J),
    h ∈ (l.foldl removeNode t).tips ↔ h ∈ t.tips ∧ h ∉ l
  | [], t => by simp
  | x :: l, t => by
    rw [List.foldl_cons, mem_removeNodes_tips l, removeNode, ExtTreeSet.mem_erase, ne_eq, compare_eq_iff_eq,
      List.mem_cons, not_or, @eq_comm _ x h]
    tauto

/-- The tips that are left are those whose nodes are. -/
theorem mem_tips_left {h : F} (l : List F) (ht : h ∈ t.tips → h ∈ t.tree.nodes) :
    h ∈ (l.foldl removeNode t).tips ↔ h ∈ t.tips ∧ h ∈ (l.foldl removeNode t).tree.nodes := by
  rw [mem_removeNodes_tips, removeNodes_tree]
  refine and_congr_right fun hh => ?_
  rw [mem_nodes_iff, removeNodes_nodes]
  split
  next hin => exact iff_of_false (fun hout => hout hin) (by rintro ⟨_, hnone⟩; cases hnone)
  next hout => exact iff_of_true hout (mem_nodes_iff.1 (ht hh))

theorem prune_tips {tree : T F J} (hprune : CatchupHashTree.prune t.tree = .ok tree)
    (ht : ∀ h ∈ t.tips, h ∈ t.tree.nodes) :
    ∃ t', prune t = .ok t' ∧ t'.tree = tree ∧ ∀ h, h ∈ t'.tips ↔ h ∈ t.tips ∧ h ∈ tree.nodes := by
  obtain ⟨keep, hwalk, heq⟩ := Exn.andThen_eq_ok.1 hprune
  cases Except.ok.inj heq
  have hfilter : t.tree.nodes.keys.foldl (fun t h => if h ∈ keep then t else removeNode t h) t
      = (t.tree.nodes.keys.filter fun h => h ∉ keep).foldl removeNode t := by
    rw [List.foldl_filter]
    simp only [decide_not, Bool.not_eq_true', decide_eq_false_iff_not, ite_not]
  refine ⟨_, Exn.andThen_of_ok hwalk _, ?_, fun h => ?_⟩
  · rw [hfilter, removeNodes_tree, keep_foldl]
  · rw [hfilter, mem_tips_left _ (ht h), removeNodes_tree, keep_foldl]

/-- What is reached from a node of the tree is a node of the tree. -/
theorem reach_nodes {t : T F J} (ht : ChildrenInverse t) {a x : F} (ha : a ∈ t.nodes) (hr : Reach t a x) : x ∈ t.nodes := by
  rcases ReflTransGen.cases_tail hr with rfl | ⟨p, -, hc⟩
  · exact ha
  · obtain ⟨node, hnode, -⟩ := (ht.mem p x).1 hc
    exact mem_nodes_iff.2 ⟨node, hnode⟩

theorem Inv.rootTransitioned (hinv : Inv Link t) {rank : F → Nat} (hrank : ∀ p h, Link p h → rank p < rank h)
    {newRoot : F} {garbage : List F} (hadmitted : Admitted t.tree (.diff (.rootTransitioned newRoot garbage) : Event F J)) :
    ∃ t', step t (.diff (.rootTransitioned newRoot garbage)) = .ok t' ∧
      (Steady t.tree (.diff (.rootTransitioned newRoot garbage) : Event F J) → Inv Link t') := by
  obtain ⟨⟨root, hroot, hparent⟩, hgarbage⟩ := hadmitted
  have hclean : newRoot ∉ garbage := fun hin => hgarbage newRoot hin .refl
  have hinverse := hinv.inverse.removeNodes garbage
  have hremoved := removeNodes_nodes garbage t.tree
  have hroot' : (garbage.foldl removeNode t).tree.nodes[newRoot]? = some root := by
    rw [removeNodes_tree, hremoved, if_neg hclean, hroot]
  have hsub : ∀ h ∈ (garbage.foldl removeNode t).tips,
      h ∈ ((garbage.foldl removeNode t).tree.nodes.insert newRoot { root with state := .haveBreadcrumb }) := by
    intro h hh
    exact ExtTreeMap.mem_insert.2 (.inr ((mem_tips_left garbage (fun hin => hinv.mem_nodes hin)).1 hh).2)
  obtain ⟨tree, hprune, hinverse', htreeRoot, hkept, hgone⟩ := prune_garbage (t := { (garbage.foldl removeNode t).tree with
      root := newRoot
      nodes := (garbage.foldl removeNode t).tree.nodes.insert newRoot { root with state := .haveBreadcrumb } })
    hinv.inverse hinv.linked hrank hroot hgarbage rfl
    (by
      rw [removeNodes_tree] at hroot' ⊢
      exact hinverse.ofParents rfl (insert_state_nodes hroot' _))
    fun x => by
      dsimp only
      rw [ExtTreeMap.getElem?_insert, removeNodes_tree, hremoved]
      simp only [compare_eq_iff_eq]
  obtain ⟨t', hprune', rfl, htips⟩ := prune_tips (t := ⟨_, (garbage.foldl removeNode t).tips⟩) hprune hsub
  refine ⟨t', ?_, fun hsteady => ?_⟩
  · rw [step, applyDiff]
    dsimp only
    rw [hroot']
    exact hprune'
  · -- what is left is what was below the new root, and only the new root has changed
    have hreach : ∀ x ∈ t'.tree.nodes, Reach t.tree newRoot x := by
      intro x hx
      by_contra hr
      obtain ⟨node, hnode⟩ := mem_nodes_iff.1 hx
      rw [hgone x hr] at hnode
      cases hnode
    have hin : ∀ x, Reach t.tree newRoot x → x ∈ t'.tree.nodes := by
      intro x hr
      rw [mem_nodes_iff, hkept x hr]
      split
      next => exact ⟨_, rfl⟩
      next => exact mem_nodes_iff.1 (reach_nodes hinv.inverse (mem_nodes_iff.2 ⟨root, hroot⟩) hr)
    have hold : ∀ (x : F) (n' : Node F J), t'.tree.nodes[x]? = some n' → x ≠ newRoot → t.tree.nodes[x]? = some n' := by
      intro x n' hx hne
      rwa [hkept x (hreach x (mem_nodes_iff.2 ⟨n', hx⟩)), if_neg fun heq => hne heq.symm] at hx
    have hself : t'.tree.nodes[newRoot]? = some { root with state := .haveBreadcrumb } := by
      rw [hkept newRoot .refl, if_pos rfl]
    have hup : ∀ (x : F) (n' : Node F J), t'.tree.nodes[x]? = some n' → x ≠ newRoot →
        Reach t.tree newRoot n'.parent := by
      intro x n' hx hne
      rcases ReflTransGen.cases_tail (hreach x (mem_nodes_iff.2 ⟨n', hx⟩)) with heq | ⟨p, hr, hc⟩
      · exact absurd heq hne
      · obtain ⟨node, hnode, rfl⟩ := (hinv.inverse.mem p x).1 hc
        rw [hold x n' hx hne] at hnode
        cases hnode
        exact hr
    refine hinv.change hinverse' (fun x n' hx => ?_) ⟨_, htreeRoot ▸ hself, rfl⟩ (fun x n' hx hne => ?_)
      (fun x n' hx hbread hne up hupNode => ?_) (fun y => ?_) fun y n' hy hno hchild => ?_
    · by_cases hne : x = newRoot
      · subst hne
        rw [hself] at hx
        cases hx
        exact ⟨root, hroot, rfl, fun hno => absurd rfl hno⟩
      · exact ⟨n', hold x n' hx hne, rfl, id⟩
    · exact hin _ (hup x n' hx (htreeRoot ▸ hne))
    · rw [htreeRoot] at hne
      by_cases hnew : n'.parent = newRoot
      · rw [hnew, hself] at hupNode
        cases hupNode
        rfl
      · have hrootNe : x ≠ t.tree.root := by
          rintro rfl
          have hforest := hinv.inverse.forest hinv.linked hrank
          have hle := hforest.below_rank (hreach _ (mem_nodes_iff.2 ⟨n', hx⟩))
          have hlt := child_rank hinv.linked hrank ⟨root, hroot, hparent⟩
          omega
        exact hinv.above x n' (hold x n' hx hne) hbread hrootNe up (hold _ up hupNode hnew)
    · rw [htips, mem_tips_left garbage fun hy => hinv.mem_nodes hy]
      constructor
      · rintro ⟨⟨hy, -⟩, hleft⟩
        obtain ⟨n', hn'⟩ := mem_nodes_iff.1 hleft
        obtain ⟨⟨node, hnode, hno⟩, hbarren⟩ := (hinv.tips y).1 hy
        have hne : y ≠ newRoot := by
          rintro rfl
          obtain ⟨x, hx⟩ := hsteady node hnode hno
          exact hbarren x hx
        rw [hold y n' hn' hne] at hnode
        cases hnode
        exact ⟨hy, n', hn', hno⟩
      · rintro ⟨hy, n', hn', -⟩
        have hleft := mem_nodes_iff.2 ⟨n', hn'⟩
        refine ⟨⟨hy, ?_⟩, hleft⟩
        rw [removeNodes_tree, mem_nodes_iff, hremoved, if_neg fun hg => hgarbage y hg (hreach y hleft)]
        exact mem_nodes_iff.1 (hinv.mem_nodes hy)
    · have hne : y ≠ newRoot := by
        rintro rfl
        rw [hself] at hy
        cases hy
        exact hno rfl
      obtain ⟨x, hx⟩ := hchild
      have hrx : Reach t.tree newRoot x := (hreach y (mem_nodes_iff.2 ⟨n', hy⟩)).tail ((hinv.inverse.mem y x).2 hx)
      obtain ⟨node, hnode, hp⟩ := hx
      refine ⟨x, ?_⟩
      rw [Child, hkept x hrx]
      split
      next heq =>
        rw [← heq, hroot] at hnode
        cases hnode
        exact ⟨_, rfl, hp⟩
      next => exact ⟨node, hnode, hp⟩

/-! ## A job fails -/

section Failed

variable {job : J}

theorem mem_catchupFailed_iff {t : T F J} {h : F} :
    h ∈ (CatchupHashTree.catchupFailed t job).nodes ↔ h ∈ t.nodes ∧ ¬ Last t job h := by
  rw [mem_nodes_iff, mem_nodes_iff, catchupFailed_nodes]
  constructor
  · rintro ⟨node', hnode'⟩
    obtain ⟨node, hnode, rfl, hkeeps⟩ := catchupFailed_some job (catchupFailed_nodes t job h ▸ hnode')
    refine ⟨⟨node, hnode⟩, ?_⟩
    rintro ⟨other, hother, hlast⟩
    rw [hnode] at hother
    cases hother
    rw [hkeeps] at hlast
    cases hlast
  · rintro ⟨⟨node, hnode⟩, hnot⟩
    have hkeeps : (node.removeJob job).abandoned = false := Bool.eq_false_iff.2 fun hlast => hnot ⟨node, hnode, hlast⟩
    exact ⟨node.removeJob job, by rw [hnode, Option.map_some, Option.filter_some, hkeeps]; rfl⟩

theorem catchupFailed_kept {t : T F J} {h : F} {node : Node F J} (hnode : t.nodes[h]? = some node)
    (hkept : h ∈ (CatchupHashTree.catchupFailed t job).nodes) :
    (CatchupHashTree.catchupFailed t job).nodes[h]? = some (node.removeJob job) := by
  obtain ⟨node', hnode'⟩ := mem_nodes_iff.1 hkept
  obtain ⟨old, hold, rfl, -⟩ := catchupFailed_some job hnode'
  rw [hnode] at hold
  cases hold
  exact hnode'

omit [LinearOrder F] in
theorem removeJob_noBreadcrumb (node : Node F J) : (node.removeJob job).noBreadcrumb ↔ node.noBreadcrumb := by
  cases hs : node.state with
  | haveBreadcrumb => rw [removeJob_have job hs]
  | partOfCatchups ids =>
    rw [removeJob_part job hs, Node.noBreadcrumb, Node.noBreadcrumb, hs]
    exact iff_of_true (fun heq => by cases heq) fun heq => by cases heq

theorem catchupFailed_tree (t : WithTips F J) (job : J) :
    (catchupFailed t job).tree = CatchupHashTree.catchupFailed t.tree job := removeNodes_tree _ _

theorem Inv.catchupFailed (hinv : Inv Link t) (hsteady : Steady t.tree (.catchupFailed job)) :
    Inv Link (catchupFailed t job) := by
  obtain ⟨hbelow, hlast⟩ := hsteady
  have htree := catchupFailed_tree t job
  have hhave : ∀ {node : Node F J}, node.state = .haveBreadcrumb ↔ (node.removeJob job).state = .haveBreadcrumb :=
    fun {node} => (not_iff_not.1 (removeJob_noBreadcrumb node)).symm
  refine hinv.change (htree ▸ hinv.inverse.catchupFailed job) (fun x n' hx => ?_) ?_ (fun x n' hx hne => ?_)
    (fun x n' hx hbread hne up hup => ?_) (fun y => ?_) fun y n' hy hno hchild => ?_
  · rw [htree] at hx
    obtain ⟨node, hnode, rfl, -⟩ := catchupFailed_some job hx
    exact ⟨node, hnode, removeJob_parent node job, (removeJob_noBreadcrumb node).1⟩
  · rw [htree, catchupFailed_root]
    obtain ⟨root, hroot, hbread⟩ := hinv.root
    have hkept : t.tree.root ∈ (CatchupHashTree.catchupFailed t.tree job).nodes := by
      refine mem_catchupFailed_iff.2 ⟨mem_nodes_iff.2 ⟨root, hroot⟩, ?_⟩
      rintro ⟨node, hnode, habandoned⟩
      rw [hroot] at hnode
      cases hnode
      rw [removeJob_have job hbread, Node.abandoned, hbread] at habandoned
      cases habandoned
    exact ⟨_, catchupFailed_kept hroot hkept, hhave.1 hbread⟩
  · rw [htree] at hx hne
    rw [catchupFailed_root] at hne
    obtain ⟨node, hnode, rfl, -⟩ := catchupFailed_some job hx
    rw [htree, removeJob_parent, mem_catchupFailed_iff]
    refine ⟨hinv.rooted x node hnode hne, fun hgone => ?_⟩
    exact (mem_catchupFailed_iff.1 (mem_nodes_iff.2 ⟨_, hx⟩)).2 (hbelow _ x ⟨node, hnode, rfl⟩ hgone)
  · rw [htree] at hx hne hup
    rw [catchupFailed_root] at hne
    obtain ⟨node, hnode, rfl, -⟩ := catchupFailed_some job hx
    obtain ⟨old, hold, rfl, -⟩ := catchupFailed_some job hup
    rw [removeJob_parent] at hold
    exact hhave.1 (hinv.above x node hnode (hhave.2 hbread) hne old hold)
  · have hsub : y ∈ t.tips → y ∈ (t.tree.nodes.map fun _ node => node.removeJob job) := fun hy =>
      ExtTreeMap.mem_map.2 (hinv.mem_nodes hy)
    have hleft : y ∈ (WithTips.catchupFailed t job).tips ↔
        y ∈ t.tips ∧ y ∈ (WithTips.catchupFailed t job).tree.nodes := mem_tips_left _ hsub
    rw [hleft, htree]
    refine and_congr_right fun hy => ?_
    obtain ⟨⟨node, hnode, hno⟩, -⟩ := (hinv.tips y).1 hy
    rw [mem_nodes_iff]
    refine exists_congr fun n' => ⟨fun hn' => ⟨hn', ?_⟩, And.left⟩
    obtain ⟨old, hold, rfl, -⟩ := catchupFailed_some job hn'
    rw [hnode] at hold
    cases hold
    exact (removeJob_noBreadcrumb node).2 hno
  · rw [htree] at hy
    obtain ⟨node, hnode, rfl, -⟩ := catchupFailed_some job hy
    have hkept := (mem_catchupFailed_iff.1 (mem_nodes_iff.2 ⟨_, hy⟩)).2
    obtain ⟨x, ⟨child, hx, hp⟩, hstays⟩ := hlast y node hnode ((removeJob_noBreadcrumb node).1 hno) hkept hchild
    refine ⟨x, ?_⟩
    rw [htree]
    exact ⟨_, catchupFailed_kept hx (mem_catchupFailed_iff.2 ⟨mem_nodes_iff.2 ⟨child, hx⟩, hstays⟩),
      (removeJob_parent child job).trans hp⟩

end Failed

/-! ## Runs -/

section Runs

variable {rank : F → Nat}

theorem Inv.step (hinv : Inv Link t) (hrank : ∀ p h, Link p h → rank p < rank h)
    (hone : ∀ p q h, Link p h → Link q h → p = q) {event : Event F J} (hadmitted : Admitted t.tree event)
    (hlinks : ∀ e ∈ event.links, Link e.2 e.1) :
    ∃ t', step t event = .ok t' ∧ (Steady t.tree event → Inv Link t') := by
  cases event with
  | add h parent job => exact ⟨_, rfl, fun _ => hinv.add hrank hadmitted (hlinks _ (List.mem_singleton_self _))⟩
  | diff d =>
    cases d with
    | newNode h parent =>
      obtain ⟨up, hup, hhave⟩ := hadmitted
      exact ⟨_, rfl, fun _ => hinv.breadcrumbAdded hrank hone hup hhave (hlinks _ (List.mem_singleton_self _))⟩
    | rootTransitioned newRoot garbage => exact hinv.rootTransitioned hrank hadmitted
    | bestTipChanged => exact ⟨t, rfl, fun _ => hinv⟩
  | catchupFailed job => exact ⟨_, rfl, fun hsteady => hinv.catchupFailed hsteady⟩

theorem Runs.inv {events : List (Event F J)} (hrun : Runs Steady t events t') (hinv : Inv Link t)
    (hrank : ∀ p h, Link p h → rank p < rank h) (hone : ∀ p q h, Link p h → Link q h → p = q)
    (hlinks : ∀ e ∈ events.flatMap Event.links, Link e.2 e.1) : Inv Link t' := by
  induction hrun with
  | nil => exact hinv
  | @snoc events event t₁ t₂ _ hadmitted hsteady hstep ih =>
    rw [List.flatMap_append] at hlinks
    have hinv₁ := ih fun e he => hlinks e (List.mem_append_left _ he)
    obtain ⟨t₂', hstep', hinv₂⟩ := hinv₁.step hrank hone hadmitted fun e he =>
      hlinks e (List.mem_append_right _ (List.mem_flatMap.2 ⟨event, List.mem_singleton_self _, he⟩))
    cases Except.ok.inj (hstep.symm.trans hstep')
    exact hinv₂ hsteady

/-- **The tips and the length are right while no step leaves a block without
its children or its parent.** In a run of blocks with one parent each and no
cycles, a step goes through; and as long as no step takes the last child from
a block without a breadcrumb, or the parent from a block, or makes a tip the
root, the tips are the blocks without a breadcrumb and children and the length
is that of the longest chain of blocks without a breadcrumb. -/
theorem tips_right {rootHash parent : F} {events : List (Event F J)} {event : Event F J}
    (hrun : Runs Steady (WithTips.create rootHash parent) events t) (hadmitted : Admitted t.tree event)
    (hone : ∀ p q h, IsParent rootHash parent (events ++ [event]) p h →
      IsParent rootHash parent (events ++ [event]) q h → p = q)
    (hacyclic : ∀ h, ¬ TransGen (IsParent rootHash parent (events ++ [event])) h h) :
    Right t ∧ ∃ t', WithTips.step t event = .ok t' ∧ (Steady t.tree event → Right t') := by
  obtain ⟨rank, hrank⟩ := exists_rank (((rootHash, parent) :: (events ++ [event]).flatMap Event.links).map (·.2))
    (fun p h hp => List.mem_map.2 ⟨(h, p), hp, rfl⟩) hacyclic
  have hcreate : Inv (IsParent rootHash parent (events ++ [event])) (WithTips.create rootHash parent : WithTips F J) :=
    Inv.create List.mem_cons_self
  have hinv := hrun.inv hcreate hrank hone fun e he => by
    rw [IsParent, List.flatMap_append]
    exact List.mem_cons_of_mem _ (List.mem_append_left _ he)
  obtain ⟨t', hstep, hinv'⟩ := hinv.step hrank hone hadmitted fun e he => by
    rw [IsParent, List.flatMap_append]
    exact List.mem_cons_of_mem _ (List.mem_append_right _
      (List.mem_flatMap.2 ⟨event, List.mem_singleton_self _, he⟩))
  exact ⟨hinv.right hrank, t', hstep, fun hsteady => (hinv' hsteady).right hrank⟩

end Runs

/-- A job looks for two blocks and fails. -/
theorem tips_right_two : ∃ t : WithTips Nat Nat,
    Runs Steady (WithTips.create 1 0) [.add 2 1 7, .add 3 2 7] t ∧ Right t ∧
      ∃ t', WithTips.step t (.catchupFailed 7) = .ok t' ∧ (Steady t.tree (.catchupFailed 7) → Right t') := by
  have hrun : Runs Steady (WithTips.create 1 0 : WithTips Nat Nat) [.add 2 1 7] _ :=
    .snoc .nil (by rw [Admitted]; decide +kernel) trivial rfl
  have hrun₂ : Runs Steady (WithTips.create 1 0 : WithTips Nat Nat) ([.add 2 1 7] ++ [.add 3 2 7]) _ :=
    .snoc hrun (by rw [Admitted]; decide +kernel) trivial rfl
  have hparent : ∀ e ∈ [((1 : Nat), 0), (2, 1), (3, 2)], e.2 + 1 = e.1 := by decide
  have hlt : ∀ p x, TransGen (IsParent 1 0 ([.add 2 1 7] ++ [.add 3 2 7] ++ [(.catchupFailed 7 : Event Nat Nat)])) p x →
      p < x := by
    intro p x hpx
    induction hpx with
    | single hp => exact (hparent _ hp).le
    | tail _ hp ih => exact ih.trans (hparent _ hp).le
  exact ⟨_, hrun₂, tips_right hrun₂ trivial (fun p q h hp hq => Nat.succ.inj ((hparent _ hp).trans (hparent _ hq).symm))
    fun h hcycle => lt_irrefl h (hlt h h hcycle)⟩

/-- Two jobs look for a block and the first for one under it. When the first
fails, the block that is left is no tip. -/
theorem tips_forgotten : ∃ t : WithTips Nat Nat,
    Runs (fun _ _ => True) (WithTips.create 1 0) [.add 2 1 7, .add 2 1 8, .add 3 2 7, .catchupFailed 7] t ∧
      ¬ Right t := by
  have hrun : Runs (fun _ _ => True) (WithTips.create 1 0 : WithTips Nat Nat) [.add 2 1 7] _ :=
    .snoc .nil (by rw [Admitted]; decide +kernel) trivial rfl
  have hrun₂ : Runs (fun _ _ => True) (WithTips.create 1 0 : WithTips Nat Nat) ([.add 2 1 7] ++ [.add 2 1 8]) _ :=
    .snoc hrun (by rw [Admitted]; decide +kernel) trivial rfl
  have hrun₃ : Runs (fun _ _ => True) (WithTips.create 1 0 : WithTips Nat Nat)
      ([.add 2 1 7, .add 2 1 8] ++ [.add 3 2 7]) _ := .snoc hrun₂ (by rw [Admitted]; decide +kernel) trivial rfl
  have hrun₄ : Runs (fun _ _ => True) (WithTips.create 1 0 : WithTips Nat Nat)
      ([.add 2 1 7, .add 2 1 8, .add 3 2 7] ++ [.catchupFailed 7]) _ := .snoc hrun₃ trivial trivial rfl
  refine ⟨_, hrun₄, fun hright => ?_⟩
  have hout : 2 ∉ (catchupFailed (add (add (add (WithTips.create 1 0 : WithTips Nat Nat) 2 1 7) 2 1 8) 3 2 7) 7).tips := by
    decide +kernel
  refine hout ((hright.tips 2).2 ⟨⟨⟨1, .partOfCatchups _⟩, rfl, fun hs => by cases hs⟩, ?_⟩)
  rintro x ⟨node, hx, hparent⟩
  have hkeys : (catchupFailed (add (add (add (WithTips.create 1 0 : WithTips Nat Nat) 2 1 7) 2 1 8) 3 2 7)
      7).tree.nodes.keys = [1, 2] := by decide +kernel
  have hmem := ExtTreeMap.mem_keys.2 (mem_nodes_iff.2 ⟨node, hx⟩)
  rw [hkeys] at hmem
  simp only [List.mem_cons, List.not_mem_nil, or_false] at hmem
  rcases hmem with rfl | rfl
  · have hroot : (catchupFailed (add (add (add (WithTips.create 1 0 : WithTips Nat Nat) 2 1 7) 2 1 8) 3 2 7)
        7).tree.nodes[1]? = some ⟨0, .haveBreadcrumb⟩ := rfl
    cases hroot.symm.trans hx
    cases hparent
  · have hleft : ((catchupFailed (add (add (add (WithTips.create 1 0 : WithTips Nat Nat) 2 1 7) 2 1 8) 3 2 7)
        7).tree.nodes[2]?).map Node.parent = some 1 := rfl
    rw [hx, Option.map_some, hparent] at hleft
    cases hleft

end WithTips

end Mina.CatchupHashTree
