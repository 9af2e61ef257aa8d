/-
The table of the frontier as a rooted tree.

`Edge`: a block is among the successors of another. `Rooted`: the table holds
exactly the blocks below the root, every other block has the block its parent
hash names as its only predecessor, and lengths count levels. As lengths count
levels, the blocks above a given one are one for each length (`below_unique`),
so the subtrees of different successors of a block have nothing in common.
-/
import Mina.Frontier.FullFrontier

namespace Mina.Frontier

variable {F S : Type}

def Edge (table : Table F S) (h h' : F) : Prop := ∃ n, table h = some n ∧ h' ∈ n.successorHashes

/-- `x` is in the subtree of `a`. -/
def Below (table : Table F S) (a x : F) : Prop := Relation.ReflTransGen (Edge table) a x

theorem Below.mono {table table' : Table F S} (hmono : ∀ h h', Edge table h h' → Edge table' h h') {a x : F}
    (hb : Below table a x) : Below table' a x := by
  induction hb with
  | refl => exact .refl
  | tail _ he ih => exact ih.tail (hmono _ _ he)

structure Rooted (table : Table F S) (root : F) : Prop where
  keys : ∀ h n, table h = some n → n.breadcrumb.stateHash = h
  reachable : ∀ h, (table h).isSome = true ↔ Below table root h
  parent : ∀ h n, table h = some n → h ≠ root →
    Edge table n.breadcrumb.parentHash h ∧ ∀ p, Edge table p h → p = n.breadcrumb.parentHash
  nodup : ∀ h n, table h = some n → n.successorHashes.Nodup
  length : ∀ h n h' n', table h = some n → h' ∈ n.successorHashes → table h' = some n' → n'.length = n.length + 1

def lengthAt (table : Table F S) (h : F) : Nat := ((table h).map (·.length)).getD 0

theorem lengthAt_eq {table : Table F S} {h : F} {n : Node F S} (hn : table h = some n) :
    lengthAt table h = n.length := by
  rw [lengthAt, hn, Option.map_some, Option.getD_some]

namespace Rooted

variable {table : Table F S} {root : F}

theorem root_some (ht : Rooted table root) : ∃ r, table root = some r :=
  Option.isSome_iff_exists.1 ((ht.reachable root).2 .refl)

theorem below_root (ht : Rooted table root) {h : F} {n : Node F S} (hn : table h = some n) : Below table root h :=
  (ht.reachable h).1 (by rw [hn]; rfl)

/-- Successors are in the table. -/
theorem edge_some (ht : Rooted table root) {p h : F} (he : Edge table p h) :
    ∃ n, table h = some n ∧ lengthAt table h = lengthAt table p + 1 := by
  obtain ⟨m, hm, hmem⟩ := he
  have hbelow : Below table root h := (ht.below_root hm).tail ⟨m, hm, hmem⟩
  obtain ⟨n, hn⟩ := Option.isSome_iff_exists.1 ((ht.reachable h).2 hbelow)
  refine ⟨n, hn, ?_⟩
  rw [lengthAt_eq hn, lengthAt_eq hm]
  exact ht.length p m h n hm hmem hn

theorem below_some (ht : Rooted table root) {a x : F} (ha : ∃ n, table a = some n) (hb : Below table a x) :
    ∃ n, table x = some n := by
  induction hb with
  | refl => exact ha
  | tail _ he => exact ⟨_, (ht.edge_some he).choose_spec.1⟩

theorem below_length (ht : Rooted table root) {a x : F} (hb : Below table a x) :
    lengthAt table a ≤ lengthAt table x := by
  induction hb with
  | refl => exact le_refl _
  | tail _ he ih =>
    obtain ⟨n, -, hlen⟩ := ht.edge_some he
    omega

theorem not_below_of_edge (ht : Rooted table root) {p h : F} (he : Edge table p h) : ¬ Below table h p := by
  intro hb
  have hle := ht.below_length hb
  obtain ⟨n, -, hlen⟩ := ht.edge_some he
  omega

theorem edge_ne_root (ht : Rooted table root) {p h : F} (he : Edge table p h) : h ≠ root := by
  rintro rfl
  obtain ⟨m, hm, -⟩ := id he
  exact ht.not_below_of_edge he (ht.below_root hm)

theorem edge_parent (ht : Rooted table root) {p h : F} {n : Node F S} (he : Edge table p h) (hn : table h = some n) :
    n.breadcrumb.parentHash = p :=
  ((ht.parent h n hn (ht.edge_ne_root he)).2 p he).symm

theorem edge_unique (ht : Rooted table root) {p q h : F} (hp : Edge table p h) (hq : Edge table q h) : p = q := by
  obtain ⟨n, hn, -⟩ := ht.edge_some hp
  rw [← ht.edge_parent hp hn, ht.edge_parent hq hn]

/-- Of the blocks above `x`, there is one for each length. -/
theorem below_unique (ht : Rooted table root) {a a' x : F} (ha : Below table a x) (ha' : Below table a' x)
    (hlen : lengthAt table a = lengthAt table a') : a = a' := by
  induction ha with
  | refl =>
    rcases Relation.ReflTransGen.cases_tail ha' with heq | ⟨y, hy, he⟩
    · exact heq
    · have := ht.below_length hy
      obtain ⟨n, -, hstep⟩ := ht.edge_some he
      omega
  | @tail y x hy he ih =>
    rcases Relation.ReflTransGen.cases_tail ha' with heq | ⟨y', hy', he'⟩
    · subst heq
      have := ht.below_length hy
      obtain ⟨n, -, hstep⟩ := ht.edge_some he
      omega
    · rw [ht.edge_unique he' he] at hy'
      exact ih hy'

/-- The subtrees of two successors of a block have nothing in common. -/
theorem siblings_disjoint (ht : Rooted table root) {p s s' x : F} (hs : Edge table p s) (hs' : Edge table p s')
    (hx : Below table s x) (hx' : Below table s' x) : s = s' := by
  obtain ⟨n, -, hlen⟩ := ht.edge_some hs
  obtain ⟨n', -, hlen'⟩ := ht.edge_some hs'
  exact ht.below_unique hx hx' (hlen.trans hlen'.symm)

/-- A block other than the root is below a successor of the root. -/
theorem exists_branch (ht : Rooted table root) {x : F} {n : Node F S} (hn : table x = some n) (hne : x ≠ root) :
    ∃ s, Edge table root s ∧ Below table s x := by
  rcases Relation.ReflTransGen.cases_head (ht.below_root hn) with heq | ⟨s, hs, hb⟩
  · exact absurd heq.symm hne
  · exact ⟨s, hs, hb⟩

end Rooted

/-! ## A tree of one block -/

/-- The table with the node of the root alone. -/
def single [DecidableEq F] (root : Breadcrumb F S) : Table F S :=
  Function.update (fun _ => none) root.stateHash (some { breadcrumb := root, successorHashes := [], length := 0 })

theorem single_root [DecidableEq F] (root : Breadcrumb F S) :
    single root root.stateHash = some { breadcrumb := root, successorHashes := [], length := 0 } :=
  Function.update_self _ _ _

theorem single_some [DecidableEq F] {root : Breadcrumb F S} {h : F} {n : Node F S} (hn : single root h = some n) :
    h = root.stateHash ∧ n = { breadcrumb := root, successorHashes := [], length := 0 } := by
  by_cases hh : h = root.stateHash
  · subst hh
    rw [single_root] at hn
    cases hn
    exact ⟨rfl, rfl⟩
  · rw [single, Function.update_of_ne hh] at hn
    cases hn

theorem Rooted.single [DecidableEq F] (root : Breadcrumb F S) : Rooted (single root) root.stateHash := by
  refine ⟨fun h n hn => ?_, fun h => ?_, fun h n hn hne => ?_, fun h n hn => ?_, fun h n h' n' hn hmem => ?_⟩
  · obtain ⟨rfl, rfl⟩ := single_some hn
    rfl
  · constructor
    · intro hsome
      obtain ⟨n, hn⟩ := Option.isSome_iff_exists.1 hsome
      obtain ⟨rfl, -⟩ := single_some hn
      exact .refl
    · intro hb
      rcases Relation.ReflTransGen.cases_head hb with rfl | ⟨y, ⟨n, hn, hmem⟩, -⟩
      · rw [single_root]
        rfl
      · obtain ⟨-, rfl⟩ := single_some hn
        cases hmem
  · obtain ⟨rfl, -⟩ := single_some hn
    exact absurd rfl hne
  · obtain ⟨-, rfl⟩ := single_some hn
    exact List.nodup_nil
  · obtain ⟨-, rfl⟩ := single_some hn
    cases hmem

/-! ## A tree that gets a leaf -/

section AddLeaf

variable [LinearOrder F]

/-- The table with the node of a new breadcrumb under `p`. -/
def addLeaf (table : Table F S) (b : Breadcrumb F S) (p : Node F S) : Table F S :=
  Function.update (Function.update table b.stateHash (some { breadcrumb := b, successorHashes := [], length := p.length + 1 }))
    b.parentHash (some { p with successorHashes := b.stateHash :: p.successorHashes })

variable {table : Table F S} {root : F} {b : Breadcrumb F S} {p : Node F S}

theorem addLeaf_parent : addLeaf table b p b.parentHash =
    some { p with successorHashes := b.stateHash :: p.successorHashes } := Function.update_self _ _ _

theorem addLeaf_new (hne : b.stateHash ≠ b.parentHash) : addLeaf table b p b.stateHash =
    some { breadcrumb := b, successorHashes := [], length := p.length + 1 } := by
  rw [addLeaf, Function.update_of_ne hne, Function.update_self]

theorem addLeaf_of_ne {h : F} (hb : h ≠ b.stateHash) (hp : h ≠ b.parentHash) : addLeaf table b p h = table h := by
  rw [addLeaf, Function.update_of_ne hp, Function.update_of_ne hb]

variable (hfresh : table b.stateHash = none) (hp : table b.parentHash = some p)
include hfresh hp

omit [LinearOrder F] in
theorem fresh_ne : b.stateHash ≠ b.parentHash := by
  intro h
  rw [h, hp] at hfresh
  cases hfresh

/-- The blocks that were there keep their breadcrumb and length. -/
theorem addLeaf_some {h : F} {n : Node F S} (hn : table h = some n) :
    ∃ n', addLeaf table b p h = some n' ∧ n'.breadcrumb = n.breadcrumb ∧ n'.length = n.length ∧
      n'.successorHashes = if h = b.parentHash then b.stateHash :: n.successorHashes else n.successorHashes := by
  have hb : h ≠ b.stateHash := by
    rintro rfl
    rw [hn] at hfresh
    cases hfresh
  by_cases hh : h = b.parentHash
  · subst hh
    rw [hp] at hn
    cases hn
    exact ⟨_, addLeaf_parent, rfl, rfl, by rw [if_pos rfl]⟩
  · exact ⟨n, by rw [addLeaf_of_ne hb hh, hn], rfl, rfl, by rw [if_neg hh]⟩

theorem addLeaf_cases {h : F} {n : Node F S} (hn : addLeaf table b p h = some n) :
    (h = b.stateHash ∧ n = { breadcrumb := b, successorHashes := [], length := p.length + 1 }) ∨
      ∃ m, table h = some m ∧ n.breadcrumb = m.breadcrumb ∧ n.length = m.length ∧
        n.successorHashes = if h = b.parentHash then b.stateHash :: m.successorHashes else m.successorHashes := by
  by_cases hb : h = b.stateHash
  · subst hb
    rw [addLeaf_new (fresh_ne hfresh hp)] at hn
    cases hn
    exact Or.inl ⟨rfl, rfl⟩
  · refine Or.inr ?_
    cases hm : table h with
    | none =>
      have hh : h ≠ b.parentHash := by
        rintro rfl
        rw [hp] at hm
        cases hm
      rw [addLeaf_of_ne hb hh, hm] at hn
      cases hn
    | some m =>
      obtain ⟨n', hn', hrest⟩ := addLeaf_some hfresh hp hm
      rw [hn] at hn'
      cases hn'
      exact ⟨m, rfl, hrest⟩

theorem edge_addLeaf {h h' : F} :
    Edge (addLeaf table b p) h h' ↔ Edge table h h' ∨ h = b.parentHash ∧ h' = b.stateHash := by
  constructor
  · rintro ⟨n, hn, hmem⟩
    rcases addLeaf_cases hfresh hp hn with ⟨-, rfl⟩ | ⟨m, hm, -, -, hsucc⟩
    · simp at hmem
    · rw [hsucc] at hmem
      split at hmem
      next hh =>
        rcases List.mem_cons.1 hmem with rfl | hmem
        · exact Or.inr ⟨hh, rfl⟩
        · exact Or.inl ⟨m, hm, hmem⟩
      next hh => exact Or.inl ⟨m, hm, hmem⟩
  · rintro (⟨n, hn, hmem⟩ | ⟨rfl, rfl⟩)
    · obtain ⟨n', hn', -, -, hsucc⟩ := addLeaf_some hfresh hp hn
      refine ⟨n', hn', ?_⟩
      rw [hsucc]
      split
      · exact List.mem_cons_of_mem _ hmem
      · exact hmem
    · exact ⟨_, addLeaf_parent, List.mem_cons_self⟩

variable (ht : Rooted table root)
include ht

omit hp [LinearOrder F] in
/-- Nothing is above or below the new block in the old tree. -/
theorem not_edge_fresh {h : F} : ¬ Edge table h b.stateHash := by
  intro he
  obtain ⟨n, hn, -⟩ := ht.edge_some he
  rw [hfresh] at hn
  cases hn

/-- The new block is a leaf: the subtrees only grow by it. -/
theorem below_addLeaf {a x : F} (ha : a ≠ b.stateHash) :
    Below (addLeaf table b p) a x ↔
      x ≠ b.stateHash ∧ Below table a x ∨ x = b.stateHash ∧ Below table a b.parentHash := by
  constructor
  · intro hb
    induction hb with
    | refl => exact Or.inl ⟨ha, .refl⟩
    | @tail y z hy he ih =>
      rcases (edge_addLeaf hfresh hp).1 he with he | ⟨rfl, rfl⟩
      · have hz : z ≠ b.stateHash := by
          rintro rfl
          exact not_edge_fresh hfresh ht he
        rcases ih with ⟨-, hy⟩ | ⟨rfl, -⟩
        · exact Or.inl ⟨hz, hy.tail he⟩
        · obtain ⟨n, hn, -⟩ := he
          rw [hfresh] at hn
          cases hn
      · rcases ih with ⟨-, hy⟩ | ⟨heq, -⟩
        · exact Or.inr ⟨rfl, hy⟩
        · exact absurd heq.symm (fresh_ne hfresh hp)
  · have hmono : ∀ {x}, Below table a x → Below (addLeaf table b p) a x :=
      fun hb => hb.mono fun _ _ he => (edge_addLeaf hfresh hp).2 (Or.inl he)
    rintro (⟨-, hb⟩ | ⟨rfl, hb⟩)
    · exact hmono hb
    · exact (hmono hb).tail ((edge_addLeaf hfresh hp).2 (Or.inr ⟨rfl, rfl⟩))

theorem Rooted.addLeaf : Rooted (addLeaf table b p) root := by
  have hroot : root ≠ b.stateHash := by
    rintro rfl
    obtain ⟨r, hr⟩ := ht.root_some
    rw [hfresh] at hr
    cases hr
  refine ⟨fun h n hn => ?_, fun h => ?_, fun h n hn hne => ?_, fun h n hn => ?_, fun h n h' n' hn hmem hn' => ?_⟩
  · rcases addLeaf_cases hfresh hp hn with ⟨rfl, rfl⟩ | ⟨m, hm, hbc, -⟩
    · rfl
    · rw [hbc]
      exact ht.keys h m hm
  · rw [below_addLeaf hfresh hp ht hroot]
    constructor
    · intro hsome
      obtain ⟨n, hn⟩ := Option.isSome_iff_exists.1 hsome
      rcases addLeaf_cases hfresh hp hn with ⟨rfl, -⟩ | ⟨m, hm, -⟩
      · exact Or.inr ⟨rfl, ht.below_root hp⟩
      · refine Or.inl ⟨?_, ht.below_root hm⟩
        rintro rfl
        rw [hfresh] at hm
        cases hm
    · rintro (⟨-, hb⟩ | ⟨rfl, -⟩)
      · obtain ⟨m, hm⟩ := Option.isSome_iff_exists.1 ((ht.reachable h).2 hb)
        obtain ⟨n, hn, -⟩ := addLeaf_some hfresh hp hm
        rw [hn]
        rfl
      · rw [addLeaf_new (fresh_ne hfresh hp)]
        rfl
  · rcases addLeaf_cases hfresh hp hn with ⟨rfl, rfl⟩ | ⟨m, hm, hbc, -⟩
    · refine ⟨(edge_addLeaf hfresh hp).2 (Or.inr ⟨rfl, rfl⟩), fun q hq => ?_⟩
      rcases (edge_addLeaf hfresh hp).1 hq with he | ⟨rfl, -⟩
      · exact absurd he (not_edge_fresh hfresh ht)
      · rfl
    · rw [hbc]
      obtain ⟨hedge, huniq⟩ := ht.parent h m hm hne
      refine ⟨(edge_addLeaf hfresh hp).2 (Or.inl hedge), fun q hq => ?_⟩
      rcases (edge_addLeaf hfresh hp).1 hq with he | ⟨-, rfl⟩
      · exact huniq q he
      · rw [hfresh] at hm
        cases hm
  · rcases addLeaf_cases hfresh hp hn with ⟨-, rfl⟩ | ⟨m, hm, -, -, hsucc⟩
    · exact List.nodup_nil
    · rw [hsucc]
      split
      next =>
        refine List.nodup_cons.2 ⟨fun hmem => ?_, ht.nodup h m hm⟩
        exact not_edge_fresh hfresh ht ⟨m, hm, hmem⟩
      next => exact ht.nodup h m hm
  · rcases (edge_addLeaf hfresh hp).1 ⟨n, hn, hmem⟩ with he | ⟨rfl, rfl⟩
    · obtain ⟨m, hm, hmem'⟩ := he
      obtain ⟨m', hm', hlen⟩ := ht.edge_some ⟨m, hm, hmem'⟩
      obtain ⟨k, hk, -, hklen, -⟩ := addLeaf_some hfresh hp hm
      obtain ⟨k', hk', -, hklen', -⟩ := addLeaf_some hfresh hp hm'
      rw [hn] at hk
      rw [hn'] at hk'
      cases hk
      cases hk'
      rw [lengthAt_eq hm', lengthAt_eq hm] at hlen
      rw [hklen, hklen', hlen]
    · rw [addLeaf_new (fresh_ne hfresh hp)] at hn'
      rw [addLeaf_parent] at hn
      cases hn
      cases hn'
      rfl

end AddLeaf

/-! ## A subtree -/

section Subtree

variable {table table' : Table F S} {root a : F}

/-- `table'` is the subtree of `table` at `a`. -/
structure Subtree (table : Table F S) (a : F) (table' : Table F S) : Prop where
  kept : ∀ h, Below table a h → table' h = table h
  removed : ∀ h, ¬ Below table a h → table' h = none

theorem Subtree.all (ht : Rooted table root) : Subtree table root table := by
  refine ⟨fun _ _ => rfl, fun h hb => ?_⟩
  cases hn : table h with
  | none => rfl
  | some n => exact absurd (ht.below_root hn) hb

theorem Subtree.some_iff (hs : Subtree table a table') {h : F} {n : Node F S} :
    table' h = some n ↔ Below table a h ∧ table h = some n := by
  by_cases hb : Below table a h
  · rw [hs.kept h hb]
    simp only [hb, true_and]
  · rw [hs.removed h hb]
    simp only [reduceCtorEq, hb, false_and]

theorem Subtree.edge_iff (hs : Subtree table a table') {h h' : F} :
    Edge table' h h' ↔ Below table a h ∧ Edge table h h' := by
  constructor
  · rintro ⟨n, hn, hmem⟩
    obtain ⟨hb, hn⟩ := hs.some_iff.1 hn
    exact ⟨hb, n, hn, hmem⟩
  · rintro ⟨hb, n, hn, hmem⟩
    exact ⟨n, hs.some_iff.2 ⟨hb, hn⟩, hmem⟩

theorem Subtree.below_iff (hs : Subtree table a table') {h : F} : Below table' a h ↔ Below table a h := by
  constructor
  · exact fun hb => hb.mono fun _ _ he => (hs.edge_iff.1 he).2
  · intro hb
    induction hb with
    | refl => exact .refl
    | tail hy he ih => exact ih.tail (hs.edge_iff.2 ⟨hy, he⟩)

theorem Rooted.subtree (ht : Rooted table root) (ha : ∃ n, table a = some n) (hs : Subtree table a table') :
    Rooted table' a := by
  refine ⟨fun h n hn => ?_, fun h => ?_, fun h n hn hne => ?_, fun h n hn => ?_, fun h n h' n' hn hmem hn' => ?_⟩
  · exact ht.keys h n (hs.some_iff.1 hn).2
  · rw [hs.below_iff]
    constructor
    · intro hsome
      obtain ⟨n, hn⟩ := Option.isSome_iff_exists.1 hsome
      exact (hs.some_iff.1 hn).1
    · intro hb
      obtain ⟨n, hn⟩ := ht.below_some ha hb
      rw [hs.some_iff.2 ⟨hb, hn⟩]
      rfl
  · obtain ⟨hb, hn⟩ := hs.some_iff.1 hn
    rcases Relation.ReflTransGen.cases_tail hb with heq | ⟨y, hy, he⟩
    · exact absurd heq hne
    · obtain rfl := ht.edge_parent he hn
      refine ⟨hs.edge_iff.2 ⟨hy, he⟩, fun q hq => ?_⟩
      exact ht.edge_unique (hs.edge_iff.1 hq).2 he
  · exact ht.nodup h n (hs.some_iff.1 hn).2
  · exact ht.length h n h' n' (hs.some_iff.1 hn).2 hmem (hs.some_iff.1 hn').2

end Subtree

end Mina.Frontier
