/-
The scheduler's table of children as a forest.

Every transition in it is kept under its parent's hash (`Linked`), so taking
out the trees below a hash (`extractForest`) lists each transition below it
once and in its place, and removing them (`removeTree`) leaves the others. Both
end: a walk down goes through the keys by growing rank, and a removal has one
key less at each level.
-/
import Mina.TransitionHandler.CatchupScheduler

namespace Mina.TransitionHandler

open Relation

variable {F : Type} [DecidableEq F]

/-- `h` is the hash of a transition whose parent is `p`. -/
def Child (table : Table F) (p h : F) : Prop := ∃ b ∈ children table p, b.stateHash = h

abbrev Below (table : Table F) (a x : F) : Prop := ReflTransGen (Child table) a x

/-- Each transition is kept once, under its parent, and a hash stands for one
transition; ranks grow from parents to children. -/
structure Linked (rank : F → Nat) (table : Table F) : Prop where
  parent : ∀ p, ∀ b ∈ children table p, b.parentHash = p
  hash : ∀ p p', ∀ b ∈ children table p, ∀ b' ∈ children table p', b.stateHash = b'.stateHash → b = b'
  rank : ∀ p, ∀ b ∈ children table p, rank b.parentHash < rank b.stateHash
  nodup : ∀ p, (children table p).Nodup

theorem mem_of_children {table : Table F} {p : F} {b : Transition F} (h : b ∈ children table p) : p ∈ table := by
  rw [← AList.lookup_isSome]
  cases hp : table.lookup p with
  | none =>
    rw [children, hp] at h
    cases h
  | some l => rfl

theorem children_of_lookup {table : Table F} {p : F} {l : List (Transition F)} (h : table.lookup p = some l) :
    children table p = l := by
  rw [children, h, Option.getD_some]

theorem children_of_none {table : Table F} {p : F} (h : table.lookup p = none) : children table p = [] := by
  rw [children, h, Option.getD_none]

theorem children_insert_self (table : Table F) (p : F) (l : List (Transition F)) :
    children (table.insert p l) p = l := children_of_lookup (AList.lookup_insert table)

theorem children_insert_ne (table : Table F) {p q : F} (l : List (Transition F)) (h : q ≠ p) :
    children (table.insert p l) q = children table q := by
  rw [children, AList.lookup_insert_ne h, children]

theorem Linked.forest {rank : F → Nat} {table : Table F} (h : Linked rank table) : Forest (Child table) rank := by
  refine ⟨fun p q x hp hq => ?_, fun p x hp => ?_⟩
  · obtain ⟨b, hb, rfl⟩ := hp
    obtain ⟨b', hb', heq⟩ := hq
    rw [← h.parent p b hb, ← h.parent q b' hb', h.hash q p b' hb' b hb heq]
  · obtain ⟨b, hb, rfl⟩ := hp
    have hrank := h.rank p b hb
    rwa [h.parent p b hb] at hrank

theorem mem_collected {table : Table F} {b : Transition F} : b ∈ collected table ↔ ∃ p, b ∈ children table p := by
  rw [collected, List.mem_flatMap]
  constructor
  · intro h
    obtain ⟨⟨p, l⟩, hp, hb⟩ := h
    refine ⟨p, ?_⟩
    rw [children_of_lookup (AList.mem_lookup_iff.2 hp)]
    exact hb
  · intro h
    obtain ⟨p, hb⟩ := h
    obtain ⟨l, hl⟩ := Option.isSome_iff_exists.1 (AList.lookup_isSome.2 (mem_of_children hb))
    rw [children_of_lookup hl] at hb
    exact ⟨⟨p, l⟩, AList.mem_lookup_iff.1 hl, hb⟩

theorem Linked.nodup_collected {rank : F → Nat} {table : Table F} (h : Linked rank table) :
    (collected table).Nodup := by
  have hchildren : ∀ e ∈ table.entries, e.2 = children table e.1 := fun e he =>
    (children_of_lookup (AList.mem_lookup_iff.2 he)).symm
  rw [collected, List.nodup_flatMap]
  constructor
  · intro e he
    rw [hchildren e he]
    exact h.nodup e.1
  · refine (List.pairwise_map.1 table.nodupKeys).imp_of_mem fun {e e'} he he' hne => ?_
    intro b hb hb'
    dsimp only at hb hb'
    rw [hchildren e he] at hb
    rw [hchildren e' he'] at hb'
    exact hne ((h.parent e.1 b hb).symm.trans (h.parent e'.1 b hb'))

/-! ## Extraction -/

section Extract

variable {rank : F → Nat} {table : Table F}

/-- What is in the subtree of a transition. -/
def InSubtree (table : Table F) (b x : Transition F) : Prop :=
  x = b ∨ ∃ p, Below table b.stateHash p ∧ x ∈ children table p

/-- The number of keys from the rank of `h` up. -/
def keysFrom (rank : F → Nat) (table : Table F) (h : F) : Nat :=
  (table.keys.toFinset.filter fun k => rank h ≤ rank k).card

theorem keysFrom_le (h : F) : keysFrom rank table h ≤ table.keys.length :=
  (Finset.card_filter_le _ _).trans (List.toFinset_card_le _)

theorem keysFrom_lt (h : Linked rank table) {p : F} {b : Transition F} (hb : b ∈ children table p) :
    keysFrom rank table b.stateHash < keysFrom rank table p := by
  have hlt := h.forest.rank p b.stateHash ⟨b, hb, rfl⟩
  refine Finset.card_lt_card ((Finset.ssubset_iff_of_subset fun k hk => ?_).2 ⟨p, ?_, fun hp => ?_⟩)
  · obtain ⟨hmem, hk⟩ := Finset.mem_filter.1 hk
    exact Finset.mem_filter.2 ⟨hmem, by omega⟩
  · exact Finset.mem_filter.2 ⟨List.mem_toFinset.2 (AList.mem_keys.1 (mem_of_children hb)), le_refl _⟩
  · have := (Finset.mem_filter.1 hp).2
    omega

theorem keysFrom_pos {p : F} {b : Transition F} (hb : b ∈ children table p) : 0 < keysFrom rank table p :=
  Finset.card_pos.2 ⟨p, Finset.mem_filter.2
    ⟨List.mem_toFinset.2 (AList.mem_keys.1 (mem_of_children hb)), le_refl _⟩⟩

/-- The trees `trees` are what is below `p`. -/
structure Extracted (table : Table F) (p : F) (trees : List (RoseTree (Transition F))) : Prop where
  placed : ∀ tree ∈ trees, tree.Placed (·.stateHash) (·.parentHash) p
  mem : ∀ x, x ∈ RoseTree.listToList trees ↔ ∃ q, Below table p q ∧ x ∈ children table q
  nodup : (RoseTree.listToList trees).Nodup

/-- A tree of the transition `b`. -/
def IsTreeOf (table : Table F) (b : Transition F) (tree : RoseTree (Transition F)) : Prop :=
  ∃ trees, Extracted table b.stateHash trees ∧ tree = .node b trees

theorem IsTreeOf.mem {b x : Transition F} {tree : RoseTree (Transition F)} (h : IsTreeOf table b tree) :
    x ∈ tree.toList ↔ InSubtree table b x := by
  obtain ⟨trees, htrees, rfl⟩ := h
  rw [RoseTree.toList_node, List.mem_cons, htrees.mem, InSubtree]

theorem IsTreeOf.nodup (hl : Linked rank table) {b : Transition F} {tree : RoseTree (Transition F)}
    (h : IsTreeOf table b tree) : tree.toList.Nodup := by
  obtain ⟨trees, htrees, rfl⟩ := h
  rw [RoseTree.toList_node, List.nodup_cons]
  refine ⟨fun hmem => ?_, htrees.nodup⟩
  obtain ⟨q, hbelow, hq⟩ := (htrees.mem b).1 hmem
  exact hl.forest.not_below_of_child ⟨b, hq, rfl⟩ hbelow

/-- The subtrees of two children of a hash have nothing in common. -/
theorem subtrees_disjoint (hl : Linked rank table) {p : F} {b b' x : Transition F} (hb : b ∈ children table p)
    (hb' : b' ∈ children table p) (hx : InSubtree table b x) (hx' : InSubtree table b' x) : b = b' := by
  have hbelow : ∀ {c : Transition F}, InSubtree table c x → Below table c.stateHash x.stateHash := by
    intro c hc
    rcases hc with rfl | ⟨q, hq, hmem⟩
    · exact .refl
    · exact hq.tail ⟨x, hmem, rfl⟩
  exact hl.hash p p b hb b' hb' (hl.forest.siblings_disjoint ⟨b, hb, rfl⟩ ⟨b', hb', rfl⟩ (hbelow hx) (hbelow hx'))

theorem nodup_of_trees (hl : Linked rank table) {p : F} {l : List (Transition F)}
    {trees : List (RoseTree (Transition F))} (h : List.Forall₂ (IsTreeOf table) l trees)
    (hsub : ∀ b ∈ l, b ∈ children table p) (hnodup : l.Nodup) :
    (∀ x, x ∈ RoseTree.listToList trees ↔ ∃ b ∈ l, InSubtree table b x) ∧ (RoseTree.listToList trees).Nodup := by
  induction h with
  | nil => exact ⟨fun x => by simp [RoseTree.listToList], by simp [RoseTree.listToList]⟩
  | @cons b tree l trees hb _ ih =>
    obtain ⟨hnotin, hnodup⟩ := List.nodup_cons.1 hnodup
    obtain ⟨hmem, hrest⟩ := ih (fun c hc => hsub c (List.mem_cons_of_mem _ hc)) hnodup
    have hbp := hsub b List.mem_cons_self
    constructor
    · intro x
      rw [RoseTree.listToList_cons, List.mem_append, hmem, hb.mem, List.exists_mem_cons_iff]
    · rw [RoseTree.listToList_cons, List.nodup_append']
      refine ⟨hb.nodup hl, hrest, fun x hx hx' => ?_⟩
      obtain ⟨c, hc, hxc⟩ := (hmem x).1 hx'
      obtain rfl := subtrees_disjoint hl hbp (hsub c (List.mem_cons_of_mem _ hc)) (hb.mem.1 hx) hxc
      exact hnotin hc

theorem mem_below_iff {p : F} {x : Transition F} :
    (∃ b ∈ children table p, InSubtree table b x) ↔ ∃ q, Below table p q ∧ x ∈ children table q := by
  constructor
  · intro h
    obtain ⟨b, hb, rfl | ⟨q, hq, hx⟩⟩ := h
    · exact ⟨p, .refl, hb⟩
    · exact ⟨q, hq.head ⟨b, hb, rfl⟩, hx⟩
  · intro h
    obtain ⟨q, hq, hx⟩ := h
    rcases ReflTransGen.cases_head hq with rfl | ⟨c, ⟨b, hb, rfl⟩, hq⟩
    · exact ⟨x, hx, Or.inl rfl⟩
    · exact ⟨b, hb, Or.inr ⟨q, hq, hx⟩⟩

theorem exists_of_mem_trees {l : List (Transition F)} {trees : List (RoseTree (Transition F))}
    (h : List.Forall₂ (IsTreeOf table) l trees) {tree : RoseTree (Transition F)} (ht : tree ∈ trees) :
    ∃ b ∈ l, IsTreeOf table b tree := by
  induction h with
  | nil => cases ht
  | @cons b tree' l trees hb _ ih =>
    rcases List.mem_cons.1 ht with rfl | ht
    · exact ⟨b, List.mem_cons_self, hb⟩
    · obtain ⟨c, hc, htree⟩ := ih ht
      exact ⟨c, List.mem_cons_of_mem _ hc, htree⟩

theorem extracted_of_trees (hl : Linked rank table) {p : F} {trees : List (RoseTree (Transition F))}
    (h : List.Forall₂ (IsTreeOf table) (children table p) trees) : Extracted table p trees := by
  obtain ⟨hmem, hnodup⟩ := nodup_of_trees hl h (fun _ hb => hb) (hl.nodup p)
  refine ⟨fun tree htree => ?_, fun x => (hmem x).trans mem_below_iff, hnodup⟩
  obtain ⟨b, hb, trees', htrees', rfl⟩ := exists_of_mem_trees h htree
  rw [← hl.parent p b hb]
  exact .node b trees' htrees'.placed

/-- With fuel for the keys from `p` up, the trees below `p` are found. -/
theorem extractSubtree_ok (hl : Linked rank table) : ∀ (fuel : Nat) (p : F), keysFrom rank table p ≤ fuel →
    ∃ trees, Exn.mapList (extractSubtree table fuel) (children table p) = .ok trees ∧ Extracted table p trees := by
  intro fuel
  induction fuel with
  | zero =>
    intro p hp
    obtain ⟨trees, hok, htrees⟩ := Exn.mapList_of_forall (f := extractSubtree table 0) (Q := IsTreeOf table)
      (l := children table p) fun b hb => by
        have hpos : 0 < keysFrom rank table p := keysFrom_pos hb
        omega
    exact ⟨trees, hok, extracted_of_trees hl htrees⟩
  | succ fuel ih =>
    intro p hp
    obtain ⟨trees, hok, htrees⟩ := Exn.mapList_of_forall (f := extractSubtree table (fuel + 1)) (Q := IsTreeOf table)
      (l := children table p) fun b hb => by
        have hlt := keysFrom_lt hl hb
        obtain ⟨branches, hbranches, hextracted⟩ := ih b.stateHash (by omega)
        refine ⟨.node b branches, ?_, branches, hextracted, rfl⟩
        rw [extractSubtree, hbranches, Exn.andThen_ok]
    exact ⟨trees, hok, extracted_of_trees hl htrees⟩

theorem extractForest_ok (hl : Linked rank table) (p : F) :
    ∃ trees, extractForest table p = .ok (p, trees) ∧ Extracted table p trees := by
  obtain ⟨trees, hok, htrees⟩ := extractSubtree_ok hl (fuelFor table) p
    ((keysFrom_le p).trans (Nat.le_succ _))
  refine ⟨trees, ?_, htrees⟩
  rw [extractForest, hok, Exn.andThen_ok]

end Extract

/-! ## Removal -/

section Remove

/-- `table'` is `table` without the keys in `S`. -/
structure Without (table : Table F) (S : F → Prop) (table' : Table F) : Prop where
  removed : ∀ h, S h → table'.lookup h = none
  kept : ∀ h, ¬ S h → table'.lookup h = table.lookup h

namespace Without

variable {table table' : Table F} {S : F → Prop}

theorem mem_iff (h : Without table S table') {k : F} : k ∈ table' ↔ k ∈ table ∧ ¬ S k := by
  rw [← AList.lookup_isSome, ← AList.lookup_isSome]
  by_cases hk : S k
  · rw [h.removed k hk]
    simp [hk]
  · rw [h.kept k hk]
    simp [hk]

theorem mem_children (h : Without table S table') {k : F} {b : Transition F} :
    b ∈ children table' k ↔ b ∈ children table k ∧ ¬ S k := by
  by_cases hk : S k
  · rw [children, h.removed k hk]
    simp [hk]
  · rw [children, h.kept k hk, children]
    simp [hk]

theorem child_iff (h : Without table S table') {p x : F} : Child table' p x ↔ ¬ S p ∧ Child table p x := by
  constructor
  · intro hc
    obtain ⟨b, hb, rfl⟩ := hc
    obtain ⟨hb, hp⟩ := h.mem_children.1 hb
    exact ⟨hp, b, hb, rfl⟩
  · intro hc
    obtain ⟨hp, b, hb, rfl⟩ := hc
    exact ⟨b, h.mem_children.2 ⟨hb, hp⟩, rfl⟩

theorem keys_length_le (h : Without table S table') : table'.keys.length ≤ table.keys.length :=
  (table'.keys_nodup.subperm fun _ hk => AList.mem_keys.1 (h.mem_iff.1 (AList.mem_keys.2 hk)).1).length_le

end Without

theorem Without.erase (table : Table F) (p : F) : Without table (· = p) (table.erase p) := by
  refine ⟨fun h hp => ?_, fun h hp => AList.lookup_erase_ne hp⟩
  subst hp
  exact AList.lookup_erase _ _

theorem Without.trans {table table₁ table₂ : Table F} {S R : F → Prop} (h : Without table S table₁)
    (h' : Without table₁ R table₂) : Without table (fun x => S x ∨ R x) table₂ := by
  refine ⟨fun x hx => ?_, fun x hx => ?_⟩
  · by_cases hr : R x
    · exact h'.removed x hr
    · rw [h'.kept x hr, h.removed x (hx.resolve_right hr)]
  · rw [h'.kept x fun hr => hx (Or.inr hr), h.kept x fun hs => hx (Or.inl hs)]

theorem Without.congr {table table' : Table F} {S R : F → Prop} (h : Without table S table') (hiff : ∀ x, S x ↔ R x) :
    Without table R table' :=
  ⟨fun x hx => h.removed x ((hiff x).2 hx), fun x hx => h.kept x fun hs => hx ((hiff x).1 hs)⟩

/-- The trees of the children that are left go after those in `S`. -/
theorem removeChildren_ok {fuel : Nat} {table : Table F} {p : F}
    (ih : ∀ (table : Table F) (h : F), table.keys.length < fuel →
      ∃ table', removeTree fuel table h = .ok table' ∧ Without table (Below table h) table') :
    ∀ {l : List (Transition F)} {S : F → Prop} {table₁ : Table F}, table₁.keys.length < fuel →
      Without table S table₁ → S p → (∀ x, S x → Below table p x) → (∀ b ∈ l, b ∈ children table p) →
      (∀ q h, S q → Child table q h → S h ∨ ∃ b ∈ l, b.stateHash = h) →
      ∃ table', Exn.fold (fun table child => removeTree fuel table child.stateHash) table₁ l = .ok table' ∧
        Without table (Below table p) table' := by
  intro l
  induction l with
  | nil =>
    intro S table₁ _ hwithout hp hsub _ hclosed
    refine ⟨table₁, rfl, hwithout.congr fun x => ⟨hsub x, fun hx => ?_⟩⟩
    induction hx with
    | refl => exact hp
    | @tail y z _ hc ihy =>
      rcases hclosed y z ihy hc with hz | ⟨b, hb, -⟩
      · exact hz
      · cases hb
  | cons c l ihl =>
    intro S table₁ hfuel hwithout hp hsub hl hclosed
    obtain ⟨table₂, hremove, hwithout₂⟩ := ih table₁ c.stateHash hfuel
    have hchild : ∀ q h, Child table₁ q h → Child table q h := fun q h hc => (hwithout.child_iff.1 hc).2
    have hsub' : ∀ x, S x ∨ Below table₁ c.stateHash x → Below table p x := by
      intro x hx
      rcases hx with hx | hx
      · exact hsub x hx
      · exact (ReflTransGen.mono hchild _ _ hx).head ⟨c, hl c List.mem_cons_self, rfl⟩
    have hclosed' : ∀ q h, S q ∨ Below table₁ c.stateHash q → Child table q h →
        (S h ∨ Below table₁ c.stateHash h) ∨ ∃ b ∈ l, b.stateHash = h := by
      intro q h hq hc
      by_cases hs : S q
      · rcases hclosed q h hs hc with hh | ⟨b, hb, heq⟩
        · exact Or.inl (Or.inl hh)
        · rcases List.mem_cons.1 hb with rfl | hb
          · exact Or.inl (Or.inr (heq ▸ .refl))
          · exact Or.inr ⟨b, hb, heq⟩
      · exact Or.inl (Or.inr ((hq.resolve_left hs).tail (hwithout.child_iff.2 ⟨hs, hc⟩)))
    obtain ⟨table', hfold, hrest⟩ := ihl (hwithout₂.keys_length_le.trans_lt hfuel) (hwithout.trans hwithout₂)
      (Or.inl hp) hsub' (fun b hb => hl b (List.mem_cons_of_mem _ hb)) hclosed'
    exact ⟨table', Exn.fold_cons_eq_ok.2 ⟨table₂, hremove, hfold⟩, hrest⟩

/-- With fuel for the keys, what is below `p` is removed. -/
theorem removeTree_ok : ∀ (fuel : Nat) (table : Table F) (p : F), table.keys.length < fuel →
    ∃ table', removeTree fuel table p = .ok table' ∧ Without table (Below table p) table' := by
  intro fuel
  induction fuel with
  | zero =>
    intro table p hfuel
    omega
  | succ fuel ih =>
    intro table p hfuel
    rw [removeTree]
    have herase := Without.erase table p
    cases hchildren : children table p with
    | nil =>
      refine ⟨table.erase p, rfl, herase.congr fun x => ⟨fun hx => hx ▸ .refl, fun hx => ?_⟩⟩
      rcases ReflTransGen.cases_head hx with rfl | ⟨c, ⟨b, hb, -⟩, -⟩
      · rfl
      · rw [hchildren] at hb
        cases hb
    | cons c l =>
      have hmem : p ∈ table.keys := AList.mem_keys.1 (mem_of_children (hchildren ▸ List.mem_cons_self))
      have hlen : (table.erase p).keys.length < fuel := by
        rw [AList.keys_erase, List.length_erase_of_mem hmem]
        have hpos := List.length_pos_of_mem hmem
        omega
      refine removeChildren_ok ih hlen herase rfl (fun x hx => hx ▸ .refl) (fun b hb => ?_) fun q h hq hc => ?_
      · rw [hchildren]
        exact hb
      · subst hq
        obtain ⟨b, hb, heq⟩ := hc
        rw [hchildren] at hb
        exact Or.inr ⟨b, hb, heq⟩

end Remove

end Mina.TransitionHandler
