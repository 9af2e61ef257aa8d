/-
Forests of blocks that are given by who is the child of whom, and rose trees.

In a forest every node has one parent, and a rank that grows from parent to
child keeps cycles out; an acyclic relation with finitely many parents has one
(`exists_rank`). The subtrees of two children of a node have then nothing in
common (`Forest.siblings_disjoint`), and a walk that keeps a stack of the
nodes still to visit comes to each node below its start once (`walk_ok`).
-/
import Mina.Base.Exn

universe u v

namespace Mina

open Relation

/-! ## Below -/

section Below

variable {K : Type u} {Child : K → K → Prop}

structure Forest (Child : K → K → Prop) (rank : K → Nat) : Prop where
  unique : ∀ p q h, Child p h → Child q h → p = q
  rank : ∀ p h, Child p h → rank p < rank h

namespace Forest

variable {rank : K → Nat}

theorem below_rank (hf : Forest Child rank) {a x : K} (h : ReflTransGen Child a x) : rank a ≤ rank x := by
  induction h with
  | refl => exact le_refl _
  | tail _ hc ih => exact ih.trans (hf.rank _ _ hc).le

theorem not_below_of_child (hf : Forest Child rank) {p h : K} (hc : Child p h) : ¬ ReflTransGen Child h p := by
  intro hb
  have hle := hf.below_rank hb
  have hlt := hf.rank p h hc
  omega

/-- What is above a node is a chain. -/
theorem below_total (hf : Forest Child rank) {a b x : K} (ha : ReflTransGen Child a x)
    (hb : ReflTransGen Child b x) : ReflTransGen Child a b ∨ ReflTransGen Child b a := by
  have hright : Relator.RightUnique (Function.swap Child) := fun h p q hp hq => hf.unique p q h hp hq
  rcases ReflTransGen.total_of_right_unique hright (reflTransGen_swap.2 ha) (reflTransGen_swap.2 hb) with h | h
  · exact Or.inr (reflTransGen_swap.1 h)
  · exact Or.inl (reflTransGen_swap.1 h)

/-- A child of a node above another child of it is that child. -/
theorem eq_of_siblings_below (hf : Forest Child rank) {p a b : K} (ha : Child p a) (hb : Child p b)
    (h : ReflTransGen Child a b) : a = b := by
  rcases ReflTransGen.cases_tail h with heq | ⟨q, hq, hc⟩
  · exact heq.symm
  · obtain rfl := hf.unique q p b hc hb
    exact absurd hq (hf.not_below_of_child ha)

theorem siblings_disjoint (hf : Forest Child rank) {p a b x : K} (ha : Child p a) (hb : Child p b)
    (hx : ReflTransGen Child a x) (hx' : ReflTransGen Child b x) : a = b := by
  rcases hf.below_total hx hx' with h | h
  · exact hf.eq_of_siblings_below ha hb h
  · exact (hf.eq_of_siblings_below hb ha h).symm

theorem mono {Child' : K → K → Prop} (hf : Forest Child rank) (h : ∀ p x, Child' p x → Child p x) :
    Forest Child' rank :=
  ⟨fun p q x hp hq => hf.unique p q x (h p x hp) (h q x hq), fun p x hp => hf.rank p x (h p x hp)⟩

end Forest

/-- An acyclic relation with finitely many parents has a rank: the number of
nodes above. -/
theorem exists_rank (l : List K) (hl : ∀ p h, Child p h → p ∈ l) (hacyclic : ∀ h, ¬ TransGen Child h h) :
    ∃ rank : K → Nat, ∀ p h, Child p h → rank p < rank h := by
  classical
  refine ⟨fun h => (l.toFinset.filter fun a => TransGen Child a h).card, fun p h hc => ?_⟩
  refine Finset.card_lt_card (Finset.ssubset_iff_of_subset ?_ |>.2 ⟨p, ?_, ?_⟩)
  · intro a ha
    obtain ⟨hmem, hp⟩ := Finset.mem_filter.1 ha
    exact Finset.mem_filter.2 ⟨hmem, hp.tail hc⟩
  · exact Finset.mem_filter.2 ⟨List.mem_toFinset.2 (hl p h hc), .single hc⟩
  · intro hp
    exact hacyclic p (Finset.mem_filter.1 hp).2

/-! ## A walk with a stack -/

/-- Visits the nodes of a stack, and pushes the children of each. -/
def walk (children : K → List K) : Nat → List K → List K → Exn (List K)
  | 0, _, _ => .error "out of fuel"
  | _ + 1, keep, [] => .ok keep
  | fuel + 1, keep, next :: stack => walk children fuel (next :: keep) (children next ++ stack)

/-- What holds in a walk from `root`. -/
structure Walking (Child : K → K → Prop) (root : K) (keep stack : List K) : Prop where
  nodup : (keep ++ stack).Nodup
  below : ∀ x ∈ keep ++ stack, ReflTransGen Child root x
  parent : ∀ x ∈ keep ++ stack, x = root ∨ ∃ p ∈ keep, Child p x
  children : ∀ p ∈ keep, ∀ x, Child p x → x ∈ keep ++ stack
  root : root ∈ keep ++ stack

section Walk

variable {rank : K → Nat} {children : K → List K} {root : K}

theorem Walking.push (hf : Forest Child rank) (hchildren : ∀ p x, x ∈ children p ↔ Child p x)
    (hnodup : ∀ p, (children p).Nodup) {next : K} {keep stack : List K}
    (h : Walking Child root keep (next :: stack)) : Walking Child root (next :: keep) (children next ++ stack) := by
  have hmem : ∀ x, x ∈ next :: keep ++ (children next ++ stack) ↔ x ∈ keep ++ next :: stack ∨ Child next x := by
    intro x
    simp only [List.mem_append, List.mem_cons, hchildren]
    tauto
  have hnext : next ∈ keep ++ next :: stack := by simp
  have hkeep : next ∉ keep := fun hin => (List.nodup_append'.1 h.nodup).2.2 hin List.mem_cons_self
  -- a child that is already there would have been pushed by another parent
  have hfresh : ∀ x, Child next x → x ∉ keep ++ next :: stack := by
    intro x hx hin
    rcases h.parent x hin with rfl | ⟨p, hp, hpx⟩
    · exact hf.not_below_of_child hx (h.below next hnext)
    · exact hkeep (hf.unique p next x hpx hx ▸ hp)
  refine ⟨?_, fun x hx => ?_, fun x hx => ?_, fun p hp x hx => (hmem x).2 ?_, (hmem root).2 (Or.inl h.root)⟩
  · have hperm : (next :: keep ++ (children next ++ stack)).Perm (children next ++ (keep ++ next :: stack)) := by
      refine List.Perm.trans ?_ List.perm_append_comm
      rw [List.append_assoc]
      refine List.perm_middle.symm.trans ?_
      exact List.Perm.append_left keep ((List.perm_append_comm).cons next)
    refine hperm.nodup_iff.2 (List.nodup_append'.2 ⟨hnodup next, h.nodup, fun x hx => ?_⟩)
    exact hfresh x ((hchildren next x).1 hx)
  · rcases (hmem x).1 hx with hx | hx
    · exact h.below x hx
    · exact (h.below next hnext).tail hx
  · rcases (hmem x).1 hx with hx | hx
    · exact (h.parent x hx).imp_right fun ⟨p, hp, hpx⟩ => ⟨p, List.mem_cons_of_mem _ hp, hpx⟩
    · exact Or.inr ⟨next, List.mem_cons_self, hx⟩
  · rcases List.mem_cons.1 hp with rfl | hp
    · exact Or.inr hx
    · exact Or.inl (h.children p hp x hx)

/-- A walk of a forest with finitely many children ends, with the nodes below
its start. -/
theorem walk_ok (hf : Forest Child rank) (hchildren : ∀ p x, x ∈ children p ↔ Child p x)
    (hnodup : ∀ p, (children p).Nodup) {l : List K} (hl : ∀ p x, Child p x → x ∈ l) (root : K) {fuel : Nat}
    (hfuel : l.length + 2 ≤ fuel) :
    ∃ keep, walk children fuel [] [root] = .ok keep ∧ ∀ x, x ∈ keep ↔ ReflTransGen Child root x := by
  have hgo : ∀ (fuel : Nat) (keep stack : List K), Walking Child root keep stack →
      l.length + 2 ≤ fuel + keep.length →
      ∃ kept, walk children fuel keep stack = .ok kept ∧ ∀ x, x ∈ kept ↔ ReflTransGen Child root x := by
    intro fuel
    induction fuel with
    | zero =>
      intro keep stack h hlen
      have hle : (keep ++ stack).length ≤ (root :: l).length := by
        refine (h.nodup.subperm fun x hx => ?_).length_le
        rcases h.parent x hx with rfl | ⟨p, -, hp⟩
        · exact List.mem_cons_self
        · exact List.mem_cons_of_mem _ (hl p x hp)
      rw [List.length_append, List.length_cons] at hle
      omega
    | succ fuel ih =>
      intro keep stack h hlen
      cases stack with
      | nil =>
        refine ⟨keep, rfl, fun x => ⟨fun hx => h.below x (List.mem_append_left _ hx), fun hx => ?_⟩⟩
        induction hx with
        | refl => exact (List.append_nil keep) ▸ h.root
        | tail _ hc ihx => exact (List.append_nil keep) ▸ h.children _ ihx _ hc
      | cons next stack =>
        refine ih (next :: keep) (children next ++ stack) (h.push hf hchildren hnodup) ?_
        rw [List.length_cons]
        omega
  refine hgo fuel [] [root] ⟨List.nodup_singleton _, fun x hx => ?_, fun x hx => ?_, fun p hp => ?_, ?_⟩ hfuel
  · rw [List.mem_singleton.1 hx]
  · exact Or.inl (List.mem_singleton.1 hx)
  · cases hp
  · exact List.mem_singleton_self _

end Walk

end Below

/-! ## Rose trees -/

inductive RoseTree (B : Type u) where
  | node (root : B) (branches : List (RoseTree B))

namespace RoseTree

variable {B : Type u} {K : Type v}

def root : RoseTree B → B
  | node b _ => b

mutual

/-- The blocks of a tree. -/
def toList : RoseTree B → List B
  | node b branches => b :: listToList branches

def listToList : List (RoseTree B) → List B
  | [] => []
  | t :: l => toList t ++ listToList l

end

@[simp] theorem listToList_cons (t : RoseTree B) (l : List (RoseTree B)) :
    listToList (t :: l) = t.toList ++ listToList l := by
  rw [listToList]

@[simp] theorem toList_node (b : B) (l : List (RoseTree B)) : (node b l).toList = b :: listToList l := by
  rw [toList]

/-- The root of the tree has the parent `p`, and every other block of it is
placed under its own parent. -/
inductive Placed (hash parent : B → K) : K → RoseTree B → Prop
  | node (b : B) (branches : List (RoseTree B)) : (∀ t ∈ branches, Placed hash parent (hash b) t) →
      Placed hash parent (parent b) (.node b branches)

end RoseTree

end Mina
