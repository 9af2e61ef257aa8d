/-
`common_ancestor` finds the lowest common ancestor, and `path_from_to` the
breadcrumbs below it.

The search goes up from both blocks in step and marks what it has visited. A
side is past the lowest common ancestor only after it has marked it, and until
both sides have come to it neither finds a mark of the other, so the first
mark that is found is the lowest common ancestor (`Side`).
-/
import Mina.Frontier.BestTipDiff

namespace Mina.Frontier

variable {F S : Type}

structure LowestCommon (table : Table F S) (x y c : F) : Prop where
  left : Below table c x
  right : Below table c y
  lowest : ∀ z, Below table z x → Below table z y → Below table z c

section Rooted

variable {table : Table F S} {root : F} (ht : Rooted table root)
include ht

theorem exists_lowestCommon {x y : F} (hx : Below table root x) (hy : Below table root y) :
    ∃ c, LowestCommon table x y c := by
  induction hx with
  | refl => exact ⟨root, .refl, hy, fun z hz _ => hz⟩
  | @tail p x hp he ih =>
    by_cases hxy : Below table x y
    · exact ⟨x, .refl, hxy, fun z hz _ => hz⟩
    · obtain ⟨c, hc⟩ := ih
      refine ⟨c, hc.left.tail he, hc.right, fun z hz hzy => ?_⟩
      rcases Relation.ReflTransGen.cases_tail hz with rfl | ⟨q, hq, hqx⟩
      · exact absurd hzy hxy
      · rw [ht.edge_unique hqx he] at hq
        exact hc.lowest z hq hzy

/-- Of two blocks above a block, one is above the other. -/
theorem Rooted.above_total {a b x : F} (ha : Below table a x) (hb : Below table b x) :
    Below table a b ∨ Below table b a := by
  induction ha with
  | refl => exact Or.inr hb
  | @tail y x hy he ih =>
    rcases Relation.ReflTransGen.cases_tail hb with rfl | ⟨z, hz, he'⟩
    · exact Or.inl (hy.tail he)
    · rw [ht.edge_unique he' he] at hz
      exact ih hz

/-- A block below `c` other than `c` is longer. -/
theorem Rooted.length_lt {c x : F} (hb : Below table c x) (hne : c ≠ x) : lengthAt table c < lengthAt table x := by
  rcases Relation.ReflTransGen.cases_tail hb with heq | ⟨y, hy, he⟩
  · exact absurd heq.symm hne
  · have hle := ht.below_length hy
    obtain ⟨n, -, hlen⟩ := ht.edge_some he
    omega

theorem Rooted.below_antisymm {a b : F} (hab : Below table a b) (hba : Below table b a) : a = b := by
  by_contra hne
  have hlt := ht.length_lt hab hne
  have hle := ht.below_length hba
  omega

end Rooted

/-! ## One side of the search -/

section Side

variable {table : Table F S} {root c x : F}

/-- A side of the search that has started at `x` is at `h`. -/
structure Side (table : Table F S) (c x : F) (ancestors : List F) (h : F) : Prop where
  above : Below table h x
  visited : ∀ z ∈ ancestors, Below table z x
  passed : Below table h c → h = c ∨ c ∈ ancestors
  before : ¬ Below table h c → ∀ z ∈ ancestors, ¬ Below table z c

/-- Where a side goes after `h`: to its parent, or it stays at the root. -/
def Parent (table : Table F S) (root h p : F) : Prop := h = root ∧ p = root ∨ h ≠ root ∧ Edge table p h

variable (ht : Rooted table root) (hc : Below table c x)
include ht hc

theorem Side.start : Side table c x [] x :=
  ⟨.refl, fun _ hz => (List.not_mem_nil hz).elim, fun hxc => Or.inl (ht.below_antisymm hxc hc),
    fun _ _ hz => (List.not_mem_nil hz).elim⟩

theorem Side.parent {ancestors : List F} {h p : F} (hs : Side table c x ancestors h) (hp : Parent table root h p) :
    Side table c x (h :: ancestors) p := by
  have hpx : Below table p x := by
    rcases hp with ⟨rfl, rfl⟩ | ⟨-, he⟩
    · exact hs.above
    · exact hs.above.head he
  have hph : Below table h c → Below table p c := fun hh => by
    rcases hp with ⟨rfl, rfl⟩ | ⟨-, he⟩
    · exact hh
    · exact hh.head he
  refine ⟨hpx, fun z hz => ?_, fun hpc => ?_, fun hpc z hz => ?_⟩
  · rcases List.mem_cons.1 hz with rfl | hz
    · exact hs.above
    · exact hs.visited z hz
  · by_cases hh : Below table h c
    · rcases hs.passed hh with rfl | hmem
      · exact Or.inr List.mem_cons_self
      · exact Or.inr (List.mem_cons_of_mem _ hmem)
    · -- the parent of a block below `c` is `c` or below it
      rcases hp with ⟨rfl, rfl⟩ | ⟨-, he⟩
      · exact absurd hpc hh
      · rcases ht.above_total hc hs.above with hch | hhc
        · rcases Relation.ReflTransGen.cases_tail hch with rfl | ⟨q, hq, hqh⟩
          · exact absurd .refl hh
          · rw [ht.edge_unique hqh he] at hq
            exact Or.inl (ht.below_antisymm hpc hq)
        · exact absurd hhc hh
  · have hh : ¬ Below table h c := fun hh => hpc (hph hh)
    rcases List.mem_cons.1 hz with rfl | hz
    · exact hh
    · exact hs.before hh z hz

end Side

/-! ## The search -/

/-- How far `h` is below `c`. -/
def depthBelow (table : Table F S) (c h : F) : Nat := lengthAt table h - lengthAt table c

section Search

variable [LinearOrder F] {t : T F S} {c x y : F} (ht : Rooted t.table t.root) (hc : LowestCommon t.table x y c)
  (hroot : Below t.table t.root c)
include ht

theorem parentUnlessRoot_ok {h : F} {b : Breadcrumb F S} (hb : At t h b) :
    ∃ p b', At t p b' ∧ parentUnlessRoot t b = .ok b' ∧ Parent t.table t.root h p := by
  obtain ⟨n, hn, rfl⟩ := hb
  have hkey := ht.keys h n hn
  rw [parentUnlessRoot, hkey]
  by_cases hh : h = t.root
  · rw [if_pos hh]
    exact ⟨t.root, n.breadcrumb, ⟨n, hh ▸ hn, rfl⟩, rfl, Or.inl ⟨hh, rfl⟩⟩
  · obtain ⟨hedge, -⟩ := ht.parent h n hn hh
    obtain ⟨m, hm, -⟩ := id hedge
    rw [if_neg hh]
    exact ⟨_, m.breadcrumb, ⟨m, hm, rfl⟩, At.find ⟨m, hm, rfl⟩, Or.inr ⟨hh, hedge⟩⟩

omit [LinearOrder F] in
theorem depthBelow_pos {h : F} (hcx : Below t.table c x) (hh : Below t.table h x) (hnot : ¬ Below t.table h c) :
    0 < depthBelow t.table c h := by
  have hbelow := (ht.above_total hcx hh).resolve_right hnot
  have hlt := ht.length_lt hbelow fun heq => hnot (heq ▸ .refl)
  rw [depthBelow]
  omega

include hroot

omit [LinearOrder F] in
theorem depthBelow_parent {h p : F} (hp : Parent t.table t.root h p) :
    depthBelow t.table c p ≤ depthBelow t.table c h - 1 := by
  rcases hp with ⟨rfl, rfl⟩ | ⟨-, he⟩
  · have hle := ht.below_length hroot
    rw [depthBelow]
    omega
  · obtain ⟨n, -, hlen⟩ := ht.edge_some he
    rw [depthBelow, depthBelow]
    omega

include hc

/-- With fuel for the way to the lowest common ancestor, it is found. -/
theorem searchAncestor_ok : ∀ (fuel : Nat) {a₁ a₂ : List F} {h₁ h₂ : F} {b₁ b₂ : Breadcrumb F S},
    At t h₁ b₁ → At t h₂ b₂ → Side t.table c x a₁ h₁ → Side t.table c y a₂ h₂ →
    ((∀ z ∈ a₁, ¬ Below t.table z c) ∨ ∀ z ∈ a₂, ¬ Below t.table z c) →
    depthBelow t.table c h₁ < fuel → depthBelow t.table c h₂ < fuel →
    searchAncestor t fuel a₁ a₂ b₁ b₂ = .ok c := by
  intro fuel
  induction fuel with
  | zero =>
    intro a₁ a₂ h₁ h₂ b₁ b₂ _ _ _ _ _ hfuel
    omega
  | succ fuel ih =>
    intro a₁ a₂ h₁ h₂ b₁ b₂ hb₁ hb₂ hs₁ hs₂ hfresh hfuel₁ hfuel₂
    have hkey₁ := hb₁.stateHash ht
    have hkey₂ := hb₂.stateHash ht
    rw [searchAncestor, hkey₁, hkey₂]
    simp only [List.contains_iff_mem]
    by_cases hboth : Below t.table h₁ c ∧ Below t.table h₂ c
    · have hmark₁ : c ∈ h₁ :: a₁ := (hs₁.passed hboth.1).elim (fun heq => heq ▸ List.mem_cons_self)
        (List.mem_cons_of_mem _)
      have hmark₂ : c ∈ h₂ :: a₂ := (hs₂.passed hboth.2).elim (fun heq => heq ▸ List.mem_cons_self)
        (List.mem_cons_of_mem _)
      rcases hfresh with hfresh | hfresh
      · obtain rfl : c = h₁ := (List.mem_cons.1 hmark₁).resolve_right fun hmem => hfresh c hmem .refl
        by_cases heq : h₂ = c
        · rw [heq, if_pos List.mem_cons_self]
        · have hnot : h₂ ∉ c :: a₁ := fun hmem =>
            hfresh h₂ ((List.mem_cons.1 hmem).resolve_left heq) hboth.2
          rw [if_neg hnot, if_pos hmark₂]
      · obtain rfl : c = h₂ := (List.mem_cons.1 hmark₂).resolve_right fun hmem => hfresh c hmem .refl
        rw [if_pos hmark₁]
    · have hnone₁ : ¬ Below t.table h₁ c → ∀ z ∈ h₁ :: a₁, ¬ Below t.table z c := fun hh z hz =>
        (List.mem_cons.1 hz).elim (fun heq => heq ▸ hh) (hs₁.before hh z)
      have hnone₂ : ¬ Below t.table h₂ c → ∀ z ∈ h₂ :: a₂, ¬ Below t.table z c := fun hh z hz =>
        (List.mem_cons.1 hz).elim (fun heq => heq ▸ hh) (hs₂.before hh z)
      have hvisited₁ : ∀ z ∈ h₁ :: a₁, Below t.table z x := fun z hz =>
        (List.mem_cons.1 hz).elim (fun heq => heq ▸ hs₁.above) (hs₁.visited z)
      have hvisited₂ : ∀ z ∈ h₂ :: a₂, Below t.table z y := fun z hz =>
        (List.mem_cons.1 hz).elim (fun heq => heq ▸ hs₂.above) (hs₂.visited z)
      -- a mark of the other side would be above the lowest common ancestor
      have hnot₂ : h₂ ∉ h₁ :: a₁ := fun hmem => by
        have hlow := hc.lowest h₂ (hvisited₁ h₂ hmem) hs₂.above
        exact hnone₁ (fun hh => hboth ⟨hh, hlow⟩) h₂ hmem hlow
      have hnot₁ : h₁ ∉ h₂ :: a₂ := fun hmem => by
        have hlow := hc.lowest h₁ hs₁.above (hvisited₂ h₁ hmem)
        exact hnone₂ (fun hh => hboth ⟨hlow, hh⟩) h₁ hmem hlow
      obtain ⟨p₁, b₁', hp₁, hok₁, hparent₁⟩ := parentUnlessRoot_ok ht hb₁
      obtain ⟨p₂, b₂', hp₂, hok₂, hparent₂⟩ := parentUnlessRoot_ok ht hb₂
      have hfuel : 0 < fuel := by
        rcases not_and_or.1 hboth with hh | hh
        · have := depthBelow_pos ht hc.left hs₁.above hh
          omega
        · have := depthBelow_pos ht hc.right hs₂.above hh
          omega
      have hdepth₁ := depthBelow_parent ht hroot hparent₁
      have hdepth₂ := depthBelow_parent ht hroot hparent₂
      rw [if_neg hnot₂, if_neg hnot₁, hok₁, Exn.andThen_ok, hok₂, Exn.andThen_ok]
      exact ih hp₁ hp₂ (hs₁.parent ht hc.left hparent₁) (hs₂.parent ht hc.right hparent₂)
        ((not_and_or.1 hboth).imp hnone₁ hnone₂) (by omega) (by omega)

omit hc hroot in
/-- **`common_ancestor` finds the lowest common ancestor.** With enough fuel
the search ends at it, for any two blocks of the tree. -/
theorem searchAncestor_lowest {bx b : Breadcrumb F S} (hx : At t x bx) (hy : At t y b) :
    ∃ c n, LowestCommon t.table x y c ∧ ∀ fuel, n < fuel → searchAncestor t fuel [] [] bx b = .ok c := by
  obtain ⟨nx, hnx, -⟩ := id hx
  obtain ⟨ny, hny, -⟩ := id hy
  obtain ⟨c, hc⟩ := exists_lowestCommon ht (ht.below_root hnx) (ht.below_root hny)
  have hroot : Below t.table t.root c := hc.lowest t.root (ht.below_root hnx) (ht.below_root hny)
  refine ⟨c, max (depthBelow t.table c x) (depthBelow t.table c y), hc, fun fuel hfuel => ?_⟩
  exact searchAncestor_ok ht hc hroot fuel hx hy (Side.start ht hc.left) (Side.start ht hc.right)
    (Or.inl fun z hz => (List.not_mem_nil hz).elim) ((le_max_left _ _).trans_lt hfuel)
    ((le_max_right _ _).trans_lt hfuel)

end Search

/-- The two blocks of the fork. -/
theorem searchAncestor_lowest_fork : ∃ c n, LowestCommon forkFrontier.table 3 2 c ∧
    ∀ fuel, n < fuel → searchAncestor forkFrontier fuel [] [] forkA forkB = .ok c :=
  searchAncestor_lowest forkFrontier_wellFormed.rooted ⟨_, rfl, rfl⟩ ⟨_, rfl, rfl⟩

/-! ## Paths -/

section Paths

variable [LinearOrder F] {t : T F S} (ht : Rooted t.table t.root) (hbound : Bounded t)
include ht hbound

omit [LinearOrder F] in
/-- No block is more than `max_length` below another. -/
theorem depthBelow_le {c h : F} {n m : Node F S} (hc : t.table c = some m) (hn : t.table h = some n) :
    depthBelow t.table c h ≤ t.maxLength := by
  obtain ⟨r, hr⟩ := ht.root_some
  have hle := hbound r hr h n hn
  have hroot := ht.below_length (ht.below_root hc)
  rw [lengthAt_eq hr] at hroot
  rw [depthBelow, lengthAt_eq hn]
  omega

theorem commonAncestor_ok {x y : F} {bx b : Breadcrumb F S} (hx : At t x bx) (hy : At t y b) :
    ∃ c n, LowestCommon t.table x y c ∧ t.table c = some n ∧ commonAncestor t bx b = .ok c := by
  obtain ⟨nx, hnx, -⟩ := id hx
  obtain ⟨ny, hny, -⟩ := id hy
  obtain ⟨c, hc⟩ := exists_lowestCommon ht (ht.below_root hnx) (ht.below_root hny)
  have hroot : Below t.table t.root c := hc.lowest t.root (ht.below_root hnx) (ht.below_root hny)
  obtain ⟨n, hn⟩ := ht.below_some ht.root_some hroot
  refine ⟨c, n, hc, hn, searchAncestor_ok ht hc hroot _ hx hy (Side.start ht hc.left) (Side.start ht hc.right)
    (Or.inl fun z hz => (List.not_mem_nil hz).elim) ?_ ?_⟩
  · exact Nat.lt_succ_of_le (depthBelow_le ht hbound hn hnx)
  · exact Nat.lt_succ_of_le (depthBelow_le ht hbound hn hny)

end Paths

/-- The chains of the blocks: each extends its parent's. -/
structure HasPaths (t : T F S) (paths : F → List (Breadcrumb F S)) : Prop where
  step : ∀ h n, t.table h = some n → h ≠ t.root → paths h = paths n.breadcrumb.parentHash ++ [n.breadcrumb]
  last : ∀ h n, t.table h = some n → (paths h).getLast? = some n.breadcrumb

section PathFromTo

variable [LinearOrder F] {t : T F S} (ht : Rooted t.table t.root) {paths : F → List (Breadcrumb F S)}
  (hpaths : HasPaths t paths) {c : F} {nc : Node F S} (hc : t.table c = some nc)
include ht hpaths hc

/-- The blocks of `x`'s chain that come after that of `c`. -/
theorem pathFromTo_ok : ∀ (fuel : Nat) {x : F} {bx : Breadcrumb F S} (acc : List (Breadcrumb F S)), At t x bx →
    Below t.table c x → depthBelow t.table c x < fuel →
    ∃ l, pathFromTo t nc.breadcrumb fuel bx acc = .ok (l ++ acc) ∧ paths x = paths c ++ l ∧
      ∀ b ∈ l, Below t.table c b.stateHash ∧ b.stateHash ≠ c ∧ Below t.table b.stateHash x := by
  have hkeyc := ht.keys c nc hc
  intro fuel
  induction fuel with
  | zero =>
    intro x bx acc _ _ hfuel
    omega
  | succ fuel ih =>
    intro x bx acc hx hbelow hfuel
    have hkey := hx.stateHash ht
    rw [pathFromTo, hkey, hkeyc]
    by_cases heq : x = c
    · subst heq
      rw [if_pos rfl]
      exact ⟨[], rfl, (List.append_nil _).symm, fun b hb => (List.not_mem_nil hb).elim⟩
    · have hroot : x ≠ t.root := fun hroot => by
        rw [hroot] at heq hbelow
        exact heq (ht.below_antisymm (ht.below_root hc) hbelow)
      obtain ⟨n, hn, rfl⟩ := id hx
      obtain ⟨hedge, -⟩ := ht.parent x n hn hroot
      obtain ⟨m, hm, -⟩ := id hedge
      have hcp : Below t.table c n.breadcrumb.parentHash := by
        rcases Relation.ReflTransGen.cases_tail hbelow with hxc | ⟨q, hq, hqx⟩
        · exact absurd hxc heq
        · rwa [ht.edge_unique hqx hedge] at hq
      obtain ⟨_, -, hlen⟩ := ht.edge_some hedge
      have hle := ht.below_length hcp
      obtain ⟨l, hl, hpath, hmem⟩ := ih (n.breadcrumb :: acc) ⟨m, hm, rfl⟩ hcp (by
        rw [depthBelow] at hfuel ⊢
        omega)
      rw [if_neg heq, At.find ⟨m, hm, rfl⟩, Exn.andThen_ok, hl]
      refine ⟨l ++ [n.breadcrumb], ?_, ?_, fun b hb => ?_⟩
      · rw [List.append_assoc]
        rfl
      · rw [hpaths.step x n hn hroot, hpath, List.append_assoc]
      · rcases List.mem_append.1 hb with hb | hb
        · obtain ⟨hcb, hne, hbp⟩ := hmem b hb
          exact ⟨hcb, hne, hbp.tail hedge⟩
        · rw [List.mem_singleton.1 hb, hkey]
          exact ⟨hbelow, heq, .refl⟩

end PathFromTo

end Mina.Frontier
