/-
The reference table of the work statements over whole runs.

The table counts the statements of all blocks that were ever added, less those
of the garbage nodes. The old root of a root move is no garbage node, and
nothing takes its statements off (`Counted`). So the table tracks the frontier
as long as each root that was moved away had no work statements.
-/
import Mina.Base.RefCount
import Mina.Frontier.SnarkPoolRefcount

namespace Mina.Frontier.SnarkPoolRefcount

open Consensus RefCount

variable {F S W : Type} [LinearOrder F] [DecidableEq W]

/-! ## The table -/

section Table

variable {acc : (W → Option Int) × Bool} {l : List W}

theorem addWork_counts (work : W) (h : Counts acc.1 l) : Counts (addWork acc work).1 (work :: l) := by
  have hwork := h work
  unfold addWork
  split
  next count hcount =>
    refine h.cons ?_
    rw [hcount] at hwork
    rw [entry_succ, entry_eq_some hwork.symm]
  next hnone =>
    refine h.cons ?_
    rw [List.count_eq_zero.2 fun hmem => ?_]
    · rfl
    · have hsome := (h.isSome work).2 hmem
      rw [hnone] at hsome
      cases hsome

theorem addToTable_counts {table : W → Option Int} (works : List W) (h : Counts table l) :
    Counts (addToTable table works).1 (works ++ l) := by
  have hfold : ∀ (works : List W) {l : List W} {acc : (W → Option Int) × Bool}, Counts acc.1 l →
      Counts (works.foldl addWork acc).1 (works ++ l) := by
    intro works
    induction works with
    | nil => exact fun h => h
    | cons work works ih => exact fun h => (ih (addWork_counts work h)).perm List.perm_middle
  exact hfold works h

theorem removeWork_counts {work : W} (h : Counts acc.1 (work :: l)) :
    ∃ acc', removeWork acc work = .ok acc' ∧ Counts acc'.1 l := by
  have hwork := h work
  rw [List.count_cons_self, entry_succ] at hwork
  unfold removeWork
  split
  next hone =>
    refine ⟨_, rfl, h.tail ?_⟩
    rw [hone, Option.some.injEq] at hwork
    have hzero : l.count work = 0 := by omega
    rw [hzero]
    rfl
  next count hne hcount =>
    refine ⟨_, rfl, h.tail ?_⟩
    rw [hcount, Option.some.injEq] at hwork
    obtain ⟨n, hn⟩ : ∃ n, l.count work = n + 1 := Nat.exists_eq_succ_of_ne_zero fun hzero => by
      refine hne ?_
      rw [hzero] at hwork
      exact hwork
    rw [hn, entry_succ, hwork, hn]
    push_cast
    rw [add_sub_cancel_right]
  next hnone =>
    rw [hnone] at hwork
    cases hwork

theorem removeFromTable_counts {table : W → Option Int} (works : List W) (h : Counts table (works ++ l)) :
    ∃ r, removeFromTable table works = .ok r ∧ Counts r.1 l := by
  have hfold : ∀ (works : List W) {acc : (W → Option Int) × Bool}, Counts acc.1 (works ++ l) →
      ∃ r, Exn.fold removeWork acc works = .ok r ∧ Counts r.1 l := by
    intro works
    induction works with
    | nil => exact fun {acc} h => ⟨acc, rfl, h⟩
    | cons work works ih =>
      intro acc h
      obtain ⟨acc', hstep, h'⟩ := removeWork_counts h
      rw [Exn.fold, hstep, Exn.andThen_ok]
      exact ih h'
  exact hfold works h

end Table

/-! ## The blocks of the frontier -/

/-- The breadcrumbs of the frontier, each once. -/
structure Blocks (t : Frontier.T F S) (blocks : List (Breadcrumb F S)) : Prop where
  nodup : (blocks.map (·.stateHash)).Nodup
  mem : ∀ b, b ∈ blocks ↔ At t b.stateHash b

section Blocks

variable {t t' : Frontier.T F S} {blocks : List (Breadcrumb F S)} {b : Breadcrumb F S} {r p : Node F S}

omit [LinearOrder F] in
theorem Blocks.single {root : Breadcrumb F S} (hroot : ∀ h c, At t h c ↔ h = root.stateHash ∧ c = root) :
    Blocks t [root] := by
  refine ⟨List.nodup_singleton _, fun c => ?_⟩
  rw [List.mem_singleton, hroot]
  exact ⟨fun h => ⟨congrArg _ h, h⟩, And.right⟩

omit [LinearOrder F] in
theorem Blocks.mem_map (h : Blocks t blocks) (hrooted : Rooted t.table t.root) (x : F) :
    x ∈ blocks.map (·.stateHash) ↔ (t.table x).isSome = true := by
  rw [List.mem_map]
  constructor
  · rintro ⟨c, hc, rfl⟩
    obtain ⟨n, hn, -⟩ := (h.mem c).1 hc
    rw [hn]
    rfl
  · intro hsome
    obtain ⟨n, hn⟩ := Option.isSome_iff_exists.1 hsome
    have hkey := hrooted.keys x n hn
    exact ⟨n.breadcrumb, (h.mem _).2 ⟨n, hkey ▸ hn, rfl⟩, hkey⟩

/-- The blocks after a step are the new one and those that are left of the old
ones. -/
theorem Blocks.kept (h : Blocks t blocks) (hfresh : t.table b.stateHash = none)
    (hp : t.table b.parentHash = some p) {a : F} (hsub : Subtree (addLeaf t.table b p) a t'.table)
    (hnew : At t' b.stateHash b) :
    Blocks t' (b :: blocks.filter fun c => (t'.table c.stateHash).isSome) := by
  have hne : ∀ c ∈ blocks, c.stateHash ≠ b.stateHash := fun c hc heq => by
    obtain ⟨n, hn, -⟩ := (h.mem c).1 hc
    rw [heq, hfresh] at hn
    cases hn
  refine ⟨?_, fun c => ?_⟩
  · rw [List.map_cons, List.nodup_cons]
    refine ⟨fun hmem => ?_, (List.filter_sublist.map _).nodup h.nodup⟩
    obtain ⟨c, hc, heq⟩ := List.mem_map.1 hmem
    exact hne c (List.mem_filter.1 hc).1 heq
  · rw [List.mem_cons, List.mem_filter, h.mem]
    constructor
    · rintro (rfl | ⟨⟨n, hn, rfl⟩, hsome⟩)
      · exact hnew
      · obtain ⟨n', hn'⟩ := Option.isSome_iff_exists.1 hsome
        obtain ⟨m, hm, hbc, -⟩ := addLeaf_some hfresh hp hn
        have := (hsub.some_iff.1 hn').2
        rw [hm] at this
        cases this
        exact ⟨_, hn', hbc⟩
    · rintro ⟨n', hn', rfl⟩
      rcases addLeaf_cases hfresh hp (hsub.some_iff.1 hn').2 with ⟨-, hnode⟩ | ⟨m, hm, hbc, -⟩
      · exact .inl (congrArg Node.breadcrumb hnode)
      · exact .inr ⟨⟨m, hm, hbc.symm⟩, by rw [hn']; rfl⟩

omit [LinearOrder F] in
theorem mem_garbageNodes {garbage : List F} {c : Breadcrumb F S} (hrooted : Rooted t.table t.root) :
    c ∈ garbageNodes t garbage ↔ c.stateHash ∈ garbage ∧ At t c.stateHash c := by
  rw [garbageNodes, List.mem_filterMap]
  constructor
  · rintro ⟨x, hx, hfind⟩
    obtain ⟨n, hn, rfl⟩ := Option.map_eq_some_iff.1 hfind
    rw [hrooted.keys x n hn]
    exact ⟨hx, n, hn, rfl⟩
  · rintro ⟨hx, n, hn, hbc⟩
    exact ⟨_, hx, by rw [find, hn, Option.map_some, hbc]⟩

omit [LinearOrder F] in
theorem nodup_garbageNodes {garbage : List F} (hrooted : Rooted t.table t.root) (hnodup : garbage.Nodup) :
    (garbageNodes t garbage).Nodup := by
  refine hnodup.filterMap fun x y c hx hy => ?_
  obtain ⟨n, hn, rfl⟩ := Option.map_eq_some_iff.1 hx
  obtain ⟨m, hm, heq⟩ := Option.map_eq_some_iff.1 hy
  rw [← hrooted.keys x n hn, ← hrooted.keys y m hm, heq]

/-- A root move leaves all blocks but the garbage and the old root. -/
theorem Blocks.split (h : Blocks t blocks) (hwf : WellFormed t) (hfresh : t.table b.stateHash = none)
    (hp : t.table b.parentHash = some p) (hr : t.table t.root = some r) {heir : F} {n : Node F S}
    (hheir : Heir t b heir n) {table' : Table F S} (hsub : Subtree (addLeaf t.table b p) heir table') {garbage : List F}
    (hnodup : garbage.Nodup) (hmem : ∀ x, x ∈ garbage ↔ IsGarbage t.table t.root heir x) :
    blocks.Perm (garbageNodes t garbage ++
      (r.breadcrumb :: blocks.filter fun c => (table' c.stateHash).isSome)) := by
  have hrooted := hwf.rooted
  have hrootkey : r.breadcrumb.stateHash = t.root := hrooted.keys _ _ hr
  have hkept : ∀ {c}, At t c.stateHash c → ((table' c.stateHash).isSome = true ↔ Below t.table heir c.stateHash) :=
    fun {c} ⟨m, hm, _⟩ => by
      rw [moved_some hfresh hp hwf hheir hsub]
      refine or_iff_left fun heq => ?_
      rw [heq, hfresh] at hm
      cases hm
  have hroot : At t r.breadcrumb.stateHash r.breadcrumb := ⟨r, hrootkey ▸ hr, rfl⟩
  have hgarbageRoot : ¬ IsGarbage t.table t.root heir t.root := fun ⟨s, hs, _, hb⟩ =>
    hrooted.not_below_of_edge hs hb
  have hgarbageKept : ∀ x, IsGarbage t.table t.root heir x → ¬ Below t.table heir x := fun x ⟨s, hs, hne, hb⟩ hx =>
    hne (hrooted.siblings_disjoint hs hheir.edge hb hx)
  refine (List.perm_ext_iff_of_nodup h.nodup.of_map ?_).2 fun c => ?_
  · refine (nodup_garbageNodes hrooted hnodup).append (List.nodup_cons.2 ⟨fun hc => ?_, h.nodup.of_map.filter _⟩)
      fun c hc hc' => ?_
    · have hbelow := (hkept hroot).1 (List.mem_filter.1 hc).2
      rw [hrootkey] at hbelow
      exact hrooted.not_below_of_edge hheir.edge hbelow
    · obtain ⟨hc, hat⟩ := (mem_garbageNodes hrooted).1 hc
      rw [hmem] at hc
      rcases List.mem_cons.1 hc' with rfl | hc'
      · rw [hrootkey] at hc
        exact hgarbageRoot hc
      · exact hgarbageKept _ hc ((hkept hat).1 (List.mem_filter.1 hc').2)
  · rw [List.mem_append, mem_garbageNodes hrooted, List.mem_cons, List.mem_filter, h.mem, hmem]
    constructor
    · intro hat
      obtain ⟨m, hm, hbc⟩ := id hat
      by_cases hc : c.stateHash = t.root
      · rw [hc, hr] at hm
        cases hm
        exact .inr (.inl hbc.symm)
      · obtain ⟨s, hs, hb⟩ := hrooted.exists_branch hm hc
        by_cases heq : s = heir
        · rw [heq] at hb
          exact .inr (.inr ⟨hat, (hkept hat).2 hb⟩)
        · exact .inl ⟨⟨s, hs, heq, hb⟩, hat⟩
    · rintro (⟨-, hat⟩ | rfl | ⟨hat, -⟩)
      · exact hat
      · exact hroot
      · exact hat

end Blocks

/-! ## Runs -/

variable (constants : ConsensusConstants) (blake2 : String → String) (getWork : Breadcrumb F S → List W)

/-- The frontier and the extension's state in a run, with the roots that were
moved away. -/
inductive Follows : Frontier.T F S → T W → List (Breadcrumb F S) → Prop
  | create {root : Breadcrumb F S} {protocolStates : List (F × S)} {maxLength : Nat} {frontier : Frontier.T F S}
      {t : T W} {view : View W} : Frontier.create root protocolStates maxLength = .ok frontier →
      create getWork frontier = .ok (t, view) → Follows frontier t []
  | add {frontier frontier' : Frontier.T F S} {t t' : T W} {oldRoots : List (Breadcrumb F S)} {b : Breadcrumb F S}
      {pairs : List (Diff F S × Mutant F)} {view : Option (View W)} : Follows frontier t oldRoots →
      addBreadcrumbExn constants blake2 frontier b = .ok (frontier', pairs) →
      handleDiffs getWork frontier frontier' t pairs = .ok (t', view) →
      Follows frontier' t'
        (if frontier'.root = frontier.root then oldRoots else (find frontier frontier.root).toList ++ oldRoots)

/-- The keys are the work statements of the blocks in the frontier, and if none
has repeated statements, the counts are the numbers of these blocks. -/
structure Tracks (frontier : Frontier.T F S) (t : T W) : Prop where
  keys : ∀ w, (t.refcountTable w).isSome = true ↔
    ∃ h n, frontier.table h = some n ∧ w ∈ getWork n.breadcrumb
  counts : (∀ h n, frontier.table h = some n → (getWork n.breadcrumb).Nodup) →
    ∀ w c, t.refcountTable w = some c → c = {h | ∃ n, frontier.table h = some n ∧ w ∈ getWork n.breadcrumb}.ncard

/-- What holds in every run: the table counts the statements of the blocks in
the frontier and of the old roots. -/
structure Counted (frontier : Frontier.T F S) (t : T W) (oldRoots : List (Breadcrumb F S)) : Prop where
  rooted : Rooted frontier.table frontier.root
  bounded : Bounded frontier
  counts : ∃ blocks, Blocks frontier blocks ∧ Counts t.refcountTable ((blocks ++ oldRoots).flatMap getWork)

section Step

variable {frontier frontier' : Frontier.T F S} {t : T W} {oldRoots : List (Breadcrumb F S)} {b : Breadcrumb F S}
  {pairs : List (Diff F S × Mutant F)}

omit [LinearOrder F] in
/-- A change of the best tip leaves the reference table. -/
theorem handleDiffs_best (frontier frontier' : Frontier.T F S) (acc : T W × DiffUpdate) (oldBestTip newBestTip : F)
    (status : Hooks.SelectStatus) : ∃ acc', Exn.fold (handleDiff getWork frontier frontier') acc (bestPairs oldBestTip newBestTip status) = .ok acc' ∧
      acc'.1.refcountTable = acc.1.refcountTable := by
  cases status <;> exact ⟨_, rfl, rfl⟩

omit [LinearOrder F] in
/-- The nodes of the garbage are taken off. -/
theorem removeNodes_counts {l : List W} : ∀ (nodes : List (Breadcrumb F S)) (acc : (W → Option Int) × Nat),
    Counts acc.1 (nodes.flatMap getWork ++ l) →
      ∃ acc', Exn.fold (removeNode getWork) acc nodes = .ok acc' ∧ Counts acc'.1 l
  | [], acc, h => ⟨acc, rfl, h⟩
  | node :: nodes, acc, h => by
    rw [List.flatMap_cons, List.append_assoc] at h
    obtain ⟨r, hr, h⟩ := removeFromTable_counts (getWork node) h
    obtain ⟨acc', hacc', h⟩ := removeNodes_counts nodes (r.1, acc.2 + if r.2 then 1 else 0) h
    refine ⟨acc', ?_, h⟩
    rw [Exn.fold, removeNode, hr, Exn.andThen_ok, Exn.andThen_ok]
    exact hacc'

omit [LinearOrder F] in
/-- A step that leaves the root adds the statements of the new block. -/
theorem handleDiffs_newNode (oldBestTip newBestTip : F) (status : Hooks.SelectStatus) :
    ∃ t' view, handleDiffs getWork frontier frontier' t
        ((.newNode b, .newNode) :: bestPairs oldBestTip newBestTip status) = .ok (t', view) ∧
      t'.refcountTable = (addToTable t.refcountTable (getWork b)).1 := by
  obtain ⟨acc', hacc', htable⟩ := handleDiffs_best getWork frontier frontier'
    ({ t with refcountTable := (addToTable t.refcountTable (getWork b)).1 },
      { numRemoved := 0, isAdded := false || (addToTable t.refcountTable (getWork b)).2 }) oldBestTip newBestTip status
  rw [handleDiffs, Exn.fold, handleDiff, Exn.andThen_ok, hacc', Exn.andThen_ok]
  exact ⟨acc'.1, _, rfl, htable⟩

omit [LinearOrder F] in
/-- One that moves the root also takes the garbage off. -/
theorem handleDiffs_rootTransitioned {r : (W → Option Int) × Nat} {garbage : List F}
    (hr : Exn.fold (removeNode getWork) ((addToTable t.refcountTable (getWork b)).1, 0)
      (garbageNodes frontier garbage) = .ok r)
    (newRoot : F) (states : List (F × S)) (emitted : Bool) (oldRoot oldBestTip newBestTip : F)
    (status : Hooks.SelectStatus) :
    ∃ t' view, handleDiffs getWork frontier frontier' t ((.newNode b, .newNode) ::
        (.rootTransitioned newRoot states garbage emitted, .rootTransitioned oldRoot) ::
          bestPairs oldBestTip newBestTip status) = .ok (t', view) ∧ t'.refcountTable = r.1 := by
  obtain ⟨acc', hacc', htable⟩ := handleDiffs_best getWork frontier frontier' ({ t with refcountTable := r.1 },
    { numRemoved := 0 + r.2, isAdded := false || (addToTable t.refcountTable (getWork b)).2 }) oldBestTip newBestTip
    status
  rw [handleDiffs, Exn.fold, handleDiff, Exn.andThen_ok, Exn.fold, handleDiff, hr, Exn.andThen_ok, Exn.andThen_ok,
    hacc', Exn.andThen_ok]
  exact ⟨acc'.1, _, rfl, htable⟩

/-- The extension follows a step, and what holds in every run holds after it. -/
theorem Counted.step (h : Counted getWork frontier t oldRoots)
    (hadd : addBreadcrumbExn constants blake2 frontier b = .ok (frontier', pairs)) :
    ∃ t' view, handleDiffs getWork frontier frontier' t pairs = .ok (t', view) ∧ Counted getWork frontier' t'
      (if frontier'.root = frontier.root then oldRoots else (find frontier frontier.root).toList ++ oldRoots) := by
  obtain ⟨blocks, hblocks, hcounts⟩ := h.counts
  obtain ⟨r, p, tip, status, hr, hfresh, hp, ⟨ntip, hntip, -⟩, -, hadded⟩ :=
    addBreadcrumbExn_cases constants blake2 h.rooted h.bounded hadd
  have hwf : WellFormed frontier := ⟨h.rooted, ⟨ntip, hntip⟩, h.bounded⟩
  have hadd' := addToTable_counts (getWork b) hcounts
  have hsub := hadded.subtree h.rooted hfresh hp
  have hnew := hadded.new_at h.rooted hfresh hp
  have hkept := hblocks.kept hfresh hp hsub hnew
  have hrooted' := hadded.rooted h.rooted hfresh hp
  have hbounded' := hadded.bounded h.rooted hfresh hp h.bounded hr
  cases hadded with
  | short hshort =>
    obtain ⟨t', view, hview, htable⟩ := handleDiffs_newNode getWork frontier.bestTip b.stateHash status
    refine ⟨t', view, hview, hrooted', hbounded', _, hkept, ?_⟩
    have hall : blocks.filter (fun c => (addLeaf frontier.table b p c.stateHash).isSome) = blocks :=
      List.filter_eq_self.2 fun c hc => by
        obtain ⟨n, hn, -⟩ := (hblocks.mem c).1 hc
        obtain ⟨n', hn', -⟩ := addLeaf_some hfresh hp hn
        rw [hn']
        rfl
    rw [if_pos rfl, htable, hall]
    exact hadd'
  | @long heir n table' m states garbage hlong hheir hsub' hnodup hmem =>
    have hsplit := hblocks.split hwf hfresh hp hr hheir hsub' hnodup hmem
    set kept := blocks.filter fun c => (table' c.stateHash).isSome
    have hperm : (b :: (blocks ++ oldRoots)).Perm
        (garbageNodes frontier garbage ++ ((b :: kept) ++ (r.breadcrumb :: oldRoots))) := by
      rw [← Multiset.coe_eq_coe] at hsplit ⊢
      simp only [← Multiset.coe_add, ← Multiset.cons_coe] at hsplit ⊢
      rw [hsplit]
      simp only [← Multiset.singleton_add]
      abel
    have hcounts' := hadd'.perm (hperm.flatMap_right getWork)
    rw [List.flatMap_append] at hcounts'
    obtain ⟨acc, hacc, hcounts'⟩ := removeNodes_counts getWork (garbageNodes frontier garbage) (_, 0) hcounts'
    obtain ⟨t', view, hview, htable⟩ := handleDiffs_rootTransitioned getWork hacc heir states
      n.breadcrumb.justEmittedAProof frontier.root frontier.bestTip b.stateHash status
    refine ⟨t', view, hview, hrooted', hbounded', _, hkept, ?_⟩
    have hmoved : heir ≠ frontier.root := fun heq =>
      h.rooted.not_below_of_edge hheir.edge (heq ▸ .refl)
    rw [if_neg hmoved, htable, find, hr, Option.map_some, Option.toList_some]
    exact hcounts'

end Step

theorem Counted.create {root : Breadcrumb F S} {protocolStates : List (F × S)} {maxLength : Nat}
    {frontier : Frontier.T F S} {t : T W} {view : View W}
    (hfrontier : Frontier.create root protocolStates maxLength = .ok frontier)
    (h : SnarkPoolRefcount.create getWork frontier = .ok (t, view)) : Counted getWork frontier t [] := by
  have hwf := create_wellFormed hfrontier
  obtain ⟨m, -, hfrontier⟩ := Exn.andThen_eq_ok.1 hfrontier
  cases hfrontier
  obtain ⟨c, hc, h⟩ := Exn.andThen_eq_ok.1 h
  cases h
  obtain ⟨n, hn, hc⟩ := Exn.andThen_eq_ok.1 hc
  cases hc
  obtain ⟨-, rfl⟩ := single_some (findExn_eq_ok.1 hn)
  refine ⟨hwf.rooted, hwf.bounded, [root], Blocks.single fun x c => ⟨?_, ?_⟩, ?_⟩
  · rintro ⟨n, hn, rfl⟩
    obtain ⟨hx, rfl⟩ := single_some hn
    exact ⟨hx, rfl⟩
  · rintro ⟨rfl, rfl⟩
    exact ⟨_, single_root _, rfl⟩
  · exact (addToTable_counts (getWork root) (l := []) fun w => rfl).perm (by simp)

theorem Follows.counted {frontier : Frontier.T F S} {t : T W} {oldRoots : List (Breadcrumb F S)}
    (h : Follows constants blake2 getWork frontier t oldRoots) : Counted getWork frontier t oldRoots := by
  induction h with
  | create hfrontier h => exact .create getWork hfrontier h
  | add _ hadd hview ih =>
    obtain ⟨t', view, hview', h⟩ := ih.step constants blake2 getWork hadd
    rw [hview] at hview'
    cases hview'
    exact h

section Tracks

variable {frontier : Frontier.T F S} {blocks : List (Breadcrumb F S)}

omit [LinearOrder F] [DecidableEq W] in
theorem Blocks.mem_flatMap (h : Blocks frontier blocks) (hrooted : Rooted frontier.table frontier.root) (w : W) :
    w ∈ blocks.flatMap getWork ↔ ∃ x n, frontier.table x = some n ∧ w ∈ getWork n.breadcrumb := by
  rw [List.mem_flatMap]
  constructor
  · rintro ⟨c, hc, hw⟩
    obtain ⟨n, hn, rfl⟩ := (h.mem c).1 hc
    exact ⟨_, n, hn, hw⟩
  · rintro ⟨x, n, hn, hw⟩
    exact ⟨n.breadcrumb, (h.mem _).2 ⟨n, by rw [hrooted.keys x n hn, hn], rfl⟩, hw⟩

omit [LinearOrder F] in
/-- Without repeated statements, each block counts once. -/
theorem Blocks.count_flatMap (h : Blocks frontier blocks) (hrooted : Rooted frontier.table frontier.root)
    (hnodup : ∀ x n, frontier.table x = some n → (getWork n.breadcrumb).Nodup) (w : W) :
    (blocks.flatMap getWork).count w = {x | ∃ n, frontier.table x = some n ∧ w ∈ getWork n.breadcrumb}.ncard := by
  classical
  have hset : {x | ∃ n, frontier.table x = some n ∧ w ∈ getWork n.breadcrumb} =
      ((blocks.filter fun c => w ∈ getWork c).map (·.stateHash)).toFinset := by
    ext x
    rw [Set.mem_ofPred_eq, Finset.mem_coe, List.mem_toFinset, List.mem_map]
    constructor
    · rintro ⟨n, hn, hw⟩
      have hkey := hrooted.keys x n hn
      exact ⟨n.breadcrumb, List.mem_filter.2 ⟨(h.mem _).2 ⟨n, hkey ▸ hn, rfl⟩, decide_eq_true hw⟩, hkey⟩
    · rintro ⟨c, hc, rfl⟩
      obtain ⟨hc, hw⟩ := List.mem_filter.1 hc
      obtain ⟨n, hn, rfl⟩ := (h.mem c).1 hc
      exact ⟨n, hn, of_decide_eq_true hw⟩
  rw [hset, Set.ncard_coe_finset, List.toFinset_card_of_nodup ((List.filter_sublist.map _).nodup h.nodup),
    List.length_map, ← List.countP_eq_length_filter]
  refine count_flatMap_of_nodup w fun c hc => ?_
  obtain ⟨n, hn, rfl⟩ := (h.mem c).1 hc
  exact hnodup _ n hn

end Tracks

/-- **The reference table tracks the frontier exactly as long as no root with
work statements is moved away.** In every run the table can follow the next
step; it tracks the frontier if no old root had a work statement; and if no
block has repeated statements, only then. -/
theorem tracks_iff {frontier : Frontier.T F S} {t : T W} {oldRoots : List (Breadcrumb F S)}
    (hrun : Follows constants blake2 getWork frontier t oldRoots) :
    (∀ b frontier' pairs, addBreadcrumbExn constants blake2 frontier b = .ok (frontier', pairs) →
      ∃ t' view, handleDiffs getWork frontier frontier' t pairs = .ok (t', view)) ∧
    ((∀ r ∈ oldRoots, getWork r = []) → Tracks getWork frontier t) ∧
    ((∀ h n, frontier.table h = some n → (getWork n.breadcrumb).Nodup) → Tracks getWork frontier t →
      ∀ r ∈ oldRoots, getWork r = []) := by
  have hcounted := hrun.counted
  obtain ⟨blocks, hblocks, hcounts⟩ := hcounted.counts
  rw [List.flatMap_append] at hcounts
  refine ⟨fun b frontier' pairs hadd => ?_, fun hroots => ?_, fun hnodup htracks r hr => ?_⟩
  · obtain ⟨t', view, hview, -⟩ := hcounted.step constants blake2 getWork hadd
    exact ⟨t', view, hview⟩
  · rw [List.flatMap_eq_nil_iff.2 hroots, List.append_nil] at hcounts
    refine ⟨fun w => ?_, fun hnodup w c hc => ?_⟩
    · rw [hcounts.isSome, hblocks.mem_flatMap getWork hcounted.rooted]
    · rw [hcounts w] at hc
      rw [entry_eq_some hc, hblocks.count_flatMap getWork hcounted.rooted hnodup]
  · refine List.eq_nil_iff_forall_not_mem.2 fun w hw => ?_
    -- the statement of an old root is counted beyond the blocks of the frontier
    have hpos : 0 < (oldRoots.flatMap getWork).count w := List.count_pos_iff.2 (List.mem_flatMap.2 ⟨r, hr, hw⟩)
    have hentry := hcounts w
    rw [List.count_append, hblocks.count_flatMap getWork hcounted.rooted hnodup] at hentry
    obtain ⟨c, hc⟩ := Option.isSome_iff_exists.1 ((hcounts.isSome w).2
      (List.mem_append_right _ (List.mem_flatMap.2 ⟨r, hr, hw⟩)))
    have hcard := htracks.counts hnodup w c hc
    rw [hentry] at hc
    have hsum := entry_eq_some hc
    push_cast at hsum
    omega

/-! ### A branch of two blocks

Each block has a work statement of its own. The second block moves the root,
and the old root's statement stays in the table.
-/

def ownWork (b : Breadcrumb Nat Nat) : List Nat := [b.stateHash]

/-- The table tracks the frontier after the first block. -/
theorem tracks_iff_first : ∃ frontier t, Follows forkConstants id ownWork frontier t [] ∧
    At frontier 3 forkA ∧ Tracks ownWork frontier t := by
  have hcreate : Frontier.create forkRoot [] 1 = .ok (forkAt 1 (Frontier.single forkRoot)) := rfl
  obtain ⟨⟨t, view⟩, ht⟩ := Exn.exists_of_isOk
    (x := SnarkPoolRefcount.create ownWork (forkAt 1 (Frontier.single forkRoot))) rfl
  have hrun : Follows forkConstants id ownWork _ t [] := .create hcreate ht
  obtain ⟨⟨frontier', pairs⟩, hadd⟩ := Exn.exists_of_isOk
    (x := addBreadcrumbExn forkConstants id (forkAt 1 (Frontier.single forkRoot)) forkA) (by decide +kernel)
  have hroot : (addBreadcrumbExn forkConstants id (forkAt 1 (Frontier.single forkRoot)) forkA).andThen
      (fun r => .ok r.1.root) = .ok 1 := by decide +kernel
  rw [hadd, Exn.andThen_ok, Except.ok.injEq] at hroot
  obtain ⟨t', view', hview⟩ := (tracks_iff forkConstants id ownWork hrun).1 forkA frontier' pairs hadd
  have hrun' := hrun.add hadd hview
  have hsame : frontier'.root = (forkAt 1 (Frontier.single forkRoot)).root := hroot
  rw [if_pos hsame] at hrun'
  have hcounted := hrun.counted
  obtain ⟨r, p, tip, status, -, hfresh, hp, -, -, hadded⟩ :=
    addBreadcrumbExn_cases forkConstants id hcounted.rooted hcounted.bounded hadd
  refine ⟨frontier', t', hrun', hadded.new_at hcounted.rooted hfresh hp, ?_⟩
  exact (tracks_iff forkConstants id ownWork hrun').2.1 fun r hr => absurd hr List.not_mem_nil

/-- The frontier and the table after both blocks. -/
def followed : Exn (Frontier.T Nat Nat × T Nat) :=
  (Frontier.create forkRoot [] 1).andThen fun frontier =>
    (SnarkPoolRefcount.create ownWork frontier).andThen fun t =>
      (addBreadcrumbExn forkConstants id frontier forkA).andThen fun r =>
        (handleDiffs ownWork frontier r.1 t.1 r.2).andThen fun t =>
          (addBreadcrumbExn forkConstants id r.1 nextA).andThen fun s =>
            (handleDiffs ownWork r.1 s.1 t.1 s.2).andThen fun t => .ok (s.1, t.1)

/-- The statement of the root that was moved away is never taken off. -/
theorem oldRoot_counted : ∃ frontier t oldRoots, Follows forkConstants id ownWork frontier t oldRoots ∧
    frontier.table 1 = none ∧ t.refcountTable 1 = some 1 ∧ ¬ Tracks ownWork frontier t := by
  obtain ⟨⟨frontier, t⟩, hrun⟩ := Exn.exists_of_isOk (x := followed) (by decide +kernel)
  have hleft : followed.andThen (fun r => .ok ((r.1.table 1).isSome, r.2.refcountTable 1)) =
      .ok (false, some (1 : Int)) := by decide +kernel
  rw [hrun, Exn.andThen_ok, Except.ok.injEq, Prod.mk.injEq] at hleft
  obtain ⟨hnone, hcount⟩ := hleft
  rw [Option.isSome_eq_false_iff, Option.isNone_iff_eq_none] at hnone
  obtain ⟨f₀, h₀, hrun⟩ := Exn.andThen_eq_ok.1 hrun
  obtain ⟨⟨t₀, view₀⟩, ht₀, hrun⟩ := Exn.andThen_eq_ok.1 hrun
  obtain ⟨⟨f₁, pairs₁⟩, h₁, hrun⟩ := Exn.andThen_eq_ok.1 hrun
  obtain ⟨⟨t₁, view₁⟩, ht₁, hrun⟩ := Exn.andThen_eq_ok.1 hrun
  obtain ⟨⟨f₂, pairs₂⟩, h₂, hrun⟩ := Exn.andThen_eq_ok.1 hrun
  obtain ⟨⟨t₂, view₂⟩, ht₂, hrun⟩ := Exn.andThen_eq_ok.1 hrun
  cases hrun
  have hfollows : Follows forkConstants id ownWork _ _ _ := .add (.add (.create h₀ ht₀) h₁ ht₁) h₂ ht₂
  refine ⟨_, _, _, hfollows, hnone, hcount, fun htracks => ?_⟩
  obtain ⟨x, n, hn, hw⟩ := (htracks.keys 1).1 (by rw [hcount]; rfl)
  have hkey := hfollows.counted.rooted.keys x n hn
  rw [ownWork, List.mem_singleton] at hw
  rw [← hkey, ← hw, hnone] at hn
  cases hn

end Mina.Frontier.SnarkPoolRefcount
