/-
One lemma for each function of the frontier, over a table that is a rooted
tree: the garbage of a root move is the blocks below the heir's siblings, each
once; a root move leaves the heir's subtree; the path of a breadcrumb begins
with the root's successor above it.
-/
import Mina.Frontier.RootedTree

namespace Mina.Frontier

variable {F S : Type} [LinearOrder F]

/-! ## Maps -/

omit [LinearOrder F] in
theorem findExn_ok {α : Type} {m : F → Option α} {key : F} {a : α} (h : m key = some a) : findExn m key = .ok a := by
  rw [findExn, h]

omit [LinearOrder F] in
theorem findExn_eq_ok {α : Type} {m : F → Option α} {key : F} {a : α} : findExn m key = .ok a ↔ m key = some a := by
  unfold findExn
  cases m key <;> simp

theorem lookup_pair (f : F → S) : ∀ {l : List F} {h : F},
    List.lookup h (l.map fun a => (a, f a)) = if h ∈ l then some (f h) else none
  | [], h => by simp
  | a :: l, h => by
    rw [List.map_cons, List.lookup_cons, lookup_pair f]
    by_cases hh : h = a
    · simp [hh]
    · rw [beq_false_of_ne hh]
      simp [hh]

/-! ## Protocol states for the next root -/

section NextRoot

variable {m : F → Option S} {required : HashSet F} {oldRoot : F}

/-- The states are found when each is known to the old root or is its own, and
they are those of the required hashes. -/
theorem protocolStates_ok (oldState : S) (h : ∀ x ∈ required.toList, x = oldRoot ∨ (m x).isSome = true) :
    ∃ states m', protocolStatesForNextRootScanState m required oldRoot oldState = .ok states ∧
      ofAlistExn states = .ok m' ∧
      ∀ x, (m' x).isSome = true ↔ x ∈ required.toList := by
  have hsome : ∀ x ∈ required.toList, ∃ s, Function.update m oldRoot (some oldState) x = some s := by
    intro x hx
    rcases h x hx with rfl | hm
    · exact ⟨oldState, Function.update_self _ _ _⟩
    · by_cases hxr : x = oldRoot
      · subst hxr
        exact ⟨oldState, Function.update_self _ _ _⟩
      · rw [Function.update_of_ne hxr]
        exact Option.isSome_iff_exists.1 hm
  let f : F → S := fun x => (Function.update m oldRoot (some oldState) x).getD oldState
  have hf : ∀ x ∈ required.toList, Function.update m oldRoot (some oldState) x = some (f x) := by
    intro x hx
    obtain ⟨s, hs⟩ := hsome x hx
    simp only [f, hs, Option.getD_some]
  have hstates : protocolStatesForNextRootScanState m required oldRoot oldState =
      .ok (required.toList.map fun x => (x, f x)) := by
    refine Exn.mapList_eq_ok.2 ?_
    rw [List.forall₂_map_right_iff, List.forall₂_same]
    intro x hx
    rw [findExn_ok (hf x hx), Exn.andThen_ok]
  have hkeys : (required.toList.map fun x => (x, f x)).map (·.1) = required.toList := by
    rw [List.map_map]
    exact List.map_id _
  refine ⟨_, _, hstates, by rw [ofAlistExn, hkeys, if_pos required.nodup], fun x => ?_⟩
  rw [lookup_pair]
  split
  next hx => exact iff_of_true rfl hx
  next hx => exact iff_of_false Bool.false_ne_true hx

theorem protocolStates_found {oldState : S} {states : List (F × S)}
    (h : protocolStatesForNextRootScanState m required oldRoot oldState = .ok states) :
    ∀ x ∈ required.toList, x = oldRoot ∨ (m x).isSome = true := by
  intro x hx
  obtain ⟨p, hp⟩ := Exn.mapList_mem h hx
  obtain ⟨s, hs, -⟩ := Exn.andThen_eq_ok.1 hp
  by_cases hxr : x = oldRoot
  · exact Or.inl hxr
  · rw [findExn_eq_ok, Function.update_of_ne hxr] at hs
    exact Or.inr (by rw [hs]; rfl)

end NextRoot

/-! ## Successors -/

/-- The breadcrumb in the node of a hash. -/
def At (t : T F S) (h : F) (b : Breadcrumb F S) : Prop := ∃ n, t.table h = some n ∧ n.breadcrumb = b

/-- The breadcrumbs are those of the hashes with `P`, each once. -/
structure Lists (bs : List (Breadcrumb F S)) (P : F → Prop) : Prop where
  nodup : (bs.map (·.stateHash)).Nodup
  mem : ∀ x, x ∈ bs.map (·.stateHash) ↔ P x

omit [LinearOrder F] in
theorem Lists.flatten {P : F → F → Prop} : ∀ {hs : List F} {ls : List (List (Breadcrumb F S))},
    List.Forall₂ (fun h l => Lists l (P h)) hs ls → hs.Nodup →
    (∀ a ∈ hs, ∀ b ∈ hs, a ≠ b → ∀ x, P a x → ¬ P b x) → Lists ls.flatten fun x => ∃ h ∈ hs, P h x
  | [], _, .nil, _, _ => ⟨List.nodup_nil, by simp⟩
  | h :: hs, l :: ls, .cons hl hls, hnodup, hdisj => by
    rw [List.nodup_cons] at hnodup
    have ih := Lists.flatten hls hnodup.2 fun a ha b hb => hdisj a (by simp [ha]) b (by simp [hb])
    refine ⟨?_, fun x => ?_⟩
    · rw [List.flatten_cons, List.map_append]
      refine hl.nodup.append ih.nodup fun x hx hx' => ?_
      obtain ⟨h', hh', hp'⟩ := (ih.mem x).1 hx'
      refine hdisj h (by simp) h' (by simp [hh']) ?_ x ((hl.mem x).1 hx) hp'
      rintro rfl
      exact hnodup.1 hh'
    · rw [List.flatten_cons, List.map_append, List.mem_append, hl.mem, ih.mem]
      simp only [List.mem_cons, exists_eq_or_imp]

section Rooted

variable {t : T F S} (ht : Rooted t.table t.root)
include ht

omit [LinearOrder F] in
theorem At.stateHash {h : F} {b : Breadcrumb F S} (hb : At t h b) : b.stateHash = h := by
  obtain ⟨n, hn, rfl⟩ := hb
  exact ht.keys h n hn

omit ht [LinearOrder F] in
theorem At.find {h : F} {b : Breadcrumb F S} (hb : At t h b) : findBreadcrumbExn t h = .ok b := by
  obtain ⟨n, hn, rfl⟩ := hb
  rw [findBreadcrumbExn, findExn_ok hn, Exn.andThen_ok]

omit [LinearOrder F] in
theorem successors_ok {h : F} {n : Node F S} (hn : t.table h = some n) :
    ∃ bs, successors t n.breadcrumb = .ok bs ∧ List.Forall₂ (At t) n.successorHashes bs := by
  obtain ⟨bs, hbs, hat⟩ := Exn.mapList_of_forall (f := findBreadcrumbExn t) (Q := At t) (l := n.successorHashes)
    fun h' hmem => by
      obtain ⟨m, hm, -⟩ := ht.edge_some ⟨n, hn, hmem⟩
      exact ⟨m.breadcrumb, At.find ⟨m, hm, rfl⟩, m, hm, rfl⟩
  refine ⟨bs, ?_, hat⟩
  rw [successors, ht.keys h n hn, findExn_ok hn, Exn.andThen_ok, hbs]

omit [LinearOrder F] in
/-- A block and those strictly below it are those of its subtree. -/
theorem Lists.cons {h : F} {b : Breadcrumb F S} {bs : List (Breadcrumb F S)} (hb : At t h b)
    (hbs : Lists bs (Relation.TransGen (Edge t.table) h)) : Lists (b :: bs) (Below t.table h) := by
  have hhash := hb.stateHash ht
  refine ⟨?_, fun x => ?_⟩
  · rw [List.map_cons, List.nodup_cons, hbs.mem, hhash]
    refine ⟨fun hself => ?_, hbs.nodup⟩
    obtain ⟨y, hy, he⟩ := Relation.TransGen.tail'_iff.1 hself
    exact ht.not_below_of_edge he hy
  · rw [List.map_cons, List.mem_cons, hbs.mem, hhash, Below, Relation.reflTransGen_iff_eq_or_transGen]

omit [LinearOrder F] in
/-- The subtrees of some successors of a block, one after the other. -/
theorem branches_ok (p : F) (succs : List (Breadcrumb F S)) (fuel : Nat)
    (hnodup : (succs.map (·.stateHash)).Nodup)
    (hsuccs : ∀ b ∈ succs, Edge t.table p b.stateHash ∧ At t b.stateHash b)
    (hrec : ∀ b ∈ succs, ∃ bs, successorsRec t fuel b = .ok bs ∧
      Lists bs (Relation.TransGen (Edge t.table) b.stateHash)) :
    ∃ ls, Exn.mapList (fun succ => (successorsRec t fuel succ).andThen fun l => .ok (succ :: l)) succs = .ok ls ∧
      Lists ls.flatten fun x => ∃ h ∈ succs.map (·.stateHash), Below t.table h x := by
  obtain ⟨ls, hls, hlists⟩ := Exn.mapList_of_forall
    (f := fun succ => (successorsRec t fuel succ).andThen fun l => .ok (succ :: l))
    (Q := fun b l => Lists l (Below t.table b.stateHash)) (l := succs) fun b hb => by
      obtain ⟨bs, hbs, hl⟩ := hrec b hb
      exact ⟨b :: bs, by rw [hbs, Exn.andThen_ok], Lists.cons ht (hsuccs b hb).2 hl⟩
  refine ⟨ls, hls, Lists.flatten (List.forall₂_map_left_iff.2 hlists) hnodup fun a ha b hb hne x hax hbx => ?_⟩
  obtain ⟨a', ha', rfl⟩ := List.mem_map.1 ha
  obtain ⟨b', hb', rfl⟩ := List.mem_map.1 hb
  exact hne (ht.siblings_disjoint (hsuccs a' ha').1 (hsuccs b' hb').1 hax hbx)

omit [LinearOrder F] in
/-- The successors of a block, by their hashes. -/
theorem map_successors {hs : List F} {bs : List (Breadcrumb F S)} (hat : List.Forall₂ (At t) hs bs) :
    bs.map (·.stateHash) = hs := by
  induction hat with
  | nil => rfl
  | cons hb _ ih => rw [List.map_cons, ih, hb.stateHash ht]

omit [LinearOrder F] in
theorem at_of_mem {hs : List F} {bs : List (Breadcrumb F S)} (hat : List.Forall₂ (At t) hs bs) :
    ∀ b ∈ bs, b.stateHash ∈ hs ∧ At t b.stateHash b := by
  induction hat with
  | nil => simp
  | cons hb _ ih =>
    intro b hmem
    rcases List.mem_cons.1 hmem with rfl | hmem
    · have hhash := hb.stateHash ht
      rw [hhash]
      exact ⟨List.mem_cons_self, hb⟩
    · obtain ⟨hmem', hb'⟩ := ih b hmem
      exact ⟨List.mem_cons_of_mem _ hmem', hb'⟩

omit [LinearOrder F] in
/-- The blocks strictly below a block, if there is fuel for the levels below
it. -/
theorem successorsRec_ok {L : Nat} (hL : ∀ x m, t.table x = some m → m.length < L) (fuel : Nat) :
    ∀ {h : F} {n : Node F S}, t.table h = some n → L ≤ n.length + fuel →
      ∃ bs, successorsRec t fuel n.breadcrumb = .ok bs ∧ Lists bs (Relation.TransGen (Edge t.table) h) := by
  induction fuel with
  | zero =>
    intro h n hn hfuel
    have := hL h n hn
    omega
  | succ fuel ih =>
    intro h n hn hfuel
    obtain ⟨succs, hsuccs, hat⟩ := successors_ok ht hn
    have hmem := at_of_mem ht hat
    have hmap := map_successors ht hat
    obtain ⟨ls, hls, hlists⟩ := branches_ok ht h succs fuel
      (by rw [hmap]; exact ht.nodup h n hn) (fun b hb => ⟨⟨n, hn, (hmem b hb).1⟩, (hmem b hb).2⟩) fun b hb => by
        obtain ⟨hsucc, m, hm, hbc⟩ := hmem b hb
        have hlen := ht.length h n b.stateHash m hn hsucc hm
        rw [← hbc] at hm ⊢
        exact ih hm (by omega)
    refine ⟨ls.flatten, by rw [successorsRec, hsuccs, Exn.andThen_ok, hls, Exn.andThen_ok], hlists.nodup, fun x => ?_⟩
    rw [hlists.mem, hmap, Relation.TransGen.head'_iff]
    constructor
    · rintro ⟨s, hs, hb⟩
      exact ⟨s, ⟨n, hn, hs⟩, hb⟩
    · rintro ⟨s, ⟨n', hn', hs⟩, hb⟩
      rw [hn] at hn'
      cases hn'
      exact ⟨s, hs, hb⟩

/-! ## The path of a breadcrumb -/

/-- The path of a block begins with the root's successor above it. -/
theorem findPath_ok {r : Node F S} (hr : t.table t.root = some r) (fuel : Nat) :
    ∀ {h : F} {n : Node F S} (acc : List F), t.table h = some n → h ≠ t.root → n.length ≤ r.length + fuel →
      ∃ heir l, findPath t (·.stateHash) fuel n.breadcrumb none acc = .ok (heir :: l) ∧
        Edge t.table t.root heir ∧ Below t.table heir h := by
  induction fuel with
  | zero =>
    intro h n acc hn hne hfuel
    obtain ⟨s, hs, hb⟩ := ht.exists_branch hn hne
    have hle := ht.below_length hb
    obtain ⟨m, -, hlen⟩ := ht.edge_some hs
    rw [lengthAt_eq hn, hlen, lengthAt_eq hr] at hle
    omega
  | succ fuel ih =>
    intro h n acc hn hne hfuel
    have hhash := ht.keys h n hn
    obtain ⟨hedge, -⟩ := ht.parent h n hn hne
    have hcount : ((none : Option Int).any fun c => decide (c ≤ 0)) ≠ true := by decide
    rw [findPath, if_neg hcount, Option.map_none, hhash, if_neg hne]
    by_cases hroot : n.breadcrumb.parentHash = t.root
    · rw [if_pos hroot]
      rw [hroot] at hedge
      exact ⟨h, acc, rfl, hedge, .refl⟩
    · obtain ⟨m, hm, hmem⟩ := id hedge
      have hlen := ht.length _ m h n hm hmem hn
      obtain ⟨heir, l, hl, he, hb⟩ := ih (h :: acc) hm hroot (by omega)
      rw [if_neg hroot, At.find ⟨m, hm, rfl⟩, Exn.andThen_ok]
      exact ⟨heir, l, hl, he, hb.tail hedge⟩

/-! ## The garbage -/

/-- The garbage of a root move: the blocks below the heir's siblings. -/
def IsGarbage (table : Table F S) (root heir x : F) : Prop := ∃ s, Edge table root s ∧ s ≠ heir ∧ Below table s x

theorem calculateRootTransitionDiff_eq {r : Node F S} (hr : t.table t.root = some r)
    (hbound : ∀ x m, t.table x = some m → m.length ≤ r.length + t.maxLength) (heir : Breadcrumb F S) :
    ∃ garbage : List F, garbage.Nodup ∧ (∀ x, x ∈ garbage ↔ IsGarbage t.table t.root heir.stateHash x) ∧
      calculateRootTransitionDiff t heir =
        (protocolStatesForNextRootScanState t.protocolStatesForRootScanState heir.requiredStateHashes t.root
          r.breadcrumb.protocolState).andThen fun protocolStates =>
            .ok (.rootTransitioned heir.stateHash protocolStates garbage heir.justEmittedAProof) := by
  obtain ⟨succs, hsuccs, hat⟩ := successors_ok ht hr
  have hmem := at_of_mem ht hat
  have hmap := map_successors ht hat
  have hfilter : ∀ b, b ∈ (succs.filter fun b => heir.stateHash ≠ b.stateHash) ↔
      b ∈ succs ∧ heir.stateHash ≠ b.stateHash := by simp
  obtain ⟨ls, hls, hlists⟩ := branches_ok ht t.root
    (succs.filter fun b => heir.stateHash ≠ b.stateHash) (t.maxLength + 1)
    (by
      have hnodup := ht.nodup _ r hr
      rw [← hmap] at hnodup
      exact hnodup.sublist (List.filter_sublist.map _))
    (fun b hb => ⟨⟨r, hr, (hmem b ((hfilter b).1 hb).1).1⟩, (hmem b ((hfilter b).1 hb).1).2⟩)
    fun b hb => by
      obtain ⟨hsucc, m, hm, hbc⟩ := hmem b ((hfilter b).1 hb).1
      have hlen := ht.length _ r b.stateHash m hr hsucc hm
      rw [← hbc] at hm ⊢
      refine successorsRec_ok ht (L := r.length + t.maxLength + 1) (fun x m hx => ?_) _ hm (by omega)
      have := hbound x m hx
      omega
  refine ⟨ls.flatten.reverse.map (·.stateHash), ?_, fun x => ?_, ?_⟩
  · rw [List.map_reverse, List.nodup_reverse]
    exact hlists.nodup
  · rw [List.map_reverse, List.mem_reverse, hlists.mem, IsGarbage]
    constructor
    · rintro ⟨s, hs, hb⟩
      obtain ⟨b, hb', rfl⟩ := List.mem_map.1 hs
      obtain ⟨hsucc, hne⟩ := (hfilter b).1 hb'
      exact ⟨b.stateHash, ⟨r, hr, (hmem b hsucc).1⟩, hne.symm, hb⟩
    · rintro ⟨s, ⟨r', hr', hs⟩, hne, hb⟩
      rw [hr] at hr'
      cases hr'
      rw [← hmap] at hs
      obtain ⟨b, hb', rfl⟩ := List.mem_map.1 hs
      exact ⟨b.stateHash, List.mem_map_of_mem ((hfilter b).2 ⟨hb', hne.symm⟩), hb⟩
  · have hroot := ht.keys _ r hr
    simp only [calculateRootTransitionDiff, At.find ⟨r, hr, rfl⟩, Exn.andThen_ok, hsuccs, hls, hroot]

end Rooted

/-! ## Moving the root -/

/-- Removing different blocks of the table. -/
theorem removeGarbage_ok : ∀ (garbage : List F) (t : T F S), garbage.Nodup →
    (∀ x ∈ garbage, ∃ n, t.table x = some n) →
    removeGarbage t garbage = .ok { t with table := fun x => if x ∈ garbage then none else t.table x }
  | [], t, _, _ => by simp [removeGarbage, Exn.fold]
  | h :: garbage, t, hnodup, hsome => by
    rw [List.nodup_cons] at hnodup
    obtain ⟨n, hn⟩ := hsome h (by simp)
    have ih := removeGarbage_ok garbage { t with table := Function.update t.table h none }
      hnodup.2 fun x hx => by
        have hne : x ≠ h := by
          rintro rfl
          exact hnodup.1 hx
        obtain ⟨m, hm⟩ := hsome x (by simp [hx])
        exact ⟨m, (Function.update_of_ne hne _ _).trans hm⟩
    rw [removeGarbage] at ih
    rw [removeGarbage, Exn.fold, At.find ⟨n, hn, rfl⟩, Exn.andThen_ok, Exn.andThen_ok, ih]
    refine congrArg (fun table => Except.ok { t with table }) (funext fun x => ?_)
    by_cases hx : x = h
    · subst hx
      simp
    · simp only [Function.update_of_ne hx, List.mem_cons, hx, false_or]

section MoveRoot

variable {t : T F S} (ht : Rooted t.table t.root)
include ht

/-- Without the garbage and the old root, the heir's subtree is left. -/
theorem subtree_of_garbage {heir : F} (hedge : Edge t.table t.root heir) {garbage : List F}
    (hmem : ∀ x, x ∈ garbage ↔ IsGarbage t.table t.root heir x) :
    Subtree t.table heir
      (Function.update (fun x => if x ∈ garbage then none else t.table x) t.root none) := by
  refine ⟨fun x hx => ?_, fun x hx => ?_⟩
  · have hroot : x ≠ t.root := by
      rintro rfl
      exact ht.not_below_of_edge hedge hx
    rw [Function.update_of_ne hroot]
    refine if_neg fun hgarbage => ?_
    obtain ⟨s, hs, hne, hb⟩ := (hmem x).1 hgarbage
    exact hne (ht.siblings_disjoint hs hedge hb hx)
  · by_cases hroot : x = t.root
    · rw [hroot, Function.update_self]
    · rw [Function.update_of_ne hroot]
      cases hx' : t.table x with
      | none => exact ite_self _
      | some n =>
        refine if_pos ((hmem x).2 ?_)
        obtain ⟨s, hs, hb⟩ := ht.exists_branch hx' hroot
        refine ⟨s, hs, ?_, hb⟩
        rintro rfl
        exact hx hb

/-- What is left to do when the heir's subtree is left. -/
theorem moveRoot_eq {heir : F} {n : Node F S} (hn : t.table heir = some n) (hedge : Edge t.table t.root heir)
    {garbage : List F} (hnodup : garbage.Nodup) (hmem : ∀ x, x ∈ garbage ↔ IsGarbage t.table t.root heir x) :
    ∃ table', Subtree t.table heir table' ∧ ∀ states, moveRoot t heir states garbage = (findTxnStates { t with table := table' } n.breadcrumb).andThen fun _ =>
        (ofAlistExn states).andThen fun m =>
          .ok { t with protocolStatesForRootScanState := m, table := table', root := heir } := by
  obtain ⟨r, hr⟩ := ht.root_some
  have hsub := subtree_of_garbage ht hedge hmem
  have hsome : ∀ x ∈ garbage, ∃ n, t.table x = some n := by
    intro x hx
    obtain ⟨s, hs, -, hb⟩ := (hmem x).1 hx
    obtain ⟨m, hm, -⟩ := ht.edge_some hs
    exact ht.below_some ⟨m, hm⟩ hb
  refine ⟨_, hsub, fun states => ?_⟩
  rw [moveRoot, findExn_ok hr, Exn.andThen_ok, findExn_ok hn, Exn.andThen_ok, removeGarbage_ok garbage t hnodup hsome,
    Exn.andThen_ok]
  have hheir : Function.update (fun x => if x ∈ garbage then none else t.table x) t.root none heir = some n :=
    (hsub.kept heir .refl).trans hn
  simp only [← hheir, Function.update_eq_self]

end MoveRoot

omit [LinearOrder F] in
theorem findProtocolState_isSome {t : T F S} {h : F} :
    (findProtocolState t h).isSome = true ↔
      (t.table h).isSome = true ∨ (t.protocolStatesForRootScanState h).isSome = true := by
  unfold findProtocolState find
  cases t.table h <;> simp

omit [LinearOrder F] in
/-- The transactions' states are found when each is in the table or in the
map. -/
theorem findTxnStates_ok {t : T F S} {b : Breadcrumb F S} :
    (∃ states, findTxnStates t b = .ok states) ↔
      (b.justEmittedAProof = true → ∃ hashes, b.proofTxnsStateHashes = some hashes ∧
        ∀ h ∈ hashes, (findProtocolState t h).isSome = true) := by
  unfold findTxnStates
  split
  next hproof =>
    constructor
    · rintro ⟨states, hstates⟩ -
      obtain ⟨hashes, hhashes, hfound⟩ := Exn.andThen_eq_ok.1 hstates
      refine ⟨hashes, Exn.valueExn_eq_ok.1 hhashes, fun h hh => ?_⟩
      obtain ⟨s, hs⟩ := Exn.mapList_mem hfound hh
      rw [Exn.valueExn_eq_ok.1 hs]
      rfl
    · intro h
      obtain ⟨hashes, hhashes, hfound⟩ := h hproof
      obtain ⟨states, hstates, -⟩ := Exn.mapList_of_forall (l := hashes)
        (f := fun h => Exn.valueExn (findProtocolState t h)) (Q := fun _ _ => True) fun h hh => by
          obtain ⟨s, hs⟩ := Option.isSome_iff_exists.1 (hfound h hh)
          exact ⟨s, by rw [hs, Exn.valueExn_some], trivial⟩
      exact ⟨states, by rw [hhashes, Exn.valueExn_some, Exn.andThen_ok, hstates]⟩
  next hproof =>
    refine iff_of_true ⟨[], rfl⟩ fun h => absurd h hproof

end Mina.Frontier
