/-
Chain proofs are complete and sound (`chain_proofs_right`).

The frontier and the root history hold blocks of a set that is linked by the
hashes of parents, and no block of it is above itself. From a block the prover
goes down the tree to the root and along the previous roots to the oldest one
that is kept, or stops before that after `length` blocks.
-/
import Mina.Frontier.ChainProver
import Mina.Frontier.RootHistoryFacts

namespace Mina.Frontier

open MerkleList (NonEmptyList Ancestry upTo)
open RootHistory (kept entry)

variable {F B S : Type}

/-! ## Blocks -/

/-- Blocks with the hashes of their parents. -/
structure Linked (hashing : Hashing F B S) (blocks : Set (Validated F S)) : Prop where
  stateHash : ∀ x ∈ blocks, x.stateHash = hashing.stateHash x.protocolState
  /-- No parents of parents without end. -/
  wellFounded : WellFounded fun p c => p ∈ blocks ∧ c ∈ blocks ∧ parentHash hashing c = p.stateHash

/-- The breadcrumb of one of the blocks. -/
structure OfBlock (hashing : Hashing F B S) (blocks : Set (Validated F S)) (b : Breadcrumb F S) : Prop where
  mem : b.validatedTransition ∈ blocks
  parentHash : b.parentHash = hashing.previousStateHash b.protocolState

variable [LinearOrder F] (hashing : Hashing F B S) (blocks : Set (Validated F S))

/-- A well-formed frontier of such blocks. -/
structure FrontierOf (t : T F S) : Prop where
  wellFormed : WellFormed t
  blocks : ∀ h n, t.table h = some n → OfBlock hashing blocks n.breadcrumb

/-- With the history of its previous roots. -/
structure HistoryOf (t : T F S) (history : RootHistory F S) (capacity : Nat) (previous : List (Breadcrumb F S))
    (root : Breadcrumb F S) : Prop where
  current : At t t.root root
  right : RootHistory.Right hashing.stateHash capacity previous root history
  chain : (previous ++ [root]).IsChain fun p c => c.parentHash = p.stateHash
  blocks : ∀ b ∈ previous, OfBlock hashing blocks b

/-! ## What the claims of the provers are -/

section Statements

variable {hashing}

def InFrontier (t : T F S) (x : Validated F S) : Prop :=
  ∃ n, t.table x.stateHash = some n ∧ n.breadcrumb.validatedTransition = x

def InEither (t : T F S) (history : RootHistory F S) (x : Validated F S) : Prop :=
  InFrontier t x ∨ ∃ data, (x.stateHash, data) ∈ history.history ∧ data.transition = x

variable (hashing)

/-- All the ancestors of `x` that are in either, nearest first. -/
structure Available (t : T F S) (history : RootHistory F S) (oldest : F) (x : Validated F S)
    (ancestors : List (Validated F S)) : Prop where
  parents : (x :: ancestors).IsChain fun c p => parentHash hashing c = p.stateHash
  mem : ∀ p ∈ ancestors, InEither t history p
  last : ((x :: ancestors).getLast (List.cons_ne_nil x ancestors)).stateHash = oldest
  all : ∀ p, InEither t history p →
    parentHash hashing ((x :: ancestors).getLast (List.cons_ne_nil x ancestors)) ≠ p.stateHash

/-- What the transition chain prover returns is verified, and gives the
nearest ancestors. -/
def ChainComplete (t : T F S) (history : RootHistory F S) (oldest : F) : Prop :=
  ∀ x, InEither t history x → ∃ ancestors, Available hashing t history oldest x ancestors ∧
    ∀ length : Option Nat, ∃ first list hashes,
      (∀ fuel, ancestors.length < fuel →
        TransitionChainProver.prove hashing fuel (length.map Int.ofNat) t history x.stateHash =
          .ok (some (first, list))) ∧
      verifyMerkleList hashing first list x.stateHash = some hashes ∧
      hashes.toList = (x :: upTo length ancestors).map (·.stateHash)

/-- What the best tip prover returns passes the checks of `verify`. -/
def BestTipComplete (t : T F S) : Prop :=
  ∀ globalMaxLength genesisStateHash, ∃ result, (∃ levels, ∀ fuel, levels ≤ fuel →
      BestTipProver.prove hashing globalMaxLength genesisStateHash fuel t = .ok result) ∧
    ∀ p, result = some p → ∀ validateProofs,
      BestTipProver.verify hashing globalMaxLength genesisStateHash validateProofs
          { p with data := p.data.protocolState } =
        validateProofs (BestTipProver.withHash hashing p.root) p.data

/-- The hashes are the target and its ancestors, down to `init`. -/
structure Ancestors (init : F) (list : List B) (target : F) (hashes : List F) : Prop where
  target : hashes.head? = some target
  init : hashes.getLast? = some init
  length : hashes.length = list.length + 1
  /-- A block with one of the hashes has the next as the hash of its parent. -/
  parents : hashes.IsChain fun c p => (∃ body, c = hashing.hashesAbstract p body) ∧
    ∀ state, hashing.stateHash state = c → hashing.previousStateHash state = p

def ChainSound : Prop :=
  ∀ init list target hashes, verifyMerkleList hashing init list target = some hashes →
    Ancestors hashing init list target hashes.toList

end Statements

variable {hashing blocks}

/-! ## Soundness -/

omit [LinearOrder F] in
theorem previous_unique (hinj : Function.Injective2 hashing.hashesAbstract) {state : S} {p : F} {body : B}
    (h : hashing.stateHash state = hashing.hashesAbstract p body) : hashing.previousStateHash state = p :=
  (hinj h).1

theorem chain_sound (hinj : Function.Injective2 hashing.hashesAbstract) : ChainSound hashing := by
  intro init list target hashes h
  obtain ⟨rfl, htarget⟩ := MerkleList.verify_eq_some.1 h
  refine ⟨congrArg some htarget, MerkleList.hashes_getLast? init list, MerkleList.hashes_length init list, ?_⟩
  refine (MerkleList.hashes_chain init list).imp fun c p hc => ⟨hc, fun state hstate => ?_⟩
  obtain ⟨body, rfl⟩ := hc
  exact previous_unique hinj hstate

/-! ## Where transitions are found -/

/-- `lookup` finds blocks by their hashes. -/
def Finds (blocks : Set (Validated F S)) (lookup : F → Option (Validated F S)) : Prop :=
  ∀ h x, lookup h = some x → x.stateHash = h ∧ x ∈ blocks

section Finds

variable (hlinked : Linked hashing blocks) {lookup : F → Option (Validated F S)} (hfinds : Finds blocks lookup)
include hlinked hfinds

omit [LinearOrder F] in
theorem Finds.exists_ancestry {x : Validated F S} (hx : x ∈ blocks) :
    ∃ l, Ancestry (fun x => lookup (parentHash hashing x)) x l := by
  induction x using hlinked.wellFounded.induction with
  | _ x ih =>
    cases h : lookup (parentHash hashing x) with
    | none => exact ⟨[], .first x h⟩
    | some p =>
      obtain ⟨hhash, hp⟩ := hfinds _ p h
      obtain ⟨l, hl⟩ := ih p ⟨hp, hx, hhash.symm⟩ hp
      exact ⟨p :: l, .next x p l h hl⟩

omit [LinearOrder F] hlinked in
theorem Finds.parents {x : Validated F S} {l : List (Validated F S)}
    (hl : Ancestry (fun x => lookup (parentHash hashing x)) x l) :
    (x :: l).IsChain fun c p => parentHash hashing c = p.stateHash :=
  hl.chain.imp fun _ p h => (hfinds _ p h).1.symm

/-- What the prover finds is verified. -/
theorem Finds.verify {x : Validated F S} (hx : x ∈ blocks) {l : List (Validated F S)}
    (hl : Ancestry (fun x => lookup (parentHash hashing x)) x l) (length : Option Nat) :
    ∃ first list hashes, (∀ fuel, l.length < fuel →
        MerkleList.prove (toProofElem hashing) (fun x => lookup (parentHash hashing x)) fuel
          (length.map Int.ofNat) x = .ok (first, list)) ∧
      first = (x :: upTo length l).getLast (List.cons_ne_nil _ _) ∧
      list.length = (upTo length l).length ∧
      verifyMerkleList hashing first.stateHash list x.stateHash = some hashes ∧
      hashes.toList = (x :: upTo length l).map (·.stateHash) := by
  have hmem : ∀ p ∈ x :: l, p ∈ blocks := by
    intro p hp
    rcases List.mem_cons.1 hp with rfl | hp
    · exact hx
    · exact hl.forall (fun v p h => (hfinds _ p h).2) p hp
  have htaken : (x :: upTo length l).IsChain fun c p =>
      c.stateHash = hashing.hashesAbstract p.stateHash (toProofElem hashing c) := by
    have hall : (x :: l).IsChain fun c p =>
        c.stateHash = hashing.hashesAbstract p.stateHash (toProofElem hashing c) := by
      refine List.IsChain.imp_of_mem_imp ?_ (hfinds.parents hl)
      intro c p hc _ hparent
      rw [hlinked.stateHash c (hmem c hc), ← hparent]
      rfl
    cases length with
    | none => exact hall
    | some n => exact hall.take (n + 1)
  have hhashes := MerkleList.hashes_line htaken
  refine ⟨_, _, _, fun fuel hfuel => ?_, rfl, ?_, MerkleList.verify_eq_some.2 ⟨rfl, ?_⟩, hhashes⟩
  · rw [MerkleList.prove, MerkleList.findPath_ok hl length hfuel, Exn.andThen_ok]
  · rw [List.length_reverse, List.length_map, List.length_dropLast, List.length_cons, Nat.add_sub_cancel]
  · exact List.head_eq_of_cons_eq hhashes

end Finds

/-! ## The frontier -/

section Frontier

variable {t : T F S} (hf : FrontierOf hashing blocks t)
include hf

omit [LinearOrder F] in
theorem FrontierOf.finds : Finds blocks fun h => (find t h).map (·.validatedTransition) := by
  intro h x hx
  obtain ⟨b, hb, rfl⟩ := Option.map_eq_some_iff.1 hx
  obtain ⟨n, hn, rfl⟩ := Option.map_eq_some_iff.1 hb
  exact ⟨hf.wellFormed.rooted.keys h n hn, (hf.blocks h n hn).mem⟩

omit hf [LinearOrder F] in
theorem find_inFrontier {h : F} {n : Node F S} (hn : t.table h = some n) :
    (find t h).map (·.validatedTransition) = some n.breadcrumb.validatedTransition := by
  rw [find, hn]
  rfl

omit [LinearOrder F] in
theorem FrontierOf.key {h : F} {n : Node F S} (hn : t.table h = some n) :
    t.table n.breadcrumb.validatedTransition.stateHash = some n := by
  rw [← hn]
  exact congrArg t.table (hf.wellFormed.rooted.keys h n hn)

omit [LinearOrder F] in
/-- Another block than the root has its parent in the frontier. -/
theorem FrontierOf.parent {h : F} {n : Node F S} (hn : t.table h = some n) (hne : h ≠ t.root) :
    ∃ m, t.table (parentHash hashing n.breadcrumb.validatedTransition) = some m ∧ n.length = m.length + 1 := by
  obtain ⟨m, hm, hmem⟩ := (hf.wellFormed.rooted.parent h n hn hne).1
  refine ⟨m, ?_, hf.wellFormed.rooted.length _ m h n hm hmem hn⟩
  rw [← hm, (hf.blocks h n hn).parentHash]
  rfl

omit [LinearOrder F] in
/-- The parent of the root is not in the frontier: it would be below itself. -/
theorem FrontierOf.root_parent (hlinked : Linked hashing blocks) {r : Node F S} (hr : t.table t.root = some r) :
    t.table (parentHash hashing r.breadcrumb.validatedTransition) = none := by
  by_contra hsome
  obtain ⟨q, hq⟩ := Option.ne_none_iff_exists'.1 hsome
  have hbelow : ∀ {h : F}, Below t.table t.root h → ∀ n, t.table h = some n →
      Relation.ReflTransGen (fun p c => p ∈ blocks ∧ c ∈ blocks ∧ parentHash hashing c = p.stateHash)
        r.breadcrumb.validatedTransition n.breadcrumb.validatedTransition := by
    intro h hbelow
    induction hbelow with
    | refl =>
      intro n hn
      rw [hr] at hn
      cases hn
      exact .refl
    | @tail p c _ hedge ih =>
      intro n hn
      obtain ⟨m, hm, -⟩ := id hedge
      refine (ih m hm).tail ⟨(hf.blocks p m hm).mem, (hf.blocks c n hn).mem, ?_⟩
      have hparent := hf.wellFormed.rooted.edge_parent hedge hn
      rw [(hf.blocks c n hn).parentHash] at hparent
      exact hparent.trans (hf.wellFormed.rooted.keys p m hm).symm
  have hcycle := Relation.TransGen.tail' (hbelow (hf.wellFormed.rooted.below_root hq) q hq)
    ⟨(hf.blocks _ q hq).mem, (hf.blocks _ r hr).mem, (hf.wellFormed.rooted.keys _ q hq).symm⟩
  exact hlinked.wellFounded.transGen.asymmetric _ _ hcycle hcycle

/-- From a block to the root there is one block for each level. -/
theorem FrontierOf.ancestry_length (hlinked : Linked hashing blocks) {r : Node F S} (hr : t.table t.root = some r)
    {x : Validated F S} {l : List (Validated F S)}
    (hl : Ancestry (fun x => (find t (parentHash hashing x)).map (·.validatedTransition)) x l) :
    ∀ n, t.table x.stateHash = some n → n.breadcrumb.validatedTransition = x → n.length = r.length + l.length := by
  induction hl with
  | first x hnone =>
    intro n hn hx
    by_cases hroot : x.stateHash = t.root
    · rw [hroot, hr] at hn
      cases hn
      rfl
    · obtain ⟨m, hm, -⟩ := hf.parent hn hroot
      rw [hx] at hm
      rw [find_inFrontier hm] at hnone
      cases hnone
  | next x p l hprevious _ ih =>
    intro n hn hx
    by_cases hroot : x.stateHash = t.root
    · rw [hroot, hr] at hn
      cases hn
      have hnone := hf.root_parent hlinked hr
      rw [hx] at hnone
      rw [find, hnone] at hprevious
      cases hprevious
    · obtain ⟨m, hm, hlength⟩ := hf.parent hn hroot
      rw [hx] at hm
      rw [find_inFrontier hm] at hprevious
      cases hprevious
      have ih := ih m (hf.key hm) rfl
      rw [List.length_cons]
      omega

/-- The way from a block ends at the root. -/
theorem FrontierOf.ancestry_root {x : Validated F S} (hx : InFrontier t x) {l : List (Validated F S)}
    (hl : Ancestry (fun x => (find t (parentHash hashing x)).map (·.validatedTransition)) x l) :
    ((x :: l).getLast (List.cons_ne_nil x l)).stateHash = t.root := by
  have hin : InFrontier t ((x :: l).getLast (List.cons_ne_nil x l)) := by
    rcases List.mem_cons.1 (List.getLast_mem (List.cons_ne_nil x l)) with heq | hmem
    · rw [heq]
      exact hx
    · refine hl.forall (P := InFrontier t) (fun v p h => ?_) _ hmem
      obtain ⟨b, hb, rfl⟩ := Option.map_eq_some_iff.1 h
      obtain ⟨m, hm, rfl⟩ := Option.map_eq_some_iff.1 hb
      exact ⟨m, hf.key hm, rfl⟩
  obtain ⟨m, hm, heq⟩ := hin
  by_contra hne
  obtain ⟨q, hq, -⟩ := hf.parent hm hne
  have hlast := hl.last
  rw [heq] at hq
  rw [find_inFrontier hq] at hlast
  cases hlast

end Frontier

/-! ## The frontier and the root history -/

section Either

variable {t : T F S} (hf : FrontierOf hashing blocks t) {history : RootHistory F S} {capacity : Nat}
  {previous : List (Breadcrumb F S)} {root : Breadcrumb F S}
  (hh : HistoryOf hashing blocks t history capacity previous root)
include hh

theorem HistoryOf.entries : history.history = (kept capacity previous).map entry := hh.right.history

include hf

theorem HistoryOf.finds : Finds blocks (TransitionChainProver.findTransition t history) := by
  intro h x hx
  rcases Option.or_eq_some_iff.1 hx with hx | ⟨-, hx⟩
  · exact hf.finds h x hx
  · obtain ⟨data, hdata, rfl⟩ := Option.map_eq_some_iff.1 hx
    have hmem := RootHistory.lookup_mem hdata
    rw [hh.entries] at hmem
    obtain ⟨b, hb, heq⟩ := List.mem_map.1 hmem
    cases heq
    exact ⟨rfl, (hh.blocks b (List.mem_of_mem_drop hb)).mem⟩

omit hf hh in
/-- A block that is in either is found. -/
theorem InEither.isSome {x : Validated F S} (hx : InEither t history x) :
    (TransitionChainProver.findTransition t history x.stateHash).isSome = true := by
  unfold TransitionChainProver.findTransition
  rw [Option.isSome_or, Bool.or_eq_true]
  rcases hx with ⟨n, hn, _⟩ | ⟨data, hdata, _⟩
  · rw [find_inFrontier hn]
    exact .inl rfl
  · cases hlookup : history.history.lookup x.stateHash with
    | none => exact absurd (List.mem_map_of_mem hdata) (RootHistory.lookup_none hlookup)
    | some d =>
      rw [TransitionChainProver.findInRootHistory, hlookup]
      exact .inr rfl

omit hf in
/-- What is found is in either. -/
theorem HistoryOf.inEither (hf : FrontierOf hashing blocks t) {h : F} {x : Validated F S}
    (hx : TransitionChainProver.findTransition t history h = some x) : InEither t history x := by
  rcases Option.or_eq_some_iff.1 hx with hx | ⟨-, hx⟩
  · obtain ⟨b, hb, rfl⟩ := Option.map_eq_some_iff.1 hx
    obtain ⟨n, hn, rfl⟩ := Option.map_eq_some_iff.1 hb
    exact .inl ⟨n, hf.key hn, rfl⟩
  · obtain ⟨data, hdata, rfl⟩ := Option.map_eq_some_iff.1 hx
    have hmem := RootHistory.lookup_mem hdata
    have hkey := hmem
    rw [hh.entries] at hkey
    obtain ⟨b, hb, heq⟩ := List.mem_map.1 hkey
    cases heq
    exact .inr ⟨_, hmem, rfl⟩

/-- The roots that are kept, and the current one, are in either. -/
theorem HistoryOf.root_inEither {b : Breadcrumb F S} (hb : b ∈ kept capacity previous ++ [root]) :
    InEither t history b.validatedTransition := by
  rcases List.mem_append.1 hb with hb | hb
  · refine .inr ⟨.ofBreadcrumb b, ?_, rfl⟩
    rw [hh.entries]
    exact List.mem_map_of_mem hb
  · obtain rfl := List.mem_singleton.1 hb
    obtain ⟨n, hn, rfl⟩ := hh.current
    exact .inl ⟨n, hf.key hn, rfl⟩

/-- A root other than the oldest has its parent in either. -/
theorem HistoryOf.root_parent {b : Breadcrumb F S} (hb : b ∈ kept capacity previous ++ [root]) :
    (kept capacity previous ++ [root]).head? = some b ∨
      ∃ p, InEither t history p ∧ parentHash hashing b.validatedTransition = p.stateHash := by
  obtain ⟨before, after, hsplit⟩ := List.append_of_mem hb
  obtain rfl | ⟨before, p, rfl⟩ := before.eq_nil_or_concat'
  · exact .inl (by rw [hsplit]; rfl)
  · refine .inr ⟨p.validatedTransition, hh.root_inEither hf ?_, ?_⟩
    · rw [hsplit]
      simp
    · have hchain := hh.chain.suffix (RootHistory.kept_suffix capacity previous root)
      rw [hsplit, List.append_assoc, List.isChain_append] at hchain
      have hparent : b.parentHash = p.stateHash := (List.isChain_cons_cons.1 hchain.2.1).1
      have hblock : OfBlock hashing blocks b := by
        rcases List.mem_append.1 hb with hb | hb
        · exact hh.blocks b (List.mem_of_mem_drop hb)
        · obtain rfl := List.mem_singleton.1 hb
          obtain ⟨n, hn, rfl⟩ := hh.current
          exact hf.blocks _ n hn
      exact hblock.parentHash.symm.trans hparent

/-- A block without its parent in either is the oldest root that is kept. -/
theorem HistoryOf.oldest {x : Validated F S} (hx : InEither t history x)
    (hlast : TransitionChainProver.findTransition t history (parentHash hashing x) = none) {oldest : Breadcrumb F S}
    (holdest : (kept capacity previous ++ [root]).head? = some oldest) : x.stateHash = oldest.stateHash := by
  have hroot : ∀ {b : Breadcrumb F S}, b ∈ kept capacity previous ++ [root] → b.validatedTransition = x →
      x.stateHash = oldest.stateHash := by
    intro b hb hbx
    rcases hh.root_parent hf hb with hhead | ⟨p, hp, hparent⟩
    · rw [hhead] at holdest
      cases holdest
      rw [← hbx]
      rfl
    · have hsome := hp.isSome
      rw [← hparent, hbx, hlast] at hsome
      cases hsome
  rcases hx with ⟨n, hn, rfl⟩ | ⟨data, hdata, rfl⟩
  · by_cases heq : n.breadcrumb.validatedTransition.stateHash = t.root
    · obtain ⟨r, hr, rfl⟩ := hh.current
      rw [heq, hr] at hn
      cases hn
      exact hroot (List.mem_append_right _ List.mem_cons_self) rfl
    · obtain ⟨m, hm, -⟩ := hf.parent hn heq
      rw [TransitionChainProver.findTransition, find_inFrontier hm] at hlast
      cases hlast
  · have hentry := hdata
    rw [hh.entries] at hentry
    obtain ⟨b, hb, heq⟩ := List.mem_map.1 hentry
    obtain rfl : Historical.ofBreadcrumb b = data := congrArg Prod.snd heq
    exact hroot (List.mem_append_left _ hb) rfl

theorem HistoryOf.mem {x : Validated F S} (hx : InEither t history x) : x ∈ blocks := by
  rcases hx with ⟨n, hn, rfl⟩ | ⟨data, hdata, rfl⟩
  · exact (hf.blocks _ n hn).mem
  · rw [hh.entries] at hdata
    obtain ⟨b, hb, heq⟩ := List.mem_map.1 hdata
    obtain rfl : Historical.ofBreadcrumb b = data := congrArg Prod.snd heq
    exact (hh.blocks b (List.mem_of_mem_drop hb)).mem

theorem HistoryOf.available {x : Validated F S} (hx : InEither t history x) {l : List (Validated F S)}
    (hl : Ancestry (TransitionChainProver.getPrevious hashing t history) x l) {oldest : Breadcrumb F S}
    (holdest : (kept capacity previous ++ [root]).head? = some oldest) :
    Available hashing t history oldest.stateHash x l := by
  have hmem : ∀ p ∈ l, InEither t history p := hl.forall fun v p h => hh.inEither hf h
  have hlast : InEither t history ((x :: l).getLast (List.cons_ne_nil x l)) := by
    rcases List.mem_cons.1 (List.getLast_mem (List.cons_ne_nil x l)) with heq | hlast
    · rw [heq]
      exact hx
    · exact hmem _ hlast
  refine ⟨(hh.finds hf).parents hl, hmem, hh.oldest hf hlast hl.last holdest, fun p hp hparent => ?_⟩
  have hsome := hp.isSome
  have hnone := hl.last
  rw [TransitionChainProver.getPrevious, hparent] at hnone
  rw [hnone] at hsome
  cases hsome

/-- What the transition chain prover returns is verified. -/
theorem chain_complete (hlinked : Linked hashing blocks) (hinj : Function.Injective2 hashing.hashesAbstract)
    {oldest : Breadcrumb F S} (holdest : (kept capacity previous ++ [root]).head? = some oldest) :
    ChainComplete hashing t history oldest.stateHash := by
  intro x hx
  obtain ⟨y, hy⟩ := Option.isSome_iff_exists.1 hx.isSome
  obtain ⟨hhash, hyblocks⟩ := hh.finds hf _ y hy
  -- `y` is `x`, as far as its hashes tell
  have hparent : parentHash hashing y = parentHash hashing x := by
    rw [hlinked.stateHash y hyblocks, hlinked.stateHash x (hh.mem hf hx)] at hhash
    exact previous_unique hinj hhash
  obtain ⟨l, hl⟩ := (hh.finds hf).exists_ancestry hlinked hyblocks
  have hlx : Ancestry (TransitionChainProver.getPrevious hashing t history) x l :=
    hl.congr (congrArg (TransitionChainProver.findTransition t history) hparent)
  refine ⟨l, hh.available hf hx hlx holdest, fun length => ?_⟩
  obtain ⟨first, list, hashes, hprove, -, -, hverify, hhashes⟩ := (hh.finds hf).verify hlinked hyblocks hl length
  refine ⟨first.stateHash, list, hashes, fun fuel hfuel => ?_, hhash ▸ hverify, ?_⟩
  · have hprove := hprove fuel hfuel
    unfold TransitionChainProver.prove
    rw [hy]
    dsimp only
    unfold TransitionChainProver.getPrevious
    rw [hprove, Exn.andThen_ok]
  · rw [hhashes, List.map_cons, List.map_cons, hhash]

end Either

/-- What the best tip prover returns passes the checks. -/
theorem best_tip_complete {t : T F S} (hf : FrontierOf hashing blocks t) (hlinked : Linked hashing blocks) :
    BestTipComplete hashing t := by
  intro globalMaxLength genesisStateHash
  obtain ⟨r, hr⟩ := hf.wellFormed.rooted.root_some
  obtain ⟨n, hn⟩ := hf.wellFormed.bestTip
  have hroot := hf.wellFormed.rooted.keys _ r hr
  have htip := (hf.blocks _ n hn).mem
  obtain ⟨l, hl⟩ := hf.finds.exists_ancestry hlinked htip
  have hlength := hf.ancestry_length hlinked hr hl n (hf.key hn) rfl
  obtain ⟨first, list, hashes, hprove, rfl, hlist, hverify, -⟩ := hf.finds.verify hlinked htip hl none
  rw [upTo, hf.ancestry_root ⟨n, hf.key hn, rfl⟩ hl, ← hroot] at hverify
  have hstate : ∀ {h : F} {m : Node F S}, t.table h = some m →
      BestTipProver.withHash hashing m.breadcrumb.protocolState = m.breadcrumb.validatedTransition := by
    intro h m hm
    exact congrArg (Validated.mk · _) (hlinked.stateHash _ (hf.blocks h m hm).mem).symm
  have hpath : BestTipProver.bestTipPathLengthExn t = .ok (list.length : Int) := by
    have hlevels : (n.length : Int) - r.length = list.length := by
      rw [hlist, upTo]
      omega
    rw [BestTipProver.bestTipPathLengthExn, hn, hr, Option.bind_some, Option.map_some, Exn.valueExn_some, hlevels]
  have hbest : bestTip t = .ok n.breadcrumb := At.find ⟨n, hn, rfl⟩
  have hfound : findBreadcrumbExn t t.root = .ok r.breadcrumb := At.find ⟨r, hr, rfl⟩
  unfold BestTipProver.prove
  rw [hfound, hpath, hbest]
  simp only [Exn.andThen_ok]
  by_cases hcheck : (list.length : Int) = globalMaxLength ∨ r.breadcrumb.stateHash = genesisStateHash
  · refine ⟨some ⟨n.breadcrumb.validatedTransition, list, r.breadcrumb.protocolState⟩,
      ⟨l.length + 1, fun fuel hfuel => ?_⟩, fun p hp validateProofs => ?_⟩
    · have hprove := hprove fuel hfuel
      rw [if_pos hcheck]
      unfold BestTipProver.getPrevious
      rw [Option.map_none] at hprove
      rw [hprove, Exn.andThen_ok]
    · cases hp
      have hlengths : globalMaxLength = list.length ∨ r.breadcrumb.validatedTransition.stateHash = genesisStateHash :=
        hcheck.imp_left fun h => (Int.ofNat_inj.1 h).symm
      unfold BestTipProver.verify
      dsimp only
      rw [hstate hr, show n.breadcrumb.validatedTransition.protocolState = n.breadcrumb.protocolState from rfl,
        hstate hn, if_pos hlengths,
        show r.breadcrumb.validatedTransition.stateHash = r.breadcrumb.stateHash from rfl, hverify]
  · exact ⟨none, ⟨0, fun fuel _ => by rw [if_neg hcheck]⟩, fun p hp => (by cases hp)⟩

/-! ## Main result -/

/-- **Chain proofs are complete and sound.** What the provers return for a
well-formed frontier with the history of its previous roots is verified, and
what is verified are the hashes of the target and its ancestors. -/
theorem chain_proofs_right (hinj : Function.Injective2 hashing.hashesAbstract) (hlinked : Linked hashing blocks)
    {t : T F S} (hf : FrontierOf hashing blocks t) {history : RootHistory F S} {capacity : Nat}
    {previous : List (Breadcrumb F S)} {root oldest : Breadcrumb F S}
    (hh : HistoryOf hashing blocks t history capacity previous root)
    (holdest : (kept capacity previous ++ [root]).head? = some oldest) :
    ChainComplete hashing t history oldest.stateHash ∧ BestTipComplete hashing t ∧ ChainSound hashing :=
  ⟨chain_complete hf hh hlinked hinj holdest, best_tip_complete hf hlinked, chain_sound hinj⟩

/-- A protocol state is the hash of the one before and a body. -/
def pairHashing : Hashing Nat Nat (Nat × Nat) where
  previousStateHash state := state.1
  bodyHash state := state.2
  hashesAbstract previous body := Nat.pair previous body + 1

theorem pairHashing_injective : Function.Injective2 pairHashing.hashesAbstract := by
  intro p q b c h
  exact Nat.pair_eq_pair.1 (Nat.succ.inj h)

theorem pairHashing_linked : Linked pairHashing {x | x.stateHash = pairHashing.stateHash x.protocolState} where
  stateHash _ hx := hx
  wellFounded := by
    refine Subrelation.wf (r := InvImage (· < ·) Validated.stateHash) ?_ (InvImage.wf _ wellFounded_lt)
    intro p c h
    obtain ⟨-, hc, hparent⟩ := h
    rw [InvImage, ← hparent, show c.stateHash = _ from hc]
    exact Nat.lt_succ_of_le (Nat.left_le_pair _ _)

def pairBreadcrumb (state : Nat × Nat) : Breadcrumb Nat (Nat × Nat) where
  stateHash := pairHashing.stateHash state
  parentHash := state.1
  protocolState := state
  consensusState := forkRoot.consensusState
  requiredStateHashes := ⟨[], List.nodup_nil⟩
  justEmittedAProof := false
  proofTxnsStateHashes := none

theorem pairBreadcrumb_ofBlock (state : Nat × Nat) :
    OfBlock pairHashing {x | x.stateHash = pairHashing.stateHash x.protocolState} (pairBreadcrumb state) :=
  ⟨rfl, rfl⟩

def pairFrontier : T Nat (Nat × Nat) where
  root := 3
  bestTip := 3
  table := single (pairBreadcrumb (1, 0))
  protocolStatesForRootScanState _ := none
  maxLength := 1

def pairHistory : RootHistory Nat (Nat × Nat) where
  history := [entry (pairBreadcrumb (0, 0))]
  capacity := 2
  currentRoot := .ofBreadcrumb (pairBreadcrumb (1, 0))
  protocolStatesForRootScanState _ := none

theorem pairFrontier_of : FrontierOf pairHashing {x | x.stateHash = pairHashing.stateHash x.protocolState}
    pairFrontier where
  wellFormed := create_wellFormed (show create (pairBreadcrumb (1, 0)) [] 1 = .ok pairFrontier from rfl)
  blocks h n hn := by
    obtain ⟨-, rfl⟩ := single_some hn
    exact pairBreadcrumb_ofBlock (1, 0)

theorem pairHistory_of : HistoryOf pairHashing {x | x.stateHash = pairHashing.stateHash x.protocolState}
    pairFrontier pairHistory 2 [pairBreadcrumb (0, 0)] (pairBreadcrumb (1, 0)) where
  current := ⟨_, single_root (pairBreadcrumb (1, 0)), rfl⟩
  right := {
    history := rfl
    currentRoot := rfl
    others := by decide
    serves := fun b hb => by
      obtain rfl := List.mem_singleton.1 hb
      exact ⟨[], rfl, rfl⟩ }
  chain := List.isChain_cons_cons.2 ⟨rfl, .singleton _⟩
  blocks b hb := by
    obtain rfl := List.mem_singleton.1 hb
    exact pairBreadcrumb_ofBlock (0, 0)

theorem chain_proofs_right_pair : ChainComplete pairHashing pairFrontier pairHistory 1 ∧
    BestTipComplete pairHashing pairFrontier ∧ ChainSound pairHashing :=
  chain_proofs_right pairHashing_injective pairHashing_linked pairFrontier_of pairHistory_of
    (show _ = some (pairBreadcrumb (0, 0)) from rfl)

end Mina.Frontier
