/-
An honest sync converges to the target.

The answers to the queries of one goal come from a responder whose ledger has
that goal's root; they come in any order. `Converging` is what holds then: the
addresses that are waited for are expected to have the target's hashes, every
leaf that is not below one of them is the target's already, and no address
below one of them was ever asked for. A subtree that is not fetched has the
target's hash, and as the hashes are injective, the target's accounts.
-/
import Mina.SyncableLedger.Faults
import Mina.SyncableLedger.HonestAnswers

namespace Mina.SyncableLedger

variable {Hash Account D : Type} (P : Hashing Hash Account) (accountSubtreeHeight : Nat)

/-! ## Leaves -/

/-- The leaf is below the address. -/
def Under (d : Nat) (a : Addr) (i : Nat) : Prop :=
  Addr.first d a ≤ i ∧ i < Addr.first d a + 2 ^ Addr.height d a

theorem sameBelow_iff {t t' : MT Account} {a : Addr} :
    MT.SameBelow t t' a ↔ ∀ i, Under t.depth a i → t.get i = t'.get i := by
  constructor
  · intro h i hi
    obtain ⟨hle, hlt⟩ := hi
    have hi := h (i - Addr.first t.depth a) (by omega)
    rw [Nat.add_sub_cancel' hle] at hi
    exact hi
  · intro h i hi
    exact h _ ⟨Nat.le_add_right _ _, by omega⟩

theorem under_children {d : Nat} {a : Addr} (ha : a.length < d) {i : Nat} :
    Under d a i ↔ Under d (a ++ [.left]) i ∨ Under d (a ++ [.right]) i := by
  have hpow := Nat.pow_succ (n := 2) (m := d - a.length - 1)
  simp only [Under, Addr.first_left ha, Addr.first_right ha, Addr.height_child, Addr.height_pos ha, Nat.add_sub_cancel]
  omega

theorem under_root {d i : Nat} : Under d Addr.root i ↔ i < 2 ^ d := by
  rw [Under, Addr.first_root, Nat.zero_add]
  exact ⟨fun h => h.2, fun h => ⟨Nat.zero_le i, h⟩⟩

/-! ## Injective hashes -/

/-- No two leaves have one hash, an empty leaf being none of the accounts. -/
structure Hashing.Injective : Prop where
  merge : ∀ h a b a' b', P.merge h a b = P.merge h a' b' → a = a' ∧ b = b'
  slot : Function.Injective P.slot

theorem Hashing.Injective.sameBelow {P : Hashing Hash Account} (hP : P.Injective) {t t' : MT Account}
    (hd : t.depth = t'.depth) {a : Addr} (h : t.hashAt P a = t'.hashAt P a) : MT.SameBelow t t' a := by
  unfold MT.hashAt at h
  rw [← hd] at h
  exact Merkle.root_injective P.merge P.slot hP.merge hP.slot h

/-! ## Numbering addresses -/

/-- The bits of an address after a leading one. -/
def Addr.code (a : Addr) : Nat := a.foldl (fun acc dir => 2 * acc + Addr.bit dir) 1

theorem Addr.code_child (a : Addr) (dir : Direction) : code (a ++ [dir]) = 2 * code a + bit dir := by
  rw [code, List.foldl_append]
  rfl

theorem Addr.code_pos (a : Addr) : 0 < code a := by
  induction a using List.reverseRecOn with
  | nil => exact Nat.one_pos
  | append_singleton a dir ih =>
    rw [code_child]
    omega

theorem Addr.code_lt (a : Addr) : code a < 2 ^ (a.length + 1) := by
  induction a using List.reverseRecOn with
  | nil => exact Nat.one_lt_two
  | append_singleton a dir ih =>
    rw [code_child, List.length_append, List.length_singleton, Nat.pow_succ]
    cases dir <;> simp only [bit] <;> omega

theorem Addr.code_injective : Function.Injective code := by
  intro a
  induction a using List.reverseRecOn with
  | nil =>
    intro b h
    rcases List.eq_nil_or_concat b with rfl | ⟨b, dir, rfl⟩
    · rfl
    · have hpos := code_pos b
      rw [List.concat_eq_append, code_child] at h
      have hnil : code [] = 1 := rfl
      omega
  | append_singleton a dir ih =>
    intro b h
    rcases List.eq_nil_or_concat b with rfl | ⟨b, dir', rfl⟩
    · have hpos := code_pos a
      rw [code_child] at h
      have hnil : code [] = 1 := rfl
      omega
    · rw [List.concat_eq_append, code_child, code_child] at h
      have hcode : code a = code b ∧ dir = dir' := by
        cases dir <;> cases dir' <;> simp only [bit, and_true] at h ⊢ <;> omega
      rw [List.concat_eq_append, ih hcode.1, hcode.2]

/-- A tree has so many addresses. -/
theorem Addr.length_le {d : Nat} {l : List Addr} (hnodup : l.Nodup) (hl : ∀ a ∈ l, a.length ≤ d) :
    l.length + 1 ≤ 2 ^ (d + 1) := by
  have hmem : (l.map code).toFinset ⊆ Finset.Ico 1 (2 ^ (d + 1)) := by
    intro k hk
    rw [List.mem_toFinset, List.mem_map] at hk
    obtain ⟨a, ha, rfl⟩ := hk
    have hpow : 2 ^ (a.length + 1) ≤ 2 ^ (d + 1) := Nat.pow_le_pow_right (by omega) (by have := hl a ha; omega)
    rw [Finset.mem_Ico]
    exact ⟨code_pos a, (code_lt a).trans_le hpow⟩
  have hcard := Finset.card_le_card hmem
  rw [List.toFinset_card_of_nodup (hnodup.map code_injective), List.length_map, Nat.card_Ico] at hcard
  have := Nat.two_pow_pos (d + 1)
  omega

/-! ## The invariant of an honest sync -/

variable [DecidableEq Hash] (target : MT Account) (n : Nat)

/-- A number of accounts was accepted, `W` is waited for and the addresses of
`log` were asked for. -/
structure Converging (net : Net Hash Account D) (W : Addr → Option Hash) (log : List Addr) : Prop where
  inv : Inv accountSubtreeHeight net W
  goal : net.t.desiredRoot = some (target.merkleRoot P)
  depth : net.t.tree.depth = target.depth
  pending : ∀ x ∈ net.outstanding, x.rootHash = target.merkleRoot P ∧ x.round = net.round ∧ x.query ≠ .numAccounts
  filled : ∀ i, (net.t.tree.get i).isSome = true → i < n
  expected : ∀ a e, W a = some e → e = target.hashAt P a ∧ Addr.first target.depth a < n
  same : ∀ i < 2 ^ target.depth, net.t.tree.get i = target.get i ∨ ∃ a, (W a).isSome = true ∧ Under target.depth a i
  asked : alreadyDone net.t = false → ∀ a, (W a).isSome = true →
    ∃ x ∈ net.outstanding, x.query = queryOf accountSubtreeHeight target.depth a
  issued : net.issued = .numAccounts :: log.map (queryOf accountSubtreeHeight target.depth)
  nodup : log.Nodup
  logDepth : ∀ b ∈ log, b.length ≤ target.depth
  fresh : ∀ a, (W a).isSome = true → ∀ b ∈ log, a <+: b → a = b
  done : alreadyDone net.t = true → net.t.tree.merkleRoot P = target.merkleRoot P

theorem settle_queries (t : T Hash Account D) : (settle P t).queries = t.queries := by
  unfold settle
  split <;> rfl

theorem settle_tree (t : T Hash Account D) : (settle P t).tree = t.tree := by
  unfold settle
  split <;> rfl

theorem settle_desiredRoot (t : T Hash Account D) : (settle P t).desiredRoot = t.desiredRoot := by
  unfold settle
  split <;> rfl

theorem settle_done {t : T Hash Account D} (h : alreadyDone (settle P t) = true) :
    t.desiredRoot = some (t.tree.merkleRoot P) ∨ alreadyDone t = true := by
  unfold settle at h
  split at h
  next hroot => exact Or.inl hroot
  next => exact Or.inr h

omit [DecidableEq Hash] in
theorem expectAll_some {l : List (Addr × Hash)} : ∀ {W : Addr → Option Hash} {b : Addr} {e : Hash},
    expectAll W l b = some e → (b, e) ∈ l ∨ W b = some e := by
  induction l with
  | nil => exact fun h => Or.inr h
  | cons p l ih =>
    intro W b e h
    rw [expectAll_cons] at h
    rcases ih h with hmem | hW
    · exact Or.inl (List.mem_cons_of_mem p hmem)
    · by_cases hb : b = p.1
      · rw [hb, Function.update_self] at hW
        cases hW
        rw [hb]
        exact Or.inl List.mem_cons_self
      · rw [Function.update_of_ne hb] at hW
        exact Or.inr hW

/-- The net after an answer about an address, that waits for `W` then. -/
def acceptedNet (net : Net Hash Account D) (x : Pending Hash) (tree' : MT Account) (l : List (Addr × Hash))
    (W : Addr → Option Hash) : Net Hash Account D :=
  { net with outstanding := net.outstanding.erase x }.read
    (settle P (withTables accountSubtreeHeight
      (writeAll accountSubtreeHeight { net.t with tree := tree' } x.rootHash l) W)) net.round

theorem acceptedNet_tree (net : Net Hash Account D) (x : Pending Hash) (tree' : MT Account) (l : List (Addr × Hash))
    (W : Addr → Option Hash) : (acceptedNet P accountSubtreeHeight net x tree' l W).t.tree = tree' := settle_tree P _

section Accepted

variable {P accountSubtreeHeight target n} {net : Net Hash Account D} {W : Addr → Option Hash} {log : List Addr}
  (h : Converging P accountSubtreeHeight target n net W log) {x : Pending Hash} (hx : x ∈ net.outstanding)
include h hx

/-- An answer about an address whose leaves are then the target's, or below a
child that is asked for. -/
theorem Converging.accepted {a : Addr} {l : List (Addr × Hash)} {tree' : MT Account}
    (hquery : x.query = queryOf accountSubtreeHeight target.depth a) (hW : (W a).isSome = true)
    (hdepth : tree'.depth = target.depth) (hnodup : (l.map (·.1)).Nodup)
    (hl : ∀ p ∈ l, (∃ dir, p.1 = a ++ [dir]) ∧ a.length < target.depth)
    (hexpected : ∀ p ∈ l, p.2 = target.hashAt P p.1 ∧ Addr.first target.depth p.1 < n)
    (hfilled : ∀ i, (tree'.get i).isSome = true → i < n)
    (hin : ∀ i, Under target.depth a i → tree'.get i = target.get i ∨ ∃ p ∈ l, Under target.depth p.1 i)
    (hout : ∀ i, ¬ Under target.depth a i → tree'.get i = net.t.tree.get i) (hdone : alreadyDone net.t = false) :
    Converging P accountSubtreeHeight target n
      (acceptedNet P accountSubtreeHeight net x tree' l (expectAll (Function.update W a none) l))
      (expectAll (Function.update W a none) l) (log ++ l.map (·.1)) := by
  have hpending : (acceptedNet P accountSubtreeHeight net x tree' l (expectAll (Function.update W a none) l)).outstanding =
      net.outstanding.erase x ++
        l.map fun p => ⟨net.round, x.rootHash, queryOf accountSubtreeHeight target.depth p.1⟩ := by
    simp only [acceptedNet, Net.read, settle_queries, withTables, writeAll, h.inv.queries, List.nil_append, List.map_map, hdepth]
    rfl
  have hother : ∀ {b}, b ≠ a → (Function.update W a none b) = W b := fun hb => Function.update_of_ne hb _ _
  have hcases : ∀ {b}, (expectAll (Function.update W a none) l b).isSome = true →
      (∃ p ∈ l, p.1 = b) ∨ b ≠ a ∧ (W b).isSome = true := by
    intro b hb
    rcases expectAll_isSome.1 hb with hp | hb
    · exact Or.inl hp
    · by_cases hba : b = a
      · rw [hba, Function.update_self] at hb
        cases hb
      · rw [hother hba] at hb
        exact Or.inr ⟨hba, hb⟩
  have hround := (h.pending x hx).2.1
  refine ⟨?_, ?_, ?_, ?_, ?_, fun b e hb => ?_, fun i hi => ?_, fun hnot b hb => ?_, ?_, ?_, fun b hb => ?_,
    fun b hb c hc hbc => ?_, fun hdone' => ?_⟩
  · rw [← h.depth] at hquery hdepth hl
    exact (h.inv.accepted accountSubtreeHeight hx hquery hround hW hdepth hnodup hl).settled P accountSubtreeHeight
  · exact (settle_desiredRoot P _).trans h.goal
  · rw [acceptedNet_tree]
    exact hdepth
  · rw [hpending]
    intro y hy
    rcases List.mem_append.1 hy with hy | hy
    · exact h.pending y (List.mem_of_mem_erase hy)
    · obtain ⟨p, -, rfl⟩ := List.mem_map.1 hy
      exact ⟨(h.pending x hx).1, rfl, queryOf_ne_numAccounts accountSubtreeHeight _ _⟩
  · intro i hi
    refine hfilled i ?_
    rw [acceptedNet_tree] at hi
    exact hi
  · rcases expectAll_some hb with hp | hb
    · exact hexpected (b, e) hp
    · by_cases hba : b = a
      · rw [hba, Function.update_self] at hb
        cases hb
      · rw [hother hba] at hb
        exact h.expected b e hb
  · rw [acceptedNet_tree]
    by_cases hu : Under target.depth a i
    · rcases hin i hu with heq | ⟨p, hp, hpu⟩
      · exact Or.inl heq
      · exact Or.inr ⟨p.1, expectAll_isSome.2 (Or.inl ⟨p, hp, rfl⟩), hpu⟩
    · rw [hout i hu]
      rcases h.same i hi with heq | ⟨b, hb, hbu⟩
      · exact Or.inl heq
      · refine Or.inr ⟨b, expectAll_isSome.2 (Or.inr ?_), hbu⟩
        rw [hother fun hba => hu (hba ▸ hbu)]
        exact hb
  · rw [hpending]
    rcases hcases hb with ⟨p, hp, rfl⟩ | ⟨hba, hb⟩
    · exact ⟨_, List.mem_append_right _ (List.mem_map_of_mem hp), rfl⟩
    · obtain ⟨y, hy, hyq⟩ := h.asked hdone b hb
      refine ⟨y, List.mem_append_left _ ((List.mem_erase_of_ne ?_).2 hy), hyq⟩
      rintro rfl
      exact hba (queryOf_injective accountSubtreeHeight (hyq.symm.trans hquery))
  · show net.issued ++ List.map _ (settle P _).queries = _
    rw [settle_queries, h.issued, List.map_append, List.map_map, List.cons_append]
    simp only [withTables, writeAll, h.inv.queries, List.nil_append, List.map_map, hdepth]
    rfl
  · refine h.nodup.append hnodup fun b hb hb' => ?_
    obtain ⟨p, hp, rfl⟩ := List.mem_map.1 hb'
    obtain ⟨⟨dir, hdir⟩, -⟩ := hl p hp
    have heq := h.fresh a hW p.1 hb (by rw [hdir]; exact List.prefix_append a [dir])
    rw [hdir] at heq
    simp at heq
  · rcases List.mem_append.1 hb with hb | hb
    · exact h.logDepth b hb
    · obtain ⟨p, hp, rfl⟩ := List.mem_map.1 hb
      obtain ⟨⟨dir, hdir⟩, hlt⟩ := hl p hp
      rw [hdir, List.length_append, List.length_singleton]
      exact hlt
  · rcases hcases hb with ⟨p, hp, rfl⟩ | ⟨hba, hb⟩
    · obtain ⟨⟨dir, hdir⟩, -⟩ := hl p hp
      rcases List.mem_append.1 hc with hc | hc
      · have hac : a <+: c := by
          rw [hdir] at hbc
          exact (List.prefix_append a [dir]).trans hbc
        have heq := h.fresh a hW c hc hac
        have hlen := hbc.length_le
        rw [hdir, ← heq, List.length_append, List.length_singleton] at hlen
        omega
      · obtain ⟨q, hq, rfl⟩ := List.mem_map.1 hc
        obtain ⟨⟨dir', hdir'⟩, -⟩ := hl q hq
        exact hbc.eq_of_length (by rw [hdir, hdir']; simp)
    · rcases List.mem_append.1 hc with hc | hc
      · exact h.fresh b hb c hc hbc
      · obtain ⟨p, hp, rfl⟩ := List.mem_map.1 hc
        obtain ⟨⟨dir, hdir⟩, -⟩ := hl p hp
        rw [hdir] at hbc ⊢
        rcases List.prefix_concat_iff.1 hbc with heq | hprefix
        · exact heq
        · exact absurd (h.inv.frontier.antichain b a hb hW hprefix) hba
  · have hroot : some (target.merkleRoot P) = some (tree'.merkleRoot P) ∨ alreadyDone net.t = true := by
      rcases settle_done P hdone' with hroot | hold
      · exact Or.inl (h.goal.symm.trans hroot)
      · exact Or.inr hold
    rw [acceptedNet_tree]
    rcases hroot with hroot | hold
    · exact (Option.some.inj hroot).symm
    · rw [hdone] at hold
      cases hold

omit [DecidableEq Hash] in
/-- The query is about an address that is waited for, and it has accounts. -/
theorem Converging.query :
    ∃ a, x.query = queryOf accountSubtreeHeight target.depth a ∧ W a = some (target.hashAt P a) ∧
      a.length ≤ target.depth ∧ Addr.first target.depth a < n := by
  obtain ⟨-, hround, hquery⟩ := h.pending x hx
  rcases h.inv.current x hx hround with hnum | ⟨a, hq, ha⟩
  · exact absurd hnum hquery
  · obtain ⟨e, he⟩ := Option.isSome_iff_exists.1 ha
    obtain ⟨rfl, hfirst⟩ := h.expected a e he
    have hle := h.inv.frontier.depth a ha
    rw [h.depth] at hq hle
    exact ⟨a, hq, he, hle, hfirst⟩

/-- An answer after the sync is done. -/
theorem Converging.ignored (hdone : alreadyDone net.t = true) (ans : Answer Hash Account) :
    ∃ net', net.answer P accountSubtreeHeight x ans = .ok (net', none) ∧
      Converging P accountSubtreeHeight target n net' W log := by
  have hhandled : ¬ Handled net.t x := by
    rintro ⟨-, hnot⟩
    rw [hdone] at hnot
    cases hnot
  have hanswer := handleAnswer_ignored P accountSubtreeHeight h.inv hx hhandled ans
  refine ⟨{ net with outstanding := net.outstanding.erase x }.read net.t net.round, ?_, ?_⟩
  · refine (Exn.andThen_of_ok hanswer _).trans ?_
    rw [Net.nextRound_of_ne (h.pending x hx).2.2]
  · have hpending : ({ net with outstanding := net.outstanding.erase x }.read net.t net.round).outstanding =
        net.outstanding.erase x := by
      simp only [Net.read, h.inv.queries, List.map_nil, List.append_nil]
    refine ⟨h.inv.ignored accountSubtreeHeight x, h.goal, h.depth, ?_, h.filled, h.expected, h.same, fun hnot => ?_, ?_,
      h.nodup, h.logDepth, h.fresh, h.done⟩
    · rw [hpending]
      exact fun y hy => h.pending y (List.mem_of_mem_erase hy)
    · exact absurd (hdone.symm.trans hnot) (by decide)
    · show net.issued ++ List.map _ net.t.queries = _
      rw [h.inv.queries, List.map_nil, List.append_nil, h.issued]

theorem Converging.answer_ok (hhandled : Handled net.t x) {ans : Answer Hash Account} {l : List (Addr × Hash)}
    {tree' : MT Account} {W' : Addr → Option Hash}
    (hr : handleResult P accountSubtreeHeight net.t x.rootHash x.query ans =
      .ok (withTables accountSubtreeHeight
        (writeAll accountSubtreeHeight { net.t with tree := tree' } x.rootHash l) W', .fulfilledRequest))
    (houtcome : Outcome accountSubtreeHeight net W x
      (withTables accountSubtreeHeight
        (writeAll accountSubtreeHeight { net.t with tree := tree' } x.rootHash l) W', .fulfilledRequest)) :
    net.answer P accountSubtreeHeight x ans =
      .ok (acceptedNet P accountSubtreeHeight net x tree' l W', some .fulfilledRequest) := by
  have hanswer := handleAnswer_ok P accountSubtreeHeight h.inv hhandled hr houtcome
  refine (Exn.andThen_of_ok hanswer _).trans ?_
  rw [Net.nextRound_of_ne (h.pending x hx).2.2]
  rfl

end Accepted

section Step

variable {P accountSubtreeHeight target n} (hP : P.Injective) (ht : Filled target n) (hn : n ≤ 2 ^ target.depth)
  {net : Net Hash Account D} {W : Addr → Option Hash} {log : List Addr}
  (h : Converging P accountSubtreeHeight target n net W log) {x : Pending Hash} (hx : x ∈ net.outstanding)
  (hdone : alreadyDone net.t = false) {a : Addr} (hquery : x.query = queryOf accountSubtreeHeight target.depth a)
  (hW : W a = some (target.hashAt P a))
include hP ht h hx hdone hquery hW

omit [DecidableEq Hash] hP h hx hdone hquery hW in
/-- A subtree with another hash has accounts. -/
theorem first_lt {t : MT Account} (hd : t.depth = target.depth) (hfilled : ∀ i, (t.get i).isSome = true → i < n) {b : Addr}
    (hne : t.hashAt P b ≠ target.hashAt P b) : Addr.first target.depth b < n := by
  by_contra hnot
  refine hne (MT.hashAt_congr P hd (sameBelow_iff.2 fun i hi => ?_))
  rw [hd] at hi
  have hle : n ≤ i := by
    have := hi.1
    omega
  have hnone : t.get i = none := by
    rw [← Option.not_isSome_iff_eq_none]
    intro hsome
    have := hfilled i hsome
    omega
  rw [hnone, ht.none hle]

/-- The hashes of the children. -/
theorem Converging.children (hlt : a.length < target.depth - accountSubtreeHeight) :
    ∃ ans net', Responder.answerQuery P accountSubtreeHeight target x.query = .ok (some ans) ∧
      net.answer P accountSubtreeHeight x ans = .ok (net', some .fulfilledRequest) ∧
      ∃ W' log', Converging P accountSubtreeHeight target n net' W' log' := by
  have hlt' : a.length < target.depth := by omega
  have hhandled : Handled net.t x := ⟨by rw [h.goal, (h.pending x hx).1], hdone⟩
  have hq : x.query = .whatChildHashes a := by rw [hquery, queryOf, if_pos hlt]
  have hsome : (W a).isSome = true := by rw [hW]; rfl
  have hr := handleResult_children P accountSubtreeHeight hhandled.1 hW
    (fun dir => h.inv.frontier.child_none hsome dir) (by rw [h.depth]; exact hlt)
    (target.hashAt P (a ++ [.left])) (target.hashAt P (a ++ [.right]))
  rw [← h.inv.tables, h.depth, ← MT.hashAt_children P hlt', if_pos rfl, ← hq] at hr
  have hstale : ∀ p ∈ stale P net.t.tree a (target.hashAt P (a ++ [.left])) (target.hashAt P (a ++ [.right])),
      p.2 = target.hashAt P p.1 ∧ net.t.tree.hashAt P p.1 ≠ target.hashAt P p.1 := by
    intro p hp
    obtain ⟨rfl | rfl, hne⟩ := (mem_stale P).1 hp
    · exact ⟨rfl, hne⟩
    · exact ⟨rfl, hne⟩
  have hl : ∀ p ∈ stale P net.t.tree a (target.hashAt P (a ++ [.left])) (target.hashAt P (a ++ [.right])),
      (∃ dir, p.1 = a ++ [dir]) ∧ a.length < target.depth := fun p hp => ⟨stale_child P hp, hlt'⟩
  have hnodup := stale_nodup P net.t.tree a (target.hashAt P (a ++ [.left])) (target.hashAt P (a ++ [.right]))
  refine ⟨_, _, by rw [hq]; exact Responder.answer_children P accountSubtreeHeight hlt',
    h.answer_ok hx hhandled hr ?_, _, _,
    h.accepted hx hquery hsome h.depth hnodup hl (fun p hp => ⟨(hstale p hp).1, ?_⟩) h.filled (fun i hi => ?_)
      (fun i _ => rfl) hdone⟩
  · exact .accepted (by rw [hquery, h.depth]) (h.pending x hx).2.1 hsome rfl hnodup
      (by rw [h.depth]; exact hl)
  · exact first_lt ht h.depth h.filled (hstale p hp).2
  · have hchild : ∀ dir, Under target.depth (a ++ [dir]) i → net.t.tree.get i = target.get i ∨
        ∃ p ∈ stale P net.t.tree a (target.hashAt P (a ++ [.left])) (target.hashAt P (a ++ [.right])),
          Under target.depth p.1 i := by
      intro dir hu
      by_cases hhash : net.t.tree.hashAt P (a ++ [dir]) = target.hashAt P (a ++ [dir])
      · refine Or.inl (sameBelow_iff.1 (hP.sameBelow h.depth hhash) i ?_)
        rw [h.depth]
        exact hu
      · refine Or.inr ⟨(a ++ [dir], target.hashAt P (a ++ [dir])), (mem_stale P).2 ⟨?_, hhash⟩, hu⟩
        cases dir
        · exact Or.inl rfl
        · exact Or.inr rfl
    rcases (under_children hlt').1 hi with hu | hu
    · exact hchild .left hu
    · exact hchild .right hu

include hn
omit hP

/-- The accounts below an address. -/
theorem Converging.contents (hnot : ¬ a.length < target.depth - accountSubtreeHeight) (hle : a.length ≤ target.depth)
    (hfirst : Addr.first target.depth a < n) :
    ∃ ans net', Responder.answerQuery P accountSubtreeHeight target x.query = .ok (some ans) ∧
      net.answer P accountSubtreeHeight x ans = .ok (net', some .fulfilledRequest) ∧
      ∃ W' log', Converging P accountSubtreeHeight target n net' W' log' := by
  have hhandled : Handled net.t x := ⟨by rw [h.goal, (h.pending x hx).1], hdone⟩
  have hq : x.query = .whatContents a := by rw [hquery, queryOf, if_neg hnot]
  have hsome : (W a).isSome = true := by rw [hW]; rfl
  have hheight : Addr.height target.depth a ≤ accountSubtreeHeight := by
    rw [Addr.height, Addr.depth]
    omega
  obtain ⟨l, hanswer, hlen, hget⟩ := Responder.answer_contents P accountSubtreeHeight ht hn hle hheight hfirst
  obtain ⟨tree', hset, hdepth, hget'⟩ := MT.setAllAccountsRootedAtExn_ok (t := net.t.tree) (by rw [h.depth]; exact hle)
    (l := l) (by rw [hlen, h.depth]; exact Nat.min_le_right _ _)
  rw [h.depth] at hdepth
  simp only [h.depth] at hget'
  have hin : ∀ i, Under target.depth a i → tree'.get i = target.get i := by
    intro i hi
    obtain ⟨hi, hi'⟩ := hi
    rw [hget']
    split
    next hlt =>
      rw [hget _ (by omega), Nat.add_sub_cancel' hi]
    next hge =>
      have hni : n ≤ i := by omega
      rw [ht.none hni, ← Option.not_isSome_iff_eq_none]
      intro hsome'
      have := h.filled i hsome'
      omega
  have hhash : tree'.hashAt P a = target.hashAt P a :=
    MT.hashAt_congr P hdepth (sameBelow_iff.2 fun i hi => hin i (by rw [← hdepth]; exact hi))
  have hr := handleResult_contents P accountSubtreeHeight (g := x.rootHash) hW (by rw [h.depth]; exact hnot)
    (by rw [h.depth]; exact hle) hset (by rw [hdepth, h.depth]) hhash
  rw [← h.inv.tables, ← hq] at hr
  have hr' : handleResult P accountSubtreeHeight net.t x.rootHash x.query (.contentsAre l) =
      .ok (withTables accountSubtreeHeight
        (writeAll accountSubtreeHeight { net.t with tree := tree' } x.rootHash [])
        (expectAll (Function.update W a none) []), .fulfilledRequest) := by
    rw [writeAll, List.map_nil, List.append_nil]
    exact hr
  refine ⟨_, _, by rw [hq]; exact hanswer, h.answer_ok hx hhandled hr' ?_, _, _,
    h.accepted hx hquery hsome hdepth List.nodup_nil (by simp) (by simp) (fun i hi => ?_) (fun i hi => Or.inl (hin i hi))
      (fun i hi => ?_) hdone⟩
  · exact .accepted (by rw [hquery, h.depth]) (h.pending x hx).2.1 hsome (by rw [hdepth, h.depth]) List.nodup_nil (by simp)
  · rw [hget'] at hi
    split at hi
    next hlt => omega
    next => exact h.filled i hi
  · rw [hget', if_neg]
    rintro ⟨hi', hi''⟩
    exact hi ⟨hi', by omega⟩

end Step

end Mina.SyncableLedger
