/-
Downloading missing blocks over whole runs (`download_right`).

A chunk's peers are those that it has asked and those in its pool, so that it
asks each once if they are distinct. As long as a chunk has a peer left
whenever an answer fails, each step either gets nearer to the end or leaves
all as it is, waiting for a peer that another chunk has asked; and so, with
each request answered, all chunks finish. When the last peer fails the chunk
waits for ever.
-/
import Mina.LedgerCatchup.DownloadTransitions

namespace Mina.LedgerCatchup

variable {P B H : Type} [DecidableEq P] [DecidableEq H] (S : Setting P B H) {n : Nat}

/-! ## What is to hold -/

/-- An answer that is not the blocks asked for. -/
def Fails (hashes : List H) : Response B → Prop
  | .error _ => True
  | .transitions l => verifyAgainstHashes S l hashes = false

/-- The peers that a chunk is given are distinct, and when an answer fails
there is a peer left. -/
def Condition (d : Download P B H n) : Event P B n → Prop
  | .peers _ l => (S.preferredPeer :: l).Nodup
  | .response i r => Fails S (d.chunk i).hashes r → (d.chunk i).pool.peers ≠ []
  | .after _ => True

inductive Runs (d : Download P B H n) : Download P B H n → Prop
  | nil : Runs d d
  | snoc {d₁ d₂ : Download P B H n} {event : Event P B n} : Runs d d₁ → Condition S d₁ event →
      step S d₁ event = some d₂ → Runs d d₂

/-- A chunk asks each peer once, gives the errors when all have failed, and
the blocks are those of the hashes. -/
structure RunRight (hashes : List H) (d : Download P B H n) : Prop where
  once : ∀ i, (d.chunk i).asked.Nodup
  failed : ∀ i, (d.chunk i).phase ≠ .starting → (∀ p ∈ (d.chunk i).given, p ∈ (d.chunk i).failed) →
    (d.chunk i).phase = .finished (.error (d.chunk i).errs.reverse)
  blocks : ∀ l, d.result = some l → l.map (fun e => S.stateHash e.data) = hashes

/-- A run without end, with steps that may be left out. -/
def Trace (d : Download P B H n) (σ : Nat → Download P B H n) (event : Nat → Option (Event P B n)) : Prop :=
  σ 0 = d ∧ ∀ k, (event k = none ∧ σ (k + 1) = σ k) ∨
    ∃ e, event k = some e ∧ Condition S (σ k) e ∧ step S (σ k) e = some (σ (k + 1))

/-- What a chunk waits for comes. -/
structure Fair (σ : Nat → Download P B H n) (event : Nat → Option (Event P B n)) : Prop where
  peers : ∀ k i, ((σ k).chunk i).phase = .starting → ∃ m ≥ k, ∃ l, event m = some (.peers i l)
  response : ∀ k i p, ((σ k).chunk i).phase = .requesting p → ∃ m ≥ k, ∃ r, event m = some (.response i r)
  after : ∀ k i, ((σ k).chunk i).phase = .waiting → ∃ m ≥ k, event m = some (.after i)

/-! ## Chunks of hashes -/

omit [DecidableEq H] in
theorem partition_flatten (size : Nat) (hsize : 0 < size) (l : List H) : (partition size hsize l).flatten = l := by
  fun_induction partition size hsize l with
  | case1 => rfl
  | case2 a l ih => rw [List.flatten_cons, ih, List.take_append_drop]

omit [DecidableEq P] in
theorem verify_eq {l : List B} {hashes : List H} (h : verifyAgainstHashes S l hashes = true) :
    l.map S.stateHash = hashes := by
  rw [verifyAgainstHashes, Bool.and_eq_true, decide_eq_true_eq, List.all_eq_true] at h
  obtain ⟨hlen, hall⟩ := h
  refine List.ext_getElem (by rw [List.length_map, hlen]) fun i hi hi' => ?_
  rw [List.length_map] at hi
  have hmem : (l[i], hashes[i]) ∈ l.zip hashes :=
    List.mem_iff_getElem.2 ⟨i, by rw [List.length_zip]; omega, List.getElem_zip⟩
  rw [List.getElem_map]
  exact of_decide_eq_true (hall _ hmem)

omit [DecidableEq P] in
theorem checkResponse_error (peer : P) {hashes : List H} {r : Response B} (h : Fails S hashes r) :
    ∃ e, checkResponse S peer hashes r = .error e := by
  cases r with
  | error e => exact ⟨e, rfl⟩
  | transitions l =>
    rw [checkResponse, (h : verifyAgainstHashes S l hashes = false), if_neg Bool.false_ne_true]
    exact ⟨_, rfl⟩

omit [DecidableEq P] in
theorem checkResponse_ok (peer : P) {hashes : List H} {r : Response B} (h : ¬ Fails S hashes r) :
    ∃ l, checkResponse S peer hashes r = .ok l ∧ l.map (fun e => S.stateHash e.data) = hashes := by
  cases r with
  | error e => exact absurd trivial h
  | transitions l =>
    have hverify : verifyAgainstHashes S l hashes = true := Bool.not_eq_false _ ▸ h
    rw [checkResponse, if_pos hverify]
    refine ⟨_, rfl, ?_⟩
    rw [List.map_map]
    exact verify_eq S hverify

/-! ## A chunk -/

omit [DecidableEq H] in
/-- `go` waits for the busy peers of its pool or asks one that is not busy. -/
theorem go_eq (busy : Finset P) (c : Chunk P B H) :
    (∀ x ∈ c.pool.peers, x ∈ busy) ∧ c.go busy = (busy, { c with phase := .waiting }) ∨
    ∃ x left, x ∉ busy ∧ c.pool.peers.Perm (x :: left.peers) ∧
      c.go busy = (insert x busy, { c with pool := left, phase := .requesting x, asked := x :: c.asked }) := by
  by_cases hbusy : ∀ x ∈ c.pool.peers, x ∈ busy
  · left
    refine ⟨hbusy, ?_⟩
    rw [Chunk.go, PeersPool.dequeue_busy hbusy]
  · right
    obtain ⟨x, left, heq, hfind, hperm⟩ := PeersPool.dequeue_available hbusy
    refine ⟨x, left, by simpa using List.find?_some hfind, hperm, ?_⟩
    rw [Chunk.go, heq]

structure ChunkInv (c : Chunk P B H) : Prop where
  starting : c.phase = .starting → c.asked = [] ∧ c.failed = []
  given : c.phase ≠ .starting → c.given.Nodup ∧ c.given.Perm (c.asked ++ c.pool.peers)
  requesting : ∀ p, c.phase = .requesting p → c.asked = p :: c.failed
  waiting : c.phase = .waiting → c.asked = c.failed ∧ c.pool.peers ≠ []
  finished : ∀ res, c.phase = .finished res → ∃ p l, c.asked = p :: c.failed ∧ res = .ok l ∧
    l.map (fun e => S.stateHash e.data) = c.hashes

theorem go_inv (busy : Finset P) {c : Chunk P B H} (hnodup : c.given.Nodup)
    (hgiven : c.given.Perm (c.asked ++ c.pool.peers)) (hfailed : c.asked = c.failed) (hpool : c.pool.peers ≠ []) :
    ChunkInv S (c.go busy).2 := by
  rcases go_eq busy c with ⟨-, heq⟩ | ⟨x, left, -, hperm, heq⟩ <;> rw [heq]
  · exact ⟨fun h => (by cases h), fun _ => ⟨hnodup, hgiven⟩, fun p h => (by cases h), fun _ => ⟨hfailed, hpool⟩,
      fun res h => (by cases h)⟩
  · refine ⟨fun h => (by cases h), fun _ => ⟨hnodup, ?_⟩, fun p h => ?_, fun h => (by cases h), fun res h => (by cases h)⟩
    · exact hgiven.trans ((hperm.append_left c.asked).trans List.perm_middle)
    · cases h
      exact congrArg (x :: ·) hfailed

theorem start_inv (busy : Finset P) {c : Chunk P B H} (hinv : ChunkInv S c) (hc : c.phase = .starting) {l : List P}
    (hl : (S.preferredPeer :: l).Nodup) : ChunkInv S (c.start S busy l).2 := by
  obtain ⟨hasked, hfailed⟩ := hinv.starting hc
  refine go_inv S busy hl ?_ (hasked.trans hfailed.symm) (List.cons_ne_nil _ _)
  dsimp only
  rw [hasked]
  exact .refl _

theorem answered_inv (busy : Finset P) {c : Chunk P B H} {peer : P} (hinv : ChunkInv S c)
    (hc : c.phase = .requesting peer) {r : Response B} (hr : Fails S c.hashes r → c.pool.peers ≠ []) :
    ChunkInv S (c.answered S busy peer r).2 := by
  have hasked := hinv.requesting peer hc
  obtain ⟨hnodup, hgiven⟩ := hinv.given fun h => by rw [hc] at h; cases h
  rw [Chunk.answered]
  by_cases hfails : Fails S c.hashes r
  · obtain ⟨e, he⟩ := checkResponse_error S peer hfails
    rw [he]
    exact go_inv S _ hnodup hgiven hasked (hr hfails)
  · obtain ⟨l, hl, hhashes⟩ := checkResponse_ok S peer hfails
    rw [hl]
    exact ⟨fun h => (by cases h), fun _ => ⟨hnodup, hgiven⟩, fun p h => (by cases h), fun h => (by cases h),
      fun res h => by cases h; exact ⟨peer, l, hasked, rfl, hhashes⟩⟩

/-- The busy peers after a chunk's turn, and what it asks. -/
theorem go_busy (busy : Finset P) (c : Chunk P B H) :
    (c.go busy).1 = busy ∧ (∀ p, (c.go busy).2.phase ≠ .requesting p) ∨
    ∃ x, x ∉ busy ∧ (c.go busy).1 = insert x busy ∧ (c.go busy).2.phase = .requesting x := by
  rcases go_eq busy c with ⟨-, heq⟩ | ⟨x, left, hx, -, heq⟩ <;> rw [heq]
  · exact .inl ⟨rfl, fun p h => by cases h⟩
  · exact .inr ⟨x, hx, rfl, rfl⟩

theorem answered_busy (busy : Finset P) (c : Chunk P B H) (peer : P) (r : Response B) :
    (c.answered S busy peer r).1 = busy.erase peer ∧ (∀ p, (c.answered S busy peer r).2.phase ≠ .requesting p) ∨
    ∃ x, x ∉ busy.erase peer ∧ (c.answered S busy peer r).1 = insert x (busy.erase peer) ∧
      (c.answered S busy peer r).2.phase = .requesting x := by
  rw [Chunk.answered]
  cases checkResponse S peer c.hashes r with
  | ok l => exact .inl ⟨rfl, fun p h => by cases h⟩
  | error e => exact go_busy _ _

theorem go_hashes (busy : Finset P) (c : Chunk P B H) : (c.go busy).2.hashes = c.hashes := by
  rcases go_eq busy c with ⟨-, heq⟩ | ⟨x, left, -, -, heq⟩ <;> rw [heq]

theorem answered_hashes (busy : Finset P) (c : Chunk P B H) (peer : P) (r : Response B) :
    (c.answered S busy peer r).2.hashes = c.hashes := by
  rw [Chunk.answered]
  cases checkResponse S peer c.hashes r with
  | ok l => rfl
  | error e => exact go_hashes _ _

/-! ## All chunks -/

structure Inv (hashes : List H) (d : Download P B H n) : Prop where
  chunk : ∀ i, ChunkInv S (d.chunk i)
  hashes : List.ofFn (fun i => (d.chunk i).hashes) = partition maxCatchupChunkLength (by decide) hashes
  busy : ∀ p, p ∈ d.busy ↔ ∃ i, (d.chunk i).phase = .requesting p
  alone : ∀ i j p, (d.chunk i).phase = .requesting p → (d.chunk j).phase = .requesting p → i = j

variable {S} {hashes : List H} {d d' : Download P B H n}

omit [DecidableEq P] [DecidableEq H] in
theorem Initial.inv (h : Initial hashes d) : Inv S hashes d := by
  have hphase : ∀ i p, (d.chunk i).phase ≠ .requesting p := fun i p hp => by
    rw [(h.starting i).1] at hp
    cases hp
  refine ⟨fun i => ?_, h.chunks, fun p => ?_, fun i j p hi _ => absurd hi (hphase i p)⟩
  · obtain ⟨hstarting, hghosts⟩ := h.starting i
    refine ⟨fun _ => hghosts, fun hne => absurd hstarting hne, fun p hp => ?_, fun hp => ?_, fun res hp => ?_⟩ <;>
    · rw [hstarting] at hp
      cases hp
  · rw [h.busy]
    exact iff_of_false (Finset.notMem_empty p) fun ⟨i, hi⟩ => hphase i p hi

omit [DecidableEq H] in
/-- One chunk takes its turn, with the peers busy that others have asked. -/
theorem Inv.set (hinv : Inv S hashes d) {i : Fin n} {busy : Finset P} {r : Finset P × Chunk P B H}
    (hbusy : ∀ p, p ∈ busy ↔ ∃ j, j ≠ i ∧ (d.chunk j).phase = .requesting p)
    (hr : r.1 = busy ∧ (∀ p, r.2.phase ≠ .requesting p) ∨ ∃ x, x ∉ busy ∧ r.1 = insert x busy ∧ r.2.phase = .requesting x)
    (hchunk : ChunkInv S r.2) (hhashes : r.2.hashes = (d.chunk i).hashes) : Inv S hashes (d.set i r) := by
  have hself : ((d.set i r).chunk i) = r.2 := Function.update_self _ _ _
  have hother : ∀ j, j ≠ i → (d.set i r).chunk j = d.chunk j := fun j hj => Function.update_of_ne hj _ _
  have hcases : ∀ p, (∃ j, ((d.set i r).chunk j).phase = .requesting p) ↔
      r.2.phase = .requesting p ∨ ∃ j, j ≠ i ∧ (d.chunk j).phase = .requesting p := by
    intro p
    constructor
    · rintro ⟨j, hj⟩
      by_cases hji : j = i
      · subst hji
        exact .inl (hself ▸ hj)
      · exact .inr ⟨j, hji, hother j hji ▸ hj⟩
    · rintro (hp | ⟨j, hji, hj⟩)
      · exact ⟨i, hself.symm ▸ hp⟩
      · exact ⟨j, (hother j hji).symm ▸ hj⟩
  -- no other chunk has asked the peer that this one asks
  have hfresh : ∀ p j, r.2.phase = .requesting p → j ≠ i → (d.chunk j).phase ≠ .requesting p := by
    intro p j hp hji hj
    rcases hr with ⟨-, hnone⟩ | ⟨x, hx, -, hphase⟩
    · exact hnone p hp
    · rw [hphase] at hp
      cases hp
      exact hx ((hbusy _).2 ⟨j, hji, hj⟩)
  refine ⟨fun j => ?_, ?_, fun p => ?_, fun j k p hj hk => ?_⟩
  · by_cases hji : j = i
    · subst hji
      exact hself.symm ▸ hchunk
    · exact (hother j hji).symm ▸ hinv.chunk j
  · rw [← hinv.hashes]
    congr 1
    funext j
    by_cases hji : j = i
    · subst hji
      rw [hself, hhashes]
    · rw [hother j hji]
  · rw [hcases, ← hbusy]
    rcases hr with ⟨hsame, hnone⟩ | ⟨x, -, hinsert, hphase⟩
    · rw [Download.set, hsame]
      exact (or_iff_right (hnone p)).symm
    · rw [Download.set, hinsert, Finset.mem_insert, hphase, Phase.requesting.injEq, @eq_comm _ x p]
  · by_cases hji : j = i <;> by_cases hki : k = i
    · rw [hji, hki]
    · rw [hji, hself] at hj
      rw [hother k hki] at hk
      exact absurd hk (hfresh p k hj hki)
    · rw [hki, hself] at hk
      rw [hother j hji] at hj
      exact absurd hj (hfresh p j hk hji)
    · rw [hother j hji] at hj
      rw [hother k hki] at hk
      exact hinv.alone j k p hj hk

omit [DecidableEq P] [DecidableEq H] in
/-- The busy peers are those that other chunks have asked. -/
theorem Inv.busy_others (hinv : Inv S hashes d) {i : Fin n} (hi : ∀ p, (d.chunk i).phase ≠ .requesting p) (p : P) :
    p ∈ d.busy ↔ ∃ j, j ≠ i ∧ (d.chunk j).phase = .requesting p := by
  rw [hinv.busy]
  refine exists_congr fun j => (and_iff_right_of_imp ?_).symm
  rintro hj rfl
  exact hi p hj

omit [DecidableEq H] in
theorem Inv.busy_released (hinv : Inv S hashes d) {i : Fin n} {peer : P} (hi : (d.chunk i).phase = .requesting peer)
    (p : P) : p ∈ d.busy.erase peer ↔ ∃ j, j ≠ i ∧ (d.chunk j).phase = .requesting p := by
  rw [Finset.mem_erase, hinv.busy]
  constructor
  · rintro ⟨hne, j, hj⟩
    refine ⟨j, ?_, hj⟩
    rintro rfl
    rw [hi] at hj
    cases hj
    exact hne rfl
  · rintro ⟨j, hji, hj⟩
    refine ⟨?_, j, hj⟩
    rintro rfl
    exact hji (hinv.alone j i p hj hi)

theorem Inv.step (hinv : Inv S hashes d) {event : Event P B n} (hcond : Condition S d event)
    (hstep : step S d event = some d') : Inv S hashes d' := by
  cases event with
  | peers i l =>
    rw [LedgerCatchup.step] at hstep
    split at hstep
    next hphase =>
      cases hstep
      have hi : ∀ p, (d.chunk i).phase ≠ .requesting p := fun p hp => by rw [hphase] at hp; cases hp
      exact hinv.set (hinv.busy_others hi) (go_busy _ _) (start_inv S _ (hinv.chunk i) hphase hcond) (go_hashes _ _)
    next => cases hstep
  | response i r =>
    rw [LedgerCatchup.step] at hstep
    split at hstep
    next peer hphase =>
      cases hstep
      exact hinv.set (hinv.busy_released hphase) (answered_busy S _ _ peer r)
        (answered_inv S _ (hinv.chunk i) hphase hcond) (answered_hashes S _ _ peer r)
    next => cases hstep
  | after i =>
    rw [LedgerCatchup.step] at hstep
    split at hstep
    next hphase =>
      cases hstep
      have hi : ∀ p, (d.chunk i).phase ≠ .requesting p := fun p hp => by rw [hphase] at hp; cases hp
      obtain ⟨hasked, hpool⟩ := (hinv.chunk i).waiting hphase
      obtain ⟨hnodup, hgiven⟩ := (hinv.chunk i).given fun h => by rw [hphase] at h; cases h
      exact hinv.set (hinv.busy_others hi) (go_busy _ _) (go_inv S _ hnodup hgiven hasked hpool) (go_hashes _ _)
    next => cases hstep

theorem Runs.inv (hrun : Runs S d d') (hinv : Inv S hashes d) : Inv S hashes d' := by
  induction hrun with
  | nil => exact hinv
  | snoc _ hcond hstep ih => exact ih.step hcond hstep

/-! ## What holds in each state -/

omit [DecidableEq P] [DecidableEq H] in
/-- A chunk that has started has not heard from all its peers that they fail. -/
theorem ChunkInv.not_all_failed {c : Chunk P B H} (hinv : ChunkInv S c) (hc : c.phase ≠ .starting) :
    ¬ ∀ p ∈ c.given, p ∈ c.failed := by
  intro hall
  obtain ⟨hnodup, hperm⟩ := hinv.given hc
  have hnodup' := hperm.nodup_iff.1 hnodup
  -- the peer that has not failed is the one that was asked last, or one in the pool
  have hasked : ∀ {p l}, c.asked = p :: l → l = c.failed → False := by
    intro p l heq hl
    rw [heq, hl, List.cons_append] at hnodup' hperm
    have hp := hall p (hperm.mem_iff.2 List.mem_cons_self)
    exact (List.nodup_cons.1 hnodup').1 (List.mem_append_left _ hp)
  cases hphase : c.phase with
  | starting => exact hc hphase
  | requesting p => exact hasked (hinv.requesting p hphase) rfl
  | waiting =>
    obtain ⟨hsame, hpool⟩ := hinv.waiting hphase
    obtain ⟨p, l, hp⟩ := List.exists_cons_of_ne_nil hpool
    rw [hsame, hp] at hnodup' hperm
    have hfailed := hall p (hperm.mem_iff.2 (List.mem_append_right _ List.mem_cons_self))
    exact (List.nodup_append.1 hnodup').2.2 p hfailed p List.mem_cons_self rfl
  | finished res =>
    obtain ⟨p, l, heq, -, -⟩ := hinv.finished res hphase
    exact hasked heq rfl

omit [DecidableEq P] [DecidableEq H] in
theorem ChunkInv.once {c : Chunk P B H} (hinv : ChunkInv S c) : c.asked.Nodup := by
  by_cases hc : c.phase = .starting
  · rw [(hinv.starting hc).1]
    exact List.nodup_nil
  · obtain ⟨hnodup, hperm⟩ := hinv.given hc
    exact (List.nodup_append.1 (hperm.nodup_iff.1 hnodup)).1

omit [DecidableEq P] [DecidableEq H] in
/-- The blocks of finished chunks are those of their hashes. -/
theorem ChunkInv.blocks {c : Chunk P B H} (hinv : ChunkInv S c) {l : List (Envelope P B)} (hl : c.phase.blocks = some l) :
    l.map (fun e => S.stateHash e.data) = c.hashes := by
  cases hphase : c.phase with
  | finished res =>
    obtain ⟨-, l', -, rfl, hhashes⟩ := hinv.finished res hphase
    rw [hphase] at hl
    cases hl
    exact hhashes
  | starting | requesting | waiting =>
    rw [hphase] at hl
    cases hl

theorem Inv.result (hinv : Inv S hashes d) {l : List (Envelope P B)} (hl : d.result = some l) :
    l.map (fun e => S.stateHash e.data) = hashes := by
  rw [Download.result] at hl
  split at hl
  next hall =>
    cases hl
    have hchunks : (fun i => ((d.chunk i).phase.blocks.getD []).map fun e => S.stateHash e.data)
        = fun i => (d.chunk i).hashes := by
      funext i
      obtain ⟨blocks, hblocks⟩ := Option.isSome_iff_exists.1 (hall i)
      rw [hblocks, Option.getD_some]
      exact (hinv.chunk i).blocks hblocks
    rw [List.map_flatten, List.map_ofFn]
    refine (congrArg (fun f => (List.ofFn f).flatten) hchunks).trans ?_
    rw [hinv.hashes, partition_flatten]
  next => cases hl

theorem Inv.right (hinv : Inv S hashes d) : RunRight S hashes d where
  once i := (hinv.chunk i).once
  failed i hc hall := absurd hall ((hinv.chunk i).not_all_failed hc)
  blocks _ hl := hinv.result hl

/-- When the last peer of a chunk fails, the chunk waits instead. -/
theorem Inv.wrong (hinv : Inv S hashes d) {i : Fin n} {r : Response B} (hfails : Fails S (d.chunk i).hashes r)
    (hpool : (d.chunk i).pool.peers = []) (hstep : LedgerCatchup.step S d (.response i r) = some d') :
    ¬ RunRight S hashes d' := by
  intro hright
  rw [LedgerCatchup.step] at hstep
  split at hstep
  next peer hphase =>
    cases hstep
    obtain ⟨e, he⟩ := checkResponse_error S peer hfails
    obtain ⟨-, hgiven⟩ := (hinv.chunk i).given fun h => by rw [hphase] at h; cases h
    have hasked := (hinv.chunk i).requesting peer hphase
    have hchunk : ((d.set i ((d.chunk i).answered S d.busy peer r)).chunk i) =
        { d.chunk i with errs := e :: (d.chunk i).errs, failed := peer :: (d.chunk i).failed, phase := .waiting } := by
      refine (Function.update_self _ _ _).trans ?_
      rw [Chunk.answered, he]
      dsimp only
      rw [Chunk.go, PeersPool.dequeue_busy fun x hx => by rw [hpool] at hx; cases hx]
    have hfailed := hright.failed i (by rw [hchunk]; exact fun h => by cases h) fun p hp => by
      rw [hchunk] at hp ⊢
      dsimp only at hp ⊢
      rw [← hasked]
      rwa [hgiven.mem_iff, hpool, List.append_nil] at hp
    rw [hchunk] at hfailed
    cases hfailed
  next => cases hstep

/-! ## The end -/

section Measure

/-- What a chunk with peers has still to do. -/
def Chunk.weight (c : Chunk P B H) : Nat :=
  match c.phase with
  | .starting => 0
  | .requesting _ => 2 * c.pool.peers.length + 1
  | _ => 2 * c.pool.peers.length

def Phase.isStarting : Phase P B → Bool
  | .starting => true
  | _ => false

def Download.starting (d : Download P B H n) : Finset (Fin n) := {i | (d.chunk i).phase.isStarting = true}

/-- The chunks that have no peers yet, and what the others have to do. -/
def Download.measure (d : Download P B H n) : Nat ×ₗ Nat :=
  toLex (d.starting.card, ∑ i, (d.chunk i).weight)

omit [DecidableEq P] [DecidableEq H] in
theorem mem_starting {i : Fin n} : i ∈ d.starting ↔ (d.chunk i).phase.isStarting = true := by
  rw [Download.starting, Finset.mem_filter, and_iff_right (Finset.mem_univ i)]

omit [DecidableEq P] [DecidableEq H] in
theorem set_other {i j : Fin n} {r : Finset P × Chunk P B H} (hj : j ≠ i) : (d.set i r).chunk j = d.chunk j :=
  Function.update_of_ne hj _ _

omit [DecidableEq P] [DecidableEq H] in
theorem set_self {i : Fin n} {r : Finset P × Chunk P B H} : (d.set i r).chunk i = r.2 := Function.update_self _ _ _

theorem measure_started {i : Fin n} {r : Finset P × Chunk P B H} (hi : (d.chunk i).phase.isStarting = true)
    (hr : r.2.phase.isStarting = false) : (d.set i r).measure < d.measure := by
  refine Prod.Lex.left _ _ (Finset.card_lt_card (Finset.ssubset_iff_of_subset (fun j hj => ?_) |>.2 ⟨i, ?_, fun h => ?_⟩))
  · rw [mem_starting] at hj ⊢
    by_cases hji : j = i
    · exact hji ▸ hi
    · rwa [set_other hji] at hj
  · exact mem_starting.2 hi
  · rw [mem_starting, set_self, hr] at h
    cases h

theorem measure_less {i : Fin n} {r : Finset P × Chunk P B H} (hi : (d.chunk i).phase.isStarting = false)
    (hr : r.2.phase.isStarting = false) (hweight : r.2.weight < (d.chunk i).weight) :
    (d.set i r).measure < d.measure := by
  have hstarting : (d.set i r).starting = d.starting := by
    ext j
    rw [mem_starting, mem_starting]
    by_cases hji : j = i
    · rw [hji, set_self, hi, hr]
    · rw [set_other hji]
  rw [Download.measure, Download.measure, hstarting]
  refine Prod.Lex.right _ (Finset.sum_lt_sum (fun j _ => ?_) ⟨i, Finset.mem_univ i, by rwa [set_self]⟩)
  by_cases hji : j = i
  · rw [hji, set_self]
    exact hweight.le
  · rw [set_other hji]

/-- `go` waits with its pool as it is, or has one peer less to ask. -/
theorem go_weight (busy : Finset P) (c : Chunk P B H) : (c.go busy).2.phase.isStarting = false ∧
    ((∀ x ∈ c.pool.peers, x ∈ busy) ∧ c.go busy = (busy, { c with phase := .waiting }) ∨
      (c.go busy).2.weight < 2 * c.pool.peers.length) := by
  rcases go_eq busy c with ⟨hbusy, heq⟩ | ⟨x, left, -, hperm, heq⟩
  · exact ⟨by rw [heq]; rfl, .inl ⟨hbusy, heq⟩⟩
  · have hlength := hperm.length_eq
    rw [List.length_cons] at hlength
    refine ⟨by rw [heq]; rfl, .inr ?_⟩
    rw [heq, Chunk.weight]
    dsimp only
    omega

theorem go_weight_le (busy : Finset P) (c : Chunk P B H) : (c.go busy).2.weight ≤ 2 * c.pool.peers.length := by
  rcases (go_weight busy c).2 with ⟨-, heq⟩ | hless
  · rw [heq, Chunk.weight]
  · exact hless.le

/-- A step gets nearer to the end, or finds all peers of a pool busy. -/
theorem step_measure {event : Event P B n} (hstep : LedgerCatchup.step S d event = some d') :
    d'.measure < d.measure ∨
      d' = d ∧ ∃ i, event = .after i ∧ ∀ x ∈ (d.chunk i).pool.peers, x ∈ d.busy := by
  cases event with
  | peers i l =>
    rw [LedgerCatchup.step] at hstep
    split at hstep
    next hphase =>
      cases hstep
      exact .inl (measure_started (by rw [hphase]; rfl) (go_weight _ _).1)
    next => cases hstep
  | response i r =>
    rw [LedgerCatchup.step] at hstep
    split at hstep
    next peer hphase =>
      cases hstep
      have hweight : (d.chunk i).weight = 2 * (d.chunk i).pool.peers.length + 1 := by rw [Chunk.weight, hphase]
      refine .inl (measure_less (by rw [hphase]; rfl) ?_ ?_) <;> rw [Chunk.answered] <;>
        cases checkResponse S peer (d.chunk i).hashes r
      case refine_1.ok l => rfl
      case refine_1.error e => exact (go_weight _ _).1
      case refine_2.ok l =>
        rw [hweight, Chunk.weight]
        exact Nat.lt_succ_self _
      case refine_2.error e =>
        rw [hweight]
        exact Nat.lt_succ_of_le (go_weight_le _ _)
    next => cases hstep
  | after i =>
    rw [LedgerCatchup.step] at hstep
    split at hstep
    next hphase =>
      cases hstep
      have hweight : (d.chunk i).weight = 2 * (d.chunk i).pool.peers.length := by rw [Chunk.weight, hphase]
      obtain ⟨hstarted, ⟨hbusy, heq⟩ | hless⟩ := go_weight d.busy (d.chunk i)
      · refine .inr ⟨?_, i, rfl, hbusy⟩
        have hsame : { d.chunk i with phase := .waiting } = d.chunk i := by rw [← hphase]
        rw [heq, hsame, Download.set, Function.update_eq_self]
      · exact .inl (measure_less (by rw [hphase]; rfl) hstarted (by rw [hweight]; exact hless))
    next => cases hstep

end Measure

/-- Where each step that changes something gets nearer to the end, nothing
changes from some time on. -/
theorem exists_rest {A M : Type} [Preorder M] [WellFoundedLT M] {σ : Nat → A} {measure : A → M}
    (hstep : ∀ k, σ (k + 1) = σ k ∨ measure (σ (k + 1)) < measure (σ k)) : ∃ N, ∀ k ≥ N, σ k = σ N := by
  obtain ⟨-, ⟨N, rfl⟩, hmin⟩ := WellFounded.has_min (wellFounded_lt : WellFounded ((· < ·) : M → M → Prop))
    (Set.range fun k => measure (σ k)) ⟨_, 0, rfl⟩
  refine ⟨N, fun k hk => ?_⟩
  induction k, hk using Nat.le_induction with
  | base => rfl
  | succ k _ ih =>
    rcases hstep k with hsame | hless
    · exact hsame.trans ih
    · rw [ih] at hless
      exact absurd hless (hmin _ ⟨k + 1, rfl⟩)

section Trace

variable {σ : Nat → Download P B H n} {event : Nat → Option (Event P B n)}

theorem Trace.inv (htrace : Trace S d σ event) (hinv : Inv S hashes d) : ∀ k, Inv S hashes (σ k) := by
  obtain ⟨hstart, hsteps⟩ := htrace
  intro k
  induction k with
  | zero => exact hstart ▸ hinv
  | succ k ih =>
    rcases hsteps k with ⟨-, hsame⟩ | ⟨e, -, hcond, hstep⟩
    · exact hsame ▸ ih
    · exact ih.step hcond hstep

/-- When nothing changes any more, all that happens is that chunks find their
peers busy. -/
theorem Trace.at_rest (htrace : Trace S d σ event) {N : Nat} (hrest : ∀ k ≥ N, σ k = σ N) {m : Nat} (hm : N ≤ m)
    {e : Event P B n} (he : event m = some e) :
    ∃ i, e = .after i ∧ ∀ x ∈ ((σ N).chunk i).pool.peers, x ∈ (σ N).busy := by
  rcases htrace.2 m with ⟨hnone, -⟩ | ⟨e', he', -, hstep⟩
  · rw [he] at hnone
    cases hnone
  · rw [he] at he'
    cases he'
    rw [hrest m hm, hrest (m + 1) (Nat.le_succ_of_le hm)] at hstep
    rcases step_measure hstep with hless | ⟨-, hafter⟩
    · exact absurd hless (lt_irrefl _)
    · exact hafter

theorem Trace.finished (htrace : Trace S d σ event) (hfair : Fair σ event) (hinv : Inv S hashes d) {N : Nat}
    (hrest : ∀ k ≥ N, σ k = σ N) (i : Fin n) : (((σ N).chunk i).phase.blocks).isSome := by
  have hrequests : ∀ j p, ((σ N).chunk j).phase ≠ .requesting p := by
    intro j p hphase
    obtain ⟨m, hm, r, hr⟩ := hfair.response N j p hphase
    obtain ⟨i', he, -⟩ := htrace.at_rest hrest hm hr
    cases he
  cases hphase : ((σ N).chunk i).phase with
  | starting =>
    obtain ⟨m, hm, l, hl⟩ := hfair.peers N i hphase
    obtain ⟨i', he, -⟩ := htrace.at_rest hrest hm hl
    cases he
  | requesting p => exact absurd hphase (hrequests i p)
  | waiting =>
    obtain ⟨m, hm, hafter⟩ := hfair.after N i hphase
    obtain ⟨i', he, hbusy⟩ := htrace.at_rest hrest hm hafter
    cases he
    obtain ⟨x, l, hx⟩ := List.exists_cons_of_ne_nil (((htrace.inv hinv N).chunk i).waiting hphase).2
    obtain ⟨j, hj⟩ := ((htrace.inv hinv N).busy x).1 (hbusy x (by rw [hx]; exact List.mem_cons_self))
    exact absurd hj (hrequests j x)
  | finished res =>
    obtain ⟨-, l, -, rfl, -⟩ := ((htrace.inv hinv N).chunk i).finished res hphase
    rfl

end Trace

/-- **Downloading ends with the blocks asked for, as long as no chunk runs out
of peers.** A pool is dequeued as it should be if and only if it is not empty.
In a run in which a chunk's peers are distinct and a peer is left whenever an
answer fails, a chunk asks each peer once and the result is the blocks of the
hashes in order; and if what the chunks wait for comes, there is a result.
When the last peer of a chunk fails, the chunk waits instead of giving the
errors. -/
theorem download_right (hinit : Initial hashes d) :
    (∀ (busy : Finset P) (pool : PeersPool P), PeersPool.DequeueRight busy pool ↔ pool.peers ≠ []) ∧
    (∀ d₁, Runs S d d₁ → RunRight S hashes d₁ ∧ ∀ i r d₂, Fails S (d₁.chunk i).hashes r →
      (d₁.chunk i).pool.peers = [] → step S d₁ (.response i r) = some d₂ → ¬ RunRight S hashes d₂) ∧
    ∀ σ event, Trace S d σ event → Fair σ event →
      ∃ N l, ∀ k ≥ N, (σ k).result = some l ∧ l.map (fun e => S.stateHash e.data) = hashes := by
  refine ⟨PeersPool.dequeue_right_iff, fun d₁ hrun => ?_, fun σ event htrace hfair => ?_⟩
  · have hinv := hrun.inv (S := S) hinit.inv
    exact ⟨hinv.right, fun i r d₂ hfails hpool hstep => hinv.wrong hfails hpool hstep⟩
  · have hstep : ∀ k, σ (k + 1) = σ k ∨ (σ (k + 1)).measure < (σ k).measure := by
      intro k
      rcases htrace.2 k with ⟨-, hsame⟩ | ⟨e, -, -, hstep⟩
      · exact .inl hsame
      · exact (step_measure hstep).symm.imp And.left id
    obtain ⟨N, hrest⟩ := exists_rest hstep
    have hall := htrace.finished hfair hinit.inv hrest
    have hresult : (σ N).result = some (List.ofFn fun i => ((σ N).chunk i).phase.blocks.getD []).flatten := if_pos hall
    refine ⟨N, _, fun k hk => ⟨by rw [hrest k hk, hresult], ?_⟩⟩
    exact (htrace.inv hinit.inv N).result hresult

/-! ## One chunk -/

namespace Sample

/-- Blocks are their hashes, and peer 0 is preferred. -/
def setting : Setting Nat Nat Nat := { stateHash := id, sexpOfPeer := Nat.repr, preferredPeer := 0 }

def download : Download Nat Nat Nat 1 where
  busy := ∅
  chunk _ := { hashes := [5], pool := ⟨[], []⟩, errs := [], phase := .starting, given := [], asked := [], failed := [] }

theorem download_initial : Initial [5] download where
  busy := rfl
  chunks := by simp [download, partition, maxCatchupChunkLength]
  starting _ := ⟨rfl, rfl, rfl⟩

end Sample

/-- The preferred peer sends the block. -/
theorem download_right_one : ∃ d, Runs Sample.setting Sample.download d ∧
    d.result = some [{ data := 5, sender := 0 }] ∧ RunRight Sample.setting [5] d := by
  have hrun : Runs Sample.setting Sample.download _ :=
    @Runs.snoc _ _ _ _ _ _ _ _ _ _ (.peers 0 [1]) .nil (by decide : ([0, 1] : List Nat).Nodup) rfl
  have hrun₂ : Runs Sample.setting Sample.download _ :=
    @Runs.snoc _ _ _ _ _ _ _ _ _ _ (.response 0 (.transitions [5])) hrun (fun hfails => by cases hfails) rfl
  exact ⟨_, hrun₂, rfl, ((download_right Sample.download_initial).2.1 _ hrun₂).1⟩

/-- The preferred peer fails, and there is no other. -/
theorem download_wrong : ¬ PeersPool.DequeueRight ∅ (⟨[], []⟩ : PeersPool Nat) ∧
    ∃ d₁ d₂, step Sample.setting Sample.download (.peers 0 []) = some d₁ ∧
      step Sample.setting d₁ (.response 0 (.error "timeout")) = some d₂ ∧
      ¬ RunRight Sample.setting [5] d₂ ∧
      (step Sample.setting d₂ (.after 0)).map (fun d => (d.chunk 0).phase) = some .waiting := by
  refine ⟨fun hright => (PeersPool.dequeue_right_iff _ _).1 hright rfl, _, _, rfl, rfl, fun hright => ?_, ?_⟩
  · have hfailed := hright.failed 0 (fun h => by cases h) (fun p hp => hp)
    cases hfailed
  · rfl

end Mina.LedgerCatchup
