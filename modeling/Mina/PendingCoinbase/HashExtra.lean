/-
What the staged-ledger hash says of the pending positions (`hash_extra`):
the ids in decimal, the newest first, and the next one, with nothing between
them.

The string alone does not tell the ids apart from two digits on. But the Merkle
root tells which leaves are occupied (`Tracks`), so it tells how many digits the
pending ids have, and what is left of the string is the next id.
-/
import Mina.PendingCoinbase.Fifo
import Mina.Base.CurrencyFormat

namespace Mina.PendingCoinbase

open Merkle

def StackId.toString (t : Nat) : List Char := Nat.toDigits 10 t

variable {F : Type} (O : RandomOracle F)

/-- The two strings that SHA-256 is fed. -/
def hashExtraFeeds (t : T F) : List (List Char) :=
  [t.posList.foldl (fun s a => s ++ StackId.toString a) [], StackId.toString t.newPos]

def hashExtra {D : Type} (sha256 : List Char → D) (t : T F) : D := sha256 (hashExtraFeeds t).flatten

/-! ## Occupied leaves -/

/-- How many stacks have been removed, how many are pending, and the ids with
a stack that is not empty. -/
structure Track where
  removed : Nat
  pending : Nat
  occupied : Finset Nat

namespace Track

variable (depth : Nat)

/-- The oldest first. -/
def ids (q : Track) : List Nat := (List.range q.pending).map fun i => (q.removed + i) % 2 ^ depth

def newPos (q : Track) : Nat := (q.removed + q.pending) % 2 ^ depth

/-- An update without a pending stack goes to the leaf of zero. -/
def newest (q : Track) : Nat := if q.pending = 0 then 0 else (q.removed + (q.pending - 1)) % 2 ^ depth

def step (q : Track) : Op F → Track
  | .push _ => ⟨q.removed, q.pending + 1, insert (q.newPos depth) q.occupied⟩
  | .update _ => { q with occupied := insert (q.newest depth) q.occupied }
  | .remove =>
    if q.pending = 0 then q else ⟨q.removed + 1, q.pending - 1, q.occupied.erase (q.removed % 2 ^ depth)⟩

def run (q : Track) (ops : List (Op F)) : Track := ops.foldl (step depth) q

variable {depth} {q : Track}

theorem newPos_lt : q.newPos depth < 2 ^ depth := Nat.mod_lt _ (Nat.two_pow_pos depth)

theorem newest_lt : q.newest depth < 2 ^ depth := by
  unfold newest
  split
  · exact Nat.two_pow_pos depth
  · exact Nat.mod_lt _ (Nat.two_pow_pos depth)

theorem mem_ids {j : Nat} : j ∈ q.ids depth ↔ ∃ i < q.pending, (q.removed + i) % 2 ^ depth = j := by
  rw [ids, List.mem_map]
  simp only [List.mem_range]

theorem lt_of_mem_ids {j : Nat} (h : j ∈ q.ids depth) : j < 2 ^ depth := by
  obtain ⟨i, -, rfl⟩ := mem_ids.1 h
  exact Nat.mod_lt _ (Nat.two_pow_pos depth)

theorem length_ids : (q.ids depth).length = q.pending := by rw [ids, List.length_map, List.length_range]

theorem ids_nodup (hroom : q.pending ≤ 2 ^ depth) : (q.ids depth).Nodup := by
  rw [ids]
  refine List.Nodup.map_on (fun i hi j hj hij => ?_) List.nodup_range
  rw [List.mem_range] at hi hj
  by_contra hne
  rcases Nat.lt_or_gt_of_ne hne with hlt | hlt
  · exact mod_ne (b := 2 ^ depth) (by omega) (by omega) hij
  · exact mod_ne (b := 2 ^ depth) (by omega) (by omega) hij.symm

theorem newPos_notMem (hroom : q.pending < 2 ^ depth) : q.newPos depth ∉ q.ids depth := by
  intro h
  obtain ⟨i, hi, heq⟩ := mem_ids.1 h
  exact mod_ne (b := 2 ^ depth) (by omega) (by omega) heq

/-- After an id comes another, or the next one. -/
theorem succ_mem_ids {j : Nat} (h : j ∈ q.ids depth) :
    (j + 1) % 2 ^ depth ∈ q.ids depth ∨ (j + 1) % 2 ^ depth = q.newPos depth := by
  obtain ⟨i, hi, rfl⟩ := mem_ids.1 h
  rw [Nat.mod_add_mod]
  by_cases hlast : i + 1 = q.pending
  · exact .inr (by rw [newPos, ← hlast, Nat.add_assoc])
  · exact .inl (mem_ids.2 ⟨i + 1, by omega, by rw [Nat.add_assoc]⟩)

theorem ids_succ (n k : Nat) (s s' : Finset Nat) :
    ids depth ⟨n, k + 1, s⟩ = ids depth ⟨n, k, s'⟩ ++ [(n + k) % 2 ^ depth] := by
  simp only [ids, List.range_succ, List.map_append, List.map_singleton]

theorem ids_cons (n k : Nat) (s s' : Finset Nat) :
    ids depth ⟨n, k + 1, s⟩ = n % 2 ^ depth :: ids depth ⟨n + 1, k, s'⟩ := by
  simp only [ids, List.range_succ_eq_map, List.map_cons, List.map_map, Nat.add_zero]
  refine congrArg _ (List.map_congr_left fun i _ => ?_)
  rw [Function.comp_apply, Nat.succ_eq_add_one, Nat.add_assoc, Nat.add_comm 1 i]

end Track

/-! ## A collection and its track -/

variable (depth : Nat)

/-- The ids are those of the track, and its leaves are the ones that are not
empty. -/
structure Tracks (q : Track) (t : T F) : Prop where
  leaves : ∃ f, Shape O depth f t ∧ ∀ k < 2 ^ depth, f (bitReverse depth k) ≠ Stack.empty O ↔ k ∈ q.occupied
  posList : t.posList.reverse = q.ids depth
  newPos : t.newPos = q.newPos depth

def Op.NonEmpty : Op F → Prop
  | .push s => s ≠ Stack.empty O
  | .update s => s ≠ Stack.empty O
  | .remove => True

variable {O depth} {q : Track} {t : T F}

/-- A stack that is not empty occupies its leaf. -/
theorem occupied_insert {f : Nat → Stack F} {occupied : Finset Nat} {s : Stack F} {j : Nat} (hj : j < 2 ^ depth)
    (hs : s ≠ Stack.empty O)
    (h : ∀ k < 2 ^ depth, f (bitReverse depth k) ≠ Stack.empty O ↔ k ∈ occupied) :
    ∀ k < 2 ^ depth, Function.update f (bitReverse depth j) s (bitReverse depth k) ≠ Stack.empty O ↔
      k ∈ insert j occupied := by
  intro k hk
  rw [Finset.mem_insert]
  by_cases hkj : k = j
  · rw [hkj, Function.update_self]
    exact ⟨fun _ => .inl rfl, fun _ => hs⟩
  · rw [Function.update_of_ne (fun hb => hkj (bitReverse_injective hk hj hb)), h k hk, or_iff_right hkj]

theorem occupied_erase {f : Nat → Stack F} {occupied : Finset Nat} {j : Nat} (hj : j < 2 ^ depth)
    (h : ∀ k < 2 ^ depth, f (bitReverse depth k) ≠ Stack.empty O ↔ k ∈ occupied) :
    ∀ k < 2 ^ depth, Function.update f (bitReverse depth j) (Stack.empty O) (bitReverse depth k) ≠ Stack.empty O ↔
      k ∈ occupied.erase j := by
  intro k hk
  rw [Finset.mem_erase]
  by_cases hkj : k = j
  · rw [hkj, Function.update_self]
    exact ⟨fun hne => absurd rfl hne, fun hne => absurd rfl hne.1⟩
  · rw [Function.update_of_ne (fun hb => hkj (bitReverse_injective hk hj hb)), h k hk]
    exact ⟨fun hmem => ⟨hkj, hmem⟩, fun hmem => hmem.2⟩

theorem Tracks.push (h : Tracks O depth q t) {s : Stack F} (hs : s ≠ Stack.empty O) :
    ∃ t', updateCoinbaseStack O depth t s true = .ok t' ∧ Tracks O depth (q.step depth (.push s)) t' := by
  obtain ⟨f, hshape, hoccupied⟩ := h.leaves
  have hnew : t.newPos < 2 ^ depth := by
    rw [h.newPos]
    exact Track.newPos_lt
  have hlt := bitReverse_lt depth t.newPos
  obtain ⟨t', ht', hshape', hpos, hnext⟩ := hshape.setStack_new hnew hlt s
  refine ⟨t', ?_, ⟨_, hshape', ?_⟩, ?_, ?_⟩
  · rw [updateCoinbaseStack, updateStack, latestStackId, if_pos rfl, hshape.index _ hnew, Exn.andThen_ok,
      hshape.getStack hlt, Exn.andThen_ok, ht']
  · rw [h.newPos]
    exact occupied_insert Track.newPos_lt hs hoccupied
  · rw [hpos, List.reverse_cons, h.posList, h.newPos]
    exact (Track.ids_succ _ _ _ _).symm
  · rw [hnext, h.newPos, Track.newPos, Nat.mod_add_mod, Nat.add_assoc]
    rfl

/-- The newest id, or zero. -/
theorem Tracks.latestStackId (h : Tracks O depth q t) : latestStackId t false = q.newest depth := by
  have hhead : t.posList.head? = (q.ids depth).getLast? := by rw [← List.getLast?_reverse, h.posList]
  rw [PendingCoinbase.latestStackId, if_neg (by decide), hhead, Track.newest]
  obtain ⟨n, k, occupied⟩ := q
  cases k with
  | zero => rfl
  | succ k => rw [Track.ids_succ n k occupied occupied, List.getLast?_concat, if_neg (Nat.succ_ne_zero k)]; rfl

theorem Tracks.update (h : Tracks O depth q t) {s : Stack F} (hs : s ≠ Stack.empty O) :
    ∃ t', updateCoinbaseStack O depth t s false = .ok t' ∧ Tracks O depth (q.step depth (.update s)) t' := by
  obtain ⟨f, hshape, hoccupied⟩ := h.leaves
  have hlt := bitReverse_lt depth (q.newest depth)
  obtain ⟨t', ht', hshape', hpos, hnext⟩ := hshape.setStack hlt s
  refine ⟨t', ?_, ⟨_, hshape', occupied_insert Track.newest_lt hs hoccupied⟩, ?_, ?_⟩
  · rw [updateCoinbaseStack, updateStack, h.latestStackId, hshape.index _ Track.newest_lt, Exn.andThen_ok]
    exact (Exn.andThen_of_ok (hshape.getStack hlt) _).trans ht'
  · rw [hpos, h.posList]
    rfl
  · rw [hnext, h.newPos]
    rfl

theorem Tracks.remove {n k : Nat} {occupied : Finset Nat} (h : Tracks O depth ⟨n, k + 1, occupied⟩ t) :
    ∃ r, removeCoinbaseStack O depth t = .ok r ∧
      Tracks O depth ⟨n + 1, k, occupied.erase (n % 2 ^ depth)⟩ r.2 := by
  obtain ⟨f, hshape, hoccupied⟩ := h.leaves
  have hmod : n % 2 ^ depth < 2 ^ depth := Nat.mod_lt _ (Nat.two_pow_pos depth)
  have hlt := bitReverse_lt depth (n % 2 ^ depth)
  obtain ⟨t', ht', hshape', -, hnext⟩ := hshape.setStack hlt (Stack.empty O)
  have hids := h.posList
  rw [Track.ids_cons n k occupied (occupied.erase (n % 2 ^ depth))] at hids
  refine ⟨(f (bitReverse depth (n % 2 ^ depth)),
    { t' with posList := (Track.ids depth ⟨n + 1, k, occupied.erase (n % 2 ^ depth)⟩).reverse }), ?_, ?_, ?_, ?_⟩
  · rw [removeCoinbaseStack, removeOldestStackId, hids, Exn.andThen_ok, hshape.index _ hmod, Exn.andThen_ok]
    exact (Exn.andThen_of_ok (hshape.getStack hlt) _).trans (Exn.andThen_of_ok ht' _)
  · exact ⟨_, ⟨hshape'.depth_eq, hshape'.tree, hshape'.index⟩, occupied_erase hmod hoccupied⟩
  · rw [List.reverse_reverse]
  · rw [hnext, h.newPos, Track.newPos, Track.newPos, Nat.add_assoc, Nat.add_comm 1 k]

/-- The step lemma. -/
theorem Tracks.step (h : Tracks O depth q t) {op : Op F} (hop : op.NonEmpty O) :
    Tracks O depth (q.step depth op) (step O depth t op).2 := by
  cases op with
  | push s =>
    obtain ⟨t', ht', h'⟩ := h.push hop
    rw [step_of_exec O depth t' none (by rw [Op.exec, ht']; rfl)]
    exact h'
  | update s =>
    obtain ⟨t', ht', h'⟩ := h.update hop
    rw [step_of_exec O depth t' none (by rw [Op.exec, ht']; rfl)]
    exact h'
  | remove =>
    obtain ⟨n, k, occupied⟩ := q
    cases k with
    | zero =>
      have hnil : t.posList.reverse = [] := h.posList
      have hexec : Op.exec O depth t .remove = .error "No coinbase stack-with-state-hash to pop" := by
        rw [Op.exec, removeCoinbaseStack, removeOldestStackId, hnil]
        rfl
      rw [PendingCoinbase.step, hexec]
      exact h
    | succ k =>
      obtain ⟨r, hr, h'⟩ := h.remove
      rw [step_of_exec O depth r.2 (some r.1) (by rw [Op.exec, hr]; rfl)]
      exact h'

/-- The run lemma. -/
theorem Tracks.run (ops : List (Op F)) : ∀ {q : Track} {t : T F}, Tracks O depth q t → (∀ op ∈ ops, op.NonEmpty O) →
    Tracks O depth (q.run depth ops) (run O depth t ops) := by
  induction ops with
  | nil => exact fun h _ => h
  | cons op ops ih =>
    intro q t h hall
    exact ih (h.step (hall op List.mem_cons_self)) fun op' hop' => hall op' (List.mem_cons_of_mem _ hop')

/-- At creation nothing is occupied. -/
theorem create_tracks [DecidableEq F] {t₀ : T F} (h : create O depth = .ok t₀) : Tracks O depth ⟨0, 0, ∅⟩ t₀ := by
  obtain ⟨t, ht, hshape, hpos, hnew⟩ := create_ok O depth
  cases h.symm.trans ht
  refine ⟨⟨_, hshape, fun k _ => ?_⟩, ?_, ?_⟩
  · exact ⟨fun hne => absurd rfl hne, fun hmem => absurd hmem (Finset.notMem_empty k)⟩
  · rw [hpos]
    rfl
  · rw [hnew]
    exact (Nat.zero_mod _).symm

end Mina.PendingCoinbase
