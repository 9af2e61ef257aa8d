/-
The Merkle root and the string of `hash_extra` determine the ids
(`positions_determined`), as long as a stack is only added when one of the
`2 ^ depth` places is free.

Then the occupied leaves are those of the pending ids, but that zero may be
occupied without being pending (`Fits`). Beyond that two stacks share a leaf,
the leaf is emptied with the first of them, and the ids can no longer be read
off the root (`positions_undetermined`).
-/
import Mina.PendingCoinbase.HashExtra

namespace Mina.PendingCoinbase

open Merkle

variable {F : Type}

/-! ## Tracks with room -/

namespace Track

variable {depth : Nat} {q : Track}

variable (depth) in
/-- A stack is added only when a place is free. -/
def Roomy : Track → List (Op F) → Prop
  | _, [] => True
  | q, op :: ops => (∀ s, op = .push s → q.pending < 2 ^ depth) ∧ Roomy (q.step depth op) ops

variable (depth) in
/-- The occupied leaves are the pending ones, and zero's if it was updated when
nothing was pending. -/
structure Fits (q : Track) : Prop where
  room : q.pending ≤ 2 ^ depth
  occupied : ∀ k < 2 ^ depth, k ≠ 0 → (k ∈ q.occupied ↔ k ∈ q.ids depth)
  pending : ∀ k ∈ q.ids depth, k ∈ q.occupied

theorem Fits.push (h : Fits depth q) (hroom : q.pending < 2 ^ depth) (s : Stack F) :
    Fits depth (q.step depth (.push s)) := by
  have hids : (q.step depth (.push s)).ids depth = q.ids depth ++ [q.newPos depth] := ids_succ _ _ _ _
  refine ⟨hroom, fun k hk hne => ?_, fun k hk => ?_⟩
  · rw [hids, List.mem_append, List.mem_singleton, ← h.occupied k hk hne, or_comm]
    exact Finset.mem_insert
  · rw [hids, List.mem_append, List.mem_singleton] at hk
    refine Finset.mem_insert.2 ?_
    rcases hk with hk | hk
    · exact .inr (h.pending k hk)
    · exact .inl hk

theorem newest_mem (hpending : q.pending ≠ 0) : q.newest depth ∈ q.ids depth := by
  rw [newest, if_neg hpending]
  exact mem_ids.2 ⟨q.pending - 1, by omega, rfl⟩

theorem Fits.update (h : Fits depth q) (s : Stack F) : Fits depth (q.step depth (.update s)) := by
  refine ⟨h.room, fun k hk hne => ?_, fun k hk => Finset.mem_insert_of_mem (h.pending k hk)⟩
  rw [show k ∈ (q.step depth (.update s)).occupied ↔ _ from Finset.mem_insert, h.occupied k hk hne]
  refine ⟨fun hmem => ?_, .inr⟩
  rcases hmem with hnewest | hmem
  · by_cases hpending : q.pending = 0
    · rw [newest, if_pos hpending] at hnewest
      exact absurd hnewest hne
    · rw [hnewest]
      exact newest_mem hpending
  · exact hmem

theorem Fits.remove {n k : Nat} {occupied : Finset Nat} (h : Fits depth ⟨n, k + 1, occupied⟩) :
    Fits depth ⟨n + 1, k, occupied.erase (n % 2 ^ depth)⟩ := by
  have hids : ids depth ⟨n, k + 1, occupied⟩ =
      n % 2 ^ depth :: ids depth ⟨n + 1, k, occupied.erase (n % 2 ^ depth)⟩ := ids_cons n k occupied _
  have hnodup := ids_nodup h.room
  rw [hids, List.nodup_cons] at hnodup
  refine ⟨Nat.le_of_succ_le h.room, fun j hj hne => ?_, fun j hj => ?_⟩
  · rw [show j ∈ (Track.mk (n + 1) k (occupied.erase (n % 2 ^ depth))).occupied ↔ _ from Finset.mem_erase,
      h.occupied j hj hne, hids, List.mem_cons]
    constructor
    · intro hmem
      exact hmem.2.resolve_left hmem.1
    · intro hmem
      refine ⟨fun heq => ?_, .inr hmem⟩
      rw [heq] at hmem
      exact hnodup.1 hmem
  · refine Finset.mem_erase.2 ⟨fun heq => ?_, h.pending j ?_⟩
    · rw [heq] at hj
      exact hnodup.1 hj
    · rw [hids]
      exact List.mem_cons_of_mem _ hj

theorem Fits.step (h : Fits depth q) (op : Op F) (hop : ∀ s, op = .push s → q.pending < 2 ^ depth) :
    Fits depth (q.step depth op) := by
  cases op with
  | push s => exact h.push (hop s rfl) s
  | update s => exact h.update s
  | remove =>
    obtain ⟨n, k, occupied⟩ := q
    cases k with
    | zero => exact h
    | succ k => exact h.remove

theorem Fits.run (ops : List (Op F)) : ∀ {q : Track}, Fits depth q → Roomy depth q ops →
    Fits depth (q.run depth ops) := by
  induction ops with
  | nil => exact fun h _ => h
  | cons op ops ih =>
    intro q h hroomy
    exact ih (h.step op hroomy.1) hroomy.2

theorem fits_create : Fits depth ⟨0, 0, ∅⟩ where
  room := Nat.zero_le _
  occupied _ _ _ := ⟨fun h => absurd h (Finset.notMem_empty _), fun h => absurd h List.not_mem_nil⟩
  pending _ h := absurd h List.not_mem_nil

end Track

/-! ## The string -/

theorem toString_inj {m n : Nat} (h : StackId.toString m = StackId.toString n) : m = n := by
  rw [← Currency.value_toDigits m, ← Currency.value_toDigits n]
  exact congrArg Currency.value h

theorem toString_pos (n : Nat) : 0 < (StackId.toString n).length := List.length_pos_iff.2 Nat.toDigits_ne_nil

theorem foldl_digits (l : List Nat) (acc : List Char) :
    l.foldl (fun s a => s ++ StackId.toString a) acc = acc ++ l.flatMap StackId.toString := by
  induction l generalizing acc with
  | nil => exact (List.append_nil acc).symm
  | cons a l ih => rw [List.foldl_cons, ih, List.flatMap_cons, List.append_assoc]

theorem hashExtraFeeds_eq (t : T F) : (hashExtraFeeds t).flatten =
    t.posList.flatMap StackId.toString ++ StackId.toString t.newPos := by
  rw [hashExtraFeeds, foldl_digits, List.nil_append, List.flatten_cons, List.flatten_cons, List.flatten_nil,
    List.append_nil]

namespace Track

variable {depth : Nat} {q q' : Track}

/-- The string of the track. -/
def digits (depth : Nat) (q : Track) : List Char :=
  (q.ids depth).reverse.flatMap StackId.toString ++ StackId.toString (q.newPos depth)

theorem length_flatMap_reverse {l l' : List Nat} (h : l.Perm l') :
    (l.reverse.flatMap StackId.toString).length = (l'.reverse.flatMap StackId.toString).length :=
  ((((List.reverse_perm l).trans h).trans (List.reverse_perm l').symm).flatMap_right _).length_eq

/-- The next id is what is left of the string. -/
theorem newPos_of_digits (hperm : (q.ids depth).Perm (q'.ids depth)) (hdigits : q.digits depth = q'.digits depth) :
    q.newPos depth = q'.newPos depth := by
  refine toString_inj (List.append_inj hdigits (length_flatMap_reverse hperm)).2

/-- With the next id, the number of pending ones gives the ids. -/
theorem ids_eq (hnew : q.newPos depth = q'.newPos depth) (hpending : q.pending = q'.pending) :
    q.ids depth = q'.ids depth := by
  have hmod : q.removed % 2 ^ depth = q'.removed % 2 ^ depth := by
    have h : (q.removed + q'.pending) ≡ (q'.removed + q'.pending) [MOD 2 ^ depth] := by
      rw [← hpending]
      nth_rewrite 2 [hpending]
      exact hnew
    exact h.add_right_cancel' _
  rw [ids, ids, hpending]
  refine List.map_congr_left fun i _ => ?_
  rw [Nat.add_mod, hmod, ← Nat.add_mod]

theorem perm_of_mem (h : Fits depth q) (h' : Fits depth q') (hmem : ∀ k, k ∈ q.ids depth ↔ k ∈ q'.ids depth) :
    (q.ids depth).Perm (q'.ids depth) :=
  (List.perm_ext_iff_of_nodup (ids_nodup h.room) (ids_nodup h'.room)).2 hmem

theorem succ_newest (hpending : q.pending ≠ 0) : (q.newest depth + 1) % 2 ^ depth = q.newPos depth := by
  rw [newest, if_neg hpending, Nat.mod_add_mod, newPos]
  congr 1
  omega

/-- The newest but one comes before the newest. -/
theorem exists_before_newest (hpending : 2 ≤ q.pending) :
    ∃ j ∈ q.ids depth, (j + 1) % 2 ^ depth = q.newest depth := by
  refine ⟨(q.removed + (q.pending - 2)) % 2 ^ depth, mem_ids.2 ⟨q.pending - 2, by omega, rfl⟩, ?_⟩
  rw [newest, if_neg (by omega), Nat.mod_add_mod]
  congr 1
  omega

theorem mem_ids_of_full (hfull : q.pending = 2 ^ depth) {j : Nat} (hj : j < 2 ^ depth) : j ∈ q.ids depth := by
  have hlt : q.removed % 2 ^ depth < 2 ^ depth := Nat.mod_lt _ (Nat.two_pow_pos depth)
  refine mem_ids.2 ⟨(j + (2 ^ depth - q.removed % 2 ^ depth)) % 2 ^ depth, ?_, ?_⟩
  · rw [hfull]
    exact Nat.mod_lt _ (Nat.two_pow_pos depth)
  · rw [Nat.add_mod_mod, ← Nat.mod_add_mod,
      show q.removed % 2 ^ depth + (j + (2 ^ depth - q.removed % 2 ^ depth)) = j + 2 ^ depth by omega,
      Nat.add_mod_right, Nat.mod_eq_of_lt hj]

/-- Zero is not pending in one and pending in the other, and the others are
the same: then the strings differ. -/
theorem digits_ne (h : Fits depth q) (h' : Fits depth q') (hzero : 0 ∉ q.ids depth) (hzero' : 0 ∈ q'.ids depth)
    (hmem : ∀ k ≠ 0, k ∈ q.ids depth ↔ k ∈ q'.ids depth) : q.digits depth ≠ q'.digits depth := by
  intro hdigits
  have hperm : (0 :: q.ids depth).Perm (q'.ids depth) := by
    refine (List.perm_ext_iff_of_nodup (List.nodup_cons.2 ⟨hzero, ids_nodup h.room⟩) (ids_nodup h'.room)).2 ?_
    intro k
    rw [List.mem_cons]
    by_cases hk : k = 0
    · rw [hk]
      exact ⟨fun _ => hzero', fun _ => .inl rfl⟩
    · rw [hmem k hk, or_iff_right hk]
  have hlen : (q.newPos depth |> StackId.toString).length = 1 + (q'.newPos depth |> StackId.toString).length := by
    have hall := congrArg List.length hdigits
    have hflat := length_flatMap_reverse hperm
    rw [List.reverse_cons, List.flatMap_append, List.length_append] at hflat
    have hone : ([0].flatMap StackId.toString).length = 1 := rfl
    rw [digits, digits, List.length_append, List.length_append] at hall
    omega
  have hpending : q.pending + 1 = q'.pending := by
    have hlength := hperm.length_eq
    rw [List.length_cons, length_ids, length_ids] at hlength
    exact hlength
  have hpos' := toString_pos (q'.newPos depth)
  have hnew : q.newPos depth ≠ 0 := by
    intro hnew
    rw [hnew, show (StackId.toString 0).length = 1 from rfl] at hlen
    omega
  have hroom' := h'.room
  have hout : q.newPos depth ∉ q.ids depth := newPos_notMem (by omega)
  have hne : q.newPos depth ≠ q'.newPos depth := by
    intro heq
    rw [heq] at hlen
    omega
  by_cases hnone : q.pending = 0
  · have hnil : q.ids depth = [] := List.eq_nil_of_length_eq_zero (by rw [length_ids, hnone])
    have hone : q'.ids depth = [0] := by
      rw [hnil] at hperm
      exact List.perm_singleton.1 hperm.symm
    rw [digits, digits, hnil, hone] at hdigits
    have hvalue : Currency.value (StackId.toString (q.newPos depth)) =
        Currency.value (['0'] ++ StackId.toString (q'.newPos depth)) := congrArg Currency.value hdigits
    rw [Currency.value_append, StackId.toString, StackId.toString, Currency.value_toDigits,
      Currency.value_toDigits, show Currency.value ['0'] = 0 from rfl] at hvalue
    omega
  · by_cases hnewest : q'.newest depth = 0
    · -- the one before zero is pending in both, and zero comes after it
      have hbefore : ∃ j ∈ q'.ids depth, (j + 1) % 2 ^ depth = q'.newest depth := exists_before_newest (by omega)
      obtain ⟨j, hj, hsucc⟩ := hbefore
      rw [hnewest] at hsucc
      have hj0 : j ≠ 0 := by
        intro hj0
        rw [hj0, Nat.zero_add, Nat.mod_eq_of_lt (by omega)] at hsucc
        cases hsucc
      rcases succ_mem_ids ((hmem j hj0).2 hj) with hin | hnext
      · rw [hsucc] at hin
        exact hzero hin
      · rw [hsucc] at hnext
        exact hnew hnext.symm
    · have hin' : q'.newest depth ∈ q'.ids depth := newest_mem (by omega)
      have hsucc : (q'.newest depth + 1) % 2 ^ depth = q'.newPos depth := succ_newest (by omega)
      rcases succ_mem_ids ((hmem _ hnewest).2 hin') with hin | hnext
      · rw [hsucc] at hin
        have hnew' : q'.newPos depth ≠ 0 := fun heq => hzero (heq ▸ hin)
        by_cases hfull : q'.pending = 2 ^ depth
        · exact hout ((hmem _ hnew).2 (mem_ids_of_full hfull newPos_lt))
        · exact newPos_notMem (by omega) ((hmem _ hnew').1 hin)
      · rw [hsucc] at hnext
        exact hne hnext.symm

/-- Tracks with the same occupied leaves and the same string. -/
theorem same_ids (h : Fits depth q) (h' : Fits depth q')
    (hoccupied : ∀ k < 2 ^ depth, k ∈ q.occupied ↔ k ∈ q'.occupied) (hdigits : q.digits depth = q'.digits depth) :
    q.ids depth = q'.ids depth ∧ q.newPos depth = q'.newPos depth := by
  have hmem : ∀ k ≠ 0, k ∈ q.ids depth ↔ k ∈ q'.ids depth := by
    intro k hk
    by_cases hlt : k < 2 ^ depth
    · rw [← h.occupied k hlt hk, ← h'.occupied k hlt hk]
      exact hoccupied k hlt
    · exact ⟨fun hin => absurd (lt_of_mem_ids hin) hlt, fun hin => absurd (lt_of_mem_ids hin) hlt⟩
  have hzero : 0 ∈ q.ids depth ↔ 0 ∈ q'.ids depth := by
    by_cases hin : 0 ∈ q.ids depth
    · by_cases hin' : 0 ∈ q'.ids depth
      · exact ⟨fun _ => hin', fun _ => hin⟩
      · exact absurd hdigits.symm (digits_ne h' h hin' hin fun k hk => (hmem k hk).symm)
    · by_cases hin' : 0 ∈ q'.ids depth
      · exact absurd hdigits (digits_ne h h' hin hin' hmem)
      · exact ⟨fun hz => absurd hz hin, fun hz => absurd hz hin'⟩
  have hall : ∀ k, k ∈ q.ids depth ↔ k ∈ q'.ids depth := by
    intro k
    by_cases hk : k = 0
    · rw [hk]
      exact hzero
    · exact hmem k hk
  have hperm := perm_of_mem h h' hall
  have hnew := newPos_of_digits hperm hdigits
  have hpending : q.pending = q'.pending := by
    have hlength := hperm.length_eq
    rw [length_ids, length_ids] at hlength
    exact hlength
  exact ⟨ids_eq hnew hpending, hnew⟩

end Track

/-! ## Main result -/

/-- The hashes of stacks and of subtrees are injective. -/
structure Injective (O : RandomOracle F) : Prop where
  stack : ∀ d i c d' i' c', O.stackHash d i c = O.stackHash d' i' c' → d = d' ∧ i = i' ∧ c = c'
  merge : ∀ (h : Nat) a b a' b', O.coinbaseMerkleTree h a b = O.coinbaseMerkleTree h a' b' → a = a' ∧ b = b'

variable {O : RandomOracle F} {depth : Nat} {q q' : Track} {t t' : T F}

theorem dataHash_injective (hO : Injective O) : Function.Injective (Stack.dataHash O) := by
  intro s s' h
  obtain ⟨data, init, curr⟩ := s
  obtain ⟨data', init', curr'⟩ := s'
  obtain ⟨rfl, rfl, rfl⟩ := hO.stack _ _ _ _ _ _ h
  rfl

/-- The root determines the occupied leaves. -/
theorem Tracks.occupied (hO : Injective O) (h : Tracks O depth q t) (h' : Tracks O depth q' t')
    (hroot : merkleRoot O t = merkleRoot O t') : ∀ k < 2 ^ depth, k ∈ q.occupied ↔ k ∈ q'.occupied := by
  obtain ⟨f, hshape, hf⟩ := h.leaves
  obtain ⟨g, hshape', hg⟩ := h'.leaves
  rw [hshape.merkleRoot, hshape'.merkleRoot] at hroot
  intro k hk
  have heq : f (bitReverse depth k) = g (bitReverse depth k) :=
    root_injective _ _ (fun h a b a' b' => hO.merge h a b a' b') (dataHash_injective hO) hroot _
      (bitReverse_lt depth k)
  rw [← hf k hk, ← hg k hk, heq]

theorem Tracks.digits (h : Tracks O depth q t) : (hashExtraFeeds t).flatten = q.digits depth := by
  rw [hashExtraFeeds_eq, Track.digits, ← h.posList, List.reverse_reverse, h.newPos]

/-- **The root and the string determine the ids**, as long as a stack is only
added when a place is free. -/
theorem positions_determined [DecidableEq F] (O : RandomOracle F) (hO : Injective O) (depth : Nat)
    (ops ops' : List (Op F)) (hops : ∀ op ∈ ops, op.NonEmpty O) (hops' : ∀ op ∈ ops', op.NonEmpty O)
    (hroomy : Track.Roomy depth ⟨0, 0, ∅⟩ ops) (hroomy' : Track.Roomy depth ⟨0, 0, ∅⟩ ops') (t₀ : T F)
    (hcreate : create O depth = .ok t₀)
    (hroot : merkleRoot O (run O depth t₀ ops) = merkleRoot O (run O depth t₀ ops'))
    (hfeeds : (hashExtraFeeds (run O depth t₀ ops)).flatten = (hashExtraFeeds (run O depth t₀ ops')).flatten) :
    (run O depth t₀ ops).posList = (run O depth t₀ ops').posList ∧
      (run O depth t₀ ops).newPos = (run O depth t₀ ops').newPos := by
  have h := Tracks.run ops (create_tracks hcreate) hops
  have h' := Tracks.run ops' (create_tracks hcreate) hops'
  rw [h.digits, h'.digits] at hfeeds
  obtain ⟨hids, hnew⟩ := Track.same_ids (Track.fits_create.run ops hroomy) (Track.fits_create.run ops' hroomy')
    (h.occupied hO h' hroot) hfeeds
  refine ⟨?_, ?_⟩
  · rw [← List.reverse_inj, h.posList, h'.posList, hids]
  · rw [h.newPos, h'.newPos, hnew]

/-! ## The string alone -/

theorem numberOracle_injective : Injective numberOracle where
  stack d i c d' i' c' h := by
    obtain ⟨hdata, hstate⟩ := Nat.pair_eq_pair.1 h
    obtain ⟨hinit, hcurr⟩ := Nat.pair_eq_pair.1 hstate
    exact ⟨hdata, hinit, hcurr⟩
  merge h a b a' b' heq := Nat.pair_eq_pair.1 (Nat.pair_eq_pair.1 heq).2

def oneStack : Stack Nat := ⟨2, ⟨1, 2⟩⟩

/-- Stacks come and go. -/
def drained (pushes removals : Nat) : List (Op Nat) :=
  List.replicate pushes (.push oneStack) ++ List.replicate removals .remove

theorem drained_nonEmpty (pushes removals : Nat) : ∀ op ∈ drained pushes removals, op.NonEmpty numberOracle := by
  intro op hop
  rcases List.mem_append.1 hop with hop | hop
  · rw [List.eq_of_mem_replicate hop]
    exact fun h => by cases h
  · rw [List.eq_of_mem_replicate hop]
    trivial

theorem positions_determined_one : ∃ t₀, create numberOracle 1 = .ok t₀ ∧
    (run numberOracle 1 t₀ (drained 2 1)).posList = (run numberOracle 1 t₀ (drained 2 1)).posList ∧
      (run numberOracle 1 t₀ (drained 2 1)).newPos = (run numberOracle 1 t₀ (drained 2 1)).newPos := by
  obtain ⟨t₀, hcreate, -⟩ := create_ok numberOracle 1
  have hroomy : Track.Roomy 1 ⟨0, 0, ∅⟩ (drained 2 1) := by
    refine ⟨fun _ _ => by decide, fun _ _ => by decide, fun _ h => (by cases h), trivial⟩
  exact ⟨t₀, hcreate, positions_determined numberOracle numberOracle_injective 1 (drained 2 1) (drained 2 1)
    (drained_nonEmpty 2 1) (drained_nonEmpty 2 1) hroomy hroomy t₀ hcreate rfl rfl⟩

/-- Without occupied leaves the root is the one of the empty tree. -/
theorem Tracks.root_empty (h : Tracks O depth q t) (hempty : q.occupied = ∅) :
    merkleRoot O t = stackRoot O depth fun _ => Stack.empty O := by
  obtain ⟨f, hshape, hf⟩ := h.leaves
  rw [hshape.merkleRoot]
  refine stackRoot_congr O fun p hp => ?_
  obtain ⟨k, hk, rfl⟩ := bitReverse_surjective hp
  by_contra hne
  have hmem := (hf k hk).1 hne
  rw [hempty] at hmem
  exact Finset.notMem_empty k hmem

/-- Eighteen stacks are too many for sixteen leaves: with the first of two that
share a leaf the leaf is emptied, and "1" and "2" are "12". -/
theorem positions_undetermined : ¬ ∀ (O : RandomOracle Nat), Injective O → ∀ depth (ops ops' : List (Op Nat)),
    (∀ op ∈ ops, op.NonEmpty O) → (∀ op ∈ ops', op.NonEmpty O) → ∀ t₀, create O depth = .ok t₀ →
    merkleRoot O (run O depth t₀ ops) = merkleRoot O (run O depth t₀ ops') →
    (hashExtraFeeds (run O depth t₀ ops)).flatten = (hashExtraFeeds (run O depth t₀ ops')).flatten →
    (run O depth t₀ ops).posList = (run O depth t₀ ops').posList ∧
      (run O depth t₀ ops).newPos = (run O depth t₀ ops').newPos := by
  intro hall
  obtain ⟨t₀, hcreate, -⟩ := create_ok numberOracle 4
  have h := Tracks.run (drained 12 12) (create_tracks hcreate) (drained_nonEmpty 12 12)
  have h' := Tracks.run (drained 18 17) (create_tracks hcreate) (drained_nonEmpty 18 17)
  have hroot := (h.root_empty (by decide)).trans (h'.root_empty (by decide)).symm
  have hfeeds : (hashExtraFeeds (run numberOracle 4 t₀ (drained 12 12))).flatten =
      (hashExtraFeeds (run numberOracle 4 t₀ (drained 18 17))).flatten := by
    rw [h.digits, h'.digits]
    decide
  obtain ⟨-, hnew⟩ := hall numberOracle numberOracle_injective 4 _ _ (drained_nonEmpty 12 12)
    (drained_nonEmpty 18 17) t₀ hcreate hroot hfeeds
  rw [h.newPos, h'.newPos] at hnew
  revert hnew
  decide

end Mina.PendingCoinbase
