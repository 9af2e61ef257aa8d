/-
The root history over any number of root moves (`root_history_right`).
-/
import Mina.Frontier.RootHistory

namespace Mina.Frontier.RootHistory

variable {F S : Type} [LinearOrder F] {hashOf : S → F}

/-- The entry of a root. -/
def entry (b : Breadcrumb F S) : F × Historical F S := (b.stateHash, .ofBreadcrumb b)

/-! ## Looking up -/

omit [LinearOrder F] in
theorem keys_entries (l : List (Breadcrumb F S)) : (l.map entry).map (·.1) = l.map (·.stateHash) := by
  rw [List.map_map]
  rfl

theorem lookup_mem {A : Type} {x : F} {a : A} : ∀ {l : List (F × A)}, l.lookup x = some a → (x, a) ∈ l
  | [], h => by cases h
  | (y, c) :: l, h => by
    rw [List.lookup_cons] at h
    split at h
    next heq =>
      cases h
      rw [eq_of_beq heq]
      exact List.mem_cons_self
    next => exact List.mem_cons_of_mem _ (lookup_mem h)

theorem lookup_none {A : Type} {x : F} {l : List (F × A)} (h : l.lookup x = none) : x ∉ l.map (·.1) := by
  intro hx
  obtain ⟨⟨y, a⟩, ha, rfl⟩ := List.mem_map.1 hx
  rw [List.lookup_eq_none_iff] at h
  exact absurd (h _ ha) (by simp)

theorem lookup_entry {l : List (Breadcrumb F S)} (hnodup : (l.map (·.stateHash)).Nodup) {b : Breadcrumb F S}
    (hb : b ∈ l) : (l.map entry).lookup b.stateHash = some (.ofBreadcrumb b) := by
  cases h : (l.map entry).lookup b.stateHash with
  | none =>
    rw [← keys_entries] at hnodup
    exact absurd (List.mem_map.2 ⟨entry b, List.mem_map_of_mem hb, rfl⟩) (lookup_none h)
  | some data =>
    obtain ⟨c, hc, heq⟩ := List.mem_map.1 (lookup_mem h)
    have hhash : c.stateHash = b.stateHash := congrArg Prod.fst heq
    obtain rfl := List.inj_on_of_nodup_map hnodup hc hb hhash
    exact congrArg some (congrArg Prod.snd heq).symm

/-- The states of the next root's map are under their own hashes, if those of
the map and the old root are. -/
theorem protocolStates_hashes {m m' : F → Option S} {required : HashSet F} {oldRoot : F} {oldState : S}
    {states : List (F × S)} (hm : ∀ x s, m x = some s → hashOf s = x) (hold : hashOf oldState = oldRoot)
    (hstates : protocolStatesForNextRootScanState m required oldRoot oldState = .ok states)
    (hm' : ofAlistExn states = .ok m') : ∀ x s, m' x = some s → hashOf s = x := by
  intro x s hs
  rw [ofAlistExn] at hm'
  split at hm'
  next =>
    cases hm'
    obtain ⟨y, -, hy⟩ := Exn.mapList_result hstates (lookup_mem hs)
    obtain ⟨s', hs', heq⟩ := Exn.andThen_eq_ok.1 hy
    cases heq
    rw [findExn_eq_ok] at hs'
    by_cases hx : x = oldRoot
    · rw [hx, Function.update_self] at hs'
      cases hs'
      exact hold.trans hx.symm
    · rw [Function.update_of_ne hx] at hs'
      exact hm x s hs'
  next => cases hm'

/-! ## The invariant -/

/-- The roots that are kept. -/
def kept (room : Nat) (previous : List (Breadcrumb F S)) : List (Breadcrumb F S) :=
  previous.drop (previous.length - room)

structure Inv (hashOf : S → F) (room : Nat) (previous : List (Breadcrumb F S)) (current : Breadcrumb F S)
    (t : RootHistory F S) : Prop where
  history : t.history = (kept room previous).map entry
  capacity : t.capacity = room
  currentRoot : t.currentRoot = .ofBreadcrumb current
  nodup : ((previous ++ [current]).map (·.stateHash)).Nodup
  chain : (previous ++ [current]).IsChain Requires
  hashes : ∀ b ∈ previous ++ [current], hashOf b.protocolState = b.stateHash
  states : ∀ x s, t.protocolStatesForRootScanState x = some s → hashOf s = x
  /-- The map has what the oldest root requires. -/
  oldest : ∀ b l, kept room previous ++ [current] = b :: l →
    ∀ x ∈ b.requiredStateHashes.toList, (t.protocolStatesForRootScanState x).isSome = true

variable {room : Nat} {previous : List (Breadcrumb F S)} {current : Breadcrumb F S} {t : RootHistory F S}

omit [LinearOrder F] in
theorem kept_suffix (room : Nat) (previous : List (Breadcrumb F S)) (current : Breadcrumb F S) :
    kept room previous ++ [current] <:+ previous ++ [current] := by
  refine ⟨previous.take (previous.length - room), ?_⟩
  rw [← List.append_assoc, kept, List.take_append_drop]

omit [LinearOrder F] in
theorem Inv.kept_nodup (hinv : Inv hashOf room previous current t) :
    ((kept room previous ++ [current]).map (·.stateHash)).Nodup :=
  hinv.nodup.sublist ((kept_suffix room previous current).sublist.map _)

theorem Inv.keys (hinv : Inv hashOf room previous current t) :
    t.history.map (·.1) = (kept room previous).map (·.stateHash) := by
  rw [hinv.history, keys_entries]

theorem Inv.others (hinv : Inv hashOf room previous current t) : current.stateHash ∉ t.history.map (·.1) := by
  have hnodup := hinv.kept_nodup
  rw [List.map_append, List.nodup_append] at hnodup
  rw [hinv.keys]
  exact fun hmem => hnodup.2.2 _ hmem current.stateHash List.mem_cons_self rfl

omit [LinearOrder F] in
theorem Inv.mem_kept (hinv : Inv hashOf room previous current t) {b : Breadcrumb F S}
    (hb : b ∈ kept room previous) : hashOf b.protocolState = b.stateHash :=
  hinv.hashes b ((kept_suffix room previous current).mem (List.mem_append_left _ hb))

omit [LinearOrder F] in
/-- What comes later requires what the first requires, or one in between. -/
theorem requires_first {b c : Breadcrumb F S} : ∀ {l : List (Breadcrumb F S)}, (b :: l).IsChain Requires →
    c ∈ b :: l → ∀ x ∈ c.requiredStateHashes.toList, x ∈ b.requiredStateHashes.toList ∨ x ∈ (b :: l).map (·.stateHash) := by
  intro l
  induction l generalizing b with
  | nil =>
    intro _ hc x hx
    rw [List.mem_singleton] at hc
    exact .inl (hc ▸ hx)
  | cons a l ih =>
    intro hchain hc x hx
    obtain ⟨hab, htail⟩ := List.isChain_cons_cons.1 hchain
    rcases List.mem_cons.1 hc with rfl | hc
    · exact .inl hx
    · rcases ih htail hc x hx with hx | hx
      · rcases hab x hx with hx | rfl
        · exact .inl hx
        · exact .inr List.mem_cons_self
      · exact .inr (List.mem_cons_of_mem _ hx)

/-- What a root of the history requires is found. -/
theorem Inv.found (hinv : Inv hashOf room previous current t) {b : Breadcrumb F S} (hb : b ∈ kept room previous) :
    ∀ x ∈ b.requiredStateHashes.toList, ∃ s, findState t x = some s ∧ hashOf s = x := by
  intro x hx
  rw [findState]
  cases hlookup : t.history.lookup x with
  | some data =>
    have hmem := lookup_mem hlookup
    rw [hinv.history] at hmem
    obtain ⟨c, hc, heq⟩ := List.mem_map.1 hmem
    cases heq
    exact ⟨c.protocolState, rfl, hinv.mem_kept hc⟩
  | none =>
    have hout := lookup_none hlookup
    rw [hinv.keys] at hout
    cases hkept : kept room previous with
    | nil =>
      rw [hkept] at hb
      cases hb
    | cons first l =>
      have hchain := hinv.chain.suffix (kept_suffix room previous current)
      rw [hkept] at hb hout hchain
      have holdest := hinv.oldest first (l ++ [current]) (by rw [hkept]; rfl)
      rcases requires_first hchain.left_of_append hb x hx with hx | hx
      · obtain ⟨s, hs⟩ := Option.isSome_iff_exists.1 (holdest x hx)
        exact ⟨s, hs, hinv.states x s hs⟩
      · exact absurd hx hout

theorem collect_ok : ∀ (l : List F) (acc : List S), (∀ x ∈ l, ∃ s, findState t x = some s ∧ hashOf s = x) →
    ∃ states, collect t acc l = some states ∧ states.map hashOf = l.reverse ++ acc.map hashOf
  | [], acc, _ => ⟨acc, rfl, rfl⟩
  | x :: l, acc, h => by
    obtain ⟨s, hs, hhash⟩ := h x List.mem_cons_self
    obtain ⟨states, hstates, hmap⟩ := collect_ok l (s :: acc) fun y hy => h y (List.mem_cons_of_mem _ hy)
    refine ⟨states, ?_, ?_⟩
    · rw [collect, hs]
      exact hstates
    · rw [hmap, List.map_cons, hhash, List.reverse_cons, List.append_assoc, List.singleton_append]

theorem Inv.right (hinv : Inv hashOf room previous current t) : Right hashOf room previous current t where
  history := hinv.history
  currentRoot := hinv.currentRoot
  others := hinv.others
  serves b hb := by
    have hnodup := hinv.kept_nodup
    rw [List.map_append, List.nodup_append] at hnodup
    have hlookup := lookup_entry hnodup.1 hb
    obtain ⟨states, hstates, hmap⟩ := collect_ok _ [] (hinv.found hb)
    refine ⟨states, ?_, by rw [hmap, List.map_nil, List.append_nil]⟩
    rw [protocolStatesForScanState, hinv.history, hlookup]
    exact hstates

/-! ## Moves -/

omit [LinearOrder F] in
theorem create_inv {frontier : T F S} {root : Breadcrumb F S} (hroot : At frontier frontier.root root)
    (hcovers : ∀ x ∈ root.requiredStateHashes.toList, (frontier.protocolStatesForRootScanState x).isSome = true)
    (hstates : ∀ x s, frontier.protocolStatesForRootScanState x = some s → hashOf s = x)
    (hhash : hashOf root.protocolState = root.stateHash) :
    ∃ t, create frontier = .ok t ∧ Inv hashOf (2 * frontier.maxLength) [] root t := by
  obtain ⟨n, hn, rfl⟩ := hroot
  refine ⟨_, by rw [create, findBreadcrumbExn, findExn_ok hn, Exn.andThen_ok, Exn.andThen_ok],
    by rw [kept, List.drop_nil]; rfl, rfl, rfl, List.nodup_singleton _, .singleton _, fun b hb => ?_, hstates,
    fun b l heq x hx => ?_⟩
  · obtain rfl := List.mem_singleton.1 hb
    exact hhash
  · rw [kept, List.drop_nil] at heq
    cases heq
    exact hcovers x hx

omit [LinearOrder F] in
/-- The roots that are kept after a move: those before, without the oldest if
there is no room. -/
theorem kept_snoc (previous : List (Breadcrumb F S)) (current : Breadcrumb F S) (hroom : 1 ≤ room) :
    kept room (previous ++ [current]) = previous.drop (previous.length + 1 - room) ++ [current] := by
  rw [kept, List.length_append, List.length_singleton, List.drop_append_of_le_length (by omega)]

omit [LinearOrder F] in
theorem kept_length : (kept room previous).length = min previous.length room := by
  rw [kept, List.length_drop]
  omega

/-- The map is made for the oldest of the roots that are left. -/
theorem Inv.dropOldest (hinv : Inv hashOf room previous current t) (hroom : 2 ≤ room)
    (hfull : room ≤ previous.length) :
    ∃ m, RootHistory.dropOldest t = .ok { t with
        history := (previous.drop (previous.length + 1 - room)).map entry
        protocolStatesForRootScanState := m } ∧
      (∀ x s, m x = some s → hashOf s = x) ∧
      ∀ b l, previous.drop (previous.length + 1 - room) = b :: l →
        ∀ x ∈ b.requiredStateHashes.toList, (m x).isSome = true := by
  have hlength : (kept room previous).length = room := by rw [kept_length, Nat.min_eq_right hfull]
  have hrest : previous.drop (previous.length + 1 - room) = (kept room previous).tail := by
    rw [kept, List.tail_drop]
    congr 1
    omega
  match hkept : kept room previous, hlength with
  | [], hlength => exact absurd hlength (by rw [List.length_nil]; omega)
  | [_], hlength => exact absurd hlength (by rw [List.length_singleton]; omega)
  | first :: second :: l, _ =>
    rw [hkept, List.tail_cons] at hrest
    have hchain := hinv.chain.suffix (kept_suffix room previous current)
    have holdest := hinv.oldest first (second :: l ++ [current]) (by rw [hkept]; rfl)
    rw [hkept] at hchain
    have hsecond : Requires first second := (List.isChain_cons_cons.1 hchain).1
    obtain ⟨states, m, hstates, hm, hdomain⟩ := protocolStates_ok first.protocolState fun x hx =>
      (hsecond x hx).symm.imp id (holdest x)
    have hfirst := hinv.mem_kept (b := first) (by rw [hkept]; exact List.mem_cons_self)
    refine ⟨m, ?_, protocolStates_hashes hinv.states hfirst hstates hm, fun b l' heq x hx => ?_⟩
    · have hhistory : t.history = entry first :: entry second :: l.map entry := by
        rw [hinv.history, hkept, List.map_cons, List.map_cons]
      simp only [RootHistory.dropOldest, hhistory, entry, List.head?_cons, Exn.valueExn_some, Exn.andThen_ok,
        Historical.ofBreadcrumb, hstates, hm, hrest, List.map_cons]
    · rw [hrest] at heq
      cases heq
      exact (hdomain x).2 hx

theorem Inv.enqueue (hinv : Inv hashOf room previous current t) (hroom : 2 ≤ room) {new : Breadcrumb F S}
    (hrequires : Requires current new) (hhash : hashOf new.protocolState = new.stateHash)
    (hnodup : ((previous ++ [current] ++ [new]).map (·.stateHash)).Nodup) :
    ∃ t', RootHistory.enqueue t (.ofBreadcrumb new) = .ok t' ∧ Inv hashOf room (previous ++ [current]) new t' := by
  -- the map that is left is that of the oldest root that is left
  have hfirst : ∃ m, (if t.history.length ≥ t.capacity then RootHistory.dropOldest t else .ok t) = .ok { t with
        history := (previous.drop (previous.length + 1 - room)).map entry
        protocolStatesForRootScanState := m } ∧
      (∀ x s, m x = some s → hashOf s = x) ∧
      ∀ b l, previous.drop (previous.length + 1 - room) ++ [current] = b :: l →
        ∀ x ∈ b.requiredStateHashes.toList, (m x).isSome = true := by
    have hlength : t.history.length = min previous.length room := by rw [hinv.history, List.length_map, kept_length]
    have hcapacity := hinv.capacity
    by_cases hfull : room ≤ previous.length
    · obtain ⟨m, hdrop, hstates, holdest⟩ := hinv.dropOldest hroom hfull
      refine ⟨m, by rw [if_pos (by omega), hdrop], hstates, fun b l heq => ?_⟩
      cases hleft : previous.drop (previous.length + 1 - room) with
      | nil =>
        have hlen := congrArg List.length hleft
        rw [List.length_drop, List.length_nil] at hlen
        omega
      | cons c l' =>
        rw [hleft] at heq
        cases heq
        exact holdest b l' hleft
    · have hall : kept room previous = previous.drop (previous.length + 1 - room) := by
        rw [kept]
        congr 1
        omega
      refine ⟨t.protocolStatesForRootScanState, ?_, hinv.states, hall ▸ hinv.oldest⟩
      rw [if_neg (by omega), ← hall, ← hinv.history]
  obtain ⟨m, hdrop, hstates, holdest⟩ := hfirst
  have hkept := kept_snoc previous current (Nat.le_of_succ_le hroom)
  have hout : current.stateHash ∉ ((previous.drop (previous.length + 1 - room)).map entry).map (·.1) := by
    have hcurrent := hinv.nodup
    rw [List.map_append, List.nodup_append] at hcurrent
    rw [keys_entries]
    intro hmem
    exact hcurrent.2.2 _ (((List.drop_sublist _ _).map _).mem hmem) current.stateHash List.mem_cons_self rfl
  refine ⟨{
    history := (previous.drop (previous.length + 1 - room)).map entry ++ [(current.stateHash, .ofBreadcrumb current)]
    capacity := t.capacity
    currentRoot := .ofBreadcrumb new
    protocolStatesForRootScanState := m }, ?_, ?_, hinv.capacity, rfl, hnodup, ?_, ?_, hstates, ?_⟩
  · rw [RootHistory.enqueue, hdrop, Exn.andThen_ok]
    dsimp only
    rw [hinv.currentRoot, Exn.assert]
    exact if_pos (decide_eq_true hout)
  · rw [hkept, List.map_append]
    rfl
  · refine List.isChain_append.2 ⟨hinv.chain, .singleton _, fun a ha b hb => ?_⟩
    rw [List.getLast?_concat] at ha
    cases ha
    cases hb
    exact hrequires
  · intro b hb
    rcases List.mem_append.1 hb with hb | hb
    · exact hinv.hashes b hb
    · rw [List.mem_singleton.1 hb]
      exact hhash
  · intro b l heq
    rw [hkept] at heq
    cases hleft : previous.drop (previous.length + 1 - room) ++ [current] with
    | nil => exact absurd hleft (by simp)
    | cons c l' =>
      rw [hleft] at heq
      cases heq
      exact holdest b l' hleft

/-- The diffs before the root move are passed over. -/
theorem handleDiffs_move {frontier : T F S} {newRoot : F} {b : Breadcrumb F S} (hb : At frontier newRoot b)
    (states : List (F × S)) (garbage : List F) (emitted : Bool) (mutant : Mutant F)
    (after : List (Diff F S × Mutant F)) :
    ∀ {before : List (Diff F S × Mutant F)}, (∀ d ∈ before, ¬ IsRootTransitioned d.1) →
      handleDiffs t frontier (before ++ (.rootTransitioned newRoot states garbage emitted, mutant) :: after) =
        (RootHistory.enqueue t (.ofBreadcrumb b)).andThen fun t => .ok (t, true)
  | [], _ => by
    obtain ⟨n, hn, rfl⟩ := hb
    rw [List.nil_append, handleDiffs, findBreadcrumbExn, findExn_ok hn, Exn.andThen_ok, Exn.andThen_ok]
  | (d, other) :: before, hbefore => by
    have hmove := hbefore _ List.mem_cons_self
    have ih := handleDiffs_move hb states garbage emitted mutant after fun d hd =>
      hbefore d (List.mem_cons_of_mem _ hd)
    cases d with
    | newNode _ => exact ih
    | bestTipChanged _ => exact ih
    | rootTransitioned _ _ _ _ => exact absurd trivial hmove

theorem Inv.handleDiffs (hinv : Inv hashOf room previous current t) (hroom : 2 ≤ room) {m : Move F S}
    (hvalid : m.Valid hashOf current) (hnodup : ((previous ++ [current] ++ [m.newRoot]).map (·.stateHash)).Nodup) :
    ∃ t', RootHistory.handleDiffs t m.frontier m.diffs = .ok (t', true) ∧
      Inv hashOf room (previous ++ [current]) m.newRoot t' := by
  obtain ⟨before, after, states, garbage, emitted, mutant, hdiffs, hothers⟩ := hvalid.diffs
  obtain ⟨t', henqueue, hinv'⟩ := hinv.enqueue hroom hvalid.requires hvalid.hash hnodup
  refine ⟨t', ?_, hinv'⟩
  have hskip : ∀ d ∈ before, ¬ IsRootTransitioned d.1 := fun d hd => hothers d (List.mem_append_left _ hd)
  rw [hdiffs, handleDiffs_move hvalid.found states garbage emitted mutant after hskip, henqueue, Exn.andThen_ok]

theorem Inv.handleMoves (hroom : 2 ≤ room) : ∀ {moves : List (Move F S)} {previous : List (Breadcrumb F S)}
    {current : Breadcrumb F S} {t : RootHistory F S}, Inv hashOf room previous current t →
    ValidMoves hashOf current moves →
    ((previous ++ current :: moves.map (·.newRoot)).map (·.stateHash)).Nodup →
    ∃ t' last, RootHistory.handleMoves t moves = .ok t' ∧
      (current :: moves.map (·.newRoot)).getLast? = some last ∧
      Inv hashOf room (previous ++ (current :: moves.map (·.newRoot)).dropLast) last t'
  | [], previous, current, t, hinv, _, _ => ⟨t, current, rfl, rfl, by simpa using hinv⟩
  | m :: moves, previous, current, t, hinv, hvalid, hnodup => by
    have hsplit : previous ++ current :: (m :: moves).map (·.newRoot) =
        (previous ++ [current]) ++ m.newRoot :: moves.map (·.newRoot) := by
      rw [List.map_cons, List.append_assoc, List.singleton_append]
    rw [hsplit] at hnodup
    have hfirst : ((previous ++ [current] ++ [m.newRoot]).map (·.stateHash)).Nodup := by
      refine hnodup.sublist (List.Sublist.map _ (List.Sublist.append_left ?_ _))
      exact List.singleton_sublist.2 List.mem_cons_self
    obtain ⟨t', hstep, hinv'⟩ := hinv.handleDiffs hroom hvalid.1 hfirst
    obtain ⟨t'', last, hrun, hlast, hinv''⟩ := Inv.handleMoves hroom hinv' hvalid.2 hnodup
    refine ⟨t'', last, ?_, ?_, ?_⟩
    · rw [RootHistory.handleMoves, Exn.fold, hstep, Exn.andThen_ok, Exn.andThen_ok]
      exact hrun
    · rw [List.map_cons, List.getLast?_cons_cons]
      exact hlast
    · rw [List.map_cons, List.dropLast_cons_cons, ← List.singleton_append, ← List.append_assoc]
      exact hinv''

/-- **The history has the last roots before the current one, and serves the
protocol states of each.** No move raises; of the roots before there are twice
as many as the frontier is long, if there were that many, and the states are
those whose hashes the root's scan state requires. -/
theorem root_history_right {frontier : T F S} {root : Breadcrumb F S} (hroot : At frontier frontier.root root)
    (hlength : 1 ≤ frontier.maxLength)
    (hcovers : ∀ x ∈ root.requiredStateHashes.toList, (frontier.protocolStatesForRootScanState x).isSome = true)
    (hstates : ∀ x s, frontier.protocolStatesForRootScanState x = some s → hashOf s = x)
    (hhash : hashOf root.protocolState = root.stateHash) {moves : List (Move F S)}
    (hvalid : ValidMoves hashOf root moves)
    (hnodup : ((root :: moves.map (·.newRoot)).map (·.stateHash)).Nodup) :
    ∃ t current, ((create frontier).andThen fun t => handleMoves t moves) = .ok t ∧
      (root :: moves.map (·.newRoot)).getLast? = some current ∧
      Right hashOf (2 * frontier.maxLength) (root :: moves.map (·.newRoot)).dropLast current t := by
  obtain ⟨t, hcreate, hinv⟩ := create_inv hroot hcovers hstates hhash
  obtain ⟨t', current, hrun, hlast, hinv'⟩ := Inv.handleMoves (by omega) hinv hvalid hnodup
  refine ⟨t', current, ?_, hlast, hinv'.right⟩
  rw [hcreate, Exn.andThen_ok]
  exact hrun

/-! ### A line of blocks that each require their parent -/

def lineBlock (n : Nat) : Breadcrumb Nat Nat :=
  { forkBreadcrumb n (n - 1) forkRoot.consensusState with requiredStateHashes := ⟨[n - 1], List.nodup_singleton _⟩ }

def lineAt (n : Nat) : T Nat Nat where
  root := n
  bestTip := n
  table := single (lineBlock n)
  protocolStatesForRootScanState h := List.lookup h [(0, 0)]
  maxLength := 1

def lineMove (n : Nat) : Move Nat Nat where
  frontier := lineAt n
  diffs := [(.newNode (lineBlock n), .newNode), (.rootTransitioned n [] [n - 1] false, .rootTransitioned (n - 1))]
  newRoot := lineBlock n

theorem lineMove_valid (n : Nat) : (lineMove (n + 1)).Valid id (lineBlock n) where
  diffs := ⟨[(.newNode (lineBlock (n + 1)), .newNode)], [], [], [n], false, .rootTransitioned n, rfl, fun d hd hmove => by
    rw [List.append_nil, List.mem_singleton] at hd
    rw [hd] at hmove
    exact hmove⟩
  found := ⟨⟨lineBlock (n + 1), [], 0⟩, if_pos rfl, rfl⟩
  parent := rfl
  requires _ hx := .inr (List.mem_singleton.1 hx)
  hash := rfl

/-- Three moves, with room for two roots. -/
theorem root_history_right_line : ∃ t current,
    ((create (lineAt 1)).andThen fun t => handleMoves t [lineMove 2, lineMove 3, lineMove 4]) = .ok t ∧
      [lineBlock 1, lineBlock 2, lineBlock 3, lineBlock 4].getLast? = some current ∧
      Right id 2 [lineBlock 1, lineBlock 2, lineBlock 3] current t := by
  refine @root_history_right _ _ _ id (lineAt 1) _ ⟨⟨lineBlock 1, [], 0⟩, rfl, rfl⟩ (le_refl 1) (fun x hx => ?_)
    (fun x s hs => ?_) rfl _ ⟨lineMove_valid 1, lineMove_valid 2, lineMove_valid 3, trivial⟩ (by decide)
  · obtain rfl := List.mem_singleton.1 hx
    rfl
  · obtain ⟨rfl, rfl⟩ := Prod.mk.inj (List.mem_singleton.1 (lookup_mem hs))
    rfl

end Mina.Frontier.RootHistory
