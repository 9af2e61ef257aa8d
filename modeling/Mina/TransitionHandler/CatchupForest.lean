/-
The catchup scheduler over whole runs.

`TableInv` relates the table of children with the timeouts: its keys are the
hashes of the collected transitions and of the missing parents, and those that
are not collected have a timeout. `Timers` says that the timeouts of the table
are those that run. A step adds one transition, which may put the trees of
its own hash under another root, or takes out the trees of one root, and what
is taken out and what stays together are what was there.
-/
import Mina.TransitionHandler.SchedulerTable

namespace Mina.TransitionHandler

open Relation

variable {F : Type} [DecidableEq F]

/-- Blocks with an acyclic parent relation: a hash names one of them, and the
rank grows from parent to child. -/
structure Ranked (rank : F → Nat) (P : Transition F → Prop) : Prop where
  hash : ∀ b b', P b → P b' → b.stateHash = b'.stateHash → b = b'
  rank : ∀ b, P b → rank b.parentHash < rank b.stateHash

structure TableInv (P : Transition F → Prop) (table : Table F) (timeouts : AList fun _ : F => Timeout F) : Prop where
  parent : ∀ p, ∀ b ∈ children table p, b.parentHash = p
  block : ∀ p, ∀ b ∈ children table p, P b
  nodup : ∀ p, (children table p).Nodup
  key_iff : ∀ h, h ∈ table ↔ IsCollected table h ∨ children table h ≠ []
  timeout_iff : ∀ h, h ∈ timeouts ↔ h ∈ table ∧ ¬ IsCollected table h

variable {rank : F → Nat} {P : Transition F → Prop} {table : Table F} {timeouts : AList fun _ : F => Timeout F}

theorem isCollected_iff {h : F} : IsCollected table h ↔ ∃ p, Child table p h := by
  constructor
  · intro hc
    obtain ⟨b, hb, heq⟩ := hc
    obtain ⟨p, hp⟩ := mem_collected.1 hb
    exact ⟨p, b, hp, heq⟩
  · intro hc
    obtain ⟨p, b, hb, heq⟩ := hc
    exact ⟨b, mem_collected.2 ⟨p, hb⟩, heq⟩

namespace TableInv

theorem linked (h : TableInv P table timeouts) (hP : Ranked rank P) : Linked rank table where
  parent := h.parent
  hash p p' b hb b' hb' heq := hP.hash b b' (h.block p b hb) (h.block p' b' hb') heq
  rank p b hb := hP.rank b (h.block p b hb)
  nodup := h.nodup

theorem empty : TableInv P (∅ : Table F) ∅ := by
  have hchildren : ∀ p, children (∅ : Table F) p = [] := fun p => children_of_none (AList.lookup_empty p)
  have hcollected : ∀ h, ¬ IsCollected (∅ : Table F) h := by
    intro h hc
    obtain ⟨b, hb, -⟩ := hc
    cases hb
  refine ⟨fun p b hb => ?_, fun p b hb => ?_, fun p => ?_, fun h => ?_, fun h => ?_⟩
  · rw [hchildren] at hb
    cases hb
  · rw [hchildren] at hb
    cases hb
  · rw [hchildren]
    exact List.nodup_nil
  · simp [hchildren, hcollected]
  · simp

/-! ## Taking out the trees of a root -/

section Take

variable {r : F} {table' : Table F}

theorem isCollected_without (h : TableInv P table timeouts) (hP : Ranked rank P) (hr : ¬ IsCollected table r)
    (hw : Without table (Below table r) table') {x : F} :
    IsCollected table' x ↔ IsCollected table x ∧ ¬ Below table r x := by
  rw [isCollected_iff, isCollected_iff]
  constructor
  · intro hx
    obtain ⟨p, hx⟩ := hx
    obtain ⟨hp, hx⟩ := hw.child_iff.1 hx
    refine ⟨⟨p, hx⟩, fun hb => ?_⟩
    rcases ReflTransGen.cases_tail hb with rfl | ⟨q, hq, hc⟩
    · exact hr (isCollected_iff.2 ⟨p, hx⟩)
    · obtain rfl := (h.linked hP).forest.unique q p x hc hx
      exact hp hq
  · intro hx
    obtain ⟨⟨p, hx⟩, hb⟩ := hx
    exact ⟨p, hw.child_iff.2 ⟨fun hp => hb (hp.tail hx), hx⟩⟩

theorem isCollected_of_below {x : F} (hb : Below table r x) (hne : x ≠ r) : IsCollected table x := by
  rcases ReflTransGen.cases_tail hb with heq | ⟨q, -, hc⟩
  · exact absurd heq hne
  · exact isCollected_iff.2 ⟨q, hc⟩

theorem without (h : TableInv P table timeouts) (hP : Ranked rank P) (hr : ¬ IsCollected table r)
    (hw : Without table (Below table r) table') : TableInv P table' (timeouts.erase r) := by
  have hcollected : ∀ {x}, IsCollected table' x ↔ IsCollected table x ∧ ¬ Below table r x :=
    h.isCollected_without hP hr hw
  have hsub : ∀ p, ∀ b ∈ children table' p, b ∈ children table p := fun p b hb => (hw.mem_children.1 hb).1
  refine ⟨fun p b hb => h.parent p b (hsub p b hb), fun p b hb => h.block p b (hsub p b hb), fun p => ?_,
    fun x => ?_, fun x => ?_⟩
  · by_cases hp : Below table r p
    · rw [children_of_none (hw.removed p hp)]
      exact List.nodup_nil
    · rw [children, hw.kept p hp]
      exact h.nodup p
  · rw [hw.mem_iff, hcollected, h.key_iff]
    by_cases hx : Below table r x
    · simp [hx, children_of_none (hw.removed x hx)]
    · have heq : children table' x = children table x := by rw [children, hw.kept x hx, children]
      simp [hx, heq]
  · rw [AList.mem_erase, h.timeout_iff, hw.mem_iff, hcollected]
    constructor
    · intro hx
      obtain ⟨hne, hmem, hnot⟩ := hx
      exact ⟨⟨hmem, fun hb => hnot (isCollected_of_below hb hne)⟩, fun hx => hnot hx.1⟩
    · intro hx
      obtain ⟨⟨hmem, hb⟩, hnot⟩ := hx
      exact ⟨fun heq => hb (heq ▸ .refl), hmem, fun hc => hnot ⟨hc, hb⟩⟩

/-- The trees of a root that are taken out, and what is left. -/
theorem take (h : TableInv P table timeouts) (hP : Ranked rank P) (hr : ¬ IsCollected table r) :
    ∃ trees table', extractForest table r = .ok (r, trees) ∧ removeTree (fuelFor table) table r = .ok table' ∧
      TableInv P table' (timeouts.erase r) ∧ Extracted table r trees ∧
      (RoseTree.listToList trees ++ collected table').Perm (collected table) := by
  obtain ⟨trees, hextract, htrees⟩ := extractForest_ok (h.linked hP) r
  obtain ⟨table', hremove, hw⟩ := removeTree_ok (fuelFor table) table r (Nat.lt_succ_self _)
  have hinv := h.without hP hr hw
  refine ⟨trees, table', hextract, hremove, hinv, htrees, ?_⟩
  have hdisjoint : (RoseTree.listToList trees).Disjoint (collected table') := by
    intro b hb hb'
    obtain ⟨q, hq, hmem⟩ := (htrees.mem b).1 hb
    obtain ⟨p, hp⟩ := mem_collected.1 hb'
    obtain ⟨hmem', hnot⟩ := hw.mem_children.1 hp
    rw [← h.parent p b hmem', h.parent q b hmem] at hnot
    exact hnot hq
  refine (List.perm_ext_iff_of_nodup (List.nodup_append'.2
    ⟨htrees.nodup, (hinv.linked hP).nodup_collected, hdisjoint⟩) (h.linked hP).nodup_collected).2 fun b => ?_
  rw [List.mem_append, htrees.mem, mem_collected, mem_collected]
  constructor
  · intro hb
    rcases hb with ⟨q, -, hb⟩ | ⟨p, hb⟩
    · exact ⟨q, hb⟩
    · exact ⟨p, (hw.mem_children.1 hb).1⟩
  · intro hb
    obtain ⟨p, hb⟩ := hb
    by_cases hp : Below table r p
    · exact Or.inl ⟨p, hp, hb⟩
    · exact Or.inr ⟨p, hw.mem_children.2 ⟨hb, hp⟩⟩

end Take

end TableInv

/-! ## Adding a transition -/

section Add

variable {b : Transition F}

/-- The table after `b` has been added under its parent. -/
def added (table : Table F) (b : Transition F) : Table F :=
  let table := table.insert b.parentHash (b :: children table b.parentHash)
  table.insert b.stateHash (children table b.stateHash)

theorem children_added (hne : b.stateHash ≠ b.parentHash) (q : F) :
    children (added table b) q = if q = b.parentHash then b :: children table q else children table q := by
  rw [added]
  by_cases hq : q = b.stateHash
  · subst hq
    rw [children_insert_self, children_insert_ne _ _ hne, if_neg hne]
  · rw [children_insert_ne _ _ hq]
    by_cases hqp : q = b.parentHash
    · subst hqp
      rw [children_insert_self, if_pos rfl]
    · rw [children_insert_ne _ _ hqp, if_neg hqp]

theorem mem_added {q : F} : q ∈ added table b ↔ q = b.stateHash ∨ q = b.parentHash ∨ q ∈ table := by
  rw [added, AList.mem_insert, AList.mem_insert]

theorem mem_children_added (hne : b.stateHash ≠ b.parentHash) {q : F} {x : Transition F} :
    x ∈ children (added table b) q ↔ (q = b.parentHash ∧ x = b) ∨ x ∈ children table q := by
  rw [children_added hne]
  split
  next hq => simp [hq]
  next hq => simp [hq]

theorem isCollected_added (hne : b.stateHash ≠ b.parentHash) {x : F} :
    IsCollected (added table b) x ↔ x = b.stateHash ∨ IsCollected table x := by
  rw [isCollected_iff, isCollected_iff]
  constructor
  · intro h
    obtain ⟨p, c, hc, rfl⟩ := h
    rcases (mem_children_added hne).1 hc with ⟨-, rfl⟩ | hc
    · exact Or.inl rfl
    · exact Or.inr ⟨p, c, hc, rfl⟩
  · intro h
    rcases h with rfl | ⟨p, c, hc, rfl⟩
    · exact ⟨b.parentHash, b, (mem_children_added hne).2 (Or.inl ⟨rfl, rfl⟩), rfl⟩
    · exact ⟨p, c, (mem_children_added hne).2 (Or.inr hc), rfl⟩

theorem TableInv.add (h : TableInv P table timeouts) (hP : Ranked rank P) (hb : P b) (hnew : ¬ IsCollected table b.stateHash)
    (timeouts' : AList fun _ : F => Timeout F)
    (htimeouts : ∀ x, x ∈ timeouts' ↔ x ≠ b.stateHash ∧ x ∈ timeouts ∨ x = b.parentHash ∧ x ∉ table) :
    TableInv P (added table b) timeouts' ∧ (collected (added table b)).Perm (b :: collected table) := by
  have hne : b.stateHash ≠ b.parentHash := fun heq => by
    have hlt := hP.rank b hb
    rw [heq] at hlt
    omega
  have hfresh : ∀ p, b ∉ children table p := fun p hp => hnew (isCollected_iff.2 ⟨p, b, hp, rfl⟩)
  have hinv : TableInv P (added table b) timeouts' := by
    refine ⟨fun p x hx => ?_, fun p x hx => ?_, fun p => ?_, fun x => ?_, fun x => ?_⟩
    · rcases (mem_children_added hne).1 hx with ⟨rfl, rfl⟩ | hx
      · rfl
      · exact h.parent p x hx
    · rcases (mem_children_added hne).1 hx with ⟨rfl, rfl⟩ | hx
      · exact hb
      · exact h.block p x hx
    · rw [children_added hne]
      split
      next => exact List.nodup_cons.2 ⟨hfresh p, h.nodup p⟩
      next => exact h.nodup p
    · rw [mem_added, isCollected_added hne, h.key_iff, children_added hne]
      split
      next hx => simp [hx]
      next hx => simp [hx, or_assoc]
    · rw [htimeouts, mem_added, isCollected_added hne, h.timeout_iff]
      constructor
      · intro hx
        rcases hx with ⟨hx, hmem, hnot⟩ | ⟨rfl, hmem⟩
        · exact ⟨Or.inr (Or.inr hmem), fun hc => hc.elim hx hnot⟩
        · refine ⟨Or.inr (Or.inl rfl), fun hc => ?_⟩
          rcases hc with heq | hc
          · exact hne heq.symm
          · exact hmem ((h.key_iff _).2 (Or.inl hc))
      · intro hx
        obtain ⟨hmem, hnot⟩ := hx
        rw [not_or] at hnot
        by_cases hx : x ∈ table
        · exact Or.inl ⟨hnot.1, hx, hnot.2⟩
        · exact Or.inr ⟨(hmem.resolve_left hnot.1).resolve_right hx, hx⟩
  refine ⟨hinv, ?_⟩
  have hnotin : b ∉ collected table := fun hmem => hnew ⟨b, hmem, rfl⟩
  refine (List.perm_ext_iff_of_nodup (hinv.linked hP).nodup_collected
    (List.nodup_cons.2 ⟨hnotin, (h.linked hP).nodup_collected⟩)).2 fun x => ?_
  rw [List.mem_cons, mem_collected, mem_collected]
  constructor
  · intro hx
    obtain ⟨p, hx⟩ := hx
    exact ((mem_children_added hne).1 hx).imp And.right fun hx => ⟨p, hx⟩
  · intro hx
    rcases hx with rfl | ⟨p, hx⟩
    · exact ⟨x.parentHash, (mem_children_added hne).2 (Or.inl ⟨rfl, rfl⟩)⟩
    · exact ⟨p, (mem_children_added hne).2 (Or.inr hx)⟩

end Add

/-! ## Timeouts -/

/-- The timeouts of the table are those that run. -/
structure Timers (t : T F) : Prop where
  running : ∀ h x, t.parentRootTimeouts.lookup h = some x → x.parentHash = h ∧ x ∈ t.timeController
  root : ∀ x ∈ t.timeController, t.parentRootTimeouts.lookup x.parentHash = some x
  ids : ∀ x ∈ t.timeController, ∀ y ∈ t.timeController, x.id = y.id → x = y
  fresh : ∀ x ∈ t.timeController, x.id < t.nextTimeoutId

namespace Timers

variable {t t' : T F}

/-- A timeout is stopped and removed. -/
theorem remove (h : Timers t) {hash : F} {x : Timeout F} (hx : t.parentRootTimeouts.lookup hash = some x)
    (hcontroller : t'.timeController = t.timeController.filter (·.id ≠ x.id))
    (htable : t'.parentRootTimeouts = t.parentRootTimeouts.erase hash) (hid : t'.nextTimeoutId = t.nextTimeoutId) :
    Timers t' := by
  obtain ⟨rfl, hmem⟩ := h.running hash x hx
  have hfilter : ∀ y, y ∈ t'.timeController ↔ y ∈ t.timeController ∧ y.id ≠ x.id := fun y => by
    rw [hcontroller, List.mem_filter, decide_eq_true_eq]
  refine ⟨fun k y hy => ?_, fun y hy => ?_, fun y hy z hz => ?_, fun y hy => ?_⟩
  · rw [htable] at hy
    have hk : k ≠ x.parentHash := by
      intro hk
      rw [hk, AList.lookup_erase] at hy
      cases hy
    rw [AList.lookup_erase_ne hk] at hy
    obtain ⟨rfl, hmem'⟩ := h.running k y hy
    refine ⟨rfl, (hfilter y).2 ⟨hmem', fun heq => hk ?_⟩⟩
    rw [h.ids y hmem' x hmem heq]
  · obtain ⟨hy, hne⟩ := (hfilter y).1 hy
    have hroot := h.root y hy
    rw [htable, AList.lookup_erase_ne, hroot]
    intro heq
    rw [heq, hx] at hroot
    cases hroot
    exact hne rfl
  · exact h.ids y ((hfilter y).1 hy).1 z ((hfilter z).1 hz).1
  · rw [hid]
    exact h.fresh y ((hfilter y).1 hy).1

theorem cancelTimeout (h : Timers t) (now : UInt64) (hash : F) : Timers (cancelTimeout t now hash).2 := by
  cases hx : t.parentRootTimeouts.lookup hash with
  | none =>
    have herase : t.parentRootTimeouts.erase hash = t.parentRootTimeouts := by
      refine AList.ext ?_
      exact List.kerase_of_notMem_keys fun hmem => AList.lookup_eq_none.1 hx (AList.mem_keys.2 hmem)
    rw [TransitionHandler.cancelTimeout, hx]
    dsimp only
    rw [herase]
    exact h
  | some x =>
    rw [TransitionHandler.cancelTimeout, hx]
    exact h.remove hx rfl rfl rfl

/-- A timeout starts for a hash that has none. -/
theorem start (h : Timers t) {x : Timeout F} (hid : x.id = t.nextTimeoutId)
    (hx : t.parentRootTimeouts.lookup x.parentHash = none) (hcontroller : t'.timeController = x :: t.timeController)
    (htable : t'.parentRootTimeouts = t.parentRootTimeouts.insert x.parentHash x)
    (hnext : t'.nextTimeoutId = t.nextTimeoutId + 1) : Timers t' := by
  have hfresh : ∀ y ∈ t.timeController, y.id ≠ x.id := fun y hy => by
    have hlt := h.fresh y hy
    omega
  refine ⟨fun k y hy => ?_, fun y hy => ?_, fun y hy z hz heq => ?_, fun y hy => ?_⟩
  · rw [htable] at hy
    rw [hcontroller]
    by_cases hk : k = x.parentHash
    · subst hk
      rw [AList.lookup_insert] at hy
      cases hy
      exact ⟨rfl, List.mem_cons_self⟩
    · rw [AList.lookup_insert_ne hk] at hy
      obtain ⟨heq, hmem⟩ := h.running k y hy
      exact ⟨heq, List.mem_cons_of_mem _ hmem⟩
  · rw [hcontroller] at hy
    rw [htable]
    rcases List.mem_cons.1 hy with rfl | hy
    · exact AList.lookup_insert _
    · have hroot := h.root y hy
      rw [AList.lookup_insert_ne, hroot]
      intro heq
      rw [heq, hx] at hroot
      cases hroot
  · rw [hcontroller] at hy hz
    rcases List.mem_cons.1 hy with hyx | hy' <;> rcases List.mem_cons.1 hz with hzx | hz'
    · rw [hyx, hzx]
    · exact absurd (hyx ▸ heq.symm) (hfresh z hz')
    · exact absurd (hzx ▸ heq) (hfresh y hy')
    · exact h.ids y hy' z hz' heq
  · rw [hcontroller] at hy
    rw [hnext]
    rcases List.mem_cons.1 hy with rfl | hy
    · omega
    · have hlt := h.fresh y hy
      omega

end Timers

/-! ## Steps -/

structure Inv (P : Transition F → Prop) (t : T F) : Prop where
  table : TableInv P t.collectedTransitions t.parentRootTimeouts
  timers : Timers t

theorem Inv.create : Inv P (create : T F) := by
  refine ⟨TableInv.empty, fun h x hx => ?_, fun x hx => ?_, fun x hx => ?_, fun x hx => ?_⟩
  · cases hx
  · cases hx
  · cases hx
  · cases hx

/-- What an event does: at most one job, for a root that is not collected,
gets trees in which every transition is under its parent; and what it gets and
what stays is what was there and what the event brings. -/
structure Stepped (t : T F) (event : Event F) (t' : T F) : Prop where
  leaves : ∃ jobs : List (Job F), jobs.length ≤ 1 ∧
    (t'.catchupJobWriter = t.catchupJobWriter ++ jobs ∧
        t'.breadcrumbBuilderSupervisor = t.breadcrumbBuilderSupervisor ∨
      t'.catchupJobWriter = t.catchupJobWriter ∧
        t'.breadcrumbBuilderSupervisor = t.breadcrumbBuilderSupervisor ++ jobs) ∧
    (∀ job ∈ jobs, ¬ IsCollected t.collectedTransitions job.1 ∧
      ∀ tree ∈ job.2, tree.Placed (·.stateHash) (·.parentHash) job.1) ∧
    (jobs.flatMap (fun job => RoseTree.listToList job.2) ++ collected t'.collectedTransitions).Perm
      (admitted t event ++ collected t.collectedTransitions)

/-- The transition that an event brings is a block. -/
def Event.Allowed (P : Transition F → Prop) : Event F → Prop
  | .watch _ _ b => P b
  | _ => True

section Step

variable {t : T F}

theorem cancelTimeout_eq (t : T F) (now : UInt64) (hash : F) : ∃ controller, (cancelTimeout t now hash).2 =
    { t with timeController := controller, parentRootTimeouts := t.parentRootTimeouts.erase hash } := by
  rw [cancelTimeout]
  cases t.parentRootTimeouts.lookup hash with
  | none => exact ⟨_, rfl⟩
  | some x => exact ⟨_, rfl⟩

theorem not_isCollected_of_notMem (h : TableInv P table timeouts) (hP : Ranked rank P) {b : Transition F} (hb : P b)
    (hnot : b ∉ children table b.parentHash) : ¬ IsCollected table b.stateHash := by
  intro hc
  obtain ⟨p, b', hb', heq⟩ := isCollected_iff.1 hc
  obtain rfl := hP.hash b' b (h.block p b' hb') hb heq
  rw [h.parent p b' hb'] at hnot
  exact hnot hb'

theorem admitted_watch {now timeoutDuration : UInt64} {b : Transition F} :
    admitted t (.watch now timeoutDuration b) =
      if (collected t.collectedTransitions).any fun c => c.stateHash = b.stateHash then [] else [b] := rfl

theorem admitted_of_new {now timeoutDuration : UInt64} {b : Transition F}
    (hnew : ¬ IsCollected t.collectedTransitions b.stateHash) : admitted t (.watch now timeoutDuration b) = [b] := by
  rw [admitted_watch, if_neg]
  intro hany
  obtain ⟨c, hc, heq⟩ := List.any_eq_true.1 hany
  exact hnew ⟨c, hc, of_decide_eq_true heq⟩

/-- A transition comes under a root that is new. -/
theorem watch_new (h : Inv P t) (hP : Ranked rank P) {b : Transition F} (hb : P b) (now timeoutDuration : UInt64)
    (hnone : t.collectedTransitions.lookup b.parentHash = none) :
    ∃ t', watch t now timeoutDuration b = .ok t' ∧ Inv P t' ∧ Stepped t (.watch now timeoutDuration b) t' := by
  have hnil := children_of_none hnone
  have hnew : ¬ IsCollected t.collectedTransitions b.stateHash :=
    not_isCollected_of_notMem h.table hP hb (by rw [hnil]; exact List.not_mem_nil)
  have hmem : b.parentHash ∉ t.collectedTransitions := AList.lookup_eq_none.1 hnone
  have htimeout : b.parentHash ∉ t.parentRootTimeouts := fun hin => hmem ((h.table.timeout_iff _).1 hin).1
  obtain ⟨controller, hcancel⟩ := cancelTimeout_eq t now b.stateHash
  have htimers := h.timers.cancelTimeout now b.stateHash
  have hlookup : (t.parentRootTimeouts.erase b.stateHash).lookup b.parentHash = none :=
    AList.lookup_eq_none.2 fun hin => htimeout (AList.mem_erase.1 hin).2
  rw [watch, hnone]
  generalize cancelTimeout t now b.stateHash = cancelled at hcancel htimers
  obtain ⟨remaining, t₁⟩ := cancelled
  dsimp only at hcancel htimers
  subst hcancel
  dsimp only
  rw [addExn, hnone]
  dsimp only [Exn.andThen_ok, makeTimeout]
  rw [addTimeout, hlookup]
  have hadded : (t.collectedTransitions.insert b.parentHash [b]).insert b.stateHash
      (children (t.collectedTransitions.insert b.parentHash [b]) b.stateHash) = added t.collectedTransitions b := by
    rw [added, hnil]
  rw [hadded]
  have htable : ∀ timeout : Timeout F, _ := fun timeout =>
    h.table.add hP hb hnew ((t.parentRootTimeouts.erase b.stateHash).insert b.parentHash timeout) fun x => by
      rw [AList.mem_insert, AList.mem_erase]
      constructor
      · intro hx
        rcases hx with rfl | hx
        · exact Or.inr ⟨rfl, hmem⟩
        · exact Or.inl hx
      · intro hx
        rcases hx with hx | ⟨hx, -⟩
        · exact Or.inr hx
        · exact Or.inl hx
  obtain ⟨-, hperm⟩ := htable ⟨t.nextTimeoutId, b.parentHash, now, timeoutDuration⟩
  refine ⟨_, rfl, ⟨(htable _).1, htimers.start rfl hlookup rfl rfl rfl⟩, [], Nat.zero_le _, Or.inl ⟨?_, rfl⟩, ?_, ?_⟩
  · rw [List.append_nil]
  · intro job hjob
    cases hjob
  · rw [admitted_of_new hnew]
    exact hperm

/-- A transition comes under a hash that is a key. -/
theorem watch_key (h : Inv P t) (hP : Ranked rank P) {b : Transition F} (hb : P b) (now timeoutDuration : UInt64)
    {siblings : List (Transition F)} (hsome : t.collectedTransitions.lookup b.parentHash = some siblings) :
    ∃ t', watch t now timeoutDuration b = .ok t' ∧ Inv P t' ∧ Stepped t (.watch now timeoutDuration b) t' := by
  have hsiblings := children_of_lookup hsome
  have hmem : b.parentHash ∈ t.collectedTransitions := AList.lookup_isSome.1 (by rw [hsome]; rfl)
  rw [watch, hsome]
  dsimp only
  split
  next hany =>
    obtain ⟨c, hc, heq⟩ := List.any_eq_true.1 hany
    have hcollected : c ∈ collected t.collectedTransitions := mem_collected.2 ⟨_, hsiblings ▸ hc⟩
    refine ⟨t, rfl, h, [], Nat.zero_le _, Or.inl ⟨(List.append_nil _).symm, rfl⟩, fun job hjob => ?_, ?_⟩
    · cases hjob
    · rw [admitted_watch, if_pos]
      · exact .refl _
      · exact List.any_eq_true.2 ⟨c, hcollected, decide_eq_true (of_decide_eq_true heq).symm⟩
  next hany =>
    have hnew : ¬ IsCollected t.collectedTransitions b.stateHash := by
      refine not_isCollected_of_notMem h.table hP hb fun hin => hany ?_
      rw [hsiblings] at hin
      exact List.any_eq_true.2 ⟨b, hin, decide_eq_true rfl⟩
    obtain ⟨controller, hcancel⟩ := cancelTimeout_eq t now b.stateHash
    have htimers := h.timers.cancelTimeout now b.stateHash
    generalize cancelTimeout t now b.stateHash = cancelled at hcancel htimers
    obtain ⟨remaining, t₁⟩ := cancelled
    dsimp only at hcancel htimers
    subst hcancel
    dsimp only
    have hadded : (t.collectedTransitions.insert b.parentHash (b :: siblings)).insert b.stateHash
        (children (t.collectedTransitions.insert b.parentHash (b :: siblings)) b.stateHash) =
        added t.collectedTransitions b := by
      rw [added, hsiblings]
    rw [hadded]
    obtain ⟨htable, hperm⟩ := h.table.add hP hb hnew (t.parentRootTimeouts.erase b.stateHash) fun x => by
      rw [AList.mem_erase]
      constructor
      · exact Or.inl
      · intro hx
        rcases hx with hx | ⟨rfl, hx⟩
        · exact hx
        · exact absurd hmem hx
    refine ⟨_, rfl, ⟨htable, htimers.running, htimers.root, htimers.ids, htimers.fresh⟩, [], Nat.zero_le _,
      Or.inl ⟨(List.append_nil _).symm, rfl⟩, fun job hjob => ?_, ?_⟩
    · cases hjob
    · rw [admitted_of_new hnew]
      exact hperm

/-- The timeout of a missing parent expires. -/
theorem expire_running (h : Inv P t) (hP : Ranked rank P) {x : Timeout F} (hmem : x ∈ t.timeController) :
    ∃ trees t', step t (.expire x.id) = .ok t' ∧ Inv P t' ∧ Stepped t (.expire x.id) t' ∧
      t'.catchupJobWriter = t.catchupJobWriter ++ [(x.parentHash, trees)] ∧
      Extracted t.collectedTransitions x.parentHash trees := by
  have hroot := h.timers.root x hmem
  have hfind : t.timeController.find? (·.id = x.id) = some x := by
    obtain ⟨y, hy⟩ := Option.isSome_iff_exists.1 (List.find?_isSome (p := fun y : Timeout F => y.id = x.id)|>.2
      ⟨x, hmem, decide_eq_true rfl⟩)
    have hid := List.find?_some hy
    rw [decide_eq_true_eq] at hid
    rw [hy, h.timers.ids y (List.mem_of_find?_eq_some hy) x hmem hid]
  have hnot : ¬ IsCollected t.collectedTransitions x.parentHash :=
    ((h.table.timeout_iff _).1 (AList.lookup_isSome.1 (by rw [hroot]; rfl))).2
  obtain ⟨trees, table', hextract, hremove, htable, htrees, hperm⟩ := h.table.take hP hnot
  rw [step, hfind]
  dsimp only
  rw [timedOut]
  dsimp only
  rw [hextract, Exn.andThen_ok, hremove, Exn.andThen_ok]
  refine ⟨trees, _, rfl, ⟨htable, h.timers.remove hroot rfl rfl rfl⟩, ⟨[(x.parentHash, trees)], le_refl _,
    Or.inl ⟨rfl, rfl⟩, fun job hjob => ?_, ?_⟩, rfl, htrees⟩
  · obtain rfl := List.mem_singleton.1 hjob
    exact ⟨hnot, htrees.placed⟩
  · rw [List.flatMap_singleton]
    exact hperm

theorem expire_ok (h : Inv P t) (hP : Ranked rank P) (id : Nat) :
    ∃ t', step t (.expire id) = .ok t' ∧ Inv P t' ∧ Stepped t (.expire id) t' := by
  cases hfind : t.timeController.find? (·.id = id) with
  | none =>
    rw [step, hfind]
    refine ⟨t, rfl, h, [], Nat.zero_le _, Or.inl ⟨(List.append_nil _).symm, rfl⟩, fun job hjob => ?_, .refl _⟩
    cases hjob
  | some x =>
    have hid := List.find?_some hfind
    rw [decide_eq_true_eq] at hid
    subst hid
    obtain ⟨trees, t', hstep, hinv, hstepped, -⟩ := expire_running h hP (List.mem_of_find?_eq_some hfind)
    exact ⟨t', hstep, hinv, hstepped⟩

theorem notify_error_iff (h : Inv P t) (now : UInt64) (hash : F) :
    (∃ e t', notify t now hash = .ok (.error e, t')) ↔ IsCollected t.collectedTransitions hash := by
  rw [notify]
  split
  next hif =>
    refine iff_of_true ⟨_, _, rfl⟩ ?_
    by_contra hnot
    have hin := (h.table.timeout_iff hash).2 ⟨AList.lookup_isSome.1 hif.2, hnot⟩
    exact AList.lookup_eq_none.1 hif.1 hin
  next hif =>
    refine iff_of_false (fun hok => ?_) fun hc => hif ⟨?_, ?_⟩
    · obtain ⟨e, t', hok⟩ := hok
      obtain ⟨jobs, -, hok⟩ := Exn.andThen_eq_ok.1 hok
      obtain ⟨table, -, hok⟩ := Exn.andThen_eq_ok.1 hok
      cases hok
    · exact AList.lookup_eq_none.2 fun hin => ((h.table.timeout_iff hash).1 hin).2 hc
    · exact AList.lookup_isSome.2 ((h.table.key_iff hash).2 (Or.inl hc))

/-- A missing parent has arrived, or a hash that is not a key. -/
theorem notify_ok (h : Inv P t) (hP : Ranked rank P) (now : UInt64) (hash : F) :
    ∃ t', step t (.notify now hash) = .ok t' ∧ Inv P t' ∧ Stepped t (.notify now hash) t' := by
  rw [step, notify]
  split
  next hif =>
    refine ⟨t, rfl, h, [], Nat.zero_le _, Or.inl ⟨(List.append_nil _).symm, rfl⟩, fun job hjob => ?_, .refl _⟩
    cases hjob
  next hif =>
    have hnot : ¬ IsCollected t.collectedTransitions hash := fun hc => hif
      ⟨AList.lookup_eq_none.2 fun hin => ((h.table.timeout_iff hash).1 hin).2 hc,
        AList.lookup_isSome.2 ((h.table.key_iff hash).2 (Or.inl hc))⟩
    obtain ⟨controller, hcancel⟩ := cancelTimeout_eq t now hash
    have htimers := h.timers.cancelTimeout now hash
    generalize cancelTimeout t now hash = cancelled at hcancel htimers
    obtain ⟨remaining, t₁⟩ := cancelled
    dsimp only at hcancel htimers
    subst hcancel
    obtain ⟨trees, table', hextract, hremove, htable, htrees, hperm⟩ := h.table.take hP hnot
    have htimers' : ∀ jobs, Inv P
        { timeController := controller, nextTimeoutId := t.nextTimeoutId, catchupJobWriter := t.catchupJobWriter,
          collectedTransitions := table', parentRootTimeouts := t.parentRootTimeouts.erase hash,
          breadcrumbBuilderSupervisor := jobs } :=
      fun jobs => ⟨htable, htimers.running, htimers.root, htimers.ids, htimers.fresh⟩
    dsimp only
    cases hlookup : t.collectedTransitions.lookup hash with
    | none =>
      dsimp only
      rw [Exn.andThen_ok, hremove, Exn.andThen_ok, Exn.andThen_ok]
      refine ⟨_, rfl, htimers' _, [], Nat.zero_le _, Or.inr ⟨rfl, rfl⟩, fun job hjob => ?_, ?_⟩
      · cases hjob
      · rw [extractForest, children_of_none hlookup] at hextract
        cases hextract
        exact hperm
    | some siblings =>
      dsimp only
      rw [hextract, Exn.andThen_ok, Exn.andThen_ok, hremove, Exn.andThen_ok, Exn.andThen_ok]
      refine ⟨_, rfl, htimers' _, [(hash, trees)], le_refl _, Or.inr ⟨rfl, rfl⟩, fun job hjob => ?_, ?_⟩
      · obtain rfl := List.mem_singleton.1 hjob
        exact ⟨hnot, htrees.placed⟩
      · rw [List.flatMap_singleton]
        exact hperm

/-- **One step.** -/
theorem step_ok (h : Inv P t) (hP : Ranked rank P) {event : Event F} (hevent : event.Allowed P) :
    ∃ t', step t event = .ok t' ∧ Inv P t' ∧ Stepped t event t' := by
  cases event with
  | watch now timeoutDuration b =>
    cases hlookup : t.collectedTransitions.lookup b.parentHash with
    | none => exact watch_new h hP hevent now timeoutDuration hlookup
    | some siblings => exact watch_key h hP hevent now timeoutDuration hlookup
  | notify now hash => exact notify_ok h hP now hash
  | expire id => exact expire_ok h hP id

theorem Stepped.handedOn {t' : T F} {event : Event F} (h : Stepped t event t') :
    (handedOn t' ++ collected t'.collectedTransitions).Perm
      (handedOn t ++ collected t.collectedTransitions ++ admitted t event) := by
  obtain ⟨jobs, -, hjobs, -, hperm⟩ := h.leaves
  refine List.perm_iff_count.2 fun b => ?_
  have hcount := hperm.count_eq b
  simp only [List.count_append] at hcount
  rcases hjobs with ⟨hcatchup, hbuilder⟩ | ⟨hcatchup, hbuilder⟩ <;>
    simp only [TransitionHandler.handedOn, hcatchup, hbuilder, List.flatMap_append, List.count_append] <;> omega

end Step

/-! ## Runs -/

/-- Above every collected transition there is a missing parent. -/
theorem exists_missing (h : TableInv P table timeouts) (hP : Ranked rank P) {p : F} (hp : children table p ≠ []) :
    ∃ r ∈ timeouts, Below table r p := by
  induction hn : rank p using Nat.strong_induction_on generalizing p with
  | _ n ih =>
    by_cases hc : IsCollected table p
    · obtain ⟨q, b, hb, heq⟩ := isCollected_iff.1 hc
      have hrank := (h.linked hP).forest.rank q p ⟨b, hb, heq⟩
      obtain ⟨r, hr, hbelow⟩ := ih (rank q) (by omega) (List.ne_nil_of_mem hb) rfl
      exact ⟨r, hr, hbelow.tail ⟨b, hb, heq⟩⟩
    · exact ⟨p, (h.timeout_iff p).2 ⟨(h.key_iff p).2 (Or.inr hp), hc⟩, .refl⟩

theorem run_ok (hP : Ranked rank P) : ∀ {events : List (Event F)} {t : T F}, Inv P t →
    (∀ event ∈ events, event.Allowed P) → ∃ t', run t events = .ok t' ∧ Inv P t' ∧
      (handedOn t' ++ collected t'.collectedTransitions).Perm
        (handedOn t ++ collected t.collectedTransitions ++ admittedAll t events) := by
  intro events
  induction events with
  | nil =>
    intro t h _
    refine ⟨t, rfl, h, ?_⟩
    rw [admittedAll, List.append_nil]
  | cons event events ih =>
    intro t h hevents
    obtain ⟨t₁, hstep, h₁, hstepped⟩ := step_ok h hP (hevents event List.mem_cons_self)
    obtain ⟨t', hrun, h', hperm⟩ := ih h₁ fun e he => hevents e (List.mem_cons_of_mem _ he)
    refine ⟨t', Exn.fold_cons_eq_ok.2 ⟨t₁, hstep, hrun⟩, h', hperm.trans ?_⟩
    rw [admittedAll, hstep, ← List.append_assoc]
    exact hstepped.handedOn.append_right _

/-- The transitions that are watched. -/
def watched (events : List (Event F)) : List (Transition F) :=
  events.flatMap fun event =>
    match event with
    | .watch _ _ b => [b]
    | _ => []

/-- `h` is the hash of a block of `l` whose parent is `p`. -/
def IsParent (l : List (Transition F)) (p h : F) : Prop := ∃ b ∈ l, b.parentHash = p ∧ b.stateHash = h

/-- A parent of collected transitions that is not collected. -/
def IsMissing (table : Table F) (hash : F) : Prop :=
  ¬ IsCollected table hash ∧ ∃ b ∈ collected table, b.parentHash = hash

/-- The state of the scheduler after `events`. -/
structure Scheduled (events : List (Event F)) (t : T F) : Prop where
  keys : ∀ h, h ∈ t.collectedTransitions ↔ IsCollected t.collectedTransitions h ∨ IsMissing t.collectedTransitions h
  timeouts : ∀ h, h ∈ t.parentRootTimeouts ↔ h ∈ t.collectedTransitions ∧ ¬ IsCollected t.collectedTransitions h
  /-- The timeouts of the table are those that run, each under its hash. -/
  running : ∀ h x, t.parentRootTimeouts.lookup h = some x ↔ x ∈ t.timeController ∧ x.parentHash = h
  /-- What was brought has left once or is collected once. -/
  once : (handedOn t ++ collected t.collectedTransitions).Perm (admittedAll create events)
  /-- What is collected leaves when a timeout that runs expires. -/
  leaves : ∀ b ∈ collected t.collectedTransitions, ∃ x ∈ t.timeController, ∃ t' job,
    step t (.expire x.id) = .ok t' ∧ t'.catchupJobWriter = t.catchupJobWriter ++ [job] ∧
      b ∈ RoseTree.listToList job.2
  notify : ∀ now h, (∃ e t', notify t now h = .ok (.error e, t')) ↔ IsCollected t.collectedTransitions h

theorem scheduled_of_inv {t : T F} (h : Inv P t) (hP : Ranked rank P) {events : List (Event F)}
    (honce : (handedOn t ++ collected t.collectedTransitions).Perm (admittedAll create events)) :
    Scheduled events t := by
  refine ⟨fun x => ?_, h.table.timeout_iff, fun x y => ?_, honce, fun b hb => ?_, fun now x => notify_error_iff h now x⟩
  · have hparent : (∃ b ∈ collected t.collectedTransitions, b.parentHash = x) ↔
        children t.collectedTransitions x ≠ [] := by
      constructor
      · intro hb
        obtain ⟨b, hb, rfl⟩ := hb
        obtain ⟨p, hp⟩ := mem_collected.1 hb
        rw [h.table.parent p b hp]
        exact List.ne_nil_of_mem hp
      · intro hne
        obtain ⟨b, hb⟩ := List.exists_mem_of_ne_nil _ hne
        exact ⟨b, mem_collected.2 ⟨x, hb⟩, h.table.parent x b hb⟩
    rw [h.table.key_iff, IsMissing, hparent]
    tauto
  · constructor
    · intro hlookup
      exact (h.timers.running x y hlookup).symm
    · intro hy
      obtain ⟨hmem, rfl⟩ := hy
      exact h.timers.root y hmem
  · obtain ⟨p, hp⟩ := mem_collected.1 hb
    obtain ⟨r, hr, hbelow⟩ := exists_missing h.table hP (List.ne_nil_of_mem hp)
    obtain ⟨x, hx⟩ := Option.isSome_iff_exists.1 (AList.lookup_isSome.2 hr)
    obtain ⟨rfl, hmem⟩ := h.timers.running r x hx
    obtain ⟨trees, t', hstep, -, -, hwriter, htrees⟩ := expire_running h hP hmem
    exact ⟨x, hmem, t', _, hstep, hwriter, (htrees.mem b).2 ⟨p, hbelow, hp⟩⟩

/-- **The scheduler hands on every block once.** Whatever blocks with an
acyclic parent relation are watched, and whatever hashes are notified and
timeouts expire in between, nothing is raised, the scheduler ends with one
timeout for each missing parent, and every block it was brought is collected
or has left, once; and in each step at most one job gets trees. -/
theorem run_scheduled {events : List (Event F)}
    (hhash : ∀ b ∈ watched events, ∀ b' ∈ watched events, b.stateHash = b'.stateHash → b = b')
    (hacyclic : ∀ h, ¬ TransGen (IsParent (watched events)) h h) :
    (∃ t, run create events = .ok t ∧ Scheduled events t) ∧
      ∀ before event, before ++ [event] <+: events →
        ∃ t t', run create before = .ok t ∧ step t event = .ok t' ∧ Stepped t event t' := by
  obtain ⟨rank, hrank⟩ := exists_rank ((watched events).map (·.parentHash)) (fun p h hp => by
    obtain ⟨b, hb, rfl, -⟩ := hp
    exact List.mem_map_of_mem hb) hacyclic
  have hP : Ranked rank (· ∈ watched events) :=
    ⟨fun b b' hb hb' => hhash b hb b' hb', fun b hb => hrank _ _ ⟨b, hb, rfl, rfl⟩⟩
  have hallowed : ∀ event ∈ events, event.Allowed (· ∈ watched events) := by
    intro event hevent
    cases event with
    | watch now timeoutDuration b => exact List.mem_flatMap.2 ⟨_, hevent, List.mem_singleton_self b⟩
    | notify now hash => trivial
    | expire id => trivial
  refine ⟨?_, fun before event hprefix => ?_⟩
  · obtain ⟨t, hrun, h, hperm⟩ := run_ok hP Inv.create hallowed
    exact ⟨t, hrun, scheduled_of_inv h hP hperm⟩
  · have hsub : ∀ e ∈ before ++ [event], e ∈ events := fun e he => hprefix.subset he
    obtain ⟨t, hrun, h, -⟩ := run_ok hP Inv.create fun e he => hallowed e (hsub e (List.mem_append_left _ he))
    obtain ⟨t', hstep, -, hstepped⟩ := step_ok h hP (hallowed event (hsub event (by simp)))
    exact ⟨t, t', hrun, hstep, hstepped⟩

/-- A parent arrives after two of its children, is asked for in vain, and the
timeout of its own parent expires. -/
def lateParent : List (Event Nat) :=
  [.watch 0 10 ⟨3, 2⟩, .watch 1 10 ⟨4, 2⟩, .watch 4 10 ⟨2, 1⟩, .watch 5 10 ⟨3, 2⟩, .notify 6 2, .expire 1]

example : (run create lateParent).map (fun t => (handedOn t, collected t.collectedTransitions)) =
    .ok ([⟨2, 1⟩, ⟨4, 2⟩, ⟨3, 2⟩], []) := by decide +kernel

theorem run_scheduled_lateParent : (∃ t, run create lateParent = .ok t ∧ Scheduled lateParent t) ∧
    ∀ before event, before ++ [event] <+: lateParent →
      ∃ t t', run create before = .ok t ∧ step t event = .ok t' ∧ Stepped t event t' := by
  refine run_scheduled (by decide) fun h hcycle => ?_
  have hparent : ∀ b ∈ watched lateParent, b.parentHash < b.stateHash := by decide
  have hlt : ∀ p x, TransGen (IsParent (watched lateParent)) p x → p < x := by
    intro p x hpx
    induction hpx with
    | single hp =>
      obtain ⟨b, hb, rfl, rfl⟩ := hp
      exact hparent b hb
    | tail _ hp ih =>
      obtain ⟨b, hb, rfl, rfl⟩ := hp
      exact ih.trans (hparent b hb)
  exact lt_irrefl h (hlt h h hcycle)

end Mina.TransitionHandler
