/-
Runs of a cache. An element is in the table while one registration of it is
live: its ivar is empty and the last `Cached.t` made for it is not collected.

Two things break this. The finalizer of a registration's last `Cached.t`
removes the element but leaves the ivar empty, so an earlier `Cached.t` of
that registration, which was transformed, can still be invalidated; that
removes the element again, whoever registered it in between
(`remove_twice`). And a `transform` whose function raises marks its
`Cached.t` as transformed and makes no other, so nobody removes the element
when it is collected. A run without these two steps keeps the rest
(`entry_right`).
-/
import Mina.CacheLib.CacheFacts

namespace Mina.CacheLib

variable {A B E : Type}

/-- `h` is the last `Cached.t` made for the registration `l` of `x`. -/
def Last (t : T A B) (h : Nat) (x : A) (l : Nat) : Prop := Of t h x l ∧ ∀ k y, Of t k y l → k ≤ h

/-- The registration `l` of `x` is not over: none of its `Cached.t`s was
invalidated (they share one ivar), and the last of them is not collected. -/
def Live (t : T A B) (x : A) (l : Nat) : Prop := isFull t l = false ∧ ∃ h, Last t h x l ∧ h ∉ t.collected

namespace Event

def adds : Event A → Option Nat
  | .onAdd _ l => some l
  | _ => none

def fills : Event A → Option Nat
  | .fill l => some l
  | _ => none

def removes : Event A → Option Nat
  | .onRemove _ _ l _ => some l
  | _ => none

end Event

/-- The `Cached.t` that an operation invalidates. -/
def Op.invalidates (t : T A B) : Op A B E → Option Nat
  | .invalidateWithSuccess h => some h
  | .invalidateWithFailure h => some h
  | .sequenceResult h result =>
    match peek t h with
    | .ok value => if (result value).isOk then none else some h
    | .error _ => none
  | _ => none

/-- The two steps that a program must not take: to invalidate a `Cached.t`
of a registration whose last `Cached.t` is collected and whose ivar is still
empty, and to drop the last `Cached.t` of a registration after a `transform`
of it raised. -/
structure Keeps (t : T A B) (op : Op A B E) : Prop where
  invalidates : ∀ h x l k, op.invalidates t = some h → Of t h x l → isFull t l = false → Last t k x l →
    k ∉ t.collected
  finalizer : ∀ h x l c, op = .finalizer h → t.handles[h]? = some c → Last t h x l → isFull t l = false →
    c.transformed = false

variable [DecidableEq A]

/-- What a cache promises about what happened so far and what it holds. -/
structure Right (t : T A B) : Prop where
  /-- A registration has a last `Cached.t`. -/
  last : ∀ x l, Event.onAdd x l ∈ t.events → ∃ h, Last t h x l
  /-- `on_remove` is called for an element that was registered. -/
  registered : ∀ reason x l entry, Event.onRemove reason x l entry ∈ t.events → Event.onAdd x l ∈ t.events
  addedOnce : ∀ l, t.events.countP (fun e => e.adds = some l) ≤ 1
  removedOnce : ∀ l, t.events.countP (fun e => e.removes = some l) ≤ 1
  filledOnce : ∀ l, t.events.countP (fun e => e.fills = some l) ≤ 1
  /-- What is removed is the entry of the registration that it is removed for. -/
  ownEntry : ∀ reason x l entry, Event.onRemove reason x l entry ∈ t.events → entry = some l
  /-- An element is in the table while a registration of it is live. -/
  entry : ∀ x l, t.set x = some l ↔ Live t x l
  registerExn : ∀ x, (registerExn t x).isOk = false ↔ ∃ l, Live t x l

/-- One step of a program that keeps to `P`. -/
def Step (P : T A B → Op A B E → Prop) (t t' : T A B) : Prop := ∃ op, Allowed t op ∧ P t op ∧ step t op = t'

def Run (P : T A B → Op A B E → Prop) : T A B → T A B → Prop := Relation.ReflTransGen (Step P)

/-! ## `Cached.t`s -/

/-- What holds of the `Cached.t`s. -/
structure Heap (t : T A B) : Prop where
  bound : ∀ h x l, Of t h x l → l < t.finalStates.length
  owner : ∀ h k x y l, Of t h x l → Of t k y l → x = y
  last : ∀ h c x l, t.handles[h]? = some c → c.registration = some (x, l) → c.transformed = false → Last t h x l
  collected : ∀ h ∈ t.collected, h < t.handles.length

omit [DecidableEq A] in
theorem of_lt {t : T A B} {h : Nat} {x : A} {l : Nat} (hof : Of t h x l) : h < t.handles.length := by
  obtain ⟨c, hc, -⟩ := hof
  exact (List.getElem?_eq_some_iff.1 hc).1

omit [DecidableEq A] in
theorem Last.unique {t : T A B} {h k : Nat} {x y : A} {l : Nat} (hh : Last t h x l) (hk : Last t k y l) : h = k :=
  Nat.le_antisymm (hk.2 h x hh.1) (hh.2 k y hk.1)

section Handles

variable {t t' : T A B} {c : Cached A B}

omit [DecidableEq A] in
theorem of_append (heq : t'.handles = t.handles ++ [c]) {h : Nat} {x : A} {l : Nat} :
    Of t' h x l ↔ Of t h x l ∨ h = t.handles.length ∧ c.registration = some (x, l) := by
  unfold Of
  rw [heq]
  constructor
  · intro ⟨c', hc', hreg⟩
    rw [List.getElem?_append] at hc'
    split at hc'
    next => exact Or.inl ⟨c', hc', hreg⟩
    next hlt =>
      obtain ⟨hpos, hc'⟩ := List.getElem?_eq_some_iff.1 hc'
      rw [List.length_singleton] at hpos
      rw [List.getElem_singleton] at hc'
      exact Or.inr ⟨by omega, hc' ▸ hreg⟩
  · intro hof
    rcases hof with ⟨c', hc', hreg⟩ | ⟨rfl, hreg⟩
    · exact ⟨c', List.getElem?_append_left (of_lt ⟨c', hc', hreg⟩) ▸ hc', hreg⟩
    · exact ⟨c, List.getElem?_concat_length, hreg⟩

omit [DecidableEq A] in
theorem of_set {h : Nat} {c' : Cached A B} (hc : t.handles[h]? = some c) (heq : t'.handles = t.handles.set h c')
    (hreg : c'.registration = c.registration) {k : Nat} {x : A} {l : Nat} : Of t' k x l ↔ Of t k x l := by
  unfold Of
  rw [heq]
  by_cases hk : h = k
  · subst hk
    have hlt := (List.getElem?_eq_some_iff.1 hc).1
    rw [List.getElem?_set_self hlt, hc]
    constructor
    · intro ⟨d, hd, hdreg⟩
      cases hd
      exact ⟨c, rfl, hreg ▸ hdreg⟩
    · intro ⟨d, hd, hdreg⟩
      cases hd
      exact ⟨c', rfl, hreg ▸ hdreg⟩
  · rw [List.getElem?_set_ne hk]

end Handles

omit [DecidableEq A] in
theorem last_congr {t t' : T A B} (hof : ∀ k y m, Of t' k y m ↔ Of t k y m) {h : Nat} {x : A} {l : Nat} :
    Last t' h x l ↔ Last t h x l := by
  unfold Last
  simp only [hof]

omit [DecidableEq A] in
theorem live_congr {t t' : T A B} (hof : ∀ k y m, Of t' k y m ↔ Of t k y m) {x : A} {l : Nat}
    (hfull : isFull t' l = isFull t l) (hcollected : ∀ h, Last t h x l → (h ∈ t'.collected ↔ h ∈ t.collected)) :
    Live t' x l ↔ Live t x l := by
  unfold Live
  rw [hfull]
  constructor
  · intro ⟨hl, h, hlast, hno⟩
    have hlast := (last_congr hof).1 hlast
    exact ⟨hl, h, hlast, fun hmem => hno ((hcollected h hlast).2 hmem)⟩
  · intro ⟨hl, h, hlast, hno⟩
    exact ⟨hl, h, (last_congr hof).2 hlast, fun hmem => hno ((hcollected h hlast).1 hmem)⟩

/-! ## The invariant -/

/-- What holds of every state reached. -/
structure Inv (t : T A B) : Prop where
  heap : Heap t
  registered : ∀ reason x l entry, Event.onRemove reason x l entry ∈ t.events → Event.onAdd x l ∈ t.events
  adds : ∀ l, ∀ e ∈ t.events, Event.adds e = some l → l < t.finalStates.length
  addedOnce : ∀ l, t.events.countP (fun e => e.adds = some l) ≤ 1
  added : ∀ h x l, Of t h x l → Event.onAdd x l ∈ t.events
  made : ∀ x l, Event.onAdd x l ∈ t.events → ∃ h, Of t h x l
  removes : ∀ l, ∀ e ∈ t.events, Event.removes e = some l → l < t.finalStates.length ∧ ∀ x, ¬ Live t x l
  removedOnce : ∀ l, t.events.countP (fun e => e.removes = some l) ≤ 1
  fills : ∀ l, ∀ e ∈ t.events, Event.fills e = some l → isFull t l = true
  filledOnce : ∀ l, t.events.countP (fun e => e.fills = some l) ≤ 1
  ownEntry : ∀ reason x l entry, Event.onRemove reason x l entry ∈ t.events → entry = some l
  entry : ∀ x l, t.set x = some l ↔ Live t x l

omit [DecidableEq A] in
theorem inv_create (elementToString : A → String) : Inv (create elementToString : T A B) := by
  have hof : ∀ h x l, ¬ Of (create elementToString : T A B) h x l := by
    intro h x l hof
    exact absurd (of_lt hof) (Nat.not_lt_zero h)
  refine {
    heap := ⟨fun h x l ho => absurd ho (hof h x l), fun h _ x _ l ho => absurd ho (hof h x l), ?_, ?_⟩
    registered := ?_
    adds := ?_
    addedOnce := fun l => Nat.zero_le 1
    added := fun h x l ho => absurd ho (hof h x l)
    made := ?_
    removes := ?_
    removedOnce := fun l => Nat.zero_le 1
    fills := ?_
    filledOnce := fun l => Nat.zero_le 1
    ownEntry := ?_
    entry := fun x l => ⟨fun h => (by cases h), fun ⟨_, h, hlast, _⟩ => absurd hlast.1 (hof h x l)⟩ }
  · intro h c x l hc
    cases hc
  · intro h hmem
    cases hmem
  · intro reason x l entry hmem
    cases hmem
  · intro l e hmem
    cases hmem
  · intro x l hmem
    cases hmem
  · intro l e hmem
    cases hmem
  · intro l e hmem
    cases hmem
  · intro reason x l entry hmem
    cases hmem

section Steps

variable {t t' : T A B} (ht : Inv t)
include ht

omit [DecidableEq A] in
/-- Two registrations of an element are not live together. -/
theorem Inv.live_unique {x : A} {l m : Nat} (hl : Live t x l) (hm : Live t x m) : l = m :=
  Option.some.inj (((ht.entry x l).2 hl).symm.trans ((ht.entry x m).2 hm))

omit [DecidableEq A] in
theorem Inv.live_owner {x y : A} {l : Nat} (hx : Live t x l) (hy : Live t y l) : x = y := by
  obtain ⟨-, h, hh, -⟩ := hx
  obtain ⟨-, k, hk, -⟩ := hy
  exact ht.heap.owner h k x y l hh.1 hk.1

omit [DecidableEq A] in
/-- A step that changes neither the table nor which registrations are live. -/
theorem Inv.neutral (hheap : Heap t') (hset : t'.set = t.set) (hevents : t'.events = t.events)
    (hlength : t'.finalStates = t.finalStates) (hof : ∀ x l, (∃ h, Of t' h x l) ↔ ∃ h, Of t h x l)
    (hlive : ∀ x l, Live t' x l ↔ Live t x l) : Inv t' := by
  have hfull : ∀ l, isFull t' l = isFull t l := by
    intro l
    rw [isFull, hlength, ← isFull]
  refine {
    heap := hheap
    registered := hevents ▸ ht.registered
    adds := hevents ▸ hlength ▸ ht.adds
    addedOnce := hevents ▸ ht.addedOnce
    added := ?_
    made := ?_
    removes := ?_
    removedOnce := hevents ▸ ht.removedOnce
    fills := ?_
    filledOnce := hevents ▸ ht.filledOnce
    ownEntry := hevents ▸ ht.ownEntry
    entry := fun x l => by rw [hset, hlive]; exact ht.entry x l }
  · intro h x l hh
    obtain ⟨k, hk⟩ := (hof x l).1 ⟨h, hh⟩
    exact hevents ▸ ht.added k x l hk
  · intro x l hmem
    exact (hof x l).2 (ht.made x l (hevents ▸ hmem))
  · intro l e he hl
    rw [hevents] at he
    obtain ⟨hlt, hno⟩ := ht.removes l e he hl
    exact ⟨hlength ▸ hlt, fun x hx => hno x ((hlive x l).1 hx)⟩
  · intro l e he hl
    rw [hevents] at he
    rw [hfull]
    exact ht.fills l e he hl

/-- A step that ends the registration `l` of `x`, with the events before
the removal. -/
theorem Inv.close {x : A} {l : Nat} {reason : Reason} {events : List (Event A)} (hl : Live t x l) (hheap : Heap t')
    (hset : t'.set = Function.update t.set x none) (hevents : t'.events = .onRemove reason x l (t.set x) :: events)
    (hfill : events = t.events ∨ events = .fill l :: t.events ∧ isFull t' l = true)
    (hlength : t'.finalStates.length = t.finalStates.length) (hof : ∀ h y m, Of t' h y m ↔ Of t h y m)
    (hfull : ∀ m, isFull t m = true → isFull t' m = true) (hlive : ∀ y m, Live t' y m ↔ Live t y m ∧ m ≠ l) :
    Inv t' := by
  have hadded : Event.onAdd x l ∈ t.events := by
    obtain ⟨-, h, hlast, -⟩ := hl
    exact ht.added h x l hlast.1
  have hlt : l < t.finalStates.length := ht.adds l _ hadded rfl
  have hmem : ∀ e, e ∈ t'.events → e = .onRemove reason x l (t.set x) ∨ e = .fill l ∧ isFull t' l = true ∨ e ∈ t.events := by
    intro e he
    rw [hevents] at he
    rcases List.mem_cons.1 he with rfl | he
    · exact Or.inl rfl
    · rcases hfill with rfl | ⟨rfl, hf⟩
      · exact Or.inr (Or.inr he)
      · rcases List.mem_cons.1 he with rfl | he
        · exact Or.inr (Or.inl ⟨rfl, hf⟩)
        · exact Or.inr (Or.inr he)
  have hsub : ∀ e, e ∈ t.events → e ∈ t'.events := by
    intro e he
    rw [hevents]
    rcases hfill with rfl | ⟨rfl, -⟩
    · exact List.mem_cons_of_mem _ he
    · exact List.mem_cons_of_mem _ (List.mem_cons_of_mem _ he)
  have hnone : t.events.countP (fun e => e.removes = some l) = 0 := by
    rw [List.countP_eq_zero]
    intro e he hr
    exact (ht.removes l e he (of_decide_eq_true hr)).2 x hl
  have hempty : t.events.countP (fun e => e.fills = some l) = 0 := by
    rw [List.countP_eq_zero]
    intro e he hr
    exact absurd (hl.1.symm.trans (ht.fills l e he (of_decide_eq_true hr))) (by decide)
  refine {
    heap := hheap
    registered := ?_
    adds := ?_
    addedOnce := ?_
    added := fun h y m ho => hsub _ (ht.added h y m ((hof h y m).1 ho))
    made := ?_
    removes := ?_
    removedOnce := ?_
    fills := ?_
    filledOnce := ?_
    ownEntry := ?_
    entry := ?_ }
  · intro reason' y m entry he
    rcases hmem _ he with heq | ⟨heq, -⟩ | he
    · cases heq
      exact hsub _ hadded
    · cases heq
    · exact hsub _ (ht.registered reason' y m entry he)
  · intro m e he hm
    rw [hlength]
    rcases hmem e he with rfl | ⟨rfl, -⟩ | he
    · cases hm
    · cases hm
    · exact ht.adds m e he hm
  · intro m
    rw [hevents, List.countP_cons_of_neg (by simp [Event.adds])]
    rcases hfill with rfl | ⟨rfl, -⟩
    · exact ht.addedOnce m
    · rw [List.countP_cons_of_neg (by simp [Event.adds])]
      exact ht.addedOnce m
  · intro y m he
    rcases hmem _ he with heq | ⟨heq, -⟩ | he
    · cases heq
    · cases heq
    · obtain ⟨h, hh⟩ := ht.made y m he
      exact ⟨h, (hof h y m).2 hh⟩
  · intro m e he hm
    rw [hlength]
    rcases hmem e he with rfl | ⟨rfl, -⟩ | he
    · cases hm
      exact ⟨hlt, fun y hy => ((hlive y l).1 hy).2 rfl⟩
    · cases hm
    · obtain ⟨hm, hno⟩ := ht.removes m e he hm
      exact ⟨hm, fun y hy => hno y ((hlive y m).1 hy).1⟩
  · intro m
    have hrest : events.countP (fun e => e.removes = some m) = t.events.countP (fun e => e.removes = some m) := by
      rcases hfill with rfl | ⟨rfl, -⟩
      · rfl
      · exact List.countP_cons_of_neg (by simp [Event.removes])
    rw [hevents, List.countP_cons, hrest]
    by_cases hm : m = l
    · subst hm
      rw [hnone]
      split <;> omega
    · rw [if_neg (by simp [Event.removes, Ne.symm hm])]
      exact ht.removedOnce m
  · intro m e he hm
    rcases hmem e he with rfl | ⟨rfl, hf⟩ | he
    · cases hm
    · cases hm
      exact hf
    · exact hfull m (ht.fills m e he hm)
  · intro m
    rw [hevents, List.countP_cons_of_neg (by simp [Event.fills])]
    rcases hfill with rfl | ⟨rfl, -⟩
    · exact ht.filledOnce m
    · rw [List.countP_cons]
      by_cases hm : m = l
      · subst hm
        rw [hempty]
        split <;> omega
      · rw [if_neg (by simp [Event.fills, Ne.symm hm])]
        exact ht.filledOnce m
  · intro reason' y m entry he
    rcases hmem _ he with heq | ⟨heq, -⟩ | he
    · cases heq
      exact (ht.entry x l).2 hl
    · cases heq
    · exact ht.ownEntry reason' y m entry he
  · intro y m
    rw [hset, hlive]
    by_cases hy : y = x
    · subst hy
      rw [Function.update_self]
      exact ⟨fun h => (by cases h), fun ⟨hm, hne⟩ => absurd (ht.live_unique hm hl) hne⟩
    · rw [Function.update_of_ne hy, ht.entry]
      exact ⟨fun hm => ⟨hm, fun heq => hy (ht.live_owner hm (heq ▸ hl))⟩, And.left⟩

end Steps

/-! ## One step -/

section Append

variable {t u : T A B} {c : Cached A B} {x : A} {l : Nat} (heq : u.handles = t.handles ++ [c])
  (hreg : c.registration = some (x, l))
include heq hreg

omit [DecidableEq A] in
theorem of_append_ne {h : Nat} {y : A} {m : Nat} (hm : m ≠ l) : Of u h y m ↔ Of t h y m := by
  rw [of_append heq, hreg]
  refine or_iff_left fun hnew => hm ?_
  cases hnew.2
  rfl

omit [DecidableEq A] in
theorem last_append_ne {h : Nat} {y : A} {m : Nat} (hm : m ≠ l) : Last u h y m ↔ Last t h y m := by
  unfold Last
  simp only [of_append_ne heq hreg hm]

omit [DecidableEq A] in
/-- The new `Cached.t` is the last of its registration. -/
theorem last_append {h : Nat} {y : A} : Last u h y l ↔ h = t.handles.length ∧ y = x := by
  have hnew : Of u t.handles.length x l := (of_append heq).2 (Or.inr ⟨rfl, hreg⟩)
  have hle : ∀ k z, Of u k z l → k ≤ t.handles.length := by
    intro k z hk
    have hlt := of_lt hk
    rw [heq, List.length_append, List.length_singleton] at hlt
    omega
  constructor
  · intro hlast
    have hh : h = t.handles.length := Nat.le_antisymm (hle h y hlast.1) (hlast.2 _ x hnew)
    rcases (of_append heq).1 hlast.1 with hof | ⟨-, hof⟩
    · exact absurd (of_lt hof) (by omega)
    · rw [hreg] at hof
      cases hof
      exact ⟨hh, rfl⟩
  · intro hand
    obtain ⟨rfl, rfl⟩ := hand
    exact ⟨hnew, hle⟩

omit [DecidableEq A] in
theorem Heap.append (ht : Heap t) (hl : l < u.finalStates.length)
    (hlength : t.finalStates.length ≤ u.finalStates.length) (howner : ∀ k y, Of t k y l → y = x)
    (hbefore : ∀ (k : Nat) (d : Cached A B) y, t.handles[k]? = some d → d.registration = some (y, l) → d.transformed = true)
    (hcollected : u.collected = t.collected) : Heap u where
  bound h y m hof := by
    by_cases hm : m = l
    · exact hm ▸ hl
    · exact Nat.lt_of_lt_of_le (ht.bound h y m ((of_append_ne heq hreg hm).1 hof)) hlength
  owner h k y z m hh hk := by
    by_cases hm : m = l
    · subst hm
      have hx : ∀ j w, Of u j w m → w = x := by
        intro j w hj
        rcases (of_append heq).1 hj with hj | ⟨-, hj⟩
        · exact howner j w hj
        · rw [hreg] at hj
          cases hj
          rfl
      exact (hx h y hh).trans (hx k z hk).symm
    · exact ht.owner h k y z m ((of_append_ne heq hreg hm).1 hh) ((of_append_ne heq hreg hm).1 hk)
  last h d y m hd hdreg hflag := by
    rw [heq, List.getElem?_append] at hd
    split at hd
    next =>
      have hm : m ≠ l := by
        intro hm
        rw [hbefore h d y hd (hm ▸ hdreg)] at hflag
        cases hflag
      exact (last_append_ne heq hreg hm).2 (ht.last h d y m hd hdreg hflag)
    next hlt =>
      obtain ⟨hpos, hd⟩ := List.getElem?_eq_some_iff.1 hd
      rw [List.length_singleton] at hpos
      rw [List.getElem_singleton] at hd
      rw [← hd, hreg] at hdreg
      cases hdreg
      exact (last_append heq hreg).2 ⟨by omega, rfl⟩
  collected h hmem := by
    rw [heq, List.length_append]
    exact Nat.lt_add_right _ (ht.collected h (hcollected ▸ hmem))

end Append

omit [DecidableEq A] in
theorem isFull_append {t : T A B} {l : Nat} :
    isFull { t with finalStates := t.finalStates ++ [none] } l = isFull t l := by
  unfold isFull
  rw [List.getElem?_append]
  split
  next => rfl
  next hlt =>
    rw [List.getElem?_eq_none (Nat.not_lt.1 hlt)]
    cases l - t.finalStates.length <;> rfl

omit [DecidableEq A] in
theorem isFull_set {t : T A B} {l m : Nat} {value : FinalState A} (hl : l < t.finalStates.length) :
    isFull { t with finalStates := t.finalStates.set l (some value) } m = (isFull t m || decide (m = l)) := by
  unfold isFull
  by_cases hm : m = l
  · subst hm
    rw [List.getElem?_set_self hl]
    simp
  · rw [List.getElem?_set_ne (Ne.symm hm)]
    simp [hm]

section Operations

variable {t : T A B}

/-- The state after `register_exn`. -/
def afterRegister (t : T A B) (x : A) : T A B :=
  { t with
    set := Function.update t.set x (some t.finalStates.length)
    finalStates := t.finalStates ++ [none]
    handles := t.handles ++ [.base x false t.finalStates.length]
    events := .onAdd x t.finalStates.length :: t.events }

theorem registerExn_ok {t' : T A B} {x : A} {h : Nat} :
    CacheLib.registerExn t x = .ok (h, t') ↔ t.set x = none ∧ h = t.handles.length ∧ t' = afterRegister t x := by
  unfold CacheLib.registerExn
  cases hx : t.set x with
  | some l => simp
  | none => simp [afterRegister, eq_comm]

theorem Inv.live_afterRegister (ht : Inv t) {x y : A} {m : Nat} :
    Live (afterRegister t x) y m ↔ Live t y m ∨ y = x ∧ m = t.finalStates.length := by
  have hempty : isFull t t.finalStates.length = false := by
    rw [isFull, List.getElem?_eq_none le_rfl]
    rfl
  unfold Live
  rw [show isFull (afterRegister t x) m = isFull t m from isFull_append]
  by_cases hm : m = t.finalStates.length
  · subst hm
    simp only [last_append (u := afterRegister t x) rfl rfl]
    constructor
    · intro ⟨_, h, ⟨_, hy⟩, _⟩
      exact Or.inr ⟨hy, trivial⟩
    · intro hor
      rcases hor with ⟨-, k, hk, -⟩ | ⟨rfl, -⟩
      · exact absurd (ht.heap.bound _ _ _ hk.1) (Nat.lt_irrefl _)
      · exact ⟨hempty, _, ⟨rfl, rfl⟩, fun hmem => Nat.lt_irrefl _ (ht.heap.collected _ hmem)⟩
  · simp only [last_append_ne (u := afterRegister t x) rfl rfl hm, hm, and_false, or_false]
    rfl

theorem Inv.afterRegister (ht : Inv t) {x : A} (hnone : t.set x = none) : Inv (afterRegister t x) := by
  have hbound : ∀ {k y}, ¬ Of t k y t.finalStates.length := fun hk =>
    Nat.lt_irrefl _ (ht.heap.bound _ _ _ hk)
  have hlength : (CacheLib.afterRegister t x).finalStates.length = t.finalStates.length + 1 := List.length_append
  refine {
    heap := ?_
    registered := ?_
    adds := ?_
    addedOnce := ?_
    added := ?_
    made := ?_
    removes := ?_
    removedOnce := fun m => ?_
    fills := ?_
    filledOnce := fun m => ?_
    ownEntry := ?_
    entry := ?_ }
  · exact ht.heap.append rfl rfl (by omega) (by omega) (fun k y hk => absurd hk hbound)
      (fun k d y hd hreg => absurd ⟨d, hd, hreg⟩ hbound) rfl
  · intro reason y m entry he
    rcases List.mem_cons.1 he with heq | he
    · cases heq
    · exact List.mem_cons_of_mem _ (ht.registered reason y m entry he)
  · intro m e he hm
    rw [hlength]
    rcases List.mem_cons.1 he with rfl | he
    · cases hm
      exact Nat.lt_succ_self _
    · exact Nat.lt_succ_of_lt (ht.adds m e he hm)
  · intro m
    simp only [CacheLib.afterRegister]
    rw [List.countP_cons]
    by_cases hm : m = t.finalStates.length
    · subst hm
      have hnot : t.events.countP (fun e => e.adds = some t.finalStates.length) = 0 := by
        rw [List.countP_eq_zero]
        intro e he hadd
        exact Nat.lt_irrefl _ (ht.adds _ e he (of_decide_eq_true hadd))
      rw [hnot]
      split <;> omega
    · rw [if_neg (by simp [Event.adds, Ne.symm hm])]
      exact ht.addedOnce m
  · intro k y m hk
    rcases (of_append rfl).1 hk with hk | ⟨-, heq⟩
    · exact List.mem_cons_of_mem _ (ht.added k y m hk)
    · cases heq
      exact List.mem_cons_self
  · intro y m he
    rcases List.mem_cons.1 he with heq | he
    · cases heq
      exact ⟨t.handles.length, (of_append rfl).2 (Or.inr ⟨rfl, rfl⟩)⟩
    · obtain ⟨h, hh⟩ := ht.made y m he
      exact ⟨h, (of_append rfl).2 (Or.inl hh)⟩
  · intro m e he hm
    rw [hlength]
    rcases List.mem_cons.1 he with rfl | he
    · cases hm
    · obtain ⟨hlt, hno⟩ := ht.removes m e he hm
      refine ⟨Nat.lt_succ_of_lt hlt, fun y hy => ?_⟩
      rcases ht.live_afterRegister.1 hy with hy | ⟨-, rfl⟩
      · exact hno y hy
      · exact Nat.lt_irrefl _ hlt
  · simp only [CacheLib.afterRegister]
    rw [List.countP_cons_of_neg (by simp [Event.removes])]
    exact ht.removedOnce m
  · intro m e he hm
    rw [show isFull (CacheLib.afterRegister t x) m = isFull t m from isFull_append]
    rcases List.mem_cons.1 he with rfl | he
    · cases hm
    · exact ht.fills m e he hm
  · simp only [CacheLib.afterRegister]
    rw [List.countP_cons_of_neg (by simp [Event.fills])]
    exact ht.filledOnce m
  · intro reason y m entry he
    rcases List.mem_cons.1 he with heq | he
    · cases heq
    · exact ht.ownEntry reason y m entry he
  · intro y m
    rw [ht.live_afterRegister]
    simp only [CacheLib.afterRegister]
    by_cases hy : y = x
    · subst hy
      have hno : ¬ Live t y m := fun h => by
        rw [← ht.entry, hnone] at h
        cases h
      rw [Function.update_self]
      simp [hno, eq_comm]
    · rw [Function.update_of_ne hy, ht.entry]
      simp [hy]

omit [DecidableEq A] in
/-- Marking a `Cached.t` as transformed changes no registration. -/
theorem Inv.marked (ht : Inv t) {h : Nat} {c c' : Cached A B} (hc : t.handles[h]? = some c)
    (hreg : c'.registration = c.registration) (hflag : c'.transformed = true) :
    Inv { t with handles := t.handles.set h c' } := by
  have hof : ∀ k y m, Of { t with handles := t.handles.set h c' } k y m ↔ Of t k y m := fun k y m =>
    of_set hc rfl hreg
  refine ht.neutral ⟨?_, ?_, ?_, ?_⟩ rfl rfl rfl (fun y m => by simp only [hof])
    (fun y m => live_congr hof rfl fun k _ => Iff.rfl)
  · exact fun k y m hk => ht.heap.bound k y m ((hof k y m).1 hk)
  · exact fun k j y z m hk hj => ht.heap.owner k j y z m ((hof k y m).1 hk) ((hof j z m).1 hj)
  · intro k d y m hd hdreg hdflag
    rw [last_congr hof]
    by_cases hk : h = k
    · subst hk
      rw [List.getElem?_set_self (List.getElem?_eq_some_iff.1 hc).1] at hd
      cases hd
      rw [hflag] at hdflag
      cases hdflag
    · rw [List.getElem?_set_ne hk] at hd
      exact ht.heap.last k d y m hd hdreg hdflag
  · intro k hk
    rw [List.length_set]
    exact ht.heap.collected k hk

omit [DecidableEq A] in
/-- The registration of the last `Cached.t` goes on with the next one. -/
theorem Inv.next (ht : Inv t) {h : Nat} {x : A} {l : Nat} {c : Cached A B} {mutant : B}
    (hc : t.handles[h]? = some c) (hflag : c.transformed = true) (hlast : Last t h x l)
    (hfull : isFull t l = false) (hno : h ∉ t.collected) :
    Inv { t with handles := t.handles ++ [.derivative x mutant false l] } := by
  set t' : T A B := { t with handles := t.handles ++ [.derivative x mutant false l] } with ht'
  have howner : ∀ k y, Of t k y l → y = x := fun k y hk => ht.heap.owner k h y x l hk hlast.1
  refine ht.neutral ?_ rfl rfl rfl ?_ ?_
  · refine ht.heap.append rfl rfl (ht.heap.bound h x l hlast.1) le_rfl howner ?_ rfl
    intro k d y hd hreg
    by_contra hflag'
    have hk := ht.heap.last k d y l hd hreg (by simpa using hflag')
    rw [hlast.unique hk, hd] at hc
    cases hc
    exact hflag' hflag
  · intro y m
    constructor
    · intro ⟨k, hk⟩
      rcases (of_append rfl).1 hk with hk | ⟨-, heq⟩
      · exact ⟨k, hk⟩
      · cases heq
        exact ⟨h, hlast.1⟩
    · intro ⟨k, hk⟩
      exact ⟨k, (of_append rfl).2 (Or.inl hk)⟩
  · intro y m
    unfold Live
    rw [show isFull t' m = isFull t m from rfl]
    by_cases hm : m = l
    · subst hm
      simp only [last_append (u := t') rfl rfl]
      constructor
      · intro ⟨_, k, ⟨_, hy⟩, _⟩
        exact ⟨hfull, h, hy ▸ hlast, hno⟩
      · intro ⟨_, k, hk, _⟩
        exact ⟨hfull, _, ⟨rfl, howner k y hk.1⟩, fun hmem => Nat.lt_irrefl _ (ht.heap.collected _ hmem)⟩
    · simp only [last_append_ne (u := t') rfl rfl hm]
      rfl

omit [DecidableEq A] in
theorem Inv.transform (ht : Inv t) {t' : T A B} {h k : Nat} {f : A ⊕ B → B} (hok : transform t h f = .ok (k, t'))
    (hno : h ∉ t.collected) : Inv t' := by
  obtain ⟨-, c, t₁, x, l, hmarked, hreg, rfl⟩ := transform_ok hok
  obtain ⟨hc, hflag, x', l', c', hreg', hfull, hregc, hflagc, rfl⟩ := transformed_ok hmarked
  obtain ⟨rfl, rfl⟩ : x = x' ∧ l = l' := Prod.mk.inj (Option.some.inj (hreg.symm.trans hreg'))
  have hmark : c'.registration = c.registration := hregc.trans hreg.symm
  have hof : ∀ k y m, Of { t with handles := t.handles.set h c' } k y m ↔ Of t k y m := fun k y m =>
    of_set hc rfl hmark
  have hset : (t.handles.set h c')[h]? = some c' := List.getElem?_set_self (List.getElem?_eq_some_iff.1 hc).1
  exact (ht.marked hc hmark hflagc).next hset hflagc ((last_congr hof).2 (ht.heap.last h c x l hc hreg hflag)) hfull hno

/-- Invalidating a `Cached.t` of a live registration ends it. -/
theorem Inv.finalised (ht : Inv t) {h k : Nat} {x : A} {l : Nat} (hof : Of t h x l) (hfull : isFull t l = false)
    (hlast : Last t k x l) (hno : k ∉ t.collected) (value : FinalState A) (reason : Reason) :
    Inv (finalised t value reason x l) := by
  have hset : ∀ m, isFull (CacheLib.finalised t value reason x l) m = (isFull t m || decide (m = l)) := fun m =>
    isFull_set (ht.heap.bound h x l hof)
  have hlength : (CacheLib.finalised t value reason x l).finalStates.length = t.finalStates.length := List.length_set
  refine ht.close ⟨hfull, k, hlast, hno⟩ ⟨?_, ht.heap.owner, ht.heap.last, ht.heap.collected⟩ rfl rfl
    (Or.inr ⟨rfl, ?_⟩) hlength (fun _ _ _ => Iff.rfl) ?_ ?_
  · intro j y m hj
    rw [hlength]
    exact ht.heap.bound j y m hj
  · rw [hset]
    simp
  · intro m hm
    rw [hset, hm]
    rfl
  · intro y m
    unfold Live
    rw [hset]
    by_cases hm : m = l
    · simp [hm]
    · simp only [hm, decide_false, Bool.or_false, ne_eq, not_false_eq_true, and_true]
      rfl

theorem Inv.finalizer (ht : Inv t) {h : Nat} (hno : h ∉ t.collected)
    (hkeeps : ∀ x l c, t.handles[h]? = some c → Last t h x l → isFull t l = false → c.transformed = false) :
    Inv (finalizer t h) := by
  by_cases hof : ∃ x l, Of t h x l
  · obtain ⟨x, l, c, hc, hreg⟩ := hof
    have hheap : Heap { t with collected := h :: t.collected } := by
      refine ⟨ht.heap.bound, ht.heap.owner, ht.heap.last, ?_⟩
      intro k hk
      rcases List.mem_cons.1 hk with rfl | hk
      · exact of_lt ⟨c, hc, hreg⟩
      · exact ht.heap.collected k hk
    have hother : ∀ k y m, m ≠ l → Last t k y m → (k ∈ h :: t.collected ↔ k ∈ t.collected) := by
      intro k y m hm hk
      refine List.mem_cons.trans (or_iff_right fun heq => hm ?_)
      obtain ⟨d, hd, hdreg⟩ := hk.1
      rw [heq, hc] at hd
      cases hd
      exact (Prod.mk.inj (Option.some.inj (hdreg.symm.trans hreg))).2
    rw [finalizer_of hc hreg]
    split
    next hconsumed =>
      refine ht.neutral hheap rfl rfl rfl (fun y m => Iff.rfl) fun y m => ?_
      by_cases hm : m = l
      · subst hm
        -- the registration is over, or this is not its last one
        unfold Live
        constructor
        · intro ⟨hf, k, hk, hkno⟩
          exact ⟨hf, k, hk, fun hmem => hkno (List.mem_cons_of_mem _ hmem)⟩
        · intro ⟨hf, k, hk, hkno⟩
          refine ⟨hf, k, hk, fun hmem => ?_⟩
          rcases List.mem_cons.1 hmem with rfl | hmem
          · rw [hf, hkeeps y m c hc hk hf] at hconsumed
            cases hconsumed
          · exact hkno hmem
      · refine live_congr ?_ rfl ?_
        · exact fun _ _ _ => Iff.rfl
        · exact fun k hk => hother k y m hm hk
    next hconsumed =>
      rw [Bool.or_eq_true, not_or, Bool.not_eq_true, Bool.not_eq_true] at hconsumed
      have hlast := ht.heap.last h c x l hc hreg hconsumed.2
      refine ht.close ⟨hconsumed.1, h, hlast, hno⟩ ⟨hheap.1, hheap.2, hheap.3, hheap.4⟩ rfl rfl (Or.inl rfl) rfl (fun _ _ _ => Iff.rfl)
        (fun _ hm => hm) fun y m => ?_
      by_cases hm : m = l
      · subst hm
        refine ⟨fun ⟨_, k, hk, hkno⟩ => absurd ?_ hkno, fun hand => absurd rfl hand.2⟩
        have hkh : k = h := Last.unique hk hlast
        rw [hkh]
        exact List.mem_cons_self
      · rw [and_iff_left hm]
        refine live_congr ?_ rfl ?_
        · exact fun _ _ _ => Iff.rfl
        · exact fun k hk => hother k y m hm hk
  · rw [finalizer_none fun x l h => hof ⟨x, l, h⟩]
    exact ht

omit [DecidableEq A] in
theorem settled_cases {α : Type} {P : T A B → Prop} {r : Exn (α × T A B)} (ht : P t)
    (hok : ∀ a t', r = .ok (a, t') → P t') : P (settled t r) := by
  cases r with
  | error e => exact ht
  | ok r => exact hok r.1 r.2 rfl

omit [DecidableEq A] in
/-- Every registration has a last `Cached.t`. -/
theorem Heap.exists_last (ht : Heap t) {x : A} {l : Nat} : ∀ {h : Nat}, Of t h x l → ∃ k, Last t k x l := by
  have hrec : ∀ n h, t.handles.length - h ≤ n → Of t h x l → ∃ k, Last t k x l := by
    intro n
    induction n with
    | zero =>
      intro h hle hof
      have := of_lt hof
      omega
    | succ n ih =>
      intro h hle hof
      by_cases hlast : ∀ k y, Of t k y l → k ≤ h
      · exact ⟨h, hof, hlast⟩
      · simp only [not_forall] at hlast
        obtain ⟨k, y, hk, hgt⟩ := hlast
        obtain rfl := ht.owner h k x y l hof hk
        exact ih k (by omega) hk
  exact fun {h} hof => hrec _ h le_rfl hof

theorem Inv.invalidate (ht : Inv t) {h : Nat} {value : A → FinalState A} {reason : Reason} {v : A ⊕ B} {t' : T A B}
    (hok : invalidate (mark value) reason t h = .ok (v, t'))
    (hkeeps : ∀ x l k, Of t h x l → isFull t l = false → Last t k x l → k ∉ t.collected) : Inv t' := by
  obtain ⟨x, l, hof, hfull, rfl⟩ := invalidate_ok hok
  obtain ⟨k, hk⟩ := ht.heap.exists_last hof
  exact ht.finalised hof hfull hk (hkeeps x l k hof hfull hk) (value x) reason

/-- What the invariant says is kept by every step that the program may
take. -/
theorem Inv.step (ht : Inv t) {op : Op A B E} (hallowed : Allowed t op) (hkeeps : Keeps t op) :
    Inv (step t op) := by
  cases op with
  | registerExn x =>
    refine settled_cases ht fun h t' hok => ?_
    obtain ⟨hnone, -, rfl⟩ := registerExn_ok.1 hok
    exact ht.afterRegister hnone
  | transform h f => exact settled_cases ht fun k t' hok => ht.transform hok (hallowed h rfl)
  | transformRaised h =>
    refine settled_cases ht fun c t' hok => ?_
    obtain ⟨hc, -, x, l, c', hreg, -, hreg', hflag, rfl⟩ := transformed_ok hok
    exact ht.marked hc (hreg'.trans hreg.symm) hflag
  | sequenceResult h result =>
    refine settled_cases ht fun r t' hok => ?_
    obtain ⟨value, hpeek, hcase⟩ := sequenceResult_ok hok
    rcases hcase with ⟨x, k, -, hok, -⟩ | ⟨e, v, he, hok, -⟩
    · exact ht.transform hok (hallowed h rfl)
    · have hinvalidates : (Op.sequenceResult h result).invalidates t = some h := by
        simp only [Op.invalidates, hpeek, he]
        rfl
      exact ht.invalidate hok fun x l k => hkeeps.invalidates h x l k hinvalidates
  | invalidateWithSuccess h =>
    exact settled_cases ht fun v t' hok => ht.invalidate hok fun x l k => hkeeps.invalidates h x l k rfl
  | invalidateWithFailure h =>
    exact settled_cases ht fun v t' hok => ht.invalidate hok fun x l k => hkeeps.invalidates h x l k rfl
  | finalizer h => exact ht.finalizer (hallowed h rfl) fun x l c => hkeeps.finalizer h x l c rfl

theorem Inv.run {t' : T A B} (h : Run (E := E) Keeps t t') (ht : Inv t) : Inv t' := by
  induction h with
  | refl => exact ht
  | tail _ hstep ih =>
    obtain ⟨op, hallowed, hkeeps, rfl⟩ := hstep
    exact ih.step hallowed hkeeps

theorem Inv.right {t : T A B} (ht : Inv t) : Right t where
  last x l h := by
    obtain ⟨k, hk⟩ := ht.made x l h
    exact ht.heap.exists_last hk
  registered := ht.registered
  addedOnce := ht.addedOnce
  removedOnce := ht.removedOnce
  filledOnce := ht.filledOnce
  ownEntry := ht.ownEntry
  entry := ht.entry
  registerExn x := by
    simp only [← ht.entry, CacheLib.registerExn]
    cases hx : t.set x with
    | none => simp [Except.isOk, Except.toBool]
    | some l => simp [Except.isOk, Except.toBool]

end Operations

/-! ## Main results -/

/-- **A cache entry belongs to one live registration** in every state of a
run that takes neither of the two steps of `Keeps`. -/
theorem entry_right {elementToString : A → String} {t : T A B}
    (h : Run (E := E) Keeps (create elementToString) t) : Right t :=
  (Inv.run h (inv_create elementToString)).right

section Example

/-- An element is registered, transformed and invalidated; it is registered
again and its `Cached.t` is collected. -/
theorem entry_right_five :
    ∃ t : T Nat Unit, Run (E := Unit) Keeps (create toString) t ∧ t.events.length = 5 ∧ Right t := by
  have hallowed : ∀ (t : T Nat Unit) (op : Op Nat Unit Unit), t.collected = [] → Allowed t op := by
    intro t op hnone h _
    rw [hnone]
    exact List.not_mem_nil
  have hkeeps : ∀ (t : T Nat Unit) (op : Op Nat Unit Unit), t.collected = [] → (∀ h, op ≠ .finalizer h) →
      Keeps t op := by
    intro t op hnone hop
    refine ⟨fun h x l k _ _ _ _ => ?_, fun h _ _ _ heq => absurd heq (hop h)⟩
    rw [hnone]
    exact List.not_mem_nil
  let t₀ : T Nat Unit := create toString
  let t₁ := step (E := Unit) t₀ (.registerExn 7)
  let t₂ := step (E := Unit) t₁ (.transform 0 fun _ => ())
  let t₃ := step (E := Unit) t₂ (.invalidateWithSuccess 1)
  let t₄ := step (E := Unit) t₃ (.registerExn 7)
  let t₅ := step (E := Unit) t₄ (.finalizer 2)
  have hlast : Keeps (E := Unit) t₄ (.finalizer 2) := by
    refine ⟨fun h x l k hop => (by cases hop), fun h x l c hop hc _ _ => ?_⟩
    cases hop
    cases hc
    rfl
  have hrun : Run (E := Unit) Keeps t₀ t₅ := by
    refine .tail (.tail (.tail (.tail (.tail .refl
      ⟨.registerExn 7, hallowed _ _ rfl, hkeeps _ _ rfl ?_, rfl⟩)
      ⟨.transform 0 fun _ => (), hallowed _ _ rfl, hkeeps _ _ rfl ?_, rfl⟩)
      ⟨.invalidateWithSuccess 1, hallowed _ _ rfl, hkeeps _ _ rfl ?_, rfl⟩)
      ⟨.registerExn 7, hallowed _ _ rfl, hkeeps _ _ rfl ?_, rfl⟩)
      ⟨.finalizer 2, hallowed _ _ rfl, hlast, rfl⟩ <;>
    · intro h heq
      cases heq
  exact ⟨t₅, hrun, by decide, entry_right hrun⟩

/-- **The last `Cached.t` of a registration is collected, the element is
registered again, and an earlier `Cached.t` of the first registration is
invalidated.** -/
theorem remove_twice : ¬ ∀ t : T Nat Unit, Run (E := Unit) (fun _ _ => True) (create toString) t → Right t := by
  intro h
  have hallowed : ∀ (t : T Nat Unit) (op : Op Nat Unit Unit) (k : Nat), op.handle = some k → k ∉ t.collected →
      Allowed t op := by
    intro t op k hop hno j hj
    cases hop.symm.trans hj
    exact hno
  let t₀ : T Nat Unit := create toString
  let t₁ := step (E := Unit) t₀ (.registerExn 7)
  let t₂ := step (E := Unit) t₁ (.transform 0 fun _ => ())
  let t₃ := step (E := Unit) t₂ (.finalizer 1)
  let t₄ := step (E := Unit) t₃ (.registerExn 7)
  let t₅ := step (E := Unit) t₄ (.invalidateWithFailure 0)
  have hrun : Run (E := Unit) (fun _ _ => True) t₀ t₅ := by
    refine .tail (.tail (.tail (.tail (.tail .refl ⟨.registerExn 7, ?_, trivial, rfl⟩)
      ⟨.transform 0 fun _ => (), hallowed _ _ 0 rfl (by decide), trivial, rfl⟩)
      ⟨.finalizer 1, hallowed _ _ 1 rfl (by decide), trivial, rfl⟩) ⟨.registerExn 7, ?_, trivial, rfl⟩)
      ⟨.invalidateWithFailure 0, hallowed _ _ 0 rfl (by decide), trivial, rfl⟩
    · intro k hk
      cases hk
    · intro k hk
      cases hk
  exact absurd ((h t₅ hrun).removedOnce 0) (by decide)

end Example

end Mina.CacheLib
