/-
The verifiers of the two pools judge each item on its own, and what follows
for whole runs of their batchers.

A call for diffs is followed slot by slot: a slot is what is known of a
command before the call and the command, if it is to be verified. The fold
over the verifier's answers acts on each diff by itself (`foldl_unknowns`)
and in a diff on each slot by itself (`foldl_slots`).
-/
import Mina.NetworkPool.BatcherPools

namespace Mina.Batcher

theorem isOk_ite {ρ : Type} {b : Bool} {r : ρ} :
    (if b = true then .ok r else .error () : Answer ρ).isOk = true ↔ b = true := by
  cases b <;> simp [Except.isOk, Except.toBool]

namespace TransactionPool

variable {κ ν φ σ : Type}

/-! ## The judge -/

section

variable (W : Verifier κ ν φ) (valid : φ → Bool)

/-- A command passes its check, and its proofs are valid. -/
def CommandOk : Check ν φ → Prop
  | .valid _ => True
  | .invalid => False
  | .validAssuming _ xs => ∀ p ∈ xs, valid p = true

def isInvalid : Check ν φ → Bool
  | .invalid => true
  | _ => false

def isAssuming : Check ν φ → Bool
  | .validAssuming _ _ => true
  | _ => false

def validCommand : Check ν φ → Option ν
  | .valid c => some c
  | .invalid => none
  | .validAssuming c _ => some c

/-- What is kept of a command whose proofs are not known to be valid. -/
def hintOf (c : κ) : Option (PartialItem κ ν φ) :=
  match W.check c with
  | .valid v => some (.valid v)
  | .invalid => none
  | .validAssuming _ xs => some (.validAssuming c xs)

def diffProofs (d : Diff σ κ) : List φ := d.data.flatMap fun c => toVerify (W.check c)

/-- A diff with an invalid command is invalid, one whose commands are valid
is valid, and for the others it is up to their proofs. -/
def judge : Judge (Diff σ κ) (List (PartialItem κ ν φ)) (List ν) where
  decided d :=
    if d.data.any fun c => isInvalid (W.check c) then some (.error ())
    else if d.data.any fun c => isAssuming (W.check c) then none
    else some (.ok (d.data.filterMap fun c => validCommand (W.check c)))
  ok d := (diffProofs W d).all valid
  result d := d.data.filterMap fun c => validCommand (W.check c)
  hint d := d.data.filterMap (hintOf W)

end

/-! ## One call -/

section

variable {W : Verifier κ ν φ}

/-- What is known of the commands of a diff before a call, and the commands
to be verified. -/
def slots : DiffInput σ κ ν φ → List (ItemStatus κ ν φ × Option κ)
  | .init d => d.data.map fun c => (.unknown, some c)
  | .partiallyValidated items => items.map fun
    | .valid c => (.valid c, none)
    | .validAssuming v xs => (.validAssuming v xs, some v)

/-- The places of the commands to be verified. -/
def todo (l : List (ItemStatus κ ν φ × Option κ)) (k : Nat) : List (Nat × κ) :=
  (l.zipIdx k).filterMap fun p => p.1.2.map fun c => (p.2, c)

theorem initResult_eq (ds : List (DiffInput σ κ ν φ)) :
    initResult ds = ds.map fun x => .inProgress ((slots x).map (·.1)) := by
  refine List.map_congr_left fun x _ => ?_
  cases x with
  | init d =>
    simp only [slots, List.map_map, Progress.inProgress.injEq]
    rfl
  | partiallyValidated items =>
    simp only [slots, List.map_map, Progress.inProgress.injEq]
    refine List.map_congr_left fun p _ => ?_
    cases p <;> rfl

theorem todo_cons (p : ItemStatus κ ν φ × Option κ) (l : List (ItemStatus κ ν φ × Option κ)) (k : Nat) :
    todo (p :: l) k = (p.2.map fun c => (k, c)).toList ++ todo l (k + 1) := by
  rw [todo, List.zipIdx_cons, List.filterMap_cons]
  cases p.2 <;> rfl

theorem unknowns_eq (ds : List (DiffInput σ κ ν φ)) :
    unknowns ds = ds.zipIdx.flatMap fun p => (todo (slots p.1) 0).map fun u => ((p.2, u.1), u.2) := by
  refine List.flatMap_congr fun p _ => ?_
  obtain ⟨x, i⟩ := p
  have hinit : ∀ (cs : List κ) (k : Nat), (cs.zipIdx k).map (fun p => ((i, p.2), p.1)) =
      (todo (cs.map fun c => ((.unknown : ItemStatus κ ν φ), some c)) k).map fun u => ((i, u.1), u.2) := by
    intro cs
    induction cs with
    | nil => intro k; rfl
    | cons c cs ih =>
      intro k
      rw [List.zipIdx_cons, List.map_cons, List.map_cons, todo_cons, ih]
      rfl
  cases x with
  | init d => exact hinit d.data 0
  | partiallyValidated items =>
    have hitems : ∀ f : PartialItem κ ν φ × Nat → Option ((Nat × Nat) × κ),
        (∀ c j, f (.valid c, j) = none) → (∀ v xs j, f (.validAssuming v xs, j) = some ((i, j), v)) →
        ∀ (items : List (PartialItem κ ν φ)) (k : Nat), (items.zipIdx k).filterMap f =
          (todo (slots (.partiallyValidated items : DiffInput σ κ ν φ)) k).map fun u => ((i, u.1), u.2) := by
      intro f hv ha items
      induction items with
      | nil => intro k; rfl
      | cons p items ih =>
        intro k
        rw [List.zipIdx_cons, List.filterMap_cons, slots, List.map_cons, todo_cons, List.map_append, ← slots, ← ih]
        cases p with
        | valid c => rw [hv]; rfl
        | validAssuming v xs => rw [ha]; rfl
    exact hitems _ (fun c j => rfl) (fun v xs j => rfl) items 0

/-- What becomes of one diff. -/
def progressAfter (W : Verifier κ ν φ) (b : Bool) (l : List (Nat × κ)) (p : Progress κ ν φ) : Progress κ ν φ :=
  l.foldl (fun p u => setProgress u.1 u.2 (commandVerdict b (W.check u.2)) p) p

theorem foldl_modify {β γ : Type} (f : γ → β → β) (i : Nat) (l : List γ) (result : List β) :
    l.foldl (fun result u => result.modify i (f u)) result = result.modify i fun b => l.foldl (fun b u => f u b) b := by
  induction l generalizing result with
  | nil => exact (List.modify_id i result).symm
  | cons u l ih => rw [List.foldl_cons, ih, List.modify_modify_eq]; rfl

theorem modify_append {β : Type} (f : β → β) (pre : List β) (x : β) (l : List β) :
    (pre ++ x :: l).modify pre.length f = pre ++ f x :: l := by
  induction pre with
  | nil => rfl
  | cons y pre ih => exact congrArg (y :: ·) ih

/-- Taking in the answers acts on each diff by itself. -/
theorem foldl_unknowns (b : Bool) (start : DiffInput σ κ ν φ → Progress κ ν φ) (ds : List (DiffInput σ κ ν φ))
    (pre : List (Progress κ ν φ)) :
    ((ds.zipIdx pre.length).flatMap fun p => (todo (slots p.1) 0).map fun u => ((p.2, u.1), u.2)).foldl
        (fun result u => result.modify u.1.1 (setProgress u.1.2 u.2 (commandVerdict b (W.check u.2))))
        (pre ++ ds.map start) =
      pre ++ ds.map fun x => progressAfter W b (todo (slots x) 0) (start x) := by
  induction ds generalizing pre with
  | nil => rfl
  | cons x ds ih =>
    have hlen : pre.length + 1 = (pre ++ [progressAfter W b (todo (slots x) 0) (start x)]).length := by simp
    rw [List.zipIdx_cons, List.flatMap_cons, List.foldl_append, List.foldl_map,
      foldl_modify (fun u : Nat × κ => setProgress u.1 u.2 (commandVerdict b (W.check u.2))), List.map_cons,
      modify_append, hlen]
    have := ih (pre ++ [progressAfter W b (todo (slots x) 0) (start x)])
    rw [List.append_assoc, List.append_assoc] at this
    exact this

/-- What is known of a command that is not invalid after a call. -/
def statusOf (W : Verifier κ ν φ) (b : Bool) (c : κ) : ItemStatus κ ν φ :=
  match W.check c with
  | .valid v => .valid v
  | .invalid => .unknown
  | .validAssuming v xs => if b then .valid v else .validAssuming c xs

/-- A slot after a call. -/
def slotAfter (W : Verifier κ ν φ) (b : Bool) (p : ItemStatus κ ν φ × Option κ) : ItemStatus κ ν φ :=
  match p.2 with
  | none => p.1
  | some c => statusOf W b c

theorem progressAfter_invalid (b : Bool) (l : List (Nat × κ)) :
    progressAfter W b l .invalid = .invalid := by
  induction l with
  | nil => rfl
  | cons u l ih =>
    rw [progressAfter, List.foldl_cons]
    cases commandVerdict b (W.check u.2) <;> exact ih

theorem set_append {β : Type} (pre : List β) (x y : β) (l : List β) :
    (pre ++ x :: l).set pre.length y = pre ++ y :: l := by
  induction pre with
  | nil => rfl
  | cons z pre ih => exact congrArg (z :: ·) ih

/-- Taking in an answer that is not `invalid` sets the slot. -/
theorem setProgress_inProgress {b : Bool} {c : κ} (h : isInvalid (W.check c) = false) (j : Nat)
    (a : List (ItemStatus κ ν φ)) :
    setProgress j c (commandVerdict b (W.check c)) (.inProgress a) = .inProgress (a.set j (statusOf W b c)) := by
  rw [statusOf]
  cases hc : W.check c with
  | valid v => rfl
  | invalid => rw [hc] at h; cases h
  | validAssuming v xs => cases b <;> rfl

/-- Taking in the answers acts on each slot by itself. -/
theorem foldl_slots (b : Bool) (l : List (ItemStatus κ ν φ × Option κ)) (pre : List (ItemStatus κ ν φ))
    (h : ∀ p ∈ l, ∀ c ∈ p.2, isInvalid (W.check c) = false) :
    progressAfter W b (todo l pre.length) (.inProgress (pre ++ l.map (·.1))) =
      .inProgress (pre ++ l.map (slotAfter W b)) := by
  induction l generalizing pre with
  | nil => rfl
  | cons p l ih =>
    obtain ⟨st, c⟩ := p
    have hrec : ∀ st', progressAfter W b (todo l (pre.length + 1)) (.inProgress (pre ++ st' :: l.map (·.1))) =
        .inProgress (pre ++ st' :: l.map (slotAfter W b)) := by
      intro st'
      have := ih (pre ++ [st']) fun p hp => h p (List.mem_cons_of_mem _ hp)
      rwa [List.length_append, List.length_singleton, List.append_assoc, List.append_assoc] at this
    rw [todo_cons]
    cases c with
    | none => exact hrec st
    | some c =>
      have hc := h _ List.mem_cons_self c rfl
      rw [List.map_cons, List.map_cons, progressAfter, Option.map_some, Option.toList_some, List.singleton_append,
        List.foldl_cons, setProgress_inProgress hc, set_append]
      exact hrec _

/-- A diff with an invalid command is invalid. -/
theorem foldl_slots_invalid (b : Bool) (l : List (ItemStatus κ ν φ × Option κ)) (k : Nat) (p : Progress κ ν φ)
    (h : ∃ p ∈ l, ∃ c ∈ p.2, isInvalid (W.check c) = true) :
    progressAfter W b (todo l k) p = .invalid := by
  induction l generalizing k p with
  | nil => simp at h
  | cons q l ih =>
    obtain ⟨st, c⟩ := q
    rw [todo_cons]
    obtain ⟨q', hq', c', hc', hinv⟩ := h
    rcases List.mem_cons.1 hq' with rfl | hmem
    · obtain rfl : c = some c' := hc'
      have hcheck : W.check c' = .invalid := by
        cases hw : W.check c' with
        | invalid => rfl
        | valid v => rw [hw] at hinv; cases hinv
        | validAssuming v xs => rw [hw] at hinv; cases hinv
      rw [progressAfter, Option.map_some, Option.toList_some, List.singleton_append, List.foldl_cons, hcheck]
      exact progressAfter_invalid b _
    · cases c with
      | none => exact ih _ _ ⟨q', hmem, c', hc', hinv⟩
      | some c => exact ih _ _ ⟨q', hmem, c', hc', hinv⟩

/-- The proofs that the verifier checks for a diff. -/
def slotProofs (W : Verifier κ ν φ) (l : List (ItemStatus κ ν φ × Option κ)) : List φ :=
  l.flatMap fun p => (p.2.map fun c => toVerify (W.check c)).getD []

theorem flatMap_todo (l : List (ItemStatus κ ν φ × Option κ)) (k : Nat) :
    (todo l k).flatMap (fun u => toVerify (W.check u.2)) = slotProofs W l := by
  induction l generalizing k with
  | nil => rfl
  | cons p l ih =>
    rw [todo_cons, List.flatMap_append, ih, slotProofs, slotProofs, List.flatMap_cons]
    cases p.2 <;> simp

/-- What a call leaves known of one input. -/
def callProgress (W : Verifier κ ν φ) (b : Bool) (x : DiffInput σ κ ν φ) : Progress κ ν φ :=
  progressAfter W b (todo (slots x) 0) (.inProgress ((slots x).map (·.1)))

/-- One call: the verifier's answers go to the diffs by themselves, and
depend on each other in whether all proofs of the call are valid. -/
theorem verifier_eq (ds : List (DiffInput σ κ ν φ)) :
    verifier W ds = Exn.mapList diffVerdict
      (ds.map (callProgress W (W.verifyProofs (ds.flatMap fun x => slotProofs W (slots x))))) := by
  have hproofs : (((unknowns ds).map (·.2)).map W.check).flatMap toVerify =
      ds.flatMap fun x => slotProofs W (slots x) := by
    rw [unknowns_eq, List.map_map, List.flatMap_map, List.flatMap_assoc]
    have hone : ∀ (ds : List (DiffInput σ κ ν φ)) (k : Nat), ((ds.zipIdx k).flatMap fun p =>
        (((todo (slots p.1) 0).map fun u => ((p.2, u.1), u.2)).flatMap
          fun u => toVerify ((W.check ∘ fun u => u.2) u))) = ds.flatMap fun x => slotProofs W (slots x) := by
      intro ds
      induction ds with
      | nil => intro k; rfl
      | cons x ds ih =>
        intro k
        rw [List.zipIdx_cons, List.flatMap_cons, List.flatMap_cons, ih, List.flatMap_map]
        exact congrArg (· ++ _) (flatMap_todo (slots x) 0)
    exact hone ds 0
  have hverdicts : verifyCommands W ((unknowns ds).map (·.2)) = (unknowns ds).map fun u =>
      commandVerdict (W.verifyProofs (ds.flatMap fun x => slotProofs W (slots x))) (W.check u.2) := by
    rw [verifyCommands, hproofs, List.map_map, List.map_map]
    rfl
  have hzip : ∀ (l : List ((Nat × Nat) × κ)) (f : (Nat × Nat) × κ → CommandVerdict ν φ),
      l.zip (l.map f) = l.map fun u => (u, f u) := by
    intro l f
    induction l with
    | nil => rfl
    | cons u l ih => exact congrArg (_ :: ·) ih
  rw [verifier]
  simp only [hverdicts, List.length_map, ne_eq, not_true, if_false, hzip, List.foldl_map]
  rw [initResult_eq, unknowns_eq]
  exact congrArg _ (foldl_unknowns _ (fun x => .inProgress ((slots x).map (·.1))) ds [])

end

/-! ## The judge's verdicts -/

section

variable {W : Verifier κ ν φ} {valid : φ → Bool}

theorem allValid_statuses {b : Bool} {cs : List κ} (h : ∀ c ∈ cs, isInvalid (W.check c) = false)
    (hb : b = true ∨ ∀ c ∈ cs, isAssuming (W.check c) = false) :
    allValid (cs.map (statusOf W b)) = some (cs.filterMap fun c => validCommand (W.check c)) := by
  induction cs with
  | nil => rfl
  | cons c cs ih =>
    have hrec := ih (fun c hc => h c (List.mem_cons_of_mem _ hc))
      (hb.imp_right fun hb c hc => hb c (List.mem_cons_of_mem _ hc))
    have hc := h c List.mem_cons_self
    have hb' := hb.imp_right fun hb => hb c List.mem_cons_self
    rw [List.map_cons, List.filterMap_cons, statusOf]
    cases hw : W.check c with
    | invalid => rw [hw] at hc; cases hc
    | valid v => simp only [allValid, hrec, validCommand, Option.map_some]
    | validAssuming v xs =>
      rw [hw] at hb'
      obtain rfl : b = true := hb'.resolve_right (by simp [isAssuming])
      simp only [if_true, allValid, hrec, validCommand, Option.map_some]

theorem allValid_assuming {cs : List κ} (h : ∃ c ∈ cs, isAssuming (W.check c) = true) :
    allValid (cs.map (statusOf W false)) = none := by
  induction cs with
  | nil => simp at h
  | cons c cs ih =>
    rw [List.map_cons, statusOf]
    cases hw : W.check c with
    | invalid => rfl
    | validAssuming v xs => rfl
    | valid v =>
      obtain ⟨c', hc', has⟩ := h
      rcases List.mem_cons.1 hc' with rfl | hc'
      · rw [hw] at has; cases has
      · simp only [allValid, ih ⟨c', hc', has⟩, Option.map_none]

theorem mapList_partialItem {cs : List κ} (h : ∀ c ∈ cs, isInvalid (W.check c) = false) :
    Exn.mapList partialItem (cs.map (statusOf W false)) = .ok (cs.filterMap (hintOf W)) := by
  induction cs with
  | nil => rfl
  | cons c cs ih =>
    have hrec := ih fun c hc => h c (List.mem_cons_of_mem _ hc)
    have hc := h c List.mem_cons_self
    rw [List.map_cons, Exn.mapList, hrec, List.filterMap_cons, statusOf, hintOf]
    cases hw : W.check c with
    | invalid => rw [hw] at hc; cases hc
    | valid v => rfl
    | validAssuming v xs => rfl

/-- The verdict on a diff without an invalid command. -/
theorem diffVerdict_statuses (b : Bool) {d : Diff σ κ} (h : ∀ c ∈ d.data, isInvalid (W.check c) = false) :
    diffVerdict (.inProgress (d.data.map (statusOf W b))) = .ok ((judge W valid).verdict b d) := by
  have hany : (d.data.any fun c => isInvalid (W.check c)) = false := by
    rw [List.any_eq_false]
    intro c hc
    simp [h c hc]
  by_cases has : ∃ c ∈ d.data, isAssuming (W.check c) = true
  · have hopen : (d.data.any fun c => isAssuming (W.check c)) = true := List.any_eq_true.2 has
    simp only [Judge.verdict, judge, hany, hopen, if_true, Bool.false_eq_true, if_false]
    cases b with
    | true => rw [diffVerdict, allValid_statuses h (.inl rfl)]; rfl
    | false =>
      rw [diffVerdict, allValid_assuming has]
      simp only [mapList_partialItem h, Exn.andThen_ok]
      rfl
  · have hdone : (d.data.any fun c => isAssuming (W.check c)) = false := by
      rw [List.any_eq_false]
      exact fun c hc hn => has ⟨c, hc, hn⟩
    have hnone : ∀ c ∈ d.data, isAssuming (W.check c) = false := by
      intro c hc
      by_contra hn
      exact has ⟨c, hc, by simpa using hn⟩
    simp only [Judge.verdict, judge, hany, hdone, Bool.false_eq_true, if_false]
    rw [diffVerdict, allValid_statuses h (.inr hnone)]

theorem isInvalid_of_open {d : Diff σ κ} (h : (judge W valid).decided d = none) :
    ∀ c ∈ d.data, isInvalid (W.check c) = false := by
  simp only [judge] at h
  split at h
  · cases h
  · next hany =>
    intro c hc
    by_contra hn
    exact hany (List.any_eq_true.2 ⟨c, hc, by simpa using hn⟩)

theorem slots_hint {b : Bool} {d : Diff σ κ} (h : ∀ c ∈ d.data, isInvalid (W.check c) = false) :
    (slots (.partiallyValidated (d.data.filterMap (hintOf W)) : DiffInput σ κ ν φ)).map (slotAfter W b) =
        d.data.map (statusOf W b) ∧
      slotProofs W (slots (.partiallyValidated (d.data.filterMap (hintOf W)) : DiffInput σ κ ν φ)) = diffProofs W d ∧
      ∀ p ∈ slots (.partiallyValidated (d.data.filterMap (hintOf W)) : DiffInput σ κ ν φ), ∀ c ∈ p.2,
        isInvalid (W.check c) = false := by
  obtain ⟨cs, sender⟩ := d
  simp only [slots, slotProofs, diffProofs] at h ⊢
  induction cs with
  | nil => exact ⟨rfl, rfl, by simp⟩
  | cons c cs ih =>
    obtain ⟨hmap, hproofs, hinv⟩ := ih fun c hc => h c (List.mem_cons_of_mem _ hc)
    have hc := h c List.mem_cons_self
    cases hw : W.check c with
    | invalid => rw [hw] at hc; cases hc
    | valid v =>
      have hhint : hintOf W c = some (.valid v) := by rw [hintOf, hw]
      simp only [List.filterMap_cons, hhint, List.map_cons, hmap, List.flatMap_cons, hproofs, hw]
      refine ⟨?_, rfl, ?_⟩
      · rw [slotAfter, statusOf, hw]
      · intro p hp c' hc'
        rcases List.mem_cons.1 hp with rfl | hp
        · cases hc'
        · exact hinv p hp c' hc'
    | validAssuming v xs =>
      have hhint : hintOf W c = some (.validAssuming c xs) := by rw [hintOf, hw]
      simp only [List.filterMap_cons, hhint, List.map_cons, hmap, List.flatMap_cons, hproofs, hw]
      refine ⟨rfl, by simp [hw], ?_⟩
      intro p hp c' hc'
      rcases List.mem_cons.1 hp with rfl | hp
      · obtain rfl := Option.mem_some_iff.1 hc'
        exact hc
      · exact hinv p hp c' hc'

theorem mapList_map {β γ δ : Type} {f : γ → Exn δ} {g : β → γ} {k : β → δ} {l : List β}
    (h : ∀ x ∈ l, f (g x) = .ok (k x)) : Exn.mapList f (l.map g) = .ok (l.map k) := by
  induction l with
  | nil => rfl
  | cons x l ih =>
    rw [List.map_cons, Exn.mapList, h x List.mem_cons_self, Exn.andThen_ok,
      ih fun y hy => h y (List.mem_cons_of_mem _ hy), Exn.andThen_ok, List.map_cons]

/-- A new diff. -/
theorem diffVerdict_init (b : Bool) (d : Diff σ κ) :
    diffVerdict (callProgress W b (.init d)) = .ok ((judge W valid).verdict b d) := by
  rw [callProgress]
  by_cases hinv : ∃ c ∈ d.data, isInvalid (W.check c) = true
  · obtain ⟨c, hc, hw⟩ := hinv
    have hslot : ((.unknown : ItemStatus κ ν φ), some c) ∈ slots (.init d) := List.mem_map_of_mem hc
    rw [foldl_slots_invalid b _ _ _ ⟨_, hslot, c, rfl, hw⟩]
    have hany : (d.data.any fun c => isInvalid (W.check c)) = true := List.any_eq_true.2 ⟨c, hc, hw⟩
    simp only [Judge.verdict, judge, hany, if_true]
    rfl
  · have hnone : ∀ c ∈ d.data, isInvalid (W.check c) = false := by
      intro c hc
      by_contra hn
      exact hinv ⟨c, hc, by simpa using hn⟩
    have hslots : ∀ p ∈ slots (.init d : DiffInput σ κ ν φ), ∀ c ∈ p.2, isInvalid (W.check c) = false := by
      intro p hp c hc
      obtain ⟨c', hc', rfl⟩ := List.mem_map.1 hp
      obtain rfl := Option.mem_some_iff.1 hc
      exact hnone _ hc'
    have := foldl_slots b (slots (.init d)) [] hslots
    rw [List.nil_append, List.nil_append, List.length_nil] at this
    rw [this, slots, List.map_map]
    exact diffVerdict_statuses b hnone

/-- A diff that was left open by an earlier call. -/
theorem diffVerdict_hinted (b : Bool) {d : Diff σ κ} (h : (judge W valid).decided d = none) :
    diffVerdict (callProgress W b (.partiallyValidated ((judge W valid).hint d) : DiffInput σ κ ν φ)) =
      .ok ((judge W valid).verdict b d) := by
  have hnone := isInvalid_of_open h
  obtain ⟨hmap, -, hslots⟩ := slots_hint (b := b) hnone
  have := foldl_slots b _ [] hslots
  rw [List.nil_append, List.nil_append, List.length_nil, hmap] at this
  exact (congrArg diffVerdict this).trans (diffVerdict_statuses b hnone)

/-- The verifier of the transaction pool judges each diff on its own. -/
theorem judges (hW : ∀ xs, W.verifyProofs xs = xs.all valid) :
    (judge W valid : Judge (Diff σ κ) _ _).Judges (verifier W) where
  init ds := by
    have hproofs : ((ds.map .init).flatMap fun x : DiffInput σ κ ν φ => slotProofs W (slots x)) =
        ds.flatMap (diffProofs W) := by
      rw [List.flatMap_map]
      refine List.flatMap_congr fun d _ => ?_
      simp only [slotProofs, slots, diffProofs, List.flatMap_map]
      rfl
    rw [verifier_eq, hproofs, hW, List.all_flatMap, List.map_map]
    exact mapList_map fun d _ => diffVerdict_init _ d
  hinted ds h := by
    have hproofs : ((ds.map fun d => .partiallyValidated ((judge W valid).hint d)).flatMap
        fun x : DiffInput σ κ ν φ => slotProofs W (slots x)) = ds.flatMap (diffProofs W) := by
      rw [List.flatMap_map]
      refine List.flatMap_congr fun d hd => ?_
      exact (slots_hint (b := false) (isInvalid_of_open (h d hd))).2.1
    rw [verifier_eq, hproofs, hW, List.all_flatMap, List.map_map]
    exact mapList_map fun d hd => diffVerdict_hinted _ (h d hd)

/-- The judge accepts a diff when all its commands pass. -/
theorem answer_isOk (d : Diff σ κ) :
    ((judge W valid).answer d).isOk = true ↔ ∀ c ∈ d.data, CommandOk valid (W.check c) := by
  have hok : (diffProofs W d).all valid = true ↔ ∀ c ∈ d.data, ∀ p ∈ toVerify (W.check c), valid p = true := by
    simp only [diffProofs, List.all_flatMap, List.all_eq_true]
  by_cases hinv : ∃ c ∈ d.data, isInvalid (W.check c) = true
  · have hany : (d.data.any fun c => isInvalid (W.check c)) = true := List.any_eq_true.2 hinv
    obtain ⟨c, hc, hw⟩ := hinv
    simp only [Judge.answer, judge, hany, if_true]
    refine iff_of_false (by simp [Except.isOk, Except.toBool]) fun h => ?_
    have := h c hc
    cases hcheck : W.check c with
    | invalid => rw [hcheck] at this; exact this
    | valid v => rw [hcheck] at hw; cases hw
    | validAssuming v xs => rw [hcheck] at hw; cases hw
  · have hany : (d.data.any fun c => isInvalid (W.check c)) = false := by
      rw [List.any_eq_false]
      exact fun c hc hn => hinv ⟨c, hc, hn⟩
    have hcommand : ∀ c ∈ d.data, (CommandOk valid (W.check c) ↔ ∀ p ∈ toVerify (W.check c), valid p = true) := by
      intro c hc
      cases hcheck : W.check c with
      | invalid => exact absurd ⟨c, hc, by rw [hcheck]; rfl⟩ hinv
      | valid v => simp [CommandOk, toVerify]
      | validAssuming v xs => exact Iff.rfl
    rw [forall₂_congr hcommand, ← hok]
    simp only [Judge.answer, judge, hany, Bool.false_eq_true, if_false]
    by_cases has : (d.data.any fun c => isAssuming (W.check c)) = true
    · simp only [has, if_true]
      exact isOk_ite
    · simp only [has, Bool.false_eq_true, if_false]
      refine iff_of_true rfl (hok.2 fun c hc p hp => ?_)
      cases hcheck : W.check c with
      | invalid => rw [hcheck] at hp; cases hp
      | valid v => rw [hcheck] at hp; cases hp
      | validAssuming v xs => exact absurd (List.any_eq_true.2 ⟨c, hc, by rw [hcheck]; rfl⟩) has

end

end TransactionPool

/-! ## The snark pool -/

namespace SnarkPool

variable {φ μ σ : Type}

/-- Nothing is known of an envelope at first sight. -/
def judge (valid : φ × μ → Bool) : Judge (ProofEnvelope σ φ μ) (ProofEnvelope σ φ μ) Unit where
  decided _ := none
  ok env := (proofs env).all valid
  result _ := ()
  hint env := env

theorem flatMap_proofs {β : Type} (l : List β) (f : β → Input (ProofEnvelope σ φ μ) (ProofEnvelope σ φ μ))
    (g : β → ProofEnvelope σ φ μ) (h : ∀ x, envelope (f x) = g x) :
    ((l.map f).flatMap fun p => proofs (envelope p)) = l.flatMap fun x => proofs (g x) := by
  rw [List.flatMap_map]
  exact List.flatMap_congr fun x _ => by rw [h]

/-- The verifier of the snark pool judges each envelope on its own. -/
theorem judges {verify valid : _ → Bool} (h : ∀ ps : List (φ × μ), verify ps = ps.all valid) :
    (judge valid : Judge (ProofEnvelope σ φ μ) _ _).Judges (verifier verify) where
  init ds := by
    rw [verifier, flatMap_proofs ds .init id fun _ => rfl]
    simp only [h, List.all_flatMap, id]
    split
    · next hall => simp [Judge.verdict, judge, hall]
    · next hall => simp [Judge.verdict, judge, hall, envelope]
  hinted ds _ := by
    rw [verifier, flatMap_proofs ds _ id fun _ => rfl]
    simp only [h, List.all_flatMap, id]
    split
    · next hall => simp [Judge.verdict, judge, hall]
    · next hall => simp [Judge.verdict, judge, hall, envelope]

/-- Every batch of envelopes is separable: when one is left, it is alone. -/
theorem separable (valid : φ × μ → Bool) (ps : List (Elt (ProofEnvelope σ φ μ))) :
    (judge valid).Separable ps := by
  intro e he hok e' he'
  have hall : ps.filter (fun e => ((judge valid).decided e.data).isNone) = ps :=
    List.filter_eq_self.2 fun _ _ => rfl
  rw [hall] at he
  rw [he, List.mem_singleton] at he'
  rw [he']
  exact hok

theorem answer_isOk (valid : φ × μ → Bool) (env : ProofEnvelope σ φ μ) :
    ((judge valid).answer env).isOk = true ↔ ∀ p ∈ proofs env, valid p = true := by
  rw [← List.all_eq_true]
  exact isOk_ite

end SnarkPool

/-! ## Both pools -/

/-- **The batchers of the pools.** Whatever comes in and whenever the verifier
answers, no item has two answers, and when the verifier has answered often
enough every item has one. An answer of the snark pool is right always, and
one of the transaction pool in a run whose batches are separable when the
verifier answers; the next event of such a run keeps this exactly if it
meets the condition too. -/
theorem pools_answer {κ ν φ φ' μ σ : Type} (W : TransactionPool.Verifier κ ν φ) (valid : φ → Bool)
    (hW : ∀ xs, W.verifyProofs xs = xs.all valid) (verifySnarks : List (φ' × μ) → Bool) (validSnark : φ' × μ → Bool)
    (hS : ∀ ps, verifySnarks ps = ps.all validSnark)
    (K : Config (TransactionPool.Diff σ κ) (List (TransactionPool.PartialItem κ ν φ)) (List ν))
    (hK : K.verifier = TransactionPool.verifier W)
    (L : Config (SnarkPool.ProofEnvelope σ φ' μ) (SnarkPool.ProofEnvelope σ φ' μ) Unit)
    (hL : L.verifier = SnarkPool.verifier verifySnarks)
    (diffs : List (Event (TransactionPool.Diff σ κ))) (envelopes : List (Event (SnarkPool.ProofEnvelope σ φ' μ)))
    (hdiffs : ∀ d ∈ submitted diffs, ∀ m ∈ K.maxWeightPerCall, K.weight d ≤ m)
    (henvelopes : ∀ env ∈ submitted envelopes, ∀ m ∈ L.maxWeightPerCall, L.weight env ≤ m) :
    ((∃ s, run K diffs = .ok s ∧ AnsweredOnce (submitted diffs) s ∧
        (MeetsAll K (TransactionPool.judge W valid) diffs →
          Right (TransactionPool.judge W valid) (submitted diffs) s.answers ∧
          ∀ e, ∃ s', step K s e = .ok s' ∧
            (Right (TransactionPool.judge W valid) (submitted (diffs ++ [e])) s'.answers ↔
              Meets (TransactionPool.judge W valid) s e))) ∧
      (∃ n s, run K (diffs ++ List.replicate n .returns) = .ok s ∧ s.status = .waiting ∧
        ∀ i < (submitted diffs).length, i ∈ s.answers.map (·.1)) ∧
      ∀ d : TransactionPool.Diff σ κ, ((TransactionPool.judge W valid).answer d).isOk = true ↔
        ∀ c ∈ d.data, TransactionPool.CommandOk valid (W.check c)) ∧
    ((∃ s, run L envelopes = .ok s ∧ AnsweredOnce (submitted envelopes) s ∧
        Right (SnarkPool.judge validSnark) (submitted envelopes) s.answers) ∧
      (∃ n s, run L (envelopes ++ List.replicate n .returns) = .ok s ∧ s.status = .waiting ∧
        ∀ i < (submitted envelopes).length, i ∈ s.answers.map (·.1)) ∧
      ∀ env : SnarkPool.ProofEnvelope σ φ' μ, ((SnarkPool.judge validSnark).answer env).isOk = true ↔
        ∀ p ∈ SnarkPool.proofs env, validSnark p = true) := by
  have hJ : (TransactionPool.judge W valid).Judges K.verifier := hK ▸ TransactionPool.judges hW
  have hJ' : (SnarkPool.judge validSnark).Judges L.verifier := hL ▸ SnarkPool.judges hS
  obtain ⟨s, hrun, honce, hright⟩ := run_judged hJ' envelopes
  have hmeets : MeetsAll L (SnarkPool.judge validSnark) envelopes := by
    intro pre e post _ s _
    cases e with
    | verify env => trivial
    | returns => exact fun out _ _ _ => SnarkPool.separable validSnark out
  exact ⟨⟨run_judged hJ diffs, run_finishes hJ diffs hdiffs, TransactionPool.answer_isOk⟩,
    ⟨s, hrun, honce, (hright hmeets).1⟩, run_finishes hJ' envelopes henvelopes, SnarkPool.answer_isOk validSnark⟩

/-! ## Three diffs -/

/-- Commands that are what their check says, with proofs that are valid or not. -/
abbrev SampleCommand := TransactionPool.Check Unit Bool

abbrev SampleDiff := TransactionPool.Diff Nat SampleCommand

abbrev SampleHint := List (TransactionPool.PartialItem SampleCommand Unit Bool)

def sampleVerifier : TransactionPool.Verifier SampleCommand Unit Bool where
  check := id
  verifyProofs := fun xs => xs.all id

def sampleConfig : Config SampleDiff SampleHint (List Unit) := TransactionPool.create compare sampleVerifier

/-- A diff that keeps the verifier busy, one with an invalid command and an
invalid proof, and one whose proof is valid. -/
def sampleDiffs : List SampleDiff :=
  [⟨[.valid ()], 0⟩, ⟨[.invalid, .validAssuming () [false]], 1⟩, ⟨[.validAssuming () [true]], 2⟩]

/-- The three diffs get an answer each, and so does an envelope of two proofs. -/
theorem pools_answer_sample :
    (∃ n s, run sampleConfig (sampleDiffs.map .verify ++ List.replicate n .returns) = .ok s ∧ s.status = .waiting ∧
      ∀ i < (submitted (sampleDiffs.map .verify)).length, i ∈ s.answers.map (·.1)) ∧
    ∃ s, run (SnarkPool.create compare 1000 fun ps => ps.all Prod.fst) [.verify ⟨(.two true false, ()), 0⟩] = .ok s ∧
      AnsweredOnce (submitted [.verify (⟨(.two true false, ()), 0⟩ : SnarkPool.ProofEnvelope Nat Bool Unit)]) s ∧
      Right (SnarkPool.judge Prod.fst) (submitted [.verify ⟨(.two true false, ()), 0⟩]) s.answers := by
  have h := pools_answer sampleVerifier id (fun _ => rfl) (fun ps => ps.all Prod.fst) Prod.fst (fun _ => rfl)
    sampleConfig rfl (SnarkPool.create compare 1000 fun ps => ps.all Prod.fst) rfl (sampleDiffs.map .verify)
    [.verify (⟨(.two true false, ()), 0⟩ : SnarkPool.ProofEnvelope Nat Bool Unit)] (fun d _ m hm => by cases hm)
    (fun env _ m hm => by
      obtain rfl := Option.mem_some_iff.1 hm
      exact (by decide : (1 : Int) ≤ 1000))
  exact ⟨h.1.2.1, h.2.1⟩

/-- Nothing limits a batch of diffs: the whole queue is verified. -/
theorem startVerifier_sample {s : State SampleDiff _ (List Unit)} (hne : s.queue.isEmpty = false)
    (hle : s.queue.Pairwise fun a b => (compareElt (compareEnvelope compare) a b).isLE = true) :
    startVerifier sampleConfig s = { s with
      queue := []
      status := .verifying s.queue (s.queue.map fun elt => .init elt.data) fun res => determineOutcome s.queue res } := by
  have horder : orderProofs sampleConfig s.queue = s.queue := List.mergeSort_of_pairwise hle
  rw [startVerifier, if_neg (by simp [hne])]
  simp only [takeBatch, sampleConfig, TransactionPool.create] at horder ⊢
  rw [horder]

/-- The elements of the sample diffs. -/
def sampleElts : List (Elt SampleDiff) := sampleDiffs.zipIdx.map fun (d, i) => ⟨i, d, 1⟩

/-- The batch `out` is at its first call. -/
def sampleState (out queue : List (Elt SampleDiff)) (nextId : Nat) (answers : List (Nat × Answer (List Unit))) :
    State SampleDiff SampleHint (List Unit) :=
  ⟨.verifying out (out.map fun elt => .init elt.data) fun res => determineOutcome out res, queue, nextId, answers⟩

/-- The last two diffs come in while the first is being verified. -/
theorem sample_verify : Exn.fold (step sampleConfig) create (sampleDiffs.map .verify) =
    .ok (sampleState (sampleElts.take 1) (sampleElts.drop 1) 3 []) := by
  have hfirst : verify sampleConfig create ⟨[.valid ()], 0⟩ = sampleState (sampleElts.take 1) [] 1 [] := by
    rw [verify]
    exact startVerifier_sample (s := ⟨.waiting, sampleElts.take 1, 1, []⟩) rfl (List.pairwise_singleton _ _)
  simp only [sampleDiffs, List.map_cons, List.map_nil, Exn.fold, step, Exn.andThen_ok, hfirst]
  rfl

/-- They are verified together once it is. -/
theorem sample_returns : returns sampleConfig (sampleState (sampleElts.take 1) (sampleElts.drop 1) 3 []) =
    .ok (sampleState (sampleElts.drop 1) [] 3 [(0, .ok [()])]) := by
  have hcall : sampleConfig.verifier ((sampleElts.take 1).map fun elt => .init elt.data) = .ok [.valid [()]] := rfl
  have houtcome : settle [] (determineOutcome (sampleElts.take 1)
      ([.valid [()]] : List (Verdict (List Unit) SampleHint))) = .ok ([(0, .ok [()])], none) := by
    rw [determineOutcome_eq rfl]
    rfl
  have hstart := startVerifier_sample (s := ⟨(sampleState (sampleElts.take 1) [] 3 []).status, sampleElts.drop 1, 3,
    [(0, .ok [()])]⟩) rfl (by decide)
  simp only [returns, sampleState, hcall, Exn.andThen_ok, houtcome]
  exact congrArg Except.ok hstart

/-- **An honest diff is condemned.** Two diffs come in while a third is being
verified: one with an invalid command and an invalid proof, and one with a
valid proof. They are verified together, and the answer to the second is an
error. -/
theorem run_condemns : ∃ s, run sampleConfig (sampleDiffs.map .verify ++ [.returns, .returns]) = .ok s ∧
    (2, .error ()) ∈ s.answers ∧ ∃ d, sampleDiffs[2]? = some d ∧
      ∀ c ∈ d.data, TransactionPool.CommandOk id (sampleVerifier.check c) := by
  let verdicts : List (Verdict (List Unit) SampleHint) :=
    [.invalid, .potentiallyInvalid [.validAssuming (.validAssuming () [true]) [true]]]
  have hcall : sampleConfig.verifier ((sampleElts.drop 1).map fun elt => .init elt.data) = .ok verdicts := rfl
  have houtcome : settle [(0, .ok [()])] (determineOutcome (sampleElts.drop 1) verdicts) =
      .ok ([(0, .ok [()]), (1, .error ()), (2, .error ())], none) := by
    rw [determineOutcome_eq rfl]
    rfl
  have hlast : returns sampleConfig (sampleState (sampleElts.drop 1) [] 3 [(0, .ok [()])]) =
      .ok ⟨.waiting, [], 3, [(0, .ok [()]), (1, .error ()), (2, .error ())]⟩ := by
    simp only [returns, sampleState, hcall, Exn.andThen_ok, houtcome]
    rfl
  refine ⟨⟨.waiting, [], 3, [(0, .ok [()]), (1, .error ()), (2, .error ())]⟩, ?_, by simp, _, rfl, ?_⟩
  · rw [run, Exn.fold_append, sample_verify, Exn.andThen_ok]
    simp only [Exn.fold, step, sample_returns, Exn.andThen_ok, hlast]
  · intro c hc
    obtain rfl := List.mem_singleton.1 hc
    intro p hp
    obtain rfl := List.mem_singleton.1 hp
    rfl

end Mina.Batcher
