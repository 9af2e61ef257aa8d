/-
What the batcher answers, for a verifier that judges each item on its own.

A judge knows of some items at first sight what the answer is; the others
are right exactly when they are ok, and the verifier says so of a batch when
all its items are ok. Splitting then gives every item the judge's answer,
with one exception (`Separable`): after the first call of a batch, an item
that is left alone is condemned without being verified again, also when what
was not ok was another item.
-/
import Mina.NetworkPool.Batcher

namespace Mina.Batcher

variable {α π ρ : Type}

/-! ## Judges -/

/-- What the answers should be. -/
structure Judge (α π ρ : Type) where
  decided : α → Option (Answer ρ)
  ok : α → Bool
  result : α → ρ
  hint : α → π

namespace Judge

variable (J : Judge α π ρ)

def answer (d : α) : Answer ρ :=
  match J.decided d with
  | some a => a
  | none => if J.ok d then .ok (J.result d) else .error ()

/-- What the verifier says of an item in a batch that is `b` as a whole. -/
def verdict (b : Bool) (d : α) : Verdict ρ π :=
  match J.decided d with
  | some (.ok r) => .valid r
  | some (.error ()) => .invalid
  | none => if b then .valid (J.result d) else .potentiallyInvalid (J.hint d)

/-- The verifier's answers are those of the judge, on items that are new and
on items that were left open. -/
structure Judges (v : List (Input α π) → Exn (List (Verdict ρ π))) : Prop where
  init : ∀ ds : List α, v (ds.map .init) = .ok (ds.map (J.verdict (ds.all J.ok)))
  hinted : ∀ ds : List α, (∀ d ∈ ds, J.decided d = none) →
    v (ds.map fun d => .partiallyValidated (J.hint d)) = .ok (ds.map (J.verdict (ds.all J.ok)))

/-- The answers to a list of elements. -/
def answers (ps : List (Elt α)) : List (Nat × Answer ρ) := ps.map fun e => (e.id, J.answer e.data)

/-- A batch that is not accepted does not leave just one item open that is
ok itself. -/
def Separable (ps : List (Elt α)) : Prop :=
  ∀ e, ps.filter (fun e => (J.decided e.data).isNone) = [e] → J.ok e.data = true → ∀ e' ∈ ps, J.ok e'.data = true

end Judge

/-! ## Computations -/

/-- Every variable that a computation fills, when the verifier answers at once. -/
def Task.run (v : List (Input α π) → Exn (List (Verdict ρ π))) : Task α π ρ → Exn (List (Nat × Answer ρ))
  | .done => .ok []
  | .fill id answer rest => (rest.run v).andThen fun l => .ok ((id, answer) :: l)
  | .call input k =>
    match v input with
    | .ok res => (k res).run v
    | .error e => .error e
  | .raise message => .error message

section

variable {v : List (Input α π) → Exn (List (Verdict ρ π))} {J : Judge α π ρ}

theorem Task.run_call {input : List (Input α π)} {k : List (Verdict ρ π) → Task α π ρ} {res : List (Verdict ρ π)}
    (h : v input = .ok res) : (Task.call input k).run v = (k res).run v := by
  rw [Task.run, h]

theorem Task.run_andThen {l l' : List (Nat × Answer ρ)} {t t' : Task α π ρ} (h : t.run v = .ok l)
    (h' : t'.run v = .ok l') : (t.andThen t').run v = .ok (l ++ l') := by
  induction t generalizing l with
  | done => cases h; exact h'
  | raise message => cases h
  | fill id answer rest ih =>
    obtain ⟨m, hm, h⟩ := Exn.andThen_eq_ok.1 h
    cases h
    rw [Task.andThen, Task.run, ih hm, Exn.andThen_ok, List.cons_append]
  | call input k ih =>
    rw [Task.run] at h
    rw [Task.andThen, Task.run]
    split at h
    · next res hres => exact ih res h
    · cases h

/-- What is known of a batch. -/
def known (l : List (Elt α × Verdict ρ π)) : List (Nat × Answer ρ) :=
  l.filterMap fun
    | (elt, .valid r) => some (elt.id, .ok r)
    | (elt, .invalid) => some (elt.id, .error ())
    | (_, .potentiallyInvalid _) => none

theorem run_fillKnown {l : List (Elt α × Verdict ρ π)} {t : Task α π ρ} {fills : List (Nat × Answer ρ)}
    (h : t.run v = .ok fills) : (fillKnown l t).run v = .ok (known l ++ fills) := by
  induction l with
  | nil => exact h
  | cons p l ih =>
    obtain ⟨elt, r⟩ := p
    cases r with
    | valid r => rw [fillKnown, Task.run, ih, Exn.andThen_ok]; rfl
    | invalid => rw [fillKnown, Task.run, ih, Exn.andThen_ok]; rfl
    | potentiallyInvalid hint => rw [fillKnown, ih]; rfl

/-! ## The outcome of a batch -/

/-- The elements of a batch that the judge leaves open. -/
def openElts (J : Judge α π ρ) (ps : List (Elt α)) : List (Elt α) := ps.filter fun e => (J.decided e.data).isNone

/-- The verifier's answer for a batch. -/
def verdicts (J : Judge α π ρ) (b : Bool) (ps : List (Elt α)) : List (Verdict ρ π) :=
  ps.map fun e => J.verdict b e.data

theorem zip_verdicts (b : Bool) (ps : List (Elt α)) :
    ps.zip (verdicts J b ps) = ps.map fun e => (e, J.verdict b e.data) := by
  induction ps with
  | nil => rfl
  | cons e ps ih => exact congrArg (_ :: ·) ih

theorem known_of_accepted {ps : List (Elt α)} (h : ∀ e ∈ ps, J.ok e.data = true) :
    known (ps.zip (verdicts J true ps)) = J.answers ps := by
  rw [zip_verdicts, known, List.filterMap_map, Judge.answers, ← List.filterMap_eq_map]
  refine List.filterMap_congr fun e he => ?_
  simp only [Function.comp, Judge.verdict, Judge.answer, h e he, if_true]
  rcases J.decided e.data with _ | (_ | r) <;> rfl

theorem potentiallyInvalid_of_accepted (ps : List (Elt α)) :
    potentiallyInvalid (ps.zip (verdicts J true ps)) = [] := by
  rw [zip_verdicts, potentiallyInvalid, List.filterMap_map, List.filterMap_eq_nil_iff]
  intro e _
  simp only [Function.comp, Judge.verdict, if_true]
  rcases J.decided e.data with _ | (_ | r) <;> rfl

theorem known_of_refused (ps : List (Elt α)) :
    known (ps.zip (verdicts J false ps)) = J.answers (ps.filter fun e => (J.decided e.data).isSome) := by
  rw [zip_verdicts, known, List.filterMap_map, Judge.answers, ← List.filterMap_eq_map, List.filterMap_filter]
  refine List.filterMap_congr fun e _ => ?_
  simp only [Function.comp, Judge.verdict, Judge.answer]
  rcases J.decided e.data with _ | (_ | r) <;> rfl

theorem potentiallyInvalid_of_refused (ps : List (Elt α)) :
    potentiallyInvalid (ps.zip (verdicts J false ps)) = (openElts J ps).map fun e => (e, J.hint e.data) := by
  rw [zip_verdicts, potentiallyInvalid, List.filterMap_map, openElts, ← List.filterMap_eq_map,
    List.filterMap_filter]
  refine List.filterMap_congr fun e _ => ?_
  simp only [Function.comp, Judge.verdict]
  rcases J.decided e.data with _ | (_ | r) <;> rfl

/-- What is to be done for the elements without a known result. -/
def remaining : List (Elt α × π) → Task α π ρ
  | [] => .done
  | [(elt, _)] => .fill elt.id (.error ()) .done
  | l =>
    (Task.call (hinted (l.take (l.length / 2))) fun res =>
        determineOutcome ((l.take (l.length / 2)).map (·.1)) res).andThen
      (.call (hinted (l.drop (l.length / 2))) fun res =>
        determineOutcome ((l.drop (l.length / 2)).map (·.1)) res)

theorem determineOutcome_eq {ps : List (Elt α)} {res : List (Verdict ρ π)} (h : ps.length = res.length) :
    determineOutcome ps res = fillKnown (ps.zip res) (remaining (potentiallyInvalid (ps.zip res))) := by
  rw [determineOutcome, if_neg (not_not.2 h)]
  congr 1
  split
  · next h => rw [h]; rfl
  · next h => rw [h]; rfl
  · next h => rw [h]; rfl

/-- The elements of a list with their hints. -/
def withHints (J : Judge α π ρ) (ps : List (Elt α)) : List (Elt α × π) := ps.map fun e => (e, J.hint e.data)

theorem map_fst_withHints (ps : List (Elt α)) : (withHints J ps).map (·.1) = ps := by
  rw [withHints, List.map_map]
  exact List.map_id ps

/-- Verifying open elements again. -/
theorem run_call_withHints (hJ : J.Judges v) {xs : List (Elt α)} (h : ∀ e ∈ xs, J.decided e.data = none)
    (hrun : (determineOutcome xs (verdicts J (xs.all fun e => J.ok e.data) xs)).run v = .ok (J.answers xs)) :
    (Task.call (hinted (withHints J xs)) fun res => determineOutcome ((withHints J xs).map (·.1)) res).run v =
      .ok (J.answers xs) := by
  have hx : ∀ d ∈ xs.map (·.data), J.decided d = none := by
    intro d hd
    obtain ⟨e, he, rfl⟩ := List.mem_map.1 hd
    exact h e he
  have hinput : hinted (withHints J xs) = (xs.map (·.data)).map fun d => .partiallyValidated (J.hint d) := by
    simp [hinted, withHints]
  have hcall : v (hinted (withHints J xs)) = .ok (verdicts J (xs.all fun e => J.ok e.data) xs) := by
    rw [hinput, hJ.hinted _ hx, List.all_map, List.map_map]
    rfl
  rw [Task.run_call hcall, map_fst_withHints]
  exact hrun

/-- Two or more open elements are verified again in two halves. -/
theorem run_remaining (hJ : J.Judges v) {xs : List (Elt α)} (h : ∀ e ∈ xs, J.decided e.data = none)
    (hlen : 2 ≤ xs.length)
    (hrun : ∀ ys : List (Elt α), ys.length < xs.length → (∀ e ∈ ys, J.decided e.data = none) →
      (determineOutcome ys (verdicts J (ys.all fun e => J.ok e.data) ys)).run v = .ok (J.answers ys)) :
    (remaining (withHints J xs)).run v = .ok (J.answers xs) := by
  have hhalf : ∀ ys : List (Elt α), ys.length < xs.length → (∀ e ∈ ys, e ∈ xs) →
      (Task.call (hinted (withHints J ys)) fun res => determineOutcome ((withHints J ys).map (·.1)) res).run v =
        .ok (J.answers ys) := by
    intro ys hlt hsub
    have hopen : ∀ e ∈ ys, J.decided e.data = none := fun e he => h e (hsub e he)
    exact run_call_withHints hJ hopen (hrun ys hlt hopen)
  have hsplit := Task.run_andThen
    (hhalf (xs.take (xs.length / 2)) (by simp only [List.length_take]; omega) fun e he => List.mem_of_mem_take he)
    (hhalf (xs.drop (xs.length / 2)) (by simp only [List.length_drop]; omega) fun e he => List.mem_of_mem_drop he)
  have htake : (withHints J xs).take ((withHints J xs).length / 2) = withHints J (xs.take (xs.length / 2)) := by
    simp [withHints, List.map_take]
  have hdrop : (withHints J xs).drop ((withHints J xs).length / 2) = withHints J (xs.drop (xs.length / 2)) := by
    simp [withHints, List.map_drop]
  rw [remaining, htake, hdrop, hsplit, Judge.answers, Judge.answers, ← List.map_append, List.take_append_drop]
  · rfl
  · intro hnil
    simp only [withHints, List.map_eq_nil_iff] at hnil
    simp [hnil] at hlen
  · intro elt hint hone
    have := congrArg List.length hone
    simp only [withHints, List.length_map, List.length_singleton] at this
    omega

theorem verdicts_length (b : Bool) (ps : List (Elt α)) : ps.length = (verdicts J b ps).length := by
  simp [verdicts]

/-- A batch that is accepted as a whole. -/
theorem run_accepted {ps : List (Elt α)} (h : ∀ e ∈ ps, J.ok e.data = true) :
    (determineOutcome ps (verdicts J true ps)).run v = .ok (J.answers ps) := by
  have hnone : (remaining ([] : List (Elt α × π))).run v = .ok [] := rfl
  rw [determineOutcome_eq (verdicts_length true ps), potentiallyInvalid_of_accepted, run_fillKnown hnone,
    known_of_accepted h, List.append_nil]

/-- A batch that is not: what is known, and then what is left. -/
theorem run_refused {ps : List (Elt α)} {fills : List (Nat × Answer ρ)}
    (h : (remaining (withHints J (openElts J ps))).run v = .ok fills) :
    (determineOutcome ps (verdicts J false ps)).run v =
      .ok (J.answers (ps.filter fun e => (J.decided e.data).isSome) ++ fills) := by
  rw [determineOutcome_eq (verdicts_length false ps), potentiallyInvalid_of_refused, ← known_of_refused]
  exact run_fillKnown h

/-- Open elements are verified until each has the judge's answer. -/
theorem run_determineOutcome_open (hJ : J.Judges v) (n : Nat) : ∀ ps : List (Elt α), ps.length ≤ n →
    (∀ e ∈ ps, J.decided e.data = none) →
    (determineOutcome ps (verdicts J (ps.all fun e => J.ok e.data) ps)).run v = .ok (J.answers ps) := by
  induction n with
  | zero =>
    intro ps hn _
    obtain rfl := List.length_eq_zero_iff.1 (Nat.le_zero.1 hn)
    exact run_accepted (by simp)
  | succ n ih =>
    intro ps hn hopen
    cases hb : ps.all fun e => J.ok e.data with
    | true => exact run_accepted (List.all_eq_true.1 hb)
    | false =>
      have hnone : ps.filter (fun e => (J.decided e.data).isSome) = [] := by
        rw [List.filter_eq_nil_iff]
        intro e he
        simp [hopen e he]
      have hall : openElts J ps = ps := List.filter_eq_self.2 fun e he => by simp [hopen e he]
      have hrest : (remaining (withHints J (openElts J ps))).run v = .ok (J.answers ps) := by
        rw [hall]
        rcases ps with _ | ⟨e, _ | ⟨e', ps⟩⟩
        · rfl
        · have hdecided := hopen e (List.mem_singleton_self e)
          have hok : J.ok e.data = false := by simpa using hb
          simp [withHints, remaining, Task.run, Judge.answers, Judge.answer, hdecided, hok]
        · refine run_remaining hJ hopen (by simp) fun ys hlt hys => ih ys ?_ hys
          simp only [List.length_cons] at hlt hn ⊢
          omega
      rw [run_refused hrest, hnone]
      rfl

/-- A separable batch ends with the judge's answers, in some order. -/
theorem run_separable (hJ : J.Judges v) {ps : List (Elt α)} (h : J.Separable ps) :
    ∃ fills, (determineOutcome ps (verdicts J (ps.all fun e => J.ok e.data) ps)).run v = .ok fills ∧
      fills.Perm (J.answers ps) := by
  cases hb : ps.all fun e => J.ok e.data with
  | true => exact ⟨_, run_accepted (List.all_eq_true.1 hb), .refl _⟩
  | false =>
    have hopen : ∀ e ∈ openElts J ps, J.decided e.data = none := by
      intro e he
      simpa using (List.mem_filter.1 he).2
    have hrest : (remaining (withHints J (openElts J ps))).run v = .ok (J.answers (openElts J ps)) := by
      rcases hl : openElts J ps with _ | ⟨e, _ | ⟨e', l⟩⟩
      · rfl
      · have hdecided := hopen e (by simp [hl])
        have hok : J.ok e.data = false := by
          by_contra hok
          have := List.all_eq_true.2 (h e hl (by simpa using hok))
          rw [hb] at this
          cases this
        simp [withHints, remaining, Task.run, Judge.answers, Judge.answer, hdecided, hok]
      · rw [← hl]
        exact run_remaining hJ hopen (by simp [hl]) fun ys _ hys =>
          run_determineOutcome_open hJ _ ys (Nat.le_refl _) hys
    refine ⟨_, run_refused hrest, ?_⟩
    rw [Judge.answers, Judge.answers, Judge.answers, ← List.map_append]
    refine List.Perm.map _ ?_
    have hperm := List.filter_append_perm (fun e : Elt α => (J.decided e.data).isSome) ps
    simpa only [openElts, Option.not_isSome] using hperm

/-- A batch that is not separable: one item is left, and it is condemned. -/
theorem determineOutcome_of_not_separable {ps : List (Elt α)} (h : ¬ J.Separable ps) :
    ∃ e, openElts J ps = [e] ∧ J.ok e.data = true ∧
      determineOutcome ps (verdicts J (ps.all fun e => J.ok e.data) ps) =
        fillKnown (ps.zip (verdicts J false ps)) (.fill e.id (.error ()) .done) := by
  rw [Judge.Separable] at h
  push Not at h
  obtain ⟨e, he, hok, e', he', hbad⟩ := h
  have hb : (ps.all fun e => J.ok e.data) = false := by
    rw [List.all_eq_false]
    exact ⟨e', he', hbad⟩
  refine ⟨e, he, hok, ?_⟩
  rw [hb, determineOutcome_eq (verdicts_length false ps), potentiallyInvalid_of_refused, openElts, he]
  rfl

end

end Mina.Batcher
