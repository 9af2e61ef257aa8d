/-
Whole runs of the batcher: what holds whatever items come in between the
verifier's answers.

`Inv` follows the answers that are still to come of the batch that is being
verified (`post`): with those that are filled in and the elements that wait,
they are one for each item. `Judged` says that they are the judge's, as long
as the batch is separable.
-/
import Mina.NetworkPool.BatcherFacts

namespace Mina.Batcher

variable {α π ρ : Type}

/-! ## Batches -/

theorem takeCapacity_append (capacity : Int) (queue : List (Elt α)) :
    (takeCapacity capacity queue).1 ++ (takeCapacity capacity queue).2 = queue := by
  induction queue generalizing capacity with
  | nil => rfl
  | cons elt queue ih =>
    rw [takeCapacity]
    split
    · exact congrArg (elt :: ·) (ih _)
    · rfl

theorem takeBatch_append (K : Config α π ρ) (queue : List (Elt α)) :
    (takeBatch K queue).1 ++ (takeBatch K queue).2 = queue := by
  unfold takeBatch
  split
  · exact List.append_nil queue
  · exact takeCapacity_append _ queue

/-- A batch is not empty when the first element fits. -/
theorem takeBatch_ne_nil {K : Config α π ρ} {elt : Elt α} {queue : List (Elt α)}
    (h : ∀ m ∈ K.maxWeightPerCall, elt.weight ≤ m) : (takeBatch K (elt :: queue)).1 ≠ [] := by
  unfold takeBatch
  split
  · exact List.cons_ne_nil elt queue
  · next m hm =>
    rw [takeCapacity, if_pos (h m hm)]
    exact List.cons_ne_nil _ _

theorem orderProofs_perm (K : Config α π ρ) (proofs : List (Elt α)) : (orderProofs K proofs).Perm proofs := by
  unfold orderProofs
  split
  · exact .refl proofs
  · exact List.mergeSort_perm proofs _

theorem insertBefore_perm (compare : α → α → Ordering) (elt : Elt α) (queue : List (Elt α)) :
    (insertBefore compare elt queue).Perm (elt :: queue) := by
  induction queue with
  | nil => exact .refl _
  | cons e queue ih =>
    rw [insertBefore]
    split
    · exact .refl _
    · exact (ih.cons e).trans (.swap elt e queue)

theorem enqueue_perm (K : Config α π ρ) (elt : Elt α) (queue : List (Elt α)) :
    (enqueue K elt queue).Perm (elt :: queue) := by
  unfold enqueue
  split
  · exact List.perm_append_singleton elt queue
  · exact List.perm_append_singleton elt queue
  · exact insertBefore_perm _ elt queue

/-! ## Running to the next call -/

/-- Part of what is left to fill is filled; the rest comes after the next call. -/
theorem settle_ok {v : List (Input α π) → Exn (List (Verdict ρ π))} {t : Task α π ρ}
    {answers fills : List (Nat × Answer ρ)} (h : t.run v = .ok fills) (hn : ((answers ++ fills).map (·.1)).Nodup) :
    ∃ pre post, fills = pre ++ post ∧
      ((settle answers t = .ok (answers ++ pre, none) ∧ post = []) ∨
        ∃ input k res, settle answers t = .ok (answers ++ pre, some (input, k)) ∧ v input = .ok res ∧
          (k res).run v = .ok post) := by
  induction t generalizing answers fills with
  | done =>
    cases h
    exact ⟨[], [], rfl, .inl ⟨by rw [settle, List.append_nil], rfl⟩⟩
  | raise message => cases h
  | fill id answer rest ih =>
    obtain ⟨l, hl, h⟩ := Exn.andThen_eq_ok.1 h
    cases h
    have hid : id ∉ answers.map (·.1) := by
      intro hid
      rw [List.map_append] at hn
      exact List.disjoint_of_nodup_append hn hid (by simp)
    have hassoc : answers ++ (id, answer) :: l = (answers ++ [(id, answer)]) ++ l := by simp
    rw [hassoc] at hn
    obtain ⟨pre, post, rfl, hrest⟩ := ih hl hn
    refine ⟨(id, answer) :: pre, post, rfl, ?_⟩
    rw [settle, if_neg hid]
    simpa using hrest
  | call input k ih =>
    rw [Task.run] at h
    split at h
    · next res hres =>
      exact ⟨[], fills, rfl, .inr ⟨input, k, res, by rw [settle, List.append_nil], hres, h⟩⟩
    · cases h

/-- Filling in what is known of a batch and one more answer makes no call. -/
theorem settle_fillKnown {l : List (Elt α × Verdict ρ π)} {id : Nat} {answer : Answer ρ}
    {answers answers' : List (Nat × Answer ρ)} {next : List (Input α π) × (List (Verdict ρ π) → Task α π ρ)} :
    settle answers (fillKnown l (.fill id answer .done)) ≠ .ok (answers', some next) := by
  induction l generalizing answers with
  | nil =>
    simp only [fillKnown, settle]
    split <;> simp
  | cons p l ih =>
    obtain ⟨elt, r⟩ := p
    cases r with
    | valid r =>
      simp only [fillKnown, settle]
      split
      · simp
      · exact ih
    | invalid =>
      simp only [fillKnown, settle]
      split
      · simp
      · exact ih
    | potentiallyInvalid hint => exact ih

/-! ## The invariant -/

section

variable (K : Config α π ρ) (J : Judge α π ρ)

/-- An element stands for an item. -/
def Stands (items : List α) (e : Elt α) : Prop := items[e.id]? = some e.data

/-- The answers are the judge's. -/
def Right (items : List α) (answers : List (Nat × Answer ρ)) : Prop :=
  ∀ p ∈ answers, ∃ d, items[p.1]? = some d ∧ p.2 = J.answer d

/-- `post` is what is still to be filled in for the batch that is being
verified: every item has its answer, or will have it then, or waits. -/
structure Inv (items : List α) (s : State α π ρ) (post : List (Nat × Answer ρ)) : Prop where
  nextId : s.nextId = items.length
  ids : ((s.answers ++ post).map (·.1) ++ s.queue.map (·.id)).Perm (List.range items.length)
  queue : ∀ e ∈ s.queue, Stands items e ∧ e.weight = K.weight e.data
  waiting : s.status = .waiting → s.queue = [] ∧ post = []
  verifying : ∀ out input k, s.status = .verifying out input k →
    (∀ e ∈ out, Stands items e) ∧ ∃ res, K.verifier input = .ok res ∧ (k res).run K.verifier = .ok post

/-- What is filled in is right, and what is still to be filled in is right
if the batch is separable; a batch that is not is still at its first call. -/
structure Judged (items : List α) (s : State α π ρ) (post : List (Nat × Answer ρ)) : Prop where
  answers : Right J items s.answers
  separable : ∀ out input k, s.status = .verifying out input k → J.Separable out → Right J items post
  first : ∀ out input k, s.status = .verifying out input k → ¬ J.Separable out →
    input = (out.map (·.data)).map .init ∧ k = determineOutcome out

end

section

variable {K : Config α π ρ} {J : Judge α π ρ} {items : List α} {s : State α π ρ} {post : List (Nat × Answer ρ)}

theorem Inv.nodup (h : Inv K items s post) : ((s.answers ++ post).map (·.1)).Nodup :=
  (h.ids.nodup_iff.2 List.nodup_range).of_append_left

theorem right_answers {ps : List (Elt α)} (h : ∀ e ∈ ps, Stands items e) : Right J items (J.answers ps) := by
  intro p hp
  obtain ⟨e, he, rfl⟩ := List.mem_map.1 hp
  exact ⟨e.data, h e he, rfl⟩

theorem Right.append {l l' : List (Nat × Answer ρ)} (h : Right J items l) (h' : Right J items l') :
    Right J items (l ++ l') := by
  intro p hp
  rcases List.mem_append.1 hp with hp | hp
  · exact h p hp
  · exact h' p hp

/-- A first call, and what is filled in after it. -/
theorem first_call (hJ : J.Judges K.verifier) (ps : List (Elt α)) :
    ∃ res fills, K.verifier (ps.map fun e => .init e.data) = .ok res ∧
      (determineOutcome ps res).run K.verifier = .ok fills ∧ (fills.map (·.1)).Perm (ps.map (·.id)) ∧
      (J.Separable ps → fills.Perm (J.answers ps)) := by
  have hcall : K.verifier (ps.map fun e => .init e.data) = .ok (verdicts J (ps.all fun e => J.ok e.data) ps) := by
    have := hJ.init (ps.map (·.data))
    rw [List.all_map, List.map_map, List.map_map] at this
    exact this
  by_cases hsep : J.Separable ps
  · obtain ⟨fills, hrun, hperm⟩ := run_separable hJ hsep
    refine ⟨_, fills, hcall, hrun, ?_, fun _ => hperm⟩
    have hids : (J.answers ps).map (·.1) = ps.map (·.id) := by
      rw [Judge.answers, List.map_map]
      rfl
    exact hids ▸ hperm.map (·.1)
  · obtain ⟨e, he, hok, heq⟩ := determineOutcome_of_not_separable hsep
    refine ⟨_, _, hcall, by rw [heq]; exact run_fillKnown rfl, ?_, fun h => absurd h hsep⟩
    rw [known_of_refused, Judge.answers, List.map_append, List.map_map]
    have hperm := (List.filter_append_perm (fun e : Elt α => (J.decided e.data).isSome) ps).map (·.id)
    simp only [Option.not_isSome] at hperm
    rw [show ps.filter (fun e => (J.decided e.data).isNone) = [e] from he, List.map_append] at hperm
    exact hperm

theorem startVerifier_answers (s : State α π ρ) : (Batcher.startVerifier K s).answers = s.answers := by
  unfold Batcher.startVerifier
  split <;> rfl

theorem Inv.startVerifier (hJ : J.Judges K.verifier) (hnext : s.nextId = items.length)
    (hids : (s.answers.map (·.1) ++ s.queue.map (·.id)).Perm (List.range items.length))
    (hqueue : ∀ e ∈ s.queue, Stands items e ∧ e.weight = K.weight e.data) :
    ∃ post, Inv K items (Batcher.startVerifier K s) post ∧
      (Right J items s.answers → Judged J items (Batcher.startVerifier K s) post) := by
  unfold Batcher.startVerifier
  split
  · next hempty =>
    refine ⟨[], ⟨hnext, by simpa using hids, hqueue, fun _ => ⟨List.isEmpty_iff.1 hempty, rfl⟩, ?_⟩, ?_⟩
    · intro out input k h
      cases h
    · intro hright
      exact ⟨hright, fun _ _ _ h => (by cases h), fun _ _ _ h => (by cases h)⟩
  · have happend := takeBatch_append K s.queue
    have hperm := orderProofs_perm K (takeBatch K s.queue).1
    have hout : ∀ e ∈ orderProofs K (takeBatch K s.queue).1, Stands items e := by
      intro e he
      refine (hqueue e ?_).1
      rw [← happend]
      exact List.mem_append_left _ (hperm.mem_iff.1 he)
    obtain ⟨res, fills, hres, hrun, hfills, hsep⟩ := first_call hJ (orderProofs K (takeBatch K s.queue).1)
    refine ⟨fills, ⟨hnext, ?_, ?_, fun h => (by cases h), ?_⟩, fun hright => ⟨hright, ?_, ?_⟩⟩
    · refine List.Perm.trans ?_ hids
      rw [List.map_append, List.append_assoc]
      refine List.Perm.append_left _ ?_
      conv_rhs => rw [← happend, List.map_append]
      exact (hfills.trans (hperm.map _)).append_right _
    · intro e he
      refine hqueue e ?_
      rw [← happend]
      exact List.mem_append_right _ he
    · intro out input k h
      cases h
      exact ⟨hout, res, hres, hrun⟩
    · intro out input k h hs
      cases h
      intro p hp
      exact right_answers hout p ((hsep hs).mem_iff.1 hp)
    · intro out input k h _
      cases h
      exact ⟨by rw [List.map_map]; rfl, rfl⟩

theorem Stands.append {items : List α} {e : Elt α} (h : Stands items e) (d : α) : Stands (items ++ [d]) e := by
  obtain ⟨hlt, -⟩ := List.getElem?_eq_some_iff.1 h
  rw [Stands, List.getElem?_append_left hlt]
  exact h

theorem Right.append_item {l : List (Nat × Answer ρ)} (h : Right J items l) (d : α) : Right J (items ++ [d]) l := by
  intro p hp
  obtain ⟨d', hd', ha⟩ := h p hp
  obtain ⟨hlt, -⟩ := List.getElem?_eq_some_iff.1 hd'
  exact ⟨d', by rw [List.getElem?_append_left hlt]; exact hd', ha⟩

/-- An item comes in. -/
theorem Inv.verify (hJ : J.Judges K.verifier) (h : Inv K items s post) (d : α) :
    ∃ post', Inv K (items ++ [d]) (Batcher.verify K s d) post' ∧
      (Judged J items s post → Judged J (items ++ [d]) (Batcher.verify K s d) post') := by
  have hperm := enqueue_perm K ⟨s.nextId, d, K.weight d⟩ s.queue
  have hnext : s.nextId + 1 = (items ++ [d]).length := by rw [h.nextId, List.length_append]; rfl
  have hqueue : ∀ e ∈ enqueue K ⟨s.nextId, d, K.weight d⟩ s.queue,
      Stands (items ++ [d]) e ∧ e.weight = K.weight e.data := by
    intro e he
    rcases List.mem_cons.1 (hperm.mem_iff.1 he) with rfl | he
    · refine ⟨?_, rfl⟩
      rw [Stands, h.nextId, List.getElem?_append_right (Nat.le_refl _)]
      simp
    · exact ⟨(h.queue e he).1.append d, (h.queue e he).2⟩
  have hids : ((s.answers ++ post).map (·.1) ++ (enqueue K ⟨s.nextId, d, K.weight d⟩ s.queue).map (·.id)).Perm
      (List.range (items ++ [d]).length) := by
    rw [List.length_append, List.length_singleton, List.range_succ, ← h.nextId]
    refine ((hperm.map (·.id)).append_left _).trans ?_
    rw [List.map_cons]
    refine List.perm_middle.trans ((List.perm_append_singleton _ _).symm.trans ?_)
    rw [h.nextId]
    exact h.ids.append_right _
  unfold Batcher.verify
  simp only
  split
  · next out input k hstatus =>
    refine ⟨post, ⟨hnext, hids, hqueue, fun hw => ?_, ?_⟩, fun hjudged => ⟨hjudged.answers.append_item d, ?_, ?_⟩⟩
    · exact absurd (hstatus.symm.trans hw) (by simp)
    · intro out' input' k' hs
      obtain ⟨hout, hres⟩ := h.verifying out' input' k' hs
      exact ⟨fun e he => (hout e he).append d, hres⟩
    · exact fun out' input' k' hs hsep => (hjudged.separable out' input' k' hs hsep).append_item d
    · exact hjudged.first
  · next hstatus =>
    obtain ⟨hnil, rfl⟩ := h.waiting hstatus
    rw [List.append_nil] at hids
    obtain ⟨post', hinv, hjudged⟩ := Inv.startVerifier (s := { s with
      queue := enqueue K ⟨s.nextId, d, K.weight d⟩ s.queue, nextId := s.nextId + 1 }) hJ hnext hids hqueue
    exact ⟨post', hinv, fun hj => hjudged (hj.answers.append_item d)⟩

/-- The verifier answers: nothing is raised. -/
theorem Inv.returns (hJ : J.Judges K.verifier) (h : Inv K items s post) :
    ∃ s' post', Batcher.returns K s = .ok s' ∧ Inv K items s' post' ∧
      (Judged J items s post → (∀ out input k, s.status = .verifying out input k → J.Separable out) →
        Judged J items s' post') := by
  unfold Batcher.returns
  split
  · exact ⟨s, post, rfl, h, fun hj _ => hj⟩
  · next out input k hstatus =>
    obtain ⟨hout, res, hres, hrun⟩ := h.verifying out input k hstatus
    obtain ⟨pre, post', rfl, ⟨hsettle, rfl⟩ | ⟨input', k', res', hsettle, hres', hrun'⟩⟩ := settle_ok hrun h.nodup
    · rw [hres, Exn.andThen_ok, hsettle, Exn.andThen_ok]
      have hids := h.ids
      rw [List.append_nil] at hids
      obtain ⟨post'', hinv, hjudged⟩ := Inv.startVerifier (s := { s with answers := s.answers ++ pre }) hJ h.nextId
        hids h.queue
      refine ⟨_, post'', rfl, hinv, fun hj hsep => hjudged (hj.answers.append ?_)⟩
      have := hj.separable out input k hstatus (hsep out input k hstatus)
      rwa [List.append_nil] at this
    · rw [hres, Exn.andThen_ok, hsettle, Exn.andThen_ok]
      refine ⟨_, post', rfl, ⟨h.nextId, by rw [List.append_assoc]; exact h.ids, h.queue, fun hw => (by cases hw), ?_⟩,
        fun hj hsep => ?_⟩
      · intro out' input'' k'' hs
        cases hs
        exact ⟨hout, res', hres', hrun'⟩
      · have hright := hj.separable out input k hstatus (hsep out input k hstatus)
        refine ⟨hj.answers.append fun p hp => hright p (List.mem_append_left _ hp), ?_, ?_⟩
        · intro out' input'' k'' hs _
          cases hs
          exact fun p hp => hright p (List.mem_append_right _ hp)
        · intro out' input'' k'' hs hns
          cases hs
          exact absurd (hsep out input k hstatus) hns

theorem Inv.create : Inv K [] (create : State α π ρ) [] :=
  ⟨rfl, .refl _, by simp [Batcher.create], fun _ => ⟨rfl, rfl⟩, fun _ _ _ h => (by cases h)⟩

theorem Judged.create : Judged J [] (create : State α π ρ) [] :=
  ⟨by simp [Right, Batcher.create], fun _ _ _ h => (by cases h), fun _ _ _ h => (by cases h)⟩

end

/-! ## Runs -/

theorem submitted_append (l l' : List (Event α)) : submitted (l ++ l') = submitted l ++ submitted l' := by
  induction l with
  | nil => rfl
  | cons e l ih =>
    cases e with
    | verify d => rw [List.cons_append, submitted, submitted, ih, List.cons_append]
    | returns => rw [List.cons_append, submitted, submitted, ih]

section

variable (K : Config α π ρ) (J : Judge α π ρ)

/-- The condition on a step: the batch that is being verified is separable
when the verifier answers. -/
def Meets (s : State α π ρ) : Event α → Prop
  | .verify _ => True
  | .returns => ∀ out input k, s.status = .verifying out input k → J.Separable out

/-- Every step of the run meets the condition. -/
def MeetsAll (events : List (Event α)) : Prop :=
  ∀ pre e post, events = pre ++ e :: post → ∀ s, run K pre = .ok s → Meets J s e

/-- No item has two answers, and when nothing is being verified each has one. -/
structure AnsweredOnce (items : List α) (s : State α π ρ) : Prop where
  nodup : (s.answers.map (·.1)).Nodup
  submitted : ∀ p ∈ s.answers, p.1 < items.length
  all : s.status = .waiting → ∀ i < items.length, i ∈ s.answers.map (·.1)

end

section

variable {K : Config α π ρ} {J : Judge α π ρ}

theorem Inv.answeredOnce {items : List α} {s : State α π ρ} {post : List (Nat × Answer ρ)}
    (h : Inv K items s post) : AnsweredOnce items s := by
  have hmem : ∀ i, i ∈ (s.answers ++ post).map (·.1) ++ s.queue.map (·.id) ↔ i < items.length :=
    fun i => (h.ids.mem_iff (a := i)).trans List.mem_range
  refine ⟨?_, fun p hp => ?_, fun hw i hi => ?_⟩
  · have hn := h.nodup
    rw [List.map_append] at hn
    exact hn.of_append_left
  · refine (hmem p.1).1 ?_
    rw [List.map_append, List.append_assoc]
    exact List.mem_append_left _ (List.mem_map_of_mem hp)
  · obtain ⟨hq, hpost⟩ := h.waiting hw
    have hi := (hmem i).2 hi
    rwa [hq, hpost, List.append_nil, List.map_nil, List.append_nil] at hi

theorem MeetsAll.of_append {l l' : List (Event α)} (h : MeetsAll K J (l ++ l')) : MeetsAll K J l := by
  rintro pre e post rfl s hs
  exact h pre e (post ++ l') (by simp) s hs

theorem run_snoc (events : List (Event α)) (e : Event α) :
    run K (events ++ [e]) = (run K events).andThen fun s => step K s e := by
  rw [run, Exn.fold_append]
  refine congrArg _ (funext fun s => ?_)
  rw [Exn.fold]
  cases step K s e <;> rfl

/-- What one event does to a run. -/
theorem Inv.step (hJ : J.Judges K.verifier) {items : List α} {s : State α π ρ} {post : List (Nat × Answer ρ)}
    (h : Inv K items s post) (e : Event α) :
    ∃ s' post', Batcher.step K s e = .ok s' ∧ Inv K (items ++ submitted [e]) s' post' ∧
      (Judged J items s post → Meets J s e → Judged J (items ++ submitted [e]) s' post') := by
  cases e with
  | verify d =>
    obtain ⟨post', hinv, hjudged⟩ := h.verify hJ d
    exact ⟨_, post', rfl, hinv, fun hj _ => hjudged hj⟩
  | returns =>
    obtain ⟨s', post', hr, hinv, hjudged⟩ := h.returns hJ
    rw [submitted, submitted, List.append_nil]
    exact ⟨s', post', hr, hinv, hjudged⟩

theorem run_inv (hJ : J.Judges K.verifier) (events : List (Event α)) :
    ∃ s post, run K events = .ok s ∧ Inv K (submitted events) s post ∧
      (MeetsAll K J events → Judged J (submitted events) s post) := by
  induction events using List.reverseRecOn with
  | nil => exact ⟨create, [], rfl, Inv.create, fun _ => Judged.create⟩
  | append_singleton events e ih =>
    obtain ⟨s, post, hrun, hinv, hjudged⟩ := ih
    obtain ⟨s', post', hstep, hinv', hjudged'⟩ := hinv.step hJ e
    rw [submitted_append]
    refine ⟨s', post', by rw [run_snoc, hrun, Exn.andThen_ok, hstep], hinv', fun hm => ?_⟩
    exact hjudged' (hjudged hm.of_append) (hm events e [] rfl s hrun)

/-- A batch that is not separable gets a wrong answer when the verifier
answers its first call. -/
theorem Judged.condemned (hJ : J.Judges K.verifier) {items : List α} {s : State α π ρ}
    {post : List (Nat × Answer ρ)} (h : Inv K items s post) (hj : Judged J items s post)
    (hm : ¬ Meets J s .returns) {s' : State α π ρ} (hr : Batcher.returns K s = .ok s') :
    ¬ Right J items s'.answers := by
  simp only [Meets, not_forall] at hm
  obtain ⟨out, input, k, hstatus, hsep⟩ := hm
  obtain ⟨rfl, rfl⟩ := hj.first out input k hstatus hsep
  obtain ⟨hout, res, hres, hrun⟩ := h.verifying _ _ _ hstatus
  have hverdicts := hJ.init (out.map (·.data))
  rw [hres, List.all_map, List.map_map] at hverdicts
  obtain rfl : res = verdicts J (out.all fun e => J.ok e.data) out := Except.ok.inj hverdicts
  obtain ⟨e, he, hok, heq⟩ := determineOutcome_of_not_separable hsep
  have hpost : post = known (out.zip (verdicts J false out)) ++ [(e.id, .error ())] := by
    rw [heq, run_fillKnown (t := .fill e.id (.error ()) .done) (v := K.verifier) rfl] at hrun
    exact (Except.ok.inj hrun).symm
  rw [heq] at hrun
  unfold Batcher.returns at hr
  rw [hstatus] at hr
  simp only [hres, Exn.andThen_ok, heq] at hr
  obtain ⟨pre, post', hsplit, ⟨hsettle, rfl⟩ | ⟨input, k, res, hsettle, -⟩⟩ := settle_ok hrun h.nodup
  swap
  · exact absurd hsettle settle_fillKnown
  rw [List.append_nil] at hsplit
  subst hsplit
  rw [hsettle, Exn.andThen_ok] at hr
  cases hr
  intro hright
  have hmem := List.mem_filter.1 (show e ∈ openElts J out by rw [he]; exact List.mem_singleton_self e)
  obtain ⟨d, hd, hanswer⟩ := hright (e.id, .error ()) (by
    rw [startVerifier_answers, hpost]
    simp)
  have hdata : d = e.data := Option.some.inj (hd.symm.trans (hout e hmem.1))
  have hdecided : J.decided e.data = none := by simpa using hmem.2
  rw [hdata, Judge.answer, hdecided, hok] at hanswer
  cases hanswer

/-- **The batcher.** Whatever items come in and whenever the verifier
answers, nothing is raised and no item has two answers, and every item has
one when nothing is being verified. If the batches are separable when the
verifier answers, the answers are the judge's; and the next event of such a
run keeps them so exactly if it meets this condition too. -/
theorem run_judged (hJ : J.Judges K.verifier) (events : List (Event α)) :
    ∃ s, run K events = .ok s ∧ AnsweredOnce (submitted events) s ∧
      (MeetsAll K J events → Right J (submitted events) s.answers ∧
        ∀ e, ∃ s', Batcher.step K s e = .ok s' ∧
          (Right J (submitted (events ++ [e])) s'.answers ↔ Meets J s e)) := by
  obtain ⟨s, post, hrun, hinv, hjudged⟩ := run_inv (J := J) hJ events
  refine ⟨s, hrun, hinv.answeredOnce, fun hm => ⟨(hjudged hm).answers, fun e => ?_⟩⟩
  obtain ⟨s', post', hstep, hinv', hjudged'⟩ := hinv.step hJ e
  refine ⟨s', hstep, fun hright => ?_, fun hme => ?_⟩
  · cases e with
    | verify d => trivial
    | returns =>
      by_contra hme
      rw [submitted_append, submitted, submitted, List.append_nil] at hright
      exact Judged.condemned hJ hinv (hjudged hm) hme hstep hright
  · rw [submitted_append]
    exact (hjudged' (hjudged hm) hme).answers

/-! ## Termination -/

/-- The number of calls of a computation, when the verifier answers at once. -/
def Task.calls (v : List (Input α π) → Exn (List (Verdict ρ π))) : Task α π ρ → Nat
  | .done => 0
  | .fill _ _ rest => rest.calls v
  | .call input k =>
    match v input with
    | .ok res => (k res).calls v + 1
    | .error _ => 0
  | .raise _ => 0

theorem settle_calls {v : List (Input α π) → Exn (List (Verdict ρ π))} {t : Task α π ρ}
    {answers answers' : List (Nat × Answer ρ)} {input : List (Input α π)} {k : List (Verdict ρ π) → Task α π ρ}
    {res : List (Verdict ρ π)} (h : settle answers t = .ok (answers', some (input, k))) (hres : v input = .ok res) :
    t.calls v = (k res).calls v + 1 := by
  induction t generalizing answers with
  | done => simp [settle] at h
  | raise message => cases h
  | fill id answer rest ih =>
    rw [settle] at h
    split at h
    · cases h
    · exact ih h
  | call input' k' ih =>
    cases h
    rw [Task.calls, hres]

/-- From here on, enough answers of the verifier lead to a batcher that waits. -/
def Finishes (K : Config α π ρ) (s : State α π ρ) : Prop :=
  ∃ n s', Exn.fold (Batcher.step K) s (List.replicate n .returns) = .ok s' ∧ s'.status = .waiting

theorem Finishes.of_returns {s s' : State α π ρ} (hr : Batcher.returns K s = .ok s') (h : Finishes K s') :
    Finishes K s := by
  obtain ⟨n, s'', hfold, hw⟩ := h
  refine ⟨n + 1, s'', ?_, hw⟩
  rw [List.replicate_succ, Exn.fold]
  exact (Exn.andThen_of_ok hr _).trans hfold

/-- Starting the verifier leaves fewer elements in the queue, or nothing to do. -/
theorem startVerifier_shorter {s : State α π ρ} (h : ∀ e ∈ s.queue, ∀ m ∈ K.maxWeightPerCall, e.weight ≤ m) :
    (Batcher.startVerifier K s).status = .waiting ∨
      (Batcher.startVerifier K s).queue.length < s.queue.length := by
  unfold Batcher.startVerifier
  split
  · exact .inl rfl
  · next hne =>
    refine .inr ?_
    obtain ⟨elt, queue, hq⟩ : ∃ elt queue, s.queue = elt :: queue := by
      cases hq : s.queue with
      | nil => simp [hq] at hne
      | cons elt queue => exact ⟨elt, queue, rfl⟩
    have happend := congrArg List.length (takeBatch_append K s.queue)
    have hne : (takeBatch K (elt :: queue)).1 ≠ [] := takeBatch_ne_nil (h elt (by simp [hq]))
    rw [← hq] at hne
    have := List.length_pos_iff.2 hne
    rw [List.length_append] at happend
    simp only
    omega

theorem exists_calls (K : Config α π ρ) (s : State α π ρ) : ∃ c, ∀ out input k res,
    s.status = .verifying out input k → K.verifier input = .ok res → (k res).calls K.verifier ≤ c := by
  cases hstatus : s.status with
  | waiting => exact ⟨0, fun _ _ _ _ h => (by cases h)⟩
  | verifying out input k =>
    refine ⟨(Task.call input k).calls K.verifier, fun out' input' k' res h hres => ?_⟩
    cases h
    rw [Task.calls, hres]
    exact Nat.le_succ _

theorem Inv.finishes (hJ : J.Judges K.verifier) {items : List α}
    (hw : ∀ d ∈ items, ∀ m ∈ K.maxWeightPerCall, K.weight d ≤ m) (n : Nat) : ∀ (c : Nat) (s : State α π ρ)
    (post : List (Nat × Answer ρ)), Inv K items s post → s.queue.length ≤ n →
    (∀ out input k res, s.status = .verifying out input k → K.verifier input = .ok res →
      (k res).calls K.verifier ≤ c) → Finishes K s := by
  induction n using Nat.strongRecOn with
  | ind n ihn =>
  intro c
  induction c using Nat.strongRecOn with
  | ind c ihc =>
  intro s post h hlen hcalls
  cases hstatus : s.status with
  | waiting => exact ⟨0, s, rfl, hstatus⟩
  | verifying out input k =>
    obtain ⟨-, res, hres, hrun⟩ := h.verifying out input k hstatus
    obtain ⟨s', post', hr, hinv, -⟩ := h.returns hJ
    refine Finishes.of_returns hr ?_
    have hr' := hr
    unfold Batcher.returns at hr'
    rw [hstatus] at hr'
    simp only [hres, Exn.andThen_ok] at hr'
    obtain ⟨pre, rest, -, ⟨hsettle, -⟩ | ⟨input', k', res', hsettle, hres', -⟩⟩ := settle_ok hrun h.nodup
    · rw [hsettle, Exn.andThen_ok] at hr'
      cases hr'
      have hweights : ∀ e ∈ s.queue, ∀ m ∈ K.maxWeightPerCall, e.weight ≤ m := by
        intro e he m hm
        obtain ⟨hstands, hweight⟩ := h.queue e he
        rw [hweight]
        exact hw e.data (List.mem_of_getElem? hstands) m hm
      rcases startVerifier_shorter (K := K) (s := { s with answers := s.answers ++ pre }) hweights with
        hwaits | hshort
      · exact ⟨0, _, rfl, hwaits⟩
      · obtain ⟨c', hc'⟩ := exists_calls K (Batcher.startVerifier K { s with answers := s.answers ++ pre })
        exact ihn _ (Nat.lt_of_lt_of_le hshort hlen) c' _ _ hinv (Nat.le_refl _) hc'
    · rw [hsettle, Exn.andThen_ok] at hr'
      cases hr'
      have hless := settle_calls hsettle hres'
      have hle := hcalls out input k res hstatus hres
      refine ihc ((k' res').calls K.verifier) (by omega) _ _ hinv hlen ?_
      intro out'' input'' k'' res'' hs hres''
      cases hs
      rw [hres'] at hres''
      cases hres''
      exact Nat.le_refl _

/-- **The batcher comes to rest.** When every item fits a batch of its own,
enough answers of the verifier after any run leave nothing to verify, and
then every item has its answer. -/
theorem run_finishes (hJ : J.Judges K.verifier) (events : List (Event α))
    (hw : ∀ d ∈ submitted events, ∀ m ∈ K.maxWeightPerCall, K.weight d ≤ m) :
    ∃ n s, run K (events ++ List.replicate n .returns) = .ok s ∧ s.status = .waiting ∧
      ∀ i < (submitted events).length, i ∈ s.answers.map (·.1) := by
  obtain ⟨s, post, hrun, hinv, -⟩ := run_inv (J := J) hJ events
  obtain ⟨c, hc⟩ := exists_calls K s
  obtain ⟨n, s', hfold, hwaits⟩ := hinv.finishes hJ hw _ c s post (Nat.le_refl _) hc
  have hrun' : run K (events ++ List.replicate n .returns) = .ok s' := by
    rw [run, Exn.fold_append]
    exact (Exn.andThen_of_ok hrun _).trans hfold
  have hsubmitted : submitted (events ++ List.replicate n .returns) = submitted events := by
    rw [submitted_append]
    have hnone : ∀ n, submitted (List.replicate n (.returns : Event α)) = [] := by
      intro n
      induction n with
      | zero => rfl
      | succ n ih => exact ih
    rw [hnone, List.append_nil]
  obtain ⟨s'', post'', hrun'', hinv'', -⟩ := run_inv (J := J) hJ (events ++ List.replicate n .returns)
  rw [hsubmitted] at hinv''
  cases hrun'.symm.trans hrun''
  exact ⟨n, s', hrun', hwaits, hinv''.answeredOnce.all hwaits⟩

end

end Mina.Batcher
