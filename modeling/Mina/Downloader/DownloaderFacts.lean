/-
What the operations of the downloader do to the queue, the table of downloading
jobs and the result variables: one lemma for each, with those for a batch by
induction on its jobs.
-/
import Mina.Downloader.Downloader

namespace Mina.Downloader

variable {K P A R : Type} [LinearOrder K] [DecidableEq P]

/-! ## The queue -/

/-- By key, and no key twice. -/
def Sorted (queue : List (Job K P A)) : Prop := queue.Pairwise fun a b => a.key < b.key

section Queue

variable {queue queue' : List (Job K P A)} {e : Job K P A} {k : K}

omit [DecidableEq P] in
theorem Sorted.unique (h : Sorted queue) {x y : Job K P A} (hx : x ∈ queue) (hy : y ∈ queue) (hkey : x.key = y.key) :
    x = y := by
  induction queue with
  | nil => cases hx
  | cons z queue ih =>
    obtain ⟨hz, h⟩ := List.pairwise_cons.1 h
    rcases List.mem_cons.1 hx with rfl | hx' <;> rcases List.mem_cons.1 hy with rfl | hy'
    · rfl
    · exact absurd hkey (hz y hy').ne
    · exact absurd hkey (hz x hx').ne'
    · exact ih h hx' hy'

omit [DecidableEq P] in
theorem Sorted.nodup (h : Sorted queue) : (queue.map (·.key)).Nodup := by
  rw [List.Nodup, List.pairwise_map]
  exact h.imp fun hlt => hlt.ne

omit [DecidableEq P] in
theorem mem_insert {y : Job K P A} : y ∈ Q.insert e queue ↔ y = e ∨ y ∈ queue := by
  induction queue with
  | nil => rw [Q.insert, List.mem_singleton, or_iff_left List.not_mem_nil]
  | cons x queue ih =>
    unfold Q.insert
    split
    next => exact List.mem_cons
    next => rw [List.mem_cons, ih, List.mem_cons, or_left_comm]

omit [DecidableEq P] in
theorem Sorted.insert (h : Sorted queue) (hnew : ∀ x ∈ queue, x.key ≠ e.key) : Sorted (Q.insert e queue) := by
  induction queue with
  | nil => exact List.pairwise_singleton _ _
  | cons x queue ih =>
    obtain ⟨hx, h⟩ := List.pairwise_cons.1 h
    unfold Q.insert
    split
    next hlt =>
      refine List.pairwise_cons.2 ⟨fun y hy => ?_, List.pairwise_cons.2 ⟨hx, h⟩⟩
      rcases List.mem_cons.1 hy with rfl | hy
      · exact hlt
      · exact hlt.trans (hx y hy)
    next hlt =>
      refine List.pairwise_cons.2 ⟨fun y hy => ?_, ih h fun y hy => hnew y (List.mem_cons_of_mem _ hy)⟩
      rcases mem_insert.1 hy with rfl | hy
      · exact lt_of_le_of_ne (not_lt.1 hlt) (hnew x List.mem_cons_self)
      · exact hx y hy

omit [DecidableEq P] in
theorem enqueue_eq_some : Q.enqueue queue e = some queue' ↔ (∀ x ∈ queue, x.key ≠ e.key) ∧ Q.insert e queue = queue' := by
  unfold Q.enqueue
  split
  next hany =>
    obtain ⟨x, hx, hkey⟩ := List.any_eq_true.1 hany
    refine iff_of_false (fun h => by cases h) fun h => h.1 x hx (of_decide_eq_true hkey)
  next hany =>
    rw [Option.some.injEq]
    refine (and_iff_right fun x hx hkey => hany ?_).symm
    exact List.any_eq_true.2 ⟨x, hx, decide_eq_true hkey⟩

omit [DecidableEq P] in
theorem mem_remove {y : Job K P A} : y ∈ Q.remove queue k ↔ y ∈ queue ∧ y.key ≠ k := by
  rw [Q.remove, List.mem_filter, decide_eq_true_iff]

omit [DecidableEq P] in
theorem lookup_eq_none : Q.lookup queue k = none ↔ ∀ x ∈ queue, x.key ≠ k := by
  rw [Q.lookup, List.find?_eq_none]
  simp only [decide_eq_true_iff]

omit [DecidableEq P] in
theorem lookup_some {x : Job K P A} (h : Q.lookup queue k = some x) : x ∈ queue ∧ x.key = k := by
  unfold Q.lookup at h
  exact ⟨List.mem_of_find?_eq_some h, of_decide_eq_true (List.find?_some h :)⟩

omit [DecidableEq P] in
/-- A batch is taken out. -/
theorem mem_removeAll {y : Job K P A} : ∀ {xs queue : List (Job K P A)},
    y ∈ xs.foldl (fun queue j => Q.remove queue j.key) queue ↔ y ∈ queue ∧ ∀ x ∈ xs, x.key ≠ y.key
  | [], queue => by simp
  | x :: xs, queue => by
    rw [List.foldl_cons, mem_removeAll, mem_remove, List.forall_mem_cons, and_assoc, ne_comm (a := y.key)]

omit [DecidableEq P] in
theorem Sorted.remove (h : Sorted queue) (k : K) : Sorted (Q.remove queue k) :=
  List.Pairwise.sublist List.filter_sublist h

omit [DecidableEq P] in
theorem Sorted.removeAll : ∀ (xs : List (Job K P A)) {queue : List (Job K P A)}, Sorted queue →
    Sorted (xs.foldl (fun queue j => Q.remove queue j.key) queue)
  | [], _, h => h
  | x :: xs, _, h => Sorted.removeAll xs (h.remove x.key)

end Queue

/-! ## The tables -/

section Tables

variable {t : T K P A R} {k : K} {x : Job K P A}

omit [LinearOrder K] [DecidableEq P] in
theorem fillIfEmpty_eq (t : T K P A R) (res : Nat) (y : Filled P A R) :
    fillIfEmpty t res y =
      { t with results := fun i => if i = res then (t.results i).or (some y) else t.results i } := by
  unfold fillIfEmpty
  split
  next hnone =>
    congr 1
    funext i
    by_cases hi : i = res
    · rw [hi, Function.update_self, if_pos rfl, hnone, Option.none_or]
    · rw [Function.update_of_ne hi, if_neg hi]
  next z hsome =>
    have hsame : (fun i => if i = res then (t.results i).or (some y) else t.results i) = t.results := by
      funext i
      by_cases hi : i = res
      · rw [if_pos hi, hi, hsome, Option.some_or]
      · rw [if_neg hi]
    rw [hsame]

omit [DecidableEq P] in
theorem jobFinished_eq (t : T K P A R) (j : Job K P A) (y : Filled P A R) :
    jobFinished t j y =
      { t with
        downloading := fun k => if k = j.key then none else t.downloading k
        results := fun i => if i = j.res then (t.results i).or (some y) else t.results i } := by
  rw [jobFinished, fillIfEmpty_eq, removeDownloading]
  congr 1
  funext k
  exact Function.update_apply _ _ _ _

omit [DecidableEq P] in
theorem removeAll_eq : ∀ (xs : List (Job K P A)) (t : T K P A R),
    xs.foldl (fun t j => removeDownloading t j.key) t =
      { t with downloading := fun k => if k ∈ xs.map (·.key) then none else t.downloading k }
  | [], t => by simp
  | x :: xs, t => by
    rw [List.foldl_cons, removeAll_eq xs, removeDownloading]
    congr 1
    funext k
    dsimp only
    by_cases hk : k = x.key
    · rw [hk, Function.update_self, ite_self, List.map_cons, if_pos List.mem_cons_self]
    · simp only [List.map_cons, List.mem_cons, hk, false_or, Function.update_of_ne hk]

omit [LinearOrder K] [DecidableEq P] in
theorem killAll_eq : ∀ (xs : List (Job K P A)) (t : T K P A R),
    xs.foldl killJob t =
      { t with results := fun i => if i ∈ xs.map (·.res) then (t.results i).or (some .finished) else t.results i }
  | [], t => by simp
  | x :: xs, t => by
    rw [List.foldl_cons, killAll_eq xs, killJob, fillIfEmpty_eq]
    congr 1
    funext i
    dsimp only
    by_cases hi : i = x.res
    · rw [hi, if_pos rfl, List.map_cons, if_pos List.mem_cons_self]
      cases t.results x.res <;> simp
    · simp only [List.map_cons, List.mem_cons, hi, false_or, if_false]

omit [DecidableEq P] in
theorem setAll_of_not_mem {peer : P} : ∀ {xs : List (Job K P A)} {d : K → Option (P × Job K P A)},
    (∀ x ∈ xs, x.key ≠ k) → xs.foldl (setDownloading peer) d k = d k
  | [], _, _ => rfl
  | y :: xs, d, h => by
    obtain ⟨hy, h⟩ := List.forall_mem_cons.1 h
    rw [List.foldl_cons, setAll_of_not_mem h, setDownloading, Function.update_of_ne hy.symm]

omit [DecidableEq P] in
/-- The jobs of a batch, each under its key. -/
theorem setAll_of_mem {peer : P} : ∀ {xs : List (Job K P A)} {d : K → Option (P × Job K P A)},
    (xs.map (·.key)).Nodup → x ∈ xs →
      xs.foldl (setDownloading peer) d x.key = some (peer, x)
  | y :: xs, d, hnodup, hx => by
    rw [List.map_cons, List.nodup_cons] at hnodup
    rw [List.foldl_cons]
    rcases List.mem_cons.1 hx with rfl | hx
    · rw [setAll_of_not_mem, setDownloading, Function.update_self]
      exact fun z hz hkey => hnodup.1 (hkey ▸ List.mem_map_of_mem hz)
    · exact setAll_of_mem hnodup.2 hx

end Tables

/-! ## Answers -/

section Answers

variable {keyOf : R → K} {attemptDownload : A} {peer : P}

/-- A job with the attempt at a peer. -/
def Job.tried (attemptDownload : A) (peer : P) (x : Job K P A) : Job K P A :=
  { x with attempts := Function.update x.attempts peer (some attemptDownload) }

theorem retry_eq_ok {t t' : T K P A R} {x : Job K P A} :
    retry attemptDownload peer t x = .ok t' ↔ (∀ y ∈ t.pending, y.key ≠ x.key) ∧
      { t with pending := Q.insert (x.tried attemptDownload peer) t.pending } = t' := by
  unfold retry enqueueExn
  split
  next pending hpending =>
    obtain ⟨hnew, rfl⟩ := enqueue_eq_some.1 hpending
    rw [Except.ok.injEq]
    exact (and_iff_right hnew).symm
  next hnone =>
    refine iff_of_false (fun h => by cases h) fun h => ?_
    have hsome := (enqueue_eq_some (e := x.tried attemptDownload peer)).2 ⟨h.1, rfl⟩
    rw [Job.tried, hnone] at hsome
    cases hsome

/-- What a batch that goes back to the queue leaves. -/
theorem retryAll_eq_ok : ∀ {xs : List (Job K P A)} {t t' : T K P A R},
    Exn.fold (retry attemptDownload peer) t xs = .ok t' →
      (∃ pending, t' = { t with pending } ∧ (Sorted t.pending → Sorted pending) ∧
        ∀ y, y ∈ pending ↔ y ∈ t.pending ∨ ∃ x ∈ xs, y = x.tried attemptDownload peer)
  | [], t, t', h => by
    cases h
    exact ⟨t.pending, rfl, id, fun y => by simp⟩
  | x :: xs, t, t', h => by
    obtain ⟨t₁, hx, h⟩ := Exn.fold_cons_eq_ok.1 h
    obtain ⟨hnew, rfl⟩ := retry_eq_ok.1 hx
    obtain ⟨pending, rfl, hsorted, hmem⟩ := retryAll_eq_ok h
    refine ⟨pending, rfl, fun h => hsorted (h.insert hnew), fun y => ?_⟩
    rw [hmem, mem_insert, List.exists_mem_cons_iff, or_comm (a := y = _), or_assoc]

/-- Jobs with keys of their own that are not pending go back to the queue. -/
theorem retryAll_ok : ∀ {xs : List (Job K P A)} {t : T K P A R}, (xs.map (·.key)).Nodup →
    (∀ x ∈ xs, ∀ y ∈ t.pending, y.key ≠ x.key) → ∃ t', Exn.fold (retry attemptDownload peer) t xs = .ok t'
  | [], t, _, _ => ⟨t, rfl⟩
  | x :: xs, t, hnodup, hnew => by
    rw [List.map_cons, List.nodup_cons] at hnodup
    obtain ⟨hx, hnew⟩ := List.forall_mem_cons.1 hnew
    obtain ⟨t', ht'⟩ := retryAll_ok (t := { t with pending := Q.insert (x.tried attemptDownload peer) t.pending })
      hnodup.2 fun z hz y hy => by
        rcases mem_insert.1 hy with rfl | hy
        · exact fun hkey => hnodup.1 (List.mem_map.2 ⟨z, hz, hkey.symm⟩)
        · exact hnew z hz y hy
    exact ⟨t', Exn.fold_cons_eq_ok.2 ⟨_, retry_eq_ok.2 ⟨hx, rfl⟩, ht'⟩⟩

/-- Jobs that are not downloading are only enqueued. -/
theorem removeRetry_eq : ∀ {xs : List (Job K P A)} {t : T K P A R}, (∀ x ∈ xs, t.downloading x.key = none) →
    Exn.fold (fun t x => retry attemptDownload peer (removeDownloading t x.key) x) t xs =
      Exn.fold (retry attemptDownload peer) t xs
  | [], _, _ => rfl
  | x :: xs, t, h => by
    obtain ⟨hx, h⟩ := List.forall_mem_cons.1 h
    have hsame : removeDownloading t x.key = t := by
      rw [removeDownloading, ← hx, Function.update_eq_self]
    rw [Exn.fold, Exn.fold, hsame]
    cases hstep : retry attemptDownload peer t x with
    | error e => rfl
    | ok t' =>
      obtain ⟨-, rfl⟩ := retry_eq_ok.1 hstep
      exact removeRetry_eq h

/-- What the results of an answer do: each of the jobs with a result gets the
first one with its key, unless it is filled already. -/
structure Handled (keyOf : R → K) (peer : P) (rs : List R) (t : T K P A R) (jobs : List (Job K P A))
    (acc : T K P A R × List (Job K P A)) : Prop where
  sublist : acc.2.Sublist jobs
  left : ∀ x, x ∈ acc.2 ↔ x ∈ jobs ∧ x.key ∉ rs.map keyOf
  pending : acc.1.pending = t.pending
  maxBatchSize : acc.1.maxBatchSize = t.maxBatchSize
  nextRes : acc.1.nextRes = t.nextRes
  removed : ∀ k, acc.1.downloading k = none ∨ acc.1.downloading k = t.downloading k
  other : ∀ k, k ∉ jobs.map (·.key) → acc.1.downloading k = t.downloading k
  results : ∀ i, acc.1.results i = t.results i ∨ t.results i = none ∧
    ∃ x ∈ jobs, ∃ r ∈ rs, x.res = i ∧ keyOf r = x.key ∧ acc.1.results i = some (.ok r peer x.attempts)
  filled : ∀ x ∈ jobs, x.key ∈ rs.map keyOf → (acc.1.results x.res).isSome = true

omit [LinearOrder K] [DecidableEq P] in
theorem Handled.mono {rs : List R} {t : T K P A R} {jobs : List (Job K P A)} {acc : T K P A R × List (Job K P A)}
    (h : Handled keyOf peer rs t jobs acc) {i : Nat} (hi : (t.results i).isSome = true) :
    acc.1.results i = t.results i := by
  rcases h.results i with hsame | ⟨hnone, -⟩
  · exact hsame
  · rw [hnone] at hi
    cases hi

omit [DecidableEq P] in
theorem handleResults : ∀ (rs : List R) {t : T K P A R} {jobs : List (Job K P A)}, (jobs.map (·.key)).Nodup →
    Handled keyOf peer rs t jobs (rs.foldl (handleResult keyOf peer) (t, jobs))
  | [], t, jobs, _ => by
    exact ⟨.refl _, fun x => (and_iff_left List.not_mem_nil).symm, rfl, rfl, rfl, fun _ => .inr rfl, fun _ _ => rfl,
      fun _ => .inl rfl, fun x _ hx => absurd hx List.not_mem_nil⟩
  | r :: rs, t, jobs, hnodup => by
    rw [List.foldl_cons, handleResult]
    split
    next hnone =>
      have hno : ∀ x ∈ jobs, x.key ≠ keyOf r := fun x hx hkey =>
        List.find?_eq_none.1 hnone x hx (decide_eq_true hkey)
      have ih := handleResults rs (t := t) hnodup
      have hkeys : ∀ x ∈ jobs, (x.key ∈ (r :: rs).map keyOf ↔ x.key ∈ rs.map keyOf) := fun x hx => by
        rw [List.map_cons, List.mem_cons, or_iff_right (hno x hx)]
      refine ⟨ih.sublist, fun x => (ih.left x).trans (and_congr_right fun hx => not_congr (hkeys x hx).symm), ih.pending,
        ih.maxBatchSize, ih.nextRes, ih.removed, ih.other, fun i => ?_,
        fun x hx hkey => ih.filled x hx ((hkeys x hx).1 hkey)⟩
      refine (ih.results i).imp_right fun ⟨hi, x, hx, r', hr', h⟩ => ⟨hi, x, hx, r', List.mem_cons_of_mem _ hr', h⟩
    next j hj =>
      have hmem := List.mem_of_find?_eq_some hj
      have hkey : j.key = keyOf r := of_decide_eq_true (List.find?_some hj :)
      have hunique : ∀ x ∈ jobs, x.key = j.key → x = j := fun x hx heq =>
        List.inj_on_of_nodup_map hnodup hx hmem heq
      have hfinished := jobFinished_eq t j (.ok r peer j.attempts)
      generalize jobFinished t j (.ok r peer j.attempts) = t₁ at hfinished ⊢
      have hdownloading : ∀ k, t₁.downloading k = if k = j.key then none else t.downloading k := fun k => by
        rw [hfinished]
      have hresults : ∀ i, t₁.results i =
          if i = j.res then (t.results i).or (some (.ok r peer j.attempts)) else t.results i := fun i => by
        rw [hfinished]
      have ih := handleResults rs (t := t₁)
        ((List.filter_sublist.map _).nodup hnodup : ((jobs.filter fun x => x.key ≠ j.key).map (·.key)).Nodup)
      refine ⟨ih.sublist.trans List.filter_sublist, fun x => ?_, ih.pending.trans (by rw [hfinished]), ih.maxBatchSize.trans (by rw [hfinished]),
        ih.nextRes.trans (by rw [hfinished]), fun k => ?_, fun k hk => ?_, fun i => ?_, fun x hx hx' => ?_⟩
      · rw [ih.left, List.mem_filter, decide_eq_true_iff, List.map_cons, List.mem_cons, ← hkey, not_or, and_assoc]
      · rcases ih.removed k with hnone | hsame
        · exact .inl hnone
        · rw [hsame, hdownloading]
          split
          next => exact .inl rfl
          next => exact .inr rfl
      · have hne : k ≠ j.key := fun heq => hk (heq ▸ List.mem_map_of_mem hmem)
        rw [ih.other k fun hk' => ?_, hdownloading, if_neg hne]
        obtain ⟨x, hx, rfl⟩ := List.mem_map.1 hk'
        exact hk (List.mem_map_of_mem (List.mem_filter.1 hx).1)
      · rcases ih.results i with hsame | ⟨hnone, x, hx, r', hr', hx'⟩
        · rw [hresults] at hsame
          split at hsame
          next hi =>
            cases hold : t.results i with
            | some y =>
              rw [hold, Option.some_or] at hsame
              exact .inl hsame
            | none =>
              rw [hold, Option.none_or] at hsame
              exact .inr ⟨rfl, j, hmem, r, List.mem_cons_self, hi.symm, hkey.symm, hsame⟩
          next => exact .inl hsame
        · rw [hresults] at hnone
          refine .inr ⟨?_, x, (List.mem_filter.1 hx).1, r', List.mem_cons_of_mem _ hr', hx'⟩
          split at hnone
          next => exact (Option.or_eq_none_iff.1 hnone).1
          next => exact hnone
      · by_cases heq : x.key = j.key
        · obtain rfl := hunique x hx heq
          have hfilled : (t₁.results x.res).isSome = true := by
            rw [hresults, if_pos rfl]
            cases t.results x.res <;> rfl
          rw [ih.mono hfilled]
          exact hfilled
        · refine ih.filled x (List.mem_filter.2 ⟨hx, decide_eq_true heq⟩) ?_
          rw [List.map_cons, List.mem_cons, ← hkey] at hx'
          exact hx'.resolve_left heq

end Answers

/-! ## A batch comes back -/

/-- The outcome has a result for a key, or needs none. -/
def Outcome.Covers (keyOf : R → K) : Outcome R → K → Prop
  | .stopped, _ => True
  | .notStopped .error, _ => False
  | .notStopped (.ok rs), k => k ∈ rs.map keyOf

/-- What is put into a result variable when a batch comes back. -/
def Outcome.Gives (keyOf : R → K) (peer : P) (k : K) : Outcome R → Filled P A R → Prop
  | .stopped, x => x = .finished
  | .notStopped .error, _ => False
  | .notStopped (.ok rs), x => ∃ r ∈ rs, keyOf r = k ∧ ∃ attempts, x = .ok r peer attempts

/-- What a batch that comes back does: none of its keys is downloading any
more, the jobs that are not covered go back to the queue, and the others are
filled. -/
structure Finished (keyOf : R → K) (attemptDownload : A) (t : T K P A R) (peer : P) (xs : List (Job K P A))
    (outcome : Outcome R) (t' : T K P A R) : Prop where
  sorted : Sorted t.pending → Sorted t'.pending
  pending : ∀ y, y ∈ t'.pending ↔
    y ∈ t.pending ∨ ∃ x ∈ xs, ¬ outcome.Covers keyOf x.key ∧ y = x.tried attemptDownload peer
  downloading : ∀ k, t'.downloading k = if k ∈ xs.map (·.key) then none else t.downloading k
  nextRes : t'.nextRes = t.nextRes
  results : ∀ i, t'.results i = t.results i ∨ t.results i = none ∧ ∃ x ∈ xs, x.res = i ∧ outcome.Covers keyOf x.key ∧
    ∃ y, t'.results i = some y ∧ outcome.Gives keyOf peer x.key y
  filled : ∀ x ∈ xs, outcome.Covers keyOf x.key → (t'.results x.res).isSome = true

section Finish

variable {keyOf : R → K} {attemptDownload : A} {t t' : T K P A R} {peer : P} {xs : List (Job K P A)}

theorem finishDownload_stopped (h : finishDownload keyOf attemptDownload t peer xs .stopped = .ok t') :
    Finished keyOf attemptDownload t peer xs .stopped t' := by
  rw [finishDownload, removeAll_eq, killAll_eq, Except.ok.injEq] at h
  subst h
  refine ⟨id, fun y => ?_, fun k => rfl, rfl, fun i => ?_, fun x hx _ => ?_⟩
  · exact (or_iff_left fun ⟨x, _, hnot, _⟩ => hnot trivial).symm
  · by_cases hi : i ∈ xs.map (·.res)
    · obtain ⟨x, hx, rfl⟩ := List.mem_map.1 hi
      dsimp only
      rw [if_pos hi]
      cases hold : t.results x.res with
      | some y => exact .inl rfl
      | none => exact .inr ⟨rfl, x, hx, rfl, trivial, .finished, rfl, rfl⟩
    · exact .inl (if_neg hi)
  · dsimp only
    rw [if_pos (List.mem_map_of_mem hx)]
    cases t.results x.res <;> rfl

theorem finishDownload_error (h : finishDownload keyOf attemptDownload t peer xs (.notStopped .error) = .ok t') :
    Finished keyOf attemptDownload t peer xs (.notStopped .error) t' := by
  rw [finishDownload, removeAll_eq] at h
  obtain ⟨pending, rfl, hsorted, hmem⟩ := retryAll_eq_ok h
  refine ⟨hsorted, fun y => (hmem y).trans ?_, fun k => rfl, rfl, fun i => .inl rfl, fun x _ hnot => hnot.elim⟩
  refine or_congr_right (exists_congr fun x => and_congr_right fun _ => ?_)
  exact (and_iff_right id).symm

theorem finishDownload_ok {rs : List R}
    (h : finishDownload keyOf attemptDownload t peer xs (.notStopped (.ok rs)) = .ok t') :
    Finished keyOf attemptDownload t peer xs (.notStopped (.ok rs)) t' := by
  rw [finishDownload, removeAll_eq] at h
  split at h
  next hnodup =>
    have hhandled : Handled keyOf peer rs _ xs _ := handleResults rs (t := { t with
      downloading := fun k => if k ∈ xs.map (·.key) then none else t.downloading k }) hnodup
    generalize rs.foldl (handleResult keyOf peer) _ = acc at h hhandled
    have hdownloading : ∀ k, acc.1.downloading k = if k ∈ xs.map (·.key) then none else t.downloading k := fun k => by
      by_cases hk : k ∈ xs.map (·.key)
      · rw [if_pos hk]
        exact (hhandled.removed k).elim id fun hsame => hsame.trans (if_pos hk)
      · exact hhandled.other k hk
    have hleft : ∀ x ∈ acc.2, acc.1.downloading x.key = none := fun x hx => by
      rw [hdownloading, if_pos (List.mem_map_of_mem ((hhandled.left x).1 hx).1)]
    dsimp only at h
    rw [removeRetry_eq hleft] at h
    obtain ⟨pending, rfl, hsorted, hmem⟩ := retryAll_eq_ok h
    rw [hhandled.pending] at hsorted hmem
    refine ⟨hsorted, fun y => (hmem y).trans ?_, hdownloading, hhandled.nextRes, fun i => ?_, hhandled.filled⟩
    · refine or_congr_right (exists_congr fun x => ?_)
      rw [hhandled.left, and_assoc]
      exact Iff.rfl
    · refine (hhandled.results i).imp_right fun ⟨hnone, x, hx, r, hr, hi, hkey, hres⟩ => ?_
      exact ⟨hnone, x, hx, hi, hkey ▸ List.mem_map_of_mem hr, _, hres, r, hr, hkey, x.attempts, rfl⟩
  next => cases h

theorem finishDownload_finished {outcome : Outcome R}
    (h : finishDownload keyOf attemptDownload t peer xs outcome = .ok t') :
    Finished keyOf attemptDownload t peer xs outcome t' := by
  cases outcome with
  | stopped => exact finishDownload_stopped h
  | notStopped answer =>
    cases answer with
    | error => exact finishDownload_error h
    | ok rs => exact finishDownload_ok h

/-- A batch comes back if the keys of the jobs that are not covered are not
pending. -/
theorem finishDownload_isOk {outcome : Outcome R} (hnodup : (xs.map (·.key)).Nodup)
    (hnew : ∀ x ∈ xs, ¬ outcome.Covers keyOf x.key → ∀ y ∈ t.pending, y.key ≠ x.key) :
    ∃ t', finishDownload keyOf attemptDownload t peer xs outcome = .ok t' := by
  cases outcome with
  | stopped => exact ⟨_, rfl⟩
  | notStopped answer =>
    cases answer with
    | error =>
      rw [finishDownload, removeAll_eq]
      exact retryAll_ok hnodup fun x hx => hnew x hx id
    | ok rs =>
      rw [finishDownload, removeAll_eq, if_pos hnodup]
      have hhandled : Handled keyOf peer rs _ xs _ := handleResults rs (t := { t with
        downloading := fun k => if k ∈ xs.map (·.key) then none else t.downloading k }) hnodup
      generalize rs.foldl (handleResult keyOf peer) _ = acc at hhandled
      dsimp only
      rw [removeRetry_eq fun x hx => ?_]
      · refine retryAll_ok ((hhandled.sublist.map _).nodup hnodup) fun x hx y hy => ?_
        rw [hhandled.pending] at hy
        obtain ⟨hx, hnot⟩ := (hhandled.left x).1 hx
        exact hnew x hx hnot y hy
      · have hx := List.mem_map_of_mem (f := (·.key)) ((hhandled.left x).1 hx).1
        exact (hhandled.removed x.key).elim id fun hsame => hsame.trans (if_pos hx)

end Finish

end Mina.Downloader
