/-
Runs of the downloader: what each other step preserves, and when a whole run
keeps the bookkeeping.
-/
import Mina.Downloader.Bookkeeping

namespace Mina.Downloader

variable {K P A R : Type} [LinearOrder K] [DecidableEq P] {keyOf : R → K} {w : World K P A R}

/-! ## Downloads -/

section Download

omit [DecidableEq P] in
/-- A caller gets the job that is there already, or a new one that is pending. -/
theorem Inv.download_cases (h : Inv keyOf w) (key : K) (attempts : P → Option A) :
    (∃ j, Listed w.t j ∧ download w.t key attempts = .ok (w.t, j)) ∨
      (∀ x ∈ w.t.pending, x.key ≠ key) ∧ w.t.downloading key = none ∧
        download w.t key attempts = .ok ({ w.t with
          pending := Q.insert { key, attempts, res := w.t.nextRes } w.t.pending
          nextRes := w.t.nextRes + 1 }, { key, attempts, res := w.t.nextRes }) := by
  cases hpending : Q.lookup w.t.pending key with
  | some x =>
    obtain ⟨hx, rfl⟩ := lookup_some hpending
    have hnone := h.disjoint x hx
    exact .inl ⟨x, .inl hx, by rw [download, hpending, hnone]⟩
  | none =>
    cases hdown : w.t.downloading key with
    | some v =>
      obtain ⟨p, x⟩ := v
      exact .inl ⟨x, h.listed_downloading hdown, by rw [download, hpending, hdown]⟩
    | none =>
      have hnew := lookup_eq_none.1 hpending
      refine .inr ⟨hnew, rfl, ?_⟩
      rw [download, hpending, hdown]
      dsimp only
      rw [enqueueExn, (enqueue_eq_some (e := { key, attempts, res := w.t.nextRes })).2 ⟨hnew, rfl⟩]
      rfl

omit [DecidableEq P] in
theorem Inv.newJob (h : Inv keyOf w) {key : K} {attempts : P → Option A} (hnew : ∀ x ∈ w.t.pending, x.key ≠ key) (hdown : w.t.downloading key = none) :
    Inv keyOf { w with
      t := { w.t with
        pending := Q.insert { key, attempts, res := w.t.nextRes } w.t.pending
        nextRes := w.t.nextRes + 1 }
      issued := Function.update w.issued w.t.nextRes (some key) } := by
  have hfresh : w.issued w.t.nextRes = none := h.fresh _ le_rfl
  have hunfilled : w.t.results w.t.nextRes = none := by
    by_contra hsome
    have hissued := h.filled _ (Option.isSome_iff_ne_none.2 hsome)
    rw [hfresh] at hissued
    cases hissued
  have hold : ∀ {i k}, w.issued i = some k → Function.update w.issued w.t.nextRes (some key) i = some k := by
    intro i k hi
    rw [Function.update_of_ne, hi]
    rintro rfl
    rw [hfresh] at hi
    cases hi
  have hlisted : ∀ {j}, Listed { w.t with
      pending := Q.insert { key, attempts, res := w.t.nextRes } w.t.pending
      nextRes := w.t.nextRes + 1 } j → j = { key, attempts, res := w.t.nextRes } ∨ Listed w.t j := by
    rintro j (hj | hj)
    · exact (mem_insert.1 hj).imp_right .inl
    · exact .inr (.inr hj)
  constructor
  case sorted => exact h.sorted.insert hnew
  case disjoint =>
    intro j hj
    rcases mem_insert.1 hj with rfl | hj
    · exact hdown
    · exact h.disjoint j hj
  case keys => exact h.keys
  case unfilled =>
    intro j hj
    rcases hlisted hj with rfl | hj
    · exact hunfilled
    · exact h.unfilled j hj
  case issued =>
    intro j hj
    rcases hlisted hj with rfl | hj
    · exact Function.update_self _ _ _
    · exact hold (h.issued j hj)
  case placed =>
    intro i hi hnone
    by_cases heq : i = w.t.nextRes
    · exact ⟨_, .inl (mem_insert.2 (.inl rfl)), heq.symm⟩
    · dsimp only at hi
      rw [Function.update_of_ne heq] at hi
      obtain ⟨j, hj, rfl⟩ := h.placed i hi hnone
      exact ⟨j, hj.imp_left fun hj => mem_insert.2 (.inr hj), rfl⟩
  case fresh =>
    intro i hi
    have hlt : w.t.nextRes < i := hi
    dsimp only
    rw [Function.update_of_ne hlt.ne', h.fresh i hlt.le]
  case filled =>
    intro i hi
    obtain ⟨k, hk⟩ := Option.isSome_iff_exists.1 (h.filled i hi)
    dsimp only
    rw [hold hk]
    rfl
  case nodup => exact h.nodup
  case batch =>
    intro b p xs hb x hx
    obtain ⟨hissued, hx'⟩ := h.batch b p xs hb x hx
    exact ⟨hold hissued, hx'⟩
  case separate => exact h.separate
  case nextBatch => exact h.nextBatch
  case answered =>
    intro i r sender attempts' hi
    obtain ⟨hissued, hrest⟩ := h.answered i r sender attempts' hi
    exact ⟨hold hissued, hrest⟩

end Download

/-! ## Cancelled jobs -/

section Cancel

variable {k : K}

omit [DecidableEq P] in
/-- The job that is cancelled: the one that is listed for the key. -/
theorem Inv.cancel_eq (h : Inv keyOf w) : (∃ j, Listed w.t j ∧ j.key = k ∧ cancel w.t k = { w.t with
      pending := Q.remove w.t.pending k
      downloading := Function.update w.t.downloading k none
      results := Function.update w.t.results j.res (some .finished) }) ∨
    cancel w.t k = w.t := by
  have hkill : ∀ {j}, Listed w.t j → ∀ (pending : List (Job K P A)) (downloading : K → Option (P × Job K P A)),
      killJob { w.t with pending, downloading } j =
        { w.t with pending, downloading, results := Function.update w.t.results j.res (some .finished) } := by
    intro j hj pending downloading
    rw [killJob, fillIfEmpty, h.unfilled j hj]
  unfold cancel
  cases hpending : Q.lookup w.t.pending k with
  | some j =>
    obtain ⟨hj, rfl⟩ := lookup_some hpending
    exact .inl ⟨j, .inl hj, rfl, hkill (.inl hj) _ _⟩
  | none =>
    cases hdown : w.t.downloading k with
    | some v =>
      obtain ⟨p, j⟩ := v
      exact .inl ⟨j, h.listed_downloading hdown, h.keys k p j hdown, hkill (h.listed_downloading hdown) _ _⟩
    | none =>
      have hremove : Q.remove w.t.pending k = w.t.pending :=
        List.filter_eq_self.2 fun x hx => decide_eq_true (lookup_eq_none.1 hpending x hx)
      have hupdate : Function.update w.t.downloading k none = w.t.downloading := by
        rw [← hdown, Function.update_eq_self]
      refine .inr ?_
      rw [removeDownloading, hremove]
      dsimp only
      rw [hupdate]
      rfl

omit [DecidableEq P] in
theorem Inv.listed_unique (h : Inv keyOf w) {i j : Job K P A} (hi : Listed w.t i) (hj : Listed w.t j)
    (hkey : i.key = j.key) : i = j := by
  rcases hi with hi | ⟨p, hi⟩ <;> rcases hj with hj | ⟨q, hj⟩
  · exact h.sorted.unique hi hj hkey
  · have hno := h.disjoint i hi
    rw [hkey, hj] at hno
    cases hno
  · have hno := h.disjoint j hj
    rw [← hkey, hi] at hno
    cases hno
  · rw [hkey, hj] at hi
    cases hi
    rfl

omit [DecidableEq P] in
theorem Inv.cancel (h : Inv keyOf w) (k : K) : Inv keyOf { w with t := cancel w.t k } := by
  rcases h.cancel_eq (k := k) with ⟨j, hj, rfl, heq⟩ | heq
  swap
  · rw [heq]
    exact h
  rw [heq]
  have hother : ∀ {x}, Listed w.t x → x.key ≠ j.key → x.res ≠ j.res := fun {x} hx hne hres =>
    hne (key_eq_of_res (h.issued x hx) (h.issued j hj) hres)
  have hlisted : ∀ {x}, Listed { w.t with
      pending := Q.remove w.t.pending j.key
      downloading := Function.update w.t.downloading j.key none
      results := Function.update w.t.results j.res (some .finished) } x ↔ Listed w.t x ∧ x.key ≠ j.key := by
    intro x
    unfold Listed
    dsimp only
    rw [mem_remove, or_and_right]
    refine or_congr_right ?_
    by_cases hx : x.key = j.key
    · rw [hx, Function.update_self]
      exact iff_of_false (fun ⟨_, hp⟩ => nomatch hp) fun hp => hp.2 rfl
    · rw [Function.update_of_ne hx]
      exact (and_iff_left hx).symm
  have hnone : ∀ {i}, Function.update w.t.results j.res (some .finished) i = none → i ≠ j.res ∧ w.t.results i = none := by
    intro i hi
    by_cases hij : i = j.res
    · rw [hij, Function.update_self] at hi
      cases hi
    · rw [Function.update_of_ne hij] at hi
      exact ⟨hij, hi⟩
  constructor
  case sorted => exact h.sorted.remove j.key
  case disjoint =>
    intro x hx
    obtain ⟨hx, hne⟩ := mem_remove.1 hx
    dsimp only
    rw [Function.update_of_ne hne]
    exact h.disjoint x hx
  case keys =>
    intro k p x hx
    by_cases hk : k = j.key
    · dsimp only at hx
      rw [hk, Function.update_self] at hx
      cases hx
    · dsimp only at hx
      rw [Function.update_of_ne hk] at hx
      exact h.keys k p x hx
  case unfilled =>
    intro x hx
    obtain ⟨hx, hne⟩ := hlisted.1 hx
    dsimp only
    rw [Function.update_of_ne (hother hx hne)]
    exact h.unfilled x hx
  case issued => exact fun x hx => h.issued x (hlisted.1 hx).1
  case placed =>
    intro i hi hi'
    obtain ⟨hij, hi'⟩ := hnone hi'
    obtain ⟨x, hx, rfl⟩ := h.placed i hi hi'
    exact ⟨x, hlisted.2 ⟨hx, fun hkey => hij (congrArg _ (h.listed_unique hx hj hkey))⟩, rfl⟩
  case fresh => exact h.fresh
  case filled =>
    intro i hi
    by_cases hij : i = j.res
    · rw [hij]
      dsimp only
      rw [h.issued j hj]
      rfl
    · dsimp only at hi
      rw [Function.update_of_ne hij] at hi
      exact h.filled i hi
  case nodup => exact h.nodup
  case batch =>
    intro b p xs hb x hx
    obtain ⟨hissued, hx'⟩ := h.batch b p xs hb x hx
    refine ⟨hissued, fun hi => ?_⟩
    obtain ⟨hij, hi⟩ := hnone hi
    have hdown := hx' hi
    have hne : x.key ≠ j.key := fun hkey => hij (congrArg _ (h.listed_unique (.inr ⟨p, hdown⟩) hj hkey))
    dsimp only
    rw [Function.update_of_ne hne, hdown]
  case separate =>
    exact fun b b' p p' xs xs' hb hb' x hx x' hx' hres hi =>
      h.separate b b' p p' xs xs' hb hb' x hx x' hx' hres (hnone hi).2
  case nextBatch => exact h.nextBatch
  case answered =>
    intro i r sender attempts hi
    by_cases hij : i = j.res
    · dsimp only at hi
      rw [hij, Function.update_self] at hi
      cases hi
    · dsimp only at hi
      rw [Function.update_of_ne hij] at hi
      exact h.answered i r sender attempts hi

end Cancel

/-! ## Batches that start -/

section Start

variable {peer : P} {xs : List (Job K P A)}

omit [DecidableEq P] in
/-- A batch of pending jobs goes to a peer. -/
theorem Inv.startBatch (h : Inv keyOf w) (hsub : ∀ x ∈ xs, x ∈ w.t.pending) (hnodup : (xs.map (·.key)).Nodup) :
    Inv keyOf { w with
      t := startDownload w.t peer xs
      inFlight := Function.update w.inFlight w.nextBatch (some (peer, xs))
      nextBatch := w.nextBatch + 1 } := by
  have hin : ∀ x ∈ xs, (startDownload w.t peer xs).downloading x.key = some (peer, x) := fun x hx =>
    setAll_of_mem hnodup hx
  have hout : ∀ {k}, k ∉ xs.map (·.key) → (startDownload w.t peer xs).downloading k = w.t.downloading k := fun hk =>
    setAll_of_not_mem fun x hx hkey => hk (hkey ▸ List.mem_map_of_mem hx)
  have hpending : ∀ {y}, y ∈ (startDownload w.t peer xs).pending ↔ y ∈ w.t.pending ∧ ∀ x ∈ xs, x.key ≠ y.key :=
    mem_removeAll
  have hdown : ∀ {k p j}, (startDownload w.t peer xs).downloading k = some (p, j) →
      (j ∈ xs ∧ j.key = k) ∨ w.t.downloading k = some (p, j) := by
    intro k p j hj
    by_cases hk : k ∈ xs.map (·.key)
    · obtain ⟨x, hx, rfl⟩ := List.mem_map.1 hk
      rw [hin x hx] at hj
      cases hj
      exact .inl ⟨hx, rfl⟩
    · exact .inr ((hout hk).symm.trans hj)
  have hlisted : ∀ {j}, Listed (startDownload w.t peer xs) j → Listed w.t j := by
    rintro j (hj | ⟨p, hj⟩)
    · exact .inl (hpending.1 hj).1
    · rcases hdown hj with ⟨hj, -⟩ | hj
      · exact .inl (hsub j hj)
      · exact .inr ⟨p, hj⟩
  have hflight : ∀ {b p ys}, Function.update w.inFlight w.nextBatch (some (peer, xs)) b = some (p, ys) →
      (b = w.nextBatch ∧ p = peer ∧ ys = xs) ∨ w.inFlight b = some (p, ys) := by
    intro b p ys hb
    by_cases heq : b = w.nextBatch
    · rw [heq, Function.update_self] at hb
      cases hb
      exact .inl ⟨heq, rfl, rfl⟩
    · rw [Function.update_of_ne heq] at hb
      exact .inr hb
  -- a job of another batch that is not filled is downloading, so it is not in the new one
  have hfresh : ∀ {b p ys}, w.inFlight b = some (p, ys) → ∀ y ∈ ys, w.t.results y.res = none →
      ∀ x ∈ xs, x.res ≠ y.res := by
    intro b p ys hb y hy hnone x hx hres
    refine h.not_pending hb hy hnone x (hsub x hx) ?_
    exact key_eq_of_res (h.issued x (.inl (hsub x hx))) (h.batch b p ys hb y hy).1 hres
  constructor
  case sorted => exact Sorted.removeAll xs h.sorted
  case disjoint =>
    intro j hj
    obtain ⟨hj, hne⟩ := hpending.1 hj
    refine (hout fun hk => ?_).trans (h.disjoint j hj)
    obtain ⟨x, hx, hkey⟩ := List.mem_map.1 hk
    exact hne x hx hkey
  case keys =>
    intro k p j hj
    rcases hdown hj with ⟨-, hkey⟩ | hj
    · exact hkey
    · exact h.keys k p j hj
  case unfilled => exact fun j hj => h.unfilled j (hlisted hj)
  case issued => exact fun j hj => h.issued j (hlisted hj)
  case placed =>
    intro i hi hnone
    obtain ⟨j, hj, rfl⟩ := h.placed i hi hnone
    by_cases hk : j.key ∈ xs.map (·.key)
    · obtain ⟨x, hx, hkey⟩ := List.mem_map.1 hk
      obtain rfl := h.listed_unique (.inl (hsub x hx)) hj hkey
      exact ⟨x, .inr ⟨peer, hin x hx⟩, rfl⟩
    · refine ⟨j, hj.imp (fun hj => hpending.2 ⟨hj, fun x hx hkey => hk ?_⟩) fun ⟨p, hj⟩ => ⟨p, (hout hk).trans hj⟩, rfl⟩
      exact hkey ▸ List.mem_map_of_mem hx
  case fresh => exact h.fresh
  case filled => exact h.filled
  case nodup =>
    intro b p ys hb
    rcases hflight hb with ⟨-, -, rfl⟩ | hb
    · exact hnodup
    · exact h.nodup b p ys hb
  case batch =>
    intro b p ys hb x hx
    rcases hflight hb with ⟨-, rfl, rfl⟩ | hb
    · exact ⟨h.issued x (.inl (hsub x hx)), fun _ => hin x hx⟩
    · obtain ⟨hissued, hx'⟩ := h.batch b p ys hb x hx
      refine ⟨hissued, fun hnone => (hout fun hk => ?_).trans (hx' hnone)⟩
      obtain ⟨y, hy, hkey⟩ := List.mem_map.1 hk
      exact h.not_pending hb hx hnone y (hsub y hy) hkey
  case separate =>
    intro b b' p p' ys ys' hb hb' x hx x' hx' hres hnone
    rcases hflight hb with ⟨rfl, -, rfl⟩ | hold <;> rcases hflight hb' with ⟨rfl, -, rfl⟩ | hold'
    · rfl
    · exact absurd hres (hfresh hold' x' hx' (hres ▸ hnone) x hx)
    · exact absurd hres.symm (hfresh hold x hx hnone x' hx')
    · exact h.separate b b' p p' ys ys' hold hold' x hx x' hx' hres hnone
  case nextBatch =>
    intro b hb
    have hlt : w.nextBatch < b := hb
    dsimp only
    rw [Function.update_of_ne hlt.ne', h.nextBatch b hlt.le]
  case answered => exact h.answered

end Start

/-! ## Runs -/

section Runs

variable {attemptDownload : A} {event : Event K P A R}

/-- A batch that could come back does. -/
theorem Inv.finish_ok (h : Inv keyOf w) (attemptDownload : A) {b : Nat} {peer : P} {xs : List (Job K P A)} {outcome : Outcome R}
    (hb : w.inFlight b = some (peer, xs)) (hharmless : Harmless keyOf w.t xs outcome) :
    ∃ t', finishDownload keyOf attemptDownload w.t peer xs outcome = .ok t' :=
  finishDownload_isOk (h.nodup b peer xs hb) fun x hx hnot => h.not_pending hb hx (by
    by_contra hsome
    exact hnot (hharmless x hx (Option.isSome_iff_ne_none.2 hsome)).2)

theorem Inv.step (h : Inv keyOf w) (attemptDownload : A) (hallowed : event.Allowed w) (hharmless : event.Harmless keyOf w) :
    ∃ w', step keyOf attemptDownload w event = .ok w' ∧ Inv keyOf w' := by
  cases event with
  | download key attempts =>
    rw [Downloader.step]
    rcases h.download_cases key attempts with ⟨j, hj, heq⟩ | ⟨hnew, hdown, heq⟩
    · rw [heq, Exn.andThen_ok]
      refine ⟨_, rfl, ?_⟩
      have hissued : Function.update w.issued j.res (some j.key) = w.issued := by
        rw [← h.issued j hj, Function.update_eq_self]
      rw [hissued]
      exact h
    · rw [heq, Exn.andThen_ok]
      exact ⟨_, rfl, h.newJob hnew hdown⟩
  | cancel key => exact ⟨_, rfl, h.cancel key⟩
  | step peer mightKnow =>
    have hsub : (toDownload w.t mightKnow).Sublist w.t.pending := (List.take_sublist _ _).trans List.filter_sublist
    rw [Downloader.step]
    cases hxs : toDownload w.t mightKnow with
    | nil => exact ⟨w, rfl, h⟩
    | cons x xs =>
      rw [hxs] at hsub
      exact ⟨_, rfl, h.startBatch (fun y hy => hsub.subset hy) ((hsub.map _).nodup h.sorted.nodup)⟩
  | answered batch answer =>
    obtain ⟨⟨peer, xs⟩, hb⟩ := Option.isSome_iff_exists.1 hallowed
    have hcan := hharmless peer xs hb
    obtain ⟨t', ht'⟩ := h.finish_ok attemptDownload hb hcan
    refine ⟨_, Exn.andThen_eq_ok.2 ⟨_, Exn.valueExn_eq_ok.2 hb, Exn.andThen_eq_ok.2 ⟨t', ht', rfl⟩⟩, ?_⟩
    refine h.finish hb (finishDownload_finished ht') hcan (fun a ha => ?_) fun rs hrs => ?_
    · cases answer with
      | error => exact ha
      | ok rs => exact List.mem_cons_of_mem _ ha
    · cases hrs
      exact List.mem_cons_self
  | stopped batch =>
    obtain ⟨peer, xs, hb, -⟩ := hallowed
    have hcan := hharmless peer xs hb
    obtain ⟨t', ht'⟩ := h.finish_ok attemptDownload hb hcan
    refine ⟨_, Exn.andThen_eq_ok.2 ⟨_, Exn.valueExn_eq_ok.2 hb, Exn.andThen_eq_ok.2 ⟨t', ht', rfl⟩⟩, ?_⟩
    exact h.finish hb (finishDownload_finished ht') hcan (fun a ha => ha) fun rs hrs => nomatch hrs

theorem Inv.harmless_of_step (h : Inv keyOf w) {w' : World K P A R}
    (hstep : Downloader.step keyOf attemptDownload w event = .ok w') (hgood : Good keyOf w') : event.Harmless keyOf w := by
  cases event with
  | download key attempts => trivial
  | cancel key => trivial
  | step peer mightKnow => trivial
  | answered batch answer =>
    intro peer xs hb
    obtain ⟨v, hv, hstep⟩ := Exn.andThen_eq_ok.1 hstep
    rw [hb, Exn.valueExn_some, Except.ok.injEq] at hv
    subst hv
    obtain ⟨t', ht', hstep⟩ := Exn.andThen_eq_ok.1 hstep
    cases hstep
    exact h.harmless hb (finishDownload_finished ht') hgood
  | stopped batch =>
    intro peer xs hb
    obtain ⟨v, hv, hstep⟩ := Exn.andThen_eq_ok.1 hstep
    rw [hb, Exn.valueExn_some, Except.ok.injEq] at hv
    subst hv
    obtain ⟨t', ht', hstep⟩ := Exn.andThen_eq_ok.1 hstep
    cases hstep
    exact h.harmless hb (finishDownload_finished ht') hgood

variable (keyOf attemptDownload) in
/-- The runs whose batches could all come back. -/
inductive Runs : World K P A R → List (Event K P A R) → World K P A R → Prop
  | nil {w : World K P A R} : Runs w [] w
  | cons {w w₁ w' : World K P A R} {event : Event K P A R} {events : List (Event K P A R)} : event.Allowed w →
      event.Harmless keyOf w → step keyOf attemptDownload w event = .ok w₁ → Runs w₁ events w' →
      Runs w (event :: events) w'

theorem Runs.inv {w' : World K P A R} {events : List (Event K P A R)} (hrun : Runs keyOf attemptDownload w events w')
    (h : Inv keyOf w) : Inv keyOf w' := by
  induction hrun with
  | nil => exact h
  | cons hallowed hharmless hstep _ ih =>
    obtain ⟨w₁, hstep', h'⟩ := h.step attemptDownload hallowed hharmless
    rw [hstep, Except.ok.injEq] at hstep'
    subst hstep'
    exact ih h'

end Runs

/-- **The downloader keeps its jobs exactly as long as every batch that comes
back can do so.** In a run whose batches could all come back the bookkeeping is
right, and the next event raises nothing and keeps it right if and only if it
is no batch that could not come back. -/
theorem bookkeeping_iff {attemptDownload : A} {maxBatchSize : Nat} {events : List (Event K P A R)}
    {event : Event K P A R} (hrun : Runs keyOf attemptDownload (start maxBatchSize) events w)
    (hallowed : event.Allowed w) :
    Good keyOf w ∧ ((∃ w', step keyOf attemptDownload w event = .ok w' ∧ Good keyOf w') ↔ event.Harmless keyOf w) := by
  have hinv := hrun.inv (Inv.start maxBatchSize)
  refine ⟨hinv.good, fun ⟨w', hstep, hgood⟩ => hinv.harmless_of_step hstep hgood, fun hharmless => ?_⟩
  obtain ⟨w', hstep, hinv'⟩ := hinv.step attemptDownload hallowed hharmless
  exact ⟨w', hstep, hinv'.good⟩

/-! ### A batch of two jobs

Keys, peers and results are numbers, and a result is its own key. Both jobs go
to peer 7, and the first one is cancelled.
-/

/-- A caller that has not tried any peer. -/
def numberJob (key : Nat) : Event Nat Nat Unit Nat := .download key fun _ => none

def cancelFirst : List (Event Nat Nat Unit Nat) :=
  [numberJob 1, numberJob 2, .step 7 fun _ => true, .cancel 1]

/-- The peer has a result for the cancelled job only; the other one goes back to
the queue. -/
theorem bookkeeping_iff_cancelled : ∃ w w', Runs id () (start 2) cancelFirst w ∧
    step id () w (.answered 0 (.ok [1])) = .ok w' ∧ Good id w' := by
  have hrun : ∃ w, Runs id () (start 2) cancelFirst w ∧
      ∃ x y : Job Nat Nat Unit, w.inFlight 0 = some (7, [x, y]) ∧ w.t.results y.res = none ∧ x.key = 1 ∧
        w.t.downloading 1 = none :=
    ⟨_, .cons trivial trivial rfl (.cons trivial trivial rfl (.cons trivial trivial rfl (.cons trivial trivial rfl .nil))),
      _, _, rfl, rfl, rfl, rfl⟩
  obtain ⟨w, hrun, x, y, hflight, hy, hx, hdown⟩ := hrun
  have hallowed : (Event.answered 0 (.ok [1]) : Event Nat Nat Unit Nat).Allowed w :=
    Option.isSome_iff_exists.2 ⟨_, hflight⟩
  obtain ⟨w', hstep, hgood⟩ := (bookkeeping_iff hrun hallowed).2.2 fun peer xs hxs z hz hsome => by
    rw [hflight] at hxs
    cases hxs
    rcases List.mem_cons.1 hz with rfl | hz
    · rw [hx]
      exact ⟨hdown, List.mem_cons_self⟩
    · rw [List.mem_singleton] at hz
      rw [hz, hy] at hsome
      cases hsome
  exact ⟨w, w', hrun, hstep, hgood⟩

/-- The cancelled key is asked for again, and the peer answers with an error:
the assertion of `enqueue_exn` fails. -/
theorem enqueueExn_fires : ∃ w, Runs id () (start 2) (cancelFirst ++ [numberJob 1]) w ∧
    (Event.answered 0 .error : Event Nat Nat Unit Nat).Allowed w ∧
      step id () w (.answered 0 .error) = .error "Assert_failure" :=
  ⟨_, .cons trivial trivial rfl (.cons trivial trivial rfl (.cons trivial trivial rfl (.cons trivial trivial rfl
    (.cons trivial trivial rfl .nil)))), rfl, rfl⟩

end Mina.Downloader
