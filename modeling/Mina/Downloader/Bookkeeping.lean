/-
The bookkeeping of the downloader over whole runs.

When a batch comes back, the code takes its keys out of `downloading` and puts
the jobs without a result back into the queue, also those that were cancelled
meanwhile. A newer job with such a key is lost, and a cancelled job is queued
again, filled as it is, unless its key is pending: then the assertion of
`enqueue_exn` fails. `keeps_iff` says that nothing else goes wrong.
-/
import Mina.Downloader.DownloaderFacts

namespace Mina.Downloader

variable {K P A R : Type} [LinearOrder K] [DecidableEq P] (keyOf : R → K) (attemptDownload : A)

/-- A job with the result variable is pending. -/
def Pending (t : T K P A R) (i : Nat) : Prop := ∃ j ∈ t.pending, j.res = i

/-- A job with the result variable is downloading. -/
def Downloading (t : T K P A R) (i : Nat) : Prop := ∃ k p j, t.downloading k = some (p, j) ∧ j.res = i

/-- The result is in a list with which its sender has answered a batch with the
job, and it has the job's key. -/
def Answered (w : World K P A R) (i : Nat) (r : R) (sender : P) : Prop :=
  w.issued i = some (keyOf r) ∧ ∃ xs rs, (sender, xs, rs) ∈ w.answers ∧ (∃ x ∈ xs, x.res = i) ∧ r ∈ rs

/-- What the bookkeeping is to keep. -/
structure Good (w : World K P A R) : Prop where
  sorted : Sorted w.t.pending
  disjoint : ∀ j ∈ w.t.pending, w.t.downloading j.key = none
  placed : ∀ i, (w.issued i).isSome = true → w.t.results i = none → Xor (Pending w.t i) (Downloading w.t i)
  unfilled : ∀ i, Pending w.t i ∨ Downloading w.t i → w.t.results i = none
  answered : ∀ i r sender attempts, w.t.results i = some (.ok r sender attempts) → Answered keyOf w i r sender

/-- The batch can come back: each of its jobs that is filled already (it was
cancelled) has a key that is not downloading again and that the outcome covers. -/
def Harmless (t : T K P A R) (xs : List (Job K P A)) (outcome : Outcome R) : Prop :=
  ∀ x ∈ xs, (t.results x.res).isSome = true → t.downloading x.key = none ∧ outcome.Covers keyOf x.key

/-- A batch that comes back can do so. -/
def Event.Harmless (w : World K P A R) : Event K P A R → Prop
  | .answered batch answer =>
    ∀ peer xs, w.inFlight batch = some (peer, xs) → Downloader.Harmless keyOf w.t xs (.notStopped answer)
  | .stopped batch => ∀ peer xs, w.inFlight batch = some (peer, xs) → Downloader.Harmless keyOf w.t xs .stopped
  | _ => True

/-! ## The invariant -/

/-- The job is in one of the tables, under its key. -/
def Listed (t : T K P A R) (j : Job K P A) : Prop := j ∈ t.pending ∨ ∃ p, t.downloading j.key = some (p, j)

/-- What holds in a run as long as every batch can come back. -/
structure Inv (w : World K P A R) : Prop where
  sorted : Sorted w.t.pending
  disjoint : ∀ j ∈ w.t.pending, w.t.downloading j.key = none
  keys : ∀ k p j, w.t.downloading k = some (p, j) → j.key = k
  unfilled : ∀ j, Listed w.t j → w.t.results j.res = none
  issued : ∀ j, Listed w.t j → w.issued j.res = some j.key
  placed : ∀ i, (w.issued i).isSome = true → w.t.results i = none → ∃ j, Listed w.t j ∧ j.res = i
  fresh : ∀ i, w.t.nextRes ≤ i → w.issued i = none
  filled : ∀ i, (w.t.results i).isSome = true → (w.issued i).isSome = true
  nodup : ∀ b p xs, w.inFlight b = some (p, xs) → (xs.map (·.key)).Nodup
  batch : ∀ b p xs, w.inFlight b = some (p, xs) → ∀ x ∈ xs, w.issued x.res = some x.key ∧
    (w.t.results x.res = none → w.t.downloading x.key = some (p, x))
  separate : ∀ b b' p p' xs xs', w.inFlight b = some (p, xs) → w.inFlight b' = some (p', xs') →
    ∀ x ∈ xs, ∀ x' ∈ xs', x.res = x'.res → w.t.results x.res = none → b = b'
  nextBatch : ∀ b, w.nextBatch ≤ b → w.inFlight b = none
  answered : ∀ i r sender attempts, w.t.results i = some (.ok r sender attempts) → Answered keyOf w i r sender

section Inv

variable {keyOf} {w : World K P A R}

omit [LinearOrder K] [DecidableEq P] in
/-- A result variable has one key. -/
theorem key_eq_of_res {i j : Job K P A} (hi : w.issued i.res = some i.key)
    (hj : w.issued j.res = some j.key) (hres : i.res = j.res) : i.key = j.key := by
  rw [hres, hj] at hi
  exact (Option.some.inj hi).symm

omit [DecidableEq P] in
theorem Inv.listed_downloading (h : Inv keyOf w) {k : K} {p : P} {j : Job K P A}
    (hj : w.t.downloading k = some (p, j)) : Listed w.t j := .inr ⟨p, (h.keys k p j hj).symm ▸ hj⟩

omit [DecidableEq P] in
theorem Inv.good (h : Inv keyOf w) : Good keyOf w := by
  refine ⟨h.sorted, h.disjoint, fun i hi hnone => ?_, fun i hlisted => ?_, h.answered⟩
  · obtain ⟨j, hj, rfl⟩ := h.placed i hi hnone
    have hexclusive : ¬ (Pending w.t j.res ∧ Downloading w.t j.res) := by
      rintro ⟨⟨x, hx, hxres⟩, k, p, y, hy, hyres⟩
      have hkey := key_eq_of_res (h.issued x (.inl hx)) (h.issued y (h.listed_downloading hy)) (hxres.trans hyres.symm)
      have hnot := h.disjoint x hx
      rw [hkey, h.keys k p y hy, hy] at hnot
      cases hnot
    rcases hj with hj | ⟨p, hj⟩
    · exact .inl ⟨⟨j, hj, rfl⟩, fun hd => hexclusive ⟨⟨j, hj, rfl⟩, hd⟩⟩
    · exact .inr ⟨⟨_, p, j, hj, rfl⟩, fun hp => hexclusive ⟨hp, _, p, j, hj, rfl⟩⟩
  · rcases hlisted with ⟨j, hj, rfl⟩ | ⟨k, p, j, hj, rfl⟩
    · exact h.unfilled j (.inl hj)
    · exact h.unfilled j (h.listed_downloading hj)

omit [DecidableEq P] in
theorem Inv.start (maxBatchSize : Nat) : Inv keyOf (start maxBatchSize : World K P A R) := by
  have hnone : ∀ j, ¬ Listed (create maxBatchSize : T K P A R) j := by
    rintro j (hj | ⟨p, hj⟩)
    · cases hj
    · cases hj
  exact {
    sorted := List.Pairwise.nil
    disjoint _ hj := nomatch hj
    keys _ _ _ hj := nomatch hj
    unfilled j hj := (hnone j hj).elim
    issued j hj := (hnone j hj).elim
    placed _ hi := nomatch hi
    fresh _ _ := rfl
    filled _ hi := nomatch hi
    nodup _ _ _ hb := nomatch hb
    batch _ _ _ hb := nomatch hb
    separate _ _ _ _ _ _ hb := nomatch hb
    nextBatch _ _ := rfl
    answered _ _ _ _ hi := nomatch hi }

omit [DecidableEq P] in
/-- The jobs of a batch that are not filled are downloading, so none of them is
pending. -/
theorem Inv.not_pending (h : Inv keyOf w) {b : Nat} {p : P} {xs : List (Job K P A)} (hb : w.inFlight b = some (p, xs))
    {x : Job K P A} (hx : x ∈ xs) (hnone : w.t.results x.res = none) : ∀ y ∈ w.t.pending, y.key ≠ x.key := by
  intro y hy hkey
  have hnot := h.disjoint y hy
  rw [hkey, (h.batch b p xs hb x hx).2 hnone] at hnot
  cases hnot

/-! ## A batch comes back -/

section Finish

variable {attemptDownload} {b : Nat} {peer : P} {xs : List (Job K P A)} {outcome : Outcome R} {t' : T K P A R}
  {answers' : List (P × List (Job K P A) × List R)} (h : Inv keyOf w) (hb : w.inFlight b = some (peer, xs))
include h hb

/-- A job that is filled stays so, and one of another batch is not touched. -/
theorem Inv.results_eq (hfin : Finished keyOf attemptDownload w.t peer xs outcome t') {j : Job K P A}
    (hj : w.issued j.res = some j.key) (hkey : j.key ∉ xs.map (·.key) ∨ (w.t.results j.res).isSome = true ∨
      j ∈ w.t.pending) : t'.results j.res = w.t.results j.res := by
  rcases hfin.results j.res with hsame | ⟨hnone, x, hx, hres, -, -⟩
  · exact hsame
  · obtain ⟨hissued, hdown⟩ := h.batch b peer xs hb x hx
    have heq : x.key = j.key := key_eq_of_res hissued hj hres
    rw [hres] at hdown
    rcases hkey with hkey | hsome | hpending
    · exact absurd (heq ▸ List.mem_map_of_mem hx) hkey
    · rw [hnone] at hsome
      cases hsome
    · have hnot := h.disjoint j hpending
      rw [← heq, hdown hnone] at hnot
      cases hnot

theorem Inv.results_uncovered (hfin : Finished keyOf attemptDownload w.t peer xs outcome t') {x : Job K P A}
    (hx : x ∈ xs) (hnot : ¬ outcome.Covers keyOf x.key) : t'.results x.res = w.t.results x.res := by
  rcases hfin.results x.res with hsame | ⟨-, x', hx', hres, hcovers, -⟩
  · exact hsame
  · have hkey : x'.key = x.key :=
      key_eq_of_res (h.batch b peer xs hb x' hx').1 (h.batch b peer xs hb x hx).1 hres
    exact absurd (hkey ▸ hcovers) hnot

omit h hb in
/-- What is listed after a batch has come back. -/
theorem Inv.listed_finish (hfin : Finished keyOf attemptDownload w.t peer xs outcome t') {j : Job K P A}
    (hj : Listed t' j) : (Listed w.t j ∧ (j.key ∉ xs.map (·.key) ∨ j ∈ w.t.pending)) ∨
      ∃ x ∈ xs, ¬ outcome.Covers keyOf x.key ∧ j = x.tried attemptDownload peer := by
  rcases hj with hj | ⟨p, hj⟩
  · rcases (hfin.pending j).1 hj with hj | hj
    · exact .inl ⟨.inl hj, .inr hj⟩
    · exact .inr hj
  · rw [hfin.downloading] at hj
    split at hj
    next => cases hj
    next hkey => exact .inl ⟨.inr ⟨p, hj⟩, .inl hkey⟩

/-- The invariant holds after a batch that could come back has come back. -/
theorem Inv.finish (hfin : Finished keyOf attemptDownload w.t peer xs outcome t')
    (hharmless : Harmless keyOf w.t xs outcome) (hanswers : ∀ a ∈ w.answers, a ∈ answers')
    (hgiven : ∀ rs, outcome = .notStopped (.ok rs) → (peer, xs, rs) ∈ answers') :
    Inv keyOf { w with t := t', inFlight := Function.update w.inFlight b none, answers := answers' } := by
  have hflight : ∀ {b' p' xs'}, Function.update w.inFlight b none b' = some (p', xs') →
      b' ≠ b ∧ w.inFlight b' = some (p', xs') := by
    intro b' p' xs' hb'
    by_cases heq : b' = b
    · rw [heq, Function.update_self] at hb'
      cases hb'
    · rw [Function.update_of_ne heq] at hb'
      exact ⟨heq, hb'⟩
  have hunfilled : ∀ {i}, t'.results i = none → w.t.results i = none := fun {i} hi => by
    rcases hfin.results i with hsame | ⟨hnone, -⟩
    · rw [← hsame, hi]
    · exact hnone
  have hnotFilled : ∀ x ∈ xs, ¬ outcome.Covers keyOf x.key → w.t.results x.res = none := fun x hx hnot => by
    by_contra hsome
    exact hnot (hharmless x hx (Option.isSome_iff_ne_none.2 hsome)).2
  have hdown : ∀ {k p j}, t'.downloading k = some (p, j) → k ∉ xs.map (·.key) ∧ w.t.downloading k = some (p, j) := by
    intro k p j hj
    rw [hfin.downloading] at hj
    split at hj
    next => cases hj
    next hk => exact ⟨hk, hj⟩
  -- a filled job of the batch has no newer one downloading
  have hself : ∀ x ∈ xs, ∀ p j, w.t.downloading x.key = some (p, j) → j = x ∧ w.t.results x.res = none := by
    intro x hx p j hj
    have hnone : w.t.results x.res = none := by
      by_contra hsome
      have hno := (hharmless x hx (Option.isSome_iff_ne_none.2 hsome)).1
      rw [hj] at hno
      cases hno
    have hx' := (h.batch b peer xs hb x hx).2 hnone
    rw [hj] at hx'
    cases hx'
    exact ⟨rfl, hnone⟩
  constructor
  case sorted => exact hfin.sorted h.sorted
  case disjoint =>
    intro j hj
    dsimp only
    rw [hfin.downloading]
    rcases (hfin.pending j).1 hj with hj | ⟨x, hx, -, rfl⟩
    · rw [h.disjoint j hj, ite_self]
    · exact if_pos (List.mem_map_of_mem (f := (·.key)) hx)
  case keys => exact fun k p j hj => h.keys k p j (hdown hj).2
  case unfilled =>
    intro j hj
    rcases listed_finish hfin hj with ⟨hj, hkey⟩ | ⟨x, hx, hnot, rfl⟩
    · rw [h.results_eq hb hfin (h.issued j hj) (hkey.imp_right .inr)]
      exact h.unfilled j hj
    · exact (h.results_uncovered hb hfin hx hnot).trans (hnotFilled x hx hnot)
  case issued =>
    intro j hj
    rcases listed_finish hfin hj with ⟨hj, -⟩ | ⟨x, hx, -, rfl⟩
    · exact h.issued j hj
    · exact (h.batch b peer xs hb x hx).1
  case placed =>
    intro i hi hnone
    obtain ⟨j, hj, rfl⟩ := h.placed i hi (hunfilled hnone)
    rcases hj with hj | ⟨p, hj⟩
    · exact ⟨j, .inl ((hfin.pending j).2 (.inl hj)), rfl⟩
    · by_cases hk : j.key ∈ xs.map (·.key)
      · obtain ⟨x, hx, hkey⟩ := List.mem_map.1 hk
        obtain ⟨rfl, -⟩ := hself x hx p j (hkey ▸ hj)
        by_cases hcovers : outcome.Covers keyOf j.key
        · have hsome := hfin.filled j hx hcovers
          rw [hnone] at hsome
          cases hsome
        · exact ⟨j.tried attemptDownload peer, .inl ((hfin.pending _).2 (.inr ⟨j, hx, hcovers, rfl⟩)), rfl⟩
      · refine ⟨j, .inr ⟨p, ?_⟩, rfl⟩
        rw [hfin.downloading, if_neg hk]
        exact hj
  case fresh => exact fun i hi => h.fresh i (hfin.nextRes ▸ hi)
  case filled =>
    intro i hi
    rcases hfin.results i with hsame | ⟨-, x, hx, rfl, -⟩
    · exact h.filled i (hsame ▸ hi)
    · rw [(h.batch b peer xs hb x hx).1]
      rfl
  case nodup => exact fun b' p' xs' hb' => h.nodup b' p' xs' (hflight hb').2
  case batch =>
    intro b' p' xs' hb' x hx
    obtain ⟨hne, hb'⟩ := hflight hb'
    obtain ⟨hissued, hx'⟩ := h.batch b' p' xs' hb' x hx
    refine ⟨hissued, fun hnone => ?_⟩
    have hx' := hx' (hunfilled hnone)
    dsimp only
    rw [hfin.downloading, if_neg, hx']
    intro hk
    obtain ⟨x₀, hx₀, hkey⟩ := List.mem_map.1 hk
    obtain ⟨rfl, hnone₀⟩ := hself x₀ hx₀ p' x (hkey ▸ hx')
    exact hne (h.separate b' b p' peer xs' xs hb' hb x hx x hx₀ rfl hnone₀)
  case separate =>
    exact fun b₁ b₂ p₁ p₂ xs₁ xs₂ h₁ h₂ x₁ hx₁ x₂ hx₂ hres hnone =>
      h.separate b₁ b₂ p₁ p₂ xs₁ xs₂ (hflight h₁).2 (hflight h₂).2 x₁ hx₁ x₂ hx₂ hres (hunfilled hnone)
  case nextBatch =>
    intro b' hb'
    dsimp only
    rw [Function.update_apply]
    split
    next => rfl
    next => exact h.nextBatch b' hb'
  case answered =>
    intro i r sender attempts hi
    rcases hfin.results i with hsame | ⟨-, x, hx, rfl, -, y, hy, hgives⟩
    · obtain ⟨hissued, xs', rs, hmem, hr⟩ := h.answered i r sender attempts (hsame ▸ hi)
      exact ⟨hissued, xs', rs, hanswers _ hmem, hr⟩
    · dsimp only at hi
      rw [hy, Option.some.injEq] at hi
      subst hi
      cases outcome with
      | stopped => cases hgives
      | notStopped answer =>
        cases answer with
        | error => exact hgives.elim
        | ok rs =>
          obtain ⟨r', hr', hkey, attempts', heq⟩ := hgives
          cases heq
          exact ⟨hkey ▸ (h.batch b peer xs hb x hx).1, xs, rs, hgiven rs rfl, ⟨x, hx, rfl⟩, hr'⟩

/-- If the bookkeeping is kept when a batch comes back, the batch could come
back. -/
theorem Inv.harmless (hfin : Finished keyOf attemptDownload w.t peer xs outcome t') {flight : Nat → Option (P × List (Job K P A))}
    (hgood : Good keyOf { w with t := t', inFlight := flight, answers := answers' }) :
    Harmless keyOf w.t xs outcome := by
  intro x hx hsome
  have hcovers : outcome.Covers keyOf x.key := by
    by_contra hnot
    have hpending : x.tried attemptDownload peer ∈ t'.pending := (hfin.pending _).2 (.inr ⟨x, hx, hnot, rfl⟩)
    have hnone := hgood.unfilled x.res (.inl ⟨_, hpending, rfl⟩)
    dsimp only at hnone
    rw [h.results_uncovered hb hfin hx hnot] at hnone
    rw [hnone] at hsome
    cases hsome
  refine ⟨?_, hcovers⟩
  cases hdown : w.t.downloading x.key with
  | none => rfl
  | some v =>
    obtain ⟨p, j⟩ := v
    have hkey := h.keys _ p j hdown
    have hlisted := h.listed_downloading hdown
    have hnone : t'.results j.res = none := by
      rcases hfin.results j.res with hsame | ⟨hnone, x', hx', hres, -⟩
      · rw [hsame, h.unfilled j hlisted]
      · have hkey' : x'.key = j.key := key_eq_of_res (h.batch b peer xs hb x' hx').1 (h.issued j hlisted) hres
        obtain rfl : x' = x := List.inj_on_of_nodup_map (h.nodup b peer xs hb) hx' hx (hkey'.trans hkey)
        rw [hres, hnone] at hsome
        cases hsome
    -- the newer job is in neither table
    have hissued : (w.issued j.res).isSome = true := by
      rw [h.issued j hlisted]
      rfl
    have hplaced := hgood.placed j.res hissued hnone
    exfalso
    rcases hplaced.or with ⟨y, hy, hres⟩ | ⟨k, p', y, hy, hres⟩
    · rcases (hfin.pending y).1 hy with hy | ⟨x', hx', hnot, rfl⟩
      · have heq := key_eq_of_res (h.issued y (.inl hy)) (h.issued j hlisted) hres
        have hno := h.disjoint y hy
        rw [heq, hkey, hdown] at hno
        cases hno
      · have heq : x'.key = j.key := key_eq_of_res (h.batch b peer xs hb x' hx').1 (h.issued j hlisted) hres
        rw [heq, hkey] at hnot
        exact hnot hcovers
    · rw [hfin.downloading] at hy
      split at hy
      next => cases hy
      next hk =>
        have heq := key_eq_of_res (h.issued y (h.listed_downloading hy)) (h.issued j hlisted) hres
        rw [h.keys k p' y hy, hkey] at heq
        exact hk (heq ▸ List.mem_map_of_mem hx)

end Finish

end Inv

end Mina.Downloader
