/-
The trees that are being merged, by the time of their turn.

The trees whose turn comes at the same time form a class: one of every `D`
positions. What is left of work shows in the weights of a whole class at once.
After a reset all of its weights are right (`Settled`); when its trees move to
their next level with work left undone, and without a reset, those of the
trees that moved are out of date, and one of these trees refuses jobs
(`Behind`). A reset comes when a class has completed all that is listed for it
(`Finished`).
-/
import Mina.ParallelScan.Line

namespace Mina.ParallelScan

open Mina.ParallelScan.Tree State

variable {M B : Type} {h D : Nat} {res : AvailableJob M B → M}

/-! ## Classes -/

section Classes

variable (D : Nat) (gs : List (Standing B h))

/-- The weights of the trees of class `c` are right. -/
def Settled (c : Nat) : Prop := ∀ x ∈ gs.zipIdx, x.2 % D = c → x.1.height = x.2 / D ∧ x.1.Fresh

/-- The weights of the trees of class `c` that moved are out of date, and work
was left behind on one of them. -/
structure Behind (c : Nat) : Prop where
  height : ∀ x ∈ gs.zipIdx, x.2 % D = c → x.1.height = x.2 / D
  fresh : ∀ x ∈ gs.zipIdx, x.2 % D = c → x.2 < D → x.1.Fresh
  stale : ∀ x ∈ gs.zipIdx, x.2 % D = c → D ≤ x.2 → x.1.Stale
  left : ∃ x ∈ gs.zipIdx, x.2 % D = c ∧ D ≤ x.2 ∧ 0 < x.1.total

/-- The trees whose turn it is have nothing left to do. -/
def Cleared : Prop :=
  ∀ x ∈ gs.zipIdx, x.2 % D = D - 1 → x.1.front.done (x.2 / D) = x.1.front.ready (x.2 / D)

/-- Their weights are right for their next turn. -/
def Finished : Prop :=
  Cleared D gs ∧ ∀ x ∈ gs.zipIdx, x.2 % D = D - 1 → x.2 / D < h → x.1.height = x.2 / D + 1 ∧ x.1.Fresh

/-- Some weight asks for a job, if it is the turn of a tree. -/
def Asking : Prop := ∀ x ∈ gs.zipIdx, x.2 % D = D - 1 → ∃ y ∈ gs.zipIdx, y.2 % D = D - 1 ∧ 0 < y.1.total

/-- The trees at their positions: no job is completed above the level of a
position, or at it before its turn, and no tree is merged. -/
structure Placed : Prop where
  length : gs.length ≤ (h + 1) * D
  idle : ∀ x ∈ gs.zipIdx, ∀ e, x.2 / D < e → x.1.front.done e = 0
  waits : ∀ x ∈ gs.zipIdx, x.2 % D ≠ D - 1 → x.1.front.done (x.2 / D) = 0
  root : ∀ x ∈ gs.zipIdx, x.1.front.done h = 0

/-- The state of the line between two operations. -/
structure Sound : Prop extends Placed D gs where
  waiting : ∀ c, c + 1 < D → Settled D gs c ∨ Behind D gs c
  working : Settled D gs (D - 1) ∧ Asking D gs ∨ Behind D gs (D - 1) ∨ Finished D gs

end Classes

variable {gs gs' : List (Standing B h)} {ts : List (JobTree M B)}

theorem lt_length {x : Standing B h × Nat} (hx : x ∈ gs.zipIdx) : x.2 < gs.length := by
  rw [List.mem_zipIdx_iff_getElem?] at hx
  exact (List.getElem?_eq_some_iff.1 hx).1

theorem Placed.div_le (hD : 0 < D) (hp : Placed D gs) {x : Standing B h × Nat} (hx : x ∈ gs.zipIdx) : x.2 / D ≤ h := by
  have hlt : x.2 / D < h + 1 := (Nat.div_lt_iff_lt_mul hD).2 ((lt_length hx).trans_le hp.length)
  omega

/-! ## A step on every tree -/

theorem mem_zipIdx_map {f : Standing B h × Nat → Standing B h} {x : Standing B h × Nat} :
    x ∈ (gs.zipIdx.map f).zipIdx ↔ ∃ y ∈ gs.zipIdx, x = (f y, y.2) := by
  obtain ⟨g, p⟩ := x
  rw [List.mem_zipIdx_iff_getElem?, List.getElem?_map, List.getElem?_zipIdx]
  constructor
  · intro hget
    cases hp : gs[p]? with
    | none => simp [hp] at hget
    | some g' =>
      simp only [hp, Option.map_some, Nat.zero_add, Option.some.injEq] at hget
      exact ⟨(g', p), List.mem_zipIdx_iff_getElem?.2 hp, by rw [← hget]⟩
  · rintro ⟨⟨g', p'⟩, hy, heq⟩
    cases heq
    rw [List.mem_zipIdx_iff_getElem?] at hy
    simp only at hy
    simp [hy]

theorem forall₂_map {f : Standing B h × Nat → Standing B h} {k : JobTree M B → JobTree M B}
    (hts : List.Forall₂ (fun t g => g.Of res t) ts gs)
    (hf : ∀ x ∈ gs.zipIdx, ∀ t, x.1.Of res t → (f x).Of res (k t)) :
    List.Forall₂ (fun t g => g.Of res t) (ts.map k) (gs.zipIdx.map f) := by
  suffices hstep : ∀ n, (∀ x ∈ gs.zipIdx n, ∀ t, x.1.Of res t → (f x).Of res (k t)) →
      List.Forall₂ (fun t g => g.Of res t) (ts.map k) ((gs.zipIdx n).map f) from hstep 0 hf
  clear hf
  induction hts with
  | nil => exact fun _ _ => .nil
  | cons hg _ ih =>
    intro n hf
    rw [List.zipIdx_cons, List.map_cons, List.map_cons]
    rw [List.zipIdx_cons] at hf
    exact .cons (hf _ List.mem_cons_self _ hg) (ih (n + 1) fun x hx => hf x (List.mem_cons_of_mem _ hx))

/-! ## Resetting the weights -/

/-- The weights of a tree after a reset: for its next turn. -/
def resetAt (D : Nat) (x : Standing B h × Nat) : Standing B h :=
  .counted x.1.ds x.1.front (min ((x.2 + 1) / D) h) (Nat.min_le_right _ _)

theorem resetAt_height (D : Nat) (x : Standing B h × Nat) : (resetAt D x).height = min ((x.2 + 1) / D) h := rfl

theorem Placed.resetAt_idle (hD : 0 < D) (hp : Placed D gs) {x : Standing B h × Nat} (hx : x ∈ gs.zipIdx) :
    x.1.front.done (min ((x.2 + 1) / D) h) = 0 := by
  have hle := hp.div_le hD hx
  by_cases hturn : x.2 % D = D - 1
  · rw [mod_succ hD hturn]
    rcases Nat.eq_or_lt_of_le hle with heq | hlt
    · rw [heq, Nat.min_eq_right (Nat.le_succ h)]
      exact hp.root x hx
    · rw [Nat.min_eq_left hlt]
      exact hp.idle x hx _ (Nat.lt_succ_self _)
  · rw [mod_succ_ne hD hturn, Nat.min_eq_left hle]
    exact hp.waits x hx hturn

theorem Placed.forall₂_reset (hh : 0 < h) (hD : 0 < D) (hp : Placed D gs)
    (hts : List.Forall₂ (fun t g => g.Of res t) ts gs) :
    List.Forall₂ (fun t g => g.Of res t) (ts.map (Tree.resetWeights .merge)) (gs.zipIdx.map (resetAt D)) :=
  forall₂_map hts fun _ hx _ hg => Standing.reset_of_content hh (Nat.min_le_right _ _) (hp.resetAt_idle hD hx) hg.content

/-- A reset after all that is listed is completed. -/
theorem Placed.reset (hD : 0 < D) (hp : Placed D gs) (hcomplete : Cleared D gs) :
    Sound D (gs.zipIdx.map (resetAt D)) where
  length := by
    rw [List.length_map, List.length_zipIdx]
    exact hp.length
  idle x hx := by
    obtain ⟨y, hy, rfl⟩ := mem_zipIdx_map.1 hx
    exact hp.idle y hy
  waits x hx := by
    obtain ⟨y, hy, rfl⟩ := mem_zipIdx_map.1 hx
    exact hp.waits y hy
  root x hx := by
    obtain ⟨y, hy, rfl⟩ := mem_zipIdx_map.1 hx
    exact hp.root y hy
  waiting c hc := .inl fun x hx hturn => by
    obtain ⟨y, hy, rfl⟩ := mem_zipIdx_map.1 hx
    dsimp only at hturn ⊢
    rw [resetAt_height, mod_succ_ne hD (by omega), Nat.min_eq_left (hp.div_le hD hy)]
    exact ⟨rfl, Standing.counted_fresh _⟩
  working := .inr <| .inr ⟨fun x hx => by
    obtain ⟨y, hy, rfl⟩ := mem_zipIdx_map.1 hx
    exact hcomplete y hy, fun x hx hturn hlt => by
    obtain ⟨y, hy, rfl⟩ := mem_zipIdx_map.1 hx
    dsimp only at hturn hlt ⊢
    rw [resetAt_height, mod_succ hD hturn, Nat.min_eq_left hlt]
    exact ⟨rfl, Standing.counted_fresh _⟩⟩

end Mina.ParallelScan
