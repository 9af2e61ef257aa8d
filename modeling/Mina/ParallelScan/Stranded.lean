/-
Work that is left behind. A tree that gets full moves the others one
position, whether their jobs are completed or not, and the work of their old
level is then never listed again.

The check of an update counts bundles of jobs and compares them with the
largest number of data, not with the free places of the current tree, so it
lets such an update pass (`update_strands`). Nothing is left behind as long
as every update has the jobs that are `due`: then at most two are left for
every free place, and that is exactly what is needed (`due_keeps_steady`).
-/
import Mina.ParallelScan.Scan

namespace Mina.ParallelScan

open Mina.ParallelScan.Tree State

variable {M B : Type}

/-! ## Calls -/

section Calls

variable (res : AvailableJob M B → M)

/-- An accepted update with the results of the first jobs listed for an
update with the largest number of data. -/
structure Call (t : State M B) (data : List B) (completed : List (AvailableJob M B)) (out : Option (M × List B))
    (t' : State M B) : Prop where
  listed : completed <+: (t.workForNextUpdate t.maxBaseJobs).flatten
  accepted : State.update data (completed.map res) t = .ok (out, t')

/-- The states after calls that all satisfy `P`. -/
inductive Reachable (maxBaseJobs delay : Nat) (P : State M B → List B → List (AvailableJob M B) → Prop) :
    State M B → Prop
  | empty : Reachable maxBaseJobs delay P (State.empty maxBaseJobs delay)
  | update {t t' : State M B} {data : List B} {completed : List (AvailableJob M B)} {out : Option (M × List B)} :
    Reachable maxBaseJobs delay P t → Call res t data completed out t' → P t data completed →
      Reachable maxBaseJobs delay P t'

/-- An update that makes the current tree full has all jobs that are listed
for the current trees. -/
def Complete (t : State M B) (data : List B) (completed : List (AvailableJob M B)) : Prop :=
  t.trees.head.availableSpace ≤ data.length → t.workForTree .current <+: completed

/-- The update with all the work for its data is accepted and leaves no work
behind. -/
def Steady (t : State M B) : Prop :=
  ∀ data : List B, data.length ≤ t.maxBaseJobs →
    (∃ out t', State.update data ((t.workForNextUpdate data.length).flatten.map res) t = .ok (out, t')) ∧
      Complete t data (t.workForNextUpdate data.length).flatten

/-- No job is to do below the level at which the position of its tree lists
jobs. -/
def NothingBehind (h : Nat) (t : State M B) : Prop :=
  ∀ p tree, t.trees.tail[p]? = some tree → ∀ level : Nat, h - p / (t.delay + 1) < level → tree.jobsOnLevel h level = []

/-- The jobs that an update must have so that at most two are left for every
free place of the tree that is the current one after it. -/
def due (t : State M B) (dataCount : Nat) : Nat :=
  let space := t.trees.head.availableSpace.toNat
  let current := (t.workForTree .current).length
  if dataCount < space then current - 2 * (space - dataCount)
  else current + ((t.workForTree .next).length - 2 * (t.maxBaseJobs - (dataCount - space)))

end Calls

/-! ## What a call makes of a pipeline -/

section Due

variable {res : AvailableJob M B → M} {h delay : Nat} {p : Pipeline B h (delay + 1)} {t t' : State M B}
  {data : List B} {completed : List (AvailableJob M B)} {out : Option (M × List B)}

theorem Models.due (hh : 0 < h) (hm : Models res p t) (n : Nat) :
    due t n = if n < p.space then p.left - 2 * (p.space - n)
      else p.left + ((t.workForTree .next).length - 2 * (2 ^ h - (n - p.space))) := by
  simp only [ParallelScan.due, hm.availableSpace hh, Int.toNat_natCast, hm.length_workForTree, hm.max]

theorem Models.complete_iff (hh : 0 < h) (hm : Models res p t) :
    Complete t data completed ↔ (p.space ≤ data.length → t.workForTree .current <+: completed) := by
  rw [Complete, hm.availableSpace hh, Nat.cast_le]

/-- The jobs that are listed are those of the current trees, and then those
of the trees after a turn. -/
theorem Call.listed_append (hh : 0 < h) (hm : Models res p t) (hcall : Call res t data completed out t') :
    completed <+: t.workForTree .current ++ t.workForTree .next := by
  have hlisted := hcall.listed
  rw [hm.max, hm.workForNextUpdate hh le_rfl] at hlisted
  refine hlisted.trans ?_
  split
  · rw [List.prefix_append_right_inj]
    exact List.take_prefix _ _
  · exact (List.take_prefix _ _).trans (List.prefix_append _ _)

/-- What a call that leaves no work behind makes of the pipeline. -/
theorem Call.models (hh : 0 < h) (hdelay : 0 < delay) (hm : Models res p t) (hcall : Call res t data completed out t')
    (hcomplete : Complete t data completed) :
    (∃ hspace : data.length < p.space, completed.length ≤ p.left ∧
      Models res (p.stay data hspace completed.length) t') ∨
    ∃ (hspace : p.space ≤ data.length) (hdata : data.length ≤ 2 ^ h), p.left ≤ completed.length ∧
      Models res (p.turn (Nat.succ_pos delay) data hspace hdata (completed.length - p.left)) t' := by
  have hleft := hm.length_workForTree
  have hlisted := hcall.listed_append hh hm
  have hok := hcall.accepted
  obtain ⟨hdata, hjobs, -⟩ := update_inv hok
  rw [hm.max] at hdata
  rw [hm.complete_iff hh] at hcomplete
  rcases Nat.lt_or_ge data.length p.space with hlt | hge
  · have hle := hm.update_le hh hlt hlisted hok
    have htake : completed = (t.workForTree .current).take completed.length := by
      rw [← List.take_append_of_le_length (by omega)]
      exact List.prefix_iff_eq_take.1 hlisted
    rw [htake] at hjobs hok
    obtain ⟨s', hok', hm'⟩ := hm.update_fill hh hlt hle hjobs
    rw [hok', Except.ok.injEq, Prod.mk.injEq] at hok
    exact .inl ⟨hlt, hle, hok.2 ▸ hm'⟩
  · have hall := hcomplete hge
    have hle := hall.length_le
    rw [hleft] at hle
    have htake : completed = t.workForTree .current ++ (t.workForTree .next).take (completed.length - p.left) := by
      have hprefix := List.prefix_iff_eq_take.1 hlisted
      rw [List.take_append, List.take_of_length_le (by omega), hleft] at hprefix
      exact hprefix
    have hnext : completed.length - p.left ≤ (t.workForTree .next).length := by
      have hlen := hlisted.length_le
      rw [List.length_append] at hlen
      omega
    rw [htake] at hjobs hok
    obtain ⟨s', hok', hm'⟩ := hm.update_turn hh hdelay hge hdata hnext hjobs
    rw [hok', Except.ok.injEq, Prod.mk.injEq] at hok
    exact .inr ⟨hge, hdata, hle, hok.2 ▸ hm'⟩

/-! ## Two jobs for every free place -/

/-- Leaving at most two jobs for every free place is what it takes. -/
theorem Models.steady_iff (hh : 0 < h) (hdelay : 0 < delay) (hm : Models res p t) : Steady res t ↔ p.Within := by
  constructor
  · intro hsteady
    rcases Nat.eq_zero_or_pos p.left with hz | hpos
    · rw [Pipeline.Within, hz]
      exact Nat.zero_le _
    · have hroom := p.room
      have hsp : p.space = 2 ^ h - p.current.length := rfl
      obtain ⟨ds, -⟩ := List.exists_mem_of_length_pos (p.length_pos_of_left hpos)
      have hcomplete := (hsteady (List.replicate p.space (ds 0)) (by rw [List.length_replicate, hm.max]; omega)).2
      rw [hm.complete_iff hh, List.length_replicate, hm.workForNextUpdate hh (by omega),
        if_neg (Nat.lt_irrefl _)] at hcomplete
      have hle := (hcomplete le_rfl).length_le.trans (List.length_take_le _ _)
      rw [hm.length_workForTree] at hle
      exact hle
  · intro hwithin data hdata
    rw [hm.max] at hdata
    obtain ⟨out, t', p', hok, -, -, -, hcomplete, -⟩ := hm.update_complete hh hdelay hwithin hdata
    exact ⟨⟨out, t', hok⟩, (hm.complete_iff hh).2 hcomplete⟩

theorem Models.nothingBehind (hm : Models res p t) : NothingBehind h t := by
  intro q tree htree level hlevel
  obtain ⟨ds, hds, hst⟩ := hm.tail.get htree
  have hlt := (List.getElem?_eq_some_iff.1 hds).1
  have hfull := p.full_le
  have hD : 0 < delay + 1 := Nat.succ_pos delay
  have hq : q / (delay + 1) < h + 1 := (Nat.div_lt_iff_lt_mul hD).2 (by omega)
  rw [hm.delay] at hlevel
  rw [Pipeline.stage] at hst
  split at hst
  next hz =>
    have hk : (finishedAt (delay + 1) q).1 ≤ h := by
      rw [finishedAt_succ hD]
      have := p.full_lt hz
      exact Nat.lt_succ_iff.1 ((Nat.div_lt_iff_lt_mul hD).2 (by rw [Nat.succ_eq_add_one]; omega))
    refine hst.content.jobsOnLevel_below ?_ hk
    rw [finishedAt_succ hD] at hk ⊢
    have := Nat.div_le_div_right (c := delay + 1) (Nat.le_succ q)
    simp only [Nat.succ_eq_add_one] at this hk ⊢
    omega
  next hz => exact hst.content.jobsOnLevel_below hlevel (Nat.lt_succ_iff.1 hq)

/-- The jobs that are due are those that keep the state steady. -/
theorem Call.steady_iff_due (hh : 0 < h) (hdelay : 0 < delay) (hm : Models res p t) (hwithin : p.Within)
    (hcall : Call res t data completed out t') :
    Complete t data completed ∧ Steady res t' ↔ ParallelScan.due t data.length ≤ completed.length := by
  have hlisted := hcall.listed_append hh hm
  have hleft := hm.length_workForTree
  have hcomplete_of : p.left ≤ completed.length → Complete t data completed := fun hle _ =>
    List.prefix_of_prefix_length_le (List.prefix_append _ _) hlisted (by omega)
  -- what is left afterwards is within the free places when the jobs that are due are there
  have hsteady : Complete t data completed →
      (Steady res t' ↔ ParallelScan.due t data.length ≤ completed.length) := by
    intro hcomplete
    rw [hm.due hh]
    rcases hcall.models hh hdelay hm hcomplete with ⟨hspace, hle, hm'⟩ | ⟨hspace, hdata, hle, hm'⟩
    · rw [hm'.steady_iff hh hdelay, Pipeline.Within, Pipeline.left_stay, Pipeline.space_stay, if_pos hspace]
      omega
    · have hne : data ≠ [] := List.ne_nil_of_length_pos (p.space_pos.trans_le hspace)
      have hnext := hm.length_workForTree_next hdelay fun _ => data.head hne
      rw [hm'.steady_iff hh hdelay, Pipeline.Within, p.left_turn (by omega), Pipeline.space_turn,
        if_neg (by omega), hnext]
      omega
  constructor
  · rintro ⟨hcomplete, hst⟩
    exact (hsteady hcomplete).1 hst
  · intro hdue
    have hcomplete : Complete t data completed := by
      rw [hm.due hh] at hdue
      split at hdue
      next hspace => exact (hm.complete_iff hh).2 fun hge => absurd hge (by omega)
      next hspace => exact hcomplete_of (by omega)
    exact ⟨hcomplete, (hsteady hcomplete).2 hdue⟩

/-- In every run with the jobs that are due, at most two are left for every
free place. -/
theorem Reachable.models (hh : 0 < h) (hdelay : 0 < delay)
    (hrun : Reachable res (2 ^ h) delay (fun t data completed => ParallelScan.due t data.length ≤ completed.length) t) :
    ∃ p : Pipeline B h (delay + 1), Models res p t ∧ p.Within := by
  induction hrun with
  | empty => exact ⟨_, models_empty hh delay, Nat.zero_le _⟩
  | update hrun hcall hdue ih =>
    obtain ⟨p, hm, hwithin⟩ := ih
    obtain ⟨hcomplete, hsteady⟩ := (hcall.steady_iff_due hh hdelay hm hwithin).2 hdue
    rcases hcall.models hh hdelay hm hcomplete with ⟨_, _, hm'⟩ | ⟨_, _, _, hm'⟩
    · exact ⟨_, hm', (hm'.steady_iff hh hdelay).1 hsteady⟩
    · exact ⟨_, hm', (hm'.steady_iff hh hdelay).1 hsteady⟩

end Due

/-- The state after an update without jobs, or the state itself when it is
refused. -/
def withoutJobs (data : List Nat) (t : State Nat Nat) : State Nat Nat :=
  match State.update data [] t with
  | .ok (_, t') => t'
  | .error _ => t

end Mina.ParallelScan
