/-
A tree of the scan state with its weights.

The weights of a tree say how many jobs the nodes of one height can get, from
left to right (`Standing.before`). After a reset they are right for the height
that comes next (`Content.standing`), and stay right as jobs are completed
(`Standing.Of.update`). On a tree that moved on without a reset they still
count work that was left behind, of which the nodes that have a job now get
nothing (`Standing.Of.lift`). More jobs than the nodes with a job get are
refused (`Standing.Of.refuses`).
-/
import Mina.ParallelScan.Frontier

namespace Mina.ParallelScan

open Mina.ParallelScan.Tree
open Parts (span part)

variable {M B : Type} {h : Nat}

/-- The data of a tree, its frontier, and what its weights send to the nodes
of a height before each. -/
structure Standing (B : Type) (h : Nat) where
  ds : Nat → B
  front : Frontier h
  height : Nat
  height_le : height ≤ h
  before : Nat → Nat
  before_mono : Monotone before
  before_zero : before 0 = 0

/-- The weights above level `u` of a tree send `before j` jobs to the nodes of
the level before `j`. -/
structure Sends (before : Nat → Nat) (u : Nat) (fm : Nat → Nat → MergeNode M) : Prop where
  left : ∀ l < u, ∀ i < 2 ^ l, (fm l i).1.1.merge = span before (u - (l + 1)) (2 * i)
  right : ∀ l < u, ∀ i < 2 ^ l, (fm l i).1.2.merge = span before (u - (l + 1)) (2 * i + 1)

namespace Standing

/-- The jobs that the weights ask for. -/
def total (g : Standing B h) : Nat := g.before (2 ^ (h - g.height))

/-- The tree stands as `g` says. -/
def Of (res : AvailableJob M B → M) (g : Standing B h) (t : JobTree M B) : Prop :=
  ∃ fm fb, t = build h 0 fm fb ∧ Holds res g.ds h g.front.slot fm fb ∧ Sends g.before (h - g.height) fm ∧
    (fm 0 0).1.1.merge + (fm 0 0).1.2.merge = g.total

/-- The weights are right: every node that has a job to do gets one, and all
nodes that are not done get one or more. -/
structure Fresh (g : Standing B h) : Prop where
  exact : ∀ j ≤ g.front.ready g.height, g.before j = j - g.front.done g.height
  all : 2 ^ (h - g.height) ≤ g.total + g.front.done g.height

/-- The weights are from before the tree moved: no node that has a job gets
one. -/
structure Stale (g : Standing B h) : Prop where
  idle : g.front.done g.height = 0
  none : ∀ j ≤ g.front.ready g.height, g.before j = 0

variable {res : AvailableJob M B → M} {g : Standing B h} {t : JobTree M B}

theorem Of.content (hg : g.Of res t) : Content res g.ds h g.front.slot t := by
  obtain ⟨fm, fb, ht, hholds, -⟩ := hg
  exact ⟨fm, fb, ht, hholds⟩

theorem Of.requiredJobCount (hh : 0 < h) (hg : g.Of res t) : t.requiredJobCount = g.total := by
  obtain ⟨fm, fb, rfl, -, -, htotal⟩ := hg
  rw [requiredJobCount_build fm fb hh, htotal]

/-- Below the root the weights of the root are those of its two halves. -/
theorem total_of_sends {before : Nat → Nat} (hmono : Monotone before) (hzero : before 0 = 0) {u : Nat} (hu : 0 < u)
    {fm : Nat → Nat → MergeNode M} (hsends : Sends before u fm) :
    (fm 0 0).1.1.merge + (fm 0 0).1.2.merge = before (2 ^ u) := by
  have hsplit := Parts.span_succ (s := u - 1) (i := 0) hmono
  rw [show u - 1 + 1 = u by omega, span, Nat.zero_mul, hzero, Nat.sub_zero, Nat.zero_add, Nat.one_mul] at hsplit
  rw [hsends.left 0 hu 0 (by simp), hsends.right 0 hu 0 (by simp), hsplit, Nat.zero_add, Nat.cast_add]

/-! ## Completing jobs -/

section Update

/-- The next `n` jobs are completed. -/
def advance (g : Standing B h) (n : Nat) (hn : g.front.done g.height + n ≤ g.front.ready g.height)
    (hidle : g.front.done (g.height + 1) = 0) : Standing B h where
  ds := g.ds
  front := g.front.advance g.height n hn hidle
  height := g.height
  height_le := g.height_le
  before j := g.before j - n
  before_mono _ _ hle := Nat.sub_le_sub_right (g.before_mono hle) n
  before_zero := by rw [g.before_zero, Nat.zero_sub]

variable {n : Nat} {hn : g.front.done g.height + n ≤ g.front.ready g.height}
  {hidle : g.front.done (g.height + 1) = 0}

theorem Fresh.advance (hf : g.Fresh) : (g.advance n hn hidle).Fresh where
  exact j hj := by
    have hready : (g.advance n hn hidle).front.ready g.height = g.front.ready g.height := Frontier.advance_ready hn hidle
    have hdone : (g.advance n hn hidle).front.done g.height = g.front.done g.height + n := Frontier.advance_done hn hidle
    have hexact := hf.exact j (hready ▸ hj)
    change g.before j - n = j - (g.advance n hn hidle).front.done g.height
    rw [hdone, hexact, Nat.sub_sub]
  all := by
    have hdone : (g.advance n hn hidle).front.done g.height = g.front.done g.height + n := Frontier.advance_done hn hidle
    have hall := hf.all
    change 2 ^ (h - g.height) ≤ (g.before (2 ^ (h - g.height)) - n) + (g.advance n hn hidle).front.done g.height
    rw [total] at hall
    rw [hdone]
    omega

/-- The results that reach a position. -/
theorem Fresh.part_eq (hf : g.Fresh) {xs : List M}
    (hn : g.front.done g.height + xs.length ≤ g.front.ready g.height)
    (hxs : ∀ q < xs.length, xs[q]? = some (proof res g.ds g.height (g.front.done g.height + q))) (j : Nat) :
    part g.before 0 j (xs.map (Job.merge : M → Job M B)) =
      fed res g.ds g.height (g.front.done g.height) xs.length j := by
  by_cases hj : j < g.front.ready g.height
  · have hshare := share_results hxs j
    rw [share_eq] at hshare
    rw [← hshare, part, part, Parts.span_zero, Parts.span_zero, Nat.pow_zero, Nat.mul_one, hf.exact j hj.le,
      hf.exact (j + 1) hj]
  · have hlast := hf.exact _ le_rfl
    have hmono := g.before_mono (not_lt.1 hj)
    rw [part, Nat.pow_zero, Nat.mul_one, List.drop_eq_nil_of_le (by rw [List.length_map]; omega), List.take_nil, fed,
      if_neg (by omega)]

/-- What the update makes of a node. -/
structure NodeStep (res : AvailableJob M B → M) (g : Standing B h) (seqNo : Int) (xs : List M)
    (hn : g.front.done g.height + xs.length ≤ g.front.ready g.height) (hidle : g.front.done (g.height + 1) = 0)
    (l i : Nat) (n n' : MergeNode M) : Prop where
  ok : l ≤ h - g.height → addMerges Weight.mergeLens (h - g.height : Nat) seqNo
    (part g.before (h - g.height - l) i (xs.map (Job.merge : M → Job M B))) l n =
      .ok (n', if h = g.height ∧ g.front.done g.height ≤ i ∧ i < g.front.done g.height + xs.length then
        some (proof res g.ds g.height i) else none)
  below : h - g.height < l → n' = n
  job : MergeIs res g.ds (h - l) i ((g.advance xs.length hn hidle).front.slot (h - l) i) n'.2
  left : l < h - g.height → n'.1.1.merge = span (g.advance xs.length hn hidle).before (h - g.height - (l + 1)) (2 * i)
  right : l < h - g.height →
    n'.1.2.merge = span (g.advance xs.length hn hidle).before (h - g.height - (l + 1)) (2 * i + 1)
  same : l = h - g.height → ¬ (g.front.done g.height ≤ i ∧ i < g.front.done g.height + xs.length) → n' = n
  root : l = 0 → h = g.height → g.front.done g.height ≤ i ∧ i < g.front.done g.height + xs.length →
    n'.1.1.merge = 0 ∧ n'.1.2.merge = 0

variable (seqNo : Int) {xs : List M}

theorem nodeStep {fm : Nat → Nat → MergeNode M} {fb : Nat → BaseNode B} (hf : g.Fresh)
    (hholds : Holds res g.ds h g.front.slot fm fb) (hsends : Sends g.before (h - g.height) fm)
    (hn : g.front.done g.height + xs.length ≤ g.front.ready g.height) (hidle : g.front.done (g.height + 1) = 0)
    (hxs : ∀ q < xs.length, xs[q]? = some (proof res g.ds g.height (g.front.done g.height + q))) {l i : Nat}
    (hl : l < h) (hi : i < 2 ^ l) : ∃ n', NodeStep res g seqNo xs hn hidle l i (fm l i) n' := by
  have hk := g.height_le
  have hmerge := hholds.merge l hl i hi
  have hmono := g.before_mono
  have hpart := hf.part_eq hn hxs
  have hcount : ∀ s i, span (g.advance xs.length hn hidle).before s i +
      (part g.before s i (xs.map (Job.merge : M → Job M B))).length = span g.before s i := fun s i => by
    have hsub := Parts.span_sub (s := s) (i := i) (l := xs.map (Job.merge : M → Job M B)) hmono
    rw [List.length_map] at hsub
    exact hsub
  have hslot : ∀ e i, e ≠ g.height → e ≠ g.height + 1 →
      (g.advance xs.length hn hidle).front.slot e i = g.front.slot e i :=
    fun e i => Frontier.advance_slot_ne hn hidle
  rcases Nat.lt_trichotomy l (h - g.height) with hlt | heq | hgt
  · have hleft := hsends.left l hlt i hi
    have hright := hsends.right l hlt i hi
    have hroot : ¬ (h = g.height ∧ g.front.done g.height ≤ i ∧ i < g.front.done g.height + xs.length) := by omega
    rcases Nat.eq_or_lt_of_le (show l + 1 ≤ h - g.height by omega) with hnext | habove
    · have he : h - l = g.height + 1 := by omega
      rw [← hnext, Nat.sub_self] at hleft hright
      rw [he, Frontier.slot_above hidle] at hmerge
      obtain ⟨n', hok, his, hnl, hnr⟩ := addMerges_fed seqNo (l := l) (n := xs.length) hmerge
      refine ⟨n', fun _ => ?_, fun hgt => by omega, ?_, fun _ => ?_, fun _ => ?_, fun _ => by omega, fun _ => by omega⟩
      · rw [if_neg hroot, ← hnext, show l + 1 - l = 0 + 1 by omega, Parts.part_append hmono, hpart, hpart]
        exact hok
      · rw [he]
        exact Frontier.advance_slot_above hn hidle ▸ his
      · rw [← hnext, Nat.sub_self, hnl, hleft, ← hcount, hpart]
        omega
      · rw [← hnext, Nat.sub_self, hnr, hright, ← hcount, hpart]
        omega
    · rw [← hcount] at hleft hright
      obtain ⟨n', hok, hsame, hnl, hnr⟩ := addMerges_counts seqNo mergeLens_lawful
        (u := h - g.height) (l := l) habove hleft hright
        (by rw [hcount, ← Parts.part_append hmono, Parts.part_left hmono])
      refine ⟨n', fun _ => ?_, fun hgt => by omega, ?_, fun _ => hnl, fun _ => hnr, fun _ => by omega,
        fun _ => by omega⟩
      · rw [if_neg hroot, show h - g.height - l = h - g.height - (l + 1) + 1 by omega, Parts.part_append hmono]
        exact hok
      · rw [hsame, hslot _ _ (by omega) (by omega)]
        exact hmerge
  · have he : h - l = g.height := by omega
    rw [he, (Frontier.slot_marked hn hidle).1] at hmerge
    obtain ⟨n', hok, his, hsame, hzero⟩ := addMerges_marked seqNo (l := l) hmerge
    refine ⟨n', fun _ => ?_, fun hgt => by omega, ?_, fun _ => by omega, fun _ => by omega, fun _ => hsame,
      fun h0 _ hin => hzero ⟨h0, hin⟩⟩
    · have hroot : h = g.height ↔ l = 0 := by omega
      simp only [hroot]
      rw [← heq, Nat.sub_self, hpart]
      exact hok
    · rw [he]
      exact (Frontier.slot_marked hn hidle).2 ▸ his
  · refine ⟨fm l i, fun _ => by omega, fun _ => rfl, ?_, fun _ => by omega, fun _ => by omega, fun _ => by omega,
      fun _ => by omega⟩
    rw [hslot _ _ (by omega) (by omega)]
    exact hmerge

/-- What the update makes of a leaf. -/
structure LeafStep (g : Standing B h) (seqNo : Int) (xs : List M)
    (hn : g.front.done g.height + xs.length ≤ g.front.ready g.height) (hidle : g.front.done (g.height + 1) = 0)
    (i : Nat) (n n' : BaseNode B) (res : AvailableJob M B → M) : Prop where
  ok : g.height = 0 → addBases Weight.mergeLens (h - g.height : Nat) seqNo
    (part g.before 0 i (xs.map (Job.merge : M → Job M B))) n = .ok n'
  above : 0 < g.height → n' = n
  job : BaseIs g.ds i ((g.advance xs.length hn hidle).front.slot 0 i) n'.2

theorem leafStep {fm : Nat → Nat → MergeNode M} {fb : Nat → BaseNode B} (hf : g.Fresh)
    (hholds : Holds res g.ds h g.front.slot fm fb)
    (hn : g.front.done g.height + xs.length ≤ g.front.ready g.height) (hidle : g.front.done (g.height + 1) = 0)
    (hxs : ∀ q < xs.length, xs[q]? = some (proof res g.ds g.height (g.front.done g.height + q))) {i : Nat}
    (hi : i < 2 ^ h) : ∃ n', LeafStep g seqNo xs hn hidle i (fb i) n' res := by
  have hbase := hholds.base i hi
  rcases Nat.eq_zero_or_pos g.height with hzero | hpos
  · obtain ⟨ds, F, k, hk, before, hmono, hbefore⟩ := g
    dsimp only at hzero
    subst hzero
    rw [(Frontier.slot_marked hn hidle).1] at hbase
    obtain ⟨n', hok, his⟩ := addBases_marked seqNo (u := (h - 0 : Nat)) hbase
    refine ⟨n', fun _ => ?_, fun hpos => absurd hpos (lt_irrefl 0), ?_⟩
    · rw [hf.part_eq hn hxs i]
      exact hok
    · exact (Frontier.slot_marked hn hidle).2 ▸ his
  · refine ⟨fb i, fun hzero => by omega, fun _ => rfl, ?_⟩
    have hslot : (g.advance xs.length hn hidle).front.slot 0 i = g.front.slot 0 i :=
      Frontier.advance_slot_ne hn hidle (by omega) (by omega)
    rw [hslot]
    exact hbase

/-- The results of the next jobs to do complete them; that of the root is the
proof of the whole tree. -/
theorem Of.update (hh : 0 < h) (hg : g.Of res t) (hf : g.Fresh)
    (hn : g.front.done g.height + xs.length ≤ g.front.ready g.height) (hidle : g.front.done (g.height + 1) = 0)
    (hxs : ∀ q < xs.length, xs[q]? = some (proof res g.ds g.height (g.front.done g.height + q))) :
    ∃ t' out, t.update Weight.mergeLens (h - g.height : Nat) seqNo (xs.map Job.merge) = .ok (t', out) ∧
      (out = if g.height = h ∧ xs ≠ [] then some (proof res g.ds h 0) else none) ∧
      (g.advance xs.length hn hidle).Of res t' := by
  have hk := g.height_le
  have hmono := g.before_mono
  have hlen : xs.length ≤ g.total := by
    have hexact := hf.exact _ le_rfl
    have hle := hmono (g.front.ready_le hk)
    rw [total]
    omega
  obtain ⟨fm, fb, rfl, hholds, hsends, htotal⟩ := hg
  have hnode : ∀ l i, ∃ n', l < h → i < 2 ^ l → NodeStep res g seqNo xs hn hidle l i (fm l i) n' := by
    intro l i
    by_cases hli : l < h ∧ i < 2 ^ l
    · obtain ⟨n', hn'⟩ := nodeStep seqNo hf hholds hsends hn hidle hxs hli.1 hli.2
      exact ⟨n', fun _ _ => hn'⟩
    · exact ⟨fm l i, fun hl hi => absurd ⟨hl, hi⟩ hli⟩
  have hleaf : ∀ i, ∃ n', i < 2 ^ h → LeafStep g seqNo xs hn hidle i (fb i) n' res := by
    intro i
    by_cases hi : i < 2 ^ h
    · obtain ⟨n', hn'⟩ := leafStep seqNo hf hholds hn hidle hxs hi
      exact ⟨n', fun _ => hn'⟩
    · exact ⟨fb i, fun hi' => absurd hi' hi⟩
  choose fm' hfm' using hnode
  choose fb' hfb' using hleaf
  have hroot : part g.before (h - g.height - 0) 0 (xs.map (Job.merge : M → Job M B)) = xs.map Job.merge :=
    Parts.part_root g.before_zero (by rw [List.length_map]; exact hlen)
  have hsends' : Sends (g.advance xs.length hn hidle).before (h - g.height) fm' :=
    ⟨fun l hl i hi => (hfm' l i (by omega) hi).left hl, fun l hl i hi => (hfm' l i (by omega) hi).right hl⟩
  refine ⟨build h 0 fm' fb', if h = 0 then none else
    if h = g.height ∧ g.front.done g.height ≤ 0 ∧ 0 < g.front.done g.height + xs.length then
      some (proof res g.ds g.height 0) else none, ?_, ?_, fm', fb', rfl,
    ⟨fun l hl i hi => (hfm' l i hl hi).job, fun i hi => (hfb' i hi).job⟩, hsends', ?_⟩
  · rw [Tree.update, ← hroot]
    refine updateSplit_build fm' fb' (fun l i => part g.before (h - g.height - l) i (xs.map (Job.merge : M → Job M B)))
      (fun _ i => if h = g.height ∧ g.front.done g.height ≤ i ∧ i < g.front.done g.height + xs.length then
        some (proof res g.ds g.height i) else none)
      (Nat.zero_le _) (by omega) ?_ ?_ ?_ ?_ ?_
    · intro l hl hle i hi
      rw [Nat.zero_add]
      exact (hfm' l i hl hi).ok (by omega)
    · intro l hl hlt i hi
      exact (hfm' l i hl hi).below (by omega)
    · intro l hl hlt i hi
      rw [show h - g.height - l = h - g.height - (l + 1) + 1 by omega]
      have hleft := hsends.left l (by omega) i hi
      have hright := hsends.right l (by omega) i hi
      rw [splitJobs]
      dsimp only [Weight.mergeLens]
      rw [hleft, hright, Int.toNat_natCast, Int.toNat_natCast, Parts.part_left hmono, Parts.part_right hmono]
    · intro he i hi
      rw [show h - g.height - h = 0 by omega]
      exact (hfb' i hi).ok (by omega)
    · intro hlt i hi
      exact (hfb' i hi).above (by omega)
  · have hready := g.front.ready_le hk
    rw [if_neg (by omega)]
    by_cases htop : h = g.height ∧ g.front.done g.height ≤ 0 ∧ 0 < g.front.done g.height + xs.length
    · rw [if_pos htop, if_pos ⟨htop.1.symm, List.ne_nil_of_length_pos (by omega)⟩, ← htop.1]
    · rw [if_neg htop, if_neg fun hroot => htop ?_]
      have hpos := List.length_pos_iff.2 hroot.2
      rw [hroot.1, Nat.sub_self, Nat.pow_zero] at hready
      rw [hroot.1] at hn
      exact ⟨hroot.1.symm, by rw [hroot.1]; omega, by omega⟩
  · rcases Nat.eq_or_lt_of_le hk with htop | hlt
    · have hone : g.total = g.before 1 := by rw [total, htop, Nat.sub_self, Nat.pow_zero]
      have hready := g.front.ready_le hk
      have htotal' : (g.advance xs.length hn hidle).total = g.before 1 - xs.length := by
        change g.before (2 ^ (h - g.height)) - xs.length = _
        rw [htop, Nat.sub_self, Nat.pow_zero]
      rw [htop, Nat.sub_self, Nat.pow_zero] at hready
      rw [htop] at hn
      by_cases hin : g.front.done g.height ≤ 0 ∧ 0 < g.front.done g.height + xs.length
      · obtain ⟨hzero, hpos⟩ := hin
        have hexact := hf.exact 1 (by rw [htop] at hzero hpos ⊢; omega)
        obtain ⟨hl, hr⟩ := (hfm' 0 0 hh (by simp)).root rfl htop.symm ⟨hzero, hpos⟩
        rw [hl, hr, htotal', hexact]
        omega
      · have hnil : xs.length = 0 := by
          rw [htop] at hin
          omega
        rw [(hfm' 0 0 hh (by simp)).same (by omega) hin, htotal, htotal', hone, hnil, Nat.sub_zero]
    · exact total_of_sends (g.advance xs.length hn hidle).before_mono (g.advance xs.length hn hidle).before_zero
        (Nat.sub_pos_of_lt hlt) hsends'

end Update

/-! ## Jobs that are refused -/

/-- A node that has no job refuses the results of jobs. -/
theorem addMerges_refuses {lens : WeightLens} {seqNo : Int} {jobs : List (Job M B)} (hne : jobs ≠ []) {l : Nat}
    {node : MergeNode M} (hnode : node.2 = .empty ∨ ∃ a, node.2 = .part a) :
    ∃ e, addMerges lens (l : Nat) seqNo jobs l node = .error e := by
  obtain ⟨⟨w1, w2⟩, j⟩ := node
  have hlevel : ¬ (l : Int) = (l : Int) - 1 := by omega
  unfold addMerges
  dsimp only
  rw [if_neg hlevel, if_pos rfl]
  split
  · rcases hnode with hj | ⟨a, hj⟩ <;> cases hj
  · exact absurd rfl hne
  · exact ⟨_, rfl⟩

/-- More jobs than the nodes that have one get. -/
theorem Of.refuses (seqNo : Int) (hg : g.Of res t) (jobs : List (Job M B)) (hlen : jobs.length ≤ g.total)
    (hmore : g.before (g.front.ready g.height) < jobs.length) :
    ∃ e, t.update Weight.mergeLens (h - g.height : Nat) seqNo jobs = .error e := by
  have hk := g.height_le
  have hmono := g.before_mono
  obtain ⟨j, hready, hj, hne⟩ := Parts.exists_part_ne_nil hmono hmore hlen
  obtain ⟨fm, fb, rfl, hholds, hsends, -⟩ := hg
  have hpos : 0 < g.height := by
    by_contra hzero
    rw [Nat.eq_zero_of_not_pos hzero] at hready hj
    exact absurd (hready.trans_lt hj) (lt_irrefl _)
  have hroot : part g.before (h - g.height - 0) 0 jobs = jobs := Parts.part_root g.before_zero hlen
  have hnode := hholds.merge (h - g.height) (by omega) j hj
  have hslot : g.front.slot g.height j = .part ∨ g.front.slot g.height j = .empty := by
    obtain ⟨e, he⟩ : ∃ e, g.height = e + 1 := ⟨g.height - 1, by omega⟩
    rw [he] at hready ⊢
    exact Frontier.slot_not_ready hready
  have hjob : (fm (h - g.height) j).2 = .empty ∨ ∃ a, (fm (h - g.height) j).2 = .part a := by
    rw [Nat.sub_sub_self hk] at hnode
    rcases hslot with hs | hs <;> rw [hs] at hnode
    · exact .inr ⟨_, hnode⟩
    · exact .inl hnode
  rw [Tree.update, ← hroot, show h - g.height - 0 = h - g.height by omega, ← Nat.zero_add (h - g.height)]
  refine updateSplit_build_error (fun l i => part g.before (0 + (h - g.height) - l) i jobs)
    (show h - g.height < h by omega) (fun l hl i hi => ?_) hj ?_
  · have hleft := hsends.left l hl i hi
    have hright := hsends.right l hl i hi
    rw [Nat.zero_add, show h - g.height - l = h - g.height - (l + 1) + 1 by omega, splitJobs]
    dsimp only [Weight.mergeLens]
    rw [hleft, hright, Int.toNat_natCast, Int.toNat_natCast, Parts.part_left hmono, Parts.part_right hmono]
  · rw [Nat.zero_add, Nat.sub_self]
    exact addMerges_refuses hne hjob

theorem addMerges_nil (lens : WeightLens) (u seqNo : Int) (l : Nat) (node : MergeNode M) :
    addMerges lens u seqNo ([] : List (Job M B)) l node = .ok (node, none) := by
  obtain ⟨⟨w1, w2⟩, j⟩ := node
  unfold addMerges
  dsimp only
  split
  · rfl
  · split
    · rfl
    · split <;> rfl

/-- Without jobs nothing changes. -/
theorem Of.update_nil (hg : g.Of res t) (lens : WeightLens) (seqNo : Int) {u : Nat} (hu : u ≤ h) :
    t.update lens u seqNo ([] : List (Job M B)) = .ok (t, none) := by
  obtain ⟨fm, fb, rfl, -⟩ := hg
  rw [Tree.update]
  refine (updateSplit_build fm fb (fun _ _ => []) (fun _ _ => none) (Nat.zero_le _) (by omega)
    (fun l _ _ i _ => ?_) (fun _ _ _ _ _ => rfl) (fun _ _ _ _ _ => ?_) (fun _ _ _ => rfl) fun _ _ _ => rfl).trans ?_
  · exact addMerges_nil lens u seqNo _ _
  · rw [splitJobs, List.take_nil, List.drop_nil, List.take_nil]
  · rw [ite_self]

/-! ## Resetting the weights -/

section Reset

/-- A tree with a frontier, and weights that were reset when no job of the
height `e` was completed. -/
def counted (ds : Nat → B) (F : Frontier h) (e : Nat) (he : e ≤ h) : Standing B h where
  ds := ds
  front := F
  height := e
  height_le := he
  before := F.countBefore e
  before_mono := Frontier.countBefore_mono e
  before_zero := Finset.sum_range_zero _

variable {ds : Nat → B} {F : Frontier h} {e : Nat}

theorem counted_fresh (he : e ≤ h) : (counted ds F e he).Fresh :=
  ⟨fun _ hj => Frontier.countBefore_eq hj, Frontier.le_countBefore e _⟩

variable {fm : Nat → Nat → MergeNode M} {fb : Nat → BaseNode B} {ty : WeightType}

/-- The jobs to do at or below a node, when the weights are reset. -/
theorem resetUp_count (hty : ty = .merge ∨ ty = .both ∧ F.done 0 = 0) (hholds : Holds res ds h F.slot fm fb) {e i : Nat}
    (he : e ≤ h) (hi : i < 2 ^ (h - e)) :
    (resetUp (h := h) fm fb ty e i).1.merge + (resetUp (h := h) fm fb ty e i).2.merge = F.count e i := by
  have hty' : ty = .merge ∨ ty = .both := hty.imp_right And.left
  induction e generalizing i with
  | zero =>
    have hb := hholds.base i hi
    rw [resetUp, Frontier.count]
    by_cases hd : i < F.done 0
    · rw [Frontier.slot_done hd] at hb
      obtain ⟨seq, hb⟩ := hb
      rw [if_pos hd]
      rcases hty' with rfl | rfl <;> simp [resetBase, updateMergeWeight, hb]
    · rw [Frontier.slot_todo (not_lt.1 hd) hi] at hb
      obtain ⟨seq, hb⟩ := hb
      rw [if_neg hd]
      rcases hty' with rfl | rfl <;> simp [resetBase, updateMergeWeight, hb]
  | succ e ih =>
    have hpow := two_pow_sub (show e < h by omega)
    have hl := ih (i := 2 * i) (by omega) (by omega)
    have hr := ih (i := 2 * i + 1) (by omega) (by omega)
    have hm := hholds.merge (h - (e + 1)) (by omega) i hi
    rw [show h - (h - (e + 1)) = e + 1 by omega] at hm
    rw [resetUp, Frontier.count]
    by_cases htodo : F.done (e + 1) ≤ i ∧ i < F.ready (e + 1)
    · rw [Frontier.slot_todo htodo.1 htodo.2] at hm
      obtain ⟨seq, hm⟩ := hm
      have hready := htodo.2
      have hle := F.done_eq_zero (Nat.zero_le e)
      rw [Frontier.ready] at hready
      obtain rfl : ty = .merge := hty.resolve_right fun hn => by
        have := hle hn.2
        omega
      rw [if_pos htodo, resetMerge_todo hm]
      rfl
    · have hnot : ty = .merge → ∀ l r seq, (fm (h - (e + 1)) i).2 ≠ .full ⟨l, r, seq, .todo⟩ := by
        intro _ l r seq hfull
        have hread := mergeTodo_slot hm
        rw [if_neg htodo, mergeTodo_full hfull, if_pos rfl] at hread
        cases hread
      obtain ⟨h1, h2⟩ := resetMerge_sum hty' (resetUp (h := h) fm fb ty e (2 * i),
        resetUp (h := h) fm fb ty e (2 * i + 1)) hnot
      rw [if_neg htodo, h1, h2, hl, hr, Nat.cast_add]

/-- After a reset the weights are right. -/
theorem of_reset (hh : 0 < h) (he : e ≤ h) (hidle : F.done e = 0) (hty : ty = .merge ∨ ty = .both ∧ F.done 0 = 0)
    (hholds : Holds res ds h F.slot fm fb) :
    (counted ds F e he).Of res ((build h 0 fm fb).resetWeights ty) := by
  have hty' : ty = .merge ∨ ty = .both := hty.imp_right And.left
  have hsum : ∀ l < h - e, ∀ i < 2 ^ l, ∀ j, j = 2 * i ∨ j = 2 * i + 1 →
      (resetUp (h := h) fm fb ty (h - (l + 1)) j).1.merge + (resetUp (h := h) fm fb ty (h - (l + 1)) j).2.merge =
        span (counted ds F e he).before (h - e - (l + 1)) j := by
    intro l hl i hi j hj
    have hpow := double_lt hi
    have hlevel : h - (h - (l + 1)) = l + 1 := by omega
    rw [resetUp_count hty hholds (by omega) (by rw [hlevel]; omega)]
    change _ = ((span (F.countBefore e) (h - e - (l + 1)) j : Nat) : Int)
    rw [Frontier.span_countBefore hidle, show e + (h - e - (l + 1)) = h - (l + 1) by omega]
  have hnot : ∀ l < h - e, ∀ i < 2 ^ l, ty = .merge → ∀ a b seq, (fm l i).2 ≠ .full ⟨a, b, seq, .todo⟩ := by
    intro l hl i hi _ a b seq hfull
    have hm := hholds.merge l (by omega) i hi
    obtain ⟨e', he'⟩ : ∃ e', h - l = e' + 1 := ⟨h - l - 1, by omega⟩
    rw [he'] at hm
    have hzero := F.done_eq_zero (show e ≤ e' by omega) hidle
    have hread := mergeTodo_slot hm
    rw [mergeTodo_full hfull, if_pos rfl, Frontier.ready, hzero, if_neg (by omega)] at hread
    cases hread
  have hsends : ∀ l < h - e, ∀ i < 2 ^ l,
      (resetMerge ty (resetUp (h := h) fm fb ty (h - (l + 1)) (2 * i),
        resetUp (h := h) fm fb ty (h - (l + 1)) (2 * i + 1)) (fm l i)).2.1.merge =
          span (counted ds F e he).before (h - e - (l + 1)) (2 * i) ∧
      (resetMerge ty (resetUp (h := h) fm fb ty (h - (l + 1)) (2 * i),
        resetUp (h := h) fm fb ty (h - (l + 1)) (2 * i + 1)) (fm l i)).2.2.merge =
          span (counted ds F e he).before (h - e - (l + 1)) (2 * i + 1) := by
    intro l hl i hi
    obtain ⟨h1, h2⟩ := resetMerge_sum hty' (resetUp (h := h) fm fb ty (h - (l + 1)) (2 * i),
      resetUp (h := h) fm fb ty (h - (l + 1)) (2 * i + 1)) (hnot l hl i hi)
    rw [h1, h2, hsum l hl i hi _ (.inl rfl), hsum l hl i hi _ (.inr rfl)]
    exact ⟨rfl, rfl⟩
  refine ⟨_, _, resetWeights_build fm fb ty, ⟨fun l hl i hi => ?_, fun i hi => ?_⟩,
    ⟨fun l hl i hi => (hsends l hl i hi).1, fun l hl i hi => (hsends l hl i hi).2⟩, ?_⟩
  · rw [resetMerge_job]
    exact hholds.merge l hl i hi
  · rw [resetBase_job]
    exact hholds.base i hi
  · have hroot := resetUp_count hty hholds (e := h) (i := 0) le_rfl (by simp)
    have htotal : (counted ds F e he).total = F.count h 0 := by
      have hspan := Frontier.span_countBefore hidle (h - e) 0
      have hzero : F.countBefore e 0 = 0 := Finset.sum_range_zero _
      rw [span, Nat.zero_mul, hzero, Nat.sub_zero, Nat.zero_add, Nat.one_mul, Nat.add_sub_cancel' he] at hspan
      exact hspan
    obtain ⟨n, rfl⟩ : ∃ n, h = n + 1 := ⟨h - 1, by omega⟩
    rw [resetUp, Nat.sub_self] at hroot
    rw [resetMerge_up, htotal, ← hroot]
    simp

theorem reset_of_content (hh : 0 < h) (he : e ≤ h) (hidle : F.done e = 0) (hc : Content res ds h F.slot t) :
    (counted ds F e he).Of res (t.resetWeights .merge) := by
  obtain ⟨fm, fb, rfl, hholds⟩ := hc
  exact of_reset hh he hidle (.inl rfl) hholds

/-- A tree that has got full. -/
theorem reset_of_filling {l : List B} (hh : 0 < h) (hf : Filling h l t) (hds : ∀ i < 2 ^ h, l[i]? = some (ds i)) :
    (counted ds (Frontier.start h) 0 (Nat.zero_le h)).Of res (t.resetWeights .both) := by
  obtain ⟨fm, fb, rfl, hempty, hbase, -⟩ := hf
  refine of_reset hh (Nat.zero_le h) rfl (.inr ⟨rfl, rfl⟩) ⟨fun e he i hi => ?_, fun i hi => ?_⟩
  · obtain ⟨e', he'⟩ : ∃ e', h - e = e' + 1 := ⟨h - e - 1, by omega⟩
    rw [he', Frontier.slot_above rfl]
    exact hempty e he i hi
  · have hb := hbase i hi
    rw [hds i hi] at hb
    exact hb

end Reset

/-! ## Moving on without a reset -/

/-- The weights sent to pairs of nodes. -/
def lift (g : Standing B h) (hk : g.height < h) : Standing B h where
  ds := g.ds
  front := g.front
  height := g.height + 1
  height_le := hk
  before j := g.before (2 * j)
  before_mono _ _ hle := g.before_mono (Nat.mul_le_mul_left 2 hle)
  before_zero := by rw [Nat.mul_zero, g.before_zero]

section Lift

variable {hk : g.height < h}

theorem lift_total : (g.lift hk).total = g.total := by
  have hpow := two_pow_sub hk
  change g.before (2 * 2 ^ (h - (g.height + 1))) = g.before (2 ^ (h - g.height))
  rw [hpow, Nat.mul_comm]

theorem Of.lift (hg : g.Of res t) : (g.lift hk).Of res t := by
  obtain ⟨fm, fb, ht, hholds, hsends, htotal⟩ := hg
  refine ⟨fm, fb, ht, hholds, ⟨fun l hl i hi => ?_, fun l hl i hi => ?_⟩, by rw [htotal, lift_total]⟩
  all_goals
    change l < h - (g.height + 1) at hl
    change _ = ((span (fun j => g.before (2 * j)) (h - (g.height + 1) - (l + 1)) _ : Nat) : Int)
    rw [Parts.span_pairs, show h - (g.height + 1) - (l + 1) + 1 = h - g.height - (l + 1) by omega]
  · exact hsends.left l (by omega) i hi
  · exact hsends.right l (by omega) i hi

theorem Fresh.lift (hf : g.Fresh) (hidle : g.front.done (g.height + 1) = 0) : (g.lift hk).Stale where
  idle := hidle
  none j hj := by
    change j ≤ g.front.done g.height / 2 at hj
    change g.before (2 * j) = 0
    have hle := g.front.done_le_ready g.height
    rw [hf.exact (2 * j) (by omega)]
    omega

theorem Stale.lift (hs : g.Stale) (hidle : g.front.done (g.height + 1) = 0) : (g.lift hk).Stale where
  idle := hidle
  none j hj := by
    change j ≤ g.front.done g.height / 2 at hj
    change g.before (2 * j) = 0
    rw [hs.idle] at hj
    rw [show 2 * j = 0 by omega, g.before_zero]

end Lift

end Standing

end Mina.ParallelScan
