/-
What the operations of the scan state do to the line of its trees.

Results for the first of the listed jobs keep the line sound, with the weights
reset or not (`Stands.addMergeJobs`): a class with weights that are right takes
them in order, and its oldest tree comes out with its root (`fold_settled`); a
class that is behind takes what its first tree can (`fold_behind`). A full
block moves every tree one position, and so every class (`Sound.rotated`).
-/
import Mina.ParallelScan.Turns

namespace Mina.ParallelScan

open Mina.ParallelScan.Tree State

variable {M B : Type} {h D : Nat} {res : AvailableJob M B → M} {gs gs' : List (Standing B h)}

/-! ## The jobs that are left -/

theorem jobs_eq_nil (ds : Nat → B) {F : Frontier h} {e : Nat} (hnil : F.jobs res ds e = []) : F.done e = F.ready e := by
  have hlen : (F.jobs res ds e).length = F.ready e - F.done e := Frontier.length_jobs e
  have hle := F.done_le_ready e
  rw [hnil, List.length_nil] at hlen
  omega

theorem workFrom_mem {n : Nat} {x : Standing B h × Nat} (hx : x ∈ gs.zipIdx n) (hturn : x.2 % D = D - 1) :
    ∀ j ∈ x.1.front.jobs res x.1.ds (x.2 / D), j ∈ workFrom res D n gs := by
  induction gs generalizing n with
  | nil => simp at hx
  | cons g gs ih =>
    intro j hj
    rw [List.zipIdx_cons, List.mem_cons] at hx
    rw [workFrom, List.mem_append]
    rcases hx with rfl | hx
    · rw [if_pos hturn]
      exact .inl hj
    · exact .inr (ih hx j hj)

/-- Without listed jobs nothing is left to do. -/
theorem cleared_of_workFrom (hnil : workFrom res D 0 gs = []) : Cleared D gs := by
  intro x hx hturn
  refine jobs_eq_nil x.1.ds (List.eq_nil_iff_forall_not_mem.2 fun (j : AvailableJob M B) (hj : j ∈
    x.1.front.jobs res x.1.ds (x.2 / D)) => ?_)
  have hmem := workFrom_mem hx hturn j hj
  rw [hnil] at hmem
  cases hmem

theorem exists_of_workFrom {n : Nat} (hne : workFrom res D n gs ≠ []) :
    ∃ x ∈ gs.zipIdx n, x.2 % D = D - 1 ∧ x.1.front.done (x.2 / D) < x.1.front.ready (x.2 / D) := by
  induction gs generalizing n with
  | nil => exact absurd rfl hne
  | cons g gs ih =>
    rw [workFrom] at hne
    by_cases hnil : workFrom res D (n + 1) gs = []
    · rw [hnil, List.append_nil] at hne
      by_cases hturn : n % D = D - 1
      · rw [if_pos hturn] at hne
        have hpos := List.length_pos_iff.2 hne
        rw [Frontier.length_jobs] at hpos
        exact ⟨(g, n), by rw [List.zipIdx_cons]; exact List.mem_cons_self, hturn, by dsimp only; omega⟩
      · rw [if_neg hturn] at hne
        exact absurd rfl hne
    · obtain ⟨x, hx, hxs⟩ := ih hnil
      exact ⟨x, by rw [List.zipIdx_cons]; exact List.mem_cons_of_mem _ hx, hxs⟩

/-- Weights that are right ask for the jobs that are listed. -/
theorem asking_of_workFrom (hset : Settled D gs (D - 1)) (hne : workFrom res D 0 gs ≠ []) : Asking D gs := by
  obtain ⟨x, hx, hturn, hlt⟩ := exists_of_workFrom hne
  obtain ⟨hheight, hfresh⟩ := hset x hx hturn
  refine fun _ _ _ => ⟨x, hx, hturn, ?_⟩
  have hexact := hfresh.exact _ le_rfl
  have hle := x.1.before_mono (x.1.front.ready_le x.1.height_le)
  rw [Standing.total]
  rw [← hheight] at hlt
  omega

theorem Placed.atWork (hp : Placed D gs) {x : Standing B h × Nat} (hx : x ∈ gs.zipIdx)
    (hheight : x.1.height = x.2 / D) (hfresh : x.1.Fresh) : AtWork D x := ⟨hheight, hp.idle x hx, hfresh⟩

/-! ## What a class takes -/

/-- The line after the trees whose turn it is took `n` jobs, and none came
out. -/
structure Took (res : AvailableJob M B → M) (D n : Nat) (gs gs' : List (Standing B h)) : Prop where
  kept : Kept D 0 gs gs'
  data : gs'.map (·.ds) = gs.map (·.ds)
  idle : ∀ x ∈ gs'.zipIdx, x.2 % D = D - 1 → ∀ e, x.2 / D < e → x.1.front.done e = 0
  root : ∀ x ∈ gs'.zipIdx, x.2 % D = D - 1 → x.1.front.done h = 0
  left : (workFrom res D 0 gs').length + n = (workFrom res D 0 gs).length

namespace Took

variable {n : Nat}

theorem placed (ht : Took res D n gs gs') (hp : Placed D gs) : Placed D gs' where
  length := by
    rw [ht.kept.length]
    exact hp.length
  idle x hx := by
    by_cases hturn : x.2 % D = D - 1
    · exact ht.idle x hx hturn
    · exact hp.idle x (ht.kept.mem hx hturn)
  waits x hx hturn := hp.waits x (ht.kept.mem hx hturn) hturn
  root x hx := by
    by_cases hturn : x.2 % D = D - 1
    · exact ht.root x hx hturn
    · exact hp.root x (ht.kept.mem hx hturn)

theorem settled (hk : Kept D 0 gs gs') {c : Nat} (hc : c + 1 < D) (hs : Settled D gs c) : Settled D gs' c :=
  fun x hx hturn => hs x (hk.mem hx (by omega)) hturn

theorem behind (hk : Kept D 0 gs gs') {c : Nat} (hc : c + 1 < D) (hb : Behind D gs c) : Behind D gs' c where
  height x hx hturn := hb.height x (hk.mem hx (by omega)) hturn
  fresh x hx hturn := hb.fresh x (hk.mem hx (by omega)) hturn
  stale x hx hturn := hb.stale x (hk.mem hx (by omega)) hturn
  left := by
    obtain ⟨x, hx, hturn, hleft⟩ := hb.left
    exact ⟨x, hk.symm.mem hx (by omega), hturn, hleft⟩

theorem waiting (ht : Took res D n gs gs') (hs : Sound D gs) (c : Nat) (hc : c + 1 < D) :
    Settled D gs' c ∨ Behind D gs' c :=
  (hs.waiting c hc).imp (settled ht.kept hc) (behind ht.kept hc)

end Took

section Fold

variable {ts : List (JobTree M B)} {seqNo : Int} {r : List (JobTree M B) × Option M × List (Job M B)} {ys : List M}

theorem Placed.root_below (hD : 0 < D) {x : Standing B h × Nat} (hlt : x.2 + 1 < (h + 1) * D)
    (hturn : x.2 % D = D - 1) (hat : AtWork D x) : x.1.front.done h = 0 := hat.idle h (div_lt hD hturn hlt)

/-- A class that is behind takes what its first tree can. -/
theorem fold_behind (hh : 0 < h) (hD : 0 < D) (hts : List.Forall₂ (fun t g => g.Of res t) ts gs)
    (hb : Behind D gs (D - 1))
    (hidle : ∀ x ∈ gs.zipIdx, x.2 % D = D - 1 → ∀ e, x.2 / D < e → x.1.front.done e = 0)
    (hroot : ∀ x ∈ gs.zipIdx, x.2 % D = D - 1 → x.1.front.done h = 0)
    (hys : ys <+: (workFrom res D 0 gs).map res)
    (hok : Exn.fold (addMergeJobsStep h D seqNo) ([], none, ys.map Job.merge) ts.zipIdx = .ok r) :
    ∃ ts', ∃ gs' : List (Standing B h), ∃ rest, r = (ts'.reverse, none, rest) ∧
      List.Forall₂ (fun t g => g.Of res t) ts' gs' ∧ Took res D ys.length gs gs' ∧ Behind D gs' (D - 1) := by
  obtain ⟨x₀, hx₀, hturn₀, hle₀, htotal₀⟩ := hb.left
  have hlong := lt_length hx₀
  have hlen := hts.length_eq
  -- the first tree whose turn it is, and the ones that moved
  have hfirst : gs.take D ++ gs.drop D = gs := List.take_append_drop D gs
  have hlenD : (gs.take D).length = D := by rw [List.length_take]; omega
  have htsD : (ts.take D).length = D := by rw [List.length_take]; omega
  have hzip : gs.zipIdx = (gs.take D).zipIdx ++ (gs.drop D).zipIdx D := by
    conv_lhs => rw [← hfirst, List.zipIdx_append, Nat.zero_add, hlenD]
  have htszip : ts.zipIdx = (ts.take D).zipIdx ++ (ts.drop D).zipIdx D := by
    conv_lhs => rw [← List.take_append_drop D ts, List.zipIdx_append, Nat.zero_add, htsD]
  have hwork : workFrom res D 0 gs = workFrom res D 0 (gs.take D) ++ workFrom res D D (gs.drop D) := by
    conv_lhs => rw [← hfirst, workFrom_append, Nat.zero_add, hlenD]
  have hleft : ∀ x ∈ (gs.take D).zipIdx, x ∈ gs.zipIdx := fun x hx => by
    rw [hzip]
    exact List.mem_append_left _ hx
  have hright : ∀ x ∈ (gs.drop D).zipIdx D, x ∈ gs.zipIdx := fun x hx => by
    rw [hzip]
    exact List.mem_append_right _ hx
  rw [htszip, Exn.fold_append] at hok
  obtain ⟨r₁, hok₁, hok₂⟩ := Exn.andThen_eq_ok.1 hok
  obtain ⟨ts', gs', rfl, hts', htaken⟩ := fold_fresh (n := 0) hh hD (List.forall₂_take D hts)
    (fun x hx hturn => ⟨hb.height x (hleft x hx) hturn, hidle x (hleft x hx) hturn,
      hb.fresh x (hleft x hx) hturn (by have := lt_length hx; omega)⟩)
    (by rw [Nat.zero_add, hlenD]; nlinarith) ((workFrom res D D (gs.drop D)).map res) (by rw [← List.map_append, ← hwork]; exact hys) hok₁
  have hnil : ys.drop (workFrom res D 0 (gs.take D)).length = [] := by
    by_contra hne
    obtain ⟨e, he⟩ : ∃ e, Exn.fold (addMergeJobsStep h D seqNo) (ts'.reverse ++ [], none,
        (ys.drop (workFrom res D 0 (gs.take D)).length).map Job.merge) ((ts.drop D).zipIdx D) = .error e :=
      fold_stale hh (List.forall₂_drop D hts)
      (fun x hx hturn => ⟨hb.height x (hright x hx) hturn, hb.stale x (hright x hx) hturn (List.le_snd_of_mem_zipIdx hx)⟩)
      ⟨x₀, by
        rw [hzip, List.mem_append] at hx₀
        refine hx₀.resolve_left fun hx => ?_
        have := lt_length hx
        omega, hturn₀, htotal₀⟩ hne none
    rw [he] at hok₂
    cases hok₂
  rw [hnil, List.map_nil, List.append_nil, fold_idle] at hok₂
  cases hok₂
  have hle := List.drop_eq_nil_iff.1 hnil
  have hlen' : gs'.length = D := by rw [htaken.kept.length, hlenD]
  have hzip' : (gs' ++ gs.drop D).zipIdx = gs'.zipIdx ++ (gs.drop D).zipIdx D := by
    rw [List.zipIdx_append, Nat.zero_add, hlen']
  have hkept : Kept D 0 gs (gs' ++ gs.drop D) := by
    have happend := htaken.kept.append (Kept.refl D (0 + (gs.take D).length) (gs.drop D))
    rw [hfirst] at happend
    exact happend
  have hsmall : ∀ x ∈ gs'.zipIdx, x.2 % D = D - 1 → x.2 / D < h := fun x hx hturn =>
    div_lt hD hturn (by have := lt_length hx; rw [hlen'] at this; nlinarith)
  refine ⟨ts' ++ ts.drop D, gs' ++ gs.drop D, [], by rw [List.reverse_append],
    List.rel_append hts' (List.forall₂_drop D hts), ⟨hkept, ?_, fun x hx hturn => ?_, fun x hx hturn => ?_, ?_⟩, ?_⟩
  · rw [List.map_append, htaken.data, ← List.map_append, hfirst]
  · rw [hzip', List.mem_append] at hx
    rcases hx with hx | hx
    · exact (htaken.work x hx hturn).idle
    · exact hidle x (hright x hx) hturn
  · rw [hzip', List.mem_append] at hx
    rcases hx with hx | hx
    · exact (htaken.work x hx hturn).idle h (hsmall x hx hturn)
    · exact hroot x (hright x hx) hturn
  · have htook := htaken.left
    rw [hwork, workFrom_append, Nat.zero_add, hlen', List.length_append, List.length_append]
    omega
  · have hold : ∀ x ∈ (gs' ++ gs.drop D).zipIdx, x.2 % D = D - 1 →
        x.2 < D ∧ AtWork D x ∨ D ≤ x.2 ∧ x ∈ gs.zipIdx := by
      intro x hx hturn
      rw [hzip', List.mem_append] at hx
      rcases hx with hx | hx
      · exact .inl ⟨by have := lt_length hx; omega, htaken.work x hx hturn⟩
      · exact .inr ⟨List.le_snd_of_mem_zipIdx hx, hright x hx⟩
    refine ⟨fun x hx hturn => ?_, fun x hx hturn hlt => ?_, fun x hx hturn hle => ?_, ?_⟩
    · rcases hold x hx hturn with ⟨-, hat⟩ | ⟨-, hx⟩
      · exact hat.height
      · exact hb.height x hx hturn
    · rcases hold x hx hturn with ⟨-, hat⟩ | ⟨hge, -⟩
      · exact hat.fresh
      · omega
    · rcases hold x hx hturn with ⟨hlt, -⟩ | ⟨-, hx⟩
      · omega
      · exact hb.stale x hx hturn hle
    · refine ⟨x₀, ?_, hturn₀, hle₀, htotal₀⟩
      rw [hzip, List.mem_append] at hx₀
      rw [hzip', List.mem_append]
      refine .inr (hx₀.resolve_left fun hx => ?_)
      have := lt_length hx
      omega

/-- What a class with weights that are right makes of results: it takes them
all, and when the last of them is that of the root of the oldest tree, this
tree comes out. -/
theorem fold_settled (hh : 0 < h) (hD : 0 < D) (hts : List.Forall₂ (fun t g => g.Of res t) ts gs)
    (hp : Placed D gs) (hset : Settled D gs (D - 1)) (hys : ys <+: (workFrom res D 0 gs).map res)
    (hok : Exn.fold (addMergeJobsStep h D seqNo) ([], none, ys.map Job.merge) ts.zipIdx = .ok r) :
    (∃ ts', ∃ gs' : List (Standing B h), ∃ rest, r = (ts'.reverse, none, rest) ∧
      List.Forall₂ (fun t g => g.Of res t) ts' gs' ∧ Took res D ys.length gs gs' ∧ Settled D gs' (D - 1) ∧
      (gs.length = (h + 1) * D → Asking D gs')) ∨
    ∃ ts' t' rest, ∃ gs₀ gs' : List (Standing B h), ∃ g g' : Standing B h,
      r = (t' :: ts'.reverse, some (proof res g.ds h 0), rest) ∧
      List.Forall₂ (fun t g => g.Of res t) ts' gs' ∧ gs = gs₀ ++ [g] ∧ gs.length = (h + 1) * D ∧
      Took res D (workFrom res D 0 gs₀).length gs₀ gs' ∧ (workFrom res D 0 gs₀).length < ys.length ∧
      (∀ x ∈ gs₀.zipIdx, x.2 % D = D - 1 → x.1.front.ready (x.2 / D) = 2 ^ (h - x.2 / D)) ∧
      g'.Of res t' ∧ g'.ds = g.ds := by
  have hlen := hts.length_eq
  have hle := hys.length_le
  rw [List.length_map] at hle
  have hat : ∀ x ∈ gs.zipIdx, x.2 % D = D - 1 → AtWork D x := fun x hx hturn =>
    hp.atWork hx (hset x hx hturn).1 (hset x hx hturn).2
  rcases Nat.eq_or_lt_of_le hp.length with hfull | hroom
  case inr =>
    obtain ⟨ts', gs', rfl, hts', htaken⟩ := fold_fresh (n := 0) hh hD hts hat (by omega) []
      (by rw [List.append_nil]; exact hys) hok
    refine .inl ⟨ts', gs', _, by rw [List.append_nil], hts', ⟨htaken.kept, htaken.data, fun x hx hturn =>
      (htaken.work x hx hturn).idle, fun x hx hturn => ?_, ?_⟩, fun x hx hturn =>
        ⟨(htaken.work x hx hturn).height, (htaken.work x hx hturn).fresh⟩, fun hlen => absurd hlen (by omega)⟩
    · have hlt := lt_length hx
      rw [htaken.kept.length] at hlt
      exact Placed.root_below hD (by omega) hturn (htaken.work x hx hturn)
    · have := htaken.left
      omega
  case inl =>
    have hne : gs ≠ [] := List.ne_nil_of_length_pos (by rw [hfull]; exact Nat.mul_pos (Nat.succ_pos h) hD)
    obtain ⟨gs₀, g, rfl⟩ := (List.eq_nil_or_concat' gs).resolve_left hne
    obtain ⟨ts₀, t, rfl, hts₀, hg⟩ := forall₂_snoc hts
    rw [List.length_append, List.length_singleton] at hfull
    have hlen₀ := hts₀.length_eq
    have hlast := root_div (h := h) hD (n := gs₀.length) hfull
    have hzip : (gs₀ ++ [g]).zipIdx = gs₀.zipIdx ++ [(g, gs₀.length)] := by
      rw [List.zipIdx_append, Nat.zero_add, List.zipIdx_singleton]
    have hinit : ∀ x ∈ gs₀.zipIdx, x ∈ (gs₀ ++ [g]).zipIdx := fun x hx => by
      rw [hzip]
      exact List.mem_append_left _ hx
    have hmem : (g, gs₀.length) ∈ (gs₀ ++ [g]).zipIdx := by
      rw [hzip]
      exact List.mem_append_right _ (List.mem_singleton_self _)
    have hatg := hat _ hmem hlast.1
    have hwork : workFrom res D 0 (gs₀ ++ [g]) = workFrom res D 0 gs₀ ++ g.front.jobs res g.ds (gs₀.length / D) := by
      rw [workFrom_append, Nat.zero_add, workFrom, if_pos hlast.1, workFrom, List.append_nil]
    rw [List.zipIdx_append, Nat.zero_add, List.zipIdx_singleton, Exn.fold_append, hlen₀] at hok
    obtain ⟨r₁, hok₁, hok⟩ := Exn.andThen_eq_ok.1 hok
    rw [hwork, List.map_append] at hys
    obtain ⟨ts', gs', rfl, hts', htaken⟩ := fold_fresh (n := 0) hh hD hts₀ (fun x hx => hat x (hinit x hx))
      (by omega) _ hys hok₁
    have hroot : ∀ x ∈ gs'.zipIdx, x.2 % D = D - 1 → x.1.front.done h = 0 := fun x hx hturn => by
      have hlt := lt_length hx
      rw [htaken.kept.length] at hlt
      exact Placed.root_below hD (by omega) hturn (htaken.work x hx hturn)
    have hleft := htaken.left
    have hlen' := htaken.kept.length
    rw [Exn.fold] at hok
    obtain ⟨r₂, hstep, hok⟩ := Exn.andThen_eq_ok.1 hok
    cases hok
    rcases Nat.lt_or_ge (workFrom res D 0 gs₀).length ys.length with hmore | hless
    case inl =>
      have hrest : ys.drop (workFrom res D 0 gs₀).length ≠ [] := by
        rw [ne_eq, List.drop_eq_nil_iff]
        omega
      have hys' : ys.drop (workFrom res D 0 gs₀).length <+: (g.front.jobs res g.ds (gs₀.length / D)).map res ++ [] := by
        have hdrop := hys.drop (workFrom res D 0 gs₀).length
        rw [List.drop_left' (List.length_map _)] at hdrop
        rw [List.append_nil]
        exact hdrop
      obtain ⟨t', out, g', rfl, hg', -, hout, hds, -⟩ :=
        step_fresh hh hg hatg hlast.1 (hp.root _ hmem) hrest [] hys' hstep
      rw [hlast.2, if_pos rfl] at hout
      refine .inr ⟨ts', t', _, gs₀, gs', g, g', by rw [hout, List.append_nil], hts', rfl, by simpa using hfull,
        ⟨htaken.kept, htaken.data, fun x hx hturn => (htaken.work x hx hturn).idle, hroot, by omega⟩, hmore, htaken.all hmore, hg', hds⟩
    case inr =>
      rw [List.drop_eq_nil_of_le hless, List.map_nil, List.append_nil] at hstep
      rw [addMergeJobsStep_idle _ _ rfl] at hstep
      cases hstep
      have hzip' : (gs' ++ [g]).zipIdx = gs'.zipIdx ++ [(g, gs₀.length)] := by
        rw [List.zipIdx_append, Nat.zero_add, List.zipIdx_singleton, hlen']
      have hold : ∀ x ∈ (gs' ++ [g]).zipIdx, x ∈ gs'.zipIdx ∨ x = (g, gs₀.length) := fun x hx => by
        rw [hzip', List.mem_append, List.mem_singleton] at hx
        exact hx
      have hatall : ∀ x ∈ (gs' ++ [g]).zipIdx, x.2 % D = D - 1 → AtWork D x := fun x hx hturn => by
        rcases hold x hx with hx | rfl
        · exact htaken.work x hx hturn
        · exact hatg
      refine .inl ⟨ts' ++ [t], gs' ++ [g], [], by rw [List.reverse_append]; rfl,
        List.rel_append hts' (.cons hg .nil), ⟨htaken.kept.append (Kept.refl D _ [g]), ?_,
          fun x hx hturn => (hatall x hx hturn).idle, fun x hx hturn => ?_, ?_⟩,
        fun x hx hturn => ⟨(hatall x hx hturn).height, (hatall x hx hturn).fresh⟩, fun _ _ _ _ => ?_⟩
      · rw [List.map_append, htaken.data, ← List.map_append]
      · rcases hold x hx with hx | rfl
        · exact hroot x hx hturn
        · exact hp.root _ hmem
      · rw [hwork, workFrom_append, Nat.zero_add, hlen', workFrom, if_pos hlast.1, workFrom, List.append_nil,
          List.length_append, List.length_append]
        omega
      · -- the root of the oldest tree asks for its job
        refine ⟨(g, gs₀.length), by rw [hzip']; exact List.mem_append_right _ (List.mem_singleton_self _), hlast.1, ?_⟩
        have hall := hatg.fresh.all
        have hheight := hatg.height
        have hzero := hp.root _ hmem
        dsimp only at hall hheight hzero ⊢
        rw [hheight, hlast.2, hzero, Nat.sub_self, Nat.pow_zero] at hall
        omega

end Fold

/-! ## Data and full rounds -/

/-- The data of full blocks, newest first, in the order in which they came. -/
def blocksData (h : Nat) (dss : List (Nat → B)) : List B := dss.reverse.flatMap fun ds => (List.range (2 ^ h)).map ds

theorem blocksData_append (dss dss' : List (Nat → B)) :
    blocksData h (dss ++ dss') = blocksData h dss' ++ blocksData h dss := by
  rw [blocksData, List.reverse_append, List.flatMap_append]
  rfl

/-- The jobs of a round of which none is completed, when every tree has all
its jobs. -/
theorem length_workFrom (hD : 0 < D) (hlen : gs.length / D ≤ h + 1)
    (hjobs : ∀ x ∈ gs.zipIdx, x.2 % D = D - 1 → x.1.front.done (x.2 / D) = 0 ∧
      x.1.front.ready (x.2 / D) = 2 ^ (h - x.2 / D)) :
    (workFrom res D 0 gs).length = before h (gs.length / D) := by
  induction gs using List.reverseRecOn with
  | nil => rw [List.length_nil, Nat.zero_div, before_zero]; rfl
  | append_singleton gs g ih =>
    have hzip : (gs ++ [g]).zipIdx = gs.zipIdx ++ [(g, gs.length)] := by
      rw [List.zipIdx_append, Nat.zero_add, List.zipIdx_singleton]
    rw [hzip] at hjobs
    rw [List.length_append, List.length_singleton] at hlen ⊢
    have hle := (Nat.div_le_div_right (c := D) (Nat.le_succ gs.length)).trans hlen
    rw [workFrom_append, List.length_append, ih hle fun x hx => hjobs x (List.mem_append_left _ hx), Nat.zero_add,
      workFrom, workFrom, List.append_nil]
    by_cases hturn : gs.length % D = D - 1
    · obtain ⟨hdone, hready⟩ := hjobs (g, gs.length) (List.mem_append_right _ (List.mem_singleton_self _)) hturn
      rw [mod_succ hD hturn] at hlen ⊢
      dsimp only at hdone hready
      rw [if_pos hturn, Frontier.length_jobs, hdone, hready, Nat.sub_zero, before_succ (by omega)]
    · rw [if_neg hturn, List.length_nil, Nat.add_zero, mod_succ_ne hD hturn]

/-! ## The operation -/

/-- The scan state has the data `l` on its current tree, and the others stand
as `gs` say. -/
structure Stands (res : AvailableJob M B → M) (D : Nat) (l : List B) (gs : List (Standing B h)) (s : State M B) :
    Prop where
  depth : ceilLog2 s.maxBaseJobs = h
  delay : s.delay + 1 = D
  room : l.length < 2 ^ h
  head : Filling h l s.trees.head
  tail : List.Forall₂ (fun t g => g.Of res t) s.trees.tail gs

section Operation

variable {s s' : State M B} {l : List B}

theorem Stands.pos (hs : Stands res D l gs s) : 0 < D := by
  have := hs.delay
  omega

theorem Stands.maxTrees (hs : Stands res D l gs s) : s.maxTrees = (h + 1) * D + 1 := by
  rw [State.maxTrees, hs.depth, hs.delay]

theorem Stands.workForTree (hs : Stands res D l gs s) (hlen : gs.length ≤ (h + 1) * D) :
    s.workForTree .current = workFrom res D 0 gs := by
  have hD := hs.pos
  have hdiv : s.trees.tail.length / D ≤ h + 1 := by
    rw [hs.tail.length_eq]
    exact (Nat.div_le_div_right hlen).trans (by rw [Nat.mul_div_cancel _ hD])
  have hwork := work_eq_workFrom hD hs.depth hs.tail hdiv
  rw [← hs.delay] at hwork ⊢
  exact hwork

theorem addMergeJobs_fold {xs : List M} {r : Option (M × List B) × State M B} (hne : xs ≠ [])
    (hok : State.addMergeJobs xs s = .ok r) : xs.length ≤ (s.workForTree .current).length ∧
      ∃ q, Exn.fold (addMergeJobsStep (ceilLog2 s.maxBaseJobs) (s.delay + 1) s.currJobSeqNo)
        ([], none, xs.map Job.merge) s.trees.tail.zipIdx = .ok q := by
  have hpos := List.length_pos_iff.2 hne
  rw [State.addMergeJobs, if_neg (by omega)] at hok
  simp only [check] at hok
  split at hok
  · cases hok
  next hle =>
    rw [List.length_map] at hle
    obtain ⟨q, hq, -⟩ := Exn.andThen_eq_ok.1 hok
    exact ⟨not_lt.1 hle, q, hq⟩

/-- What the results of `completed` jobs make of the line. -/
structure Worked (res : AvailableJob M B → M) (D n : Nat) (gs gs' : List (Standing B h))
    (out : Option (M × List B)) : Prop where
  sound : Sound D gs'
  length : gs'.length ≤ gs.length
  data : Pipeline.emitted out ++ blocksData h (gs'.map (·.ds)) = blocksData h (gs.map (·.ds))
  proof : ∀ o ∈ out, ∃ ds : Nat → B, o = (ParallelScan.proof res ds h 0, (List.range (2 ^ h)).map ds)
  next : 2 ≤ D → workFrom res D 1 gs' = workFrom res D 1 gs
  all : (workFrom res D 0 gs).length ≤ n → workFrom res D 0 gs' = []
  root : out ≠ none → (∀ x ∈ gs.zipIdx, x.2 % D = D - 1 → x.1.front.done (x.2 / D) = 0) → before h h < n

theorem workFrom_map {f : Standing B h × Nat → Standing B h} (hf : ∀ x, (f x).ds = x.1.ds ∧ (f x).front = x.1.front)
    (n k : Nat) (gs : List (Standing B h)) : workFrom res D n ((gs.zipIdx k).map f) = workFrom res D n gs := by
  induction gs generalizing n k with
  | nil => rfl
  | cons g gs ih =>
    obtain ⟨hds, hfront⟩ := hf (g, k)
    rw [List.zipIdx_cons, List.map_cons, workFrom, workFrom, ih, hds, hfront]

theorem map_ds {f : Standing B h × Nat → Standing B h} (hf : ∀ x, (f x).ds = x.1.ds) (k : Nat)
    (gs : List (Standing B h)) : ((gs.zipIdx k).map f).map (·.ds) = gs.map (·.ds) := by
  induction gs generalizing k with
  | nil => rfl
  | cons g gs ih => rw [List.zipIdx_cons, List.map_cons, List.map_cons, List.map_cons, ih, hf]

theorem Worked.refl (hs : Sound D gs) : Worked res D 0 gs gs none where
  sound := hs
  length := le_rfl
  data := rfl
  proof o ho := by cases ho
  next _ := rfl
  all hle := List.eq_nil_of_length_eq_zero (by omega)
  root hne := absurd rfl hne

/-- The line after results from which none came out. -/
theorem Took.worked {n : Nat} (ht : Took res D n gs gs') (hs : Sound D gs')  : Worked res D n gs gs' none where
  sound := hs
  length := ht.kept.length.le
  data := by
    rw [ht.data]
    rfl
  proof o ho := by cases ho
  next hD := ht.kept.workFrom_succ hD
  all hle := List.eq_nil_of_length_eq_zero (by have := ht.left; omega)
  root hne := absurd rfl hne

theorem Took.worked_reset {n : Nat} (hD : 0 < D) (ht : Took res D n gs gs') (hp : Placed D gs')
    (hclear : workFrom res D 0 gs' = []) : Worked res D n gs (gs'.zipIdx.map (resetAt D)) none where
  sound := hp.reset hD (cleared_of_workFrom hclear)
  length := by
    rw [List.length_map, List.length_zipIdx]
    exact ht.kept.length.le
  data := by
    rw [map_ds (f := resetAt D) fun _ => rfl, ht.data]
    rfl
  proof o ho := by cases ho
  next hD := by
    rw [workFrom_map (f := resetAt D) fun _ => ⟨rfl, rfl⟩]
    exact ht.kept.workFrom_succ hD
  all _ := by rw [workFrom_map (f := resetAt D) fun _ => ⟨rfl, rfl⟩, hclear]
  root hne := absurd rfl hne

theorem workFrom_of_cleared (hclear : Cleared D gs) : workFrom res D 0 gs = [] := by
  by_contra hne
  obtain ⟨x, hx, hturn, hlt⟩ := exists_of_workFrom hne
  exact absurd (hclear x hx hturn) hlt.ne

/-- Results of the jobs that are listed, in order, keep the line sound. -/
theorem Stands.addMergeJobs (hh : 0 < h) (hs : Stands res D l gs s) (hsound : Sound D gs)
    {completed : List (AvailableJob M B)} (hlisted : completed <+: workFrom res D 0 gs) {out : Option (M × List B)}
    (hok : State.addMergeJobs (completed.map res) s = .ok (out, s')) :
    ∃ gs' : List (Standing B h), Stands res D l gs' s' ∧ Worked res D completed.length gs gs' out := by
  have hD := hs.pos
  by_cases hnil : completed = []
  · subst hnil
    cases hok
    exact ⟨gs, hs, .refl hsound⟩
  have hlen : (completed.map res).length = completed.length := List.length_map _
  have hpos := List.length_pos_iff.2 hnil
  obtain ⟨hle, q, hfold⟩ := addMergeJobs_fold (by rw [ne_eq, List.map_eq_nil_iff]; exact hnil) hok
  have hwork := hs.workForTree hsound.length
  rw [hwork, hlen] at hle
  have hys := hlisted.map res
  have hfold' := hfold
  rw [hs.depth, hs.delay] at hfold
  -- none came out: the weights are reset when all that is listed is completed and there is room
  have hnone : ∀ (ts' : List (JobTree M B)) (gs' : List (Standing B h)) (rest : List (Job M B)),
      q = (ts'.reverse, none, rest) → List.Forall₂ (fun t g => g.Of res t) ts' gs' →
      Took res D (completed.map res).length gs gs' →
      (workFrom res D 0 gs' ≠ [] ∨ gs.length = (h + 1) * D → Sound D gs') →
      ∃ gs' : List (Standing B h), Stands res D l gs' s' ∧ Worked res D completed.length gs gs' out := by
    rintro ts' gs' rest rfl hts' htook hsound'
    have hdone := addMergeJobs_none (by omega) (by rw [hwork]; omega) hfold'
    rw [hok, Except.ok.injEq, Prod.mk.injEq] at hdone
    obtain ⟨rfl, rfl⟩ := hdone
    rw [hlen] at htook
    have hleft := htook.left
    have hlen' := htook.kept.length
    have hts := hts'.length_eq
    rw [hs.maxTrees, hwork, hlen]
    by_cases hreset : ts'.length + 1 < (h + 1) * D + 1 ∧ completed.length = (workFrom res D 0 gs).length
    · rw [if_pos hreset]
      have hclear : workFrom res D 0 gs' = [] := List.eq_nil_of_length_eq_zero (by omega)
      have hplaced := htook.placed hsound.toPlaced
      exact ⟨_, ⟨hs.depth, hs.delay, hs.room, hs.head, hplaced.forall₂_reset hh hD hts'⟩,
        htook.worked_reset hD hplaced hclear⟩
    · rw [if_neg hreset]
      refine ⟨gs', ⟨hs.depth, hs.delay, hs.room, hs.head, hts'⟩, htook.worked (hsound' ?_)⟩
      by_cases hroom : gs.length = (h + 1) * D
      · exact .inr hroom
      · have := hsound.length
        exact .inl (List.ne_nil_of_length_pos (by omega))
  rcases hsound.working with ⟨hset, -⟩ | hbehind | hfinished
  · rcases fold_settled hh hD hs.tail hsound.toPlaced hset hys hfold with
      ⟨ts', gs', rest, rfl, hts', htook, hset', hasking⟩ |
        ⟨ts', t', rest, gs₀, gs', g, g', rfl, hts', rfl, hfull, htook, hmore, hready, hg', hds⟩
    · refine hnone ts' gs' rest rfl hts' htook fun hwhy => ⟨htook.placed hsound.toPlaced, htook.waiting hsound, .inl ⟨hset', ?_⟩⟩
      exact hwhy.elim (asking_of_workFrom hset') hasking
    · have hdone := addMergeJobs_some (by omega) (by rw [hwork]; omega) hfold'
      rw [hok, Except.ok.injEq, Prod.mk.injEq] at hdone
      obtain ⟨rfl, rfl⟩ := hdone
      rw [List.length_append, List.length_singleton] at hfull
      have hlast := root_div (h := h) hD (n := gs₀.length) hfull
      have hzip : (gs₀ ++ [g]).zipIdx = gs₀.zipIdx ++ [(g, gs₀.length)] := by
        rw [List.zipIdx_append, Nat.zero_add, List.zipIdx_singleton]
      have hinit : ∀ x ∈ gs₀.zipIdx, x ∈ (gs₀ ++ [g]).zipIdx := fun x hx => by
        rw [hzip]
        exact List.mem_append_left _ hx
      have hplaced₀ : Placed D gs₀ := ⟨by omega, fun x hx => hsound.idle x (hinit x hx),
        fun x hx => hsound.waits x (hinit x hx), fun x hx => hsound.root x (hinit x hx)⟩
      have hplaced := htook.placed hplaced₀
      have hclear : workFrom res D 0 gs' = [] := List.eq_nil_of_length_eq_zero (by have := htook.left; omega)
      have hdata := hg'.content.data
      have hworked := htook.worked_reset hD hplaced hclear
      rw [hds] at hdata
      refine ⟨_, ⟨hs.depth, hs.delay, hs.room, hs.head, hplaced.forall₂_reset hh hD hts'⟩, hworked.sound, ?_, ?_, ?_, ?_,
        fun _ => by rw [workFrom_map (f := resetAt D) fun _ => ⟨rfl, rfl⟩, hclear], fun _ hstart => ?_⟩
      · rw [List.length_append]
        exact hworked.length.trans (Nat.le_add_right _ _)
      · have hrest : blocksData h ((gs'.zipIdx.map (resetAt D)).map (·.ds)) = blocksData h (gs₀.map (·.ds)) :=
          hworked.data
        rw [hrest, List.map_append, blocksData_append, hdata]
        simp [Pipeline.emitted, blocksData]
      · intro o ho
        cases ho
        exact ⟨g.ds, by rw [hdata]⟩
      · intro hD2
        rw [hworked.next hD2, workFrom_append, workFrom, workFrom, List.append_nil, Nat.add_comm 1, hfull,
          Nat.mul_mod_left, if_neg (by omega), List.append_nil]
      · -- before the root all jobs of the round come
        have hround : (workFrom res D 0 gs₀).length = _ := length_workFrom hD (by rw [hlast.2]; omega)
          fun x hx hturn => ⟨hstart x (hinit x hx) hturn, hready x hx hturn⟩
        rw [hlast.2] at hround
        omega
  · obtain ⟨ts', gs', rest, rfl, hts', htook, hbehind'⟩ := fold_behind hh hD hs.tail hbehind
      (fun x hx _ => hsound.idle x hx) (fun x hx _ => hsound.root x hx) hys hfold
    exact hnone ts' gs' rest rfl hts' htook fun _ =>
      ⟨htook.placed hsound.toPlaced, htook.waiting hsound, .inr (.inl hbehind')⟩
  · have hempty : workFrom res D 0 gs = [] := workFrom_of_cleared hfinished.1
    rw [hempty, List.length_nil] at hle
    omega

end Operation

/-! ## A full block -/

section Rotate

variable {g₀ : Standing B h}

theorem succ_mod_turn {p : Nat} (hD : 0 < D) (hturn : p % D = D - 1) : (p + 1) % D = 0 := by
  rw [← Nat.mod_add_mod, hturn, Nat.sub_add_cancel hD, Nat.mod_self]

theorem succ_mod_ne {p : Nat} (hD : 0 < D) (hturn : p % D ≠ D - 1) : (p + 1) % D = p % D + 1 := by
  have hlt := Nat.mod_lt p hD
  rw [← Nat.mod_add_mod, Nat.mod_eq_of_lt (by omega)]

/-- How a tree stands that has moved one position. -/
def moved (D : Nat) (x : Standing B h × Nat) : Standing B h :=
  if hx : (x.2 % D = D - 1 ∧ x.1.height = x.2 / D) ∧ x.1.height < h then x.1.lift hx.2 else x.1

/-- The line after a full block. -/
def rotated (D : Nat) (g₀ : Standing B h) (gs : List (Standing B h)) : List (Standing B h) :=
  g₀ :: gs.zipIdx.map (moved D)

theorem moved_of (x : Standing B h × Nat) {t : JobTree M B} (hx : x.1.Of res t) : (moved D x).Of res t := by
  rw [moved]
  split
  · exact hx.lift
  · exact hx

theorem moved_jobs (x : Standing B h × Nat) : (moved D x).ds = x.1.ds ∧ (moved D x).front = x.1.front := by
  rw [moved]
  split
  · exact ⟨rfl, rfl⟩
  · exact ⟨rfl, rfl⟩

theorem moved_waits {x : Standing B h × Nat} (hturn : x.2 % D ≠ D - 1) : moved D x = x.1 := by
  rw [moved, dif_neg fun hx => hturn hx.1.1]

theorem moved_turn {x : Standing B h × Nat} (hturn : x.2 % D = D - 1) (hheight : x.1.height = x.2 / D)
    (hlt : x.1.height < h) : moved D x = x.1.lift hlt := by
  rw [moved, dif_pos ⟨⟨hturn, hheight⟩, hlt⟩]

theorem mem_rotated {x : Standing B h × Nat} :
    x ∈ (rotated D g₀ gs).zipIdx ↔ x = (g₀, 0) ∨ ∃ y ∈ gs.zipIdx, x = (moved D y, y.2 + 1) := by
  rw [rotated, List.zipIdx_cons, List.mem_cons, List.zipIdx_succ, List.mem_map]
  refine or_congr_right ⟨?_, ?_⟩
  · rintro ⟨z, hz, rfl⟩
    obtain ⟨y, hy, rfl⟩ := mem_zipIdx_map.1 hz
    exact ⟨y, hy, rfl⟩
  · rintro ⟨y, hy, rfl⟩
    exact ⟨_, mem_zipIdx_map.2 ⟨y, hy, rfl⟩, rfl⟩

theorem length_rotated : (rotated D g₀ gs).length = gs.length + 1 := by
  rw [rotated, List.length_cons, List.length_map, List.length_zipIdx]

theorem forall₂_rotated {ts : List (JobTree M B)} {t₀ : JobTree M B} (h₀ : g₀.Of res t₀)
    (hts : List.Forall₂ (fun t g => g.Of res t) ts gs) :
    List.Forall₂ (fun t g => g.Of res t) (t₀ :: ts) (rotated D g₀ gs) := by
  refine .cons h₀ ?_
  have hmap := forall₂_map (f := moved D) (k := id) hts fun x _ t hx => moved_of x hx
  rw [List.map_id] at hmap
  exact hmap

/-- How a tree stands whose data have just become full. -/
def blockStanding (ds : Nat → B) : Standing B h := .counted ds (Frontier.start h) 0 (Nat.zero_le h)

theorem blockStanding_fresh (ds : Nat → B) : (blockStanding (h := h) ds).Fresh := Standing.counted_fresh _

variable {ds : Nat → B}

theorem Placed.div_lt (hD : 0 < D) (hlen : gs.length < (h + 1) * D) {x : Standing B h × Nat} (hx : x ∈ gs.zipIdx)
    (hturn : x.2 % D = D - 1) : x.2 / D < h :=
  ParallelScan.div_lt hD hturn (by have := lt_length hx; omega)

/-- The first class is the new tree and the class whose turn it was. -/
theorem rotated_zero (hD : 0 < D) {x : Standing B h × Nat} (hx : x ∈ (rotated D (blockStanding ds) gs).zipIdx)
    (hzero : x.2 % D = 0) : x = (blockStanding ds, 0) ∨
      ∃ y ∈ gs.zipIdx, y.2 % D = D - 1 ∧ x = (moved D y, y.2 + 1) ∧ (y.2 + 1) / D = y.2 / D + 1 ∧ D ≤ y.2 + 1 := by
  refine (mem_rotated.1 hx).imp_right ?_
  rintro ⟨y, hy, rfl⟩
  have hturn : y.2 % D = D - 1 := by
    by_contra hne
    have hsucc := succ_mod_ne hD hne
    dsimp only at hzero
    omega
  have hle := Nat.mod_le y.2 D
  exact ⟨y, hy, hturn, rfl, mod_succ hD hturn, by omega⟩

/-- When some weight asks for a job, the class that moves on is behind. -/
theorem behind_rotated (hD : 0 < D) (hlen : gs.length < (h + 1) * D)
    (hheight : ∀ y ∈ gs.zipIdx, y.2 % D = D - 1 → y.1.height = y.2 / D)
    (hstale : ∀ y ∈ gs.zipIdx, y.2 % D = D - 1 → ∀ hlt : y.1.height < h, (y.1.lift hlt).Stale)
    (hleft : ∃ y ∈ gs.zipIdx, y.2 % D = D - 1 ∧ 0 < y.1.total) : Behind D (rotated D (blockStanding ds) gs) 0 := by
  have hlift : ∀ y ∈ gs.zipIdx, y.2 % D = D - 1 → ∃ hlt : y.1.height < h, moved D y = y.1.lift hlt := by
    intro y hy hturn
    have hlt : y.1.height < h := by
      rw [hheight y hy hturn]
      exact Placed.div_lt hD hlen hy hturn
    exact ⟨hlt, moved_turn hturn (hheight y hy hturn) hlt⟩
  refine ⟨fun x hx hzero => ?_, fun x hx hzero hlt => ?_, fun x hx hzero hle => ?_, ?_⟩
  · rcases rotated_zero hD hx hzero with rfl | ⟨y, hy, hturn, rfl, hdiv, -⟩
    · exact (Nat.zero_div D).symm
    · obtain ⟨hlt, heq⟩ := hlift y hy hturn
      dsimp only
      rw [heq, hdiv, ← hheight y hy hturn]
      rfl
  · rcases rotated_zero hD hx hzero with rfl | ⟨y, hy, hturn, rfl, -, hge⟩
    · exact blockStanding_fresh ds
    · exact absurd hlt (by dsimp only; omega)
  · rcases rotated_zero hD hx hzero with rfl | ⟨y, hy, hturn, rfl, -, -⟩
    · exact absurd hle (by dsimp only; omega)
    · obtain ⟨hlt, heq⟩ := hlift y hy hturn
      dsimp only
      rw [heq]
      exact hstale y hy hturn hlt
  · obtain ⟨y, hy, hturn, hpos⟩ := hleft
    obtain ⟨hlt, heq⟩ := hlift y hy hturn
    have hle := Nat.mod_le y.2 D
    refine ⟨(moved D y, y.2 + 1), mem_rotated.2 (.inr ⟨y, hy, rfl⟩), succ_mod_turn hD hturn, by dsimp only; omega, ?_⟩
    dsimp only
    rw [heq, Standing.lift_total]
    exact hpos

/-- The class whose turn it was goes on with the new tree. -/
theorem Sound.rotated_first (hD : 0 < D) (hs : Sound D gs) (hlen : gs.length < (h + 1) * D) :
    Settled D (rotated D (blockStanding ds) gs) 0 ∨ Behind D (rotated D (blockStanding ds) gs) 0 := by
  have hidle : ∀ y ∈ gs.zipIdx, y.1.height = y.2 / D → y.1.front.done (y.1.height + 1) = 0 := fun y hy hheight =>
    hs.idle y hy _ (by omega)
  rcases hs.working with ⟨hset, hasking⟩ | hbehind | ⟨-, hnext⟩
  · by_cases hex : ∃ y ∈ gs.zipIdx, y.2 % D = D - 1
    · obtain ⟨y, hy, hturn⟩ := hex
      exact .inr (behind_rotated hD hlen (fun y hy hturn => (hset y hy hturn).1)
        (fun y hy hturn hlt => (hset y hy hturn).2.lift (hidle y hy (hset y hy hturn).1)) (hasking y hy hturn))
    · refine .inl fun x hx hzero => ?_
      rcases rotated_zero hD hx hzero with rfl | ⟨y, hy, hturn, -⟩
      · exact ⟨(Nat.zero_div D).symm, blockStanding_fresh ds⟩
      · exact absurd ⟨y, hy, hturn⟩ hex
  · refine .inr (behind_rotated hD hlen hbehind.height (fun y hy hturn hlt => ?_) ?_)
    · have hzero := hidle y hy (hbehind.height y hy hturn)
      rcases Nat.lt_or_ge y.2 D with hfirst | hmoved
      · exact (hbehind.fresh y hy hturn hfirst).lift hzero
      · exact (hbehind.stale y hy hturn hmoved).lift hzero
    · obtain ⟨y, hy, hturn, -, hpos⟩ := hbehind.left
      exact ⟨y, hy, hturn, hpos⟩
  · refine .inl fun x hx hzero => ?_
    rcases rotated_zero hD hx hzero with rfl | ⟨y, hy, hturn, rfl, hdiv, -⟩
    · exact ⟨(Nat.zero_div D).symm, blockStanding_fresh ds⟩
    · obtain ⟨hheight, hfresh⟩ := hnext y hy hturn (Placed.div_lt hD hlen hy hturn)
      have hsame : moved D y = y.1 := by rw [moved, dif_neg fun hy => by omega]
      dsimp only
      rw [hsame, hdiv]
      exact ⟨hheight, hfresh⟩

/-- The other classes are the next ones. -/
theorem rotated_succ (hD : 0 < D) {c : Nat} {x : Standing B h × Nat}
    (hx : x ∈ (rotated D (blockStanding ds) gs).zipIdx) (hclass : x.2 % D = c + 1) :
    ∃ y ∈ gs.zipIdx, y.2 % D = c ∧ x = (y.1, y.2 + 1) ∧ (y.2 + 1) / D = y.2 / D ∧ (y.2 < D ↔ y.2 + 1 < D) := by
  rcases mem_rotated.1 hx with rfl | ⟨y, hy, rfl⟩
  · rw [Nat.zero_mod] at hclass
    omega
  · dsimp only at hclass
    have hturn : y.2 % D ≠ D - 1 := by
      intro hturn
      rw [succ_mod_turn hD hturn] at hclass
      omega
    have hsucc := succ_mod_ne hD hturn
    refine ⟨y, hy, by omega, by rw [moved_waits hturn], mod_succ_ne hD hturn, ⟨fun hlt => ?_, fun hlt => by omega⟩⟩
    rw [Nat.mod_eq_of_lt hlt] at hturn
    omega

theorem Sound.rotated_next (ds : Nat → B) (hD : 0 < D) (hs : Sound D gs) {c : Nat} (hc : c + 1 < D) :
    Settled D (rotated D (blockStanding ds) gs) (c + 1) ∨ Behind D (rotated D (blockStanding ds) gs) (c + 1) := by
  refine (hs.waiting c hc).imp (fun hset x hx hclass => ?_) fun hb => ⟨fun x hx hclass => ?_, fun x hx hclass hlt => ?_,
    fun x hx hclass hle => ?_, ?_⟩
  · obtain ⟨y, hy, hyc, rfl, hdiv, -⟩ := rotated_succ hD hx hclass
    dsimp only
    rw [hdiv]
    exact hset y hy hyc
  · obtain ⟨y, hy, hyc, rfl, hdiv, -⟩ := rotated_succ hD hx hclass
    dsimp only
    rw [hdiv]
    exact hb.height y hy hyc
  · obtain ⟨y, hy, hyc, rfl, -, hiff⟩ := rotated_succ hD hx hclass
    exact hb.fresh y hy hyc (hiff.2 hlt)
  · obtain ⟨y, hy, hyc, rfl, -, hiff⟩ := rotated_succ hD hx hclass
    exact hb.stale y hy hyc (not_lt.1 fun hlt => absurd (hiff.1 hlt) (not_lt.2 hle))
  · obtain ⟨y, hy, hyc, hle, hpos⟩ := hb.left
    have hturn : y.2 % D ≠ D - 1 := by omega
    refine ⟨(moved D y, y.2 + 1), mem_rotated.2 (.inr ⟨y, hy, rfl⟩), ?_, by dsimp only; omega, ?_⟩
    · dsimp only
      rw [succ_mod_ne hD hturn, hyc]
    · rw [moved_waits hturn]
      exact hpos

/-- No job of a round is completed when it starts. -/
theorem Placed.rotated_start (hD : 0 < D) (hp : Placed D gs) {x : Standing B h × Nat}
    (hx : x ∈ (rotated D (blockStanding ds) gs).zipIdx) : x.1.front.done (x.2 / D) = 0 := by
  rcases mem_rotated.1 hx with rfl | ⟨y, hy, rfl⟩
  · rfl
  · dsimp only
    rw [(moved_jobs y).2]
    by_cases hturn : y.2 % D = D - 1
    · rw [mod_succ hD hturn]
      exact hp.idle y hy _ (Nat.lt_succ_self _)
    · rw [mod_succ_ne hD hturn]
      exact hp.waits y hy hturn

theorem Sound.rotated (hD : 0 < D) (hs : Sound D gs) (hlen : gs.length < (h + 1) * D) :
    Sound D (rotated D (blockStanding ds) gs) where
  length := by
    rw [length_rotated]
    exact hlen
  idle x hx e he := by
    rcases mem_rotated.1 hx with rfl | ⟨y, hy, rfl⟩
    · rfl
    · dsimp only at he ⊢
      rw [(moved_jobs y).2]
      exact hs.idle y hy e ((Nat.div_le_div_right (Nat.le_succ y.2)).trans_lt he)
  waits x hx _ := hs.toPlaced.rotated_start hD hx
  root x hx := by
    rcases mem_rotated.1 hx with rfl | ⟨y, hy, rfl⟩
    · rfl
    · dsimp only
      rw [(moved_jobs y).2]
      exact hs.root y hy
  waiting c hc := by
    cases c with
    | zero => exact hs.rotated_first hD hlen
    | succ c => exact hs.rotated_next ds hD (by omega)
  working := by
    have hlast : Settled D (ParallelScan.rotated D (blockStanding ds) gs) (D - 1) ∨
        Behind D (ParallelScan.rotated D (blockStanding ds) gs) (D - 1) := by
      rcases Nat.eq_or_lt_of_le (show 1 ≤ D from hD) with hone | hmore
      · rw [show D - 1 = 0 by omega]
        exact hs.rotated_first hD hlen
      · rw [show D - 1 = D - 2 + 1 by omega]
        exact hs.rotated_next ds hD (by omega)
    refine hlast.imp (fun hset => ⟨hset, fun x hx hturn => ⟨x, hx, hturn, ?_⟩⟩) .inl
    obtain ⟨hheight, hfresh⟩ := hset x hx hturn
    have hall := hfresh.all
    have hpow := Nat.two_pow_pos (h - x.1.height)
    rw [hheight, hs.toPlaced.rotated_start hD hx] at hall
    rw [hheight] at hpow
    omega

/-- Jobs that the first trees take. -/
theorem fold_first (hh : 0 < h) (hD : 0 < D) {ts : List (JobTree M B)} {seqNo : Int}
    {r : List (JobTree M B) × Option M × List (Job M B)} {ys : List M}
    (hts : List.Forall₂ (fun t g => g.Of res t) ts gs) (k : Nat) (hk : k < (h + 1) * D)
    (hat : ∀ x ∈ (gs.take k).zipIdx, x.2 % D = D - 1 → AtWork D x) (hys : ys <+: (workFrom res D 0 gs).map res)
    (hfew : (∀ x ∈ (gs.take k).zipIdx, x.2 % D = D - 1 → x.1.front.ready (x.2 / D) = 2 ^ (h - x.2 / D)) →
      ys.length ≤ (workFrom res D 0 (gs.take k)).length)
    (hok : Exn.fold (addMergeJobsStep h D seqNo) ([], none, ys.map Job.merge) ts.zipIdx = .ok r) :
    ∃ ts' : List (JobTree M B), r = (ts'.reverse, none, []) ∧ ts'.length = ts.length := by
  have hlen := hts.length_eq
  have hwork : workFrom res D 0 gs =
      workFrom res D 0 (gs.take k) ++ workFrom res D (gs.take k).length (gs.drop k) := by
    conv_lhs => rw [← List.take_append_drop k gs, workFrom_append, Nat.zero_add]
  rw [hwork, List.map_append] at hys
  rw [← List.take_append_drop k ts, List.zipIdx_append, Nat.zero_add, Exn.fold_append] at hok
  obtain ⟨r₁, hok₁, hok⟩ := Exn.andThen_eq_ok.1 hok
  obtain ⟨ts', gs', rfl, hts', htaken⟩ := fold_fresh (n := 0) hh hD (List.forall₂_take k hts) hat
    (by rw [List.length_take]; omega) _ hys hok₁
  have hle : ys.length ≤ (workFrom res D 0 (gs.take k)).length := by
    by_contra hlt
    exact hlt (hfew (htaken.all (not_le.1 hlt)))
  rw [List.drop_eq_nil_of_le hle, List.map_nil, List.append_nil, fold_idle] at hok
  cases hok
  have hlen' := htaken.kept.length
  have hts'len := hts'.length_eq
  refine ⟨ts' ++ ts.drop k, by rw [List.reverse_append], ?_⟩
  rw [List.length_append, hts'len, hlen', List.length_take, List.length_drop, ← hlen]
  omega

/-- With one more tree than there is room for, the root of no tree can be
merged before the jobs below it. -/
theorem Sound.fold_overlong (hh : 0 < h) (hD : 0 < D) (hs : Sound D gs) (hfull : gs.length = (h + 1) * D)
    {ts : List (JobTree M B)} {seqNo : Int} {r : List (JobTree M B) × Option M × List (Job M B)} {ys : List M}
    (hts : List.Forall₂ (fun t g => g.Of res t) ts (ParallelScan.rotated D (blockStanding ds) gs))
    (hys : ys <+: (workFrom res D 0 (ParallelScan.rotated D (blockStanding ds) gs)).map res)
    (hfew : ys.length ≤ before h h) (hone : D = 1 → ys.length ≤ 2 ^ h)
    (hok : Exn.fold (addMergeJobsStep h D seqNo) ([], none, ys.map Job.merge) ts.zipIdx = .ok r) :
    ∃ ts' : List (JobTree M B), ∃ rest, r = (ts'.reverse, none, rest) ∧ ts'.length = ts.length := by
  have hidle : ∀ x ∈ (ParallelScan.rotated D (blockStanding ds) gs).zipIdx, ∀ e, x.2 / D < e → x.1.front.done e = 0 := by
    intro x hx e he
    rcases mem_rotated.1 hx with rfl | ⟨y, hy, rfl⟩
    · rfl
    · dsimp only at he ⊢
      rw [(moved_jobs y).2]
      exact hs.idle y hy e ((Nat.div_le_div_right (Nat.le_succ y.2)).trans_lt he)
  have htake : ∀ k, ∀ x ∈ ((ParallelScan.rotated D (blockStanding ds) gs).take k).zipIdx,
      x ∈ (ParallelScan.rotated D (blockStanding ds) gs).zipIdx := by
    intro k x hx
    rw [List.mem_zipIdx_iff_getElem?, List.getElem?_take] at hx
    rw [List.mem_zipIdx_iff_getElem?]
    split at hx
    · exact hx
    · cases hx
  rcases Nat.eq_or_lt_of_le (show 1 ≤ D from hD) with hD1 | hD2
  · -- the new tree has enough to do
    subst hD1
    have hat : ∀ x ∈ ((ParallelScan.rotated 1 (blockStanding ds) gs).take 1).zipIdx, x.2 % 1 = 1 - 1 → AtWork 1 x := by
      intro x hx _
      rcases mem_rotated.1 (htake 1 x hx) with rfl | ⟨y, hy, rfl⟩
      · exact ⟨(Nat.zero_div 1).symm, hidle _ (htake 1 _ hx), blockStanding_fresh ds⟩
      · have hlt := lt_length hx
        rw [List.length_take] at hlt
        dsimp only at hlt
        omega
    have hround : (workFrom res 1 0 ((ParallelScan.rotated 1 (blockStanding ds) gs).take 1)).length = 2 ^ h := by
      rw [ParallelScan.rotated, List.take_succ_cons, List.take_zero, workFrom, if_pos (by omega), workFrom,
        List.append_nil, Frontier.length_jobs]
      rfl
    obtain ⟨ts', rfl, hlen⟩ := fold_first hh hD hts 1 (by omega) hat hys (fun _ => by rw [hround]; exact hone rfl) hok
    exact ⟨ts', [], rfl, hlen⟩
  · have hlast : D - 2 + 1 = D - 1 := by omega
    have hclass := hs.rotated_next ds hD (c := D - 2) (by omega)
    rw [hlast] at hclass
    rcases hclass with hset | hbehind
    · have hlt : (h + 1) * D - 1 < (h + 1) * D := Nat.sub_lt (Nat.mul_pos (Nat.succ_pos h) hD) Nat.one_pos
      have hlast := root_div (h := h) hD (n := (h + 1) * D - 1) (by omega)
      have hlenk : ((ParallelScan.rotated D (blockStanding ds) gs).take ((h + 1) * D - 1)).length = (h + 1) * D - 1 := by
        rw [List.length_take, length_rotated]
        omega
      obtain ⟨ts', rfl, hlen⟩ := fold_first hh hD hts ((h + 1) * D - 1) hlt
        (fun x hx hturn => ⟨(hset x (htake _ x hx) hturn).1, hidle x (htake _ x hx), (hset x (htake _ x hx) hturn).2⟩) hys
        (fun hready => by
          rw [length_workFrom hD (by rw [hlenk, hlast.2]; omega) fun x hx hturn =>
            ⟨hs.toPlaced.rotated_start hD (htake _ x hx), hready x hx hturn⟩, hlenk, hlast.2]
          exact hfew) hok
      exact ⟨ts', [], rfl, hlen⟩
    · obtain ⟨ts', gs', rest, rfl, hts', htook, -⟩ := fold_behind hh hD hts hbehind (fun x hx _ => hidle x hx)
        (fun x hx _ => by
          rcases mem_rotated.1 hx with rfl | ⟨y, hy, rfl⟩
          · rfl
          · dsimp only
            rw [(moved_jobs y).2]
            exact hs.root y hy) hys hok
      exact ⟨ts', rest, rfl, by rw [hts'.length_eq, htook.kept.length, hts.length_eq]⟩

end Rotate

end Mina.ParallelScan
