/-
The line of trees that are being merged, when any number of the listed jobs is
completed.

The trees whose turn it is take their jobs one after another. With weights
that are right a tree takes the jobs that are listed for it, and refuses more
unless it is left with nothing to do (`step_fresh`), so the line takes what is
listed in order (`fold_fresh`). With weights from before the trees moved, the
trees that moved take nothing, and one on which work was left behind refuses
all jobs (`fold_stale`).
-/
import Mina.ParallelScan.Standing
import Mina.ParallelScan.Update

namespace Mina.ParallelScan

open Mina.ParallelScan.Tree State

variable {M B : Type} {h D : Nat} {res : AvailableJob M B → M}

/-! ## What is listed -/

/-- The jobs that are listed for the trees from the `n`th on. -/
def workFrom (res : AvailableJob M B → M) (D : Nat) : Nat → List (Standing B h) → List (AvailableJob M B)
  | _, [] => []
  | n, g :: gs => (if n % D = D - 1 then g.front.jobs res g.ds (n / D) else []) ++ workFrom res D (n + 1) gs

theorem workFrom_append (n : Nat) (gs gs' : List (Standing B h)) :
    workFrom res D n (gs ++ gs') = workFrom res D n gs ++ workFrom res D (n + gs.length) gs' := by
  induction gs generalizing n with
  | nil => rfl
  | cons g gs ih => rw [List.cons_append, workFrom, workFrom, ih, List.append_assoc, List.length_cons, Nat.add_right_comm,
      Nat.add_assoc]

theorem workToDo_snoc (ts : List (JobTree M B)) (t : JobTree M B) (maxBaseJobs : Nat) :
    workToDo (ts ++ [t]) maxBaseJobs =
      workToDo ts maxBaseJobs ++ t.jobsOnLevel (ceilLog2 maxBaseJobs) ((ceilLog2 maxBaseJobs : Nat) - (ts.length : Nat)) := by
  rw [workToDo, workToDo, List.zipIdx_append, List.flatMap_append, Nat.zero_add, List.zipIdx_singleton,
    List.flatMap_singleton]

theorem forall₂_snoc {α β : Type*} {R : α → β → Prop} {l : List α} {m : List β} {b : β}
    (hl : List.Forall₂ R l (m ++ [b])) : ∃ l₀ a, l = l₀ ++ [a] ∧ List.Forall₂ R l₀ m ∧ R a b := by
  obtain ⟨a, l₁, hab, hnil, hdrop⟩ := List.forall₂_cons_right_iff.1 (List.forall₂_drop_append l m [b] hl)
  obtain rfl := List.forall₂_nil_right_iff.1 hnil
  exact ⟨l.take m.length, a, by rw [← hdrop, List.take_append_drop], List.forall₂_take_append l m [b] hl, hab⟩

theorem workToDo_eq (hD : 0 < D) {maxBaseJobs : Nat} (hmax : ceilLog2 maxBaseJobs = h) {ts : List (JobTree M B)}
    {gs : List (Standing B h)} (hts : List.Forall₂ (fun t g => g.Of res t) ts gs) (hlen : ts.length / D ≤ h + 1) :
    workToDo (workTrees ts D) maxBaseJobs = workFrom res D 0 gs := by
  induction gs using List.reverseRecOn generalizing ts with
  | nil =>
    obtain rfl := List.forall₂_nil_right_iff.1 hts
    rfl
  | append_singleton gs g ih =>
    obtain ⟨ts₀, t, rfl, h₀, hg⟩ := forall₂_snoc hts
    have hlength := h₀.length_eq
    rw [List.length_append, List.length_singleton] at hlen
    have hle := (Nat.div_le_div_right (c := D) (Nat.le_succ ts₀.length)).trans hlen
    rw [workTrees_snoc, workFrom_append, Nat.zero_add, ← ih h₀ hle]
    by_cases hturn : ts₀.length % D = D - 1
    · rw [if_pos hturn, workToDo_snoc, workTrees_length hD, hmax]
      have hk : ts₀.length / D ≤ h := by
        rw [mod_succ hD hturn] at hlen
        omega
      rw [← Nat.cast_sub hk, hg.content.jobsAt hk, workFrom, ← hlength, if_pos hturn, workFrom, List.append_nil]
    · rw [if_neg hturn, List.append_nil, workFrom, ← hlength, if_neg hturn, workFrom, List.append_nil, List.append_nil]

theorem work_eq_workFrom (hD : 0 < D) {maxBaseJobs : Nat} (hmax : ceilLog2 maxBaseJobs = h) {ts : List (JobTree M B)}
    {gs : List (Standing B h)} (hts : List.Forall₂ (fun t g => g.Of res t) ts gs) (hlen : ts.length / D ≤ h + 1) :
    State.work ts D maxBaseJobs = workFrom res D 0 gs := by
  rw [State.work, List.take_of_length_le (by rw [workTrees_length hD, hmax]; exact hlen),
    workToDo_eq hD hmax hts hlen]

/-! ## The turn of a tree -/

/-- The weights of a tree are right for the level of its position. -/
structure AtWork (D : Nat) (x : Standing B h × Nat) : Prop where
  height : x.1.height = x.2 / D
  idle : ∀ e, x.2 / D < e → x.1.front.done e = 0
  fresh : x.1.Fresh

theorem tag_eq_ok {α : Type 1} {text : String} {x : Exn α} {a : α} (hok : tag text x = .ok a) : x = .ok a := by
  cases x with
  | ok a' => exact hok
  | error e => cases hok

section Step

variable {g : Standing B h} {t : JobTree M B} {n : Nat} {seqNo : Int} {acc : List (JobTree M B)} {sr : Option M}
  {r : List (JobTree M B) × Option M × List (Job M B)}

/-- What the step of a tree whose turn it is asks of the tree. -/
theorem step_inv (hh : 0 < h) (hg : g.Of res t) (hheight : g.height = n / D) (hturn : n % D = D - 1) {ys : List M}
    (hne : ys ≠ [])
    (hok : addMergeJobsStep h D seqNo (acc, sr, ys.map Job.merge) (t, n) = .ok r) :
    ∃ t' out, t.update Weight.mergeLens (h - g.height : Nat) seqNo ((ys.take g.total).map Job.merge) = .ok (t', out) ∧
      r = (t' :: acc, out, (ys.drop g.total).map Job.merge) := by
  have hk := g.height_le
  have hlevel : ((h : Int) - (n / D : Nat)) = ((h - g.height : Nat) : Int) := by omega
  have hjobs : ¬ (ys.map (Job.merge : M → Job M B)).isEmpty = true := by
    rw [List.isEmpty_iff, List.map_eq_nil_iff]
    exact hne
  rw [addMergeJobsStep, if_pos ⟨hturn, hjobs⟩, hg.requiredJobCount hh, Int.toNat_natCast, hlevel, ← List.map_take,
    ← List.map_drop] at hok
  obtain ⟨p, hp, hok⟩ := Exn.andThen_eq_ok.1 hok
  cases hok
  exact ⟨p.1, p.2, tag_eq_ok hp, rfl⟩

/-- A tree with weights that are right takes the jobs that are listed for
it. -/
theorem step_fresh (hh : 0 < h) (hg : g.Of res t) (hat : AtWork D (g, n)) (hturn : n % D = D - 1)
    (hroot : g.front.done h = 0) {ys : List M} (hne : ys ≠ []) (rest : List M) (hys : ys <+: (g.front.jobs res g.ds (n / D)).map res ++ rest)
    (hok : addMergeJobsStep h D seqNo (acc, sr, ys.map Job.merge) (t, n) = .ok r) :
    ∃ t' out, ∃ g' : Standing B h, r = (t' :: acc, out, (ys.drop (g.front.jobs res g.ds (n / D)).length).map Job.merge) ∧
      g'.Of res t' ∧ AtWork D (g', n) ∧ (out = if n / D = h then some (proof res g.ds h 0) else none) ∧ g'.ds = g.ds ∧
      (g'.front.jobs res g'.ds (n / D)).length + min ys.length (g.front.jobs res g.ds (n / D)).length =
        (g.front.jobs res g.ds (n / D)).length ∧
      ((g.front.jobs res g.ds (n / D)).length < ys.length → g.front.ready (n / D) = 2 ^ (h - n / D)) := by
  obtain ⟨hheight, hidle, hfresh⟩ := hat
  dsimp only at hheight hidle hfresh
  have hk := g.height_le
  have hexact := hfresh.exact _ le_rfl
  have hall := hfresh.all
  have hready := g.front.ready_le hk
  have hdone := g.front.done_le_ready g.height
  rw [← hheight] at hidle hys ⊢
  have hlen : (g.front.jobs res g.ds g.height).length = g.front.ready g.height - g.front.done g.height :=
    Frontier.length_jobs g.height
  obtain ⟨t', out, hupdate, rfl⟩ := step_inv hh hg hheight hturn hne hok
  have htake : (ys.take g.total).length = min g.total ys.length := List.length_take
  have hle : g.front.done g.height + (ys.take g.total).length ≤ g.front.ready g.height := by
    by_contra hlt
    have hmap : ((ys.take g.total).map (Job.merge : M → Job M B)).length = (ys.take g.total).length := List.length_map _
    obtain ⟨e, he⟩ := hg.refuses seqNo ((ys.take g.total).map Job.merge) 
      (by rw [hmap]; omega) (by rw [hmap]; omega)
    rw [he] at hupdate
    cases hupdate
  have hxs : ∀ q < (ys.take g.total).length,
      (ys.take g.total)[q]? = some (proof res g.ds g.height (g.front.done g.height + q)) := by
    intro q hq
    have hjob : (g.front.jobs res g.ds g.height)[q]? = some (job res g.ds g.height (g.front.done g.height + q)) := by
      rw [Frontier.jobs, List.getElem?_map, List.getElem?_drop, List.getElem?_range (by omega)]
      rfl
    have hget := List.prefix_iff_getElem?.1 hys q (show q < ys.length by omega)
    rw [List.getElem?_take_of_lt (by omega), List.getElem?_eq_getElem (show q < ys.length by omega), ← hget,
      List.getElem?_append_left (by rw [List.length_map]; omega),
      List.getElem?_map, hjob, proof_eq]
    rfl
  have hnext := hidle (g.height + 1) (Nat.lt_succ_self _)
  obtain ⟨t'', out', hupdate', hout, hg'⟩ := hg.update seqNo hh hfresh hle hnext hxs
  cases hupdate'.symm.trans hupdate
  have hdone' : (g.advance _ hle hnext).front.done g.height = g.front.done g.height + (ys.take g.total).length :=
    Frontier.advance_done hle hnext
  have hready' : (g.advance _ hle hnext).front.ready g.height = g.front.ready g.height :=
    Frontier.advance_ready hle hnext
  have hposlen := List.length_pos_iff.2 hne
  -- what the tree cannot take is what comes after its jobs
  have hdrop : ys.drop g.total = ys.drop (g.front.jobs res g.ds g.height).length := by
    rcases Nat.lt_or_ge g.total ys.length with hlt | hge
    · rw [show g.total = (g.front.jobs res g.ds g.height).length by omega]
    · rw [List.drop_eq_nil_of_le hge, List.drop_eq_nil_of_le (by omega)]
  refine ⟨t', out, g.advance _ hle hnext, by rw [hdrop], hg', ⟨hheight, ?_, hfresh.advance⟩, ?_, rfl, ?_, ?_⟩
  · intro e he
    dsimp only at he ⊢
    rw [← hheight] at he
    exact (Frontier.advance_done_ne hle hnext (show e ≠ g.height by omega)).trans (hidle e he)
  · rw [hout]
    by_cases heq : g.height = h
    · -- the root can get a job
      have htook : ys.take g.total ≠ [] := List.ne_nil_of_length_pos (by
        rw [heq] at hall
        have := Nat.two_pow_pos (h - h)
        omega)
      rw [if_pos heq, if_pos ⟨heq, htook⟩]
    · rw [if_neg heq, if_neg fun hn => heq hn.1]
  · rw [Frontier.length_jobs, hdone', hready', htake]
    omega
  · intro hlt
    omega

/-- Below the root, and with any number of jobs. -/
theorem step_below_root (hh : 0 < h) (hg : g.Of res t) (hat : AtWork D (g, n)) (hturn : n % D = D - 1) (hk : n / D < h)
    {ys : List M} (rest : List M) (hys : ys <+: (g.front.jobs res g.ds (n / D)).map res ++ rest)
    (hok : addMergeJobsStep h D seqNo (acc, none, ys.map Job.merge) (t, n) = .ok r) :
    ∃ t', ∃ g' : Standing B h, r = (t' :: acc, none, (ys.drop (g.front.jobs res g.ds (n / D)).length).map Job.merge) ∧
      g'.Of res t' ∧ AtWork D (g', n) ∧ g'.ds = g.ds ∧
      (g'.front.jobs res g'.ds (n / D)).length + min ys.length (g.front.jobs res g.ds (n / D)).length =
        (g.front.jobs res g.ds (n / D)).length ∧
      ((g.front.jobs res g.ds (n / D)).length < ys.length → g.front.ready (n / D) = 2 ^ (h - n / D)) := by
  by_cases hne : ys = []
  · subst hne
    rw [List.map_nil, addMergeJobsStep, if_neg fun hn => hn.2 rfl] at hok
    cases hok
    exact ⟨t, g, by rw [List.drop_nil, List.map_nil], hg, hat, rfl, by rw [List.length_nil, Nat.zero_min, Nat.add_zero],
      fun hlt => absurd hlt (Nat.not_lt_zero _)⟩
  · obtain ⟨t', out, g', rfl, hg', hat', hout, hds, hleft, hall⟩ :=
      step_fresh hh hg hat hturn (hat.idle h hk) hne rest hys hok
    have hnone : out = none := hout.trans (if_neg hk.ne)
    exact ⟨t', g', by rw [hnone], hg', hat', hds, hleft, hall⟩

end Step

/-! ## The line -/

/-- The trees from the `n`th on, of which only those whose turn it is were
changed. -/
inductive Kept (D : Nat) : Nat → List (Standing B h) → List (Standing B h) → Prop
  | nil (n : Nat) : Kept D n [] []
  | cons {n : Nat} {g g' : Standing B h} {gs gs' : List (Standing B h)} (hg : n % D ≠ D - 1 → g' = g)
    (hs : Kept D (n + 1) gs gs') : Kept D n (g :: gs) (g' :: gs')

section Fold

variable {gs : List (Standing B h)} {ts : List (JobTree M B)} {n : Nat} {seqNo : Int} {acc : List (JobTree M B)}
  {r : List (JobTree M B) × Option M × List (Job M B)}

/-- Without jobs the trees stay as they are. -/
theorem fold_idle (acc : List (JobTree M B)) (sr : Option M) (ts : List (JobTree M B)) (n : Nat) :
    Exn.fold (addMergeJobsStep h D seqNo) (acc, sr, []) (ts.zipIdx n) = .ok (ts.reverse ++ acc, sr, []) := by
  induction ts generalizing acc n with
  | nil => rfl
  | cons t ts ih =>
    have hstep : addMergeJobsStep h D seqNo (acc, sr, []) (t, n) = .ok (t :: acc, sr, []) := if_neg fun hn => hn.2 rfl
    rw [List.zipIdx_cons, Exn.fold, hstep, Exn.andThen_ok, ih, List.reverse_cons, List.append_assoc]
    rfl

/-- What the line has done with jobs `ys`, of which `n` trees came before. -/
structure Taken (res : AvailableJob M B → M) (D n : Nat) (ys : List M) (gs gs' : List (Standing B h)) : Prop where
  kept : Kept D n gs gs'
  data : gs'.map (·.ds) = gs.map (·.ds)
  work : ∀ x ∈ gs'.zipIdx n, x.2 % D = D - 1 → AtWork D x
  left : (workFrom res D n gs').length + min ys.length (workFrom res D n gs).length = (workFrom res D n gs).length
  all : (workFrom res D n gs).length < ys.length →
    ∀ x ∈ gs.zipIdx n, x.2 % D = D - 1 → x.1.front.ready (x.2 / D) = 2 ^ (h - x.2 / D)

/-- With weights that are right, the trees take what is listed for them, in
order. -/
theorem fold_fresh (hh : 0 < h) (hD : 0 < D) (hts : List.Forall₂ (fun t g => g.Of res t) ts gs)
    (hat : ∀ x ∈ gs.zipIdx n, x.2 % D = D - 1 → AtWork D x) (hlen : n + gs.length < (h + 1) * D) {ys : List M} (rest : List M)
    (hys : ys <+: (workFrom res D n gs).map res ++ rest)
    (hok : Exn.fold (addMergeJobsStep h D seqNo) (acc, none, ys.map Job.merge) (ts.zipIdx n) = .ok r) :
    ∃ ts', ∃ gs' : List (Standing B h),
      r = (ts'.reverse ++ acc, none, (ys.drop (workFrom res D n gs).length).map Job.merge) ∧
        List.Forall₂ (fun t g => g.Of res t) ts' gs' ∧ Taken res D n ys gs gs' := by
  induction hts generalizing n ys acc with
  | nil =>
    cases hok
    exact ⟨[], [], by rw [workFrom, List.length_nil, List.drop_zero]; rfl, .nil, .nil n, rfl, fun x hx => by simp at hx,
      by simp [workFrom], fun _ x hx => by simp at hx⟩
  | @cons t g ts gs hg hts ih =>
    rw [List.zipIdx_cons, Exn.fold] at hok
    obtain ⟨r₁, hstep, hok⟩ := Exn.andThen_eq_ok.1 hok
    rw [List.length_cons] at hlen
    have hat' : ∀ x ∈ gs.zipIdx (n + 1), x.2 % D = D - 1 → AtWork D x := fun x hx =>
      hat x (by rw [List.zipIdx_cons]; exact List.mem_cons_of_mem _ hx)
    by_cases hturn : n % D = D - 1
    case neg =>
      have hwork : workFrom res D n (g :: gs) = workFrom res D (n + 1) gs := by
        rw [workFrom, if_neg hturn, List.nil_append]
      rw [addMergeJobsStep, if_neg fun hn => hturn hn.1] at hstep
      cases hstep
      rw [hwork] at hys
      obtain ⟨ts', gs', rfl, hts', htaken⟩ := ih hat' (by omega) hys hok
      refine ⟨t :: ts', g :: gs', by rw [hwork, List.reverse_cons, List.append_assoc]; rfl, .cons hg hts',
        .cons (fun _ => rfl) htaken.kept, by rw [List.map_cons, List.map_cons, htaken.data], fun x hx => ?_, ?_,
        fun hlt x hx => ?_⟩
      · rw [List.zipIdx_cons, List.mem_cons] at hx
        rcases hx with rfl | hx
        · exact fun hn => absurd hn hturn
        · exact htaken.work x hx
      · rw [hwork, workFrom, if_neg hturn, List.nil_append]
        exact htaken.left
      · rw [hwork] at hlt
        rw [List.zipIdx_cons, List.mem_cons] at hx
        rcases hx with rfl | hx
        · exact fun hn => absurd hn hturn
        · exact htaken.all hlt x hx
    case pos =>
      have hk : n / D < h := div_lt hD hturn (by omega)
      have hwork : workFrom res D n (g :: gs) = g.front.jobs res g.ds (n / D) ++ workFrom res D (n + 1) gs := by
        rw [workFrom, if_pos hturn]
      have hatg : AtWork D (g, n) := hat (g, n) (by rw [List.zipIdx_cons]; exact List.mem_cons_self) hturn
      obtain ⟨t', g', rfl, hg', hatg', hds, hleft, hall⟩ := step_below_root hh hg hatg hturn hk
        ((workFrom res D (n + 1) gs).map res ++ rest)
        (by rw [← List.append_assoc, ← List.map_append, ← hwork]; exact hys) hstep
      have hys' : ys.drop (g.front.jobs res g.ds (n / D)).length <+: (workFrom res D (n + 1) gs).map res ++ rest := by
        have hdrop := hys.drop (g.front.jobs res g.ds (n / D)).length
        rw [hwork, List.map_append, List.append_assoc, List.drop_left' (List.length_map _)] at hdrop
        exact hdrop
      obtain ⟨ts', gs', rfl, hts', htaken⟩ := ih hat' (by omega) hys' hok
      have hleft' := htaken.left
      rw [List.length_drop] at hleft'
      refine ⟨t' :: ts', g' :: gs', ?_, .cons hg' hts', .cons (fun hn => absurd hturn hn) htaken.kept,
        by rw [List.map_cons, List.map_cons, hds, htaken.data], fun x hx => ?_, ?_, fun hlt x hx => ?_⟩
      · rw [hwork, List.length_append, ← List.drop_drop, List.reverse_cons, List.append_assoc]
        rfl
      · rw [List.zipIdx_cons, List.mem_cons] at hx
        rcases hx with rfl | hx
        · exact fun _ => hatg'
        · exact htaken.work x hx
      · rw [hwork, workFrom, if_pos hturn, List.length_append, List.length_append]
        omega
      · rw [hwork, List.length_append] at hlt
        rw [List.zipIdx_cons, List.mem_cons] at hx
        rcases hx with rfl | hx
        · exact fun _ => hall (by omega)
        · exact htaken.all (by rw [List.length_drop]; omega) x hx

/-- With weights from before the trees moved, and work left behind on one of
them, all jobs are refused. -/
theorem fold_stale (hh : 0 < h) (hts : List.Forall₂ (fun t g => g.Of res t) ts gs)
    (hstale : ∀ x ∈ gs.zipIdx n, x.2 % D = D - 1 → x.1.height = x.2 / D ∧ x.1.Stale)
    (hleft : ∃ x ∈ gs.zipIdx n, x.2 % D = D - 1 ∧ 0 < x.1.total) {ys : List M} (hne : ys ≠ []) (sr : Option M) :
    ∃ e, Exn.fold (addMergeJobsStep h D seqNo) (acc, sr, ys.map Job.merge) (ts.zipIdx n) = .error e := by
  induction hts generalizing n acc sr with
  | nil =>
    obtain ⟨x, hx, -⟩ := hleft
    simp at hx
  | @cons t g ts gs hg hts ih =>
    rw [List.zipIdx_cons, Exn.fold]
    cases hstep : addMergeJobsStep h D seqNo (acc, sr, ys.map Job.merge) (t, n) with
    | error e => exact ⟨e, rfl⟩
    | ok r₁ =>
      rw [Exn.andThen_ok]
      have hstale' : ∀ x ∈ gs.zipIdx (n + 1), x.2 % D = D - 1 → x.1.height = x.2 / D ∧ x.1.Stale := fun x hx =>
        hstale x (by rw [List.zipIdx_cons]; exact List.mem_cons_of_mem _ hx)
      have hrest : ¬ (n % D = D - 1 ∧ 0 < g.total) →
          ∃ x ∈ gs.zipIdx (n + 1), x.2 % D = D - 1 ∧ 0 < x.1.total := by
        intro hnot
        obtain ⟨x, hx, hturn, htotal⟩ := hleft
        rw [List.zipIdx_cons, List.mem_cons] at hx
        rcases hx with rfl | hx
        · exact absurd ⟨hturn, htotal⟩ hnot
        · exact ⟨x, hx, hturn, htotal⟩
      by_cases hturn : n % D = D - 1
      case neg =>
        rw [addMergeJobsStep, if_neg fun hn => hturn hn.1] at hstep
        cases hstep
        exact ih hstale' (hrest fun hn => hturn hn.1) _
      case pos =>
        obtain ⟨hheight, hst⟩ := hstale (g, n) (by rw [List.zipIdx_cons]; exact List.mem_cons_self) hturn
        obtain ⟨t', out, hupdate, rfl⟩ := step_inv hh hg hheight hturn hne hstep
        rcases Nat.eq_zero_or_pos g.total with hzero | hpos
        · rw [hzero, List.take_zero, List.map_nil, hg.update_nil _ _ (Nat.sub_le _ _)] at hupdate
          cases hupdate
          rw [hzero, List.drop_zero]
          exact ih hstale' (hrest fun hn => by omega) _
        · have htake : (ys.take g.total).length = min g.total ys.length := List.length_take
          have hlen := List.length_pos_iff.2 hne
          obtain ⟨e, he⟩ := hg.refuses seqNo ((ys.take g.total).map Job.merge)
            (by rw [List.length_map]; omega) (by rw [List.length_map, hst.none _ le_rfl]; omega)
          rw [he] at hupdate
          cases hupdate

end Fold

end Mina.ParallelScan
