/-
Catchup jobs and the blocks that they look for.

A block without a breadcrumb is to stay in the hash tree as long as one of the
jobs that added it has not failed (`Keeps`). The first job that adds a block
is not put among its ids, so the tree does this in a step exactly if no job
fails, or the blocks that an unfailed job still looks for have been added again
by one, too (`Replaced`).
-/
import Mina.Frontier.CatchupHashTreeFacts

namespace Mina.CatchupHashTree

open Std (ExtTreeMap ExtTreeSet)
open Relation

variable {F J : Type} [LinearOrder F] [LinearOrder J]

/-- A block without a breadcrumb that is reached from the root stays as long
as some job that added it has not failed, and the children are those whose
parent links say so. -/
structure Keeps (w w' : World F J) : Prop where
  stays : ∀ h node, w.tree.nodes[h]? = some node → node.noBreadcrumb → Reach w.tree w'.tree.root h →
    (h ∈ w'.tree.nodes ↔ ∃ job ∈ w'.adders h, job ∉ w'.failed)
  owned : ∀ h node, w'.tree.nodes[h]? = some node → node.noBreadcrumb → ∃ job ∈ w'.adders h, job ∉ w'.failed
  inverse : ChildrenInverse w'.tree

/-- Each block without a breadcrumb that a job other than `job` has added and
that job has not failed has been added by such a job also when it was in the
tree. -/
def Replaced (w : World F J) (job : J) : Prop :=
  ∀ h node, w.tree.nodes[h]? = some node → node.noBreadcrumb → Reach w.tree w.tree.root h →
    (∃ j ∈ w.adders h, j ∉ w.failed ∧ j ≠ job) → ∃ j ∈ w.again h, j ∉ w.failed ∧ j ≠ job

structure Inv (Link : F → F → Prop) (w : World F J) : Prop where
  inverse : ChildrenInverse w.tree
  linked : Linked Link w.tree
  recorded : ∀ h node s, w.tree.nodes[h]? = some node → node.state = .partOfCatchups s →
    ∀ job, job ∈ s ↔ job ∈ w.again h ∧ job ∉ w.failed
  adders : ∀ h job, job ∈ w.again h → job ∈ w.adders h
  owned : ∀ h node, w.tree.nodes[h]? = some node → node.noBreadcrumb → ∃ job ∈ w.adders h, job ∉ w.failed

variable {Link : F → F → Prop} {w w' : World F J}

theorem mem_nodes_iff {t : T F J} {h : F} : h ∈ t.nodes ↔ ∃ node, t.nodes[h]? = some node := by
  rw [ExtTreeMap.mem_iff_isSome_getElem?, Option.isSome_iff_exists]

/-- Where no block without a breadcrumb goes, all is well. -/
theorem Inv.keeps (h' : Inv Link w')
    (hkept : ∀ h node, w.tree.nodes[h]? = some node → Reach w.tree w'.tree.root h →
      ∃ node', w'.tree.nodes[h]? = some node' ∧ (node.noBreadcrumb → node'.noBreadcrumb ∨
        ∃ job ∈ w'.adders h, job ∉ w'.failed)) : Keeps w w' := by
  refine ⟨fun h node hn hno hr => ?_, h'.owned, h'.inverse⟩
  obtain ⟨node', hn', himp⟩ := hkept h node hn hr
  refine iff_of_true (mem_nodes_iff.2 ⟨node', hn'⟩) ?_
  exact (himp hno).elim (h'.owned h node' hn') id

/-! ## Adding -/

theorem Inv.start {rootHash parent : F} (hlink : Link parent rootHash) :
    Inv Link (CatchupHashTree.start rootHash parent : World F J) := by
  have hnode : ∀ h node, (CatchupHashTree.start rootHash parent : World F J).tree.nodes[h]? = some node →
      h = rootHash ∧ node = { parent, state := .haveBreadcrumb } := fun h node hn => create_nodes hn
  refine ⟨create_childrenInverse rootHash parent, fun h node hn => ?_, fun h node s hn hs => ?_, fun h job hj => ?_,
    fun h node hn hno => ?_⟩
  · obtain ⟨rfl, rfl⟩ := hnode h node hn
    exact hlink
  · obtain ⟨-, rfl⟩ := hnode h node hn
    cases hs
  · cases hj
  · obtain ⟨-, rfl⟩ := hnode h node hn
    exact absurd rfl hno

/-- One node is put in or changed, and no block goes. -/
theorem Inv.setNode (hinv : Inv Link w) {h : F} {node' : Node F J}
    (hnodes : ∀ x, w'.tree.nodes[x]? = if h = x then some node' else w.tree.nodes[x]?)
    (hinverse : ChildrenInverse w'.tree) (hfailed : w'.failed = w.failed)
    (hadders : ∀ x, ∀ j ∈ w.adders x, j ∈ w'.adders x) (hagain : ∀ x, h ≠ x → w'.again x = w.again x)
    (hagain' : ∀ j ∈ w'.again h, j ∈ w'.adders h) (hlink : Link node'.parent h)
    (hrecorded : ∀ s, node'.state = .partOfCatchups s → ∀ j, j ∈ s ↔ j ∈ w'.again h ∧ j ∉ w.failed)
    (howned : node'.noBreadcrumb → ∃ j ∈ w'.adders h, j ∉ w.failed) : Inv Link w' ∧ Keeps w w' := by
  have hkept : ∀ x, (∃ j ∈ w.adders x, j ∉ w.failed) → ∃ j ∈ w'.adders x, j ∉ w'.failed := by
    intro x hx
    obtain ⟨j, hj, hf⟩ := hx
    exact ⟨j, hadders x j hj, hfailed ▸ hf⟩
  have hinv' : Inv Link w' := by
    refine ⟨hinverse, fun x node hn => ?_, fun x node s hn hs j => ?_, fun x j hj => ?_, fun x node hn hno => ?_⟩
    · rw [hnodes] at hn
      split at hn
      next hx =>
        cases hn
        exact hx ▸ hlink
      next => exact hinv.linked x node hn
    · rw [hnodes] at hn
      rw [hfailed]
      split at hn
      next hx =>
        cases hn
        exact hx ▸ hrecorded s hs j
      next hx =>
        rw [hagain x hx]
        exact hinv.recorded x node s hn hs j
    · by_cases hx : h = x
      · exact hx ▸ hagain' j (hx ▸ hj)
      · rw [hagain x hx] at hj
        exact hadders x j (hinv.adders x j hj)
    · rw [hnodes] at hn
      split at hn
      next hx =>
        cases hn
        rw [hfailed]
        exact hx ▸ howned hno
      next => exact hkept x (hinv.owned x node hn hno)
  refine ⟨hinv', fun x node hn hno _ => iff_of_true ?_ (hkept x (hinv.owned x node hn hno)), hinv'.owned, hinverse⟩
  refine mem_nodes_iff.2 ?_
  rw [hnodes]
  split
  next => exact ⟨node', rfl⟩
  next => exact ⟨node, hn⟩

theorem Inv.add (hinv : Inv Link w) {h parent : F} {job : J} (hlink : Link parent h) (hjob : job ∉ w.failed) :
    ∃ w', step w (.add h parent job) = .ok w' ∧ Inv Link w' ∧ Keeps w w' := by
  have hadders : ∀ x, ∀ j ∈ w.adders x, j ∈ Function.update w.adders h (job :: w.adders h) x := by
    intro x j hj
    by_cases hx : x = h
    · subst hx
      rw [Function.update_self]
      exact List.mem_cons_of_mem _ hj
    · rw [Function.update_of_ne hx]
      exact hj
  have hself : job ∈ Function.update w.adders h (job :: w.adders h) h := by
    rw [Function.update_self]
    exact List.mem_cons_self
  have hrest : ∀ (again : List J) (x : F), h ≠ x → Function.update w.again h again x = w.again x :=
    fun again x hx => Function.update_of_ne hx.symm _ _
  have hagain : ∀ j ∈ Function.update w.again h (job :: w.again h) h,
      j ∈ Function.update w.adders h (job :: w.adders h) h := by
    intro j hj
    rw [Function.update_self] at hj
    rcases List.mem_cons.1 hj with rfl | hj
    · exact hself
    · exact hadders h j (hinv.adders h j hj)
  refine ⟨_, rfl, ?_⟩
  cases hn : w.tree.nodes[h]? with
  | none =>
    refine hinv.setNode (add_new hn) ?_ rfl hadders (hrest []) (fun j hj => ?_) hlink (fun s hs j => ?_)
      fun _ => ⟨job, hself, hjob⟩
    · rw [CatchupHashTree.add, hn]
      exact hinv.inverse.addNode hn _
    · dsimp only at hj
      rw [Function.update_self] at hj
      cases hj
    · cases hs
      simp [Function.update_self]
  | some node =>
    dsimp only
    cases hs : node.state with
    | haveBreadcrumb =>
      rw [add_have hn hs]
      refine hinv.setNode (h := h) (fun x => ?_) hinv.inverse rfl hadders (hrest _) hagain (hinv.linked h node hn)
        (fun s hs' => ?_) fun _ => ⟨job, hself, hjob⟩
      · split
        next hx => rw [← hx, hn]
        next => rfl
      · rw [hs] at hs'
        cases hs'
    | partOfCatchups s =>
      refine hinv.setNode (add_part hn hs) ?_ rfl hadders (hrest _) hagain (hinv.linked h node hn) (fun s' hs' j => ?_)
        fun _ => ⟨job, hself, hjob⟩
      · exact add_part_inverse hinv.inverse hn hs
      · cases hs'
        dsimp only
        rw [ExtTreeSet.mem_insert, hinv.recorded h node s hn hs, Function.update_self, List.mem_cons, compare_eq_iff_eq]
        constructor
        · intro hj
          rcases hj with rfl | ⟨hj, hf⟩
          · exact ⟨Or.inl rfl, hjob⟩
          · exact ⟨Or.inr hj, hf⟩
        · intro hj
          obtain ⟨hj, hf⟩ := hj
          exact hj.imp (fun heq => heq.symm) fun hj => ⟨hj, hf⟩

/-! ## Diffs -/

/-- The tree changes, but no node without a breadcrumb is new. -/
theorem Inv.setTree (hinv : Inv Link w) {t' : T F J} (hinverse : ChildrenInverse t')
    (hnodes : ∀ h node, t'.nodes[h]? = some node →
      w.tree.nodes[h]? = some node ∨ node.state = .haveBreadcrumb ∧ Link node.parent h)
    (hkept : ∀ h node, w.tree.nodes[h]? = some node → Reach w.tree t'.root h → h ∈ t'.nodes) :
    Inv Link { w with tree := t' } ∧ Keeps w { w with tree := t' } := by
  have hinv' : Inv Link { w with tree := t' } := by
    refine ⟨hinverse, fun h node hn => ?_, fun h node s hn hs => ?_, hinv.adders, fun h node hn hno => ?_⟩
    · rcases hnodes h node hn with hn | ⟨-, hlink⟩
      · exact hinv.linked h node hn
      · exact hlink
    · rcases hnodes h node hn with hn | ⟨hhave, -⟩
      · exact hinv.recorded h node s hn hs
      · rw [hs] at hhave
        cases hhave
    · rcases hnodes h node hn with hn | ⟨hhave, -⟩
      · exact hinv.owned h node hn hno
      · exact absurd hhave hno
  exact ⟨hinv', fun h node hn hno hr => iff_of_true (hkept h node hn hr) (hinv.owned h node hn hno), hinv'.owned,
    hinverse⟩

theorem Inv.newNode (hinv : Inv Link w) {h parent : F} (hlink : Link parent h) :
    ∃ w', step w (.diff (.newNode h parent)) = .ok w' ∧ Inv Link w' ∧ Keeps w w' := by
  refine ⟨_, rfl, ?_⟩
  rw [breadcrumbAdded]
  cases hn : w.tree.nodes[h]? with
  | none =>
    refine hinv.setTree (hinv.inverse.addNode hn _) (fun x node hx => ?_) fun x node hx _ => ?_
    · simp only [addChild, ExtTreeMap.getElem?_insert, compare_eq_iff_eq] at hx
      split at hx
      next heq =>
        cases hx
        exact Or.inr ⟨rfl, heq ▸ hlink⟩
      next => exact Or.inl hx
    · exact ExtTreeMap.mem_insert.2 (Or.inr (mem_nodes_iff.2 ⟨node, hx⟩))
  | some old =>
    refine hinv.setTree (hinv.inverse.ofParents rfl (insert_state_nodes hn _)) (fun x node hx => ?_)
      fun x node hx _ => ?_
    · simp only [ExtTreeMap.getElem?_insert, compare_eq_iff_eq] at hx
      split at hx
      next heq =>
        cases hx
        exact Or.inr ⟨rfl, heq ▸ hinv.linked h old hn⟩
      next => exact Or.inl hx
    · exact ExtTreeMap.mem_insert.2 (Or.inr (mem_nodes_iff.2 ⟨node, hx⟩))

/-- The tree is pruned to what is below the new root, after the garbage has
gone. -/
theorem Inv.pruned (hinv : Inv Link w) {rank : F → Nat} (hrank : ∀ p h, Link p h → rank p < rank h)
    {newRoot : F} {garbage : List F} {root : Node F J} (hroot : w.tree.nodes[newRoot]? = some root)
    (hgarbage : ∀ h ∈ garbage, ¬ Reach w.tree newRoot h) {t : T F J} (htroot : t.root = newRoot)
    (hinverse : ChildrenInverse t) (hnodes : ∀ x, t.nodes[x]? =
      if newRoot = x then some { root with state := .haveBreadcrumb } else if x ∈ garbage then none
      else w.tree.nodes[x]?) :
    ∃ w', ((prune t).andThen fun tree => .ok { w with tree }) = .ok w' ∧ Inv Link w' ∧ Keeps w w' := by
  obtain ⟨t', hprune, hinverse', hroot', hkept, hremoved⟩ :=
    prune_garbage hinv.inverse hinv.linked hrank hroot hgarbage htroot hinverse hnodes
  refine ⟨_, Exn.andThen_of_ok hprune _, hinv.setTree hinverse' (fun x node hx => ?_) fun x node hx hr => ?_⟩
  · by_cases hr : Reach w.tree newRoot x
    · rw [hkept x hr] at hx
      split at hx
      next heq =>
        cases hx
        exact Or.inr ⟨rfl, heq ▸ hinv.linked newRoot root hroot⟩
      next => exact Or.inl hx
    · rw [hremoved x hr] at hx
      cases hx
  · rw [hroot'] at hr
    rw [mem_nodes_iff, hkept x hr]
    split
    next => exact ⟨_, rfl⟩
    next => exact ⟨node, hx⟩

theorem Inv.rootTransitioned (hinv : Inv Link w) {rank : F → Nat} (hrank : ∀ p h, Link p h → rank p < rank h)
    {newRoot : F} {garbage : List F} {root : Node F J} (hroot : w.tree.nodes[newRoot]? = some root)
    (hgarbage : ∀ h ∈ garbage, ¬ Reach w.tree newRoot h) :
    ∃ w', step w (.diff (.rootTransitioned newRoot garbage)) = .ok w' ∧ Inv Link w' ∧ Keeps w w' := by
  have hclean : newRoot ∉ garbage := fun hin => hgarbage newRoot hin .refl
  have hinverse := hinv.inverse.removeNodes garbage
  have hnodes := removeNodes_nodes garbage w.tree
  have hroot' : (garbage.foldl removeNode w.tree).nodes[newRoot]? = some root := by
    rw [hnodes, if_neg hclean, hroot]
  rw [step, applyDiff, hroot']
  refine hinv.pruned hrank hroot hgarbage rfl (hinverse.ofParents rfl (insert_state_nodes hroot' _)) fun x => ?_
  dsimp only
  rw [ExtTreeMap.getElem?_insert, hnodes]
  simp only [compare_eq_iff_eq]

/-! ## A job fails -/

section Failed

variable (job : J)

omit [LinearOrder F] in
theorem removeJob_part {node : Node F J} {s : ExtTreeSet J compare} (hs : node.state = .partOfCatchups s) :
    node.removeJob job = { node with state := .partOfCatchups (s.erase job) } := by
  rw [Node.removeJob, hs]

omit [LinearOrder F] in
theorem removeJob_have {node : Node F J} (hs : node.state = .haveBreadcrumb) : node.removeJob job = node := by
  rw [Node.removeJob, hs]

theorem catchupFailed_some {t : T F J} {h : F} {node' : Node F J} (hn : (catchupFailed t job).nodes[h]? = some node') :
    ∃ node, t.nodes[h]? = some node ∧ node' = node.removeJob job ∧ node'.abandoned = false := by
  rw [catchupFailed_nodes, Option.filter_eq_some_iff, Option.map_eq_some_iff] at hn
  obtain ⟨⟨node, hnode, rfl⟩, ha⟩ := hn
  exact ⟨node, hnode, rfl, by simpa using ha⟩

/-- The ids that are left are the other jobs that added the block again. -/
theorem Inv.mem_erase (hinv : Inv Link w) {h : F} {node : Node F J} {s : ExtTreeSet J compare}
    (hn : w.tree.nodes[h]? = some node) (hs : node.state = .partOfCatchups s) (j : J) :
    j ∈ s.erase job ↔ j ∈ w.again h ∧ j ∉ job :: w.failed := by
  rw [ExtTreeSet.mem_erase, hinv.recorded h node s hn hs, List.mem_cons, not_or, ne_eq, compare_eq_iff_eq]
  constructor
  · intro hj
    exact ⟨hj.2.1, fun heq => hj.1 heq.symm, hj.2.2⟩
  · intro hj
    exact ⟨fun heq => hj.2.1 heq.symm, hj.1, hj.2.2⟩

/-- A block without a breadcrumb stays if another job added it again. -/
theorem Inv.mem_catchupFailed (hinv : Inv Link w) {h : F} {node : Node F J} (hn : w.tree.nodes[h]? = some node)
    (hno : node.noBreadcrumb) :
    h ∈ (catchupFailed w.tree job).nodes ↔ ∃ j ∈ w.again h, j ∉ job :: w.failed := by
  cases hs : node.state with
  | haveBreadcrumb => exact absurd hs hno
  | partOfCatchups s =>
    have habandoned : (node.removeJob job).abandoned = (s.erase job).isEmpty := by
      rw [removeJob_part job hs, Node.abandoned]
    have hempty : (s.erase job).isEmpty = false ↔ ∃ j ∈ w.again h, j ∉ job :: w.failed := by
      rw [← Bool.not_eq_true, MapSet.isEmpty_eq_true, not_forall_not]
      exact exists_congr fun j => hinv.mem_erase job hn hs j
    rw [mem_nodes_iff, catchupFailed_nodes, hn, Option.map_some, Option.filter_some, habandoned, ← hempty]
    cases (s.erase job).isEmpty <;> simp

theorem Inv.catchupFailed (hinv : Inv Link w) :
    Inv Link { w with tree := CatchupHashTree.catchupFailed w.tree job, failed := job :: w.failed } := by
  refine ⟨hinv.inverse.catchupFailed job, fun h node hn => ?_, fun h node s hn hs j => ?_, hinv.adders,
    fun h node hn hno => ?_⟩
  · obtain ⟨old, hold, rfl, -⟩ := catchupFailed_some job hn
    rw [removeJob_parent]
    exact hinv.linked h old hold
  · obtain ⟨old, hold, rfl, -⟩ := catchupFailed_some job hn
    cases hs' : old.state with
    | haveBreadcrumb =>
      rw [removeJob_have job hs', hs'] at hs
      cases hs
    | partOfCatchups s' =>
      rw [removeJob_part job hs'] at hs
      cases hs
      exact hinv.mem_erase job hold hs' j
  · obtain ⟨old, hold, rfl, -⟩ := catchupFailed_some job hn
    have hno' : old.noBreadcrumb := fun hs => hno (by rw [removeJob_have job hs, hs])
    obtain ⟨j, hj, hf⟩ := (hinv.mem_catchupFailed job hold hno').1 (mem_nodes_iff.2 ⟨_, hn⟩)
    exact ⟨j, hinv.adders h j hj, hf⟩

theorem Inv.catchupFailed_keeps_iff (hinv : Inv Link w) :
    Keeps w { w with tree := CatchupHashTree.catchupFailed w.tree job, failed := job :: w.failed } ↔
      Replaced w job := by
  have hinv' := hinv.catchupFailed job
  have hunfailed : ∀ (l : List J), (∃ j ∈ l, j ∉ job :: w.failed) ↔ ∃ j ∈ l, j ∉ w.failed ∧ j ≠ job := by
    intro l
    simp only [List.mem_cons, not_or, ne_eq, and_comm]
  constructor
  · intro hkeeps h node hn hno hr hother
    have hstays := hkeeps.stays h node hn hno (by rw [catchupFailed_root]; exact hr)
    rw [hinv.mem_catchupFailed job hn hno] at hstays
    exact (hunfailed _).1 (hstays.2 ((hunfailed _).2 hother))
  · intro hreplaced
    refine ⟨fun h node hn hno hr => ?_, hinv'.owned, hinv'.inverse⟩
    rw [catchupFailed_root] at hr
    rw [hinv.mem_catchupFailed job hn hno]
    constructor
    · intro hj
      obtain ⟨j, hj, hf⟩ := hj
      exact ⟨j, hinv.adders h j hj, hf⟩
    · intro hj
      exact (hunfailed _).2 (hreplaced h node hn hno hr ((hunfailed _).1 hj))

end Failed

/-! ## Runs -/

/-- The blocks of an event with their parents. -/
def Event.links : Event F J → List (F × F)
  | .add h parent _ => [(h, parent)]
  | .diff (.newNode h parent) => [(h, parent)]
  | _ => []

/-- `p` is the parent of `h` in a run. -/
def IsParent (rootHash parent : F) (events : List (Event F J)) (p h : F) : Prop :=
  (h, p) ∈ (rootHash, parent) :: events.flatMap Event.links

section Runs

variable {rank : F → Nat}

theorem Inv.step (hinv : Inv Link w) (hrank : ∀ p h, Link p h → rank p < rank h) {event : Event F J}
    (hallowed : event.Allowed w) (hlinks : ∀ e ∈ event.links, Link e.2 e.1) :
    ∃ w', step w event = .ok w' ∧ Inv Link w' ∧
      (Keeps w w' ↔ ∀ job, event = .catchupFailed job → Replaced w job) := by
  cases event with
  | add h parent job =>
    obtain ⟨w', hstep, hinv', hkeeps⟩ := hinv.add (hlinks _ (List.mem_singleton_self _)) hallowed.2
    exact ⟨w', hstep, hinv', iff_of_true hkeeps fun _ heq => by cases heq⟩
  | diff d =>
    cases d with
    | newNode h parent =>
      obtain ⟨w', hstep, hinv', hkeeps⟩ := hinv.newNode (hlinks _ (List.mem_singleton_self _))
      exact ⟨w', hstep, hinv', iff_of_true hkeeps fun _ heq => by cases heq⟩
    | rootTransitioned newRoot garbage =>
      obtain ⟨⟨root, hroot, -⟩, hgarbage⟩ := hallowed
      obtain ⟨w', hstep, hinv', hkeeps⟩ := hinv.rootTransitioned hrank hroot hgarbage
      exact ⟨w', hstep, hinv', iff_of_true hkeeps fun _ heq => by cases heq⟩
    | bestTipChanged =>
      obtain ⟨hinv', hkeeps⟩ := hinv.setTree hinv.inverse (fun _ _ hn => Or.inl hn)
        fun h node hn _ => mem_nodes_iff.2 ⟨node, hn⟩
      exact ⟨_, rfl, hinv', iff_of_true hkeeps fun _ heq => by cases heq⟩
  | catchupFailed job =>
    refine ⟨_, rfl, hinv.catchupFailed job, (hinv.catchupFailed_keeps_iff job).trans ?_⟩
    constructor
    · intro hreplaced job' heq
      cases heq
      exact hreplaced
    · intro hreplaced
      exact hreplaced job rfl

theorem Runs.inv {events : List (Event F J)} (hrun : Runs w events w') (hinv : Inv Link w)
    (hrank : ∀ p h, Link p h → rank p < rank h) (hlinks : ∀ e ∈ events.flatMap Event.links, Link e.2 e.1) :
    Inv Link w' := by
  induction hrun with
  | nil => exact hinv
  | @snoc events event w₁ w₂ _ hallowed hstep ih =>
    rw [List.flatMap_append] at hlinks
    have hinv₁ := ih fun e he => hlinks e (List.mem_append_left _ he)
    obtain ⟨w₂', hstep', hinv₂, -⟩ := hinv₁.step hrank hallowed fun e he =>
      hlinks e (List.mem_append_right _ (List.mem_flatMap.2 ⟨event, List.mem_singleton_self _, he⟩))
    cases Except.ok.inj (hstep.symm.trans hstep')
    exact hinv₂

/-- **Jobs lose blocks exactly when only their first adder is left.** In any
run of blocks with an acyclic parent relation, a step goes through, and it
keeps the blocks that unfailed jobs have added if and only if it is not the
failure of a job that leaves a block without a job that added it again. -/
theorem keeps_iff {rootHash parent : F} {events : List (Event F J)} {event : Event F J}
    (hrun : Runs (start rootHash parent) events w) (hallowed : event.Allowed w)
    (hacyclic : ∀ h, ¬ TransGen (IsParent rootHash parent (events ++ [event])) h h) :
    ∃ w', CatchupHashTree.step w event = .ok w' ∧
      (Keeps w w' ↔ ∀ job, event = .catchupFailed job → Replaced w job) := by
  obtain ⟨rank, hrank⟩ := exists_rank (((rootHash, parent) :: (events ++ [event]).flatMap Event.links).map (·.2))
    (fun p h hp => List.mem_map.2 ⟨(h, p), hp, rfl⟩) hacyclic
  have hstart : Inv (IsParent rootHash parent (events ++ [event])) (start rootHash parent : World F J) :=
    Inv.start List.mem_cons_self
  have hinv := hrun.inv hstart hrank fun e he => by
    rw [IsParent, List.flatMap_append]
    exact List.mem_cons_of_mem _ (List.mem_append_left _ he)
  obtain ⟨w', hstep, -, hiff⟩ := hinv.step hrank hallowed fun e he => by
    rw [IsParent, List.flatMap_append]
    exact List.mem_cons_of_mem _ (List.mem_append_right _
      (List.mem_flatMap.2 ⟨event, List.mem_singleton_self _, he⟩))
  exact ⟨w', hstep, hiff⟩

end Runs

/-- Two jobs look for a block, and the second fails. -/
theorem keeps_iff_second : ∃ w : World Nat Nat, Runs (start 1 0) [.add 2 1 7, .add 2 1 8] w ∧
    ∃ w', CatchupHashTree.step w (.catchupFailed 8) = .ok w' ∧
      (Keeps w w' ↔ ∀ job, (.catchupFailed 8 : Event Nat Nat) = .catchupFailed job → Replaced w job) := by
  have hrun : Runs (start 1 0) [.add 2 1 7] _ := .snoc .nil ⟨by decide +kernel, by simp [start]⟩ rfl
  have hrun₂ : Runs (start 1 0) ([.add 2 1 7] ++ [.add 2 1 8]) _ :=
    .snoc hrun ⟨by decide +kernel, by simp [start]⟩ rfl
  refine ⟨_, hrun₂, keeps_iff hrun₂ trivial fun h hcycle => ?_⟩
  have hparent : ∀ e ∈ [((1 : Nat), 0), (2, 1), (2, 1)], e.2 < e.1 := by decide
  have hlt : ∀ p x, TransGen (IsParent 1 0 ([.add 2 1 7] ++ [.add 2 1 8] ++ [(.catchupFailed 8 : Event Nat Nat)])) p x →
      p < x := by
    intro p x hpx
    induction hpx with
    | single hp => exact hparent _ hp
    | tail _ hp ih => exact ih.trans (hparent _ hp)
  exact lt_irrefl h (hlt h h hcycle)

/-- Job 7 adds a block, another job fails, and the block is gone. -/
theorem first_adder_forgotten : ∃ w w' : World Nat Nat, Runs (start 1 0) [.add 2 1 7] w ∧
    CatchupHashTree.step w (.catchupFailed 8) = .ok w' ∧ ¬ Keeps w w' := by
  have hrun : Runs (start 1 0) [.add 2 1 7] _ := .snoc .nil ⟨by decide +kernel, by simp [start]⟩ rfl
  refine ⟨_, _, hrun, rfl, fun hkeeps => ?_⟩
  have hnode : (add (create 1 0 : T Nat Nat) 2 1 7).nodes[2]? = some ⟨1, .partOfCatchups ∅⟩ := rfl
  have hreach : Reach (add (create 1 0 : T Nat Nat) 2 1 7) 1 2 := .single ⟨_, rfl, by decide +kernel⟩
  have hgone : 2 ∉ (catchupFailed (add (create 1 0 : T Nat Nat) 2 1 7) 8).nodes := by decide +kernel
  exact hgone ((hkeeps.stays 2 _ hnode (fun hstate => by cases hstate) hreach).2 ⟨7, by decide, by decide⟩)

end Mina.CatchupHashTree
