/-
A root is deleted (`deleteRoot` of `bitswap.go`, `DeleteStatus` and
`DeleteBlocks` of `bitswap_storage.go`).

The descendants are gathered by a loop over the very list they are appended to,
and Go looks at that list once, before the first round: only the root is viewed
(`viewEach`). So the root goes and what it links to, and nothing deeper; and
what goes may belong to another root (`deletes_iff`).
-/
import Mina.Bitswap.Downloader

namespace Mina.Bitswap

namespace BitswapState

/-! ## Deleting -/

/-- `DeleteStatus`. -/
def deleteStatus (key : Root) (s : BitswapState) : Except String BitswapState :=
  match s.statuses key with
  | .error err => .error err
  | .ok none => .error "wrong root block status retrieved"
  | .ok (some prev) =>
    if prev ≠ .Deleting then .error "wrong status deletion"
    else .ok { s with statuses := Function.update s.statuses key (.ok none) }

/-- `DeleteBlocks`; the storage may refuse. -/
def deleteBlocks (failure : Option String) (keys : List BitswapBlockLink) (s : BitswapState) :
    Except String BitswapState :=
  match failure with
  | some err => .error err
  | none => .ok { s with blocks := fun c => if c ∈ keys then .notFound else s.blocks c }

/-- The loop of `deleteRoot` over the list as it is before the first round, and
the list as it grows. -/
def viewEach (s : BitswapState) :
    List BitswapBlockLink → List BitswapBlockLink → Except String (List BitswapBlockLink)
  | [], allDescendants => .ok allDescendants
  | block :: rest, allDescendants =>
    match s.blocks block with
    | .found b =>
      match readBitswapBlock b with
      | .error err => .error err
      | .ok r => viewEach s rest (allDescendants ++ r.1)
    | .notFound => viewEach s rest allDescendants
    | .failed => .error "the block cannot be viewed"

def deleteRoot (failure : Option String) (root : Root) (s : BitswapState) : Except String BitswapState :=
  match s.setStatus root .Deleting with
  | .error err => .error err
  | .ok s =>
    let s := s.clearRootDownloadState root
    match s.viewEach [root] [root] with
    | .error err => .error err
    | .ok allDescendants =>
      match s.deleteBlocks failure allDescendants with
      | .error err => .error err
      | .ok s => s.deleteStatus root

/-! ## Trees -/

/-- The links of a stored block. -/
def linksOf (s : BitswapState) (c : BitswapBlockLink) : List BitswapBlockLink :=
  match s.blocks c with
  | .found b =>
    match readBitswapBlock b with
    | .ok r => r.1
    | .error _ => []
  | _ => []

inductive Reach (s : BitswapState) (root : Root) : BitswapBlockLink → Prop where
  | root : Reach s root root
  | link {b c : BitswapBlockLink} (hb : Reach s root b) (hc : c ∈ s.linksOf b) : Reach s root c

def Full (s : BitswapState) (root : Root) : Prop := s.statuses root = .ok (some .Full)

def Stored (s : BitswapState) (c : BitswapBlockLink) : Prop := ∃ b, s.blocks c = .found b

/-- In another root's tree. -/
def Shared (s : BitswapState) (root : Root) (c : BitswapBlockLink) : Prop := ∃ r, r ≠ root ∧ s.Full r ∧ s.Reach r c

/-- The tree of the root is gone, and no other. -/
structure Deletes (s s' : BitswapState) (root : Root) : Prop where
  status : s'.statuses root = .ok none
  gone : ∀ c, s.Reach root c → s'.blocks c ≠ .notFound → s.Shared root c
  kept : ∀ r, r ≠ root → s'.Full r → ∀ c, s.Reach r c → s'.Stored c

/-- The tree has no more than two levels of its own, and these are only its
own. -/
structure Flat (s : BitswapState) (root : Root) : Prop where
  shallow : ∀ c, s.Reach root c → c = root ∨ c ∈ s.linksOf root ∨ s.Shared root c
  own : ∀ c, c = root ∨ c ∈ s.linksOf root → ¬ s.Shared root c

/-! ## What is deleted -/

/-- One round: what is viewed is the root. -/
theorem viewEach_root {s : BitswapState} {root : Root} {all : List BitswapBlockLink}
    (h : s.viewEach [root] [root] = .ok all) : all = root :: s.linksOf root := by
  unfold viewEach at h
  unfold linksOf
  split at h
  next b hb =>
    split at h
    next => cases h
    next r hr =>
      cases h
      simp only [hb, hr]
      rfl
  next hb =>
    cases h
    simp only [hb]
  next => cases h

theorem setStatus_ok {s s' : BitswapState} {key : Root} {status : RootBlockStatus}
    (h : s.setStatus key status = .ok s') :
    s' = { s with statuses := Function.update s.statuses key (.ok (some status)) } := by
  unfold setStatus at h
  split at h
  next => cases h
  next =>
    split at h
    next => exact (Except.ok.inj h).symm
    next => cases h

theorem deleteStatus_ok {s s' : BitswapState} {key : Root} (h : s.deleteStatus key = .ok s') :
    s' = { s with statuses := Function.update s.statuses key (.ok none) } := by
  unfold deleteStatus at h
  split at h
  next => cases h
  next => cases h
  next =>
    split at h
    next => cases h
    next => exact (Except.ok.inj h).symm

theorem clearRootDownloadState_statuses (s : BitswapState) (root : Root) :
    (s.clearRootDownloadState root).statuses = s.statuses := by
  unfold clearRootDownloadState
  split <;> rfl

theorem clearRootDownloadState_blocks (s : BitswapState) (root : Root) :
    (s.clearRootDownloadState root).blocks = s.blocks := by
  unfold clearRootDownloadState
  split <;> rfl

/-- The status of the root, and the root with what it links to. -/
theorem deleteRoot_ok {s s' : BitswapState} {root : Root} {failure : Option String}
    (h : s.deleteRoot failure root = .ok s') :
    s'.statuses = Function.update s.statuses root (.ok none) ∧
      s'.blocks = fun c => if c ∈ root :: s.linksOf root then .notFound else s.blocks c := by
  unfold deleteRoot at h
  split at h
  next => cases h
  next s₁ hs₁ =>
    have hset := setStatus_ok hs₁
    simp only at h
    split at h
    next => cases h
    next all hall =>
      have hblocks : (s₁.clearRootDownloadState root).blocks = s.blocks := by
        rw [clearRootDownloadState_blocks, hset]
      have hlinks : (s₁.clearRootDownloadState root).linksOf root = s.linksOf root := by
        unfold linksOf
        rw [hblocks]
      have hall := viewEach_root hall
      rw [hlinks] at hall
      split at h
      next => cases h
      next s₂ hs₂ =>
        unfold deleteBlocks at hs₂
        split at hs₂
        next => cases hs₂
        next =>
          cases hs₂
          rw [deleteStatus_ok h, hall, ← hblocks]
          refine ⟨?_, rfl⟩
          simp only
          rw [clearRootDownloadState_statuses, hset, Function.update_idem]

/-! ## Main result -/

/-- **A root is deleted with its tree, and nothing else's,** exactly when the
tree is flat. -/
theorem deletes_iff (failure : Option String) (root : Root) (s s' : BitswapState)
    (hstored : ∀ r, s.Full r → ∀ c, s.Reach r c → s.Stored c) (hfull : s.Full root)
    (h : s.deleteRoot failure root = .ok s') : Deletes s s' root ↔ Flat s root := by
  obtain ⟨hstatuses, hblocks⟩ := deleteRoot_ok h
  have hothers : ∀ r, r ≠ root → (s'.Full r ↔ s.Full r) := by
    intro r hr
    rw [Full, hstatuses, Function.update_of_ne hr]
    rfl
  have hdeleted : ∀ c, (c = root ∨ c ∈ s.linksOf root) ↔ c ∈ root :: s.linksOf root := fun c => List.mem_cons.symm
  constructor
  · intro hdeletes
    constructor
    · intro c hc
      by_cases hin : c = root ∨ c ∈ s.linksOf root
      · rcases hin with hin | hin
        · exact .inl hin
        · exact .inr (.inl hin)
      · obtain ⟨b, hb⟩ := hstored root hfull c hc
        refine .inr (.inr (hdeletes.gone c hc ?_))
        rw [hblocks]
        simp only
        rw [if_neg (fun hmem => hin ((hdeleted c).2 hmem)), hb]
        exact fun hview => by cases hview
    · intro c hin hshared
      obtain ⟨r, hr, hrfull, hreach⟩ := hshared
      obtain ⟨b, hb⟩ := hdeletes.kept r hr ((hothers r hr).2 hrfull) c hreach
      rw [hblocks] at hb
      simp only at hb
      rw [if_pos ((hdeleted c).1 hin)] at hb
      cases hb
  · intro hflat
    refine ⟨?_, fun c hc hleft => ?_, fun r hr hrfull c hreach => ?_⟩
    · rw [hstatuses, Function.update_self]
    · rcases hflat.shallow c hc with hin | hin | hshared
      · exact absurd (by rw [hblocks]; exact if_pos ((hdeleted c).1 (.inl hin))) hleft
      · exact absurd (by rw [hblocks]; exact if_pos ((hdeleted c).1 (.inr hin))) hleft
      · exact hshared
    · have hrfull := (hothers r hr).1 hrfull
      have hnot : c ∉ root :: s.linksOf root := by
        intro hmem
        exact hflat.own c ((hdeleted c).2 hmem) ⟨r, hr, hrfull, hreach⟩
      obtain ⟨b, hb⟩ := hstored r hrfull c hreach
      refine ⟨b, ?_⟩
      rw [hblocks]
      simp only
      rw [if_neg hnot, hb]

/-! ## A tree of three levels -/

/-- Blocks of these lengths are hashed to them. -/
def lengthHash (b : Bytes) : BitswapBlockLink := toLink [UInt8.ofNat b.length]

def leafBlock : Bytes := blockBytes [] []

def middleBlock : Bytes := blockBytes [lengthHash leafBlock] []

def rootBlock : Bytes := blockBytes [lengthHash middleBlock] [7]

def threeLevels : BitswapState where
  nodeDownloadParams _ := none
  rootDownloadStates _ := none
  statuses c := if c = lengthHash rootBlock then .ok (some .Full) else .ok none
  blocks c :=
    if c = lengthHash rootBlock then .found rootBlock
    else if c = lengthHash middleBlock then .found middleBlock
    else if c = lengthHash leafBlock then .found leafBlock
    else .notFound
  requests := []
  updates := []
  deadlines := []

theorem threeLevels_links : threeLevels.linksOf (lengthHash rootBlock) = [lengthHash middleBlock] ∧
    threeLevels.linksOf (lengthHash middleBlock) = [lengthHash leafBlock] ∧
    threeLevels.linksOf (lengthHash leafBlock) = [] := by
  refine ⟨?_, ?_, ?_⟩ <;> decide

theorem threeLevels_reach {c : BitswapBlockLink} (h : threeLevels.Reach (lengthHash rootBlock) c) :
    c = lengthHash rootBlock ∨ c = lengthHash middleBlock ∨ c = lengthHash leafBlock := by
  obtain ⟨hroot, hmiddle, hleaf⟩ := threeLevels_links
  induction h with
  | root => exact .inl rfl
  | link hb hc ih =>
    rcases ih with rfl | rfl | rfl
    · rw [hroot] at hc
      exact .inr (.inl (List.mem_singleton.1 hc))
    · rw [hmiddle] at hc
      exact .inr (.inr (List.mem_singleton.1 hc))
    · rw [hleaf] at hc
      cases hc

theorem threeLevels_full {r : Root} (h : threeLevels.Full r) : r = lengthHash rootBlock := by
  by_contra hne
  have hnone : threeLevels.statuses r = .ok none := if_neg hne
  rw [Full, hnone] at h
  cases h

theorem threeLevels_stored (r : Root) (hr : threeLevels.Full r) (c : BitswapBlockLink)
    (hc : threeLevels.Reach r c) : threeLevels.Stored c := by
  rw [threeLevels_full hr] at hc
  rcases threeLevels_reach hc with rfl | rfl | rfl
  · exact ⟨rootBlock, rfl⟩
  · exact ⟨middleBlock, rfl⟩
  · exact ⟨leafBlock, rfl⟩

/-- Each block is stored under its hash. -/
def Addressed (hashF : Bytes → BitswapBlockLink) (s : BitswapState) : Prop :=
  ∀ c b, s.blocks c = .found b → hashF b = c

theorem threeLevels_addressed : Addressed lengthHash threeLevels := by
  intro c b hb
  have hblocks : threeLevels.blocks c = if c = lengthHash rootBlock then .found rootBlock
      else if c = lengthHash middleBlock then .found middleBlock
      else if c = lengthHash leafBlock then .found leafBlock
      else .notFound := rfl
  rw [hblocks] at hb
  split at hb
  next hc =>
    cases hb
    exact hc.symm
  next =>
    split at hb
    next hc =>
      cases hb
      exact hc.symm
    next =>
      split at hb
      next hc =>
        cases hb
        exact hc.symm
      next => cases hb

/-- What is left of it. -/
def twoDeleted : BitswapState where
  nodeDownloadParams _ := none
  rootDownloadStates _ := none
  statuses := Function.update (Function.update threeLevels.statuses (lengthHash rootBlock) (.ok (some .Deleting)))
    (lengthHash rootBlock) (.ok none)
  blocks c := if c ∈ [lengthHash rootBlock, lengthHash middleBlock] then .notFound else threeLevels.blocks c
  requests := []
  updates := []
  deadlines := []

theorem threeLevels_deleteRoot : threeLevels.deleteRoot none (lengthHash rootBlock) = .ok twoDeleted := by
  rfl

theorem deletes_iff_threeLevels : Deletes threeLevels twoDeleted (lengthHash rootBlock) ↔
    Flat threeLevels (lengthHash rootBlock) :=
  deletes_iff none (lengthHash rootBlock) threeLevels twoDeleted threeLevels_stored rfl threeLevels_deleteRoot

/-- The leaf stays, and no root leads to it. -/
theorem leaf_stays : ¬ ∀ hashF s s' root, Addressed hashF s → (∀ r, s.Full r → ∀ c, s.Reach r c → s.Stored c) →
    s.Full root → s.deleteRoot none root = .ok s' → Deletes s s' root := by
  intro h
  have hdeletes := h lengthHash threeLevels twoDeleted (lengthHash rootBlock) threeLevels_addressed
    threeLevels_stored rfl threeLevels_deleteRoot
  obtain ⟨hroot, hmiddle, -⟩ := threeLevels_links
  have hreachMiddle : threeLevels.Reach (lengthHash rootBlock) (lengthHash middleBlock) := by
    refine .link .root ?_
    rw [hroot]
    exact List.mem_singleton_self _
  have hreach : threeLevels.Reach (lengthHash rootBlock) (lengthHash leafBlock) := by
    refine .link hreachMiddle ?_
    rw [hmiddle]
    exact List.mem_singleton_self _
  have hleft : twoDeleted.blocks (lengthHash leafBlock) = .found leafBlock := by rfl
  obtain ⟨r, hne, hfull, -⟩ := hdeletes.gone _ hreach (by rw [hleft]; exact fun hview => by cases hview)
  exact hne (threeLevels_full hfull)

end BitswapState

end Mina.Bitswap
