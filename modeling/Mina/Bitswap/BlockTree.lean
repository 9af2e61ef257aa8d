/-
The tree of blocks of a blob of data, and the agreement of the three
computations on it: the split builds it from the last node to the first
(`Built`), joining reads it from the first to the last, and the nodes have
the numbers and shapes the schema and the depth indices predict.

`nodesFrom i` are the blocks of nodes `i`, `i + 1`, … in breadth-first order.
Both directions pass through the same queues: after the nodes before `i` are
read, and before they are built, the queue holds the nodes `i` to
`linksBefore i` (`queueAt`), first to last for the reader and last to first
for the builder.
-/
import Mina.Bitswap.BlockFacts

namespace Mina.Bitswap

open BitswapBlockSchema

/-! ## The tree -/

/-- The data node `i` holds. -/
def chunkOf (s : BitswapBlockSchema) (data : Bytes) (i : Nat) : Bytes :=
  (data.drop (s.dataBefore i)).take (s.chunkSize i)

/-- The blocks of the last `count` nodes, in breadth-first order. A node links
to the first nodes the ones before it do not link to. -/
def lastNodes (s : BitswapBlockSchema) (hashF : Bytes → BitswapBlockLink) (data : Bytes) : (count : Nat) → List Bytes
  | 0 => []
  | count + 1 =>
    let i := s.totalBlocks - (count + 1)
    let later := lastNodes s hashF data count
    blockBytes (((later.drop (s.linksBefore i - i)).take (s.linkCount i)).map hashF) (chunkOf s data i) :: later

/-- The blocks of the tree of `data`, in breadth-first order. -/
def treeBlocks (maxBlockSize : Nat) (hashF : Bytes → BitswapBlockLink) (data : Bytes) : List Bytes :=
  let s := mkBitswapBlockSchema maxBlockSize data.length
  lastNodes s hashF data s.totalBlocks

/-- The nodes in breadth-first order, each with its number: the children of a
node are numbered from `FirstChildId` on. `none` when a block is missing or
cannot be read, or when the rounds run out. -/
def numberNodes (blocks : Blocks) (di : DepthIndices) :
    (rounds : Nat) → (queue : List (BitswapBlockLink × NodeIndex)) → Option (List (NodeIndex × Bytes))
  | _, [] => some []
  | 0, _ :: _ => none
  | rounds + 1, (id, ix) :: queue => do
    let block ← blocks id
    let read ← (readBitswapBlock block).toOption
    let children := read.1.zipIdx.map fun p => (p.1, di.firstChildId ix + (p.2 : Int))
    return (ix, block) :: (← numberNodes blocks di rounds (queue ++ children))

section

variable {s : BitswapBlockSchema} {hashF : Bytes → BitswapBlockLink} {data : Bytes}

/-- The blocks of nodes `i`, `i + 1`, …. -/
def nodesFrom (s : BitswapBlockSchema) (hashF : Bytes → BitswapBlockLink) (data : Bytes) (i : Nat) : List Bytes :=
  lastNodes s hashF data (s.totalBlocks - i)

/-- The links of node `i`. -/
def linksOf (s : BitswapBlockSchema) (hashF : Bytes → BitswapBlockLink) (data : Bytes) (i : Nat) :
    List BitswapBlockLink :=
  (((nodesFrom s hashF data (i + 1)).drop (s.linksBefore i - i)).take (s.linkCount i)).map hashF

/-- The block of node `i`. -/
def nodeOf (s : BitswapBlockSchema) (hashF : Bytes → BitswapBlockLink) (data : Bytes) (i : Nat) : Bytes :=
  blockBytes (linksOf s hashF data i) (chunkOf s data i)

/-- The nodes that follow node `i` in the queue. -/
def queueRest (s : BitswapBlockSchema) (hashF : Bytes → BitswapBlockLink) (data : Bytes) (i : Nat) :
    List BitswapBlockLink :=
  ((nodesFrom s hashF data (i + 1)).take (s.linksBefore i - i)).map hashF

/-- The links that nodes before `i` hold to nodes from `i` on. -/
def queueAt (s : BitswapBlockSchema) (hashF : Bytes → BitswapBlockLink) (data : Bytes) (i : Nat) :
    List BitswapBlockLink :=
  ((nodesFrom s hashF data i).take (s.linksBefore i + 1 - i)).map hashF

theorem length_lastNodes (count : Nat) : (lastNodes s hashF data count).length = count := by
  induction count with
  | zero => rfl
  | succ count ih => exact congrArg (· + 1) ih

theorem length_nodesFrom (hashF : Bytes → BitswapBlockLink) (i : Nat) : (nodesFrom s hashF data i).length = s.totalBlocks - i := length_lastNodes _

theorem nodesFrom_cons {i : Nat} (hi : i < s.totalBlocks) :
    nodesFrom s hashF data i = nodeOf s hashF data i :: nodesFrom s hashF data (i + 1) := by
  obtain ⟨count, hcount⟩ : ∃ count, s.totalBlocks - i = count + 1 := ⟨s.totalBlocks - i - 1, by omega⟩
  have hnext : s.totalBlocks - (i + 1) = count := by omega
  have hi' : s.totalBlocks - (count + 1) = i := by omega
  rw [nodeOf, linksOf, nodesFrom, nodesFrom, hcount, hnext, lastNodes, hi']

theorem nodesFrom_end {i : Nat} (hi : s.totalBlocks ≤ i) : nodesFrom s hashF data i = [] := by
  rw [nodesFrom, Nat.sub_eq_zero_of_le hi, lastNodes]

theorem nodeOf_mem {i : Nat} (hi : i < s.totalBlocks) : nodeOf s hashF data i ∈ nodesFrom s hashF data i := by
  rw [nodesFrom_cons hi]
  exact List.mem_cons_self

theorem nodesFrom_subset (i : Nat) : ∀ b ∈ nodesFrom s hashF data i, b ∈ nodesFrom s hashF data 0 := by
  induction i with
  | zero => exact fun b hb => hb
  | succ i ih =>
    intro b hb
    by_cases hi : i < s.totalBlocks
    · exact ih b (by rw [nodesFrom_cons hi]; exact List.mem_cons_of_mem _ hb)
    · rw [nodesFrom_end (by omega)] at hb
      cases hb

/-- Every node is the one of its number. -/
theorem eq_nodeOf_of_mem {i : Nat} {p : Bytes × Nat} (hp : p ∈ (nodesFrom s hashF data i).zipIdx i) :
    p.2 < s.totalBlocks ∧ p.1 = nodeOf s hashF data p.2 := by
  obtain ⟨count, hcount⟩ : ∃ count, s.totalBlocks - i = count := ⟨_, rfl⟩
  induction count generalizing i with
  | zero =>
    rw [nodesFrom_end (by omega)] at hp
    cases hp
  | succ count ih =>
    have hi : i < s.totalBlocks := by omega
    rw [nodesFrom_cons hi, List.zipIdx_cons] at hp
    rcases List.mem_cons.1 hp with rfl | hp
    · exact ⟨hi, rfl⟩
    · exact ih hp (by omega)

/-- The queue of the next node: one more node is read, and its links follow. -/
theorem queueAt_step (hashF : Bytes → BitswapBlockLink) (hs : s.Sound data.length) {i : Nat} (hi : i < s.totalBlocks) :
    queueAt s hashF data i = hashF (nodeOf s hashF data i) :: queueRest s hashF data i ∧
      queueAt s hashF data (i + 1) = queueRest s hashF data i ++ linksOf s hashF data i := by
  have hle := hs.le_linksBefore hi
  have hnext := hs.linksBefore_succ i
  constructor
  · have hone : s.linksBefore i + 1 - i = (s.linksBefore i - i) + 1 := by omega
    rw [queueAt, nodesFrom_cons hi, hone, List.take_succ_cons, List.map_cons, queueRest]
  · have hmore : s.linksBefore (i + 1) + 1 - (i + 1) = (s.linksBefore i - i) + s.linkCount i := by omega
    rw [queueAt, hmore, List.take_add, List.map_append, queueRest, linksOf]

theorem length_linksOf (hashF : Bytes → BitswapBlockLink) (hs : s.Sound data.length) {i : Nat} (hi : i < s.totalBlocks) :
    (linksOf s hashF data i).length = s.linkCount i := by
  have hle := hs.le_linksBefore hi
  have hnext := hs.linksBefore_succ i
  have hend := s.linksBefore_le (i + 1)
  rw [linksOf, List.length_map, List.length_take, List.length_drop, length_nodesFrom]
  omega

theorem length_queueRest (hs : s.Sound data.length) {i : Nat} (hi : i < s.totalBlocks) :
    (queueRest s hashF data i).length = s.linksBefore i - i := by
  have hle := hs.le_linksBefore hi
  have hend := s.linksBefore_le i
  rw [queueRest, List.length_map, List.length_take, length_nodesFrom]
  omega

theorem length_chunkOf (hs : s.Sound data.length) {i : Nat} (hi : i < s.totalBlocks) :
    (chunkOf s data i).length = s.chunkSize i := by
  have hfit : s.dataBefore i + s.chunkSize i ≤ data.length := by
    have hlast := hs.dataBefore_last
    by_cases hi' : i + 1 < s.totalBlocks
    · have hmono : ∀ j, i + 1 + j < s.totalBlocks → s.dataBefore (i + 1) ≤ s.dataBefore (i + 1 + j) := by
        intro j
        induction j with
        | zero => exact fun _ => Nat.le_refl _
        | succ j ih =>
          intro hj
          have := hs.dataBefore_succ (i := i + 1 + j) (by omega)
          have := ih (by omega)
          rw [show i + 1 + (j + 1) = i + 1 + j + 1 by omega]
          omega
      have hle := hmono (s.totalBlocks - 1 - (i + 1)) (by omega)
      have hsum := hs.dataBefore_succ hi'
      rw [show i + 1 + (s.totalBlocks - 1 - (i + 1)) = s.totalBlocks - 1 by omega] at hle
      omega
    · have hi'' : i = s.totalBlocks - 1 := by omega
      rw [hs.chunkSize_last (by omega), hi'']
      omega
  rw [chunkOf, List.length_take, List.length_drop]
  omega

/-- Every block has the size the schema gives. -/
theorem length_nodeOf (hs : s.Sound data.length) {i : Nat} (hi : i < s.totalBlocks) :
    (nodeOf s hashF data i).length = s.blockSize i := by
  rw [nodeOf, length_blockBytes, length_linksOf hashF hs hi, length_chunkOf hs hi, hs.blockSize_eq hi]

theorem read_nodeOf (hs : s.Sound data.length) {i : Nat} (hi : i < s.totalBlocks) :
    readBitswapBlock (nodeOf s hashF data i) = .ok (linksOf s hashF data i, chunkOf s data i) := by
  refine read_blockBytes ?_ _
  rw [length_linksOf hashF hs hi]
  exact Nat.le_trans (hs.linkCount_le i) hs.links_le

/-! ## The split builds the tree -/

/-- Nodes from `i` on are built. -/
structure Built (s : BitswapBlockSchema) (hashF : Bytes → BitswapBlockLink) (data : Bytes) (i : Nat)
    (st : SplitState) : Prop where
  queue : st.queue.reverse = queueAt s hashF data i
  dataEnd : st.dataEnd = s.dataBefore i
  res : ∀ b ∈ nodesFrom s hashF data i, st.res (hashF b) = some b

/-- No two blocks of the tree have the same hash. -/
def CollisionFree (hashF : Bytes → BitswapBlockLink) (blocks : List Bytes) : Prop :=
  ∀ b ∈ blocks, ∀ b' ∈ blocks, hashF b = hashF b' → b = b'

theorem addBlock_eq {maxBlockSize : Nat} {links : List BitswapBlockLink} {chunk : Bytes} (hl : links.length ≤ 65535)
    (hsz : linkSize * links.length + 2 + chunk.length ≤ maxBlockSize) (st : SplitState) :
    addBlock maxBlockSize hashF links.reverse chunk st =
      .ok { st with res := Function.update st.res (hashF (blockBytes links chunk)) (some (blockBytes links chunk))
                    queue := st.queue ++ [hashF (blockBytes links chunk)] } := by
  have hfits : ¬ (links.length > 65535 ∨ links.length * linkSize + 2 + chunk.length > maxBlockSize) := by
    rw [Nat.mul_comm]
    omega
  unfold addBlock
  rw [List.length_reverse, List.reverse_reverse]
  exact if_neg hfits

/-- A block added to the map leaves every other block of the tree there. -/
theorem update_res (hinj : CollisionFree hashF (nodesFrom s hashF data 0)) {i : Nat} (hi : i < s.totalBlocks)
    {res : Blocks} (hres : ∀ b ∈ nodesFrom s hashF data (i + 1), res (hashF b) = some b) :
    ∀ b ∈ nodesFrom s hashF data i,
      Function.update res (hashF (nodeOf s hashF data i)) (some (nodeOf s hashF data i)) (hashF b) = some b := by
  intro b hb
  have hnode : nodeOf s hashF data i ∈ nodesFrom s hashF data 0 := nodesFrom_subset i _ (nodeOf_mem hi)
  by_cases heq : hashF b = hashF (nodeOf s hashF data i)
  · rw [heq, Function.update_self, hinj b (nodesFrom_subset i b hb) _ hnode heq]
  · rw [Function.update_of_ne heq]
    rw [nodesFrom_cons hi] at hb
    rcases List.mem_cons.1 hb with rfl | hb
    · exact absurd rfl heq
    · exact hres b hb

/-- One block is added: the step of the loops. -/
theorem addNode_built (hs : s.Sound data.length) (hinj : CollisionFree hashF (nodesFrom s hashF data 0)) {i : Nat}
    (hi : i + 1 < s.totalBlocks) {st : SplitState} (hst : Built s hashF data (i + 1) st) :
    ∃ st', addNode s.maxBlockSize hashF data (s.linkCount i) (s.chunkSize i) st = .ok st' ∧
      Built s hashF data i st' := by
  have hi' : i < s.totalBlocks := by omega
  obtain ⟨hqueue, hnext⟩ := queueAt_step hashF hs hi'
  have hlinks := length_linksOf hashF hs hi'
  have hq : st.queue = (linksOf s hashF data i).reverse ++ (queueRest s hashF data i).reverse := by
    rw [← List.reverse_append, ← hnext, ← hst.queue, List.reverse_reverse]
  have htake : st.queue.take (s.linkCount i) = (linksOf s hashF data i).reverse := by
    rw [hq, List.take_left' (by rw [List.length_reverse, hlinks])]
  have hsucc := hs.dataBefore_succ hi
  have hend : st.dataEnd - s.chunkSize i = s.dataBefore i := by rw [hst.dataEnd, hsucc, Nat.add_sub_cancel]
  have hadd : addBlock s.maxBlockSize hashF (linksOf s hashF data i).reverse (chunkOf s data i) st = _ :=
    addBlock_eq (by rw [hlinks]; exact Nat.le_trans (hs.linkCount_le i) hs.links_le)
      (by rw [hlinks, length_chunkOf hs hi', ← hs.blockSize_eq hi']; exact hs.blockSize_le i) st
  have hbounds : ¬ (st.queue.length < s.linkCount i ∨ st.dataEnd < s.chunkSize i) := by
    have hlen : st.queue.length = s.linkCount i + (queueRest s hashF data i).length := by
      rw [hq, List.length_append, List.length_reverse, List.length_reverse, hlinks]
    rw [hst.dataEnd, hsucc]
    omega
  have hdrop : (st.queue ++ [hashF (nodeOf s hashF data i)]).drop (s.linkCount i) =
      (queueRest s hashF data i).reverse ++ [hashF (nodeOf s hashF data i)] := by
    rw [hq, List.append_assoc, List.drop_left' (by rw [List.length_reverse, hlinks])]
  refine ⟨⟨Function.update st.res (hashF (nodeOf s hashF data i)) (some (nodeOf s hashF data i)),
    (queueRest s hashF data i).reverse ++ [hashF (nodeOf s hashF data i)], s.dataBefore i⟩, ?_,
    ?_, rfl, update_res hinj hi' hst.res⟩
  · unfold addNode
    rw [if_neg hbounds, htake, hend, ← chunkOf, hadd, ← nodeOf, ← hdrop, ← hend]
    rfl
  · rw [List.reverse_append, List.reverse_reverse, hqueue]
    rfl

/-- A loop that adds nodes of one shape. -/
theorem addNodes_built (hs : s.Sound data.length) (hinj : CollisionFree hashF (nodesFrom s hashF data 0))
    {l dsz i : Nat} (count : Nat) (hcount : i + count < s.totalBlocks)
    (hshape : ∀ j : Nat, i ≤ j → j < i + count → s.linkCount j = l ∧ s.chunkSize j = dsz) {st : SplitState}
    (hst : Built s hashF data (i + count) st) :
    ∃ st', addNodes s.maxBlockSize hashF data l dsz count st = .ok st' ∧ Built s hashF data i st' := by
  induction count generalizing st with
  | zero => exact ⟨st, rfl, hst⟩
  | succ count ih =>
    obtain ⟨st₁, h₁, hst₁⟩ := addNode_built hs hinj (i := i + count) (by omega) hst
    obtain ⟨hl, hdsz⟩ := hshape (i + count) (by omega) (by omega)
    rw [hl, hdsz] at h₁
    obtain ⟨st₂, h₂, hst₂⟩ := ih (by omega) (fun j hj hj' => hshape j hj (by omega)) hst₁
    refine ⟨st₂, ?_, hst₂⟩
    rw [addNodes, h₁]
    exact h₂

theorem built_last (hs : s.Sound data.length) (hinj : CollisionFree hashF (nodesFrom s hashF data 0)) :
    ∃ st, addBlock s.maxBlockSize hashF [] (data.drop (data.length - s.lastBlockDataSize))
        { res := fun _ => none, queue := [], dataEnd := data.length - s.lastBlockDataSize } = .ok st ∧
      Built s hashF data (s.totalBlocks - 1) st := by
  have hpos := hs.total_pos
  have hi : s.totalBlocks - 1 < s.totalBlocks := by omega
  have hlast := hs.dataBefore_last
  have hsize := hs.chunkSize_last (i := s.totalBlocks - 1) (by omega)
  have hcount : s.linkCount ((s.totalBlocks - 1 : Nat) : Int) = 0 := by
    rw [show ((s.totalBlocks - 1 : Nat) : Int) = (s.totalBlocks : Int) - 1 by omega]
    exact hs.linkCount_last
  have hend : data.length - s.lastBlockDataSize = s.dataBefore (s.totalBlocks - 1) := by omega
  have hchunk : data.drop (data.length - s.lastBlockDataSize) = chunkOf s data (s.totalBlocks - 1) := by
    rw [chunkOf, hsize, hend, List.take_of_length_le (by rw [List.length_drop]; omega)]
  have hlinks : linksOf s hashF data (s.totalBlocks - 1) = [] :=
    List.length_eq_zero_iff.1 ((length_linksOf hashF hs hi).trans hcount)
  have hnode : nodeOf s hashF data (s.totalBlocks - 1) = blockBytes [] (chunkOf s data (s.totalBlocks - 1)) := by
    rw [nodeOf, hlinks]
  obtain ⟨hqueue, -⟩ := queueAt_step hashF hs hi
  have hrest : queueRest s hashF data (s.totalBlocks - 1) = [] := by
    rw [queueRest, Nat.sub_add_cancel hpos, nodesFrom_end (Nat.le_refl _), List.take_nil, List.map_nil]
  have hfits : linkSize * ([] : List BitswapBlockLink).length + 2 + (chunkOf s data (s.totalBlocks - 1)).length ≤
      s.maxBlockSize := by
    rw [← length_blockBytes, ← hnode, length_nodeOf hs hi]
    exact hs.blockSize_le _
  rw [hchunk, hend]
  refine ⟨_, addBlock_eq (Nat.zero_le _) hfits _, ?_, rfl, ?_⟩
  · rw [hqueue, hrest, hnode]
    rfl
  · rw [← hnode]
    refine update_res hinj hi fun b hb => ?_
    rw [Nat.sub_add_cancel hpos, nodesFrom_end (Nat.le_refl _)] at hb
    cases hb

theorem chunkSize_full {i : Nat} (hi : i + 1 < s.totalBlocks) :
    s.chunkSize i = s.maxBlockSize - 2 - s.linkCount i * linkSize := by
  rw [chunkSize, blockSize_full hi, Nat.mul_comm]

/-- The three loops, from the last node but one to the root. -/
theorem loops_built (hs : s.Sound data.length) (hinj : CollisionFree hashF (nodesFrom s hashF data 0))
    (hn : s.totalBlocks > 1) {st : SplitState} (hst : Built s hashF data (s.totalBlocks - 1) st) :
    ∃ st₁ st₂ st₃,
      addNodes s.maxBlockSize hashF data 0 (s.maxBlockSize - 2)
        (if s.nonMaxLinkBlockLinkCount > 0 then s.totalBlocks - s.fullLinkBlocks - 1 - 1
          else s.totalBlocks - s.fullLinkBlocks - 1) st = .ok st₁ ∧
      (if s.nonMaxLinkBlockLinkCount > 0 then addNode s.maxBlockSize hashF data s.nonMaxLinkBlockLinkCount
        (s.maxBlockSize - 2 - s.nonMaxLinkBlockLinkCount * linkSize) st₁ else .ok st₁) = .ok st₂ ∧
      addNodes s.maxBlockSize hashF data s.maxLinksPerBlock (s.maxBlockSize - 2 - s.maxLinksPerBlock * linkSize)
        s.fullLinkBlocks st₂ = .ok st₃ ∧ Built s hashF data 0 st₃ := by
  have hlinks := hs.links
  have hF : s.fullLinkBlocks ≤ s.fullLinkBlocks * s.maxLinksPerBlock := Nat.le_mul_of_pos_right _ hs.links_pos
  have hdata : ∀ j : Nat, s.fullLinkBlocks < j → j + 1 < s.totalBlocks →
      s.linkCount j = 0 ∧ s.chunkSize j = s.maxBlockSize - 2 := by
    intro j hj hj'
    have hzero := linkCount_none hj
    exact ⟨hzero, by rw [chunkSize_full hj', hzero, Nat.zero_mul, Nat.sub_zero]⟩
  have hfull : ∀ j : Nat, j < s.fullLinkBlocks →
      s.linkCount j = s.maxLinksPerBlock ∧ s.chunkSize j = s.maxBlockSize - 2 - s.maxLinksPerBlock * linkSize := by
    intro j hj
    have hcount := linkCount_full hj
    exact ⟨hcount, by rw [chunkSize_full (by omega), hcount]⟩
  by_cases hrem : s.nonMaxLinkBlockLinkCount > 0
  · rw [if_pos hrem]
    simp only [if_pos hrem]
    have hend : s.totalBlocks - 1 = s.fullLinkBlocks + 1 + (s.totalBlocks - s.fullLinkBlocks - 1 - 1) := by omega
    obtain ⟨st₁, h₁, hst₁⟩ := addNodes_built hs hinj (i := s.fullLinkBlocks + 1) _ (by omega)
      (fun j hj hj' => hdata j hj (by omega)) (hend ▸ hst)
    obtain ⟨st₂, h₂, hst₂⟩ := addNode_built hs hinj (i := s.fullLinkBlocks) (by omega) hst₁
    rw [chunkSize_full (by omega), linkCount_rest] at h₂
    obtain ⟨st₃, h₃, hst₃⟩ := addNodes_built hs hinj (i := 0) s.fullLinkBlocks (by omega)
      (fun j _ hj => hfull j (by omega)) (by rw [Nat.zero_add]; exact hst₂)
    exact ⟨st₁, st₂, st₃, h₁, h₂, h₃, hst₃⟩
  · rw [if_neg hrem]
    simp only [if_neg hrem]
    have hend : s.totalBlocks - 1 = s.fullLinkBlocks + (s.totalBlocks - s.fullLinkBlocks - 1) := by omega
    have hzero : s.nonMaxLinkBlockLinkCount = 0 := by omega
    obtain ⟨st₁, h₁, hst₁⟩ := addNodes_built hs hinj (i := s.fullLinkBlocks) _ (by omega)
      (fun j hj hj' => by
        rcases Nat.lt_or_eq_of_le hj with hlt | rfl
        · exact hdata j hlt (by omega)
        · have hcount : s.linkCount s.fullLinkBlocks = 0 := by rw [linkCount_rest, hzero]
          exact ⟨hcount, by rw [chunkSize_full (by omega), hcount, Nat.zero_mul, Nat.sub_zero]⟩)
      (hend ▸ hst)
    obtain ⟨st₃, h₃, hst₃⟩ := addNodes_built hs hinj (i := 0) s.fullLinkBlocks (by omega)
      (fun j _ hj => hfull j (by omega)) (by rw [Nat.zero_add]; exact hst₁)
    exact ⟨st₁, st₁, st₃, h₁, rfl, h₃, hst₃⟩

end

/-- **The split builds the tree**: it does not panic, its root is the hash of
the first node, and its map has every node. -/
theorem split_builds {maxBlockSize : Nat} (hsize : 34 < maxBlockSize) {hashF : Bytes → BitswapBlockLink} {data : Bytes}
    (hinj : CollisionFree hashF (treeBlocks maxBlockSize hashF data)) :
    ∃ blocks, splitDataToBitswapBlocksWithHashF maxBlockSize hashF data =
        .ok (blocks, hashF (nodeOf (mkBitswapBlockSchema maxBlockSize data.length) hashF data 0)) ∧
      ∀ b ∈ treeBlocks maxBlockSize hashF data, blocks (hashF b) = some b := by
  have hs := schema_sound hsize data.length
  have hM : (mkBitswapBlockSchema maxBlockSize data.length).maxBlockSize = maxBlockSize := rfl
  have htree : treeBlocks maxBlockSize hashF data =
      nodesFrom (mkBitswapBlockSchema maxBlockSize data.length) hashF data 0 := rfl
  rw [htree] at hinj ⊢
  generalize hschema : mkBitswapBlockSchema maxBlockSize data.length = s at hs hM hinj ⊢
  obtain ⟨st, h₀, hst⟩ := built_last hs hinj
  rw [hM] at h₀
  have hroot : ∀ st', Built s hashF data 0 st' → st'.queue = [hashF (nodeOf s hashF data 0)] := by
    intro st' hst'
    obtain ⟨hqueue, -⟩ := queueAt_step hashF hs hs.total_pos
    have hrest : queueRest s hashF data 0 = [] := by
      rw [queueRest, linksBefore_zero, Nat.sub_self, List.take_zero, List.map_nil]
    have hrev := hst'.queue
    rw [hqueue, hrest] at hrev
    exact List.reverse_eq_iff.1 hrev
  have hnot : ¬ maxBlockSize ≤ 2 + linkSize := by rw [linkSize]; omega
  by_cases hn : s.totalBlocks > 1
  · obtain ⟨st₁, st₂, st₃, h₁, h₂, h₃, hst₃⟩ := loops_built hs hinj hn hst
    rw [hM] at h₁ h₂ h₃
    refine ⟨st₃.res, ?_, hst₃.res⟩
    unfold splitDataToBitswapBlocksWithHashF
    rw [if_neg hnot]
    dsimp only
    rw [hschema, h₀]
    simp only [bind, Except.bind, pure, Except.pure, if_pos hn, h₁]
    by_cases hrem : s.nonMaxLinkBlockLinkCount > 0
    · rw [if_pos hrem] at h₂ ⊢
      simp only [h₂, h₃, hroot st₃ hst₃]
    · rw [if_neg hrem] at h₂ ⊢
      cases h₂
      simp only [h₃, hroot st₃ hst₃]
  · have hone : s.totalBlocks - 1 = 0 := by omega
    rw [hone] at hst
    refine ⟨st.res, ?_, hst.res⟩
    unfold splitDataToBitswapBlocksWithHashF
    rw [if_neg hnot]
    dsimp only
    rw [hschema, h₀]
    simp only [bind, Except.bind, pure, Except.pure, if_neg hn, hroot st hst]

/-! ## Reading the tree -/

section

variable {s : BitswapBlockSchema} {hashF : Bytes → BitswapBlockLink} {data : Bytes} {blocks : Blocks}

/-- The rest of the data is the chunk of a node and what follows. -/
theorem drop_dataBefore (hs : s.Sound data.length) {i : Nat} (hi : i < s.totalBlocks) :
    data.drop (s.dataBefore i) =
      chunkOf s data i ++ if i + 1 < s.totalBlocks then data.drop (s.dataBefore (i + 1)) else [] := by
  split
  · next hi' => rw [hs.dataBefore_succ hi', ← List.drop_drop, chunkOf, List.take_append_drop]
  · next hi' =>
    have hlast := hs.dataBefore_last
    have hsize := hs.chunkSize_last (i := i) (by omega)
    have hi'' : i = s.totalBlocks - 1 := by omega
    rw [chunkOf, hsize, List.append_nil, List.take_of_length_le (by rw [List.length_drop, hi'']; omega)]

/-- Joining, from the queue before node `i`. -/
theorem joinFrom_eq (hs : s.Sound data.length) (hblocks : ∀ b ∈ nodesFrom s hashF data 0, blocks (hashF b) = some b)
    (rounds : Nat) {i : Nat} (hi : i < s.totalBlocks) (hrounds : s.totalBlocks ≤ i + rounds) (res : List Bytes) :
    joinFrom blocks rounds (queueAt s hashF data i) res =
      some (.ok (res.flatten ++ data.drop (s.dataBefore i))) := by
  induction rounds generalizing i res with
  | zero => omega
  | succ rounds ih =>
    obtain ⟨hqueue, hnext⟩ := queueAt_step hashF hs hi
    have hblock := hblocks _ (nodesFrom_subset i _ (nodeOf_mem hi))
    rw [hqueue, joinFrom]
    simp only [hblock, read_nodeOf hs hi]
    rw [← hnext, drop_dataBefore hs hi]
    by_cases hi' : i + 1 < s.totalBlocks
    · have hne : queueAt s hashF data (i + 1) ≠ [] := by
        rw [(queueAt_step hashF hs hi').1]
        exact List.cons_ne_nil _ _
      rw [if_neg hne, if_pos hi', ih hi' (by omega), List.flatten_append, List.flatten_singleton, List.append_assoc]
    · have hnil : queueAt s hashF data (i + 1) = [] := by
        rw [queueAt, nodesFrom_end (by omega), List.take_nil, List.map_nil]
      rw [if_pos hnil, if_neg hi', List.flatten_append, List.flatten_singleton, List.append_nil]

/-- A link with the number of its node. -/
def numbered (p : BitswapBlockLink × Nat) : BitswapBlockLink × NodeIndex := (p.1, (p.2 : Int))

/-- The children of node `i` come after the queue. -/
theorem children_eq (hs : s.Sound data.length) {m i : Nat} (hm : s.totalBlocks ≤ m) (hi : i < s.totalBlocks) :
    ((linksOf s hashF data i).zipIdx.map fun p =>
        (p.1, (mkDepthIndices s.maxLinksPerBlock m).firstChildId i + (p.2 : Int))) =
      ((linksOf s hashF data i).zipIdx (s.linksBefore i + 1)).map numbered := by
  rw [List.zipIdx_eq_map_add (i := s.linksBefore i + 1), List.map_map]
  refine List.map_congr_left fun p hp => ?_
  -- a node with a link is among those whose children start at `i * linksPerBlock + 1`
  have hlinks : 0 < s.linkCount i := by
    rw [← length_linksOf hashF hs hi]
    have := List.snd_lt_of_mem_zipIdx hp
    omega
  have hmany : s.linksBefore i = i * s.maxLinksPerBlock := by
    have hnext := hs.linksBefore_succ i
    have hend := s.linksBefore_le (i + 1)
    unfold linksBefore at hnext hend ⊢
    omega
  have hfirst : i * s.maxLinksPerBlock + 1 < m := by
    have hnext := hs.linksBefore_succ i
    have hend := s.linksBefore_le (i + 1)
    have hpos := hs.total_pos
    omega
  rw [firstChildId_eq hs.links_pos hfirst, hmany]
  refine Prod.ext rfl ?_
  show _ = ((_ : Nat) : Int)
  push_cast
  omega

/-- The numbers of the nodes, from the queue before node `i`. -/
theorem numberNodes_eq (hs : s.Sound data.length) {m : Nat} (hm : s.totalBlocks ≤ m)
    (hblocks : ∀ b ∈ nodesFrom s hashF data 0, blocks (hashF b) = some b) (rounds : Nat) {i : Nat} (hi : i ≤ s.totalBlocks)
    (hrounds : s.totalBlocks ≤ i + rounds) :
    numberNodes blocks (mkDepthIndices s.maxLinksPerBlock m) rounds
        (((queueAt s hashF data i).zipIdx i).map numbered) =
      some (((nodesFrom s hashF data i).zipIdx i).map fun p => ((p.2 : Int), p.1)) := by
  by_cases hend : i = s.totalBlocks
  · rw [queueAt, nodesFrom_end (by omega), List.take_nil, List.map_nil]
    cases rounds <;> rfl
  · have hlt : i < s.totalBlocks := by omega
    induction rounds generalizing i with
    | zero => omega
    | succ rounds ih =>
      obtain ⟨hqueue, hnext⟩ := queueAt_step hashF hs hlt
      have hblock := hblocks _ (nodesFrom_subset i _ (nodeOf_mem hlt))
      have hle := hs.le_linksBefore hlt
      have hqueue' : ((queueRest s hashF data i).zipIdx (i + 1)).map numbered ++
          ((linksOf s hashF data i).zipIdx (s.linksBefore i + 1)).map numbered =
          ((queueAt s hashF data (i + 1)).zipIdx (i + 1)).map numbered := by
        have hlen : i + 1 + (queueRest s hashF data i).length = s.linksBefore i + 1 := by
          rw [length_queueRest hs hlt]
          omega
        rw [hnext, List.zipIdx_append, hlen, List.map_append]
      have hrest : numberNodes blocks (mkDepthIndices s.maxLinksPerBlock m) rounds
          (((queueAt s hashF data (i + 1)).zipIdx (i + 1)).map numbered) =
          some (((nodesFrom s hashF data (i + 1)).zipIdx (i + 1)).map fun p => ((p.2 : Int), p.1)) := by
        by_cases hend' : i + 1 = s.totalBlocks
        · rw [queueAt, nodesFrom_end (by omega), List.take_nil, List.map_nil]
          cases rounds <;> rfl
        · exact ih (by omega) (by omega) hend' (by omega)
      rw [hqueue, nodesFrom_cons hlt, List.zipIdx_cons, List.zipIdx_cons, List.map_cons, List.map_cons, numbered,
        numberNodes]
      simp only [hblock, read_nodeOf hs hlt, Except.toOption, Option.bind_eq_bind, Option.bind_some]
      rw [children_eq hs hm hlt, hqueue', hrest]
      rfl

end

/-- **Splitting and joining are inverse, and the blocks follow the schema.**
With no collision among the blocks of the tree: the split does not panic;
joining its result gives the data back; numbered from the root with
`FirstChildId`, the nodes are `0`, `1`, … in breadth-first order, as many as
the schema says, each with the size and the number of links the schema gives,
and all but the last of the maximal size; and `FirstChildId` is the formula
below the limit of the indices. -/
theorem split_join (maxBlockSize : Nat) (hsize : maxBlockSize > 34) (hashF : Bytes → BitswapBlockLink) (data : Bytes)
    (hinj : CollisionFree hashF (treeBlocks maxBlockSize hashF data)) (maxTotalBlocks : Nat)
    (hmax : (mkBitswapBlockSchema maxBlockSize data.length).totalBlocks ≤ maxTotalBlocks) :
    let schema := mkBitswapBlockSchema maxBlockSize data.length
    let depthIndices := mkDepthIndices schema.maxLinksPerBlock maxTotalBlocks
    ∃ blocks root nodes,
      splitDataToBitswapBlocksWithHashF maxBlockSize hashF data = .ok (blocks, root) ∧
      (∀ rounds, schema.totalBlocks ≤ rounds →
        joinBitswapBlocks rounds blocks root = some (.ok data) ∧
        numberNodes blocks depthIndices rounds [(root, 0)] = some nodes) ∧
      nodes.map (·.1) = (List.range schema.totalBlocks).map Int.ofNat ∧
      (∀ node ∈ nodes, node.2.length = schema.blockSize node.1 ∧
        (∃ links chunk, readBitswapBlock node.2 = .ok (links, chunk) ∧ links.length = schema.linkCount node.1) ∧
        (node.1 + 1 < schema.totalBlocks → node.2.length = maxBlockSize)) ∧
      ∀ i : Nat, i * schema.maxLinksPerBlock + 1 < maxTotalBlocks →
        depthIndices.firstChildId i = i * schema.maxLinksPerBlock + 1 := by
  intro schema depthIndices
  have hs : schema.Sound data.length := schema_sound hsize data.length
  obtain ⟨blocks, hsplit, hblocks⟩ := split_builds hsize hinj
  have hqueue : queueAt schema hashF data 0 = [hashF (nodeOf schema hashF data 0)] := by
    rw [(queueAt_step hashF hs hs.total_pos).1, queueRest, linksBefore_zero, Nat.sub_self, List.take_zero, List.map_nil]
  refine ⟨blocks, hashF (nodeOf schema hashF data 0),
    (nodesFrom schema hashF data 0).zipIdx.map fun p => ((p.2 : Int), p.1), hsplit, fun rounds hrounds => ⟨?_, ?_⟩, ?_, ?_, ?_⟩
  · have hjoin := joinFrom_eq hs hblocks rounds hs.total_pos (by omega) []
    rw [hqueue, dataBefore_zero] at hjoin
    exact hjoin
  · have hnumber := numberNodes_eq hs hmax hblocks rounds (Nat.zero_le _) (by omega)
    rw [hqueue] at hnumber
    exact hnumber
  · rw [List.map_map, List.range_eq_range', ← Nat.sub_zero schema.totalBlocks, ← length_nodesFrom hashF,
      ← List.zipIdx_map_snd 0, List.map_map]
    rfl
  · intro node hnode
    obtain ⟨p, hp, rfl⟩ := List.mem_map.1 hnode
    obtain ⟨hi, hb⟩ := eq_nodeOf_of_mem hp
    refine ⟨hb ▸ length_nodeOf hs hi, ⟨_, _, hb ▸ read_nodeOf hs hi, length_linksOf hashF hs hi⟩, fun hlast => ?_⟩
    have hlast' : (p.2 : Int) + 1 < (schema.totalBlocks : Int) := hlast
    rw [hb, length_nodeOf hs hi, blockSize_full (by omega)]
    rfl
  · intro i hi
    rw [firstChildId_eq hs.links_pos hi]
    push_cast
    rfl

/-- A hash for an example: the block from its end, cut to 32 bytes. -/
def sampleHash (block : Bytes) : BitswapBlockLink := toLink block.reverse

/-- Data of 200 different bytes. -/
def sampleData : Bytes := (List.range 200).map UInt8.ofNat

instance (hashF : Bytes → BitswapBlockLink) (blocks : List Bytes) : Decidable (CollisionFree hashF blocks) :=
  inferInstanceAs (Decidable (∀ b ∈ blocks, ∀ b' ∈ blocks, hashF b = hashF b' → b = b'))

/-- Blocks of 70 bytes hold two links: the data takes five blocks. -/
theorem split_join_sample :
    (mkBitswapBlockSchema 70 sampleData.length).totalBlocks = 5 ∧
      ∃ blocks root, splitDataToBitswapBlocksWithHashF 70 sampleHash sampleData = .ok (blocks, root) ∧
        joinBitswapBlocks 5 blocks root = some (.ok sampleData) := by
  have htotal : (mkBitswapBlockSchema 70 sampleData.length).totalBlocks = 5 := by decide +kernel
  obtain ⟨blocks, root, nodes, hsplit, hjoin, -⟩ := split_join 70 (by decide) sampleHash sampleData
    (by decide +kernel) 5 (by decide +kernel)
  exact ⟨htotal, blocks, root, hsplit, (hjoin 5 (Nat.le_of_eq htotal)).1⟩

end Mina.Bitswap
