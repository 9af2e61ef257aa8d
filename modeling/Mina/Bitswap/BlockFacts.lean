/-
Facts on Bitswap blocks: what was written into a block is read back
(`read_blockBytes`), the arithmetic of the schema (`Schema`), and the child
numbers the depth indices give (`firstChildId_eq`).

`linksBefore i` and `dataBefore i` are the links and the bytes of data that
the nodes before node `i` hold. The links fill up from the front, so the
first is a minimum of two products, and every chunk but the last takes what
its block's links leave.
-/
import Mina.Bitswap.Block

namespace Mina.Bitswap

/-! ## Reading what was written -/

theorem uint16_putUint16 {l : Nat} (h : l ≤ 65535) (b : Bytes) : uint16 (putUint16 l ++ b) = l := by
  simp only [putUint16, List.cons_append, List.nil_append, uint16, UInt8.toNat_ofNat']
  omega

theorem length_putUint16 (l : Nat) : (putUint16 l).length = 2 := rfl

theorem length_linkBytes (links : List BitswapBlockLink) :
    (links.flatMap (·.val)).length = linkSize * links.length := by
  induction links with
  | nil => rfl
  | cons b links ih =>
    rw [List.flatMap_cons, List.length_append, ih, b.property, List.length_cons, Nat.mul_succ, Nat.add_comm]

theorem length_blockBytes (links : List BitswapBlockLink) (chunk : Bytes) :
    (blockBytes links chunk).length = linkSize * links.length + 2 + chunk.length := by
  rw [blockBytes, List.length_append, List.length_append, length_putUint16, length_linkBytes]
  omega

theorem toLink_append (b : BitswapBlockLink) (rest : Bytes) : toLink (b.val ++ rest) = b := by
  refine Subtype.ext ?_
  show (b.val ++ rest ++ List.replicate linkSize 0).take linkSize = b.val
  rw [List.append_assoc, List.take_append_of_le_length (Nat.le_of_eq b.property.symm)]
  exact List.take_of_length_le (Nat.le_of_eq b.property)

/-- The links are read one after the other. -/
theorem links_read (links : List BitswapBlockLink) (rest : Bytes) :
    ((List.range links.length).map fun i => toLink ((links.flatMap (·.val) ++ rest).drop (i * linkSize))) = links := by
  induction links with
  | nil => rfl
  | cons b links ih =>
    rw [List.length_cons, List.range_succ_eq_map, List.map_cons, List.map_map, List.flatMap_cons, Nat.zero_mul,
      List.drop_zero, List.append_assoc, toLink_append]
    refine congrArg (b :: ·) ((List.map_congr_left fun i _ => ?_).trans ih)
    have hdrop : (i + 1) * linkSize = b.val.length + i * linkSize := by rw [b.property, Nat.succ_mul, Nat.add_comm]
    rw [Function.comp_apply, Nat.succ_eq_add_one, hdrop, ← List.drop_drop, List.drop_left]

theorem read_blockBytes {links : List BitswapBlockLink} (h : links.length ≤ 65535) (chunk : Bytes) :
    readBitswapBlock (blockBytes links chunk) = .ok (links, chunk) := by
  have hl : uint16 (blockBytes links chunk) = links.length := by
    rw [blockBytes, List.append_assoc]
    exact uint16_putUint16 h _
  have hlen := length_blockBytes links chunk
  have hlinks : ((List.range links.length).map fun i => toLink ((blockBytes links chunk).drop (2 + i * linkSize)))
      = links := by
    refine Eq.trans (List.map_congr_left fun i _ => ?_) (links_read links chunk)
    rw [blockBytes, List.append_assoc, ← List.drop_drop]
    rfl
  have hdata : (blockBytes links chunk).drop (linkSize * links.length + 2) = chunk := by
    have hfront : linkSize * links.length + 2 = (putUint16 links.length ++ links.flatMap (·.val)).length := by
      rw [List.length_append, length_putUint16, length_linkBytes, Nat.add_comm]
    rw [blockBytes, hfront, List.drop_left]
  unfold readBitswapBlock
  rw [hl, if_pos (by omega), if_pos (by omega), hlinks, hdata]

/-! ## The arithmetic of the schema -/

/-- What the schema of data of length `dataLength` satisfies. -/
structure BitswapBlockSchema.Sound (s : BitswapBlockSchema) (dataLength : Nat) : Prop where
  size : 34 < s.maxBlockSize
  links_pos : 0 < s.maxLinksPerBlock
  links_le : s.maxLinksPerBlock ≤ 65535
  links_fit : s.maxLinksPerBlock * linkSize + 2 ≤ s.maxBlockSize
  total_pos : 0 < s.totalBlocks
  links : s.totalBlocks - 1 = s.fullLinkBlocks * s.maxLinksPerBlock + s.nonMaxLinkBlockLinkCount
  rest_lt : s.nonMaxLinkBlockLinkCount < s.maxLinksPerBlock
  data : s.lastBlockDataSize + (s.totalBlocks - 1) * (s.maxBlockSize - 34) = dataLength
  last_fits : s.lastBlockDataSize + 2 ≤ s.maxBlockSize

theorem linksPerBlock_bounds {maxBlockSize : Nat} (h : 34 < maxBlockSize) :
    0 < linksPerBlock maxBlockSize ∧ linksPerBlock maxBlockSize ≤ 65535 ∧
      linksPerBlock maxBlockSize * linkSize + 2 ≤ maxBlockSize := by
  have hmin : linksPerBlock maxBlockSize = min ((maxBlockSize - 2) / linkSize) 65535 := by
    unfold linksPerBlock
    dsimp only
    split <;> omega
  have hsize : linkSize = 32 := rfl
  rw [hmin, hsize]
  omega

/-- The number of blocks: all but the last are full, and the last one holds
what is left. -/
theorem blockCount_spec {maxBlockSize : Nat} (h : 34 < maxBlockSize) (dataLength : Nat) :
    0 < blockCount maxBlockSize dataLength ∧
      (blockCount maxBlockSize dataLength - 1) * (maxBlockSize - 34) ≤ dataLength ∧
      dataLength + 2 ≤ maxBlockSize + (blockCount maxBlockSize dataLength - 1) * (maxBlockSize - 34) := by
  unfold blockCount
  split
  · next hlong =>
    have hn2 : maxBlockSize - linkSize - 2 = maxBlockSize - 34 := by rw [linkSize]; omega
    rw [hn2]
    have hpos : 0 < maxBlockSize - 34 := by omega
    have hdiv := Nat.div_add_mod (dataLength - linkSize) (maxBlockSize - 34)
    have hmod := Nat.mod_lt (dataLength - linkSize) hpos
    rw [Nat.mul_comm] at hdiv
    have hsize : linkSize = 32 := rfl
    dsimp only
    generalize (dataLength - linkSize) / (maxBlockSize - 34) = q at hdiv ⊢
    generalize (dataLength - linkSize) % (maxBlockSize - 34) = r at hdiv hmod ⊢
    split
    · rw [Nat.add_sub_cancel]
      omega
    · -- no remainder: the quotient is positive, as the data exceeds one block
      obtain ⟨q, rfl⟩ : ∃ p, q = p + 1 := by
        cases q with
        | zero => rw [Nat.zero_mul] at hdiv; omega
        | succ p => exact ⟨p, rfl⟩
      rw [Nat.succ_mul] at hdiv
      rw [Nat.add_sub_cancel]
      omega
  · omega

theorem schema_sound {maxBlockSize : Nat} (h : 34 < maxBlockSize) (dataLength : Nat) :
    (mkBitswapBlockSchema maxBlockSize dataLength).Sound dataLength := by
  obtain ⟨hk, hk', hfit⟩ := linksPerBlock_bounds h
  obtain ⟨hn, hle, hge⟩ := blockCount_spec h dataLength
  have hn2 : maxBlockSize - linkSize - 2 = maxBlockSize - 34 := by rw [linkSize]; omega
  have hdata : dataLength - (maxBlockSize - linkSize - 2) * (blockCount maxBlockSize dataLength - 1) =
      dataLength - (blockCount maxBlockSize dataLength - 1) * (maxBlockSize - 34) := by rw [hn2, Nat.mul_comm]
  exact {
    size := h
    links_pos := hk
    links_le := hk'
    links_fit := hfit
    total_pos := hn
    links := by
      show blockCount maxBlockSize dataLength - 1 = _
      exact (Nat.div_add_mod' _ _).symm
    rest_lt := Nat.mod_lt _ hk
    data := by
      show dataLength - _ + _ = dataLength
      rw [hdata]
      exact Nat.sub_add_cancel hle
    last_fits := by
      show dataLength - _ + 2 ≤ maxBlockSize
      rw [hdata]
      omega }

namespace BitswapBlockSchema

/-- The links the nodes before node `i` hold. -/
def linksBefore (s : BitswapBlockSchema) (i : Nat) : Nat := min (i * s.maxLinksPerBlock) (s.totalBlocks - 1)

/-- The bytes of data the nodes before node `i` hold. -/
def dataBefore (s : BitswapBlockSchema) (i : Nat) : Nat := i * (s.maxBlockSize - 2) - linkSize * s.linksBefore i

/-- The bytes of data node `i` holds. -/
def chunkSize (s : BitswapBlockSchema) (i : Nat) : Nat := s.blockSize i - 2 - linkSize * s.linkCount i

variable {s : BitswapBlockSchema} {dataLength : Nat}

theorem linkCount_full {i : Nat} (h : i < s.fullLinkBlocks) : s.linkCount i = s.maxLinksPerBlock :=
  if_pos (Int.ofNat_lt.2 h)

theorem linkCount_rest (s : BitswapBlockSchema) : s.linkCount s.fullLinkBlocks = s.nonMaxLinkBlockLinkCount := by
  rw [linkCount, if_neg (Int.lt_irrefl _), if_pos rfl]

theorem linkCount_none {i : Nat} (h : s.fullLinkBlocks < i) : s.linkCount i = 0 := by
  have hlt : ¬ (i : Int) < s.fullLinkBlocks := by omega
  have hne : ¬ (i : Int) = s.fullLinkBlocks := by omega
  rw [linkCount, if_neg hlt, if_neg hne]

theorem Sound.linksBefore_succ (h : s.Sound dataLength) (i : Nat) :
    s.linksBefore (i + 1) = s.linksBefore i + s.linkCount i := by
  have hsucc : (i + 1) * s.maxLinksPerBlock = i * s.maxLinksPerBlock + s.maxLinksPerBlock := Nat.succ_mul ..
  have hn := h.links
  have hr := h.rest_lt
  unfold linksBefore
  rcases Nat.lt_trichotomy i s.fullLinkBlocks with hlt | rfl | hgt
  · have hle : (i + 1) * s.maxLinksPerBlock ≤ s.fullLinkBlocks * s.maxLinksPerBlock := Nat.mul_le_mul_right _ hlt
    rw [linkCount_full hlt]
    omega
  · rw [linkCount_rest]
    omega
  · have hle : (s.fullLinkBlocks + 1) * s.maxLinksPerBlock ≤ i * s.maxLinksPerBlock := Nat.mul_le_mul_right _ hgt
    rw [Nat.succ_mul] at hle
    rw [linkCount_none hgt]
    omega

theorem linksBefore_zero (s : BitswapBlockSchema) : s.linksBefore 0 = 0 := by
  rw [linksBefore, Nat.zero_mul, Nat.zero_min]

theorem linksBefore_le (s : BitswapBlockSchema) (i : Nat) : s.linksBefore i ≤ s.totalBlocks - 1 := Nat.min_le_right _ _

/-- The links of the nodes before `i` reach node `i`. -/
theorem Sound.le_linksBefore (h : s.Sound dataLength) {i : Nat} (hi : i < s.totalBlocks) : i ≤ s.linksBefore i := by
  have : i ≤ i * s.maxLinksPerBlock := Nat.le_mul_of_pos_right _ h.links_pos
  unfold linksBefore
  omega

theorem Sound.linkCount_le (h : s.Sound dataLength) (i : NodeIndex) : s.linkCount i ≤ s.maxLinksPerBlock := by
  have := h.rest_lt
  unfold linkCount
  split
  · exact Nat.le_refl _
  · split <;> omega

/-- Only a node with a full block has links. -/
theorem Sound.linkCount_last (h : s.Sound dataLength) : s.linkCount ((s.totalBlocks : Int) - 1) = 0 := by
  have hn := h.links
  have hk := h.links_pos
  have hpos := h.total_pos
  have hF : s.fullLinkBlocks ≤ s.fullLinkBlocks * s.maxLinksPerBlock := Nat.le_mul_of_pos_right _ hk
  have hlast : ((s.totalBlocks : Int) - 1) = (s.totalBlocks - 1 : Nat) := by omega
  rw [hlast]
  rcases Nat.lt_or_eq_of_le (show s.fullLinkBlocks ≤ s.totalBlocks - 1 by omega) with hlt | heq
  · exact linkCount_none hlt
  · rw [← heq, linkCount_rest]
    omega

theorem blockSize_last (s : BitswapBlockSchema) : s.blockSize ((s.totalBlocks : Int) - 1) = s.lastBlockDataSize + 2 :=
  if_pos rfl

theorem blockSize_full {s : BitswapBlockSchema} {i : Nat} (h : i + 1 < s.totalBlocks) :
    s.blockSize i = s.maxBlockSize := by
  have hne : ¬ (i : Int) = (s.totalBlocks : Int) - 1 := by omega
  exact if_neg hne

/-- A block is its links and its chunk. -/
theorem Sound.blockSize_eq (h : s.Sound dataLength) {i : Nat} (hi : i < s.totalBlocks) :
    s.blockSize i = linkSize * s.linkCount i + 2 + s.chunkSize i := by
  have hfit : linkSize * s.linkCount i + 2 ≤ s.blockSize i := by
    by_cases hlast : i + 1 < s.totalBlocks
    · have hle : linkSize * s.linkCount i ≤ linkSize * s.maxLinksPerBlock := Nat.mul_le_mul_left _ (h.linkCount_le i)
      have := h.links_fit
      rw [Nat.mul_comm] at this
      rw [blockSize_full hlast]
      omega
    · have hi' : (i : Int) = (s.totalBlocks : Int) - 1 := by omega
      rw [hi', h.linkCount_last, blockSize_last]
      omega
  unfold chunkSize
  omega

theorem Sound.blockSize_le (h : s.Sound dataLength) (i : NodeIndex) : s.blockSize i ≤ s.maxBlockSize := by
  have := h.last_fits
  unfold blockSize
  split <;> omega

theorem dataBefore_zero (s : BitswapBlockSchema) : s.dataBefore 0 = 0 := by rw [dataBefore, Nat.zero_mul, Nat.zero_sub]

/-- The links of full blocks leave room. -/
theorem Sound.linksBefore_fit (h : s.Sound dataLength) (i : Nat) :
    linkSize * s.linksBefore i ≤ i * (s.maxBlockSize - 2) := by
  have hle : s.linksBefore i ≤ i * s.maxLinksPerBlock := Nat.min_le_left _ _
  have hk : s.maxLinksPerBlock * linkSize ≤ s.maxBlockSize - 2 := by
    have := h.links_fit
    omega
  calc linkSize * s.linksBefore i ≤ linkSize * (i * s.maxLinksPerBlock) := Nat.mul_le_mul_left _ hle
    _ = i * (s.maxLinksPerBlock * linkSize) := by rw [Nat.mul_comm, Nat.mul_assoc]
    _ ≤ i * (s.maxBlockSize - 2) := Nat.mul_le_mul_left _ hk

theorem Sound.dataBefore_succ (h : s.Sound dataLength) {i : Nat} (hi : i + 1 < s.totalBlocks) :
    s.dataBefore (i + 1) = s.dataBefore i + s.chunkSize i := by
  have hsize := h.blockSize_eq (i := i) (by omega)
  rw [blockSize_full hi] at hsize
  have hi₀ := h.linksBefore_fit i
  have hlinks : linkSize * s.linksBefore (i + 1) = linkSize * s.linksBefore i + linkSize * s.linkCount i := by
    rw [h.linksBefore_succ, Nat.mul_add]
  have hsucc : (i + 1) * (s.maxBlockSize - 2) = i * (s.maxBlockSize - 2) + (s.maxBlockSize - 2) := Nat.succ_mul ..
  unfold dataBefore
  omega

/-- The last chunk ends the data. -/
theorem Sound.dataBefore_last (h : s.Sound dataLength) :
    s.dataBefore (s.totalBlocks - 1) + s.lastBlockDataSize = dataLength := by
  have hle : s.totalBlocks - 1 ≤ (s.totalBlocks - 1) * s.maxLinksPerBlock := Nat.le_mul_of_pos_right _ h.links_pos
  have hbefore : s.linksBefore (s.totalBlocks - 1) = s.totalBlocks - 1 := by unfold linksBefore; omega
  have hsize := h.size
  have hsplit : (s.totalBlocks - 1) * (s.maxBlockSize - 2) =
      (s.totalBlocks - 1) * (s.maxBlockSize - 34) + linkSize * (s.totalBlocks - 1) := by
    rw [Nat.mul_comm linkSize, ← Nat.mul_add]
    congr 1
    rw [linkSize]
    omega
  have hdata := h.data
  unfold dataBefore
  rw [hbefore]
  omega

theorem Sound.chunkSize_last (h : s.Sound dataLength) {i : Nat} (hi : i + 1 = s.totalBlocks) :
    s.chunkSize i = s.lastBlockDataSize := by
  have hi' : (i : Int) = (s.totalBlocks : Int) - 1 := by omega
  rw [chunkSize, hi', h.linkCount_last, blockSize_last]
  omega

end BitswapBlockSchema

/-! ## The numbers of the children -/

/-- The left-most node of each depth is the first child of the one before, and
the loop finds the first that comes after a node whose children start below
the limit. -/
theorem depthIndicesFrom_find {k m id : Nat} (hk : 0 < k) (hid : id * k + 1 < m) (rounds val last : Nat)
    (hval : 0 < val) (hnext : last + val = last * k + 1) (hlast : last ≤ id) (hrounds : m ≤ last + rounds) :
    ∃ d, ((last : Int) :: depthIndicesFrom k m rounds val last).findIdx (fun i => decide (i > (id : Int))) = d + 1 ∧
      d + 1 < ((last : Int) :: depthIndicesFrom k m rounds val last).length ∧
      ((last : Int) :: depthIndicesFrom k m rounds val last).getD (d + 1) 0 +
        (id - ((last : Int) :: depthIndicesFrom k m rounds val last).getD d 0) * (k : Int) = id * k + 1 := by
  have hskip : decide ((last : Int) > (id : Int)) = false := decide_eq_false (by omega)
  induction rounds generalizing val last with
  | zero =>
    have : id ≤ id * k := Nat.le_mul_of_pos_right _ hk
    omega
  | succ rounds ih =>
    have hmul : last * k ≤ id * k := Nat.mul_le_mul_right _ hlast
    rw [depthIndicesFrom, if_pos (by omega), List.findIdx_cons, hskip, cond_false]
    by_cases hfound : id < last + val
    · refine ⟨0, ?_, ?_, ?_⟩
      · rw [List.findIdx_cons, decide_eq_true (by omega), cond_true]
      · simp only [List.length_cons]
        omega
      · show ((last + val : Nat) : Int) + (id - last) * k = id * k + 1
        rw [hnext, Int.sub_mul]
        push_cast
        omega
    · obtain ⟨d, hfind, hlen, hvalue⟩ := ih (val * k) (last + val) (Nat.mul_pos hval hk)
        (by rw [Nat.add_mul, hnext]; omega) (by omega) (by omega) (decide_eq_false (by omega))
      exact ⟨d + 1, congrArg (· + 1) hfind, Nat.succ_lt_succ hlen, hvalue⟩

/-- **The children of node `id` start at `id * linksPerBlock + 1`**, as long as
this is below the limit of the indices. -/
theorem firstChildId_eq {k m id : Nat} (hk : 0 < k) (hid : id * k + 1 < m) :
    (mkDepthIndices k m).firstChildId id = ((id * k + 1 : Nat) : Int) := by
  obtain ⟨d, hfind, hlen, hvalue⟩ := depthIndicesFrom_find hk hid m 1 0
    (by omega) (by omega) (by omega) (by omega)
  have hneg : ¬ (d + 1 ≥ ((0 : Int) :: depthIndicesFrom k m m 1 0).length ∨ d + 1 = 0) := by
    have : d + 1 < ((0 : Int) :: depthIndicesFrom k m m 1 0).length := hlen
    omega
  unfold DepthIndices.firstChildId mkDepthIndices
  simp only [Int.natCast_zero, gt_iff_lt] at hfind hvalue ⊢
  rw [hfind, if_neg hneg, Nat.add_sub_cancel, hvalue]
  push_cast
  rfl

end Mina.Bitswap
