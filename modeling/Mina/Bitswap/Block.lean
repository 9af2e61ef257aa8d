/-
Bitswap blocks (`libp2p_helper/bitswap_block.go`): a blob of data is split
into blocks of at most `maxBlockSize` bytes, each block being two bytes for
the number of its links, the links, and a chunk of the data. A link is the
hash of the block it leads to, so the blocks form a tree under the root's
hash, and the data is read off breadth first.

Three computations must agree: `mkBitswapBlockSchema` predicts the shape of
every node from the length of the data alone, `firstChildId` predicts the
number of a node's children, and the split builds the blocks from the end of
the data with a queue of the nodes that have no parent yet.

Lengths are natural numbers. With a block size over 34, which the split
checks, no difference below is negative and none of the values leaves Go's
`int`. A panic is an error with its text.
-/
import Mathlib.Logic.Function.Basic
import Mathlib.Data.List.Basic

namespace Mina.Bitswap

abbrev Bytes := List UInt8

/-- `BITSWAP_BLOCK_LINK_SIZE`. -/
def linkSize : Nat := 32

/-- `BitswapBlockLink`, an array of 32 bytes. -/
abbrev BitswapBlockLink := { b : Bytes // b.length = linkSize }

/-- A map of blocks by their hashes. -/
abbrev Blocks := BitswapBlockLink → Option Bytes

/-- `NodeIndex`, the number of a node within one tree. -/
abbrev NodeIndex := Int

/-- `copy(links[i][:], …)`: the first 32 bytes, over an array of zeros. -/
def toLink (b : Bytes) : BitswapBlockLink :=
  ⟨(b ++ List.replicate linkSize 0).take linkSize, by
    rw [List.length_take, List.length_append, List.length_replicate]; omega⟩

/-- `binary.LittleEndian.PutUint16`. -/
def putUint16 (l : Nat) : Bytes := [UInt8.ofNat l, UInt8.ofNat (l / 256)]

/-- `binary.LittleEndian.Uint16`. -/
def uint16 : Bytes → Nat
  | a :: b :: _ => a.toNat + 256 * b.toNat
  | _ => 0

/-! ## The schema -/

structure BitswapBlockSchema where
  totalBlocks : Nat
  fullLinkBlocks : Nat
  nonMaxLinkBlockLinkCount : Nat
  lastBlockDataSize : Nat
  maxBlockSize : Nat
  maxLinksPerBlock : Nat

/-- `LinksPerBlock`. -/
def linksPerBlock (maxBlockSize : Nat) : Nat :=
  let linksPerBlock := (maxBlockSize - 2) / linkSize
  if linksPerBlock > 65535 then 65535 else linksPerBlock

/-- The `n` of `MkBitswapBlockSchema`. -/
def blockCount (maxBlockSize dataLength : Nat) : Nat :=
  if dataLength > maxBlockSize - 2 then
    let n1 := dataLength - linkSize
    let n2 := maxBlockSize - linkSize - 2
    if n1 % n2 > 0 then n1 / n2 + 1 else n1 / n2
  else 1

/-- `MkBitswapBlockSchema`. -/
def mkBitswapBlockSchema (maxBlockSize dataLength : Nat) : BitswapBlockSchema :=
  let n := blockCount maxBlockSize dataLength
  let lastBlockDataSz := dataLength - (maxBlockSize - linkSize - 2) * (n - 1)
  let linksPerBlock := linksPerBlock maxBlockSize
  { totalBlocks := n
    lastBlockDataSize := lastBlockDataSz
    fullLinkBlocks := (n - 1) / linksPerBlock
    nonMaxLinkBlockLinkCount := (n - 1) % linksPerBlock
    maxBlockSize := maxBlockSize
    maxLinksPerBlock := linksPerBlock }

/-- `schema.BlockSize`. -/
def BitswapBlockSchema.blockSize (schema : BitswapBlockSchema) (id : NodeIndex) : Nat :=
  if id = (schema.totalBlocks : Int) - 1 then schema.lastBlockDataSize + 2 else schema.maxBlockSize

/-- `schema.LinkCount`. -/
def BitswapBlockSchema.linkCount (schema : BitswapBlockSchema) (id : NodeIndex) : Nat :=
  if id < schema.fullLinkBlocks then schema.maxLinksPerBlock
  else if id = schema.fullLinkBlocks then schema.nonMaxLinkBlockLinkCount
  else 0

/-! ## The indices of the left-most nodes -/

structure DepthIndices where
  indices : List NodeIndex
  linksPerBlock : Nat

/-- The loop of `MkDepthIndices`, from the last index found. A round moves the
last index, so `maxTotalBlocks` rounds are enough. -/
def depthIndicesFrom (linksPerBlock maxTotalBlocks : Nat) : (rounds val last : Nat) → List NodeIndex
  | 0, _, _ => []
  | rounds + 1, val, last =>
    if last + val < maxTotalBlocks then
      ((last + val : Nat) : Int) :: depthIndicesFrom linksPerBlock maxTotalBlocks rounds (val * linksPerBlock) (last + val)
    else []

/-- `MkDepthIndices`. -/
def mkDepthIndices (linksPerBlock maxTotalBlocks : Nat) : DepthIndices :=
  { indices := 0 :: depthIndicesFrom linksPerBlock maxTotalBlocks maxTotalBlocks 1 0
    linksPerBlock := linksPerBlock }

/-- `di.FirstChildId`. -/
def DepthIndices.firstChildId (di : DepthIndices) (id : NodeIndex) : NodeIndex :=
  let ixs := di.indices
  let depth := ixs.findIdx fun i => decide (i > id)
  if depth ≥ ixs.length ∨ depth = 0 then -1
  else ixs.getD depth 0 + (id - ixs.getD (depth - 1) 0) * di.linksPerBlock

/-! ## Splitting -/

/-- The variables `SplitDataToBitswapBlocksWithHashF` updates. -/
structure SplitState where
  res : Blocks
  queue : List BitswapBlockLink
  /-- End of data not yet allocated to some block. -/
  dataEnd : Nat

/-- The bytes of a block. -/
def blockBytes (links : List BitswapBlockLink) (chunk : Bytes) : Bytes :=
  putUint16 links.length ++ links.flatMap (·.val) ++ chunk

/-- `addBlock`. The links come in reverse order, as they were taken out of a
queue which has the order reversed. -/
def addBlock (maxBlockSize : Nat) (hashF : Bytes → BitswapBlockLink) (links : List BitswapBlockLink) (chunk : Bytes)
    (st : SplitState) : Except String SplitState :=
  let l := links.length
  let sz := l * linkSize + 2 + chunk.length
  if l > 65535 ∨ sz > maxBlockSize then .error "DataToBlocks: invalid block produced"
  else
    let block := blockBytes links.reverse chunk
    let blockLink := hashF block
    .ok { st with res := Function.update st.res blockLink (some block), queue := st.queue ++ [blockLink] }

/-- One block with the `l` first links of the queue and the last `dsz` bytes
of the data not yet allocated. Both must be there. -/
def addNode (maxBlockSize : Nat) (hashF : Bytes → BitswapBlockLink) (data : Bytes) (l dsz : Nat) (st : SplitState) :
    Except String SplitState :=
  if st.queue.length < l ∨ st.dataEnd < dsz then .error "slice bounds out of range"
  else do
    let st ← addBlock maxBlockSize hashF (st.queue.take l) ((data.drop (st.dataEnd - dsz)).take dsz) st
    return { st with queue := st.queue.drop l, dataEnd := st.dataEnd - dsz }

/-- The loops of the split: the same kind of block `count` times. -/
def addNodes (maxBlockSize : Nat) (hashF : Bytes → BitswapBlockLink) (data : Bytes) (l dsz : Nat) :
    (count : Nat) → SplitState → Except String SplitState
  | 0, st => .ok st
  | count + 1, st => do addNodes maxBlockSize hashF data l dsz count (← addNode maxBlockSize hashF data l dsz st)

/-- `SplitDataToBitswapBlocksWithHashF`. -/
def splitDataToBitswapBlocksWithHashF (maxBlockSize : Nat) (hashF : Bytes → BitswapBlockLink) (data : Bytes) :
    Except String (Blocks × BitswapBlockLink) :=
  if maxBlockSize ≤ 2 + linkSize then .error "Max block size too small"
  else do
    let schema := mkBitswapBlockSchema maxBlockSize data.length
    let linksPerBlock := schema.maxLinksPerBlock
    let n := schema.totalBlocks
    let fullLinkBlocks := schema.fullLinkBlocks
    let lRem := schema.nonMaxLinkBlockLinkCount
    let dataEnd := data.length - schema.lastBlockDataSize
    let mut st ← addBlock maxBlockSize hashF [] (data.drop dataEnd) { res := fun _ => none, queue := [], dataEnd := dataEnd }
    if n > 1 then
      -- number of blocks of data only, the last one apart
      let dataBlocks := if lRem > 0 then n - fullLinkBlocks - 1 - 1 else n - fullLinkBlocks - 1
      st ← addNodes maxBlockSize hashF data 0 (maxBlockSize - 2) dataBlocks st
      if lRem > 0 then
        st ← addNode maxBlockSize hashF data lRem (maxBlockSize - 2 - lRem * linkSize) st
      st ← addNodes maxBlockSize hashF data linksPerBlock (maxBlockSize - 2 - linksPerBlock * linkSize) fullLinkBlocks st
    match st.queue with
    | root :: _ => return (st.res, root)
    | [] => .error "index out of range"

/-! ## Data with its length and tag -/

abbrev BitswapDataTag := UInt8

/-- `binary.LittleEndian.PutUint32`. -/
def putUint32 (l : Nat) : Bytes :=
  [UInt8.ofNat l, UInt8.ofNat (l / 256), UInt8.ofNat (l / 65536), UInt8.ofNat (l / 16777216)]

/-- `binary.LittleEndian.Uint32`. -/
def uint32 : Bytes → Nat
  | a :: b :: c :: d :: _ => a.toNat + 256 * b.toNat + 65536 * c.toNat + 16777216 * d.toNat
  | _ => 0

/-- `math.MaxUint32`. -/
def maxUint32 : Nat := 4294967295

/-- `ExtractLengthFromRootBlockData`. -/
def extractLengthFromRootBlockData (data_ : Bytes) : Except String (Bytes × Nat) :=
  if data_.length < 4 then .error "data less than 4 bytes long"
  else .ok (data_.drop 4, uint32 data_)

/-- `MkBitswapBlockSchemaLengthPrefixed`. -/
def mkBitswapBlockSchemaLengthPrefixed (maxBlockSize dataLength : Nat) : BitswapBlockSchema :=
  mkBitswapBlockSchema maxBlockSize (dataLength + 4)

/-- `SplitDataToBitswapBlocksLengthPrefixedWithHashF`. -/
def splitDataToBitswapBlocksLengthPrefixedWithHashF (maxBlockSize : Nat) (hashF : Bytes → BitswapBlockLink)
    (data : Bytes) : Except String (Blocks × BitswapBlockLink) :=
  if maxBlockSize < 2 + linkSize + 4 then .error "Max block size too small"
  else if data.length > maxUint32 then .error "data too large"
  else splitDataToBitswapBlocksWithHashF maxBlockSize hashF (putUint32 data.length ++ data)

/-- `SplitDataToBitswapBlocksLengthPrefixedWithTag`. -/
def splitDataToBitswapBlocksLengthPrefixedWithTag (maxBlockSize : Nat) (hashF : Bytes → BitswapBlockLink)
    (data : Bytes) (tag : BitswapDataTag) : Except String (Blocks × BitswapBlockLink) :=
  splitDataToBitswapBlocksLengthPrefixedWithHashF maxBlockSize hashF (tag :: data)

/-! ## Reading and joining -/

/-- `ReadBitswapBlock`. -/
def readBitswapBlock (block : Bytes) : Except String (List BitswapBlockLink × Bytes) :=
  if block.length ≥ 2 then
    let l := uint16 block
    let start := linkSize * l + 2
    if block.length ≥ start then
      .ok ((List.range l).map fun i => toLink (block.drop (2 + i * linkSize)), block.drop start)
    else .error ("invalid link count: " ++ toString l ++ " (len=" ++ toString block.length ++ ")")
  else .error ("block is too short: " ++ toString block.length)

/-- The loop of `JoinBitswapBlocks`, `none` when the rounds run out. The
arrays of bytes are joined at the end. -/
def joinFrom (blocks : Blocks) : (rounds : Nat) → (queue : List BitswapBlockLink) → (res : List Bytes) →
    Option (Except String Bytes)
  | 0, _, _ => none
  | _ + 1, [], _ => some (.error "index out of range")
  | rounds + 1, link :: queue, res =>
    match blocks link with
    | none => some (.error "didn't find a block")
    | some block =>
      match readBitswapBlock block with
      | .error err => some (.error err)
      | .ok (links, data) =>
        if queue ++ links = [] then some (.ok (res ++ [data]).flatten)
        else joinFrom blocks rounds (queue ++ links) (res ++ [data])

/-- `JoinBitswapBlocks`. Over blocks that link in a circle it never returns. -/
def joinBitswapBlocks (rounds : Nat) (blocks : Blocks) (root : BitswapBlockLink) : Option (Except String Bytes) :=
  joinFrom blocks rounds [root] []

end Mina.Bitswap
