/-
The bitswap downloader (`libp2p_helper/bitswap_downloader.go` and
`ClearRootDownloadState` of `bitswap.go`). A root is asked for by its hash.
For every block that is waited for, `nodeDownloadParams` has the roots it
belongs to and the indices it stands at in each tree. A block that comes in
is checked against the shape its indices predict, and its links are waited
for in turn. A root is done when its counter of listed indices comes to zero.

A block's cid and its hash determine each other and are not told apart. The
session of a root and its cancel function only matter for the requests made:
requests, resource updates and deadline trackers are kept in lists. Go maps
have no order. The only order that matters is the one in which the links of a
block are taken, and it is an argument (`links`). The blocks found in storage
are processed by recursion, the first of them with all that follows from it
before the next: here they wait in a stack (`Process`), and one step
processes one block.
-/
import Mina.Bitswap.Block
import Mathlib.Data.List.AList
import Mathlib.Data.Finset.Insert

namespace Mina.Bitswap

/-- `root`. -/
abbrev Root := BitswapBlockLink

/-- `IsValidMaxBlockSize`. -/
def isValidMaxBlockSize (maxBlobSize : Nat) : Bool :=
  decide (maxBlobSize ≥ 7 + linkSize) && decide ((maxBlobSize - 2) % linkSize ≥ 5)

structure BitswapDataConfig where
  maxSize : Nat
  downloadTimeout : Nat

/-- What the downloader is configured with. -/
structure Config where
  maxBlockSize : Nat
  dataConfig : BitswapDataTag → Option BitswapDataConfig
  depthIndices : DepthIndices
  valid : isValidMaxBlockSize maxBlockSize = true

/-- A value of `map[root][]NodeIndex`. -/
abbrev NodeParams := AList fun _ : Root => List NodeIndex

inductive RootBlockStatus where
  | Partial
  | Full
  | Deleting
deriving DecidableEq

/-- What `ViewBlock` does: the block is there, or `ErrNotFound`, or another error. -/
inductive View where
  | found (block : Bytes)
  | notFound
  | failed

inductive ResourceUpdateType where
  | added
  | broken
deriving DecidableEq

structure RootDownloadState where
  allDescendants : Finset BitswapBlockLink
  schema : Option BitswapBlockSchema
  tag : BitswapDataTag
  remainingNodeCounter : Int

/-- `BitswapState`: the two maps, the storage, and what was sent out. A status
is an error when it cannot be read. -/
structure BitswapState where
  nodeDownloadParams : BitswapBlockLink → Option NodeParams
  rootDownloadStates : Root → Option RootDownloadState
  statuses : Root → Except String (Option RootBlockStatus)
  blocks : BitswapBlockLink → View
  requests : List BitswapBlockLink
  updates : List (ResourceUpdateType × Root)
  deadlines : List (Root × Nat)

namespace BitswapState

/-! ## The storage and the messages -/

/-- `isStatusTransitionAllowed`. -/
def isStatusTransitionAllowed (prev : Option RootBlockStatus) (newStatus : RootBlockStatus) : Bool :=
  match newStatus with
  | .Partial => decide (prev = none ∨ prev = some .Partial)
  | .Full => decide (prev = none ∨ prev = some .Partial ∨ prev = some .Full)
  | .Deleting => prev.isSome

/-- `SetStatus`. -/
def setStatus (key : Root) (newStatus : RootBlockStatus) (s : BitswapState) : Except String BitswapState :=
  match s.statuses key with
  | .error err => .error err
  | .ok prev =>
    if isStatusTransitionAllowed prev newStatus then
      .ok { s with statuses := Function.update s.statuses key (.ok (some newStatus)) }
    else .error "wrong status transition"

/-- `SendResourceUpdate`. -/
def sendResourceUpdate (type_ : ResourceUpdateType) (root : Root) (s : BitswapState) : BitswapState :=
  { s with updates := s.updates ++ [(type_, root)] }

/-- `RequestBlocks`, when it succeeds. -/
def requestBlocks (keys : List BitswapBlockLink) (s : BitswapState) : BitswapState :=
  { s with requests := s.requests ++ keys }

/-- `RegisterDeadlineTracker`. -/
def registerDeadlineTracker (root : Root) (downloadTimeout : Nat) (s : BitswapState) : BitswapState :=
  { s with deadlines := s.deadlines ++ [(root, downloadTimeout)] }

/-- An entry of `nodeDownloadParams` without a root, deleted when empty. -/
def withoutRoot (root : Root) (np : NodeParams) : Option NodeParams :=
  if (np.erase root).keys = [] then none else some (np.erase root)

/-- `ClearRootDownloadState`. -/
def clearRootDownloadState (root : Root) (s : BitswapState) : BitswapState :=
  match s.rootDownloadStates root with
  | none => s
  | some state =>
    { s with
      rootDownloadStates := Function.update s.rootDownloadStates root none
      nodeDownloadParams := fun c =>
        if c ∈ state.allDescendants then (s.nodeDownloadParams c).bind (withoutRoot root)
        else s.nodeDownloadParams c }

end BitswapState

/-! ## One block against the shapes its indices predict -/

/-- Why a root is malformed. -/
inductive Malformed where
  | readingBlock (err : String)
  | readingRootBlock (err : String)
  | unexpectedSize (ix : NodeIndex) (size expected : Nat)
  | unexpectedLinkCount (ix : NodeIndex) (count expected : Nat)

/-- The checks of a root block, and the schema it gives. -/
def checkRootBlock (cfg : Config) (tag : BitswapDataTag) (fullBlockData : Bytes) : Except String BitswapBlockSchema :=
  match extractLengthFromRootBlockData fullBlockData with
  | .error err => .error err
  | .ok ([], _) => .error "error reading tag from block"
  | .ok (tag_ :: _, dataLen) =>
    if tag_ ≠ tag then .error ("tag mismatch: " ++ toString tag_ ++ " != " ++ toString tag)
    else
      match cfg.dataConfig tag with
      | none => .error ("no tag config for tag " ++ toString tag)
      | some dataConf =>
        if (dataConf.maxSize : Int) < (dataLen : Int) - 1 then
          .error ("data is too large: " ++ toString ((dataLen : Int) - 1) ++ " > " ++ toString dataConf.maxSize)
        else .ok (mkBitswapBlockSchemaLengthPrefixed cfg.maxBlockSize dataLen)

/-- The schema the block is checked with for one root: the one it gives itself
when it stands at the root, else the one known. -/
def schemaFor (cfg : Config) (fullBlockData : Bytes) (rp : RootDownloadState) (ixs : List NodeIndex) :
    Except String (Option BitswapBlockSchema) :=
  if ixs.contains 0 then (checkRootBlock cfg rp.tag fullBlockData).map some else .ok rp.schema

/-- The children of the node at `ix`. -/
def childrenAt (di : DepthIndices) (links : List BitswapBlockLink) (ix : NodeIndex) :
    List (BitswapBlockLink × NodeIndex) :=
  links.zipIdx.map fun p => (p.1, di.firstChildId ix + (p.2 : Int))

/-- The loop over the indices of one root: the children found before it stops,
and why it stopped. -/
def indicesStep (schema : BitswapBlockSchema) (di : DepthIndices) (size : Nat) (links : List BitswapBlockLink) :
    List NodeIndex → List (BitswapBlockLink × NodeIndex) × Option Malformed
  | [] => ([], none)
  | ix :: ixs =>
    if size ≠ schema.blockSize ix then ([], some (.unexpectedSize ix size (schema.blockSize ix)))
    else if links.length ≠ schema.linkCount ix then
      ([], some (.unexpectedLinkCount ix links.length (schema.linkCount ix)))
    else
      let rest := indicesStep schema di size links ixs
      (childrenAt di links ix ++ rest.1, rest.2)

/-- What one root makes of a block: the schema to set, the children and the error. -/
structure RootStep where
  schema : Option BitswapBlockSchema
  children : List (BitswapBlockLink × NodeIndex)
  malformed : Option Malformed

/-- The body of the loop over the roots of `processDownloadedBlockStep`. -/
def rootStep (cfg : Config) (size : Nat) (links : List BitswapBlockLink) (fullBlockData : Bytes)
    (rp : RootDownloadState) (ixs : List NodeIndex) : RootStep :=
  match schemaFor cfg fullBlockData rp ixs with
  | .error err => { schema := rp.schema, children := [], malformed := some (.readingRootBlock err) }
  | .ok none => { schema := rp.schema, children := [], malformed := none }
  | .ok (some schema) =>
    let r := indicesStep schema cfg.depthIndices size links ixs
    { schema := some schema, children := r.1, malformed := r.2 }

/-- A value of `map[BitswapBlockLink]map[root][]NodeIndex`. -/
abbrev Children := AList fun _ : BitswapBlockLink => NodeParams

/-- `children[link][root_] = append(children[link][root_], ix)`. -/
def addChild (root_ : Root) (children : Children) (p : BitswapBlockLink × NodeIndex) : Children :=
  let np := (children.lookup p.1).getD ∅
  children.insert p.1 (np.insert root_ ((np.lookup root_).getD [] ++ [p.2]))

/-- `children`, `malformed`, and the schemas set in `rootParams`. -/
structure StepResult where
  children : Children
  malformed : AList fun _ : Root => Malformed
  rootParams : Root → Option RootDownloadState

/-- The loop over the roots, for one of them. -/
def rootsStep (cfg : Config) (size : Nat) (links : List BitswapBlockLink) (fullBlockData : Bytes) (acc : StepResult)
    (e : Sigma fun _ : Root => List NodeIndex) : StepResult :=
  match acc.rootParams e.1 with
  | none => acc
  | some rp =>
    let r := rootStep cfg size links fullBlockData rp e.2
    { children := r.children.foldl (addChild e.1) acc.children
      malformed :=
        match r.malformed with
        | none => acc.malformed
        | some err => acc.malformed.insert e.1 err
      rootParams := Function.update acc.rootParams e.1 (some { rp with schema := r.schema }) }

/-- `processDownloadedBlockStep`. -/
def processDownloadedBlockStep (cfg : Config) (params : NodeParams) (block : Bytes)
    (rootParams : Root → Option RootDownloadState) : StepResult :=
  match readBitswapBlock block with
  | .error err =>
    { children := ∅
      malformed := params.keys.foldl (fun malformed root => malformed.insert root (.readingBlock err)) ∅
      rootParams := rootParams }
  | .ok (links, fullBlockData) =>
    params.entries.foldl (rootsStep cfg block.length links fullBlockData)
      { children := ∅, malformed := ∅, rootParams := rootParams }

/-! ## A downloaded block -/

namespace BitswapState

/-- The block's entry is taken out, and its indices are no longer counted. -/
def takeParams (id : BitswapBlockLink) (oldPs : NodeParams) (s : BitswapState) : BitswapState :=
  { s with
    nodeDownloadParams := Function.update s.nodeDownloadParams id none
    rootDownloadStates := fun root => (s.rootDownloadStates root).map fun state =>
      { state with remainingNodeCounter := state.remainingNodeCounter - ((oldPs.lookup root).getD []).length } }

/-- What the block's step makes of the state without its entry. -/
def stepOf (cfg : Config) (id : BitswapBlockLink) (oldPs : NodeParams) (block : Bytes) (s : BitswapState) : StepResult :=
  processDownloadedBlockStep cfg oldPs block (s.takeParams id oldPs).rootDownloadStates

/-- A malformed root. -/
def dropMalformed (s : BitswapState) (root : Root) : BitswapState :=
  (s.clearRootDownloadState root).sendResourceUpdate .broken root

/-- The variables of the loop over the links. -/
structure LinksLoop where
  st : BitswapState
  blocksToProcess : List (BitswapBlockLink × Bytes)
  toDownload : List BitswapBlockLink
  someRootState : Option Root

/-- The indices of one root at a child. -/
def addIxs (childId : BitswapBlockLink) (l : LinksLoop) (e : Sigma fun _ : Root => List NodeIndex) : LinksLoop :=
  let np := (l.st.nodeDownloadParams childId).getD ∅
  let np := np.insert e.1 ((np.lookup e.1).getD [] ++ e.2)
  let s := { l.st with nodeDownloadParams := Function.update l.st.nodeDownloadParams childId (some np) }
  match s.rootDownloadStates e.1 with
  | none => { l with st := s }
  | some rootState =>
    { l with
      st := { s with rootDownloadStates := Function.update s.rootDownloadStates e.1 (some { rootState with
        allDescendants := insert childId rootState.allDescendants
        remainingNodeCounter := rootState.remainingNodeCounter + e.2.length }) }
      someRootState := some e.1 }

/-- The body of the loop over the links. -/
def addLink (newParams : Children) (l : LinksLoop) (link : BitswapBlockLink) : LinksLoop :=
  let np := (l.st.nodeDownloadParams link).getD ∅
  let s := { l.st with nodeDownloadParams := Function.update l.st.nodeDownloadParams link (some np) }
  let l := ((newParams.lookup link).getD ∅).entries.foldl (addIxs link) { l with st := s }
  match l.st.blocks link with
  | .found blockBytes => { l with blocksToProcess := l.blocksToProcess ++ [(link, blockBytes)] }
  | .notFound | .failed => { l with toDownload := l.toDownload ++ [link] }

/-- A root of the block whose counter came to zero is fully downloaded. -/
def finishRoot (s : BitswapState) (root : Root) : BitswapState :=
  match s.rootDownloadStates root with
  | none => s
  | some rootState =>
    if rootState.remainingNodeCounter = 0 then
      let s :=
        match s.setStatus root .Full with
        | .ok s => s
        | .error _ => s
      (s.clearRootDownloadState root).sendResourceUpdate .added root
    else s

/-- `processDownloadedBlock` up to its recursion: the state, and the blocks
found in storage. `links` are the links of the new parameters in the order
they are taken. -/
def processDownloadedBlock (cfg : Config) (id : BitswapBlockLink) (block : Bytes) (links : List BitswapBlockLink)
    (s : BitswapState) : Except String (BitswapState × List (BitswapBlockLink × Bytes)) :=
  match s.nodeDownloadParams id with
  | none => .ok (s, [])
  | some oldPs =>
    let r := s.stepOf cfg id oldPs block
    let s := { s.takeParams id oldPs with rootDownloadStates := r.rootParams }
    let s := r.malformed.keys.foldl dropMalformed s
    let l := links.foldl (addLink r.children) { st := s, blocksToProcess := [], toDownload := [], someRootState := none }
    if l.toDownload ≠ [] ∧ l.someRootState = none then .error "invalid memory address or nil pointer dereference"
    else .ok (oldPs.keys.foldl finishRoot (l.st.requestBlocks l.toDownload), l.blocksToProcess)

/-- The links of the new parameters. -/
def newLinks (cfg : Config) (id : BitswapBlockLink) (block : Bytes) (s : BitswapState) : List BitswapBlockLink :=
  match s.nodeDownloadParams id with
  | none => []
  | some oldPs => (s.stepOf cfg id oldPs block).children.keys

/-! ## A root is asked for -/

/-- `kickStartRootDownload` up to the processing of the root block when it is
in storage. `requestFails` says that the request for it is refused. -/
def kickStartRootDownload (cfg : Config) (root_ : Root) (tag : BitswapDataTag) (requestFails : Bool)
    (s : BitswapState) : BitswapState × List (BitswapBlockLink × Bytes) :=
  if (s.nodeDownloadParams root_).isSome then (s, [])
  else
    -- a tag that is not supported is logged, and its configuration is all zero
    let dataConf := (cfg.dataConfig tag).getD { maxSize := 0, downloadTimeout := 0 }
    match s.setStatus root_ .Partial with
    | .error _ =>
      match s.statuses root_ with
      | .ok (some .Full) => (s.sendResourceUpdate .added root_, [])
      | _ => (s, [])
    | .ok s =>
      let s := { s with
        nodeDownloadParams := Function.update s.nodeDownloadParams root_ (some (AList.singleton root_ [0]))
        rootDownloadStates := Function.update s.rootDownloadStates root_ (some {
          allDescendants := {root_}
          schema := none
          tag := tag
          remainingNodeCounter := 1 }) }
      match s.blocks root_ with
      | .failed => (s.clearRootDownloadState root_, [])
      | .notFound =>
        if requestFails then (s.clearRootDownloadState root_, [])
        else ((s.requestBlocks [root_]).registerDeadlineTracker root_ dataConf.downloadTimeout, [])
      | .found rootBlock => (s.registerDeadlineTracker root_ dataConf.downloadTimeout, [(root_, rootBlock)])

end BitswapState

/-! ## The process -/

/-- The state, and the blocks that the calls under way are still to process. -/
structure Process where
  st : BitswapState
  pending : List (BitswapBlockLink × Bytes)

/-- What happens to the downloader. -/
inductive Event where
  /-- `kickStartRootDownload` is called. -/
  | kickStart (root : Root) (tag : BitswapDataTag) (requestFails : Bool)
  /-- `processDownloadedBlock` is called. -/
  | deliver (id : BitswapBlockLink) (block : Bytes)
  /-- A deadline expires. -/
  | deadline (root : Root)
  /-- The storage changes. -/
  | storage (statuses : Root → Except String (Option RootBlockStatus)) (blocks : BitswapBlockLink → View)
  /-- The next block of the calls under way is processed. -/
  | next (links : List BitswapBlockLink)

namespace Process

def init (statuses : Root → Except String (Option RootBlockStatus)) (blocks : BitswapBlockLink → View) : Process where
  st := { nodeDownloadParams := fun _ => none, rootDownloadStates := fun _ => none, statuses := statuses,
          blocks := blocks, requests := [], updates := [], deadlines := [] }
  pending := []

/-- The loop takes an event when no call is under way, and a call takes the
links of its block in any order. -/
def Enabled (cfg : Config) (p : Process) : Event → Prop
  | .next links =>
    match p.pending with
    | [] => False
    | b :: _ => links.Perm (p.st.newLinks cfg b.1 b.2)
  | _ => p.pending = []

/-- One step; a panic is an error. -/
def step (cfg : Config) (p : Process) : Event → Except String Process
  | .kickStart root tag requestFails =>
    let r := p.st.kickStartRootDownload cfg root tag requestFails
    .ok { st := r.1, pending := r.2 }
  | .deliver id block => .ok { p with pending := [(id, block)] }
  | .deadline root => .ok { p with st := p.st.clearRootDownloadState root }
  | .storage statuses blocks => .ok { p with st := { p.st with statuses := statuses, blocks := blocks } }
  | .next links =>
    match p.pending with
    | [] => .ok p
    | b :: rest => do
      let r ← p.st.processDownloadedBlock cfg b.1 b.2 links
      return { st := r.1, pending := r.2 ++ rest }

end Process

end Mina.Bitswap
