import VeloCore.Objects.Handle
import VeloCore.Primitives.Bytes
import VeloCore.Primitives.Eff
import VeloCore.Primitives.Finmap

open List

def wireHeaderLen : Nat := 16

-- The lengths are narrowed by `as u32`.
def serializeBlock (handle : KvCacheHandle) (payload : List UInt8) : List UInt8 :=
  leBytes 8 handle.blockId ++ leBytes 4 handle.tokenLen ++ leBytes 4 payload.length ++ payload

def deserializeBlock (buf : List UInt8) : Option (KvCacheHandle × List UInt8) :=
  if buf.length < wireHeaderLen then
    none
  else
    let blockId := ofLeBytes (buf.take 8)
    let tokenLen := ofLeBytes ((buf.drop 8).take 4)
    let byteLen := ofLeBytes ((buf.drop 12).take 4)
    if buf.length < wireHeaderLen + byteLen then
      none
    else
      some (⟨blockId, tokenLen⟩, (buf.drop wireHeaderLen).take byteLen)

section Wire

variable {handle : KvCacheHandle} {payload : List UInt8}

theorem serializeBlock_length : (serializeBlock handle payload).length = wireHeaderLen + payload.length := by
  simp [serializeBlock, wireHeaderLen]
  omega

theorem drop_serializeBlock : (serializeBlock handle payload).drop wireHeaderLen = payload := by
  rw [serializeBlock]
  exact drop_left' (by simp [wireHeaderLen])

-- What is serialized is never malformed, but its lengths are those that 32 bits hold.
theorem deserializeBlock_serializeBlock : deserializeBlock (serializeBlock handle payload) =
    some (⟨handle.blockId % 2 ^ 64, handle.tokenLen % 2 ^ 32⟩, payload.take (payload.length % 2 ^ 32)) := by
  have hbyte : ((serializeBlock handle payload).drop 12).take 4 = leBytes 4 payload.length := by
    have hlen : (leBytes 8 handle.blockId ++ leBytes 4 handle.tokenLen).length = 12 := by simp
    rw [serializeBlock, append_assoc, drop_left' hlen]
    exact take_left' leBytes_length
  have htoken : ((serializeBlock handle payload).drop 8).take 4 = leBytes 4 handle.tokenLen := by
    rw [serializeBlock, append_assoc, append_assoc, drop_left' leBytes_length]
    exact take_left' leBytes_length
  have hblock : (serializeBlock handle payload).take 8 = leBytes 8 handle.blockId := by
    rw [serializeBlock, append_assoc, append_assoc]
    exact take_left' leBytes_length
  have hle : payload.length % 256 ^ 4 ≤ payload.length := Nat.mod_le ..
  simp only [deserializeBlock, serializeBlock_length, drop_serializeBlock, hbyte, htoken, hblock, ofLeBytes_leBytes]
  rw [if_neg (by omega), if_neg (by omega)]
  norm_num

end Wire

structure DmaStats where
  regionsAllocated : Nat
  blocksSerialized : Nat
  blocksDeserialized : Nat
  bytesTransferred : Nat
deriving DecidableEq, Repr

-- The free regions are a stack with its top at the end.
structure DmaBlockManager where
  blockBytes : Nat
  freePool : List Nat
  regions : List (List UInt8)
  stats : DmaStats
  free_lt : ∀ idx ∈ freePool, idx < regions.length
  region_length : ∀ region ∈ regions, region.length = blockBytes

namespace DmaBlockManager

def new (blockBytes poolSize : Nat) : DmaBlockManager where
  blockBytes
  freePool := range poolSize
  regions := replicate poolSize (replicate blockBytes 0)
  stats := ⟨poolSize, 0, 0, 0⟩
  free_lt := by simp
  region_length := by simp

def acquire : Eff DmaBlockManager Empty Nat := fun m =>
  match h : m.freePool.getLast? with
  | none =>
    (.ok m.regions.length, { m with
      regions := m.regions ++ [replicate m.blockBytes 0]
      stats := { m.stats with regionsAllocated := m.stats.regionsAllocated + 1 }
      free_lt := by simp [getLast?_eq_none_iff.mp h]
      region_length := by simpa [or_imp, forall_and] using m.region_length })
  | some idx =>
    (.ok idx, { m with
      freePool := m.freePool.dropLast
      free_lt := fun i hi => m.free_lt i (mem_of_mem_dropLast hi) })

-- The assertion is the one of a debug build.
def release (idx : Nat) : Eff DmaBlockManager Empty Unit := fun m =>
  if h : idx < m.regions.length then
    (.ok (), { m with
      freePool := m.freePool ++ [idx]
      free_lt := by simpa [or_imp, forall_and] using ⟨m.free_lt, h⟩ })
  else
    (.error .panic, m)

-- A payload that does not fit the region is cut off.
def writeAndSerialize (idx : Nat) (handle : KvCacheHandle) (payload : List UInt8) : Eff DmaBlockManager Empty (List UInt8) := fun m =>
  match h : m.regions[idx]? with
  | none => (.error .panic, m)
  | some old =>
    let copyLen := min payload.length m.blockBytes
    let region := payload.take copyLen ++ replicate (old.length - copyLen) 0
    (.ok (serializeBlock handle (region.take copyLen)), { m with
      regions := m.regions.set idx region
      stats := { m.stats with
        blocksSerialized := m.stats.blocksSerialized + 1
        bytesTransferred := m.stats.bytesTransferred + payload.length }
      free_lt := by simpa using m.free_lt
      region_length := fun r hr => by
        rcases mem_or_eq_of_mem_set hr with hr | rfl
        case inl => exact m.region_length r hr
        case inr =>
          have hold := m.region_length old (mem_of_getElem? h)
          simp only [region, copyLen, length_append, length_take, length_replicate, hold]
          omega })

def receiveInto (idx : Nat) (wire : List UInt8) : Eff DmaBlockManager Empty (Option (KvCacheHandle × Nat)) := fun m =>
  match deserializeBlock wire with
  | none => (.ok none, m)
  | some (handle, payload) =>
    match h : m.regions[idx]? with
    | none => (.error .panic, m)
    | some old =>
      let copyLen := min payload.length m.blockBytes
      let region := payload.take copyLen ++ old.drop copyLen
      (.ok (some (handle, copyLen)), { m with
        regions := m.regions.set idx region
        stats := { m.stats with
          blocksDeserialized := m.stats.blocksDeserialized + 1
          bytesTransferred := m.stats.bytesTransferred + copyLen }
        free_lt := by simpa using m.free_lt
        region_length := fun r hr => by
          rcases mem_or_eq_of_mem_set hr with hr | rfl
          case inl => exact m.region_length r hr
          case inr =>
            have hold := m.region_length old (mem_of_getElem? h)
            simp only [region, copyLen, length_append, length_take, length_drop, hold]
            omega })

-- What `handoff` does with the regions for one block; both ends are played by the sender.
def transfer (handle : KvCacheHandle) (payload : List UInt8) :
    Eff DmaBlockManager Empty (List UInt8 × Option (KvCacheHandle × Nat)) := do
  let regionIdx ← acquire
  let wire ← writeAndSerialize regionIdx handle payload
  release regionIdx
  let recvRegion ← acquire
  let result ← receiveInto recvRegion wire
  release recvRegion
  pure (wire, result)

end DmaBlockManager

-- The wrapped `u32`.
abbrev NixlNodeId := Nat

-- `utilisation` is an `f32` that is not NaN.
structure PeerStatus (υ : Type) where
  nodeId : NixlNodeId
  utilisation : υ
  freeTokens : Nat
deriving DecidableEq

-- The order in which a `HashMap` lists its values is its own.
structure HashOrder (α : Type) where
  values : List α → List α
  perm : ∀ l, values l ~ l

-- The peers are numbered as they come, and none leaves.
structure NodeRegistry (υ : Type) where
  nextId : Nat
  peers : List (PeerStatus υ)
  ids_eq : peers.map (·.nodeId) = range nextId

namespace NodeRegistry

variable {υ : Type}

def new : NodeRegistry υ where
  nextId := 0
  peers := []
  ids_eq := rfl

-- The number after the last `u32` overflows.
def register [Zero υ] (capacityTokens : Nat) : Eff (NodeRegistry υ) Empty NixlNodeId := fun r =>
  if r.nextId + 1 < 2 ^ 32 then
    (.ok r.nextId, {
      nextId := r.nextId + 1
      peers := r.peers ++ [⟨r.nextId, 0, capacityTokens⟩]
      ids_eq := by rw [map_append, r.ids_eq, range_succ]; rfl })
  else
    (.error .panic, r)

def heartbeat (id : NixlNodeId) (utilisation : υ) (freeTokens : Nat) (r : NodeRegistry υ) : NodeRegistry υ where
  nextId := r.nextId
  peers := r.peers.map fun p => if p.nodeId = id then { p with utilisation, freeTokens } else p
  ids_eq := by
    rw [← r.ids_eq, map_map]
    refine map_congr_left fun p _ => ?_
    simp only [Function.comp_apply]
    split <;> rfl

def peersExcept (o : HashOrder (PeerStatus υ)) (exclude : NixlNodeId) (r : NodeRegistry υ) : List (PeerStatus υ) :=
  (o.values r.peers).filter (·.nodeId ≠ exclude)

-- Whether a peer may get a block of `neededTokens`.
def accepts (neededTokens : Nat) (targets : Option (List NixlNodeId)) (p : PeerStatus υ) : Bool :=
  decide (neededTokens ≤ p.freeTokens) && targets.all (·.contains p.nodeId)

-- `min_by` takes the first of the least loaded peers.
def bestPeer [LinearOrder υ] (o : HashOrder (PeerStatus υ)) (exclude : NixlNodeId) (neededTokens : Nat)
    (targets : Option (List NixlNodeId)) (r : NodeRegistry υ) : Option (PeerStatus υ) :=
  ((r.peersExcept o exclude).filter (accepts neededTokens targets)).argmin (·.utilisation)

end NodeRegistry

structure RemoteBlock where
  handle : KvCacheHandle
  origin : NixlNodeId
  payload : List UInt8
deriving DecidableEq, Repr

inductive TransferOutcome
  | sent (peer : NixlNodeId) (bytes : Nat)
  | droppedLocally
  | peerFull (peer : NixlNodeId)
deriving DecidableEq, Repr

structure TransferStats where
  blocksSent : Nat
  blocksDropped : Nat
  bytesSent : Nat
  transfersFailed : Nat
deriving DecidableEq, Repr

structure CacheTransferAgent where
  nodeId : NixlNodeId
  dma : DmaBlockManager
  stats : TransferStats

-- What the agents share.
structure Fabric (υ : Type) where
  registry : NodeRegistry υ
  inboxes : Finmap fun _ : NixlNodeId => List RemoteBlock

namespace Fabric

variable {υ : Type} (f : Fabric υ)

def new : Fabric υ where
  registry := .new
  inboxes := ∅

def inbox (id : NixlNodeId) : List RemoteBlock :=
  (f.inboxes.lookup id).getD []

-- `entry(id).or_default()`
def openInbox (id : NixlNodeId) : Fabric υ :=
  { f with inboxes := f.inboxes.insert id (f.inbox id) }

def push (id : NixlNodeId) (block : RemoteBlock) : Fabric υ :=
  { f with inboxes := f.inboxes.insert id (f.inbox id ++ [block]) }

def drainInbox (id : NixlNodeId) : List RemoteBlock × Fabric υ :=
  match f.inboxes.lookup id with
  | none        => ([], f)
  | some blocks => (blocks, { f with inboxes := f.inboxes.insert id [] })

end Fabric

namespace CacheTransferAgent

variable {υ : Type}

def new [Zero υ] (blockBytes dmaPoolSize nodeCapacityTokens : Nat) : Eff (Fabric υ) Empty CacheTransferAgent := do
  let nodeId ← Eff.zoom (·.registry) (fun registry f => { f with registry }) id (NodeRegistry.register nodeCapacityTokens)
  Eff.modify (·.openInbox nodeId)
  pure ⟨nodeId, .new blockBytes dmaPoolSize, ⟨0, 0, 0, 0⟩⟩

-- No peer takes the block.
def dropLocally (agent : CacheTransferAgent) : CacheTransferAgent :=
  { agent with stats := { agent.stats with blocksDropped := agent.stats.blocksDropped + 1 } }

-- The block goes to the peer that was chosen. It keeps the handle it had, whatever the wire made of it.
def deliver (peer : NixlNodeId) (handle : KvCacheHandle) (payload : List UInt8) :
    Eff (Fabric υ × CacheTransferAgent) Empty TransferOutcome := fun (f, agent) =>
  match DmaBlockManager.transfer handle payload agent.dma with
  | (.error e, dma) => (.error e, (f, { agent with dma }))
  | (.ok (_, none), dma) =>
    (.ok (.peerFull peer), (f, { agent with
      dma
      stats := { agent.stats with transfersFailed := agent.stats.transfersFailed + 1 } }))
  | (.ok (wire, some _), dma) =>
    (.ok (.sent peer wire.length), (f.push peer ⟨handle, agent.nodeId, wire.drop wireHeaderLen⟩, { agent with
      dma
      stats := { agent.stats with
        blocksSent := agent.stats.blocksSent + 1
        bytesSent := agent.stats.bytesSent + wire.length } }))

variable [LinearOrder υ] (o : HashOrder (PeerStatus υ)) (targets : Option (List NixlNodeId))

def handoffOne (handle : KvCacheHandle) (payload : List UInt8) : Eff (Fabric υ × CacheTransferAgent) Empty TransferOutcome :=
  fun (f, agent) =>
    match f.registry.bestPeer o agent.nodeId handle.tokenLen targets with
    | none      => (.ok .droppedLocally, (f, agent.dropLocally))
    | some peer => deliver peer.nodeId handle payload (f, agent)

-- `payloads.get(i).unwrap_or(&empty)`
def handoff : List KvCacheHandle → List (List UInt8) → Eff (Fabric υ × CacheTransferAgent) Empty (List TransferOutcome)
  | [], _ => pure []
  | handle :: handles, payloads => do
    let outcome ← handoffOne o targets handle (payloads.headD [])
    let outcomes ← handoff handles payloads.tail
    pure (outcome :: outcomes)

end CacheTransferAgent

def buildFabric {υ : Type} [Zero υ] (blockBytes dmaPool capacityTokens : Nat) : Nat → Eff (Fabric υ) Empty (List CacheTransferAgent)
  | 0 => pure []
  | count + 1 => do
    let agent ← CacheTransferAgent.new blockBytes dmaPool capacityTokens
    let agents ← buildFabric blockBytes dmaPool capacityTokens count
    pure (agent :: agents)
