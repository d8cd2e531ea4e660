import VeloCore.Objects.Nixl

open List

structure PrefillTask where
  requestId : Nat
  tokens : List TokenId
  kvPayload : Option (List UInt8)
deriving DecidableEq, Repr

structure DecodeTask where
  requestId : Nat
  kvHandle : KvCacheHandle
  remoteBlock : RemoteBlock
  prefillOrigin : NixlNodeId
deriving DecidableEq, Repr

structure DisaggStats where
  prefillTasksRouted : Nat
  decodeTasksDispatched : Nat
  kvBlocksMigrated : Nat
  kvBytesMigrated : Nat
  migrationFailures : Nat
deriving DecidableEq, Repr

-- `wrapping_add(1)` on a `usize`
def wrappingSucc (cursor : Nat) : Nat :=
  (cursor + 1) % 2 ^ 64

structure DisaggPool (υ : Type) where
  prefillAgents : List CacheTransferAgent
  decodeAgents : List CacheTransferAgent
  fabric : Fabric υ
  prefillCursor : Nat
  decodeCursor : Nat
  stats : DisaggStats

namespace DisaggPool

variable {υ : Type}

def decodeNodeIds (pool : DisaggPool υ) : List NixlNodeId :=
  pool.decodeAgents.map (·.nodeId)

def countOutcome (stats : DisaggStats) (outcome : TransferOutcome) : DisaggStats :=
  match outcome with
  | .sent _ bytes => { stats with
      kvBlocksMigrated := stats.kvBlocksMigrated + 1
      kvBytesMigrated := stats.kvBytesMigrated + bytes }
  | .droppedLocally | .peerFull _ => { stats with migrationFailures := stats.migrationFailures + 1 }

def drainAgent (agent : CacheTransferAgent) : Eff (DisaggPool υ) Empty (List RemoteBlock) := fun pool =>
  (.ok (pool.fabric.drainInbox agent.nodeId).1, { pool with fabric := (pool.fabric.drainInbox agent.nodeId).2 })

-- The blocks of other requests are thrown away.
def drainAgents (requestId : Nat) (prefillNodeId : NixlNodeId) :
    List CacheTransferAgent → Eff (DisaggPool υ) Empty (List DecodeTask)
  | [] => pure []
  | agent :: agents => do
    let blocks ← drainAgent agent
    let rest ← drainAgents requestId prefillNodeId agents
    pure ((blocks.filter (·.handle.blockId = requestId)).map
      (fun block => ⟨requestId, block.handle, block, prefillNodeId⟩) ++ rest)

variable [LinearOrder υ] (o : HashOrder (PeerStatus υ))

-- The handoff of the prefill agent at `i`, with what it leaves of the fabric and of the agent.
def migrate (i : Nat) (task : PrefillTask) : Eff (DisaggPool υ) Empty (NixlNodeId × List TransferOutcome) := fun pool =>
  match pool.prefillAgents[i]? with
  | none => (.error .panic, pool)
  | some agent =>
    match CacheTransferAgent.handoff o (some pool.decodeNodeIds) [⟨task.requestId, task.tokens.length⟩]
        [task.kvPayload.getD []] (pool.fabric, agent) with
    | (.ok outcomes, (fabric, agent'))  =>
      (.ok (agent'.nodeId, outcomes), { pool with fabric, prefillAgents := pool.prefillAgents.set i agent' })
    | (.error e, (fabric, agent')) => (.error e, { pool with fabric, prefillAgents := pool.prefillAgents.set i agent' })

def runPrefill (task : PrefillTask) : Eff (DisaggPool υ) Empty (List DecodeTask) := do
  Eff.modify fun pool => { pool with stats := { pool.stats with prefillTasksRouted := pool.stats.prefillTasksRouted + 1 } }
  let pool ← Eff.get
  let prefillIdx := pool.prefillCursor % pool.prefillAgents.length
  Eff.modify fun pool => { pool with prefillCursor := wrappingSucc pool.prefillCursor }
  let (prefillNodeId, outcomes) ← migrate o prefillIdx task
  Eff.modify fun pool => { pool with stats := outcomes.foldl countOutcome pool.stats }
  let pool ← Eff.get
  drainAgents task.requestId prefillNodeId pool.decodeAgents

omit [LinearOrder υ] in
-- The task is not looked at.
def dispatchDecode (_task : DecodeTask) : Eff (DisaggPool υ) Empty NixlNodeId := do
  Eff.modify fun pool => { pool with stats := { pool.stats with decodeTasksDispatched := pool.stats.decodeTasksDispatched + 1 } }
  let pool ← Eff.get
  let idx := pool.decodeCursor % pool.decodeAgents.length
  Eff.modify fun pool => { pool with decodeCursor := wrappingSucc pool.decodeCursor }
  let agent ← Eff.index pool.decodeAgents idx
  pure agent.nodeId

omit [LinearOrder υ] in
def dispatchAll : List DecodeTask → Eff (DisaggPool υ) Empty (List (DecodeTask × NixlNodeId))
  | [] => pure []
  | task :: tasks => do
    let node ← dispatchDecode task
    let rest ← dispatchAll tasks
    pure ((task, node) :: rest)

def runPipeline (task : PrefillTask) : Eff (DisaggPool υ) Empty (List (DecodeTask × NixlNodeId)) := do
  let decodeTasks ← runPrefill o task
  dispatchAll decodeTasks

end DisaggPool

-- The assertions on the counts
def buildDisaggPool {υ : Type} [Zero υ] (prefillCount decodeCount blockBytes dmaPool capacity : Nat) :
    Except (Fault Empty) (DisaggPool υ) :=
  if 0 < prefillCount ∧ 0 < decodeCount then
    match buildFabric blockBytes dmaPool capacity (prefillCount + decodeCount) .new with
    | (.error e, _)     => .error e
    | (.ok agents, fabric) => .ok {
        prefillAgents := agents.take prefillCount
        decodeAgents := agents.drop prefillCount
        fabric
        prefillCursor := 0
        decodeCursor := 0
        stats := ⟨0, 0, 0, 0, 0⟩ }
  else
    .error .panic
