import VeloCore.Objects.Nixl

open List

-- A call of `handoff` that is under way: the arguments that are left, the outcomes so far, and the peer of the next
-- block once it is chosen.
structure Handoff where
  handles : List KvCacheHandle
  payloads : List (List UInt8)
  targets : Option (List NixlNodeId)
  outcomes : List TransferOutcome
  peer : Option NixlNodeId
deriving DecidableEq

-- An agent whose inbox is not open yet is still in `new`. A panic ends the thread of the agent.
inductive AgentPhase
  | opening
  | idle
  | handing (handoff : Handoff)
  | panicked
deriving DecidableEq

structure AgentState where
  agent : CacheTransferAgent
  phase : AgentPhase

namespace AgentState

def nodeId (a : AgentState) : NixlNodeId :=
  a.agent.nodeId

end AgentState

-- What an observer of the fabric sees: the capacities that nodes announce, the blocks that are reported to be sent, and
-- those that a node takes out of its inbox.
inductive FabricEvent
  | advertised (id : NixlNodeId) (freeTokens : Nat)
  | sent (peer : NixlNodeId) (handle : KvCacheHandle) (origin : NixlNodeId)
  | drained (id : NixlNodeId) (block : RemoteBlock)
deriving DecidableEq

-- The agents over one registry and one map of inboxes. Nobody reads the history.
structure NixlSystem (υ : Type) where
  fabric : Fabric υ
  agents : List AgentState
  history : List FabricEvent

namespace NixlSystem

variable {υ : Type}

def start : NixlSystem υ where
  fabric := .new
  agents := []
  history := []

def setAgent (s : NixlSystem υ) (i : Nat) (a : AgentState) : NixlSystem υ :=
  { s with agents := s.agents.set i a }

-- The events of an outcome.
def reported (handle : KvCacheHandle) (origin : NixlNodeId) (outcome : TransferOutcome) : List FabricEvent :=
  match outcome with
  | .sent peer _ => [.sent peer handle origin]
  | .droppedLocally | .peerFull _ => []

-- The next critical section of the agent at `i`, with what the agent does before the one after it. The registry and
-- the inboxes are locked one after the other, and not at the same time.
def advance [LinearOrder υ] (o : HashOrder (PeerStatus υ)) (i : Nat) (s : NixlSystem υ) : NixlSystem υ :=
  match s.agents[i]? with
  | none | some ⟨_, .idle⟩ | some ⟨_, .panicked⟩ => s
  | some ⟨agent, .opening⟩ => { s with fabric := s.fabric.openInbox agent.nodeId }.setAgent i ⟨agent, .idle⟩
  | some ⟨agent, .handing h⟩ =>
    match h.handles with
    | [] => s.setAgent i ⟨agent, .idle⟩
    | handle :: handles =>
      match h.peer with
      | none =>
        match s.fabric.registry.bestPeer o agent.nodeId handle.tokenLen h.targets with
        | none => s.setAgent i ⟨agent.dropLocally, .handing { h with
            handles
            payloads := h.payloads.tail
            outcomes := h.outcomes ++ [.droppedLocally] }⟩
        | some peer => s.setAgent i ⟨agent, .handing { h with peer := some peer.nodeId }⟩
      | some peer =>
        match CacheTransferAgent.deliver peer handle (h.payloads.headD []) (s.fabric, agent) with
        | (.error _, (fabric, agent')) => { s with fabric }.setAgent i ⟨agent', .panicked⟩
        | (.ok outcome, (fabric, agent')) =>
          { s with fabric, history := s.history ++ reported handle agent.nodeId outcome }.setAgent i ⟨agent', .handing { h with
            handles
            payloads := h.payloads.tail
            outcomes := h.outcomes ++ [outcome]
            peer := none }⟩

-- What can happen. A call needs the agent for itself.
inductive Action (υ : Type)
  | join (blockBytes dmaPoolSize capacityTokens : Nat)
  | heartbeat (id : NixlNodeId) (utilisation : υ) (freeTokens : Nat)
  | handoff (i : Nat) (handles : List KvCacheHandle) (payloads : List (List UInt8)) (targets : Option (List NixlNodeId))
  | drain (i : Nat)
  | advance (i : Nat)

def join [Zero υ] (blockBytes dmaPoolSize capacityTokens : Nat) (s : NixlSystem υ) : NixlSystem υ :=
  match NodeRegistry.register capacityTokens s.fabric.registry with
  | (.error _, _) => s
  | (.ok nodeId, registry) => { s with
      fabric := { s.fabric with registry }
      agents := s.agents ++ [⟨⟨nodeId, .new blockBytes dmaPoolSize, ⟨0, 0, 0, 0⟩⟩, .opening⟩]
      history := s.history ++ [.advertised nodeId capacityTokens] }

-- The heartbeat of a node that is not registered is ignored.
def heartbeat (id : NixlNodeId) (utilisation : υ) (freeTokens : Nat) (s : NixlSystem υ) : NixlSystem υ :=
  { s with
    fabric := { s.fabric with registry := s.fabric.registry.heartbeat id utilisation freeTokens }
    history := if id < s.fabric.registry.nextId then s.history ++ [.advertised id freeTokens] else s.history }

def handoff (i : Nat) (handles : List KvCacheHandle) (payloads : List (List UInt8)) (targets : Option (List NixlNodeId))
    (s : NixlSystem υ) : NixlSystem υ :=
  match s.agents[i]? with
  | some ⟨agent, .idle⟩ => s.setAgent i ⟨agent, .handing ⟨handles, payloads, targets, [], none⟩⟩
  | _ => s

def drain (i : Nat) (s : NixlSystem υ) : NixlSystem υ :=
  match s.agents[i]? with
  | some ⟨agent, .idle⟩ =>
    let (blocks, fabric) := s.fabric.drainInbox agent.nodeId
    { s with fabric, history := s.history ++ blocks.map (.drained agent.nodeId) }
  | _ => s

def next [Zero υ] [LinearOrder υ] (o : HashOrder (PeerStatus υ)) (s : NixlSystem υ) : Action υ → NixlSystem υ
  | .join blockBytes dmaPoolSize capacityTokens    => s.join blockBytes dmaPoolSize capacityTokens
  | .heartbeat id utilisation freeTokens           => s.heartbeat id utilisation freeTokens
  | .handoff i handles payloads targets            => s.handoff i handles payloads targets
  | .drain i                                       => s.drain i
  | .advance i                                     => s.advance o i

end NixlSystem
