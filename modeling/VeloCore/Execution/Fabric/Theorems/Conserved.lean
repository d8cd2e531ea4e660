import VeloCore.Execution.Fabric.Theorems.Step
import VeloCore.Primitives.Steps

open List

namespace RemoteBlock

def key (block : RemoteBlock) : KvCacheHandle × NixlNodeId :=
  (block.handle, block.origin)

end RemoteBlock

namespace FabricEvent

-- The block of a report that something was sent to `p`.
def sentTo (p : NixlNodeId) : FabricEvent → Option (KvCacheHandle × NixlNodeId)
  | sent peer handle origin => if peer = p then some (handle, origin) else none
  | _ => none

def drainedBy (p : NixlNodeId) : FabricEvent → Option (KvCacheHandle × NixlNodeId)
  | drained id block => if id = p then some block.key else none
  | _ => none

theorem filterMap_drainedBy_map_drained (id p : NixlNodeId) (blocks : List RemoteBlock) :
    (blocks.map (drained id)).filterMap (drainedBy p) = if id = p then blocks.map RemoteBlock.key else [] := by
  induction blocks
  case nil => simp
  case cons block blocks hi =>
    rw [map_cons, filterMap_cons, hi]
    by_cases h : id = p <;> simp [drainedBy, h]

theorem filterMap_sentTo_map_drained (id p : NixlNodeId) (blocks : List RemoteBlock) :
    (blocks.map (drained id)).filterMap (sentTo p) = [] := by
  simp [filterMap_eq_nil_iff, sentTo]

theorem filterMap_concat_advertised (history : List FabricEvent) (id p : NixlNodeId) (freeTokens : Nat) :
    (history ++ [advertised id freeTokens]).filterMap (drainedBy p) = history.filterMap (drainedBy p) ∧
      (history ++ [advertised id freeTokens]).filterMap (sentTo p) = history.filterMap (sentTo p) := by
  simp [drainedBy, sentTo]

end FabricEvent

namespace NixlSystem

variable {υ : Type} {s : NixlSystem υ}

-- What a node has drained and what its inbox holds is what was reported to be sent to it, in that order, and no two
-- agents are the same node.
structure Conserved (s : NixlSystem υ) : Prop where
  nodup : (s.agents.map (·.nodeId)).Nodup
  fifo  : ∀ p, s.history.filterMap (·.drainedBy p) ++ (s.fabric.inbox p).map (·.key) = s.history.filterMap (·.sentTo p)

-- The agents are known to the registry.
structure Consistent (s : NixlSystem υ) : Prop extends Conserved s where
  registered : ∀ a ∈ s.agents, a.nodeId < s.fabric.registry.nextId

namespace Consistent

-- Nothing but the state of an agent changes.
theorem setAgent (h : Consistent s) {a a' : AgentState} (ha : s.agents[i]? = some a) (hid : a'.nodeId = a.nodeId) :
    Consistent (s.setAgent i a') where
  nodup := (map_nodeId_set ha hid).symm ▸ h.nodup
  fifo  := h.fifo
  registered b hb := by
    rcases mem_or_eq_of_mem_set hb with hb | rfl
    case inl => exact h.registered b hb
    case inr => exact hid ▸ h.registered a (mem_of_getElem? ha)

theorem join [Zero υ] (h : Consistent s) (blockBytes dmaPoolSize capacityTokens : Nat) :
    Consistent (s.join blockBytes dmaPoolSize capacityTokens) := by
  unfold NixlSystem.join NodeRegistry.register
  by_cases hlt : s.fabric.registry.nextId + 1 < 2 ^ 32
  case neg => rwa [if_neg hlt]
  case pos =>
    rw [if_pos hlt]
    refine ⟨⟨?_, fun p => ?_⟩, fun a ha => ?_⟩
    case refine_1 =>
      rw [map_append, map_singleton, nodup_append]
      refine ⟨h.nodup, nodup_singleton _, fun id hid id' hid' heq => ?_⟩
      have ⟨a, ha, he⟩ := mem_map.mp hid
      have hnew : id' = s.fabric.registry.nextId := mem_singleton.mp hid'
      exact absurd (h.registered a ha) (by rw [he, heq, hnew]; exact Nat.lt_irrefl _)
    case refine_2 =>
      have ⟨hd, hs⟩ := FabricEvent.filterMap_concat_advertised s.history s.fabric.registry.nextId p capacityTokens
      dsimp only
      rw [hd, hs]
      exact h.fifo p
    case refine_3 =>
      rcases mem_append.mp ha with ha | ha
      case inl => exact Nat.lt_succ_of_lt (h.registered a ha)
      case inr => rw [mem_singleton.mp ha]; exact Nat.lt_succ_self _

theorem heartbeat (h : Consistent s) (id : NixlNodeId) (utilisation : υ) (freeTokens : Nat) :
    Consistent (s.heartbeat id utilisation freeTokens) where
  nodup := h.nodup
  fifo p := by
    rw [NixlSystem.heartbeat]
    dsimp only
    split
    case isTrue =>
      have ⟨hd, hs⟩ := FabricEvent.filterMap_concat_advertised s.history id p freeTokens
      rw [hd, hs]
      exact h.fifo p
    case isFalse => exact h.fifo p
  registered := h.registered

theorem handoff (h : Consistent s) (i : Nat) (handles : List KvCacheHandle) (payloads : List (List UInt8))
    (targets : Option (List NixlNodeId)) : Consistent (s.handoff i handles payloads targets) := by
  unfold NixlSystem.handoff
  split
  case h_1 ha => exact h.setAgent ha rfl
  case h_2    => exact h

-- What is drained leaves the inbox.
theorem drain (h : Consistent s) (i : Nat) : Consistent (s.drain i) := by
  unfold NixlSystem.drain
  split
  case h_2 => exact h
  case h_1 agent ha =>
    refine ⟨⟨h.nodup, fun p => ?_⟩, by simpa using h.registered⟩
    dsimp only
    rw [filterMap_append, filterMap_append, FabricEvent.filterMap_drainedBy_map_drained, FabricEvent.filterMap_sentTo_map_drained,
      append_nil, ← h.fifo p, Fabric.drainInbox_inbox, Fabric.drainInbox_fst]
    by_cases hp : p = agent.nodeId
    case pos => simp [hp]
    case neg => simp [hp, Ne.symm hp]

theorem advance [LinearOrder υ] (o : HashOrder (PeerStatus υ)) (h : Consistent s) (i : Nat) : Consistent (s.advance o i) := by
  have hcases := advance_cases o i s
  generalize s.advance o i = s' at hcases
  cases hcases
  case stay => exact h
  case openInbox agent ha =>
    have hopen : Consistent { s with fabric := s.fabric.openInbox agent.nodeId } :=
      ⟨⟨h.nodup, fun p => by simpa using h.fifo p⟩, h.registered⟩
    exact hopen.setAgent ha rfl
  case finish ha _       => exact h.setAgent ha rfl
  case drop ha _ _       => exact h.setAgent ha rfl
  case pick ha _ _ _     => exact h.setAgent ha rfl
  case sent agent agent' _ _ handle _ p payload ha _ _ _ hsame =>
    have hsent : Consistent { s with
        fabric := s.fabric.push p ⟨handle, agent.nodeId, payload⟩
        history := s.history ++ [.sent p handle agent.nodeId] } := by
      refine ⟨⟨h.nodup, fun q => ?_⟩, h.registered⟩
      dsimp only
      rw [filterMap_append, filterMap_append, Fabric.push_inbox, map_append, ← h.fifo q]
      by_cases hq : q = p
      case pos => simp [FabricEvent.drainedBy, FabricEvent.sentTo, RemoteBlock.key, hq]
      case neg => simp [FabricEvent.drainedBy, FabricEvent.sentTo, hq, Ne.symm hq]
    exact hsent.setAgent ha hsame.nodeId

theorem next [Zero υ] [LinearOrder υ] (o : HashOrder (PeerStatus υ)) (h : Consistent s) (a : Action υ) : Consistent (s.next o a) := by
  cases a
  case join      => exact h.join ..
  case heartbeat => exact h.heartbeat ..
  case handoff   => exact h.handoff ..
  case drain     => exact h.drain _
  case advance   => exact h.advance o _

theorem start : Consistent (start : NixlSystem υ) where
  nodup      := nodup_nil
  fifo       := by simp [NixlSystem.start, Fabric.new, Fabric.inbox]
  registered := by simp [NixlSystem.start]

end Consistent

-- In every interleaving each block that is reported to be sent arrives once, at the peer of the report, and in order.
theorem conserved [Zero υ] [LinearOrder υ] (o : HashOrder (PeerStatus υ)) (actions : List (Action υ)) :
    Steps.Always (next o) Conserved start actions :=
  (Steps.Always.of_step (I := Consistent) .start fun _ a h => h.next o a).mono fun _ h => h.toConserved

end NixlSystem
