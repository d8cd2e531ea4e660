import VeloCore.Execution.Fabric.Basic
import VeloCore.Objects.Theorems.Nixl

open List

namespace NixlSystem

variable {υ : Type} {s : NixlSystem υ} {i : Nat} {a a' : AgentState}

-- An agent may be replaced by another state of itself.
theorem map_nodeId_set (h : s.agents[i]? = some a) (hid : a'.nodeId = a.nodeId) :
    (s.agents.set i a').map (·.nodeId) = s.agents.map (·.nodeId) := by
  have ⟨hlt, hget⟩ := List.getElem?_eq_some_iff.mp h
  refine List.ext_getElem (by simp) fun j hj _ => ?_
  rw [getElem_map, getElem_map, getElem_set]
  split
  case isTrue hij => subst hij; rw [hid, hget]
  case isFalse    => rfl

variable [LinearOrder υ] (o : HashOrder (PeerStatus υ))

-- What an agent can do between two critical sections.
inductive Advance (o : HashOrder (PeerStatus υ)) (i : Nat) (s : NixlSystem υ) : NixlSystem υ → Prop
  | stay : Advance o i s s
  | openInbox (agent : CacheTransferAgent) (ha : s.agents[i]? = some ⟨agent, .opening⟩) :
    Advance o i s ({ s with fabric := s.fabric.openInbox agent.nodeId }.setAgent i ⟨agent, .idle⟩)
  | finish (agent : CacheTransferAgent) (h : Handoff) (ha : s.agents[i]? = some ⟨agent, .handing h⟩) (hh : h.handles = []) :
    Advance o i s (s.setAgent i ⟨agent, .idle⟩)
  | drop (agent : CacheTransferAgent) (h h' : Handoff) (ha : s.agents[i]? = some ⟨agent, .handing h⟩) (hp : h.peer = none)
    (hp' : h'.peer = none) : Advance o i s (s.setAgent i ⟨agent.dropLocally, .handing h'⟩)
  | pick (agent : CacheTransferAgent) (h : Handoff) (handle : KvCacheHandle) (handles : List KvCacheHandle) (peer : PeerStatus υ)
    (ha : s.agents[i]? = some ⟨agent, .handing h⟩) (hh : h.handles = handle :: handles) (hp : h.peer = none)
    (hbest : s.fabric.registry.bestPeer o agent.nodeId handle.tokenLen h.targets = some peer) :
    Advance o i s (s.setAgent i ⟨agent, .handing { h with peer := some peer.nodeId }⟩)
  | sent (agent agent' : CacheTransferAgent) (h h' : Handoff) (handle : KvCacheHandle) (handles : List KvCacheHandle) (p : NixlNodeId)
    (payload : List UInt8) (ha : s.agents[i]? = some ⟨agent, .handing h⟩) (hh : h.handles = handle :: handles)
    (hp : h.peer = some p) (hp' : h'.peer = none) (hsame : CacheTransferAgent.Same agent agent') :
    Advance o i s ({ s with
      fabric := s.fabric.push p ⟨handle, agent.nodeId, payload⟩
      history := s.history ++ [FabricEvent.sent p handle agent.nodeId] }.setAgent i ⟨agent', .handing h'⟩)

theorem advance_cases (i : Nat) (s : NixlSystem υ) : Advance o i s (s.advance o i) := by
  unfold advance
  split
  case h_1 => exact .stay
  case h_2 => exact .stay
  case h_3 => exact .stay
  case h_4 agent ha => exact .openInbox agent ha
  case h_5 agent h ha =>
    split
    case h_1 hh => exact .finish agent h ha hh
    case h_2 handle handles hh =>
      split
      case h_1 hp =>
        split
        case h_1            => exact .drop agent h _ ha hp hp
        case h_2 peer hbest => exact .pick agent h handle handles peer ha hh hp hbest
      case h_2 p hp =>
        have ⟨bytes, agent', hdeliver, hsame⟩ := CacheTransferAgent.deliver_ok s.fabric agent p handle (h.payloads.headD [])
        rw [hdeliver]
        exact .sent agent agent' h ⟨handles, _, h.targets, _, none⟩ handle handles p _ ha hh hp rfl hsame

end NixlSystem
