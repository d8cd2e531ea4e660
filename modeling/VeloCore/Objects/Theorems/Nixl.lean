import VeloCore.Objects.Nixl

open List

namespace DmaBlockManager

variable {m : DmaBlockManager} {handle : KvCacheHandle} {payload wire : List UInt8} {idx : Nat}

theorem acquire_ok (m : DmaBlockManager) :
    ∃ idx m', acquire m = (.ok idx, m') ∧ idx < m'.regions.length ∧ m'.blockBytes = m.blockBytes := by
  unfold acquire
  split
  case h_1       => exact ⟨_, _, rfl, by simp, rfl⟩
  case h_2 idx h => exact ⟨_, _, rfl, m.free_lt idx (mem_of_getLast? h), rfl⟩

theorem release_ok (h : idx < m.regions.length) :
    ∃ m', release idx m = (.ok (), m') ∧ m'.regions = m.regions ∧ m'.blockBytes = m.blockBytes := by
  unfold release
  rw [dif_pos h]
  exact ⟨_, rfl, rfl, rfl⟩

-- The wire has what fits into a region.
theorem writeAndSerialize_ok (h : idx < m.regions.length) (handle : KvCacheHandle) (payload : List UInt8) :
    ∃ m', writeAndSerialize idx handle payload m = (.ok (serializeBlock handle (payload.take m.blockBytes)), m') ∧
      m'.regions.length = m.regions.length ∧ m'.blockBytes = m.blockBytes := by
  unfold writeAndSerialize
  split
  case h_1 hnone => exact absurd (getElem?_eq_none_iff.mp hnone) (Nat.not_le.mpr h)
  case h_2 old _ =>
    have htake : (payload.take (min payload.length m.blockBytes) ++
        replicate (old.length - min payload.length m.blockBytes) 0).take (min payload.length m.blockBytes) =
        payload.take m.blockBytes := by
      rw [take_left' (by simp), min_comm, ← take_take, take_length]
    exact ⟨_, Prod.ext (congrArg (fun wire => Except.ok (serializeBlock handle wire)) htake) rfl, by simp, rfl⟩

theorem receiveInto_ok (h : idx < m.regions.length) (hwire : (deserializeBlock wire).isSome) :
    ∃ received m', receiveInto idx wire m = (.ok (some received), m') ∧ m'.regions.length = m.regions.length ∧
      m'.blockBytes = m.blockBytes := by
  unfold receiveInto
  split
  case h_1 hnone => simp [hnone] at hwire
  case h_2 =>
    split
    case h_1 hnone => exact absurd (getElem?_eq_none_iff.mp hnone) (Nat.not_le.mpr h)
    case h_2 old _ => exact ⟨_, _, rfl, by simp, rfl⟩

-- A transfer never fails, whatever the size of the payload.
theorem transfer_ok (m : DmaBlockManager) (handle : KvCacheHandle) (payload : List UInt8) :
    ∃ received m', transfer handle payload m = (.ok (serializeBlock handle (payload.take m.blockBytes), some received), m') ∧
      m'.blockBytes = m.blockBytes := by
  have ⟨i, m₁, h₁, hi, hb₁⟩ := acquire_ok m
  have ⟨m₂, h₂, hl₂, hb₂⟩ := writeAndSerialize_ok hi handle payload
  have ⟨m₃, h₃, hl₃, hb₃⟩ := release_ok (m := m₂) (hl₂ ▸ hi)
  have ⟨j, m₄, h₄, hj, hb₄⟩ := acquire_ok m₃
  have hwire : (deserializeBlock (serializeBlock handle (payload.take m₁.blockBytes))).isSome := by
    rw [deserializeBlock_serializeBlock]
    rfl
  have ⟨received, m₅, h₅, hl₅, hb₅⟩ := receiveInto_ok hj hwire
  have ⟨m₆, h₆, _, hb₆⟩ := release_ok (m := m₅) (hl₅ ▸ hj)
  refine ⟨received, m₆, ?_, ?_⟩
  case refine_1 =>
    rw [transfer, Eff.bind_ok h₁, Eff.bind_ok h₂, Eff.bind_ok h₃, Eff.bind_ok h₄, Eff.bind_ok h₅, Eff.bind_ok h₆, hb₁]
    rfl
  case refine_2 => rw [hb₆, hb₅, hb₄, hb₃, hb₂, hb₁]

end DmaBlockManager

namespace Fabric

variable {υ : Type} {f : Fabric υ} {p q : NixlNodeId} {block : RemoteBlock}

@[simp]
theorem push_registry : (f.push p block).registry = f.registry :=
  rfl

theorem push_inbox : (f.push p block).inbox q = f.inbox q ++ (if q = p then [block] else []) := by
  rw [inbox, push, Finmap.lookup_insert_eq_ite]
  split
  case isTrue h => simp [h]
  case isFalse  => simp [inbox]

@[simp]
theorem openInbox_registry : (f.openInbox p).registry = f.registry :=
  rfl

@[simp]
theorem openInbox_inbox : (f.openInbox p).inbox q = f.inbox q := by
  rw [inbox, openInbox, Finmap.lookup_insert_eq_ite]
  split
  case isTrue h => rw [h]; rfl
  case isFalse  => rfl

theorem drainInbox_fst : (f.drainInbox p).1 = f.inbox p := by
  rw [drainInbox, inbox]
  split <;> simp_all

@[simp]
theorem drainInbox_registry : (f.drainInbox p).2.registry = f.registry := by
  rw [drainInbox]
  split <;> rfl

theorem drainInbox_inbox : (f.drainInbox p).2.inbox q = if q = p then [] else f.inbox q := by
  rw [drainInbox]
  split
  case h_1 hnone =>
    split
    case isTrue h => rw [inbox, h, hnone]; rfl
    case isFalse  => rfl
  case h_2 =>
    rw [inbox]
    simp only [Finmap.lookup_insert_eq_ite]
    split <;> rfl

end Fabric

namespace TransferOutcome

-- Where the block was reported to have gone.
def dest : TransferOutcome → Option NixlNodeId
  | sent peer _ => some peer
  | droppedLocally | peerFull _ => none

end TransferOutcome

namespace CacheTransferAgent

variable {υ : Type} {f : Fabric υ} {agent : CacheTransferAgent} {handle : KvCacheHandle} {payload : List UInt8}
  {handles : List KvCacheHandle} {payloads : List (List UInt8)} {outcomes : List TransferOutcome} {p : NixlNodeId}

-- Another state of the same agent.
structure Same (agent agent' : CacheTransferAgent) : Prop where
  nodeId     : agent'.nodeId = agent.nodeId
  blockBytes : agent'.dma.blockBytes = agent.dma.blockBytes

theorem deliver_ok (f : Fabric υ) (agent : CacheTransferAgent) (p : NixlNodeId) (handle : KvCacheHandle) (payload : List UInt8) :
    ∃ bytes agent', deliver p handle payload (f, agent) = (.ok (.sent p bytes),
      (f.push p ⟨handle, agent.nodeId, payload.take agent.dma.blockBytes⟩, agent')) ∧ Same agent agent' := by
  have ⟨received, dma, h, hb⟩ := DmaBlockManager.transfer_ok agent.dma handle payload
  simp only [deliver, h, drop_serializeBlock]
  exact ⟨_, _, rfl, rfl, hb⟩

theorem new_ok [Zero υ] (h : CacheTransferAgent.new blockBytes dmaPoolSize capacity f = (.ok agent, f')) (p : NixlNodeId) :
    f'.inbox p = f.inbox p := by
  have ⟨id, f₁, hzoom, hrest⟩ := Eff.bind_eq_ok_iff.mp h
  have ⟨registry, _, hset⟩ := Eff.zoom_eq_ok_iff.mp hzoom
  have ⟨_, f₂, hopen, hpure⟩ := Eff.bind_eq_ok_iff.mp hrest
  cases hopen
  cases hpure
  rw [Fabric.openInbox_inbox, hset]
  rfl

-- A new fabric has the agents asked for, with nothing in their inboxes.
theorem buildFabric_ok [Zero υ] (h : buildFabric blockBytes dmaPool capacity n f = (.ok agents, f')) :
    agents.length = n ∧ ∀ p, f'.inbox p = f.inbox p := by
  induction n generalizing f agents
  case zero =>
    cases h
    exact ⟨rfl, fun _ => rfl⟩
  case succ n hi =>
    have ⟨agent, f₁, hnew, hrest⟩ := Eff.bind_eq_ok_iff.mp h
    have ⟨rest, f₂, hbuild, hpure⟩ := Eff.bind_eq_ok_iff.mp hrest
    cases hpure
    have ⟨hlen, hinbox⟩ := hi hbuild
    exact ⟨congrArg (· + 1) hlen, fun p => (hinbox p).trans (new_ok hnew p)⟩

variable [LinearOrder υ] {o : HashOrder (PeerStatus υ)} {targets : Option (List NixlNodeId)}

theorem handoffOne_of_none (h : f.registry.bestPeer o agent.nodeId handle.tokenLen targets = none) :
    handoffOne o targets handle payload (f, agent) = (.ok .droppedLocally, (f, agent.dropLocally)) := by
  simp [handoffOne, h]

theorem handoffOne_of_some (h : f.registry.bestPeer o agent.nodeId handle.tokenLen targets = some peer) :
    handoffOne o targets handle payload (f, agent) = deliver peer.nodeId handle payload (f, agent) := by
  simp [handoffOne, h]

-- A block is either sent to the best peer or dropped.
theorem handoffOne_ok (o : HashOrder (PeerStatus υ)) (targets : Option (List NixlNodeId)) (f : Fabric υ) (agent : CacheTransferAgent)
    (handle : KvCacheHandle) (payload : List UInt8) :
    ∃ outcome f' agent', handoffOne o targets handle payload (f, agent) = (.ok outcome, (f', agent')) ∧ Same agent agent' ∧
      f'.registry = f.registry ∧
      outcome.dest = (f.registry.bestPeer o agent.nodeId handle.tokenLen targets).map (·.nodeId) ∧
      ∀ p, f'.inbox p = f.inbox p ++
        (if outcome.dest = some p then [⟨handle, agent.nodeId, payload.take agent.dma.blockBytes⟩] else []) := by
  cases hbest : f.registry.bestPeer o agent.nodeId handle.tokenLen targets
  case none => exact ⟨_, _, _, handoffOne_of_none hbest, ⟨rfl, rfl⟩, rfl, rfl, by simp [TransferOutcome.dest]⟩
  case some peer =>
    have ⟨bytes, agent', h, hsame⟩ := deliver_ok f agent peer.nodeId handle payload
    refine ⟨_, _, _, (handoffOne_of_some hbest).trans h, hsame, rfl, rfl, fun p => ?_⟩
    rw [Fabric.push_inbox]
    simp only [TransferOutcome.dest, Option.some.injEq, eq_comm]

-- The blocks that are said to have been sent to `p`, with the payloads given for them.
def shipments (origin p : NixlNodeId) : List KvCacheHandle → List (List UInt8) → List TransferOutcome → List RemoteBlock
  | handle :: handles, payloads, outcome :: outcomes =>
    (if outcome.dest = some p then [⟨handle, origin, payloads.headD []⟩] else []) ++
      shipments origin p handles payloads.tail outcomes
  | _, _, _ => []

-- An inbox gains the blocks that were sent there, in their order, as far as their payloads fit.
theorem handoff_ok (o : HashOrder (PeerStatus υ)) (targets : Option (List NixlNodeId)) (f : Fabric υ) (agent : CacheTransferAgent)
    (handles : List KvCacheHandle) (payloads : List (List UInt8)) :
    ∃ outcomes f' agent', handoff o targets handles payloads (f, agent) = (.ok outcomes, (f', agent')) ∧ Same agent agent' ∧
      f'.registry = f.registry ∧
      outcomes.map (·.dest) = handles.map (fun handle =>
        (f.registry.bestPeer o agent.nodeId handle.tokenLen targets).map (·.nodeId)) ∧
      ∀ p, f'.inbox p = f.inbox p ++ shipments agent.nodeId p handles (payloads.map (·.take agent.dma.blockBytes)) outcomes := by
  induction handles generalizing payloads f agent
  case nil => exact ⟨[], f, agent, rfl, ⟨rfl, rfl⟩, rfl, rfl, by simp [shipments]⟩
  case cons handle handles hi =>
    have ⟨outcome, f₁, agent₁, h₁, hsame₁, hreg₁, hdest₁, hin₁⟩ := handoffOne_ok o targets f agent handle (payloads.headD [])
    have ⟨outcomes, f₂, agent₂, h₂, hsame₂, hreg₂, hdest₂, hin₂⟩ := hi f₁ agent₁ payloads.tail
    refine ⟨outcome :: outcomes, f₂, agent₂, ?_, ⟨?_, ?_⟩, hreg₂.trans hreg₁, ?_, fun p => ?_⟩
    case refine_1 => rw [handoff, Eff.bind_ok h₁, Eff.bind_ok h₂]; rfl
    case refine_2 => exact hsame₂.nodeId.trans hsame₁.nodeId
    case refine_3 => exact hsame₂.blockBytes.trans hsame₁.blockBytes
    case refine_4 => rw [map_cons, map_cons, hdest₁, hdest₂, hreg₁, hsame₁.nodeId]
    case refine_5 =>
      have hhead : (payloads.map (·.take agent.dma.blockBytes)).headD [] = (payloads.headD []).take agent.dma.blockBytes := by
        cases payloads <;> simp
      rw [hin₂, hin₁, append_assoc, shipments, hsame₁.nodeId, hsame₁.blockBytes, hhead, ← map_tail]

-- Whatever is reported to be sent has arrived as it was given.
def Intact (o : HashOrder (PeerStatus υ)) (targets : Option (List NixlNodeId)) (f : Fabric υ) (agent : CacheTransferAgent)
    (handles : List KvCacheHandle) (payloads : List (List UInt8)) : Prop :=
  ∀ outcomes f' agent', handoff o targets handles payloads (f, agent) = (.ok outcomes, (f', agent')) →
    ∀ p, f'.inbox p = f.inbox p ++ shipments agent.nodeId p handles payloads outcomes

omit [LinearOrder υ] in
-- Payloads that were cut off show in the inbox of the peer that got them.
theorem shipments_take_iff (origin : NixlNodeId) (n : Nat) (handles : List KvCacheHandle) (payloads : List (List UInt8))
    (hlen : outcomes.length = handles.length) :
    (∀ p, shipments origin p handles (payloads.map (·.take n)) outcomes = shipments origin p handles payloads outcomes) ↔
      ∀ (i : Nat) outcome payload, outcomes[i]? = some outcome → payloads[i]? = some payload → outcome.dest.isSome →
        payload.length ≤ n := by
  induction handles generalizing payloads outcomes
  case nil =>
    have hnil := length_eq_zero_iff.mp hlen
    exact iff_of_true (fun p => by simp [shipments]) (by simp [hnil])
  case cons handle handles hi =>
    cases outcomes
    case nil => simp at hlen
    case cons outcome outcomes =>
      have hrest := hi payloads.tail (Nat.succ.inj hlen)
      have hhead : (payloads.map (·.take n)).headD [] = (payloads.headD []).take n := by cases payloads <;> simp
      have hsplit : (∀ p, shipments origin p (handle :: handles) (payloads.map (·.take n)) (outcome :: outcomes) =
            shipments origin p (handle :: handles) payloads (outcome :: outcomes)) ↔
          (outcome.dest.isSome → (payloads.headD []).length ≤ n) ∧
            ∀ p, shipments origin p handles (payloads.tail.map (·.take n)) outcomes =
              shipments origin p handles payloads.tail outcomes := by
        simp only [shipments, hhead, map_tail]
        cases hdest : outcome.dest
        case none => simp
        case some q =>
          simp only [Option.some.injEq, Option.isSome_some, forall_const]
          refine ⟨fun h => ⟨?_, fun p => ?_⟩, fun ⟨hle, h⟩ p => by rw [take_of_length_le hle, h]⟩
          case refine_1 =>
            have hq := h q
            simp only [↓reduceIte, singleton_append, cons.injEq, RemoteBlock.mk.injEq, true_and, take_eq_self_iff] at hq
            exact hq.left
          case refine_2 =>
            have hp := h p
            split at hp
            case isTrue  => exact (cons.inj hp).right
            case isFalse => exact hp
      rw [hsplit, hrest]
      refine ⟨fun ⟨h₀, h⟩ i outcome' payload ho hp hsome => ?_, fun h => ⟨fun hsome => ?_, fun i outcome' payload ho hp => ?_⟩⟩
      case refine_1 =>
        cases i
        case zero =>
          cases payloads
          case nil => simp at hp
          case cons =>
            simp only [getElem?_cons_zero, Option.some.injEq] at ho hp
            subst ho hp
            exact h₀ hsome
        case succ i => exact h i outcome' payload ho (by rwa [getElem?_tail]) hsome
      case refine_2 =>
        cases payloads
        case nil  => exact Nat.zero_le _
        case cons => exact h 0 outcome _ rfl rfl hsome
      case refine_3 => exact h (i + 1) outcome' payload ho (by rwa [getElem?_tail] at hp)

-- What arrives is what is reported, with the payloads cut off.
theorem intact_iff_shipments (o : HashOrder (PeerStatus υ)) (targets : Option (List NixlNodeId)) (f : Fabric υ)
    (agent : CacheTransferAgent) (handles : List KvCacheHandle) (payloads : List (List UInt8)) : ∃ outcomes : List TransferOutcome,
      (outcomes.map (·.dest) = handles.map fun handle =>
        (f.registry.bestPeer o agent.nodeId handle.tokenLen targets).map (·.nodeId)) ∧
      (Intact o targets f agent handles payloads ↔
        ∀ p, shipments agent.nodeId p handles (payloads.map (·.take agent.dma.blockBytes)) outcomes =
          shipments agent.nodeId p handles payloads outcomes) := by
  have ⟨outcomes, f', agent', h, _, _, hdest, hin⟩ := handoff_ok o targets f agent handles payloads
  refine ⟨outcomes, hdest, fun hi p => ?_, fun hall outcomes₁ f₁ agent₁ h₁ p => ?_⟩
  case refine_1 => exact append_cancel_left ((hin p).symm.trans (hi _ _ _ h p))
  case refine_2 =>
    cases h.symm.trans h₁
    rw [hin, hall]

theorem le_of_intact {o : HashOrder (PeerStatus υ)} {targets : Option (List NixlNodeId)} {f : Fabric υ}
    {agent : CacheTransferAgent} {handles : List KvCacheHandle} {payloads : List (List UInt8)}
    (h : Intact o targets f agent handles payloads) (i : Nat) (handle : KvCacheHandle) (payload : List UInt8)
    (hh : handles[i]? = some handle) (hp : payloads[i]? = some payload)
    (hsome : (f.registry.bestPeer o agent.nodeId handle.tokenLen targets).isSome) : payload.length ≤ agent.dma.blockBytes := by
  have ⟨outcomes, hdest, hintact⟩ := intact_iff_shipments o targets f agent handles payloads
  have hlen : outcomes.length = handles.length := by simpa using congrArg length hdest
  have hi := congrArg (·[i]?) hdest
  simp only [getElem?_map, hh, Option.map_some] at hi
  have ⟨outcome, ho, hd⟩ := Option.map_eq_some_iff.mp hi
  exact (shipments_take_iff _ _ _ _ hlen).mp (hintact.mp h) i outcome payload ho hp (by rw [hd]; simpa using hsome)

-- A handoff delivers what it reports just when the payloads of all blocks for which there is a peer fit into a region.
theorem intact_iff (o : HashOrder (PeerStatus υ)) (targets : Option (List NixlNodeId)) (f : Fabric υ) (agent : CacheTransferAgent)
    (handles : List KvCacheHandle) (payloads : List (List UInt8)) : Intact o targets f agent handles payloads ↔
      ∀ (i : Nat) handle payload, handles[i]? = some handle → payloads[i]? = some payload →
        (f.registry.bestPeer o agent.nodeId handle.tokenLen targets).isSome → payload.length ≤ agent.dma.blockBytes := by
  refine ⟨le_of_intact, fun hall => ?_⟩
  have ⟨outcomes, hdest, hintact⟩ := intact_iff_shipments o targets f agent handles payloads
  have hlen : outcomes.length = handles.length := by simpa using congrArg length hdest
  refine hintact.mpr ((shipments_take_iff _ _ _ _ hlen).mpr fun i outcome payload ho hp hsome => ?_)
  have hi := (congrArg (·[i]?) hdest).symm
  simp only [getElem?_map, ho, Option.map_some] at hi
  have ⟨handle, hh, hd⟩ := Option.map_eq_some_iff.mp hi
  exact hall i handle payload hh hp (by rw [← hd] at hsome; simpa using hsome)

-- Two bytes do not fit into a region of one: the second agent gets half of what the first one reports to have sent.
theorem exists_not_intact : ∃ (agents : List CacheTransferAgent) (f : Fabric Nat), buildFabric 1 1 10 2 .new = (.ok agents, f) ∧
    ∃ agent ∈ agents, ¬Intact ⟨id, .refl⟩ none f agent [⟨7, 4⟩] [[1, 2]] := by
  refine ⟨_, _, rfl, _, mem_cons_self, fun h => ?_⟩
  have hle := le_of_intact h 0 _ _ rfl rfl (by decide +kernel)
  exact absurd hle (by decide +kernel)

end CacheTransferAgent
