import VeloCore.Execution.Fabric.Theorems.Step
import VeloCore.Primitives.Steps

open List

-- What a node has announced last, and the tokens that were delivered to it since.
structure Balance where
  freeTokens : Nat
  delivered : Nat
deriving DecidableEq

namespace Balance

def step (p : NixlNodeId) (b : Balance) : FabricEvent → Balance
  | .advertised id freeTokens => if id = p then ⟨freeTokens, 0⟩ else b
  | .sent peer handle _       => if peer = p then { b with delivered := b.delivered + handle.tokenLen } else b
  | .drained ..               => b

def of (p : NixlNodeId) (history : List FabricEvent) : Balance :=
  history.foldl (step p) ⟨0, 0⟩

theorem of_concat (p : NixlNodeId) (history : List FabricEvent) (e : FabricEvent) :
    of p (history ++ [e]) = step p (of p history) e := by
  rw [of, foldl_concat, of]

theorem of_append_drained (p id : NixlNodeId) (history : List FabricEvent) (blocks : List RemoteBlock) :
    of p (history ++ blocks.map (.drained id)) = of p history := by
  induction blocks generalizing history
  case nil => simp
  case cons block blocks hi => rw [map_cons, append_cons, hi, of_concat, step]

end Balance

namespace AgentState

-- The tokens that are on their way to `p`.
def inFlight (p : NixlNodeId) (a : AgentState) : Nat :=
  match a.phase with
  | .handing ⟨handle :: _, _, _, _, some peer⟩ => if peer = p then handle.tokenLen else 0
  | _ => 0

theorem inFlight_of_peer (agent : CacheTransferAgent) {h : Handoff} (hp : h.peer = none) (p : NixlNodeId) :
    inFlight p ⟨agent, .handing h⟩ = 0 := by
  cases h
  subst hp
  rw [inFlight]
  simp

theorem inFlight_cons (agent : CacheTransferAgent) {h : Handoff} (hh : h.handles = handle :: handles)
    (hp : h.peer = some peer) (p : NixlNodeId) : inFlight p ⟨agent, .handing h⟩ = if peer = p then handle.tokenLen else 0 := by
  cases h
  subst hh hp
  rfl

theorem inFlight_nil (agent : CacheTransferAgent) {h : Handoff} (hh : h.handles = []) (p : NixlNodeId) :
    inFlight p ⟨agent, .handing h⟩ = 0 := by
  cases h
  subst hh
  rw [inFlight]

-- Nothing comes from an agent that has just been made.
theorem inFlight_concat (agents : List AgentState) (agent : CacheTransferAgent) (p : NixlNodeId) :
    ((agents ++ [(⟨agent, .opening⟩ : AgentState)]).map (inFlight p)).sum = (agents.map (inFlight p)).sum := by
  simp [inFlight]

end AgentState

theorem NodeRegistry.bestPeer_lt {υ : Type} [LinearOrder υ] {o : HashOrder (PeerStatus υ)} {r : NodeRegistry υ}
    {peer : PeerStatus υ}
    (h : r.bestPeer o exclude needed targets = some peer) : peer.nodeId < r.nextId := by
  have hmem := mem_of_mem_filter (mem_of_mem_filter (argmin_mem h))
  have hid : peer.nodeId ∈ r.peers.map (·.nodeId) := mem_map_of_mem ((o.perm _).mem_iff.mp hmem)
  exact mem_range.mp (r.ids_eq ▸ hid)

theorem sum_map_set {α : Type} {l : List α} {i : Nat} {a a' : α} (f : α → Nat) (h : l[i]? = some a) :
    ((l.set i a').map f).sum + f a = (l.map f).sum + f a' := by
  induction l generalizing i
  case nil => simp at h
  case cons b l hi =>
    cases i
    case zero =>
      rw [getElem?_cons_zero, Option.some.injEq] at h
      simp only [h, set_cons_zero, map_cons, sum_cons]
      omega
    case succ i =>
      have := hi h
      simp only [set_cons_succ, map_cons, sum_cons]
      omega

namespace NixlSystem

variable {υ : Type} {s : NixlSystem υ} {p : NixlNodeId} {i : Nat} {a a' : AgentState}

def inFlight (p : NixlNodeId) (s : NixlSystem υ) : Nat :=
  (s.agents.map (·.inFlight p)).sum

-- No node has got more than it announced.
def Respected (s : NixlSystem υ) : Prop :=
  ∀ p, (Balance.of p s.history).delivered ≤ (Balance.of p s.history).freeTokens

-- The peer that the agent at `i` is about to choose, and the tokens for it.
def picks [LinearOrder υ] (o : HashOrder (PeerStatus υ)) (i : Nat) (s : NixlSystem υ) : Option (NixlNodeId × Nat) :=
  match s.agents[i]? with
  | some ⟨agent, .handing ⟨handle :: _, _, targets, _, none⟩⟩ =>
    (s.fabric.registry.bestPeer o agent.nodeId handle.tokenLen targets).map fun peer => (peer.nodeId, handle.tokenLen)
  | _ => none

-- A peer is chosen only if it has room for the block besides what it has got and what is on its way, and a node does
-- not announce less than is on its way to it.
def Room [LinearOrder υ] (o : HashOrder (PeerStatus υ)) (s : NixlSystem υ) : Action υ → Prop
  | .advance i => ∀ pick ∈ s.picks o i, (Balance.of pick.1 s.history).delivered + s.inFlight pick.1 + pick.2 ≤
    (Balance.of pick.1 s.history).freeTokens
  | .heartbeat id _ freeTokens => s.inFlight id ≤ freeTokens
  | _ => True

instance [LinearOrder υ] (o : HashOrder (PeerStatus υ)) : DecidableRel (Room o)
  | s, .advance i         => inferInstanceAs (Decidable (∀ pick ∈ s.picks o i, _))
  | _, .heartbeat ..      => inferInstanceAs (Decidable (_ ≤ _))
  | _, .join ..           => inferInstanceAs (Decidable True)
  | _, .handoff ..        => inferInstanceAs (Decidable True)
  | _, .drain _           => inferInstanceAs (Decidable True)

-- What is on its way fits as well, and is on its way to nodes that are registered.
structure Balanced (s : NixlSystem υ) : Prop where
  le    : ∀ p, (Balance.of p s.history).delivered + s.inFlight p ≤ (Balance.of p s.history).freeTokens
  known : ∀ p, s.fabric.registry.nextId ≤ p → s.inFlight p = 0

theorem inFlight_setAgent (ha : s.agents[i]? = some a) (a' : AgentState) (p : NixlNodeId) :
    (s.setAgent i a').inFlight p + a.inFlight p = s.inFlight p + a'.inFlight p :=
  sum_map_set (AgentState.inFlight p) ha

namespace Balanced

theorem respected (h : Balanced s) : Respected s :=
  fun p => (Nat.le_add_right ..).trans (h.le p)

theorem setAgent (h : Balanced s) (ha : s.agents[i]? = some a) (hsame : ∀ p, a'.inFlight p = a.inFlight p) :
    Balanced (s.setAgent i a') := by
  have hflight (p) : (s.setAgent i a').inFlight p = s.inFlight p := by
    have := inFlight_setAgent ha a' p
    rw [hsame] at this
    omega
  exact ⟨fun p => hflight p ▸ h.le p, fun p hp => (hflight p).trans (h.known p hp)⟩

theorem join [Zero υ] (h : Balanced s) (blockBytes dmaPoolSize capacityTokens : Nat) :
    Balanced (s.join blockBytes dmaPoolSize capacityTokens) := by
  unfold NixlSystem.join NodeRegistry.register
  by_cases hlt : s.fabric.registry.nextId + 1 < 2 ^ 32
  case neg => rwa [if_neg hlt]
  case pos =>
    rw [if_pos hlt]
    refine ⟨fun p => ?_, fun p hp => (AgentState.inFlight_concat ..).trans (h.known p (Nat.le_of_succ_le hp))⟩
    rw [NixlSystem.inFlight, AgentState.inFlight_concat, Balance.of_concat, Balance.step]
    split
    case isTrue heq =>
      have hzero : (s.agents.map (·.inFlight p)).sum = 0 := h.known p heq.le
      simp [hzero]
    case isFalse => exact h.le p

theorem heartbeat (h : Balanced s) (id : NixlNodeId) (utilisation : υ) (freeTokens : Nat) (hroom : s.inFlight id ≤ freeTokens) :
    Balanced (s.heartbeat id utilisation freeTokens) := by
  refine ⟨fun p => ?_, h.known⟩
  have hflight : (s.heartbeat id utilisation freeTokens).inFlight p = s.inFlight p := rfl
  rw [hflight, NixlSystem.heartbeat]
  dsimp only
  split
  case isFalse => exact h.le p
  case isTrue =>
    rw [Balance.of_concat, Balance.step]
    split
    case isTrue heq => simpa [← heq] using hroom
    case isFalse    => exact h.le p

theorem handoff (h : Balanced s) (i : Nat) (handles : List KvCacheHandle) (payloads : List (List UInt8))
    (targets : Option (List NixlNodeId)) : Balanced (s.handoff i handles payloads targets) := by
  unfold NixlSystem.handoff
  split
  case h_1 ha => exact h.setAgent ha fun p => AgentState.inFlight_of_peer _ rfl p
  case h_2    => exact h

theorem drain (h : Balanced s) (i : Nat) : Balanced (s.drain i) := by
  unfold NixlSystem.drain
  split
  case h_2 => exact h
  case h_1 agent ha =>
    refine ⟨fun p => ?_, fun p hp => h.known p (by simpa using hp)⟩
    dsimp only
    rw [Balance.of_append_drained]
    exact h.le p

theorem picks_of_pick [LinearOrder υ] {o : HashOrder (PeerStatus υ)} {agent : CacheTransferAgent} {h : Handoff}
    {peer : PeerStatus υ}
    (ha : s.agents[i]? = some ⟨agent, .handing h⟩) (hh : h.handles = handle :: handles) (hp : h.peer = none)
    (hbest : s.fabric.registry.bestPeer o agent.nodeId handle.tokenLen h.targets = some peer) :
    s.picks o i = some (peer.nodeId, handle.tokenLen) := by
  cases h
  subst hh hp
  simp only [picks, ha, hbest, Option.map_some]

theorem advance [LinearOrder υ] (o : HashOrder (PeerStatus υ)) (h : Balanced s) (i : Nat) (hroom : Room o s (.advance i)) :
    Balanced (s.advance o i) := by
  have hcases := advance_cases o i s
  generalize s.advance o i = s' at hcases
  cases hcases
  case stay => exact h
  case openInbox agent ha =>
    have hopen : Balanced { s with fabric := s.fabric.openInbox agent.nodeId } := ⟨h.le, h.known⟩
    exact hopen.setAgent ha fun _ => rfl
  case finish ha hh   => exact h.setAgent ha fun p => (AgentState.inFlight_nil _ hh p).symm
  case drop ha hp hp' =>
    exact h.setAgent ha fun p => (AgentState.inFlight_of_peer _ hp' p).trans (AgentState.inFlight_of_peer _ hp p).symm
  case pick agent handoff handle handles peer ha hh hp hbest =>
    have hpick := hroom _ (picks_of_pick ha hh hp hbest)
    have hflight (p) : (s.setAgent i ⟨agent, .handing { handoff with peer := some peer.nodeId }⟩).inFlight p =
        s.inFlight p + if peer.nodeId = p then handle.tokenLen else 0 := by
      have hset := inFlight_setAgent ha ⟨agent, .handing { handoff with peer := some peer.nodeId }⟩ p
      rwa [AgentState.inFlight_of_peer _ hp, Nat.add_zero,
        AgentState.inFlight_cons (h := { handoff with peer := some peer.nodeId }) agent hh rfl] at hset
    refine ⟨fun p => ?_, fun p hlt => ?_⟩
    case refine_1 =>
      rw [hflight]
      split
      case isTrue heq => exact heq ▸ (Nat.add_assoc .. ▸ hpick)
      case isFalse    => exact h.le p
    case refine_2 =>
      have hne : peer.nodeId ≠ p := ((NodeRegistry.bestPeer_lt hbest).trans_le hlt).ne
      rw [hflight, if_neg hne]
      exact h.known p hlt
  case sent agent agent' handoff handoff' handle handles q payload ha hh hp hp' hsame =>
    -- What was on its way has been delivered.
    have hflight (p) : (({ s with
        fabric := s.fabric.push q ⟨handle, agent.nodeId, payload⟩
        history := s.history ++ [.sent q handle agent.nodeId] } : NixlSystem υ).setAgent i ⟨agent', .handing handoff'⟩).inFlight p +
          (if q = p then handle.tokenLen else 0) = s.inFlight p := by
      have hset := inFlight_setAgent ha ⟨agent', .handing handoff'⟩ p
      rwa [AgentState.inFlight_cons _ hh hp, AgentState.inFlight_of_peer _ hp', Nat.add_zero] at hset
    refine ⟨fun p => ?_, fun p hlt => ?_⟩
    case refine_1 =>
      have hle := h.le p
      have hp := hflight p
      rw [NixlSystem.setAgent] at hp ⊢
      dsimp only at hp ⊢
      rw [Balance.of_concat, Balance.step]
      split
      case isTrue heq =>
        rw [if_pos heq] at hp
        dsimp only
        omega
      case isFalse hne =>
        rw [if_neg hne] at hp
        omega
    case refine_2 =>
      have hp := hflight p
      have hzero := h.known p hlt
      omega

theorem next [Zero υ] [LinearOrder υ] (o : HashOrder (PeerStatus υ)) (h : Balanced s) (action : Action υ) (hroom : Room o s action) :
    Balanced (s.next o action) := by
  cases action
  case join      => exact h.join ..
  case heartbeat => exact h.heartbeat _ _ _ hroom
  case handoff   => exact h.handoff ..
  case drain     => exact h.drain _
  case advance   => exact h.advance o _ hroom

theorem start : Balanced (start : NixlSystem υ) :=
  ⟨fun _ => Nat.le_refl 0, fun _ _ => rfl⟩

end Balanced

-- Where no peer is chosen beyond its room, no node gets more than it announced.
theorem respected_of_room [Zero υ] [LinearOrder υ] (o : HashOrder (PeerStatus υ)) (actions : List (Action υ))
    (h : Steps.Along (next o) (Room o) start actions) : Steps.Always (next o) Respected start actions :=
  (h.always (I := Balanced) .start fun _ a hs hroom => hs.next o a hroom).mono fun _ => Balanced.respected

theorem respected_of_room_two : Steps.Always (next (υ := Nat) ⟨id, .refl⟩) Respected start
    [.join 1 1 10, .advance 0, .join 1 1 10, .advance 1, .handoff 0 [⟨1, 8⟩] [] none, .advance 0, .advance 0,
      .heartbeat 1 5 10, .handoff 0 [⟨2, 8⟩] [] none, .advance 0, .advance 0] :=
  respected_of_room ⟨id, .refl⟩ _ (by decide +kernel)

-- Two blocks of eight tokens go to a node that announced ten.
theorem exists_not_respected : ¬Steps.Always (next (υ := Nat) ⟨id, .refl⟩) Respected start
    [.join 1 1 10, .advance 0, .join 1 1 10, .advance 1, .handoff 0 [⟨1, 8⟩, ⟨2, 8⟩] [] none, .advance 0, .advance 0,
      .advance 0, .advance 0] := by
  intro h
  have hle := h.last 1
  revert hle
  decide +kernel

end NixlSystem
