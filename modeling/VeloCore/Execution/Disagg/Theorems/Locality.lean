import VeloCore.Execution.Disagg.Theorems.Accounting

namespace DisaggPool

variable {υ : Type} [LinearOrder υ] {o : HashOrder (PeerStatus υ)} {pool pool' : DisaggPool υ} {task : PrefillTask}
  {node : NixlNodeId}

-- The migration of the task puts something into the node's inbox.
def Receives (o : HashOrder (PeerStatus υ)) (task : PrefillTask) (pool : DisaggPool υ) (node : NixlNodeId) : Prop :=
  (migrate o (pool.prefillCursor % pool.prefillAgents.length) task pool).2.fabric.inbox node ≠ pool.fabric.inbox node

instance : Decidable (Receives o task pool node) :=
  inferInstanceAs (Decidable (_ ≠ _))

-- A migrated task is assigned to a node that received it.
def Local (o : HashOrder (PeerStatus υ)) (pool : DisaggPool υ) : Call υ → Prop
  | .runPipeline task => ∀ r ∈ ((runPipeline o task pool).1.toOption.getD []), Receives o task pool r.2
  | .heartbeat ..     => True
  | .runPrefill _     => True

instance : (call : Call υ) → Decidable (Local o pool call)
  | .runPipeline task => inferInstanceAs (Decidable (∀ r ∈ ((runPipeline o task pool).1.toOption.getD []), Receives o task pool r.2))
  | .heartbeat ..     => inferInstanceAs (Decidable True)
  | .runPrefill _     => inferInstanceAs (Decidable True)

-- A migrated task is assigned to the node whose turn it is, and was received by the one that was the best peer.
def InTurn (o : HashOrder (PeerStatus υ)) (pool : DisaggPool υ) : Call υ → Prop
  | .runPipeline task => ∃ results pool', runPipeline o task pool = (.ok results, pool') ∧
      results.length = (pool.receiver o task).toList.length ∧ ∀ r ∈ results, pool.turn.map (·.nodeId) = some r.2 ∧
        ∀ node, Receives o task pool node ↔ pool.receiver o task = some node
  | .heartbeat ..     => True
  | .runPrefill _     => True

theorem Settled.receives_iff (h : Settled pool) : Receives o task pool node ↔ pool.receiver o task = some node := by
  have ⟨agent, ha⟩ := h.server
  have ⟨outcome, moved, hmigrate, hm⟩ := migrate_ok (o := o) pool ha task
  have ⟨payload, hin⟩ := hm.inbox
  have hreceiver : pool.receiver o task = outcome.dest := receiver_eq ha hm.dest
  rw [Receives, hmigrate, hreceiver, hin]
  split <;> simp_all

omit [LinearOrder υ] in
theorem Settled.turn_eq (h : Settled pool) : pool.turn = pool.decodeAgents[pool.decodeCursor % pool.decodeAgents.length]? := by
  rw [turn, h.cursor]

theorem Settled.inTurn (o : HashOrder (PeerStatus υ)) (h : Settled pool) (call : Call υ) : pool.InTurn o call := by
  cases call
  case heartbeat  => trivial
  case runPrefill => trivial
  case runPipeline task =>
    have ⟨tasks, pool₁, results, pool', _, hp, hrun, _, hfst, hturn⟩ := runPipeline_ok o h task
    have hsame : pool₁.turn = pool.turn := by
      rw [hp.settled.turn_eq, h.turn_eq, hp.decodeAgents, hp.decodeCursor]
    have hlen : results.length = tasks.length := by
      rw [← hfst, List.length_map]
    exact ⟨results, pool', hrun, hlen.trans hp.length, fun r hr => ⟨hsame ▸ hturn r hr, fun _ => h.receives_iff⟩⟩

theorem dispatched_inTurn [Zero υ] (o : HashOrder (PeerStatus υ))
    (h : buildDisaggPool prefillCount decodeCount blockBytes dmaPool capacity = .ok pool) (calls : List (Call υ)) :
    Steps.Along (next o) (InTurn o) pool calls :=
  (Steps.Always.of_step (Settled.of_build h) fun _ call hs => hs.next o call).along fun _ call hs => hs.inTurn o call

theorem dispatched_inTurn_two : ∃ pool : DisaggPool Nat, buildDisaggPool 1 2 1 1 10 = .ok pool ∧
    Steps.Along (next ⟨id, .refl⟩) (InTurn ⟨id, .refl⟩) pool [.runPipeline ⟨7, [1], none⟩, .runPipeline ⟨8, [1], none⟩] :=
  ⟨_, rfl, dispatched_inTurn ⟨id, .refl⟩ (show buildDisaggPool 1 2 1 1 10 = .ok _ from rfl) _⟩

-- The best peer stays the same while the turn goes on.
theorem exists_not_local : ∃ pool : DisaggPool Nat, buildDisaggPool 1 2 1 1 10 = .ok pool ∧
    ¬Steps.Along (next ⟨id, .refl⟩) (Local ⟨id, .refl⟩) pool [.runPipeline ⟨7, [1], none⟩, .runPipeline ⟨8, [1], none⟩] := by
  refine ⟨_, rfl, ?_⟩
  decide +kernel

end DisaggPool
