import VeloCore.Execution.Disagg.Basic
import VeloCore.Objects.Theorems.Nixl
import VeloCore.Primitives.Steps

open List

theorem NodeRegistry.bestPeer_mem_targets {υ : Type} [LinearOrder υ] {o : HashOrder (PeerStatus υ)} {r : NodeRegistry υ}
    {peer : PeerStatus υ} (h : r.bestPeer o exclude needed (some targets) = some peer) : peer.nodeId ∈ targets := by
  have haccepts := (mem_filter.mp (argmin_mem h)).right
  simpa [accepts] using (Bool.and_eq_true_iff.mp haccepts).right

namespace DisaggPool

variable {υ : Type} {pool : DisaggPool υ} {requestId : Nat} {prefillNodeId : NixlNodeId} {p : NixlNodeId} {block : RemoteBlock}

-- Of the fabric only the inboxes change, and of the pool nothing else but the state of its prefill agents.
structure Kept (pool pool' : DisaggPool υ) : Prop where
  registry     : pool'.fabric.registry = pool.fabric.registry
  length       : pool'.prefillAgents.length = pool.prefillAgents.length
  decodeAgents : pool'.decodeAgents = pool.decodeAgents
  decodeCursor : pool'.decodeCursor = pool.decodeCursor
  stats        : pool'.stats = pool.stats

section Drain

structure Drained (pool : DisaggPool υ) (inbox : NixlNodeId → List RemoteBlock) (pool' : DisaggPool υ) : Prop where
  kept  : Kept pool pool'
  inbox : ∀ q, pool'.fabric.inbox q = inbox q

theorem Kept.of_drainInbox {id : NixlNodeId} (h : Kept { pool with fabric := (pool.fabric.drainInbox id).2 } pool') :
    Kept pool pool' :=
  { h with registry := h.registry.trans Fabric.drainInbox_registry }

theorem drainAgents_cons {a : CacheTransferAgent} {agents : List CacheTransferAgent} {rest : List DecodeTask}
    {pool' : DisaggPool υ} (h : drainAgents requestId prefillNodeId agents
      { pool with fabric := (pool.fabric.drainInbox a.nodeId).2 } = (.ok rest, pool')) :
    drainAgents requestId prefillNodeId (a :: agents) pool =
      (.ok (((pool.fabric.inbox a.nodeId).filter (·.handle.blockId = requestId)).map
        (fun block => ⟨requestId, block.handle, block, prefillNodeId⟩) ++ rest), pool') := by
  have hdrain : drainAgent a pool =
      (.ok (pool.fabric.drainInbox a.nodeId).1, { pool with fabric := (pool.fabric.drainInbox a.nodeId).2 }) := rfl
  rw [drainAgents, Eff.bind_ok hdrain, Eff.bind_ok h, Fabric.drainInbox_fst]
  rfl

-- An inbox that is empty is drained to no effect.
theorem inbox_drainInbox {id : NixlNodeId} (h : pool.fabric.inbox id = []) (q : NixlNodeId) :
    (pool.fabric.drainInbox id).2.inbox q = pool.fabric.inbox q := by
  rw [Fabric.drainInbox_inbox]
  split
  case isTrue heq => rw [heq, h]
  case isFalse    => rfl

theorem drainAgents_empty (pool : DisaggPool υ) (requestId : Nat) (prefillNodeId : NixlNodeId)
    (agents : List CacheTransferAgent) (h : ∀ a ∈ agents, pool.fabric.inbox a.nodeId = []) :
    ∃ pool', drainAgents requestId prefillNodeId agents pool = (.ok [], pool') ∧ Drained pool pool.fabric.inbox pool' := by
  induction agents generalizing pool
  case nil => exact ⟨pool, rfl, ⟨rfl, rfl, rfl, rfl, rfl⟩, fun _ => rfl⟩
  case cons a agents hi =>
    have hnil := h a mem_cons_self
    have hsame := inbox_drainInbox hnil
    have ⟨pool', hdrain, hd⟩ := hi { pool with fabric := (pool.fabric.drainInbox a.nodeId).2 } fun b hb =>
      (hsame _).trans (h b (mem_cons_of_mem _ hb))
    refine ⟨pool', ?_, hd.kept.of_drainInbox, fun q => (hd.inbox q).trans (hsame q)⟩
    rw [drainAgents_cons hdrain, hnil]
    rfl

-- The only block is found in whichever inbox it is.
theorem drainAgents_one (pool : DisaggPool υ) (prefillNodeId : NixlNodeId) (agents : List CacheTransferAgent)
    (hp : p ∈ agents.map (·.nodeId)) (hblock : pool.fabric.inbox p = [block]) (hid : block.handle.blockId = requestId)
    (h : ∀ a ∈ agents, a.nodeId ≠ p → pool.fabric.inbox a.nodeId = []) :
    ∃ pool', drainAgents requestId prefillNodeId agents pool =
        (.ok [⟨requestId, block.handle, block, prefillNodeId⟩], pool') ∧
      Drained pool (fun q => if q = p then [] else pool.fabric.inbox q) pool' := by
  induction agents generalizing pool
  case nil => simp at hp
  case cons a agents hi =>
    by_cases heq : a.nodeId = p
    case pos =>
      have hempty : ∀ b ∈ agents, (pool.fabric.drainInbox a.nodeId).2.inbox b.nodeId = [] := by
        intro b hb
        rw [Fabric.drainInbox_inbox]
        split
        case isTrue      => rfl
        case isFalse hne => exact h b (mem_cons_of_mem _ hb) (heq ▸ hne)
      have ⟨pool', hdrain, hd⟩ := drainAgents_empty { pool with fabric := (pool.fabric.drainInbox a.nodeId).2 }
        requestId prefillNodeId agents hempty
      refine ⟨pool', ?_, hd.kept.of_drainInbox, fun q => (hd.inbox q).trans (heq ▸ Fabric.drainInbox_inbox)⟩
      rw [drainAgents_cons hdrain, heq, hblock]
      simp [hid]
    case neg =>
      have hnil := h a mem_cons_self heq
      have hsame := inbox_drainInbox hnil
      have hmem : p ∈ agents.map (·.nodeId) := (mem_cons.mp hp).resolve_left (Ne.symm heq)
      have ⟨pool', hdrain, hd⟩ := hi { pool with fabric := (pool.fabric.drainInbox a.nodeId).2 } hmem
        ((hsame p).trans hblock) fun b hb hne => (hsame _).trans (h b (mem_cons_of_mem _ hb) hne)
      refine ⟨pool', ?_, hd.kept.of_drainInbox, fun q => ?_⟩
      case refine_1 => rw [drainAgents_cons hdrain, hnil]; rfl
      case refine_2 =>
        rw [hd.inbox]
        dsimp only
        rw [hsame]

end Drain

-- The prefill agent whose turn it is.
def server (pool : DisaggPool υ) : Option CacheTransferAgent :=
  pool.prefillAgents[pool.prefillCursor % pool.prefillAgents.length]?

-- There are agents, nothing is left in their inboxes, and the counters agree with each other.
structure Settled (pool : DisaggPool υ) : Prop where
  prefill_pos : 0 < pool.prefillAgents.length
  decode_pos  : 0 < pool.decodeAgents.length
  inboxes     : ∀ agent ∈ pool.decodeAgents, pool.fabric.inbox agent.nodeId = []
  routed      : pool.stats.prefillTasksRouted = pool.stats.kvBlocksMigrated + pool.stats.migrationFailures
  cursor      : pool.decodeCursor = pool.stats.decodeTasksDispatched % 2 ^ 64

theorem Settled.server (h : Settled pool) : ∃ agent, pool.server = some agent :=
  ⟨_, List.getElem?_eq_getElem (Nat.mod_lt _ h.prefill_pos)⟩

variable [LinearOrder υ] {o : HashOrder (PeerStatus υ)}

-- The handoff of the block of a task to the decode nodes.
def handoffOf (o : HashOrder (PeerStatus υ)) (task : PrefillTask) (agent : CacheTransferAgent) (pool : DisaggPool υ) :
    Except (Fault Empty) (List TransferOutcome) × Fabric υ × CacheTransferAgent :=
  CacheTransferAgent.handoff o (some pool.decodeNodeIds) [⟨task.requestId, task.tokens.length⟩] [task.kvPayload.getD []]
    (pool.fabric, agent)

-- The task is routed. If the handoff of the agent whose turn it is brings its block to a decode node, then there is one
-- task with this block, under the id of the request, and otherwise none.
structure Answered (o : HashOrder (PeerStatus υ)) (pool : DisaggPool υ) (task : PrefillTask) (tasks : List DecodeTask)
    (pool' : DisaggPool υ) : Prop where
  routed : pool'.stats.prefillTasksRouted = pool.stats.prefillTasksRouted + 1
  answer : ∃ agent outcome after, pool.server = some agent ∧ pool.handoffOf o task agent = (.ok [outcome], after) ∧
    ((outcome.dest = none ∧ tasks = [] ∧ pool'.stats.kvBlocksMigrated = pool.stats.kvBlocksMigrated ∧
        pool'.stats.migrationFailures = pool.stats.migrationFailures + 1) ∨
      ∃ node block, outcome.dest = some node ∧ node ∈ pool.decodeNodeIds ∧ after.1.inbox node = [block] ∧
        tasks = [⟨task.requestId, ⟨task.requestId, task.tokens.length⟩, block, agent.nodeId⟩] ∧
        block.handle = ⟨task.requestId, task.tokens.length⟩ ∧ block.origin = agent.nodeId ∧
        pool'.stats.kvBlocksMigrated = pool.stats.kvBlocksMigrated + 1 ∧
        pool'.stats.migrationFailures = pool.stats.migrationFailures)

-- The decode node that the block of a task goes to.
def receiver (o : HashOrder (PeerStatus υ)) (task : PrefillTask) (pool : DisaggPool υ) : Option NixlNodeId := do
  let agent ← pool.server
  let peer ← pool.fabric.registry.bestPeer o agent.nodeId task.tokens.length (some pool.decodeNodeIds)
  pure peer.nodeId

theorem receiver_eq {agent : CacheTransferAgent} {outcome : TransferOutcome} (ha : pool.server = some agent)
    (hdest : outcome.dest =
      (pool.fabric.registry.bestPeer o agent.nodeId task.tokens.length (some pool.decodeNodeIds)).map (·.nodeId)) :
    pool.receiver o task = outcome.dest := by
  rw [receiver, ha, hdest]
  exact (Option.map_eq_bind ..).symm

-- What a migration does to a pool.
structure Migrated (o : HashOrder (PeerStatus υ)) (task : PrefillTask) (agent : CacheTransferAgent) (pool : DisaggPool υ)
    (outcome : TransferOutcome) (pool' : DisaggPool υ) : Prop where
  kept    : Kept pool pool'
  handoff : ∃ agent', pool.handoffOf o task agent = (.ok [outcome], (pool'.fabric, agent'))
  dest    : outcome.dest =
    (pool.fabric.registry.bestPeer o agent.nodeId task.tokens.length (some pool.decodeNodeIds)).map (·.nodeId)
  inbox   : ∃ payload, ∀ q, pool'.fabric.inbox q = pool.fabric.inbox q ++
    (if outcome.dest = some q then [⟨⟨task.requestId, task.tokens.length⟩, agent.nodeId, payload⟩] else [])

theorem migrate_ok (pool : DisaggPool υ) {agent : CacheTransferAgent} (ha : pool.prefillAgents[i]? = some agent)
    (task : PrefillTask) : ∃ outcome pool', migrate o i task pool = (.ok (agent.nodeId, [outcome]), pool') ∧
      Migrated o task agent pool outcome pool' := by
  have ⟨outcome, fabric, agent', h, hsame, hreg, hdest, hin⟩ := CacheTransferAgent.handoffOne_ok o (some pool.decodeNodeIds)
    pool.fabric agent ⟨task.requestId, task.tokens.length⟩ (task.kvPayload.getD [])
  have hhandoff : pool.handoffOf o task agent = (.ok [outcome], (fabric, agent')) := by
    rw [handoffOf, CacheTransferAgent.handoff, headD_cons, Eff.bind_ok h]
    rfl
  refine ⟨outcome, { pool with fabric, prefillAgents := pool.prefillAgents.set i agent' }, ?_,
    ⟨hreg, by simp, rfl, rfl, rfl⟩, ⟨agent', hhandoff⟩, hdest, _, hin⟩
  rw [handoffOf] at hhandoff
  simp only [migrate, ha, hhandoff, hsame.nodeId]

-- What a prefill does to a pool in order.
structure Prefilled (o : HashOrder (PeerStatus υ)) (task : PrefillTask) (pool : DisaggPool υ) (tasks : List DecodeTask)
    (pool' : DisaggPool υ) : Prop where
  settled      : Settled pool'
  answered     : Answered o pool task tasks pool'
  length       : tasks.length = (pool.receiver o task).toList.length
  decodeAgents : pool'.decodeAgents = pool.decodeAgents
  decodeCursor : pool'.decodeCursor = pool.decodeCursor

omit [LinearOrder υ] in
-- One more task is routed, and either migrated or not.
theorem Settled.routes {pool' : DisaggPool υ} (h : Settled pool)
    (hlen : pool'.prefillAgents.length = pool.prefillAgents.length)
    (hdecode : pool'.decodeAgents = pool.decodeAgents) (hcursor : pool'.decodeCursor = pool.decodeCursor)
    (hin : ∀ a ∈ pool.decodeAgents, pool'.fabric.inbox a.nodeId = [])
    (hrouted : pool'.stats.prefillTasksRouted = pool.stats.prefillTasksRouted + 1)
    (hsum : pool'.stats.kvBlocksMigrated + pool'.stats.migrationFailures =
      pool.stats.kvBlocksMigrated + pool.stats.migrationFailures + 1)
    (hdispatched : pool'.stats.decodeTasksDispatched = pool.stats.decodeTasksDispatched) : Settled pool' where
  prefill_pos := hlen.symm ▸ h.prefill_pos
  decode_pos  := hdecode.symm ▸ h.decode_pos
  inboxes a ha := hin a (hdecode ▸ ha)
  routed      := by rw [hrouted, hsum, h.routed]
  cursor      := by rw [hcursor, hdispatched, h.cursor]

theorem runPrefill_ok (o : HashOrder (PeerStatus υ)) (h : Settled pool) (task : PrefillTask) :
    ∃ tasks pool', runPrefill o task pool = (.ok tasks, pool') ∧ Prefilled o task pool tasks pool' := by
  obtain ⟨agent, ha⟩ := h.server
  -- The pool that the migration starts from.
  let begun : DisaggPool υ := { pool with
    prefillCursor := wrappingSucc pool.prefillCursor
    stats := { pool.stats with prefillTasksRouted := pool.stats.prefillTasksRouted + 1 } }
  obtain ⟨outcome, moved, hmigrate, hm⟩ := migrate_ok (o := o) begun ha task
  obtain ⟨payload, hin⟩ := hm.inbox
  obtain ⟨agent', hhandoff⟩ := hm.handoff
  let counted : DisaggPool υ := { moved with stats := countOutcome moved.stats outcome }
  have hrun : runPrefill o task pool = drainAgents task.requestId agent.nodeId counted.decodeAgents counted := by
    unfold runPrefill
    change (migrate o (pool.prefillCursor % pool.prefillAgents.length) task >>= _) begun = _
    rw [Eff.bind_ok hmigrate]
    rfl
  have hreceiver : pool.receiver o task = outcome.dest := receiver_eq ha hm.dest
  have hdecode : moved.decodeAgents = pool.decodeAgents := hm.kept.decodeAgents
  have hstats : moved.stats = begun.stats := hm.kept.stats
  cases hdest : outcome.dest
  case none =>
    have hsame (q) : moved.fabric.inbox q = pool.fabric.inbox q := by
      rw [hin, hdest]
      simp [begun]
    obtain ⟨pool', hdrain, hd⟩ := drainAgents_empty counted task.requestId agent.nodeId (decodeAgents counted)
      fun a ha => (hsame _).trans (h.inboxes a (hdecode ▸ ha))
    have hcount : counted.stats = { moved.stats with migrationFailures := moved.stats.migrationFailures + 1 } := by
      cases outcome
      case sent => simp [TransferOutcome.dest] at hdest
      all_goals rfl
    have hfinal : pool'.stats = _ := hd.kept.stats.trans hcount
    rw [hstats] at hfinal
    have hsettled : Settled pool' := h.routes (hd.kept.length.trans hm.kept.length)
      (hd.kept.decodeAgents.trans hdecode) (hd.kept.decodeCursor.trans hm.kept.decodeCursor)
      (fun a ha => (hd.inbox _).trans ((hsame _).trans (h.inboxes a ha)))
      (by rw [hfinal]) (by rw [hfinal]; rfl) (by rw [hfinal])
    have hanswered : Answered o pool task [] pool' :=
      ⟨by rw [hfinal], agent, outcome, _, ha, hhandoff, .inl ⟨hdest, rfl, by rw [hfinal], by rw [hfinal]⟩⟩
    exact ⟨[], pool', hrun.trans hdrain, hsettled, hanswered, by rw [hreceiver, hdest]; rfl,
      hd.kept.decodeAgents.trans hdecode, hd.kept.decodeCursor.trans hm.kept.decodeCursor⟩
  case some p =>
    -- The block is the only one in the inbox of a decode agent.
    have hp : p ∈ pool.decodeNodeIds := by
      have hmap := hm.dest.symm.trans hdest
      obtain ⟨peer, hbest, hid⟩ := Option.map_eq_some_iff.mp hmap
      exact hid ▸ NodeRegistry.bestPeer_mem_targets hbest
    obtain ⟨a₀, ha₀, hid₀⟩ := mem_map.mp hp
    have hnil : pool.fabric.inbox p = [] := hid₀ ▸ h.inboxes a₀ ha₀
    have hblock : moved.fabric.inbox p = [⟨⟨task.requestId, task.tokens.length⟩, agent.nodeId, payload⟩] := by
      rw [hin, hdest, if_pos rfl]
      exact congrArg (· ++ _) hnil
    have hothers (q) (hq : q ≠ p) : moved.fabric.inbox q = pool.fabric.inbox q := by
      rw [hin, hdest, if_neg (by simpa using Ne.symm hq), append_nil]
    obtain ⟨pool', hdrain, hd⟩ := drainAgents_one counted agent.nodeId (decodeAgents counted) (hdecode.symm ▸ hp)
      hblock rfl fun a ha hne => (hothers _ hne).trans (h.inboxes a (hdecode ▸ ha))
    have hcount : ∃ bytes, counted.stats = { moved.stats with
        kvBlocksMigrated := moved.stats.kvBlocksMigrated + 1
        kvBytesMigrated := moved.stats.kvBytesMigrated + bytes } := by
      cases outcome
      case sent _ bytes => exact ⟨bytes, rfl⟩
      all_goals simp [TransferOutcome.dest] at hdest
    obtain ⟨bytes, hcount⟩ := hcount
    have hfinal : pool'.stats = _ := hd.kept.stats.trans hcount
    rw [hstats] at hfinal
    have hempty (a) (ha : a ∈ pool.decodeAgents) : pool'.fabric.inbox a.nodeId = [] := by
      rw [hd.inbox]
      split
      case isTrue      => rfl
      case isFalse hne => exact (hothers _ hne).trans (h.inboxes a ha)
    have hsettled : Settled pool' := h.routes (hd.kept.length.trans hm.kept.length)
      (hd.kept.decodeAgents.trans hdecode) (hd.kept.decodeCursor.trans hm.kept.decodeCursor) hempty
      (by rw [hfinal]) (by rw [hfinal]; simp only [begun]; omega) (by rw [hfinal])
    have hanswered : Answered o pool task _ pool' := ⟨by rw [hfinal], agent, outcome, _, ha, hhandoff,
      .inr ⟨p, _, hdest, hp, hblock, rfl, rfl, rfl, by rw [hfinal], by rw [hfinal]⟩⟩
    exact ⟨_, pool', hrun.trans hdrain, hsettled, hanswered,
      by rw [hreceiver, hdest]; rfl, hd.kept.decodeAgents.trans hdecode, hd.kept.decodeCursor.trans hm.kept.decodeCursor⟩

section Pipeline

omit [LinearOrder υ]

-- The decode agent whose turn it is, by the number of tasks that were dispatched before.
def turn (pool : DisaggPool υ) : Option CacheTransferAgent :=
  pool.decodeAgents[pool.stats.decodeTasksDispatched % 2 ^ 64 % pool.decodeAgents.length]?

theorem dispatchDecode_ok (h : Settled pool) (task : DecodeTask) : ∃ agent pool', pool.turn = some agent ∧
    dispatchDecode task pool = (.ok agent.nodeId, pool') ∧ Settled pool' := by
  have ⟨agent, ha⟩ : ∃ agent, pool.turn = some agent := ⟨_, List.getElem?_eq_getElem (Nat.mod_lt _ h.decode_pos)⟩
  have hindex : pool.decodeAgents[pool.decodeCursor % pool.decodeAgents.length]? = some agent := h.cursor ▸ ha
  refine ⟨agent, { pool with
    decodeCursor := wrappingSucc pool.decodeCursor
    stats := { pool.stats with decodeTasksDispatched := pool.stats.decodeTasksDispatched + 1 } }, ha, ?_, ?_⟩
  case refine_1 =>
    unfold dispatchDecode
    change (Eff.index pool.decodeAgents (pool.decodeCursor % pool.decodeAgents.length) >>= _) _ = _
    rw [Eff.bind_apply, Eff.index, hindex]
    rfl
  case refine_2 =>
    refine { h with cursor := ?_ }
    dsimp only
    rw [wrappingSucc, h.cursor, Nat.mod_add_mod]

-- A migrated block is dispatched to the agent whose turn it is.
theorem dispatchAll_ok (h : Settled pool) {tasks : List DecodeTask} (hlen : tasks.length ≤ 1) :
    ∃ results pool', dispatchAll tasks pool = (.ok results, pool') ∧ Settled pool' ∧ results.map (·.1) = tasks ∧
      ∀ r ∈ results, pool.turn.map (·.nodeId) = some r.2 := by
  cases tasks
  case nil => exact ⟨[], pool, rfl, h, rfl, by simp⟩
  case cons task rest =>
    have hrest : rest = [] := length_eq_zero_iff.mp (by simpa using hlen)
    subst hrest
    have ⟨agent, pool', hturn, hdispatch, hsettled⟩ := dispatchDecode_ok h task
    refine ⟨[(task, agent.nodeId)], pool', ?_, hsettled, rfl, by simp [hturn]⟩
    rw [dispatchAll, Eff.bind_ok hdispatch]
    rfl

end Pipeline

-- What happens to a pool.
inductive Call (υ : Type)
  | heartbeat (id : NixlNodeId) (utilisation : υ) (freeTokens : Nat)
  | runPrefill (task : PrefillTask)
  | runPipeline (task : PrefillTask)

def next (o : HashOrder (PeerStatus υ)) (pool : DisaggPool υ) : Call υ → DisaggPool υ
  | .heartbeat id utilisation freeTokens => { pool with
      fabric := { pool.fabric with registry := pool.fabric.registry.heartbeat id utilisation freeTokens } }
  | .runPrefill task                     => (runPrefill o task pool).2
  | .runPipeline task                    => (runPipeline o task pool).2

theorem runPipeline_ok (o : HashOrder (PeerStatus υ)) (h : Settled pool) (task : PrefillTask) :
    ∃ tasks pool₁ results pool', runPrefill o task pool = (.ok tasks, pool₁) ∧ Prefilled o task pool tasks pool₁ ∧
      runPipeline o task pool = (.ok results, pool') ∧ Settled pool' ∧ results.map (·.1) = tasks ∧
      ∀ r ∈ results, pool₁.turn.map (·.nodeId) = some r.2 := by
  have ⟨tasks, pool₁, hrun, hp⟩ := runPrefill_ok o h task
  have hlen : tasks.length ≤ 1 := by
    rw [hp.length]
    cases pool.receiver o task <;> simp
  have ⟨results, pool', hdispatch, hsettled, hfst, hturn⟩ := dispatchAll_ok hp.settled hlen
  exact ⟨tasks, pool₁, results, pool', hrun, hp, (Eff.bind_ok hrun).trans hdispatch, hsettled, hfst, hturn⟩

theorem Settled.next (o : HashOrder (PeerStatus υ)) (h : Settled pool) (call : Call υ) :
    Settled (pool.next o call) := by
  cases call
  case heartbeat => exact { h with inboxes := h.inboxes }
  case runPrefill task =>
    have ⟨tasks, pool', hrun, hp⟩ := runPrefill_ok o h task
    rw [DisaggPool.next, hrun]
    exact hp.settled
  case runPipeline task =>
    have ⟨_, _, _, pool', _, _, hrun, hsettled, _⟩ := runPipeline_ok o h task
    rw [DisaggPool.next, hrun]
    exact hsettled

omit [LinearOrder υ] in
theorem Settled.of_build [Zero υ] (h : buildDisaggPool prefillCount decodeCount blockBytes dmaPool capacity = .ok pool) :
    Settled pool := by
  unfold buildDisaggPool at h
  split at h
  case isFalse => contradiction
  case isTrue hpos =>
    split at h
    case h_1 => contradiction
    case h_2 agents fabric hbuild =>
      have ⟨hlen, hinbox⟩ := CacheTransferAgent.buildFabric_ok hbuild
      cases h
      exact {
        prefill_pos := by simp only [length_take]; omega
        decode_pos  := by simp only [length_drop]; omega
        inboxes _ _ := hinbox _
        routed      := rfl
        cursor      := rfl }

-- Every task that was routed is migrated or failed, and no block is left over.
structure Accounted (pool : DisaggPool υ) : Prop where
  routed  : pool.stats.prefillTasksRouted = pool.stats.kvBlocksMigrated + pool.stats.migrationFailures
  inboxes : ∀ agent ∈ pool.decodeAgents, pool.fabric.inbox agent.nodeId = []

-- A prefill returns and answers its task.
def Answers (o : HashOrder (PeerStatus υ)) (pool : DisaggPool υ) : Call υ → Prop
  | .runPrefill task => ∃ tasks pool', runPrefill o task pool = (.ok tasks, pool') ∧ Answered o pool task tasks pool'
  | .heartbeat ..    => True
  | .runPipeline _   => True

theorem Settled.answers (o : HashOrder (PeerStatus υ)) (h : Settled pool) (call : Call υ) :
    pool.Answers o call := by
  cases call
  case heartbeat   => trivial
  case runPipeline => trivial
  case runPrefill task =>
    have ⟨tasks, pool', hrun, hp⟩ := runPrefill_ok o h task
    exact ⟨tasks, pool', hrun, hp.answered⟩

theorem accounted [Zero υ] (o : HashOrder (PeerStatus υ))
    (h : buildDisaggPool prefillCount decodeCount blockBytes dmaPool capacity = .ok pool) (calls : List (Call υ)) :
    Steps.Always (next o) Accounted pool calls ∧ Steps.Along (next o) (Answers o) pool calls := by
  have hsettled : Steps.Always (next o) Settled pool calls := .of_step (.of_build h) fun _ call hs => hs.next o call
  exact ⟨hsettled.mono fun _ hs => ⟨hs.routed, hs.inboxes⟩, hsettled.along fun _ call hs => hs.answers o call⟩

-- A task is migrated; another one has no room on the decode node any more.
theorem accounted_two : ∃ pool : DisaggPool Nat, buildDisaggPool 1 1 4 1 10 = .ok pool ∧
    let calls : List (Call Nat) := [.runPrefill ⟨7, [1, 2], none⟩, .heartbeat 1 5 1, .runPrefill ⟨7, [3, 4], none⟩]
    Steps.Always (next ⟨id, .refl⟩) Accounted pool calls ∧ Steps.Along (next ⟨id, .refl⟩) (Answers ⟨id, .refl⟩) pool calls :=
  ⟨_, rfl, accounted ⟨id, .refl⟩ (show buildDisaggPool 1 1 4 1 10 = .ok _ from rfl) _⟩

end DisaggPool
