import Mathlib
import VeloCore.Execution.Scheduler.Theorems.Switch

open List

namespace VeloScheduler

variable {R μ δ τ : Type} {s s₁ s₂ s₃ t : VeloScheduler R μ δ τ} {i j : Nat}

-- The clients whose requests the worker was sent, in the order of their calls.
def arrivals (s : VeloScheduler R μ δ τ) : List Nat :=
  s.clients.findIdxs (·.queued)

-- The clients whose requests have not been taken, those that the worker has polled first.
def waitingIds (s : VeloScheduler R μ δ τ) : List Nat :=
  s.pending.map (·.client) ++ s.requestRx.map (·.client)

-- From `s₁` to `s₂`, the requests of `later` came and those of `taken` were taken, both in the order of a queue. The
-- active requests are left of the former ones and of those that were taken, in this order.
def Queues (s₁ s₂ : VeloScheduler R μ δ τ) : Prop :=
  ∃ taken later, s₂.arrivals = s₁.arrivals ++ later ∧ s₁.waitingIds ++ later = taken ++ s₂.waitingIds ∧
    s₂.active.map (·.client) <+ s₁.active.map (·.client) ++ taken

theorem findIdxs_queued_congr {l₁ l₂ : List Client} (h : l₂.map (·.queued) = l₁.map (·.queued)) :
    l₂.findIdxs (·.queued) = l₁.findIdxs (·.queued) := by
  have hmap (l : List Client) : (l.map (·.queued)).findIdxs id = l.findIdxs (·.queued) := findIdxs_map
  rw [← hmap, h, hmap]

namespace Queues

theorem trans (h : Queues s₁ s₂) (h' : Queues s₂ s₃) : Queues s₁ s₃ := by
  obtain ⟨taken, later, harrivals, hwaiting, hactive⟩ := h
  obtain ⟨taken', later', harrivals', hwaiting', hactive'⟩ := h'
  refine ⟨taken ++ taken', later ++ later', ?_, ?_, ?_⟩
  case refine_1 => rw [harrivals', harrivals, append_assoc]
  case refine_2 => rw [← append_assoc, hwaiting, append_assoc, hwaiting', append_assoc]
  case refine_3 => exact hactive'.trans (append_assoc .. ▸ hactive.append_right taken')

-- What does not touch the queues, even if an active request leaves.
theorem shrink (hclients : s₂.clients.map (·.queued) = s₁.clients.map (·.queued)) (hwaiting : s₂.waitingIds = s₁.waitingIds)
    (hactive : s₂.active.map (·.client) <+ s₁.active.map (·.client)) : Queues s₁ s₂ :=
  ⟨[], [], by rw [append_nil, arrivals, findIdxs_queued_congr hclients, arrivals], by rw [append_nil, hwaiting, nil_append],
    by rwa [append_nil]⟩

theorem refl : Queues s s :=
  .shrink rfl rfl (.refl _)

theorem quiet (h : Quiet s₁ s₂) : Queues s₁ s₂ := by
  have hqueued : s₂.clients.map (·.queued) = s₁.clients.map (·.queued) := by
    simpa [Function.comp_def, Client.frame] using congrArg (map Client.queued) h.clients
  exact .shrink hqueued (by rw [waitingIds, h.pending, h.requestRx, waitingIds]) (h.active_clients ▸ .refl _)

-- The first request that waits is taken. It may be dropped, or it comes after the active ones.
theorem take {req : SchedulerRequest} {rest : List SchedulerRequest} (hpending : s₁.pending = req :: rest)
    (hclients : s₂.clients = s₁.clients) (hrest : s₂.pending = rest) (hrx : s₂.requestRx = s₁.requestRx)
    (hactive : s₂.active.map (·.client) <+ s₁.active.map (·.client) ++ [req.client]) : Queues s₁ s₂ :=
  ⟨[req.client], [], by rw [append_nil, arrivals, hclients, arrivals],
    by rw [append_nil, waitingIds, waitingIds, hpending, hrest, hrx]; rfl, hactive⟩

end Queues

theorem onClient_queued {g : Client → Client} (client : Nat) (hg : ∀ c, (g c).queued = c.queued) :
    (s.onClient client g).clients.map (·.queued) = s.clients.map (·.queued) := by
  refine ext_getElem? fun k => ?_
  simp only [onClient, getElem?_map, getElem?_modify]
  split <;> cases s.clients[k]? <;> simp [hg]

theorem cleanup_queues (s : VeloScheduler R μ δ τ) (i : Nat) : Queues s (s.cleanup i) := by
  have herase : (s.active.eraseIdx i).map (·.client) <+ s.active.map (·.client) := (eraseIdx_sublist _ _).map _
  unfold cleanup
  split
  case h_1 => exact .shrink rfl rfl (.refl _)
  case h_2 req hreq =>
    dsimp only
    split
    case isFalse => exact .shrink rfl rfl (.refl _)
    case isTrue =>
      split
      case h_1 => exact .shrink rfl rfl herase
      case h_2 =>
        split
        case isTrue  => exact .shrink (onClient_queued req.client fun _ => rfl) rfl herase
        case isFalse => exact .shrink rfl rfl herase

theorem submit_queues (s : VeloScheduler R μ δ τ) (prompt : List TokenId) (n : Nat) : Queues s (s.submit prompt n) := by
  refine ⟨[], if s.isAlive then [s.clients.length] else [], ?_, ?_, by rw [append_nil]; exact .refl _⟩
  case refine_1 => simp only [arrivals, submit, findIdxs_append, findIdxs_singleton, Nat.zero_add]
  case refine_2 =>
    simp only [waitingIds, submit, nil_append]
    split
    case isTrue  => simp
    case isFalse => simp

variable [MemoryRuntime R] [DraftModel μ δ] [TargetModel μ τ]

theorem admitNext_queues (s : VeloScheduler R μ δ τ) : Queues s s.admitNext := by
  unfold admitNext
  split
  case isFalse => exact .shrink rfl rfl (.refl _)
  case isTrue =>
    split
    case h_1 => exact .shrink rfl rfl (.refl _)
    case h_2 req rest hp =>
      split
      case h_1 activeReq m hadmitted =>
        obtain ⟨pool, out, hadm⟩ := admitRequest_eq_ok hadmitted
        have hclient : activeReq.client = req.client := by rw [hadm.request]
        exact .take hp rfl rfl rfl (by rw [map_append, map_singleton, hclient])
      all_goals exact .take hp rfl rfl rfl (sublist_append_left ..)

theorem work_queues (s : VeloScheduler R μ δ τ) : Queues s s.work := by
  -- A poll moves a request from the head of the channel to the end of the queue.
  have hpoll {req : SchedulerRequest} {rest : List SchedulerRequest} (hrx : s.requestRx = req :: rest) :
      (s.pending ++ [req]).map (·.client) ++ rest.map (·.client) = s.waitingIds := by
    rw [waitingIds, hrx, map_append, append_assoc]
    rfl
  unfold work
  split
  case h_1 => unfold pollCommand; split <;> exact .shrink rfl rfl (.refl _)
  case h_2 =>
    unfold pollRequest
    split
    case h_1              => exact .shrink rfl rfl (.refl _)
    case h_2 req rest hrx => exact .shrink rfl (hpoll hrx) (.refl _)
  case h_3 => exact admitNext_queues s
  case h_4 =>
    unfold await
    split
    case isTrue =>
      split
      case h_1 req rest hrx => exact .shrink rfl (hpoll hrx) (.refl _)
      case h_2              => split <;> exact .shrink rfl rfl (.refl _)
    case isFalse => split <;> exact .shrink rfl rfl (.refl _)
  case h_5 =>
    obtain ⟨models, hq, _⟩ := callModels_frame (s := s)
    have hmodels : Queues s { s with machine := { s.machine with models } } := .shrink rfl rfl (.refl _)
    exact hmodels.trans (.quiet hq)
  case h_6 => exact .quiet (commit_quiet _ _).left
  case h_7 => exact .quiet (send_quiet _ _ _).left
  case h_8 => exact .quiet (correct_quiet _ _).left
  case h_9 => exact cleanup_queues s _
  case h_10 => exact .refl
  case h_11 => exact ⟨s.waitingIds, [], (append_nil _).symm, rfl, nil_sublist _⟩

theorem next_queues (s : VeloScheduler R μ δ τ) (a : Action) : Queues s (s.next a) := by
  cases a
  case work => exact work_queues s
  case submit prompt n => exact submit_queues s prompt n
  case drop client => exact .shrink (onClient_queued client fun _ => rfl) rfl (.refl _)
  case prefetch => rw [next, prefetch]; split <;> exact .shrink rfl rfl (.refl _)
  all_goals exact .shrink rfl rfl (.refl _)

theorem Queues.run {P : VeloScheduler R μ δ τ → Action → Prop} (h : Run P s t) : Queues s t :=
  h.invariant .refl fun t a ht _ _ => ht.trans (next_queues t a)

-- First come, first served: the requests are taken as from a queue, whatever the order of steps. In each state of a run
-- from the start, the active requests and those that wait are in the order of the calls of `submit`, no request has been
-- taken before an earlier one, and the next to be taken is the first that waits.
theorem served_inTurn (h : Run (fun _ _ => True) (start m) s) :
    (∀ t, Run (fun _ _ => True) s t → Queues s t) ∧
    (s.active.map (·.client)).Pairwise (· < ·) ∧ s.waitingIds.Pairwise (· < ·) ∧
    (∀ i ∈ s.arrivals, ∀ j ∈ s.arrivals, i < j → j ∉ s.waitingIds → i ∉ s.waitingIds) ∧
    ∀ req ∈ s.pending.head?, ∀ i ∈ s.waitingIds, req.client ≤ i := by
  obtain ⟨taken, later, harrivals, hwaiting, hactive⟩ := Queues.run h
  have hall : s.arrivals = taken ++ s.waitingIds := harrivals.trans hwaiting
  have hsorted : (taken ++ s.waitingIds).Pairwise (· < ·) := by
    rw [← hall]
    exact pairwise_findIdxs
  obtain ⟨htaken, hwaits, hbefore⟩ := pairwise_append.mp hsorted
  refine ⟨fun t ht => .run ht, htaken.sublist hactive, hwaits, fun i hi j hj hlt hout hin => ?_, fun req hreq i hi => ?_⟩
  case refine_1 =>
    rw [hall] at hj
    exact absurd (hbefore j ((mem_append.mp hj).resolve_right hout) i hin) (Nat.lt_asymm hlt)
  case refine_2 =>
    obtain ⟨rest, hpending⟩ : ∃ rest, s.pending = req :: rest := head?_eq_some_iff.mp hreq
    have hhead : s.waitingIds = req.client :: (rest.map (·.client) ++ s.requestRx.map (·.client)) := by
      rw [waitingIds, hpending]
      rfl
    rw [hhead] at hi hwaits
    rcases mem_cons.mp hi with rfl | hi
    case inl => exact le_rfl
    case inr => exact (rel_of_pairwise_cons hwaits hi).le

-- Three requests for two slots.
theorem served_inTurn_three : ∃ e : VeloEngine CpuMemoryRuntime Empty, VeloEngine.new ⟨2, ⟨1, 4, 8, 2⟩⟩ = .ok e ∧
    let s : VeloScheduler CpuMemoryRuntime Empty (Guesser List.sum) (Oracle List.sum) :=
      ([.submit [1, 2] 3, .submit [3] 1, .submit [4] 1, .work, .work, .work, .work, .work, .work, .work] : List Action).foldl
        next (start ⟨e, ⟨⟨⟩, ⟨0⟩⟩⟩)
    s.active.map (·.client) = [0, 1] ∧ s.waitingIds = [2] ∧ (s.active.map (·.client)).Pairwise (· < ·) :=
  ⟨_, rfl, by decide +kernel, by decide +kernel, (served_inTurn (Traced.run _ (by decide +kernel))).right.left⟩

end VeloScheduler
