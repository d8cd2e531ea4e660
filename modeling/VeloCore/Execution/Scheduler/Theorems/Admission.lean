import Mathlib
import VeloCore.Execution.Scheduler.Theorems.Slots
import VeloCore.Execution.Engine.Theorems.Metal

open List

namespace Machine

variable {R μ δ τ : Type} [MemoryRuntime R] [CfgMatcher μ] [DraftModel μ δ] [TargetModel μ τ]

-- What `generate_batch` does before its first round.
def preparation (requests : List BatchRequest) : Eff (Machine R μ δ τ) EngineError (List (ActiveRequest μ)) := do
  let active ← onEngine (VeloEngine.prepareAll requests)
  onModels (VeloEngine.bindAll active)
  pure active

end Machine

namespace VeloScheduler

variable {μ δ τ : Type} [CfgMatcher μ] [DraftModel μ δ] [TargetModel μ τ]
  {m m₁ : Machine MetalMemoryRuntime μ δ τ} {prompt : List TokenId} {n client : Nat}

-- Both ways to admit a request take the same slot, prefill and bind the models alike; then `generate_batch` binds
-- the pages in the runtime.
theorem admitRequest_of_preparation (client : Nat) (hp : Machine.preparation [⟨prompt, n, none⟩] m = (.ok actives, m₁)) :
    ∃ active activeReq m₂ span, actives = [active] ∧ admitRequest ⟨prompt, n, client⟩ m = (.ok activeReq, m₂) ∧
      activeReq.slotId = active.slotId ∧ active.prefill.insertedPages.or active.prefill.cachedPages = some span ∧
      m₂.engine.runtime.bindSlot active.slotId (span.pages.map UInt32.ofNat) = (.ok (), m₁.engine.runtime) ∧
      m₁ = ⟨{ m₂.engine with runtime := m₁.engine.runtime }, m₂.models⟩ ∧
      m₂.engine.runtime.memory = m.engine.runtime.memory ∧ m₂.engine.runtime.slotMapping = m.engine.runtime.slotMapping := by
  have ⟨_, _, hall, h⟩ := Eff.bind_eq_ok_iff.mp hp
  have ⟨_, _, hbindAll, h⟩ := Eff.bind_eq_ok_iff.mp h
  cases h
  have ⟨_, hprepared, hm₁⟩ := Eff.zoom_eq_ok_iff.mp hall
  have ⟨models, hbound, hm₂⟩ := Eff.zoom_eq_ok_iff.mp hbindAll
  have ⟨active, rest, e₁, hprep, hrest, ha⟩ := VeloEngine.prepareAll_cons_eq_ok hprepared
  cases hrest
  subst ha hm₁ hm₂
  have ⟨pool, e₀, span, halloc, hpre, hpages, hb⟩ := (VeloEngine.prepare_eq_ok hprep).steps
  have ⟨r, hr, he₁⟩ := Eff.zoom_eq_ok_iff.mp hb
  have ⟨_, _, hbind, hnil⟩ := Eff.bind_eq_ok_iff.mp hbound
  cases hnil
  have hsame := VeloEngine.steady_table.prefill prompt { m.engine with slotPool := pool } ⟨rfl, rfl⟩
  rw [hpre] at hsame
  have hadmitted : admitRequest ⟨prompt, n, client⟩ m =
      (.ok ⟨e₀.decoder.begin prompt, active.slotId, n, client, 0, false, false, false⟩, ⟨e₀, models⟩) := by
    have h₁ : Machine.onEngine (VeloEngine.allocateSlot "No free slots") m =
        (.ok active.slotId, { m with engine := { m.engine with slotPool := pool } }) :=
      Eff.zoom_ok (VeloEngine.allocateSlot_ok halloc)
    have h₂ : Machine.onEngine (VeloEngine.prefill prompt) { m with engine := { m.engine with slotPool := pool } } =
        (.ok active.prefill, { m with engine := e₀ }) :=
      Eff.zoom_ok hpre
    have h₃ : Machine.onModels (Models.bind active.slotId active.prefill.cachedPrefix) { m with engine := e₀ } =
        (.ok (), ⟨e₀, models⟩) :=
      Eff.zoom_ok hbind
    rw [admitRequest, Eff.bind_ok h₁, Eff.bind_ok h₂, Eff.bind_ok h₃]
    rfl
  subst he₁
  exact ⟨active, _, _, span, rfl, hadmitted, rfl, hpages, Eff.call_eq_ok_iff.mp hr, rfl, hsame⟩

section Histories

-- What happens to the engine and the models before the next admission: another admission, the end of a request, and
-- the rounds, which change the models.
inductive Event (δ τ : Type)
  | admission (prompt : List TokenId) (maxNewTokens : Nat)
  | complete (slot : SlotId)
  | decode (models : Models δ τ)

def handle (m : Machine MetalMemoryRuntime μ δ τ) : Event δ τ → Machine MetalMemoryRuntime μ δ τ
  | .admission prompt n => (admitRequest ⟨prompt, n, 0⟩ m).2
  | .complete slot  => { m with engine := (VeloEngine.releaseSlot slot m.engine).2 }
  | .decode models  => { m with models }

-- Each request finds what `generate_batch` would have prepared, its pages in the row of its slot included.
def Alike : Machine MetalMemoryRuntime μ δ τ → List (Event δ τ) → Prop
  | _, [] => True
  | m, event :: events =>
    (∀ prompt n actives m₁, event = .admission prompt n → Machine.preparation [⟨prompt, n, none⟩] m = (.ok actives, m₁) →
      handle m event = m₁ ∧ ∀ active ∈ actives, ∀ span, active.prefill.insertedPages.or active.prefill.cachedPages = some span →
        (handle m event).engine.runtime.row active.slotId = m.engine.runtime.paddedRow (span.pages.map UInt32.ofNat)) ∧
      Alike (handle m event) events

-- Each request gets a slot whose row already lists the pages of the request, and the entries behind the row that
-- binding them clears are zero already.
def RowsFit : Machine MetalMemoryRuntime μ δ τ → List (Event δ τ) → Prop
  | _, [] => True
  | m, event :: events =>
    (∀ prompt n actives m₁, event = .admission prompt n → Machine.preparation [⟨prompt, n, none⟩] m = (.ok actives, m₁) →
      ∀ active ∈ actives, ∀ span, active.prefill.insertedPages.or active.prefill.cachedPages = some span →
        m.engine.runtime.row active.slotId = m.engine.runtime.paddedRow (span.pages.map UInt32.ofNat) ∧
        ∀ k, MetalMemoryRuntime.Overruns m.engine.runtime.memory.pagedTotalPages active.slotId span.pages.length k →
          m.engine.runtime.slotMapping k = 0) ∧
      RowsFit (handle m event) events

-- Binding the pages of a slot leaves the runtime as it is when they are in its row already, and zeros behind it.
theorem bindSlot_eq_self_iff {r r' : MetalMemoryRuntime} {slot : SlotId} {pages : List UInt32}
    (h : r.bindSlot slot pages = (.ok (), r')) : r = r' ↔ r.row slot = r.paddedRow pages ∧
      ∀ k, MetalMemoryRuntime.Overruns r.memory.pagedTotalPages slot pages.length k → r.slotMapping k = 0 := by
  have ⟨_, hm, hstore, halloc, hrow, htable⟩ := MetalMemoryRuntime.bindSlot_eq_ok h
  constructor
  case mp =>
    rintro rfl
    refine ⟨hrow, fun k hk => ?_⟩
    rw [htable k (.inr hk.left), if_pos hk]
  case mpr =>
    intro ⟨hfit, hzero⟩
    have hentries : r.slotMapping = r'.slotMapping := by
      funext k
      by_cases hk : k < slot.toNat * r.memory.pagedTotalPages ∨ (slot.toNat + 1) * r.memory.pagedTotalPages ≤ k
      case pos =>
        rw [htable k hk]
        split
        case isTrue ho => exact hzero k ho
        case isFalse   => rfl
      case neg =>
        -- The entry is in the row.
        rw [Nat.succ_mul] at hk
        have hrows : r.row slot = r'.row slot := hfit.trans hrow.symm
        have hentry := congrArg (·[k - slot.toNat * r.memory.pagedTotalPages]?) hrows
        simp only [MetalMemoryRuntime.row, hm, getElem?_map,
          getElem?_range (show k - slot.toNat * r.memory.pagedTotalPages < r.memory.pagedTotalPages by omega),
          Option.map_some, Option.some.injEq] at hentry
        rwa [Nat.add_sub_cancel' (by omega)] at hentry
    obtain ⟨_, _, _, _⟩ := r
    obtain ⟨_, _, _, _⟩ := r'
    simp_all

-- Over every history, the scheduler prepares the requests like `generate_batch` exactly when binding their pages would
-- change nothing.
theorem alike_iff_rowsFit (m : Machine MetalMemoryRuntime μ δ τ) (events : List (Event δ τ)) :
    Alike m events ↔ RowsFit m events := by
  induction events generalizing m
  case nil => exact Iff.rfl
  case cons event events hi =>
    refine and_congr (forall_congr' fun prompt => forall_congr' fun n => forall_congr' fun actives => forall_congr' fun m₁ =>
      forall_congr' fun hevent => forall_congr' fun hp => ?_) (hi _)
    subst hevent
    obtain ⟨active, activeReq, m₂, span, rfl, hadmitted, _, hpages, hbind, hm₁, hmem, htable⟩ := admitRequest_of_preparation 0 hp
    have hhandle : handle m (.admission prompt n) = m₂ := by rw [handle, hadmitted]
    have hrow : m₂.engine.runtime.row active.slotId = m.engine.runtime.row active.slotId := by
      rw [MetalMemoryRuntime.row, MetalMemoryRuntime.row, hmem, htable]
    have hpadded (pages) : m₂.engine.runtime.paddedRow pages = m.engine.runtime.paddedRow pages := by
      rw [MetalMemoryRuntime.paddedRow, MetalMemoryRuntime.paddedRow, hmem]
    have hsame : m₂ = m₁ ↔ m₂.engine.runtime = m₁.engine.runtime := by
      refine ⟨fun h => by rw [h], fun h => ?_⟩
      rw [hm₁, ← h]
    simp only [mem_singleton, forall_eq, hpages, Option.some.injEq, forall_eq', hhandle]
    rw [hsame, bindSlot_eq_self_iff hbind, hrow, hpadded, hmem, htable, length_map]
    exact ⟨And.left, fun h => ⟨h, h.left⟩⟩

-- The second request needs two pages, and the row of its slot is still empty.
theorem exists_not_alike :
    ¬ Alike (⟨VeloEngine.metalEngine, ⟨⟨⟩, ⟨0⟩⟩⟩ : Machine MetalMemoryRuntime Empty (Guesser List.sum) (Oracle List.sum))
      [.admission [1, 2, 3] 1, .admission [4, 5, 6, 7, 8] 1] := by
  intro h
  have hadmitted := h.right.left
  set m := handle (⟨VeloEngine.metalEngine, ⟨⟨⟩, ⟨0⟩⟩⟩ : Machine MetalMemoryRuntime Empty (Guesser List.sum) (Oracle List.sum))
    (.admission [1, 2, 3] 1) with hm
  have hpages : (Machine.preparation [⟨[4, 5, 6, 7, 8], 1, none⟩] m).1.toOption.map (fun actives => actives.map fun active =>
      (active.slotId, active.prefill.insertedPages.or active.prefill.cachedPages)) = some [(1, some ⟨[1, 2]⟩)] := by
    rw [hm]
    decide +kernel
  have hrow : (handle m (.admission [4, 5, 6, 7, 8] 1)).engine.runtime.row 1 = replicate 8 0 := by
    rw [hm]
    decide +kernel
  rcases hp : Machine.preparation [⟨[4, 5, 6, 7, 8], 1, none⟩] m with ⟨_ | actives, m₁⟩
  case error => simp [hp, Except.toOption] at hpages
  case ok =>
    rw [hp] at hpages
    have hpages := Option.some.inj hpages
    rcases actives with _ | ⟨active, _ | _⟩
    case nil       => simp at hpages
    case cons.cons => simp at hpages
    case cons.nil  =>
      simp only [map_cons, map_nil, cons.injEq, Prod.mk.injEq, and_true] at hpages
      have hfit := (hadmitted _ _ _ _ rfl hp).right active mem_cons_self _ hpages.right
      rw [hpages.left, hrow, hm] at hfit
      exact absurd hfit (by decide +kernel)

end Histories

end VeloScheduler
