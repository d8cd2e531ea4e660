import VeloCore.Execution.Engine.Theorems.Rounds
import VeloCore.Objects.Speculative.Theorems.Batch

open List

section Positions

variable {α β : Type} {R : α → β → Prop} {l : List α} {l' : List β} {i : Nat}

theorem forall₂_getElem? (h : Forall₂ R l l') (ha : l[i]? = some a) : ∃ b, l'[i]? = some b ∧ R a b := by
  obtain ⟨hi, rfl⟩ := List.getElem?_eq_some_iff.mp ha
  have hi' : i < l'.length := h.length_eq ▸ hi
  exact ⟨l'[i], getElem?_eq_getElem hi', h.get hi hi'⟩

theorem forall₂_of_getElem? (hl : l.length = l'.length)
    (h : ∀ {i : Nat} {a}, l[i]? = some a → ∃ b, l'[i]? = some b ∧ R a b) : Forall₂ R l l' := by
  refine forall₂_iff_get.mpr ⟨hl, fun i hi hi' => ?_⟩
  have ⟨b, hb, hr⟩ := h (getElem?_eq_getElem hi)
  rw [getElem?_eq_getElem hi', Option.some_inj] at hb
  subst hb
  exact hr

end Positions

namespace VeloEngine

variable {μ δ τ σ : Type} {active : List (ActiveRequest μ)}

-- The `i`-th of the active indices belongs to the `i`-th of the unfinished requests.
theorem mem_activeIndices_zipIdx (h : p ∈ (activeIndices active).zipIdx) : ∃ req, active[p.1]? = some req ∧
    req.unfinished ∧ (active.filter (·.unfinished))[p.2]? = some req := by
  have h := mem_zipIdx_iff_getElem?.mp h
  rw [activeIndices, getElem?_map, Option.map_eq_some_iff] at h
  have ⟨⟨req, idx⟩, hget, (hidx : idx = p.1)⟩ := h
  have ⟨hmem, hu⟩ := mem_filter.mp (mem_of_getElem? hget)
  have hfilter : active.filter (·.unfinished) = (active.zipIdx.filter (·.1.unfinished)).map (·.1) := by
    conv_lhs => rw [← zipIdx_map_fst 0 active, filter_map]
    rfl
  exact ⟨req, hidx ▸ mem_zipIdx_iff_getElem?.mp hmem, hu, by rw [hfilter, getElem?_map, hget]; rfl⟩

theorem mem_activeIndices_iff : k ∈ activeIndices active ↔ ∃ req, active[k]? = some req ∧ req.unfinished := by
  simp only [activeIndices, mem_map, mem_filter, mem_zipIdx_iff_getElem?, Prod.exists]
  constructor
  case mp =>
    rintro ⟨req, _, hreq, hk⟩
    exact ⟨req, hk ▸ hreq⟩
  case mpr =>
    rintro ⟨req, hreq⟩
    exact ⟨req, k, hreq, rfl⟩

theorem activeIndices_nodup : (activeIndices active).Nodup := by
  have hn : (active.zipIdx.map Prod.snd).Nodup := zipIdx_map_snd 0 active ▸ nodup_range'
  exact hn.sublist (filter_sublist.map _)

theorem activeIndices_length : (activeIndices active).length = (active.filter (·.unfinished)).length := by
  conv_rhs => rw [← zipIdx_map_fst 0 active, filter_map, length_map]
  rw [activeIndices, length_map]
  rfl

variable {draftResults : List (List NextTokenPrediction)} {verifyResults : List (List VerifyStep)}

-- The requests at the given positions are committed, and no others.
theorem commitAll_returns {P : ActiveRequest μ → ActiveRequest μ → Prop} {indices : List (Nat × Nat)} (s : σ)
    (hn : (indices.map (·.1)).Nodup)
    (h : ∀ p ∈ indices, ∃ req drafted verified req', active[p.1]? = some req ∧ draftResults[p.2]? = some drafted ∧
      verifyResults[p.2]? = some verified ∧ req.commit drafted verified = .ok req' ∧ P req req') :
    ∃ active', commitAll draftResults verifyResults indices active s = (.ok active', s) ∧
      active'.length = active.length ∧ ∀ {k req}, active[k]? = some req →
        ∃ req', active'[k]? = some req' ∧ if k ∈ indices.map (·.1) then P req req' else req' = req := by
  induction indices generalizing active
  case nil => exact ⟨active, rfl, rfl, fun {_ req} hk => ⟨req, hk, by simp⟩⟩
  case cons p indices hi =>
    obtain ⟨idx, i⟩ := p
    rw [map_cons, nodup_cons] at hn
    obtain ⟨req, drafted, verified, req', hreq, hd, hv, hc, hp⟩ := h _ mem_cons_self
    have hcommit : commitAt draftResults verifyResults i idx active s = (.ok (active.set idx req'), s) := by
      simp [commitAt, Eff.bind_apply, Eff.index, hreq, hd, hv, hc, Eff.pure_apply]
    obtain ⟨active', ha, hl, hk⟩ := @hi (active.set idx req') hn.right fun p hp => by
      have hne : idx ≠ p.1 := fun heq => hn.left (heq ▸ mem_map_of_mem (f := fun p => p.1) hp)
      rw [getElem?_set_ne hne]
      exact h p (mem_cons_of_mem _ hp)
    refine ⟨active', by rw [commitAll, Eff.bind_ok hcommit, ha], by simpa using hl, fun {k r} hr => ?_⟩
    by_cases hki : k = idx
    case pos =>
      subst hki
      cases hreq.symm.trans hr
      have hlt := (List.getElem?_eq_some_iff.mp hreq).1
      obtain ⟨r', hr', hif⟩ := hk (getElem?_set_self hlt)
      rw [if_neg hn.left] at hif
      exact ⟨req', hif ▸ hr', by simpa using hp⟩
    case neg =>
      obtain ⟨r', hr', hif⟩ := hk ((getElem?_set_ne (Ne.symm hki)).trans hr)
      exact ⟨r', hr', by simpa only [map_cons, mem_cons, hki, false_or] using hif⟩

end VeloEngine
