import VeloCore.Execution.Engine.Generate
import VeloCore.Objects.Speculative.Theorems.Session

open List

namespace SpeculativeSession

variable {s s' : SpeculativeSession}

theorem commit_prompt (h : s.commit drafted verified = (.ok accepted, s')) : s'.prompt = s.prompt := by
  unfold commit at h
  split at h
  case isTrue => cases h
  case isFalse =>
    cases h
    exact (SpeculativeSession.resolve_prompt ..).trans rfl

end SpeculativeSession

namespace ActiveRequest

variable {req req' : ActiveRequest μ}

-- What the rounds of a batch leave alone.
def fixed (req : ActiveRequest μ) : SlotId × List TokenId × Nat × EnginePrefillOutput :=
  (req.slotId, req.session.prompt, req.maxNewTokens, req.prefill)

-- The pending rejection is handed on in the round that it comes from.
theorem commit_eq (h : req.session.commit drafted verified = (.ok accepted, s)) :
    req.commit drafted verified = .ok { req with
      session   := { s with rejectedToken := none }
      generated := req.generated ++ SpeculativeSession.emitted accepted s } := by
  simp only [commit, h, SpeculativeSession.emitted]
  cases hr : s.rejectedToken
  case none   => cases s; simp_all [SpeculativeSession.hasPendingRejection]
  case some t => simp [SpeculativeSession.hasPendingRejection, SpeculativeSession.takeRejectedToken, hr]

theorem commit_fixed (h : req.commit drafted verified = .ok req') : req'.fixed = req.fixed := by
  match hc : req.session.commit drafted verified with
  | (.error e, _) => simp [commit, hc] at h
  | (.ok accepted, session) =>
    cases (commit_eq hc).symm.trans h
    simp [fixed, SpeculativeSession.commit_prompt hc]

end ActiveRequest

namespace VeloEngine

variable {R μ δ τ : Type} {active active' : List (ActiveRequest μ)} {req : ActiveRequest μ}

theorem modifyAll_map {f : ActiveRequest μ → ActiveRequest μ} {g : ActiveRequest μ → γ}
    (h : ∀ req, g (f req) = g req) (indices : List Nat) : (modifyAll f indices active).map g = active.map g := by
  induction indices generalizing active
  case nil => rfl
  case cons i indices hi =>
    rw [modifyAll, foldl_cons, ← modifyAll, hi]
    refine ext_getElem? fun k => ?_
    rw [getElem?_map, getElem?_map, getElem?_modify]
    cases active[k]?
    case none     => rfl
    case some req => by_cases hk : i = k <;> simp [hk, h]

theorem returnMatchers_map {g : ActiveRequest μ → γ} (h : ∀ req m, g { req with matcher := m } = g req) {ms : List (Option μ)} :
    (returnMatchers active ms).map g = active.map g := by
  induction active generalizing ms
  case nil => rfl
  case cons req reqs hi =>
    unfold returnMatchers
    split
    case isFalse => rw [map_cons, map_cons, hi]
    case isTrue =>
      split
      case h_1 => rfl
      case h_2 => rw [map_cons, map_cons, hi, h]

theorem returnMatchers_fixed {ms : List (Option μ)} :
    (returnMatchers active ms).map (·.fixed) = active.map (·.fixed) :=
  returnMatchers_map fun _ _ => rfl

variable {σ : Type} {s s' : σ} {draftResults : List (List NextTokenPrediction)}
  {verifyResults : List (List VerifyStep)}

theorem commitAt_eq_ok (h : commitAt draftResults verifyResults i idx active s = (.ok active', s')) :
    ∃ req drafted verified req', active[idx]? = some req ∧ draftResults[i]? = some drafted ∧
      verifyResults[i]? = some verified ∧ req.commit drafted verified = .ok req' ∧ active' = active.set idx req' := by
  have ⟨req, s₁, hreq, h⟩ := Eff.bind_eq_ok_iff.mp h
  have ⟨drafted, s₂, hd, h⟩ := Eff.bind_eq_ok_iff.mp h
  have ⟨verified, s₃, hv, h⟩ := Eff.bind_eq_ok_iff.mp h
  cases hc : req.commit drafted verified <;> simp only [hc] at h
  case error => cases h
  case ok req' =>
    cases h
    exact ⟨req, drafted, verified, req', (Eff.index_eq_ok hreq).left, (Eff.index_eq_ok hd).left, (Eff.index_eq_ok hv).left, hc, rfl⟩

theorem commitAt_fixed (h : commitAt draftResults verifyResults i idx active s = (.ok active', s')) :
    active'.map (·.fixed) = active.map (·.fixed) := by
  have ⟨req, _, _, req', hreq, _, _, hc, he⟩ := commitAt_eq_ok h
  have ⟨hlt, hreq⟩ := List.getElem?_eq_some_iff.mp hreq
  have hlt' : idx < (active.map (·.fixed)).length := by simpa using hlt
  have hget : req.fixed = (active.map (·.fixed))[idx] := by rw [getElem_map, hreq]
  rw [he, map_set, ActiveRequest.commit_fixed hc, hget, set_getElem_self]

theorem commitAll_fixed {indices : List (Nat × Nat)}
    (h : commitAll draftResults verifyResults indices active s = (.ok active', s')) :
    active'.map (·.fixed) = active.map (·.fixed) := by
  induction indices generalizing active s
  case nil => cases h; rfl
  case cons idx indices hi =>
    have ⟨active₁, s₁, hc, h⟩ := Eff.bind_eq_ok_iff.mp h
    exact (hi h).trans (commitAt_fixed hc)

variable [CfgMatcher μ] [DraftModel μ δ] [TargetModel μ τ] {m m' : Models δ τ}

theorem round_fixed (h : round draftWindow active m = (.ok r, m')) :
    (r.elim id id).map (·.fixed) = active.map (·.fixed) := by
  unfold round at h
  split at h
  case isFalse => cases h; rfl
  case isTrue =>
    have ⟨draftResults, m₁, hd, h⟩ := Eff.bind_eq_ok_iff.mp h
    have ⟨drafted, m₂, hdt, h⟩ := Eff.bind_eq_ok_iff.mp h
    have ⟨⟨verifyResults, matchers⟩, m₃, hv, h⟩ := Eff.bind_eq_ok_iff.mp h
    have ⟨active', m₄, hc, h⟩ := Eff.bind_eq_ok_iff.mp h
    cases h
    have hdraft (req : ActiveRequest μ) : req.recordDraftCall.fixed = req.fixed := rfl
    have htarget (req : ActiveRequest μ) : req.recordTargetCall.fixed = req.fixed := rfl
    rw [Sum.elim_inl, id_eq, commitAll_fixed hc, modifyAll_map htarget, returnMatchers_fixed, modifyAll_map hdraft]

theorem rounds_fixed (h : Eff.loop (round draftWindow) fuel active m = (.ok active', m')) :
    active'.map (·.fixed) = active.map (·.fixed) := by
  have hstep (a : List (ActiveRequest μ)) (s : Models δ τ) (ha : a.map (·.fixed) = active.map (·.fixed)) :
      Eff.Step (fun a _ => a.map (·.fixed) = active.map (·.fixed))
        (fun r _ => ∀ a, r = .ok a → a.map (·.fixed) = active.map (·.fixed)) (round draftWindow a s) := by
    match hb : round draftWindow a s with
    | (.ok (.inl a'), s') => exact (round_fixed hb).trans ha
    | (.ok (.inr a'), s') => rintro _ ⟨⟩; exact (round_fixed hb).trans ha
    | (.error e, s')      => exact nofun
  have hl := Eff.loop_invariant (n := fuel) hstep (fun _ _ _ => nofun) (a := active) (s := m) rfl
  rw [h] at hl
  exact hl active' rfl

end VeloEngine
