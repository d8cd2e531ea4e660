import VeloCore.Execution.Engine.Theorems.Gains
import VeloCore.Execution.Engine.Theorems.Handles

open List

-- A draft model that guesses by `g`, and as many tokens as `count` says.
structure Drafter (g : List TokenId → TokenId) (count : Nat → Nat) where

namespace Drafter

variable {g : List TokenId → TokenId} {count : Nat → Nat}

instance : DraftModel Empty (Drafter g count) where
  draft context maxTokens m d := (.ok ((greedy g context (count maxTokens)).map .mk), m, d)

theorem repliesBatch : DraftModel.RepliesBatch (Drafter g count) fun r ps => ps.length = count r.maxTokens :=
  fun d _ => batchEach_forall₂ (fun r _ _ => ⟨_, r.matcher, d, rfl, by simp⟩) d

theorem binds : DraftModel.Binds (Drafter g count) :=
  fun d => ⟨fun _ => ⟨d, rfl⟩, fun _ => ⟨d, rfl⟩⟩

end Drafter

theorem Oracle.stepsBatch {f : List TokenId → TokenId} : TargetModel.StepsBatch (Oracle f) :=
  fun t _ => batchEach_forall₂ (fun r _ t => ⟨_, r.matcher, ⟨t.calls + 1⟩, rfl, by simp⟩) t

namespace VeloEngine

variable {μ δ τ : Type} [CfgMatcher μ] [DraftModel μ δ] [TargetModel μ τ] {active a : List (ActiveRequest μ)}
  {m m₁ : Models δ τ}

-- With drafts that suit, all rounds leave the requests within bounds.
theorem heads_bounded (hb : Bounded active) (hh : Eff.Heads (round draftWindow) active m a m₁)
    (hsuit : ∀ a m₁, Eff.Heads (round draftWindow) active m a m₁ → a.any (·.unfinished) →
      ∀ drafts steps, Answered draftWindow a m₁ drafts steps → AllSuit a drafts steps) : Bounded a := by
  induction hh
  case refl => exact hb
  case step b t b' t' hh hr hi =>
    by_cases hu : b.any (·.unfinished)
    case pos => exact (round_bounded_iff hi hr).mpr (hsuit b t hh hu)
    case neg => simp [round, hu, Eff.pure_apply] at hr

end VeloEngine

namespace Machine

open VeloEngine

variable {R μ δ τ : Type} [MemoryRuntime R] [CfgMatcher μ] [DraftModel μ δ] [TargetModel μ τ]
  {reqs : List BatchRequest} {outs : List EngineOutput} {m m' : Machine R μ δ τ}

-- The batch comes to the beginning of a round, with these requests.
def Enters (reqs : List BatchRequest) (m : Machine R μ δ τ) (draftWindow : Nat) (a : List (ActiveRequest μ))
    (m₁ : Models δ τ) : Prop :=
  ∃ e active models, prepareAll reqs m.engine = (.ok active, e) ∧ bindAll active m.models = (.ok (), models) ∧
    draftWindow = e.decoder.draftWindow ∧ Eff.Heads (round draftWindow) active models a m₁

-- In each round, the draft of an unfinished request suits what is left of it.
def DraftsSuit (reqs : List BatchRequest) (m : Machine R μ δ τ) : Prop :=
  ∀ draftWindow a m₁, Enters reqs m draftWindow a m₁ → a.any (·.unfinished) →
    ∀ drafts steps, Answered draftWindow a m₁ drafts steps → AllSuit a drafts steps

-- No output has more tokens than its request asks for.
def Within (reqs : List BatchRequest) (outs : List EngineOutput) : Prop :=
  Forall₂ (fun req out => out.tokens.length ≤ req.maxNewTokens) reqs outs

omit [DraftModel μ δ] [TargetModel μ τ] [CfgMatcher μ] in
theorem bounded_of_fresh {active : List (ActiveRequest μ)} (h : ∀ req ∈ active, req.generated = []) : Bounded active :=
  fun req hreq => by simp [h req hreq]

theorem Enters.bounded (hsuit : DraftsSuit reqs m) (he : Enters reqs m draftWindow a m₁) : Bounded a := by
  obtain ⟨e, active, models, hp, hb, rfl, hh⟩ := he
  refine heads_bounded (bounded_of_fresh (prepareAll_fresh hp).right) hh fun a m₁ hh hu => ?_
  exact hsuit _ a m₁ ⟨e, active, models, hp, hb, rfl, hh⟩ hu

theorem generateBatch_within_iff (h : generateBatch fuel reqs m = (.ok outs, m')) : Within reqs outs ↔ DraftsSuit reqs m := by
  have ⟨actives, m₁, hd, hw⟩ := generateBatch_eq_ok h
  have ⟨active₀, models, hp, hb, hl⟩ := decode_eq_ok hd
  have ⟨hmax, hfresh⟩ := prepareAll_fresh hp
  have hrounds := rounds_bounded_iff (bounded_of_fresh hfresh) hl
  have hextend : actives.map (·.maxNewTokens) = reqs.map (·.maxNewTokens) := by
    rw [← hmax]
    refine ext_getElem? fun k => ?_
    have hx := rounds_extend hl
    rw [getElem?_map, getElem?_map]
    cases hreq : active₀[k]?
    case none => rw [getElem?_eq_none (hx.length_eq ▸ getElem?_eq_none_iff.mp hreq)]
    case some req =>
      have ⟨req', hreq', hsame, _⟩ := forall₂_getElem? hx hreq
      rw [hreq', Option.map_some, Option.map_some, hsame]
  have hbound : Within reqs outs ↔ Bounded actives := by
    have htokens := wrapUp_tokens hw
    have hpairs : Within reqs outs ↔ Forall₂ (fun max tokens => length tokens ≤ max) (reqs.map (·.maxNewTokens))
        (outs.map (·.tokens)) := by
      rw [Within, forall₂_map_left_iff, forall₂_map_right_iff]
    rw [hpairs, htokens, ← hextend, forall₂_map_left_iff, forall₂_map_right_iff, forall₂_same]
    rfl
  rw [hbound, hrounds]
  constructor
  case mp =>
    intro hsuit _ a m₂ ⟨e, active, models', hp', hb', hw, hh⟩ hu
    cases hp.symm.trans hp'
    cases hb.symm.trans hb'
    subst hw
    exact hsuit a m₂ hh hu
  case mpr => exact fun hsuit a m₂ hh hu => hsuit _ a m₂ ⟨_, _, _, hp, hb, rfl, hh⟩ hu

end Machine
