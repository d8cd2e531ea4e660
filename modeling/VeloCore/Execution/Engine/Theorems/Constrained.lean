import VeloCore.Execution.Engine.Theorems.Matchers
import VeloCore.Execution.Engine.Theorems.Phases

open List CfgMatcher GreedyTargetModel

namespace VeloEngine

section Run

variable {R φ μ δ : Type} [CfgMatcher μ] {e e' : VeloEngine R μ} {reqs : List BatchRequest} {m m₀ : μ}

-- The matcher that the engine makes for a request, when the request has a constraint.
def matcherOf (e : VeloEngine R μ) (req : BatchRequest) : Option μ :=
  req.constraint.bind fun constraint => e.parserFactory.bind (· constraint)

-- The matcher, which began as `m₀`, has consumed the prompt and the generated tokens, and has allowed each of the
-- latter in the state before it.
structure InStep (m₀ : μ) (req : ActiveRequest μ) : Prop where
  matcher : req.matcher = some (consume m₀ (req.session.prompt ++ req.generated))
  allowed : Accepts (consume m₀ req.session.prompt) req.generated

section Prepare

variable [MemoryRuntime R] {req : BatchRequest} {active : ActiveRequest μ}

theorem prepare_inStep (h : prepare req e = (.ok active, e')) :
    e'.parserFactory = e.parserFactory ∧ ∀ m₀ ∈ matcherOf e req, InStep m₀ active := by
  have ⟨slot, e₁, ha, h⟩ := Eff.bind_eq_ok_iff.mp h
  have ⟨pool, halloc, he₁⟩ := allocateSlot_eq_ok ha
  have ⟨out, e₂, hp, h⟩ := Eff.bind_eq_ok_iff.mp h
  have steady : Steady fun e₀ : VeloEngine R μ => e₀.parserFactory = e.parserFactory :=
    .of_parts (fun _ _ => id) (fun _ _ => id) fun _ _ => id
  have he₂ := steady.prefill req.prompt e₁ (he₁ ▸ rfl)
  rw [hp] at he₂
  cases hpages : out.insertedPages.or out.cachedPages <;> simp only [hpages] at h
  case none => cases h
  case some pages =>
    have ⟨_, e₃, hb, h⟩ := Eff.bind_eq_ok_iff.mp h
    have ⟨r, _, he₃⟩ := Eff.zoom_eq_ok_iff.mp hb
    have he₃ : e₃.parserFactory = e.parserFactory := he₃ ▸ he₂
    cases h
    refine ⟨he₃, fun m₀ hm₀ => ⟨?_, trivial⟩⟩
    have hm₀ : (req.constraint.bind fun constraint => e'.parserFactory.bind (· constraint)) = some m₀ := he₃ ▸ hm₀
    dsimp only
    rw [hm₀, append_nil]
    rfl

theorem prepareAll_inStep {actives : List (ActiveRequest μ)} (h : prepareAll reqs e = (.ok actives, e')) :
    Forall₂ (fun req active => ∀ m₀ ∈ matcherOf e req, InStep m₀ active) reqs actives := by
  induction reqs generalizing e actives
  case nil => cases h; exact .nil
  case cons req reqs hi =>
    have ⟨active, rest, e₁, hp, hrest, ha⟩ := prepareAll_cons_eq_ok h
    have ⟨he₁, hs⟩ := prepare_inStep hp
    have hrest := hi hrest
    have hsame (req) : matcherOf e₁ req = matcherOf e req := by rw [matcherOf, he₁, matcherOf]
    exact ha ▸ .cons hs (hrest.imp fun req _ hs => hsame req ▸ hs)

end Prepare

section Round

variable [Logit φ] [DraftModel μ δ] {active active' : List (ActiveRequest μ)}
  {models models' : Models δ (GreedyTargetModel μ (StatelessBackend φ))} {req req' : ActiveRequest μ}

-- A round fits when for each constrained request the draft has guessed what the target chooses, up to its last token
-- at least, and when there is a token to choose in every state that the matcher goes through.
def Fits (draftWindow : Nat) (active : List (ActiveRequest μ))
    (models : Models δ (GreedyTargetModel μ (StatelessBackend φ))) : Prop :=
  ∀ req ∈ active, ∀ m drafted rows, req.matcher = some m → Drafted draftWindow active models req drafted rows →
    drafted.length ≤ commonPrefixLen drafted (chosen rows m) + 1 ∧ Offers rows m

-- The heads of the rounds, as long as the rounds before them fit.
inductive FittingHeads (draftWindow : Nat) (active₀ : List (ActiveRequest μ))
    (models₀ : Models δ (GreedyTargetModel μ (StatelessBackend φ))) :
    List (ActiveRequest μ) → Models δ (GreedyTargetModel μ (StatelessBackend φ)) → Prop
  | first : FittingHeads draftWindow active₀ models₀ active₀ models₀
  | next {a a' : List (ActiveRequest μ)} {t t' : Models δ (GreedyTargetModel μ (StatelessBackend φ))} :
      FittingHeads draftWindow active₀ models₀ a t → Fits draftWindow a t →
      round draftWindow a t = (.ok (.inl a'), t') → FittingHeads draftWindow active₀ models₀ a' t'

theorem Resolved.inStep (hstate : ∀ m : μ, (nextMask m).2 = m) {rows : List (TokenLogits φ)}
    (r : Resolved m drafted (chosen rows m) req req') (h : InStep m₀ req) (hm : req.matcher = some m)
    (hprompt : req'.session.prompt = req.session.prompt)
    (hfits : drafted.length ≤ commonPrefixLen drafted (chosen rows m) + 1) (ho : Offers rows m) : InStep m₀ req' := by
  have hall : (chosen rows m).take (commonPrefixLen drafted (chosen rows m) + 1) = chosen rows m :=
    take_of_length_le (r.length ▸ hfits)
  have hm : consume m₀ (req.session.prompt ++ req.generated) = m := Option.some.inj (h.matcher.symm.trans hm)
  constructor
  case matcher => rw [r.matcher, r.generated, hall, hprompt, ← append_assoc, consume_append, hm]
  case allowed =>
    rw [hprompt, r.generated, hall, accepts_append, ← consume_append, hm]
    exact ⟨h.allowed, chosen_accepted hstate ho⟩

theorem round_inStep (hstate : ∀ m : μ, (nextMask m).2 = m)
    (h : round draftWindow active models = (.ok (.inl active'), models')) (hfits : Fits draftWindow active models)
    (hs : Forall₂ (fun req active => ∀ m₀ ∈ matcherOf e req, InStep m₀ active) reqs active) :
    Forall₂ (fun req active => ∀ m₀ ∈ matcherOf e req, InStep m₀ active) reqs active' := by
  have hfixed : active'.map (·.fixed) = active.map (·.fixed) := round_fixed h
  have hlen : active'.length = active.length := by simpa using congrArg length hfixed
  refine forall₂_of_getElem? (hs.length_eq.trans hlen.symm) fun {i req} hreq => ?_
  have ⟨a, ha, hin⟩ := forall₂_getElem? hs hreq
  have ⟨a', ha', hsame⟩ : ∃ a', active'[i]? = some a' ∧ a'.fixed = a.fixed := by
    have h := congrArg (·[i]?) hfixed
    simpa [ha] using h
  refine ⟨a', ha', fun m₀ hm₀ => ?_⟩
  have hin := hin m₀ hm₀
  have hprompt : a'.session.prompt = a.session.prompt := congrArg (·.2.1) hsame
  have ⟨a₁, ha₁, hround⟩ := round_constrained hstate h ha hin.matcher
  cases ha₁.symm.trans ha'
  rcases hround with ⟨hg, hm⟩ | ⟨drafted, rows, hd, hr⟩
  case inl => exact ⟨by rw [hm, hprompt, hg], by rw [hprompt, hg]; exact hin.allowed⟩
  case inr =>
    have ⟨hlast, ho⟩ := hfits a (mem_of_getElem? ha) _ drafted rows hin.matcher hd
    exact hr.inStep hstate hin hin.matcher hprompt hlast ho

variable [MemoryRuntime R]

theorem matchers_inStep (hstate : ∀ m : μ, (nextMask m).2 = m) {active₀ : List (ActiveRequest μ)}
    {models₀ : Models δ (GreedyTargetModel μ (StatelessBackend φ))} (hp : prepareAll reqs e = (.ok active₀, e'))
    (h : FittingHeads e'.decoder.draftWindow active₀ models₀ active models) :
    Forall₂ (fun req active => ∀ m₀ ∈ matcherOf e req, InStep m₀ active) reqs active := by
  induction h
  case first                => exact prepareAll_inStep hp
  case next _ hfits hr hi   => exact round_inStep hstate hr hfits hi

end Round
end Run

-- A matcher that allows the tokens 0 and 1 and records what it consumes, a draft model that has only one guess, and
-- a target model that prefers the token 1.

structure Tape where
  consumed : List TokenId
deriving DecidableEq

instance : CfgMatcher Tape where
  nextMask m      := ([true, true], m)
  advance token m := ⟨m.consumed ++ [token]⟩
  cloneBox m      := m

structure Repeater (token : TokenId) where

instance : DraftModel Tape (Repeater token) where
  draft _ maxTokens m d := (.ok (replicate maxTokens ⟨token⟩), m, d)

instance : Logit Nat where
  negInfinity := 0
  ge a b      := b ≤ a

def preferOne : TokenLogits Nat :=
  ⟨[0, 1], by simp⟩

def oneModels (token : TokenId) : Models (Repeater token) (GreedyTargetModel Tape (StatelessBackend Nat)) :=
  ⟨⟨⟩, ⟨⟨fun _ => .ok preferOne, fun _ drafted => .ok (drafted.map fun _ => preferOne)⟩⟩⟩

theorem chosen_preferOne (n : Nat) (m : Tape) : chosen (replicate n preferOne) m = replicate n 1 := by
  induction n generalizing m
  case zero      => rfl
  case succ n hi => exact congrArg (1 :: ·) (hi _)

theorem offers_preferOne (n : Nat) (m : Tape) : Offers (replicate n preferOne) m := by
  induction n generalizing m
  case zero      => trivial
  case succ n hi => exact ⟨⟨by decide, 0, 0, rfl, rfl, rfl⟩, hi _⟩

theorem fits_one (draftWindow : Nat) (active : List (ActiveRequest Tape)) : Fits draftWindow active (oneModels 1) := by
  intro req _ m drafted rows _ hd
  have ⟨results, ms, d, hbatch, i, predictions, _, hp, hdrafted⟩ := hd.draft
  have hone : ∀ r ∈ draftRequests draftWindow active, ∀ d : Repeater 1, ∃ predictions m d',
      DraftModel.draft r.context r.maxTokens r.matcher d = (.ok predictions, m, d') ∧
        predictions = replicate predictions.length ⟨1⟩ :=
    fun r _ d => ⟨_, r.matcher, d, rfl, by simp⟩
  have ⟨results', ms', d', (hbatch' : batchEach _ DraftRequest.matcher _ _ = _), hall⟩ := batchEach_forall₂ hone ⟨⟩
  cases hbatch.symm.trans hbatch'
  have ⟨r, _, hr⟩ := forall₂_getElem? hall.flip hp
  have hn : drafted = replicate predictions.length 1 := by
    rw [hdrafted, hr]
    simp
  have hrows : rows = replicate predictions.length preferOne := by
    have h : drafted.map (fun _ => preferOne) = rows := Except.ok.inj hd.logits
    rw [← h, hn, map_replicate]
  rw [hrows, chosen_preferOne, hn]
  have hall : commonPrefixLen (replicate predictions.length (1 : TokenId)) (replicate predictions.length 1) = _ :=
    commonPrefixLen_eq_length_iff.mpr prefix_rfl
  exact ⟨hall.symm ▸ Nat.le_succ _, offers_preferOne _ m⟩

def tapeRequests : List BatchRequest :=
  [⟨[1], 2, some (.regex "")⟩]

def withTapes (e : VeloEngine CpuMemoryRuntime Tape) : VeloEngine CpuMemoryRuntime Tape :=
  { e with parserFactory := some fun _ => some ⟨[]⟩ }

def secondHead (token : TokenId) (e : VeloEngine CpuMemoryRuntime Tape) : Option (List (ActiveRequest Tape)) :=
  match prepareAll tapeRequests e with
  | (.ok active₀, e') =>
    match round e'.decoder.draftWindow active₀ (oneModels token) with
    | (.ok (.inl active), _) => some active
    | _                      => none
  | _ => none

theorem secondHead_eq_some {e : VeloEngine CpuMemoryRuntime Tape} {active : List (ActiveRequest Tape)}
    (h : secondHead token e = some active) :
    ∃ active₀ e' models, prepareAll tapeRequests e = (.ok active₀, e') ∧
      round e'.decoder.draftWindow active₀ (oneModels token) = (.ok (.inl active), models) := by
  unfold secondHead at h
  split at h
  case h_2 => contradiction
  case h_1 active₀ e' hp =>
    split at h
    case h_2 => contradiction
    case h_1 active models hr =>
      cases h
      exact ⟨active₀, e', models, hp, hr⟩

-- The draft guesses right, the matcher has consumed the prompt and the two tokens that are generated.
theorem matchers_inStep_one : ∃ (e e' : VeloEngine CpuMemoryRuntime Tape) (active₀ active : List (ActiveRequest Tape))
    (models : Models (Repeater 1) (GreedyTargetModel Tape (StatelessBackend Nat))),
    new ⟨2, ⟨1, 4, 8, 2⟩⟩ = .ok e ∧ prepareAll tapeRequests (withTapes e) = (.ok active₀, e') ∧
    round e'.decoder.draftWindow active₀ (oneModels 1) = (.ok (.inl active), models) ∧
    Forall₂ (fun req active => ∀ m₀ ∈ matcherOf (withTapes e) req, InStep m₀ active) tapeRequests active := by
  have ⟨e, he, h⟩ : ∃ e : VeloEngine CpuMemoryRuntime Tape, new ⟨2, ⟨1, 4, 8, 2⟩⟩ = .ok e ∧
      (secondHead 1 (withTapes e)).isSome :=
    ⟨_, rfl, by decide +kernel⟩
  have ⟨active, h⟩ := Option.isSome_iff_exists.mp h
  have ⟨active₀, e', models, hp, hr⟩ := secondHead_eq_some h
  exact ⟨e, e', active₀, active, models, he, hp, hr,
    matchers_inStep (fun _ => rfl) hp (.next .first (fits_one _ _) hr)⟩

-- The draft guesses wrong at once, but the matcher also consumes what the target chooses after that.
theorem exists_not_inStep : ∃ (e e' : VeloEngine CpuMemoryRuntime Tape) (active₀ active : List (ActiveRequest Tape))
    (models : Models (Repeater 0) (GreedyTargetModel Tape (StatelessBackend Nat))),
    new ⟨2, ⟨1, 4, 8, 2⟩⟩ = .ok e ∧ prepareAll tapeRequests (withTapes e) = (.ok active₀, e') ∧
    Eff.Heads (round e'.decoder.draftWindow) active₀ (oneModels 0) active models ∧
    ¬Forall₂ (fun req active => ∀ m₀ ∈ matcherOf (withTapes e) req, InStep m₀ active) tapeRequests active := by
  have ⟨e, he, h⟩ : ∃ e : VeloEngine CpuMemoryRuntime Tape, new ⟨2, ⟨1, 4, 8, 2⟩⟩ = .ok e ∧
      (secondHead 0 (withTapes e)).map (·.map fun active => (active.matcher, active.session.prompt, active.generated)) =
        some [(some ⟨[1, 1, 1]⟩, [1], [1])] :=
    ⟨_, rfl, by decide +kernel⟩
  have ⟨active, h, hviews⟩ := Option.map_eq_some_iff.mp h
  have ⟨active₀, e', models, hp, hr⟩ := secondHead_eq_some h
  refine ⟨e, e', active₀, active, models, he, hp, .step .refl hr, fun hall => ?_⟩
  have ⟨a, ha, hin⟩ := forall₂_getElem? hall (rfl : tapeRequests[0]? = some _)
  have hview := congrArg (·[0]?) hviews
  simp only [getElem?_map, ha, Option.map_some, getElem?_cons_zero, Option.some.injEq, Prod.mk.injEq] at hview
  have hmatcher := (hin ⟨[]⟩ rfl).matcher
  rw [hview.left, hview.right.left, hview.right.right] at hmatcher
  exact absurd hmatcher (by decide)

end VeloEngine
