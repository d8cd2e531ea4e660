import Mathlib
import VeloCore.Primitives.Related
import VeloCore.Execution.Engine.Theorems.Phases
import VeloCore.Execution.Engine.Theorems.Stable
import VeloCore.Execution.Engine.Theorems.Rounds
import VeloCore.Objects.Speculative.Theorems.Batch

open List

-- The answers of the models do not depend on what they were told about slots and prefixes. `D` relates the states in
-- which they go on alike.
structure DraftModel.Blind [DraftModel μ δ] (D : δ → δ → Prop) : Prop where
  bindSlot d d' slot slot' : D d d' → (DraftModel.bindSlot slot d).1 = (DraftModel.bindSlot slot' d').1 ∧
    D (DraftModel.bindSlot slot d).2 (DraftModel.bindSlot slot' d').2
  bindPrefixCache d d' cached cached' : D d d' →
    (DraftModel.bindPrefixCache cached d).1 = (DraftModel.bindPrefixCache cached' d').1 ∧
    D (DraftModel.bindPrefixCache cached d).2 (DraftModel.bindPrefixCache cached' d').2
  draftBatch d d' requests : D d d' →
    (DraftModel.draftBatch requests d).1 = (DraftModel.draftBatch requests d').1 ∧
    D (DraftModel.draftBatch requests d).2.2 (DraftModel.draftBatch requests d').2.2

structure TargetModel.Blind [TargetModel μ τ] (T : τ → τ → Prop) : Prop where
  bindSlot t t' slot slot' : T t t' → (TargetModel.bindSlot slot t).1 = (TargetModel.bindSlot slot' t').1 ∧
    T (TargetModel.bindSlot slot t).2 (TargetModel.bindSlot slot' t').2
  bindPrefixCache t t' cached cached' : T t t' →
    (TargetModel.bindPrefixCache cached t).1 = (TargetModel.bindPrefixCache cached' t').1 ∧
    T (TargetModel.bindPrefixCache cached t).2 (TargetModel.bindPrefixCache cached' t').2
  verifyBatch t t' requests : T t t' →
    (TargetModel.verifyBatch requests t).1 = (TargetModel.verifyBatch requests t').1 ∧
    (TargetModel.verifyBatch requests t).2.1 = (TargetModel.verifyBatch requests t').2.1 ∧
    T (TargetModel.verifyBatch requests t).2.2 (TargetModel.verifyBatch requests t').2.2

-- The batches that take one request after the other are as blind as what they do for each of them.
theorem batchEach_blind {α ρ : Type} {one : ρ → δ → Except SpeculativeError α × Option μ × δ} {matcher : ρ → Option μ}
    {D : δ → δ → Prop} (h : ∀ r d d', D d d' →
      (one r d).1 = (one r d').1 ∧ (one r d).2.1 = (one r d').2.1 ∧ D (one r d).2.2 (one r d').2.2) (rs : List ρ) {d d' : δ}
    (hd : D d d') : (batchEach one matcher rs d).1 = (batchEach one matcher rs d').1 ∧
      (batchEach one matcher rs d).2.1 = (batchEach one matcher rs d').2.1 ∧
      D (batchEach one matcher rs d).2.2 (batchEach one matcher rs d').2.2 := by
  induction rs generalizing d d'
  case nil => exact ⟨rfl, rfl, hd⟩
  case cons r rs hi =>
    have hone := h r d d' hd
    rcases ho : one r d with ⟨r₁, m, d₁⟩
    rcases ho' : one r d' with ⟨r₁', m', d₁'⟩
    rw [ho, ho'] at hone
    obtain ⟨hr, hm, hd₁⟩ := hone
    cases hr
    cases hm
    cases r₁
    case error => simp only [batchEach, ho, ho', hd₁, and_self]
    case ok a =>
      have hrest := hi hd₁
      rcases hb : batchEach one matcher rs d₁ with ⟨r₂, ms, d₂⟩
      rcases hb' : batchEach one matcher rs d₁' with ⟨r₂', ms', d₂'⟩
      rw [hb, hb'] at hrest
      obtain ⟨hr₂, hms, hd₂⟩ := hrest
      cases hr₂
      cases hms
      cases r₂
      case error => simp only [batchEach, ho, ho', hb, hb', hd₂, and_self]
      case ok    => simp only [batchEach, ho, ho', hb, hb', hd₂, and_self]

theorem Guesser.blind {g : List TokenId → TokenId} : DraftModel.Blind fun _ _ : Guesser g => True where
  bindSlot _ _ _ _ _        := ⟨rfl, trivial⟩
  bindPrefixCache _ _ _ _ _ := ⟨rfl, trivial⟩
  draftBatch _ _ requests _ :=
    ⟨(batchEach_blind (D := fun _ _ => True) (fun _ _ _ _ => ⟨rfl, rfl, trivial⟩) requests trivial).left, trivial⟩

-- The calls are counted, but this does not show.
theorem Oracle.blind {f : List TokenId → TokenId} : TargetModel.Blind fun _ _ : Oracle f => True where
  bindSlot _ _ _ _ _         := ⟨rfl, trivial⟩
  bindPrefixCache _ _ _ _ _  := ⟨rfl, trivial⟩
  verifyBatch _ _ requests _ := batchEach_blind (D := fun _ _ => True) (fun _ _ _ _ => ⟨rfl, rfl, trivial⟩) requests trivial

namespace ActiveRequest

-- A request without what it was given of the memory
def bare (req : ActiveRequest μ) : ActiveRequest μ :=
  { req with
    slotId := 0
    prefill := ⟨⟨0, none⟩, none, none, none, ⟨0, 0, {}⟩⟩ }

theorem recordDraftCall_bare (req : ActiveRequest μ) : req.recordDraftCall.bare = req.bare.recordDraftCall :=
  rfl

theorem recordTargetCall_bare (req : ActiveRequest μ) : req.recordTargetCall.bare = req.bare.recordTargetCall :=
  rfl

theorem commit_bare {req : ActiveRequest μ} : req.bare.commit drafted verified = (req.commit drafted verified).map bare := by
  simp only [commit, bare]
  rcases req.session.commit drafted verified with ⟨e | accepted, s⟩
  case error => rfl
  case ok =>
    dsimp only
    split
    case isFalse => rfl
    case isTrue =>
      rcases s.takeRejectedToken with ⟨_ | token, s'⟩
      all_goals rfl

end ActiveRequest

namespace VeloEngine

open ActiveRequest

variable {μ δ τ : Type} [CfgMatcher μ] [DraftModel μ δ] [TargetModel μ τ] {active active' : List (ActiveRequest μ)}

omit [CfgMatcher μ] in
theorem activeIndices_bare : activeIndices (active.map bare) = activeIndices active := by
  simp only [activeIndices, zipIdx_map, filter_map, List.map_map]
  rfl

theorem draftRequests_bare : draftRequests w (active.map bare) = draftRequests w active := by
  have hzip : (active.map bare).zip ((active.map bare).map (·.matcher.map CfgMatcher.cloneBox)) =
      (active.zip (active.map (·.matcher.map CfgMatcher.cloneBox))).map (Prod.map bare id) := by
    rw [List.map_map, zip_map_left]
    rfl
  dsimp only [draftRequests]
  rw [hzip, filter_map, List.map_map]
  rfl

omit [CfgMatcher μ] in
theorem modifyAll_bare {f : ActiveRequest μ → ActiveRequest μ} (h : ∀ req, (f req).bare = f req.bare) (indices : List Nat) :
    (modifyAll f indices active).map bare = modifyAll f indices (active.map bare) := by
  induction indices generalizing active
  case nil => rfl
  case cons i indices hi =>
    have hmodify : (active.modify i f).map bare = (active.map bare).modify i f := by
      refine ext_getElem? fun j => ?_
      rw [getElem?_map, getElem?_modify, getElem?_modify, getElem?_map]
      cases active[j]?
      case none     => rfl
      case some req => by_cases hij : i = j <;> simp [hij, h]
    have hnext : (modifyAll f indices (active.modify i f)).map bare = modifyAll f indices ((active.modify i f).map bare) := hi
    rw [hmodify] at hnext
    exact hnext

omit [CfgMatcher μ] in
theorem verifyRequests_bare : verifyRequests (active.map bare) drafted = verifyRequests active drafted := by
  simp only [verifyRequests, filter_map, zip_map_left, List.map_map]
  rfl

omit [CfgMatcher μ] in
theorem returnMatchers_bare (ms : List (Option μ)) :
    (returnMatchers active ms).map bare = returnMatchers (active.map bare) ms := by
  induction active generalizing ms
  case nil => rfl
  case cons req reqs hi =>
    have hunfinished : req.bare.unfinished = req.unfinished := rfl
    simp only [returnMatchers, map_cons, hunfinished]
    split
    case isFalse => rw [map_cons, hi]
    case isTrue =>
      cases ms
      case nil  => rfl
      case cons => simp only [map_cons, hi]; rfl

-- Lists of requests that differ in what they were given of the memory only
def Twins (active active' : List (ActiveRequest μ)) : Prop :=
  active.map bare = active'.map bare

omit [CfgMatcher μ] in
theorem Twins.modifyAll {f : ActiveRequest μ → ActiveRequest μ} (h : Twins active active') (hf : ∀ req, (f req).bare = f req.bare)
    (indices : List Nat) : Twins (modifyAll f indices active) (modifyAll f indices active') := by
  rw [Twins, modifyAll_bare hf, modifyAll_bare hf, h]

-- Models that go on alike
def Alike (D : δ → δ → Prop) (T : τ → τ → Prop) (m m' : Models δ τ) : Prop :=
  D m.draft m'.draft ∧ T m.target m'.target

section Rounds

variable {D : δ → δ → Prop} {T : τ → τ → Prop}

theorem onDraft_related {f f' : δ → Except SpeculativeError α × δ} (h : ∀ d d', D d d' → (f d).1 = (f' d').1 ∧ D (f d).2 (f' d').2) :
    Eff.Related (Alike D T) Eq (Models.onDraft f) (Models.onDraft f') :=
  .zoom (.call h) (fun _ _ h => h.left) fun _ _ _ _ h hd => ⟨hd, h.right⟩

theorem onTarget_related {f f' : τ → Except SpeculativeError α × τ} (h : ∀ t t', T t t' → (f t).1 = (f' t').1 ∧ T (f t).2 (f' t').2) :
    Eff.Related (Alike D T) Eq (Models.onTarget f) (Models.onTarget f') :=
  .zoom (.call h) (fun _ _ h => h.right) fun _ _ _ _ h ht => ⟨h.left, ht⟩

omit [CfgMatcher μ] in
theorem bindAll_blind (hδ : DraftModel.Blind D) (hτ : TargetModel.Blind T) (hlen : active.length = active'.length) :
    Eff.Related (Alike D T) Eq (bindAll (δ := δ) (τ := τ) active) (bindAll active') := by
  induction active generalizing active'
  case nil =>
    obtain rfl := length_eq_zero_iff.mp hlen.symm
    exact .pure rfl
  case cons req reqs hi =>
    cases active'
    case nil => simp at hlen
    case cons req' reqs' =>
      refine .bind (V := Eq) ?_ fun _ _ _ => hi (Nat.succ.inj hlen)
      refine .bind (onDraft_related fun d d' => hδ.bindSlot d d' _ _) fun _ _ _ => ?_
      refine .bind (onTarget_related fun t t' => hτ.bindSlot t t' _ _) fun _ _ _ => ?_
      refine .bind (onDraft_related fun d d' => hδ.bindPrefixCache d d' _ _) fun _ _ _ => ?_
      exact onTarget_related fun t t' => hτ.bindPrefixCache t t' _ _

omit [CfgMatcher μ] in
theorem commitAll_blind (draftResults : List (List NextTokenPrediction)) (verifyResults : List (List VerifyStep))
    (indices : List (Nat × Nat)) (h : Twins active active') {S : σ → σ → Prop} :
    Eff.Related S Twins (commitAll draftResults verifyResults indices active)
      (commitAll draftResults verifyResults indices active') := by
  induction indices generalizing active active'
  case nil => exact .pure h
  case cons index indices hi =>
    refine .bind ?_ fun _ _ h => hi h
    refine .bind (.index h index.1) fun req req' hreq => ?_
    refine .bind (.index (f := id) (g := id) rfl index.2) fun drafted _ hd => ?_
    refine .bind (.index (f := id) (g := id) rfl index.2) fun verified _ hv => ?_
    cases hd
    cases hv
    have hcommit : (req.commit drafted verified).map bare = (req'.commit drafted verified).map bare := by
      rw [← commit_bare, ← commit_bare, hreq]
    rcases hc : req.commit drafted verified with e | req₁ <;> rcases hc' : req'.commit drafted verified with e' | req₁' <;>
      rw [hc, hc'] at hcommit
    case error.error =>
      cases hcommit
      exact .throw e
    case error.ok => cases hcommit
    case ok.error => cases hcommit
    case ok.ok =>
      have hbare : req₁.bare = req₁'.bare := Except.ok.inj hcommit
      refine .pure ?_
      rw [Twins, map_set, map_set, hbare, h]

theorem round_blind (hδ : DraftModel.Blind D) (hτ : TargetModel.Blind T) (w : Nat) (h : Twins active active') :
    Eff.Related (Alike D T) (Sum.LiftRel Twins Twins) (round (δ := δ) (τ := τ) w active) (round w active') := by
  have hany : active.any (·.unfinished) = active'.any (·.unfinished) := by
    have hbare (l : List (ActiveRequest μ)) : (l.map bare).any (·.unfinished) = l.any (·.unfinished) := by
      rw [any_map]
      rfl
    rw [← hbare, h, hbare]
  have hindices : activeIndices active = activeIndices active' := by
    rw [← activeIndices_bare, h, activeIndices_bare]
  have hrequests : draftRequests w active = draftRequests w active' := by
    rw [← draftRequests_bare, h, draftRequests_bare]
  unfold round
  rw [hany, hindices, hrequests]
  split
  case isFalse => exact .pure (.inr h)
  case isTrue =>
    refine .bind (V := Eq) (onDraft_related fun d d' hd => hδ.draftBatch d d' _ hd) fun results _ hresults => ?_
    cases hresults
    have h₁ : Twins (modifyAll recordDraftCall (activeIndices active') active)
        (modifyAll recordDraftCall (activeIndices active') active') := h.modifyAll recordDraftCall_bare _
    refine .bind (V := Eq) ?_ fun drafted _ hdrafted => ?_
    case refine_1 =>
      unfold draftedTokens
      split
      case isTrue  => exact .pure rfl
      case isFalse => exact .panic
    case refine_2 =>
      cases hdrafted
      have hverify : verifyRequests (modifyAll recordDraftCall (activeIndices active') active) drafted =
          verifyRequests (modifyAll recordDraftCall (activeIndices active') active') drafted := by
        rw [← verifyRequests_bare, h₁, verifyRequests_bare]
      rw [hverify]
      refine .bind (V := Eq) (onTarget_related fun t t' ht => ?_) fun verified _ hverified => ?_
      case refine_1 =>
        obtain ⟨hsteps, hms, hlast⟩ := hτ.verifyBatch t t' _ ht
        exact ⟨by dsimp only; rw [hsteps, hms], hlast⟩
      case refine_2 =>
        cases hverified
        have h₂ : Twins (returnMatchers (modifyAll recordDraftCall (activeIndices active') active) verified.2)
            (returnMatchers (modifyAll recordDraftCall (activeIndices active') active') verified.2) := by
          rw [Twins, returnMatchers_bare, returnMatchers_bare, h₁]
        exact .bind (commitAll_blind results verified.1 _ (h₂.modifyAll recordTargetCall_bare _)) fun _ _ h => .pure (.inl h)

end Rounds
-- What a batch takes from the engine but memory
def Settings (decoder : SpeculativeDecoder) (parserFactory : Option (Constraint → Option μ)) {R : Type} (e : VeloEngine R μ) :
    Prop :=
  e.decoder = decoder ∧ e.parserFactory = parserFactory

section Settings

variable {R : Type} [MemoryRuntime R] {e e' : VeloEngine R μ} {decoder : SpeculativeDecoder}
  {parserFactory : Option (Constraint → Option μ)}

omit [CfgMatcher μ] in
theorem stable_settings : Stable (Settings decoder parserFactory : VeloEngine R μ → Prop) :=
  .of_frame fun _ _ _ => id

-- A request as a batch begins with it
def begun (decoder : SpeculativeDecoder) (parserFactory : Option (Constraint → Option μ)) (req : BatchRequest) :
    ActiveRequest μ :=
  bare {
    session := decoder.begin req.prompt
    slotId := 0
    maxNewTokens := req.maxNewTokens
    generated := []
    prefill := ⟨⟨0, none⟩, none, none, none, ⟨0, 0, {}⟩⟩
    matcher := (req.constraint.bind fun constraint => parserFactory.bind (· constraint)).map fun m =>
      req.prompt.foldl (fun m token => CfgMatcher.advance token m) m }

theorem prepare_bare {req : BatchRequest} {active : ActiveRequest μ} (hs : Settings decoder parserFactory e)
    (h : prepare req e = (.ok active, e')) : active.bare = begun decoder parserFactory req ∧ Settings decoder parserFactory e' := by
  obtain ⟨slot, _, ha, h⟩ := Eff.bind_eq_ok_iff.mp h
  obtain ⟨pool, _, rfl⟩ := allocateSlot_eq_ok ha
  obtain ⟨out, e₂, hp, h⟩ := Eff.bind_eq_ok_iff.mp h
  have hs₂ : Settings decoder parserFactory e₂ := by
    have hkeep := stable_settings.prefill req.prompt { e with slotPool := pool } hs
    rwa [hp] at hkeep
  cases hpages : out.insertedPages.or out.cachedPages <;> simp only [hpages] at h
  case none => cases h
  case some pages =>
    obtain ⟨_, e₃, hb, h⟩ := Eff.bind_eq_ok_iff.mp h
    have hs₃ : Settings decoder parserFactory e₃ := by
      have hkeep := stable_settings.bindSlot slot (pages.pages.map UInt32.ofNat) e₂ hs₂
      rwa [hb] at hkeep
    cases h
    refine ⟨?_, hs₃⟩
    obtain ⟨rfl, rfl⟩ := hs₃
    rfl

theorem prepareAll_bare {reqs : List BatchRequest} {active : List (ActiveRequest μ)} (hs : Settings decoder parserFactory e)
    (h : prepareAll reqs e = (.ok active, e')) :
    active.map bare = reqs.map (begun decoder parserFactory) ∧ Settings decoder parserFactory e' := by
  induction reqs generalizing e active
  case nil =>
    cases h
    exact ⟨rfl, hs⟩
  case cons req reqs hi =>
    obtain ⟨first, rest, e₁, hr, hrest, rfl⟩ := prepareAll_cons_eq_ok h
    obtain ⟨hbare, hs₁⟩ := prepare_bare hs hr
    obtain ⟨hbares, hs'⟩ := hi hs₁ hrest
    exact ⟨by rw [map_cons, map_cons, hbare, hbares], hs'⟩

omit [CfgMatcher μ] in
theorem wrapUp_answers {reqs : List (ActiveRequest μ)} {outs : List EngineOutput} (hs : Settings decoder parserFactory e)
    (h : wrapUp reqs e = (.ok outs, e')) :
    outs.map (fun out => (out.tokens, out.stats.speculative)) = reqs.map (fun req => (req.generated, req.session.stats)) ∧
      Settings decoder parserFactory e' := by
  induction reqs generalizing e outs
  case nil =>
    cases h
    exact ⟨rfl, hs⟩
  case cons req reqs hi =>
    obtain ⟨out, rest, e₁, hf, hrest, rfl⟩ := wrapUp_cons_eq_ok h
    obtain ⟨_, e₂, hrelease, hf⟩ := Eff.bind_eq_ok_iff.mp hf
    obtain ⟨pool, _, rfl⟩ := releaseSlot_eq_ok hrelease
    obtain ⟨handle, e₃, hc, hf⟩ := Eff.bind_eq_ok_iff.mp hf
    have hs₃ : Settings decoder parserFactory e₃ := by
      have hkeep := stable_settings.cacheSequenceIf (p := req.fullSequence ≠ []) id { e with slotPool := pool } hs
      rwa [hc] at hkeep
    cases hf
    obtain ⟨hanswers, hs'⟩ := hi hs₃ hrest
    exact ⟨by rw [map_cons, map_cons, hanswers], hs'⟩

end Settings
end VeloEngine

namespace Machine

open VeloEngine

variable {R R' μ δ τ : Type} [MemoryRuntime R] [MemoryRuntime R'] [CfgMatcher μ] [DraftModel μ δ] [TargetModel μ τ]
  {D : δ → δ → Prop} {T : τ → τ → Prop} {reqs : List BatchRequest} {m n : Machine R μ δ τ} {m' n' : Machine R' μ δ τ}
  {outs outs' : List EngineOutput}

-- Engines with the same settings, on whatever memory, with models that go on alike
def Equipped (D : δ → δ → Prop) (T : τ → τ → Prop) (m : Machine R μ δ τ) (m' : Machine R' μ δ τ) : Prop :=
  Settings m.engine.decoder m.engine.parserFactory m'.engine ∧ Alike D T m.models m'.models

theorem generateBatch_alike (hδ : DraftModel.Blind D) (hτ : TargetModel.Blind T) (he : Equipped D T m m')
    (h : generateBatch fuel reqs m = (.ok outs, n)) (h' : generateBatch fuel reqs m' = (.ok outs', n')) :
    outs.map (fun out => (out.tokens, out.stats.speculative)) = outs'.map (fun out => (out.tokens, out.stats.speculative)) ∧
      Equipped D T n n' := by
  obtain ⟨active, m₁, hd, hw⟩ := Eff.bind_eq_ok_iff.mp h
  obtain ⟨active', m₁', hd', hw'⟩ := Eff.bind_eq_ok_iff.mp h'
  obtain ⟨hw, hn⟩ := onEngine_eq_ok hw
  obtain ⟨hw', hn'⟩ := onEngine_eq_ok hw'
  obtain ⟨active₀, models₀, hp, hb, hl⟩ := decode_eq_ok hd
  obtain ⟨active₀', models₀', hp', hb', hl'⟩ := decode_eq_ok hd'
  obtain ⟨hbare, hs₁⟩ := prepareAll_bare (⟨rfl, rfl⟩ : Settings m.engine.decoder m.engine.parserFactory m.engine) hp
  obtain ⟨hbare', hs₁'⟩ := prepareAll_bare he.left hp'
  have htwins₀ : Twins active₀ active₀' := hbare.trans hbare'.symm
  have hlen : active₀.length = active₀'.length := by
    simpa using congrArg length htwins₀
  obtain ⟨_, hmodels₀⟩ := (bindAll_blind hδ hτ hlen).ok he.right hb hb'
  have hwindow : m₁'.engine.decoder.draftWindow = m₁.engine.decoder.draftWindow := by
    rw [hs₁.left, hs₁'.left]
  rw [hwindow] at hl'
  have hloop := Eff.Related.loop (fun _ _ h => round_blind hδ hτ m₁.engine.decoder.draftWindow h) fuel htwins₀
  obtain ⟨htwins, hmodels⟩ := hloop.ok hmodels₀ hl hl'
  obtain ⟨hanswers, hs⟩ := wrapUp_answers hs₁ hw
  obtain ⟨hanswers', hs'⟩ := wrapUp_answers hs₁' hw'
  refine ⟨?_, ?_, ?_⟩
  case refine_1 =>
    have hbares : active.map (fun req => (req.generated, req.session.stats)) =
        active'.map (fun req => (req.generated, req.session.stats)) := by
      have h := congrArg (map fun req => (req.generated, req.session.stats)) htwins
      rwa [List.map_map, List.map_map] at h
    exact hanswers.trans (hbares.trans hanswers'.symm)
  case refine_2 => rwa [hs.left, hs.right]
  case refine_3 => rwa [hn, hn']

-- A run of batches, each with what was returned for it. Before each of them, anything may have happened to the memory.
inductive Answers (fuel : Nat) : Machine R μ δ τ → List (List BatchRequest × List EngineOutput) → Prop
  | nil m : Answers fuel m []
  | cons e m n reqs outs rest : Settings m.engine.decoder m.engine.parserFactory e →
    generateBatch fuel reqs ⟨e, m.models⟩ = (.ok outs, n) → Answers fuel n rest → Answers fuel m ((reqs, outs) :: rest)

-- Whatever the runtimes, and whatever the caches, the slots and the pages hold before each batch, the same requests get
-- the same tokens, in the same number of calls.
theorem answers_alike (hδ : DraftModel.Blind D) (hτ : TargetModel.Blind T) (he : Equipped D T m m')
    {calls calls' : List (List BatchRequest × List EngineOutput)} (hreqs : calls.map (·.1) = calls'.map (·.1))
    (h : Answers fuel m calls) (h' : Answers fuel m' calls') :
    calls.map (fun call => call.2.map fun out => (out.tokens, out.stats.speculative)) =
      calls'.map fun call => call.2.map fun out => (out.tokens, out.stats.speculative) := by
  induction h generalizing m' calls'
  case nil =>
    cases h'
    case nil  => rfl
    case cons => cases hreqs
  case cons e m n reqs outs rest hs hb _ hi =>
    cases h'
    case nil => cases hreqs
    case cons e' n' reqs' outs' rest' hrest' hs' hb' =>
      simp only [map_cons, cons.injEq] at hreqs
      obtain ⟨rfl, hreqs⟩ := hreqs
      have he₁ : Equipped D T (⟨e, m.models⟩ : Machine R μ δ τ) (⟨e', m'.models⟩ : Machine R' μ δ τ) := by
        refine ⟨?_, he.right⟩
        obtain ⟨hdecoder, hfactory⟩ := he.left
        rw [hdecoder, hfactory] at hs'
        rwa [← hs.left, ← hs.right] at hs'
      obtain ⟨hanswers, he'⟩ := generateBatch_alike hδ hτ he₁ hb hb'
      rw [map_cons, map_cons, hanswers, hi he' hreqs hrest']

-- The pages of the other engine are smaller, and its target has been in use.
theorem answers_alike_pair : ∃ (e e' : VeloEngine CpuMemoryRuntime Empty) (outs outs' : List EngineOutput),
    VeloEngine.new ⟨2, ⟨1, 4, 8, 2⟩⟩ = .ok e ∧ VeloEngine.new ⟨2, ⟨1, 2, 16, 4⟩⟩ = .ok e' ∧
    Answers 6 ⟨e, ⟨(⟨⟩ : Guesser List.sum), (⟨0⟩ : Oracle List.sum)⟩⟩ [([⟨[1, 2], 3, none⟩], outs)] ∧
    Answers 6 ⟨e', ⟨(⟨⟩ : Guesser List.sum), (⟨7⟩ : Oracle List.sum)⟩⟩ [([⟨[1, 2], 3, none⟩], outs')] ∧
    [outs.map fun out => (out.tokens, out.stats.speculative)] = [outs'.map fun out => (out.tokens, out.stats.speculative)] := by
  obtain ⟨e, he, hok⟩ : ∃ e : VeloEngine CpuMemoryRuntime Empty, VeloEngine.new ⟨2, ⟨1, 4, 8, 2⟩⟩ = .ok e ∧
      (generateBatch 6 [⟨[1, 2], 3, none⟩] ⟨e, ⟨(⟨⟩ : Guesser List.sum), (⟨0⟩ : Oracle List.sum)⟩⟩).1.toOption.isSome = true :=
    ⟨_, rfl, by decide +kernel⟩
  obtain ⟨e', he', hsettings, hok'⟩ : ∃ e' : VeloEngine CpuMemoryRuntime Empty, VeloEngine.new ⟨2, ⟨1, 2, 16, 4⟩⟩ = .ok e' ∧
      Settings ⟨2, 4, by decide⟩ none e' ∧
      (generateBatch 6 [⟨[1, 2], 3, none⟩] ⟨e', ⟨(⟨⟩ : Guesser List.sum), (⟨7⟩ : Oracle List.sum)⟩⟩).1.toOption.isSome = true :=
    ⟨_, rfl, ⟨rfl, rfl⟩, by decide +kernel⟩
  have hsettings₀ : e.decoder = ⟨2, 4, by decide⟩ ∧ e.parserFactory = none := by
    cases he
    exact ⟨rfl, rfl⟩
  rcases hb : generateBatch 6 [⟨[1, 2], 3, none⟩] ⟨e, ⟨(⟨⟩ : Guesser List.sum), (⟨0⟩ : Oracle List.sum)⟩⟩ with ⟨_ | outs, n⟩
  case error => simp [hb, Except.toOption] at hok
  case ok =>
    rcases hb' : generateBatch 6 [⟨[1, 2], 3, none⟩] ⟨e', ⟨(⟨⟩ : Guesser List.sum), (⟨7⟩ : Oracle List.sum)⟩⟩ with ⟨_ | outs', n'⟩
    case error => simp [hb', Except.toOption] at hok'
    case ok =>
      have h := Answers.cons e ⟨e, ⟨⟨⟩, ⟨0⟩⟩⟩ n _ outs [] ⟨rfl, rfl⟩ hb (.nil n)
      have h' := Answers.cons e' ⟨e', ⟨⟨⟩, ⟨7⟩⟩⟩ n' _ outs' [] ⟨rfl, rfl⟩ hb' (.nil n')
      refine ⟨e, e', outs, outs', he, he', h, h', answers_alike Guesser.blind Oracle.blind ⟨?_, trivial, trivial⟩ ?_ h h'⟩
      case refine_1 => rwa [hsettings₀.left, hsettings₀.right]
      case refine_2 => rfl

end Machine
