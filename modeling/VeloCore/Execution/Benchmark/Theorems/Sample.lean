import Mathlib
import VeloCore.Execution.Benchmark.Theorems.Measured
import VeloCore.Execution.Engine.Theorems.Warm
import VeloCore.Objects.Backend.Theorems.Mock

open List MemoryRuntime

namespace VeloEngine

variable {μ : Type} {e e' : VeloEngine CpuMemoryRuntime μ} {config : EngineConfig} {sequence prompt : List TokenId}

-- The cache has the sequence and nothing else, and evicts nothing.
structure Just (sequence : List TokenId) (e : VeloEngine CpuMemoryRuntime μ) : Prop extends Unlimited e where
  entry : sequence ≠ [] → e.prefixCache.entries sequence ≠ none
  only  : ∀ key, e.prefixCache.entries key ≠ none → key = sequence ∧ key ≠ []

theorem Just.known_eq (j : Just sequence e) (hp : sequence <+: prompt) : e.known prompt = sequence.length := by
  refine Nat.le_antisymm ?_ ?_
  case refine_1 =>
    rw [known]
    cases hl : longestPrefix e.prefixCache.entries prompt
    case none => exact Nat.zero_le _
    case some res =>
      obtain ⟨_, hentry, _⟩ := longestPrefix_eq_some_iff.mp hl
      obtain ⟨hkey, _⟩ := j.only _ (by rw [hentry]; exact Option.some_ne_none _)
      rw [← hkey, length_take]
      simp_all
  case refine_2 =>
    by_cases hnil : sequence = []
    case pos => rw [hnil]; exact Nat.zero_le _
    case neg => exact le_longestPrefix hp (j.entry hnil)

-- A new engine knows nothing.
theorem just_new (h : new config = .ok e) : Just [] e ∧ SpeculativeDecoder.new config.draftWindow = .ok e.decoder := by
  obtain ⟨_, u, _⟩ := uncapped_new h
  unfold new at h
  split at h
  case h_1 => contradiction
  case h_2 r _ =>
    unfold withRuntime at h
    split at h
    case h_1 => contradiction
    case h_2 decoder hd =>
      cases h
      refine ⟨⟨⟨u.coherent, u.capacity⟩, fun hne => absurd rfl hne, fun key hkey => absurd ?_ hkey⟩, hd⟩
      rw [RadixCache.entries_new]

-- The first prefill saves its prompt.
theorem Just.prefill (j : Just [] e) (hne : sequence ≠ []) (h : prefill sequence e = (.ok out, e')) :
    Just sequence e' ∧ e'.decoder = e.decoder := by
  rcases prefill_cases j.coherent sequence with ⟨out', e₁, hok, hp⟩ | ⟨_, _, herr, _⟩
  case inr => cases h.symm.trans herr
  case inl =>
    cases h.symm.trans hok
    cases hp
    case empty hnil _ => exact absurd hnil hne
    case hit handle _ hentry _ _ _ _ =>
      have hsome : e.prefixCache.entries sequence = some handle := hentry
      exact absurd (j.only sequence (by simp [hsome])).left hne
    case miss handle _ _ s _ =>
      have hentries : e'.prefixCache.entries = Function.update e.prefixCache.entries sequence (some handle) :=
        congrArg Memory.entries (s.memory_eq j.toUnlimited)
      refine ⟨⟨⟨s.coherent, s.frame.capacity.trans j.capacity⟩, fun _ => by simp [hentries], fun key hkey => ?_⟩, s.frame.decoder⟩
      by_cases heq : key = sequence
      case pos => exact ⟨heq, heq ▸ hne⟩
      case neg =>
        rw [hentries, Function.update_of_ne heq] at hkey
        obtain ⟨hnil, hcons⟩ := j.only key hkey
        exact absurd hnil hcons

-- What the next prefill reports
theorem Just.stats_eq (j : Just sequence e) (hp : sequence <+: prompt) (h : VeloEngine.prefill prompt e = (.ok out, e')) :
    out.stats = ⟨sequence.length, prompt.length - sequence.length, {}⟩ ∧ e'.decoder = e.decoder := by
  have r : Remembers (fun _ => False) e := ⟨j.toUnlimited, nofun⟩
  obtain ⟨hhit, hsum, _⟩ := prefill_known r h
  rw [j.known_eq hp] at hhit
  have hspeculative : out.stats.speculative = {} := by
    rw [VeloEngine.prefill] at h
    obtain ⟨_, _, _, h⟩ := Eff.bind_eq_ok_iff.mp h
    obtain ⟨_, _, _, h⟩ := Eff.bind_eq_ok_iff.mp h
    cases h
    rfl
  refine ⟨?_, ?_⟩
  case refine_1 =>
    have hmisses : out.stats.cacheMissTokens = prompt.length - sequence.length := by omega
    rw [← hspeculative, ← hmisses, ← hhit]
  case refine_2 =>
    have hstable : Stable fun e' : VeloEngine CpuMemoryRuntime μ => e'.decoder = e.decoder := .of_frame fun _ _ _ => id
    have hkeep := hstable.prefill prompt e rfl
    rwa [h] at hkeep

end VeloEngine

namespace Benchmark

section Generation

variable {R μ δ τ : Type} [MemoryRuntime R] [DraftModel μ δ] [TargetModel μ τ] {m m' : Machine R μ δ τ}
  {prompt : List TokenId} {trace : GenerationTrace} {f : List TokenId → TokenId} {D : δ → Prop} {T : τ → Prop}

-- With models that agree, the generation has all its tokens, in as few rounds as the windows allow.
theorem runGenerationWithTtft_agreeing (ha : SpeculativeDecoder.Agreeing f prompt n D T)
    (hd : ∀ d cached, D d → D (DraftModel.bindPrefixCache cached d).2)
    (ht : ∀ t cached, T t → T (TargetModel.bindPrefixCache cached t).2) (hD : D m.models.draft) (hT : T m.models.target)
    (hfuel : n < fuel) (h : runGenerationWithTtft elapsed fuel prompt n m = (.ok trace, m')) :
    ∃ cached e rounds, VeloEngine.prefill prompt m.engine = (.ok cached, e) ∧
      (∀ k, k < rounds ↔ e.decoder.reach k < n) ∧ trace.output.tokens = greedy f prompt n ∧
      trace.output.stats = ⟨cached.stats.cacheHitTokens, cached.stats.cacheMissTokens, ⟨rounds, rounds, n, n, 0⟩⟩ ∧
      (trace.ttftNs.isSome = true ↔ 0 < n) := by
  obtain ⟨cached, m₁, hprefill, h⟩ := Eff.bind_eq_ok_iff.mp h
  obtain ⟨_, m₂, hdraft, h⟩ := Eff.bind_eq_ok_iff.mp h
  obtain ⟨_, m₃, htarget, h⟩ := Eff.bind_eq_ok_iff.mp h
  obtain ⟨_, _, hget, h⟩ := Eff.bind_eq_ok_iff.mp h
  cases hget
  obtain ⟨v, m₄, hl, h⟩ := Eff.bind_eq_ok_iff.mp h
  cases h
  obtain ⟨hprefill, hmodels⟩ := Machine.onEngine_eq_ok hprefill
  obtain ⟨hdraft, hengine₂⟩ := Machine.onModels_eq_ok hdraft
  obtain ⟨htarget, hengine₃⟩ := Machine.onModels_eq_ok htarget
  obtain ⟨hl, _⟩ := Machine.onModels_eq_ok hl
  have hD₃ : D m₃.models.draft ∧ T m₃.models.target := by
    obtain ⟨_, hdraft, hm₂⟩ := Eff.zoom_eq_ok_iff.mp hdraft
    obtain ⟨_, htarget, hm₃⟩ := Eff.zoom_eq_ok_iff.mp htarget
    have hd' := hd m₁.models.draft cached.cachedPrefix (hmodels ▸ hD)
    have ht' := ht m₂.models.target cached.cachedPrefix (by rw [hm₂]; exact hmodels ▸ hT)
    rw [Eff.call_eq_ok_iff.mp hdraft] at hd'
    rw [Eff.call_eq_ok_iff.mp htarget] at ht'
    rw [hm₃]
    refine ⟨?_, ht'⟩
    rw [hm₂]
    exact hd'
  set decoder := m₃.engine.decoder with hdecoder
  obtain ⟨rounds, hr⟩ := SpeculativeDecoder.exists_rounds decoder n
  obtain ⟨hle, _⟩ := SpeculativeDecoder.rounds_le hr
  obtain ⟨models, hloop⟩ : ∃ models, Eff.loop (SpeculativeDecoder.iteration n) fuel (decoder.after f prompt n 0) m₃.models =
      (.ok (decoder.after f prompt n rounds), models) :=
    SpeculativeDecoder.loop_agreeing ha hr (Nat.zero_le rounds) (by omega) hD₃.left hD₃.right
  have hunclocked := loop_unclocked elapsed n fuel (decoder.begin prompt, [], none) m₃.models
  rw [hl] at hunclocked
  rw [SpeculativeDecoder.after_zero] at hloop
  have hv : unclocked v = decoder.after f prompt n rounds :=
    Except.ok.inj (congrArg Prod.fst (hunclocked.symm.trans hloop))
  obtain ⟨htokens, hstats⟩ : (decoder.after f prompt n rounds).2 = greedy f prompt n ∧
    (decoder.after f prompt n rounds).1.stats = ⟨rounds, rounds, n, n, 0⟩ := SpeculativeDecoder.after_rounds hr
  have hgenerated : v.2.1 = greedy f prompt n := (congrArg Prod.snd hv).trans htokens
  have hsession : v.1.stats = ⟨rounds, rounds, n, n, 0⟩ := (congrArg (·.1.stats) hv).trans hstats
  refine ⟨cached, m₁.engine, rounds, hprefill, ?_, hgenerated, by rw [hsession], ?_⟩
  case refine_1 => rwa [hdecoder, hengine₃, hengine₂] at hr
  case refine_2 =>
    have hclocked := loop_clocked (by simp) hl
    rw [hclocked, hgenerated, ← length_pos_iff, greedy_length]

end Generation

variable {φ μ : Type} [LinearLogit φ] [Zero φ] [One φ] [CfgMatcher μ] {config : BenchmarkConfig}

theorem promptTokens_length (h : config.promptLen < 2 ^ 32) : config.promptTokens.length = config.promptLen := by
  rw [BenchmarkConfig.promptTokens, length_map, length_range, Nat.mod_eq_of_lt h]

omit [Zero φ] [One φ] [CfgMatcher μ] in
theorem promptSlice_prefix : promptSlice config <+: config.promptTokens := by
  unfold promptSlice
  split
  case isTrue  => exact take_prefix ..
  case isFalse => exact nil_prefix

theorem promptSlice_length (h : config.promptLen < 2 ^ 32) :
    (promptSlice config).length = min config.cachedDepth config.promptLen := by
  unfold promptSlice
  split
  case isTrue  => rw [length_take, promptTokens_length h, min_assoc, min_self]
  case isFalse => simp_all

-- What a run measures that is not time: the tokens of its mode, the part of the prompt that the first `prefill` has
-- saved, and a speculation in which everything is accepted, in as few rounds as the windows allow.
structure Measured (engineConfig : EngineConfig) (config : BenchmarkConfig) (sample : BenchmarkSample) : Prop where
  hits       : sample.cacheHitTokens = min config.cachedDepth config.promptLen
  misses     : sample.cacheMissTokens = config.promptLen - config.cachedDepth
  tokens     : sample.tokens = (if config.mode = .generation then 0 else config.promptLen) +
    if config.mode = .promptProcessing then 0 else config.genLen
  prompt     : config.mode = .promptProcessing → sample.ttftNs = none ∧ sample.speculative = {}
  generation : config.mode ≠ .promptProcessing → (sample.ttftNs.isSome = true ↔ 0 < config.genLen) ∧
    ∃ decoder rounds, SpeculativeDecoder.new engineConfig.draftWindow = .ok decoder ∧
      (∀ k, k < rounds ↔ decoder.reach k < config.genLen) ∧
      sample.speculative = ⟨rounds, rounds, config.genLen, config.genLen, 0⟩

omit [LinearLogit φ] [Zero φ] [One φ] [CfgMatcher μ] in
theorem cachePromptSlice_just {m m' : MockMachine φ μ} (j : VeloEngine.Just [] m.engine)
    (h : cachePromptSlice config m = (.ok (), m')) : VeloEngine.Just (promptSlice config) m'.engine ∧
      m'.engine.decoder = m.engine.decoder ∧ m'.models = m.models := by
  unfold cachePromptSlice at h
  split at h
  case isTrue hne =>
    obtain ⟨out, m₁, hp, h⟩ := Eff.bind_eq_ok_iff.mp h
    cases h
    obtain ⟨hp, hmodels⟩ := Machine.onEngine_eq_ok hp
    obtain ⟨j', hdecoder⟩ := j.prefill hne hp
    exact ⟨j', hdecoder, hmodels⟩
  case isFalse hnil =>
    cases h
    exact ⟨not_not.mp hnil ▸ j, rfl, rfl⟩

theorem runSingleCase_measured (h01 : (0 : φ) ≤ 1) (hlen : config.promptLen + config.genLen + 16 < 2 ^ 32)
    (hfuel : config.genLen < fuel) {engineConfig : EngineConfig} {clock : BenchmarkClock}
    (h : runSingleCase φ μ clock fuel engineConfig config = .ok sample) : Measured engineConfig config sample := by
  unfold runSingleCase at h
  split at h
  case h_1 => contradiction
  case h_2 e hnew =>
    obtain ⟨j, hdecoder⟩ := VeloEngine.just_new hnew
    obtain ⟨m', hm⟩ : ∃ m', measure clock fuel config (⟨e, ⟨⟨MockBackend.new config.scriptTokens⟩,
        ⟨MockBackend.new config.scriptTokens⟩⟩⟩ : MockMachine φ μ) = (.ok sample, m') := ⟨_, Prod.ext h rfl⟩
    obtain ⟨_, m₁, hcache, hm⟩ := Eff.bind_eq_ok_iff.mp hm
    obtain ⟨j₁, hdecoder₁, hmodels⟩ := cachePromptSlice_just (by exact j) hcache
    have hslice : (promptSlice config).length = min config.cachedDepth config.promptLen := promptSlice_length (by omega)
    have hprompt : config.promptTokens.length = config.promptLen := promptTokens_length (by omega)
    split at hm
    case isTrue hmode =>
      obtain ⟨out, m₂, hprefill, hm⟩ := Eff.bind_eq_ok_iff.mp hm
      cases hm
      obtain ⟨hprefill, _⟩ := Machine.onEngine_eq_ok hprefill
      obtain ⟨hstats, _⟩ := j₁.stats_eq promptSlice_prefix hprefill
      refine ⟨?_, ?_, ?_, fun _ => ?_, fun hne => absurd hmode hne⟩
      case refine_1 => simp only [hstats, hslice]
      case refine_2 =>
        simp only [hstats, hslice, hprompt]
        omega
      case refine_3 => simp [hmode]
      case refine_4 => simp only [hstats, and_self]
    case isFalse hmode =>
      obtain ⟨trace, m₂, hrun, hm⟩ := Eff.bind_eq_ok_iff.mp hm
      cases hm
      have hscript : config.scriptTokens.length = config.promptLen + config.genLen + 16 := by
        rw [BenchmarkConfig.scriptTokens, length_map, length_range, Nat.mod_eq_of_lt hlen]
      have hlong : config.promptTokens.length + config.genLen ≤ config.scriptTokens.length := by omega
      obtain ⟨cached, e', rounds, hprefill, hr, _, hstats, hclocked⟩ :=
        runGenerationWithTtft_agreeing (SpeculativeDecoder.agreeing_mock h01 hlong) (fun _ _ => id) (fun _ _ => id)
          (by rw [hmodels]; exact ⟨rfl, rfl⟩) (by rw [hmodels]; exact ⟨rfl, rfl⟩) hfuel hrun
      obtain ⟨hcached, hdecoder₂⟩ := j₁.stats_eq promptSlice_prefix hprefill
      refine ⟨?_, ?_, ?_, fun h => absurd h hmode, fun _ => ⟨hclocked, e.decoder, rounds, hdecoder, ?_, ?_⟩⟩
      case refine_1 => simp only [hstats, hcached, hslice]
      case refine_2 =>
        simp only [hstats, hcached, hslice, hprompt]
        omega
      case refine_3 =>
        by_cases hg : config.mode = .generation
        case pos => simp [hg]
        case neg => simp [hg, hmode]
      case refine_4 => rwa [hdecoder₂, hdecoder₁] at hr
      case refine_5 => simp only [hstats]

-- Logits of two values, of which the smaller one is minus infinity
instance : LinearLogit (Fin 2) where
  negInfinity      := 0
  ge a b           := decide (b ≤ a)
  ge_eq _ _        := rfl
  negInfinity_le   := Fin.zero_le

-- Seven tokens in windows of two, three and four
theorem runSingleCase_measured_seven : ∃ sample, runSingleCase (Fin 2) Empty ⟨1, id⟩ 8 ⟨2, ⟨1, 4, 8, 2⟩⟩
    ⟨.promptPlusGeneration, 5, 7, 3⟩ = .ok sample ∧ sample.tokens = 12 ∧
    Measured ⟨2, ⟨1, 4, 8, 2⟩⟩ ⟨.promptPlusGeneration, 5, 7, 3⟩ sample := by
  have hok : (runSingleCase (Fin 2) Empty ⟨1, id⟩ 8 ⟨2, ⟨1, 4, 8, 2⟩⟩ ⟨.promptPlusGeneration, 5, 7, 3⟩).toOption =
      some ⟨1, some 0, 12, 3, 2, ⟨3, 3, 7, 7, 0⟩⟩ := by decide +kernel
  rcases h : runSingleCase (Fin 2) Empty ⟨1, id⟩ 8 ⟨2, ⟨1, 4, 8, 2⟩⟩ ⟨.promptPlusGeneration, 5, 7, 3⟩ with _ | sample
  case error => simp [h, Except.toOption] at hok
  case ok =>
    rw [h] at hok
    refine ⟨sample, rfl, ?_, runSingleCase_measured (by decide) (by decide) (by decide) h⟩
    rw [Option.some.inj hok]

end Benchmark
