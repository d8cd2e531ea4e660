import Mathlib
import VeloCore.Execution.Engine.Theorems.Handles

open List Relation MemoryRuntime

section LongestPrefix

variable {α β : Type*} {m : List α → Option β} {k l : List α}

theorem longestPrefixUpTo_eq_none (h : longestPrefixUpTo m l n = none) : ∀ j ≤ n, m (l.take j) = none := by
  induction n
  case zero =>
    intro j hj
    rw [Nat.le_zero.mp hj, take_zero]
    exact Option.map_eq_none_iff.mp h
  case succ n hi =>
    rw [longestPrefixUpTo] at h
    cases hm : m (l.take (n + 1))
    case some b => simp [hm] at h
    case none =>
      rw [hm] at h
      intro j hj
      rcases Nat.le_succ_iff.mp hj with hj | rfl
      case inl => exact hi h j hj
      case inr => exact hm

-- The longest prefix is at least as long as any that has a value.
theorem le_longestPrefix (hp : k <+: l) (hk : m k ≠ none) : k.length ≤ ((longestPrefix m l).map (·.1)).getD 0 := by
  have htake : l.take k.length = k := (prefix_iff_eq_take.mp hp).symm
  cases hl : longestPrefix m l
  case none => exact absurd (htake ▸ longestPrefixUpTo_eq_none hl k.length hp.length_le) hk
  case some res =>
    obtain ⟨_, _, hlongest⟩ := longestPrefix_eq_some_iff.mp hl
    by_contra hlt
    refine hk (htake ▸ hlongest k.length ?_ hp.length_le)
    simpa using hlt

end LongestPrefix

namespace VeloEngine

variable {R μ : Type} [MemoryRuntime R] [LawfulMemoryRuntime R] {e e' e'' : VeloEngine R μ}
  {sequence prompt : List TokenId}

-- The cache has an entry for each of the sequences, and evicts nothing.
structure Remembers (sequences : List TokenId → Prop) (e : VeloEngine R μ) : Prop extends Unlimited e where
  entry : ∀ sequence, sequences sequence → e.prefixCache.entries sequence ≠ none

-- How much of a prompt is known
noncomputable def known (e : VeloEngine R μ) (prompt : List TokenId) : Nat :=
  ((longestPrefix e.prefixCache.entries prompt).map (·.1)).getD 0

theorem Remembers.withPool {sequences : List TokenId → Prop} (h : Remembers sequences e) :
    Remembers sequences { e with slotPool := p, parserFactory := q } :=
  ⟨h.toUnlimited.withPool, h.entry⟩

-- An entry may get another handle, but it stays.
theorem Saved.remembers {sequences : List TokenId → Prop} {tokens : List TokenId} {h : KvCacheHandle}
    (s : Saved tokens h e e') (r : Remembers sequences e) : Remembers (fun k => sequences k ∨ k = tokens) e' := by
  have hentries : e'.prefixCache.entries = Function.update e.prefixCache.entries tokens (some h) :=
    congrArg Memory.entries (s.memory_eq r.toUnlimited)
  refine ⟨⟨s.coherent, s.frame.capacity.trans r.capacity⟩, fun k hk => ?_⟩
  rw [hentries]
  by_cases heq : k = tokens
  case pos => simp [heq]
  case neg =>
    rw [Function.update_of_ne heq]
    exact r.entry k (hk.resolve_right heq)

theorem Remembers.mono {sequences sequences' : List TokenId → Prop} (h : Remembers sequences e)
    (hsub : ∀ k, sequences' k → sequences k) : Remembers sequences' e :=
  ⟨h.toUnlimited, fun k hk => h.entry k (hsub k hk)⟩

theorem stable_remembers (sequences : List TokenId → Prop) : Stable (Remembers sequences : VeloEngine R μ → Prop) := by
  refine .of_saved (fun _ r => r.coherent) (fun tokens h e e' _ r s => ?_) fun e e' r u => ?_
  case refine_1 => exact (s.remembers r).mono fun _ => .inl
  case refine_2 =>
    refine ⟨⟨u.coherent, u.frame.capacity.trans r.capacity⟩, fun k hk => ?_⟩
    have hentries : e'.prefixCache.entries = e.prefixCache.entries := congrArg Memory.entries u.memory
    rw [hentries]
    exact r.entry k hk

theorem Remembers.length_le_known {sequences : List TokenId → Prop} (r : Remembers sequences e) (hs : sequences sequence)
    (hp : sequence <+: prompt) : sequence.length ≤ e.known prompt :=
  le_longestPrefix hp (r.entry sequence hs)

-- What a prefill that returns reports, and what the cache has from then on.
theorem prefill_known {sequences : List TokenId → Prop} (r : Remembers sequences e)
    (h : prefill prompt e = (.ok out, e')) :
    out.stats.cacheHitTokens = e.known prompt ∧ out.stats.cacheHitTokens + out.stats.cacheMissTokens = prompt.length ∧
      (prompt ≠ [] → Remembers (fun k => sequences k ∨ k = prompt) e') := by
  obtain ⟨res, e₁, hl, _, _, _, hmatched, _⟩ := lookup_unchanged r.coherent prompt
  have hknown : res.matchedTokens = e.known prompt := hmatched
  have hle : res.matchedTokens ≤ prompt.length := by
    rw [hmatched]
    cases hp : longestPrefix e.prefixCache.entries prompt
    case none => exact Nat.zero_le _
    case some => exact (longestPrefix_eq_some_iff.mp hp).left
  refine ⟨?_, ?_, fun hne => ?_⟩
  case refine_3 =>
    rcases prefill_cases r.coherent prompt with ⟨out', _, hok, hp⟩ | ⟨_, _, herr, _⟩
    case inr => cases h.symm.trans herr
    case inl =>
      cases h.symm.trans hok
      have hkeep := (stable_remembers sequences).prefill prompt e r
      rw [h] at hkeep
      cases hp
      case empty hnil _ => exact absurd hnil hne
      case hit handle _ hentry u _ _ _ =>
        refine ⟨hkeep.toUnlimited, fun k hk => ?_⟩
        rcases hk with hk | rfl
        case inl => exact hkeep.entry k hk
        case inr =>
          have hentries : e'.prefixCache.entries k = some handle := (congrArg (Memory.entries · k) u.memory).trans hentry
          simp [hentries]
      case miss s _ => exact s.remembers r
  all_goals
    rw [prefill, Eff.bind_ok hl] at h
    obtain ⟨inserted, e₂, _, h⟩ := Eff.bind_eq_ok_iff.mp h
    cases h
    dsimp only
    omega

section Batch

variable [CfgMatcher μ] {sequences : List TokenId → Prop}

omit [LawfulMemoryRuntime R] in
theorem prepareAll_session {reqs : List BatchRequest} {actives : List (ActiveRequest μ)}
    (h : prepareAll reqs e = (.ok actives, e')) : actives.map (·.session.prompt) = reqs.map (·.prompt) := by
  induction reqs generalizing e actives
  case nil => cases h; rfl
  case cons req reqs hi =>
    obtain ⟨active, rest, e₁, hprep, hrest, rfl⟩ := prepareAll_cons_eq_ok h
    rw [map_cons, map_cons, hi hrest, (prepare_eq_ok hprep).session]
    rfl

-- A request finds what was there before the batch, and the prompts of the requests before it.
theorem prepareAll_known {reqs : List BatchRequest} {actives : List (ActiveRequest μ)} (r : Remembers sequences e)
    (h : prepareAll reqs e = (.ok actives, e')) :
    ∀ (j : Nat) req active, reqs[j]? = some req → actives[j]? = some active →
      active.prefill.stats.cacheHitTokens + active.prefill.stats.cacheMissTokens = req.prompt.length ∧
      ∀ sequence, sequences sequence ∨ (∃ i < j, ∃ req', reqs[i]? = some req' ∧ req'.prompt = sequence) →
        sequence <+: req.prompt → sequence.length ≤ active.prefill.stats.cacheHitTokens := by
  induction reqs generalizing e actives sequences
  case nil => intro j req active hreq; simp at hreq
  case cons first reqs hi =>
    obtain ⟨active₀, rest, e₁, hprep, hrest, rfl⟩ := prepareAll_cons_eq_ok h
    obtain ⟨pool, e₀, pages, _, hpre, _, hbind⟩ := (prepare_eq_ok hprep).steps
    have r₀ : Remembers sequences { e with slotPool := pool } := r.withPool
    obtain ⟨hhit, hsum, hnew⟩ := prefill_known r₀ hpre
    have r₁ : Remembers (fun k => sequences k ∨ k = first.prompt ∧ k ≠ []) e₁ := by
      have hkeep (S : List TokenId → Prop) (hS : Remembers S e₀) : Remembers S e₁ := by
        have hb := (stable_remembers S).bindSlot active₀.slotId (pages.pages.map UInt32.ofNat) e₀ hS
        rwa [hbind] at hb
      by_cases hne : first.prompt = []
      case pos =>
        have hold := (stable_remembers sequences).prefill first.prompt _ r₀
        rw [hpre] at hold
        exact (hkeep _ hold).mono fun k hk => hk.resolve_right fun h => h.right (h.left.trans hne)
      case neg => exact (hkeep _ (hnew hne)).mono fun k hk => hk.imp_right And.left
    intro j req active hreq hactive
    cases j
    case zero =>
      cases Option.some.inj hreq
      cases Option.some.inj hactive
      refine ⟨hsum, fun sequence hs hp => ?_⟩
      rcases hs with hs | ⟨i, hlt, _⟩
      case inl => exact hhit ▸ r₀.length_le_known hs hp
      case inr => exact absurd hlt (Nat.not_lt_zero i)
    case succ j =>
      obtain ⟨hsum', hall⟩ := hi r₁ hrest j req active hreq hactive
      refine ⟨hsum', fun sequence hs hp => ?_⟩
      by_cases hnil : sequence = []
      case pos => rw [hnil]; exact Nat.zero_le _
      case neg =>
        refine hall sequence ?_ hp
        rcases hs with hs | ⟨i, hlt, req', hreq', heq⟩
        case inl => exact .inl (.inl hs)
        case inr =>
          cases i
          case zero =>
            cases Option.some.inj hreq'
            exact .inl (.inr ⟨heq.symm, hnil⟩)
          case succ i => exact .inr ⟨i, Nat.lt_of_succ_lt_succ hlt, req', hreq', heq⟩

omit [CfgMatcher μ] in
theorem wrapUp_known {reqs : List (ActiveRequest μ)} {outs : List EngineOutput} (r : Remembers sequences e)
    (h : wrapUp reqs e = (.ok outs, e')) :
    Remembers (fun k => sequences k ∨ k ∈ reqs.map (·.fullSequence) ∧ k ≠ []) e' ∧
      outs.map (fun out => (out.stats.cacheHitTokens, out.stats.cacheMissTokens)) =
        reqs.map fun req => (req.prefill.stats.cacheHitTokens, req.prefill.stats.cacheMissTokens) := by
  induction reqs generalizing e outs sequences
  case nil =>
    cases h
    exact ⟨r.mono fun k hk => hk.resolve_right fun hk => not_mem_nil hk.left, rfl⟩
  case cons req reqs hi =>
    obtain ⟨out, rest, e₁, hf, hrest, rfl⟩ := wrapUp_cons_eq_ok h
    have hstats : (out.stats.cacheHitTokens, out.stats.cacheMissTokens) =
        (req.prefill.stats.cacheHitTokens, req.prefill.stats.cacheMissTokens) := by
      obtain ⟨_, _, _, hf⟩ := Eff.bind_eq_ok_iff.mp hf
      obtain ⟨_, _, _, hf⟩ := Eff.bind_eq_ok_iff.mp hf
      cases hf
      rfl
    have r₁ : Remembers (fun k => sequences k ∨ k = req.fullSequence ∧ k ≠ []) e₁ := by
      by_cases hne : req.fullSequence = []
      case pos =>
        have hkeep := (stable_remembers sequences).finish (fun _ _ _ => Remembers.withPool) req e r
        rw [hf] at hkeep
        exact hkeep.mono fun k hk => hk.resolve_right fun h => h.right (h.left.trans hne)
      case neg =>
        obtain ⟨pool, handle, _, hc, _⟩ := finish_inserted r.toUnlimited hf hne
        have r₀ : Remembers sequences { e with slotPool := pool } := r.withPool
        exact ((Saved.of_cacheSequence r₀.coherent hc).remembers r₀).mono fun k hk => hk.imp_right And.left
    obtain ⟨r', hrests⟩ := hi r₁ hrest
    refine ⟨r'.mono fun k hk => ?_, by rw [map_cons, map_cons, hstats, hrests]⟩
    rcases hk with hk | ⟨hmem, hne⟩
    case inl => exact .inl (.inl hk)
    case inr =>
      rcases mem_cons.mp hmem with rfl | hmem
      case inl => exact .inl (.inr ⟨rfl, hne⟩)
      case inr => exact .inr ⟨hmem, hne⟩

end Batch
end VeloEngine

namespace Machine

open VeloEngine

variable {R μ δ τ : Type} [MemoryRuntime R] [LawfulMemoryRuntime R] [CfgMatcher μ] [DraftModel μ δ] [TargetModel μ τ]
  {reqs : List BatchRequest} {outs : List EngineOutput} {m m' : Machine R μ δ τ} {sequences : List TokenId → Prop}

-- A batch reports what it found of each prompt, and leaves each of its sequences in the cache.
theorem generateBatch_known (r : Remembers sequences m.engine) (h : generateBatch fuel reqs m = (.ok outs, m')) :
    Remembers (fun k => sequences k ∨ k ∈ Machine.sequences reqs outs ∧ k ≠ []) m'.engine ∧
    ∀ (j : Nat) req out, reqs[j]? = some req → outs[j]? = some out →
      out.stats.cacheHitTokens + out.stats.cacheMissTokens = req.prompt.length ∧
      ∀ sequence, sequences sequence ∨ (∃ i < j, ∃ req', reqs[i]? = some req' ∧ req'.prompt = sequence) →
        sequence <+: req.prompt → sequence.length ≤ out.stats.cacheHitTokens := by
  obtain ⟨actives, m₁, hd, hw⟩ := generateBatch_eq_ok h
  obtain ⟨actives₀, models, hp, _, hl⟩ := decode_eq_ok hd
  have hfixed := rounds_fixed hl
  have r₁ : Remembers sequences m₁.engine := by
    have hkeep := (stable_remembers sequences).decode (fun _ _ _ => Remembers.withPool) fuel reqs m r
    rwa [hd] at hkeep
  obtain ⟨r', hstats⟩ := wrapUp_known r₁ hw
  have hseq : Machine.sequences reqs outs = actives.map (·.fullSequence) := by
    have hprompt : actives.map (·.session.prompt) = reqs.map (·.prompt) := by
      have h := congrArg (map (·.2.1)) hfixed
      rw [List.map_map, List.map_map] at h
      exact h.trans (prepareAll_session hp)
    have hzip : Machine.sequences reqs outs = zipWith (· ++ ·) (reqs.map (·.prompt)) (outs.map (·.tokens)) := by
      rw [zipWith_map, Machine.sequences]
    rw [hzip, ← hprompt, wrapUp_tokens hw, zipWith_map, zipWith_self]
    rfl
  refine ⟨hseq ▸ r', fun j req out hreq hout => ?_⟩
  have hstat := congrArg (·[j]?) hstats
  simp only [getElem?_map, hout, Option.map_some] at hstat
  obtain ⟨active, hactive, hsame⟩ := Option.map_eq_some_iff.mp hstat.symm
  have hprefill := congrArg (·[j]?) hfixed
  simp only [getElem?_map, hactive, Option.map_some] at hprefill
  obtain ⟨active₀, hactive₀, hsame₀⟩ := Option.map_eq_some_iff.mp hprefill.symm
  obtain ⟨hhit, hmiss⟩ := Prod.mk.inj hsame
  have hp₀ : active₀.prefill = active.prefill := congrArg (·.2.2.2) hsame₀
  have hknown := prepareAll_known r hp j req active₀ hreq hactive₀
  rw [hp₀, hhit, hmiss] at hknown
  exact hknown

end Machine

namespace VeloEngine

variable {R μ : Type} [MemoryRuntime R] [LawfulMemoryRuntime R] [CfgMatcher μ] {e : VeloEngine R μ}

-- Whatever is done with the engine from now on, every call finds the sequence in the cache.
def Warm (sequence : List TokenId) (e : VeloEngine R μ) : Prop :=
  ∀ e', ReflTransGen (Op.Step Op.Uncapped) e e' →
    (∀ prompt out e'', sequence <+: prompt → prefill prompt e' = (.ok out, e'') →
      sequence.length ≤ out.stats.cacheHitTokens) ∧
    ∀ {δ τ : Type} [DraftModel μ δ] [TargetModel μ τ] fuel reqs (models : Models δ τ) outs m',
      Machine.generateBatch fuel reqs ⟨e', models⟩ = (.ok outs, m') → ∀ (j : Nat) req out, reqs[j]? = some req →
        outs[j]? = some out → sequence <+: req.prompt → sequence.length ≤ out.stats.cacheHitTokens

theorem Remembers.warm {sequences : List TokenId → Prop} {sequence : List TokenId} (r : Remembers sequences e)
    (hs : sequences sequence ∨ sequence = []) : Warm sequence e := by
  intro e' hsteps
  have r' : Remembers sequences e' := (stable_remembers sequences).steps (fun _ _ _ => Remembers.withPool) r hsteps
  refine ⟨fun prompt out e'' hp hpre => ?_, fun fuel reqs models outs m' hb j req out hreq hout hp => ?_⟩
  all_goals
    rcases hs with hs | rfl
  case refine_1.inl => exact (prefill_known r' hpre).left ▸ r'.length_le_known hs hp
  case refine_2.inl => exact ((Machine.generateBatch_known r' hb).right j req out hreq hout).right sequence (.inl hs) hp
  all_goals exact Nat.zero_le _

-- On an engine without a capacity, a prompt and all that was generated for it are found by every later call, whatever
-- has happened in between. The requests of a batch find the prompts before them, too.
theorem calls_warm (c : Coherent e) (hcap : e.prefixCache.capacityTokens = none) :
    (∀ prompt out e', prefill prompt e = (.ok out, e') → Warm prompt e' ∧
      out.stats.cacheHitTokens + out.stats.cacheMissTokens = prompt.length) ∧
    ∀ {δ τ : Type} [DraftModel μ δ] [TargetModel μ τ] fuel reqs (models : Models δ τ) outs m',
      Machine.generateBatch fuel reqs ⟨e, models⟩ = (.ok outs, m') →
      (∀ sequence ∈ Machine.sequences reqs outs, Warm sequence m'.engine) ∧
      ∀ (j : Nat) req out, reqs[j]? = some req → outs[j]? = some out →
        out.stats.cacheHitTokens + out.stats.cacheMissTokens = req.prompt.length ∧
        ∀ i < j, ∀ req', reqs[i]? = some req' → req'.prompt <+: req.prompt →
          req'.prompt.length ≤ out.stats.cacheHitTokens := by
  have r : Remembers (fun _ => False) e := ⟨⟨c, hcap⟩, nofun⟩
  refine ⟨fun prompt out e' h => ?_, fun fuel reqs models outs m' h => ?_⟩
  case refine_1 =>
    obtain ⟨_, hsum, hnew⟩ := prefill_known r h
    have hkeep := (stable_remembers _).prefill prompt e r
    rw [h] at hkeep
    refine ⟨?_, hsum⟩
    by_cases hne : prompt = []
    case pos => exact hkeep.warm (.inr hne)
    case neg => exact (hnew hne).warm (.inl (.inr rfl))
  case refine_2 =>
    obtain ⟨r', hstats⟩ := Machine.generateBatch_known (m := ⟨e, models⟩) r h
    refine ⟨fun sequence hmem => r'.warm ?_, fun j req out hreq hout => ?_⟩
    case refine_1 =>
      by_cases hne : sequence = []
      case pos => exact .inr hne
      case neg => exact .inl (.inr ⟨hmem, hne⟩)
    case refine_2 =>
      obtain ⟨hsum, hhit⟩ := hstats j req out hreq hout
      exact ⟨hsum, fun i hlt req' hreq' hp => hhit req'.prompt (.inr ⟨i, hlt, req', hreq', rfl⟩) hp⟩

-- The second request of the batch goes on with the prompt of the first one.
theorem calls_warm_pair : ∃ e : VeloEngine CpuMemoryRuntime Empty, VeloEngine.new ⟨2, ⟨1, 4, 8, 2⟩⟩ = .ok e ∧
    ∃ outs m', Machine.generateBatch 6 [⟨[1, 2], 3, none⟩, ⟨[1, 2, 3], 2, none⟩]
        ⟨e, ⟨(⟨⟩ : Guesser List.sum), (⟨0⟩ : Oracle List.sum)⟩⟩ = (.ok outs, m') ∧
      outs.map (·.stats.cacheHitTokens) = [0, 2] ∧ ∀ sequence ∈ Machine.sequences [⟨[1, 2], 3, none⟩, ⟨[1, 2, 3], 2, none⟩] outs,
        Warm sequence m'.engine := by
  obtain ⟨e, he, hcap, hok⟩ : ∃ e : VeloEngine CpuMemoryRuntime Empty, VeloEngine.new ⟨2, ⟨1, 4, 8, 2⟩⟩ = .ok e ∧
      e.prefixCache.capacityTokens = none ∧ (Machine.generateBatch 6 [⟨[1, 2], 3, none⟩, ⟨[1, 2, 3], 2, none⟩]
        ⟨e, ⟨(⟨⟩ : Guesser List.sum), (⟨0⟩ : Oracle List.sum)⟩⟩).1.toOption.map (fun outs => outs.map (·.stats.cacheHitTokens)) =
          some [0, 2] := ⟨_, rfl, rfl, by decide +kernel⟩
  rcases hb : Machine.generateBatch 6 [⟨[1, 2], 3, none⟩, ⟨[1, 2, 3], 2, none⟩]
      ⟨e, ⟨(⟨⟩ : Guesser List.sum), (⟨0⟩ : Oracle List.sum)⟩⟩ with ⟨_ | outs, m'⟩
  case error => simp [hb, Except.toOption] at hok
  case ok =>
    rw [hb] at hok
    exact ⟨e, he, outs, m', hb, Option.some.inj hok,
      ((calls_warm (reachable_new _ he).coherent hcap).right 6 _ _ outs m' hb).left⟩

end VeloEngine
