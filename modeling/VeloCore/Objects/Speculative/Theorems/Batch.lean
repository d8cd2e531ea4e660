import VeloCore.Objects.Speculative.Model
import VeloCore.Primitives.Continuation

open List

-- The draft model answers every call with at least one and at most the requested number of tokens.
def DraftModel.Answers (δ : Type) [DraftModel μ δ] : Prop :=
  ∀ (d : δ) context requested, 0 < requested →
    ∃ predictions m d', DraftModel.draft context requested none d = (.ok predictions, m, d') ∧
      0 < predictions.length ∧ predictions.length ≤ requested

-- The same for a batch, as long as no request asks for less than `low` tokens.
def DraftModel.AnswersBatch (δ : Type) [DraftModel μ δ] (low : Nat) : Prop :=
  ∀ (d : δ) (requests : List (DraftRequest μ)),
    (∀ r ∈ requests, low ≤ r.maxTokens ∧ r.matcher = none) →
    ∃ results ms d', DraftModel.draftBatch requests d = (.ok results, ms, d') ∧
      Forall₂ (fun r ps => ps.length ≤ r.maxTokens ∧ (0 < r.maxTokens → 0 < ps.length)) requests results

theorem DraftModel.AnswersBatch.mono [DraftModel μ δ] (h : DraftModel.AnswersBatch δ low) (hle : low ≤ low') :
    DraftModel.AnswersBatch δ low' :=
  fun d requests hr => h d requests fun r hmem => ⟨hle.trans (hr r hmem).left, (hr r hmem).right⟩

-- Binding never fails.
def DraftModel.Binds (δ : Type) [DraftModel μ δ] : Prop :=
  ∀ d : δ, (∀ slot, ∃ d', DraftModel.bindSlot slot d = (.ok (), d')) ∧
    ∀ cachedPrefix, ∃ d', DraftModel.bindPrefixCache cachedPrefix d = (.ok (), d')

def TargetModel.Binds (τ : Type) [TargetModel μ τ] : Prop :=
  ∀ t : τ, (∀ slot, ∃ t', TargetModel.bindSlot slot t = (.ok (), t')) ∧
    ∀ cachedPrefix, ∃ t', TargetModel.bindPrefixCache cachedPrefix t = (.ok (), t')

-- The target model chooses by `f`, in whichever state it is.
def TargetModel.VerifiesBy (τ : Type) [TargetModel μ τ] (f : List TokenId → TokenId) : Prop :=
  ∀ (t : τ) context drafted,
    ∃ verified m t', TargetModel.verify context drafted none t = (.ok verified, m, t') ∧
      verified.map (·.expected) = expectedAfter f context drafted

def TargetModel.VerifiesBatchBy (τ : Type) [TargetModel μ τ] (f : List TokenId → TokenId) : Prop :=
  ∀ (t : τ) (requests : List (VerifyRequest μ)), (∀ r ∈ requests, r.matcher = none) →
    ∃ results ms t', TargetModel.verifyBatch requests t = (.ok results, ms, t') ∧
      Forall₂ (fun r vs => vs.map (·.expected) = expectedAfter f r.context r.drafted) requests results

-- A batch fails only where one of its contexts is bad, and is answered otherwise.
def DraftModel.FailsOnly (δ : Type) [DraftModel μ δ] (bad : List TokenId → Prop) : Prop :=
  ∀ (d : δ) (requests : List (DraftRequest μ)), (∀ r ∈ requests, r.matcher = none) →
    (∃ e ms d', DraftModel.draftBatch requests d = (.error e, ms, d') ∧ ∃ r ∈ requests, bad r.context) ∨
    ∃ results ms d', DraftModel.draftBatch requests d = (.ok results, ms, d') ∧
      Forall₂ (fun r ps => ps.length ≤ r.maxTokens ∧ (0 < r.maxTokens → 0 < ps.length)) requests results

def TargetModel.FailsOnly (τ : Type) [TargetModel μ τ] (f : List TokenId → TokenId) (bad : List TokenId → Prop) : Prop :=
  ∀ (t : τ) (requests : List (VerifyRequest μ)), (∀ r ∈ requests, r.matcher = none) →
    (∃ e ms t', TargetModel.verifyBatch requests t = (.error e, ms, t') ∧ ∃ r ∈ requests, bad r.context) ∨
    ∃ results ms t', TargetModel.verifyBatch requests t = (.ok results, ms, t') ∧
      Forall₂ (fun r vs => vs.map (·.expected) = expectedAfter f r.context r.drafted) requests results

theorem DraftModel.AnswersBatch.failsOnly [DraftModel μ δ] (h : DraftModel.AnswersBatch δ 0)
    (bad : List TokenId → Prop) : DraftModel.FailsOnly δ bad :=
  fun d requests hr => .inr (h d requests fun r hmem => ⟨r.maxTokens.zero_le, hr r hmem⟩)

theorem TargetModel.VerifiesBatchBy.failsOnly [TargetModel μ τ] (h : TargetModel.VerifiesBatchBy τ f)
    (bad : List TokenId → Prop) : TargetModel.FailsOnly τ f bad :=
  fun t requests hr => .inr (h t requests hr)

-- `calls` counts the calls of `verify`.
def TargetModel.Counts [TargetModel μ τ] (calls : τ → Nat) : Prop :=
  ∀ context drafted m (t : τ),
    calls (TargetModel.verify context drafted m t).2.2 = calls t + 1

-- What a model guarantees for each request, the default batch methods guarantee for a batch.
theorem batchEach_forall₂ {one : ρ → δ → Except SpeculativeError α × Option μ × δ} {matcher : ρ → Option μ}
    {P : ρ → α → Prop} {requests : List ρ}
    (h : ∀ r ∈ requests, ∀ d, ∃ a m d', one r d = (.ok a, m, d') ∧ P r a) (d : δ) :
    ∃ results ms d', batchEach one matcher requests d = (.ok results, ms, d') ∧
      Forall₂ P requests results := by
  induction requests generalizing d
  case nil => exact ⟨[], [], d, rfl, .nil⟩
  case cons r rs hi =>
    obtain ⟨a, m, d₁, ho, hp⟩ := h r mem_cons_self d
    obtain ⟨as, ms, d₂, hb, hps⟩ := hi (fun r hr => h r (mem_cons_of_mem _ hr)) d₁
    exact ⟨a :: as, m :: ms, d₂, by simp [batchEach, ho, hb], .cons hp hps⟩

-- The default batch methods stop at the first request that fails.
theorem batchEach_fails {one : ρ → δ → Except SpeculativeError α × Option μ × δ} {matcher : ρ → Option μ}
    {bad : ρ → Prop} {P : ρ → α → Prop} {requests : List ρ}
    (h : ∀ r ∈ requests, ∀ d, (∃ e m d', one r d = (.error e, m, d') ∧ bad r) ∨
      ∃ a m d', one r d = (.ok a, m, d') ∧ P r a) (d : δ) :
    (∃ e ms d', batchEach one matcher requests d = (.error e, ms, d') ∧ ∃ r ∈ requests, bad r) ∨
    ∃ results ms d', batchEach one matcher requests d = (.ok results, ms, d') ∧ Forall₂ P requests results := by
  induction requests generalizing d
  case nil => exact .inr ⟨[], [], d, rfl, .nil⟩
  case cons r rs hi =>
    rcases h r mem_cons_self d with ⟨e, m, d₁, ho, hbad⟩ | ⟨a, m, d₁, ho, hp⟩
    case inl => exact .inl ⟨e, m :: rs.map matcher, d₁, by simp only [batchEach, ho], r, mem_cons_self, hbad⟩
    case inr =>
      have hrest := hi (fun r hr => h r (mem_cons_of_mem _ hr)) d₁
      rcases hrest with ⟨e, ms, d₂, hb, r', hr', hbad⟩ | ⟨as, ms, d₂, hb, hps⟩
      case inl => exact .inl ⟨e, m :: ms, d₂, by simp only [batchEach, ho, hb], r', mem_cons_of_mem _ hr', hbad⟩
      case inr => exact .inr ⟨a :: as, m :: ms, d₂, by simp [batchEach, ho, hb], .cons hp hps⟩

-- A draft model that guesses by `g` and a target model that chooses by `f` and counts its calls.

instance : CfgMatcher Empty where
  nextMask m  := nomatch m
  advance _ m := nomatch m
  cloneBox m  := nomatch m

structure Guesser (g : List TokenId → TokenId) where

structure Oracle (f : List TokenId → TokenId) where
  calls : Nat := 0

variable {f g : List TokenId → TokenId}

instance : DraftModel Empty (Guesser g) where
  draft context maxTokens m d := (.ok ((greedy g context maxTokens).map .mk), m, d)

instance : TargetModel Empty (Oracle f) where
  verify context drafted m t := (.ok ((expectedAfter f context drafted).map .mk), m, ⟨t.calls + 1⟩)

theorem Guesser.answers : DraftModel.Answers (Guesser g) :=
  fun d context n hn => ⟨_, none, d, rfl, by simpa using hn, by simp⟩

theorem Guesser.answersBatch : DraftModel.AnswersBatch (Guesser g) 0 :=
  fun d _ _ => batchEach_forall₂ (fun r _ _ => ⟨_, r.matcher, d, rfl, by simp, by simp⟩) d

theorem Guesser.binds : DraftModel.Binds (Guesser g) :=
  fun d => ⟨fun _ => ⟨d, rfl⟩, fun _ => ⟨d, rfl⟩⟩

theorem Oracle.binds : TargetModel.Binds (Oracle f) :=
  fun t => ⟨fun _ => ⟨t, rfl⟩, fun _ => ⟨t, rfl⟩⟩

theorem Oracle.verifiesBy : TargetModel.VerifiesBy (Oracle f) f :=
  fun t context drafted => ⟨_, none, ⟨t.calls + 1⟩, rfl, by simp [Function.comp_def]⟩

theorem Oracle.verifiesBatchBy : TargetModel.VerifiesBatchBy (Oracle f) f :=
  fun t _ _ => batchEach_forall₂ (fun r _ t => ⟨_, r.matcher, ⟨t.calls + 1⟩, rfl, by simp [Function.comp_def]⟩) t

theorem Oracle.counts : TargetModel.Counts (Oracle.calls : Oracle f → Nat) :=
  fun _ _ _ _ => rfl

-- A target model that chooses by `f`, but fails for some contexts.
structure Poisoned (f : List TokenId → TokenId) (bad : List TokenId → Bool) where

variable {bad : List TokenId → Bool}

instance : TargetModel Empty (Poisoned f bad) where
  verify context drafted m t :=
    if bad context then (.error (.model "poisoned"), m, t)
    else (.ok ((expectedAfter f context drafted).map .mk), m, t)

theorem Poisoned.failsOnly : TargetModel.FailsOnly (Poisoned f bad) f (bad · = true) :=
  fun t _ _ => batchEach_fails (fun r _ t => by
    by_cases hbad : bad r.context = true
    case pos => exact .inl ⟨_, r.matcher, t, if_pos hbad, hbad⟩
    case neg => exact .inr ⟨_, r.matcher, t, if_neg hbad, by simp [Function.comp_def]⟩) t
