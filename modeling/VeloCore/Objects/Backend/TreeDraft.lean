import VeloCore.Objects.Backend.Borrowed
import VeloCore.Objects.Backend.Greedy
import VeloCore.Objects.Speculative.Tree

open List

-- Tokens are compared by their logits only.
structure TokenLogit (φ : Type) where
  token : TokenId
  logit : φ

-- What is not comparable counts as equal.
def TokenLogit.cmp [Logit φ] (a b : TokenLogit φ) : Ordering :=
  match Logit.ge a.logit b.logit, Logit.ge b.logit a.logit with
  | true, false              => .gt
  | false, true              => .lt
  | true, true | false, false => .eq

structure TopKSampler where
  k : Nat

namespace TopKSampler

variable {φ : Type} [Logit φ]

-- The tokens that the mask allows, the best ones first. The sort of the source is stable, and so is this one.
def ranked (logits : List φ) (mask : Option LogitMask) : List (TokenLogit φ) :=
  (logits.zipIdx.filter fun (_, i) => mask.all fun mask => mask[i]?.getD false)
    |>.map (fun (logit, i) => ⟨UInt32.ofNat i, logit⟩)
    |>.insertionSort fun a b => b.cmp a ≠ .gt

def sample (_ : TopKSampler) (logits : List φ) (mask : Option LogitMask) : NextTokenPrediction :=
  ⟨((ranked logits mask).head?.map (·.token)).getD 0⟩

def sampleTopK (sampler : TopKSampler) (logits : List φ) (mask : Option LogitMask) : List NextTokenPrediction :=
  ((ranked logits mask).take sampler.k).map fun tl => ⟨tl.token⟩

end TopKSampler

structure TreeDraftModel (μ β : Type) where
  backend : β

namespace TreeDraftModel

variable {φ μ β : Type} [Logit φ] [CfgMatcher μ] [CausalLmBackend φ β]

instance : DraftModel μ (TreeDraftModel μ β) where
  bindPrefixCache cachedPrefix d :=
    match CausalLmBackend.bindPrefixCache cachedPrefix d.backend with
    | (res, b) => (res, ⟨b⟩)
  bindSlot slot d :=
    match CausalLmBackend.bindSlot slot d.backend with
    | (res, b) => (res, ⟨b⟩)
  switchModel name pool d :=
    match CausalLmBackend.switchModel name pool d.backend with
    | (res, b) => (res, ⟨b⟩)
  draft context maxTokens matcher d :=
    match DraftModel.draft context maxTokens matcher (⟨⟨d.backend⟩⟩ : GreedyDraftModel μ (Borrowed β)) with
    | (res, m, greedy) => (res, m, ⟨greedy.backend.backend⟩)

-- The other tokens of the first position are added to the root.
def branch (t : SpeculativeTree) (others : List NextTokenPrediction) : SpeculativeTree :=
  others.foldl (fun t prediction => t.addChild 0 prediction.token (by
    have ⟨_, h⟩ := t.root
    exact (List.getElem?_eq_some_iff.mp h).1)) t

-- The loop that expands the primary branch.
def expand (sampler : TopKSampler) (context : List TokenId) :
    Nat → (t : SpeculativeTree) → Fin t.nodes.length → β → Except SpeculativeError SpeculativeTree × β
  | 0, t, _, b => (.ok t, b)
  | n + 1, t, curr, b =>
    match CausalLmBackend.nextLogits (context ++ t.getPath curr) b with
    | (.error e, b)   => (.error e, b)
    | (.ok logits, b) =>
      let nextToken := sampler.sample logits.values none
      expand sampler context n (t.addChild curr nextToken.token curr.isLt)
        ⟨t.nodes.length, by simp [SpeculativeTree.addChild]⟩ b

-- `matcher.as_mut().map(|m| m.next_mask())`
def nextMask (matcher : Option μ) : Option LogitMask × Option μ :=
  (matcher.map fun m => (CfgMatcher.nextMask m).1, matcher.map fun m => (CfgMatcher.nextMask m).2)

def draftTree (context : List TokenId) (maxTokens width : Nat) (matcher : Option μ) (d : TreeDraftModel μ β) :
    Except SpeculativeError SpeculativeTree × Option μ × TreeDraftModel μ β :=
  let sampler : TopKSampler := ⟨width⟩
  let (mask, matcher) := nextMask matcher
  match CausalLmBackend.nextLogits context d.backend with
  | (.error e, b)   => (.error e, matcher, ⟨b⟩)
  | (.ok logits, b) =>
    match sampler.sampleTopK logits.values mask with
    | []              => (.error (.model "Draft model returned no tokens"), matcher, ⟨b⟩)
    | first :: others =>
      let t := branch (.new first.token) others
      match expand sampler context (maxTokens - 1) t ⟨0, by
        have ⟨_, h⟩ := t.root
        exact (List.getElem?_eq_some_iff.mp h).1⟩ b with
      | (res, b) => (res, matcher, ⟨b⟩)

end TreeDraftModel
