import VeloCore.Objects.Backend.TreeDraft

open List

-- What the random samplers compute with
class Softmax (φ : Type) where
  zero : φ
  one : φ
  minTemperature : φ
  add : φ → φ → φ
  sub : φ → φ → φ
  div : φ → φ → φ
  exp : φ → φ

section Draws

variable {φ : Type} [Logit φ] [Softmax φ]

open Softmax

-- `self.temperature.max(1e-6)`
def clampTemperature (temperature : φ) : φ :=
  if Logit.ge temperature minTemperature then temperature else minTemperature

-- The tokens that the mask allows with their scaled logits, the best ones first. The sort is stable, and without NaN
-- `partial_cmp` always answers.
def scaled (logits : List φ) (mask : Option LogitMask) (temp : φ) : List (TokenLogit φ) :=
  (logits.zipIdx.filter fun (_, i) => mask.all fun mask => mask[i]?.getD false)
    |>.map (fun (l, i) => ⟨UInt32.ofNat i, div l temp⟩)
    |>.insertionSort fun a b => b.cmp a ≠ .gt

def sumOf (l : List φ) : φ :=
  l.foldl add zero

-- The first token up to which the shares sum up to the random number
def draw (r total : φ) : List (TokenLogit φ × φ) → φ → Option (TokenLogit φ)
  | [], _ => none
  | (tl, e) :: rest, currentP =>
    let currentP := add currentP (div e total)
    if Logit.ge currentP r then some tl else draw r total rest currentP

end Draws

structure TopPSampler (φ : Type) where
  p : φ
  temperature : φ

namespace TopPSampler

variable {φ : Type} [Logit φ] [Softmax φ]

open Softmax

-- How many of the tokens there are from the index `i` on until their probabilities sum up to `p`
def cutoffIdx (p sumExp : φ) : List φ → Nat → φ → Nat
  | [], i, _ => i
  | e :: exps, i, cumulativeP =>
    let cumulativeP := add cumulativeP (div e sumExp)
    if Logit.ge cumulativeP p then i + 1 else cutoffIdx p sumExp exps (i + 1) cumulativeP

-- `r` is the number that is drawn.
def sample (sampler : TopPSampler φ) (logits : List φ) (mask : Option LogitMask) (r : φ) : NextTokenPrediction :=
  let temp := clampTemperature sampler.temperature
  if Logit.ge sampler.p one && Logit.ge zero sampler.temperature then
    GreedySampler.sample logits mask
  else
    match scaled logits mask temp with
    | []           => GreedySampler.sample logits none
    | best :: rest =>
      let tokenLogits := best :: rest
      let exps := tokenLogits.map fun tl => exp (sub tl.logit best.logit)
      let cutoff := cutoffIdx sampler.p (sumOf exps) exps 0 zero
      let subSum := sumOf (exps.take cutoff)
      ⟨((draw r subSum ((tokenLogits.zip exps).take cutoff) zero).getD best).token⟩

end TopPSampler

structure MinPSampler (φ : Type) where
  minP : φ
  temperature : φ

namespace MinPSampler

variable {φ : Type} [Logit φ] [Softmax φ]

open Softmax

-- Tokens that are too unlikely are dropped with all that follow, but for the first one of all.
def filtered (maxLogit cutoff : φ) : Bool → List (TokenLogit φ) → List (TokenLogit φ × φ)
  | _, [] => []
  | nonempty, tl :: rest =>
    let pRel := exp (sub tl.logit maxLogit)
    if !Logit.ge pRel cutoff && nonempty then [] else (tl, pRel) :: filtered maxLogit cutoff true rest

def sample (sampler : MinPSampler φ) (logits : List φ) (mask : Option LogitMask) (r : φ) : NextTokenPrediction :=
  match scaled logits mask (clampTemperature sampler.temperature) with
  | []           => GreedySampler.sample logits none
  | best :: rest =>
    let kept := filtered best.logit sampler.minP false (best :: rest)
    ⟨((draw r (sumOf (kept.map (·.2))) kept zero).getD best).token⟩

end MinPSampler
