import VeloCore.Primitives.Eff
import VeloCore.Objects.Speculative.Session

structure SpeculativeOutput where
  tokens : List TokenId
  stats : SpeculativeStats
deriving DecidableEq, Repr

-- Both constructors refuse an empty window, and the fields are private.
structure SpeculativeDecoder where
  draftWindow : Nat
  maxWindow : Nat
  draftWindow_pos : 0 < draftWindow

namespace SpeculativeDecoder

-- `draft_window * 2` is a `usize` product.
def new (draftWindow : Nat) : Except SpeculativeError SpeculativeDecoder :=
  if h : draftWindow = 0 then
    .error .emptyDraftWindow
  else
    .ok {
      draftWindow
      maxWindow := draftWindow * 2 % 2 ^ 64
      draftWindow_pos := Nat.pos_of_ne_zero h }

def withMaxWindow (draftWindow maxWindow : Nat) : Except SpeculativeError SpeculativeDecoder :=
  if h : draftWindow = 0 ∨ maxWindow < draftWindow then
    .error .emptyDraftWindow
  else
    .ok {
      draftWindow
      maxWindow
      draftWindow_pos := Nat.pos_of_ne_zero (not_or.mp h).left }

def begin (decoder : SpeculativeDecoder) (prompt : List TokenId) : SpeculativeSession where
  draftWindow := decoder.draftWindow
  maxWindow := decoder.maxWindow
  prompt := prompt
  context := prompt
  stats := {}
  rejectedToken := none

variable {μ δ τ : Type} [DraftModel μ δ] [TargetModel μ τ]

-- One iteration of the `while` loop of `generate`, over the session and the tokens generated so far.
def iteration (maxNewTokens : Nat) (v : SpeculativeSession × List TokenId) :
    Eff (Models δ τ) SpeculativeError
      ((SpeculativeSession × List TokenId) ⊕ (SpeculativeSession × List TokenId)) :=
  let (session, generated) := v
  if generated.length < maxNewTokens then
    fun m =>
      match session.draft (maxNewTokens - generated.length) m with
      | (.error e, _, m) => (.error (.err e), m)
      | (.ok drafted, session, m) =>
        if drafted.isEmpty && !session.hasPendingRejection then
          (.ok (.inr (session, generated)), m)
        else
          let generated := generated ++ drafted
          if !session.hasPendingRejection then
            (.ok (.inl (session, generated)), m)
          else
            match session.takeRejectedToken with
            | (some token, session) => (.ok (.inl (session, generated ++ [token])), m)
            | (none, session)       => (.ok (.inl (session, generated)), m)
  else
    pure (.inr (session, generated))

def generate (fuel : Nat) (decoder : SpeculativeDecoder) (prompt : List TokenId)
    (maxNewTokens : Nat) : Eff (Models δ τ) SpeculativeError SpeculativeOutput := do
  let (session, generated) ← Eff.loop (iteration maxNewTokens) fuel (decoder.begin prompt, [])
  pure { tokens := generated, stats := session.stats }

end SpeculativeDecoder
