import VeloCore.Objects.Speculative.Model

structure SpeculativeStats where
  draftCalls : Nat := 0
  targetCalls : Nat := 0
  draftedTokens : Nat := 0
  acceptedTokens : Nat := 0
  rejectedTokens : Nat := 0
deriving DecidableEq, Repr

structure SpeculativeSession where
  draftWindow : Nat
  maxWindow : Nat
  prompt : List TokenId
  context : List TokenId
  stats : SpeculativeStats
  rejectedToken : Option TokenId
deriving DecidableEq, Repr

namespace SpeculativeSession

def hasPendingRejection (s : SpeculativeSession) : Bool :=
  s.rejectedToken.isSome

def takeRejectedToken (s : SpeculativeSession) : Option TokenId × SpeculativeSession :=
  (s.rejectedToken, { s with rejectedToken := none })

def currentWindow (s : SpeculativeSession) : Nat :=
  s.draftWindow

def recordDraftCall (s : SpeculativeSession) : SpeculativeSession :=
  { s with stats := { s.stats with draftCalls := s.stats.draftCalls + 1 } }

def recordTargetCall (s : SpeculativeSession) : SpeculativeSession :=
  { s with stats := { s.stats with targetCalls := s.stats.targetCalls + 1 } }

def recordDrafted (s : SpeculativeSession) (n : Nat) : SpeculativeSession :=
  { s with stats := { s.stats with draftedTokens := s.stats.draftedTokens + n } }

def adjustWindow (s : SpeculativeSession) (acceptedCount draftedCount : Nat) :
    SpeculativeSession :=
  if acceptedCount = draftedCount then
    if s.draftWindow < s.maxWindow then { s with draftWindow := s.draftWindow + 1 } else s
  else
    { s with draftWindow := max (acceptedCount + 1) 1 }

-- The comparison loop that `draft` and `commit` both contain: how many tokens are accepted, and the
-- index and the target's token of the first rejection.
def compare (accepted index : Nat) : List TokenId → List VerifyStep → Nat × Option (Nat × TokenId)
  | draftToken :: drafted, targetStep :: verified =>
    if draftToken = targetStep.expected then
      compare (accepted + 1) (index + 1) drafted verified
    else
      (accepted, some (index, targetStep.expected))
  | _, _ => (accepted, none)

def accept (s : SpeculativeSession) (tokens : List TokenId) : SpeculativeSession :=
  if 0 < tokens.length then
    { s with
      context := s.context ++ tokens
      stats := { s.stats with acceptedTokens := s.stats.acceptedTokens + tokens.length } }
  else
    s

def reject (s : SpeculativeSession) (drafted : Nat) : Option (Nat × TokenId) → SpeculativeSession
  | some (rejectedIndex, targetToken) =>
    { s with
      context := s.context ++ [targetToken]
      rejectedToken := some targetToken
      stats := { s.stats with
        rejectedTokens := s.stats.rejectedTokens + (drafted - rejectedIndex) } }
  | none => { s with rejectedToken := none }

-- The part that `draft` and `commit` have in common, from the comparison loop on.
def resolve (s : SpeculativeSession) (drafted : List TokenId) (verified : List VerifyStep) :
    List TokenId × SpeculativeSession :=
  let (acceptedThisRound, rejected) := compare 0 0 drafted verified
  let accepted := drafted.take acceptedThisRound
  (accepted,
    (s.accept accepted).reject drafted.length rejected
      |>.adjustWindow acceptedThisRound drafted.length)

def commit (s : SpeculativeSession) (drafted : List NextTokenPrediction)
    (verified : List VerifyStep) : Except SpeculativeError (List TokenId) × SpeculativeSession :=
  if verified.length ≠ drafted.length then
    (.error (.targetReturnedWrongLength drafted.length verified.length), s)
  else
    let (accepted, s) := (s.recordDrafted drafted.length).resolve (drafted.map (·.token)) verified
    (.ok accepted, s)

def draft [DraftModel μ δ] [TargetModel μ τ] (maxNewTokens : Nat) (s : SpeculativeSession)
    (m : Models δ τ) :
    Except SpeculativeError (List TokenId) × SpeculativeSession × Models δ τ :=
  let requested := min maxNewTokens s.draftWindow
  match DraftModel.draft s.context requested none m.draft with
  | (.error e, _, d) => (.error e, s, { m with draft := d })
  | (.ok predictions, _, d) =>
    let m := { m with draft := d }
    let s := s.recordDraftCall
    if predictions.length > requested then
      (.error (.draftReturnedTooMany requested predictions.length), s, m)
    else if predictions.isEmpty then
      (.ok [], s, m)
    else
      let drafted := predictions.map (·.token)
      let s := s.recordDrafted drafted.length
      match TargetModel.verify s.context drafted none m.target with
      | (.error e, _, t) => (.error e, s, { m with target := t })
      | (.ok verified, _, t) =>
        let m := { m with target := t }
        let s := s.recordTargetCall
        if verified.length ≠ drafted.length then
          (.error (.targetReturnedWrongLength drafted.length verified.length), s, m)
        else
          let (accepted, s) := s.resolve drafted verified
          (.ok accepted, s, m)

end SpeculativeSession
