import VeloCore.Objects.Speculative.Session
import VeloCore.Primitives.Continuation

open List

namespace SpeculativeSession

variable {s : SpeculativeSession} {f : List TokenId → TokenId}

-- The comparison loop stops at the end of the common prefix of the draft and the target's choices.
theorem compare_eq (h : verified.length = drafted.length) :
    compare a i drafted verified =
      let k := commonPrefixLen drafted (verified.map (·.expected))
      (a + k, verified[k]?.map fun v => (i + k, v.expected)) := by
  induction drafted generalizing verified a i <;> cases verified <;> simp at h
  case nil.nil => simp [compare]
  case cons.cons d ds hi v vs =>
    simp only [compare, map_cons, commonPrefixLen_cons]
    split
    case isTrue => simp [hi h, Nat.add_assoc, Nat.add_comm 1]
    case isFalse => simp

@[simp] theorem accept_prompt : (s.accept l).prompt = s.prompt := by
  unfold accept; split <;> rfl

@[simp] theorem accept_context : (s.accept l).context = s.context ++ l := by
  unfold accept; split <;> simp_all

@[simp] theorem accept_draftWindow : (s.accept l).draftWindow = s.draftWindow := by
  unfold accept; split <;> rfl

@[simp] theorem accept_targetCalls : (s.accept l).stats.targetCalls = s.stats.targetCalls := by
  unfold accept; split <;> rfl

@[simp] theorem reject_prompt : (s.reject n r).prompt = s.prompt := by
  unfold reject; split <;> rfl

@[simp] theorem reject_rejectedToken : (s.reject n r).rejectedToken = r.map (·.2) := by
  unfold reject; split <;> rfl

@[simp] theorem reject_context : (s.reject n r).context = s.context ++ (r.map (·.2)).toList := by
  unfold reject; split <;> simp

@[simp] theorem reject_targetCalls : (s.reject n r).stats.targetCalls = s.stats.targetCalls := by
  unfold reject; split <;> rfl

@[simp] theorem reject_draftWindow : (s.reject n r).draftWindow = s.draftWindow := by
  unfold reject; split <;> rfl

@[simp] theorem adjustWindow_prompt : (s.adjustWindow a d).prompt = s.prompt := by
  unfold adjustWindow; split <;> (try split) <;> rfl

@[simp] theorem adjustWindow_context : (s.adjustWindow a d).context = s.context := by
  unfold adjustWindow; split <;> (try split) <;> rfl

@[simp] theorem adjustWindow_rejectedToken :
    (s.adjustWindow a d).rejectedToken = s.rejectedToken := by
  unfold adjustWindow; split <;> (try split) <;> rfl

@[simp] theorem adjustWindow_stats : (s.adjustWindow a d).stats = s.stats := by
  unfold adjustWindow; split <;> (try split) <;> rfl

theorem adjustWindow_pos (h : 0 < s.draftWindow) : 0 < (s.adjustWindow a d).draftWindow := by
  unfold adjustWindow
  split
  · split <;> simp [h]
  · simp

-- What a round hands on to the user: the accepted tokens and the corrected one.
def emitted (accepted : List TokenId) (s : SpeculativeSession) : List TokenId :=
  accepted ++ s.rejectedToken.toList

-- What a round does to the session, whatever the draft was, when the target answers by `f`.
structure Emits (f : List TokenId → TokenId) (s : SpeculativeSession) (drafted : Nat)
    (accepted : List TokenId) (s' : SpeculativeSession) : Prop where
  prompt      : s'.prompt = s.prompt
  context     : s'.context = s.context ++ emitted accepted s'
  follows     : Follows f s.context (emitted accepted s')
  length_le   : (emitted accepted s').length ≤ drafted
  progress    : 0 < drafted → 0 < (emitted accepted s').length
  window      : 0 < s.draftWindow → 0 < s'.draftWindow

theorem resolve_context :
    (s.resolve drafted verified).2.context =
      s.context ++ emitted (s.resolve drafted verified).1 (s.resolve drafted verified).2 := by
  simp [resolve, emitted]

theorem resolve_prompt : (s.resolve drafted verified).2.prompt = s.prompt := by
  simp [resolve]

theorem resolve_targetCalls :
    (s.resolve drafted verified).2.stats.targetCalls = s.stats.targetCalls := by
  simp [resolve]

-- The accepted tokens are those that agree with the target, and the corrected token, if there is one, is
-- what the target chooses after them.
theorem resolve_emitted (h : verified.map (·.expected) = expectedAfter f s.context drafted) :
    emitted (s.resolve drafted verified).1 (s.resolve drafted verified).2 =
      let k := commonPrefixLen drafted (expectedAfter f s.context drafted)
      drafted.take k ++ (if k < drafted.length then [f (s.context ++ drafted.take k)] else []) := by
  have hlen : verified.length = drafted.length := by simpa using congrArg length h
  have hk := commonPrefixLen_le_left (l := drafted) (r := expectedAfter f s.context drafted)
  simp only
  set k := commonPrefixLen drafted (expectedAfter f s.context drafted) with hkd
  have hv : verified[k]?.map (·.expected) = (expectedAfter f s.context drafted)[k]? := by
    rw [← h, getElem?_map]
  simp only [resolve, compare_eq hlen, h, ← hkd, emitted, Nat.zero_add, adjustWindow_rejectedToken,
    reject_rejectedToken, Option.map_map, Function.comp_def, hv]
  split
  case isTrue hlt => simp [expectedAfter_getElem? hlt]
  case isFalse hge => simpa using hge

theorem resolve_emits (h : verified.map (·.expected) = expectedAfter f s.context drafted) :
    Emits f s drafted.length (s.resolve drafted verified).1 (s.resolve drafted verified).2 := by
  have hk := commonPrefixLen_le_left (l := drafted) (r := expectedAfter f s.context drafted)
  have hf : Follows f s.context (drafted.take (commonPrefixLen drafted (expectedAfter f s.context drafted))) :=
    follows_take_commonPrefixLen
  have he := resolve_emitted h
  simp only at he
  set k := commonPrefixLen drafted (expectedAfter f s.context drafted)
  refine ⟨by simp [resolve], resolve_context, ?_, ?_, ?_, fun hw => ?_⟩
  all_goals try rw [he]
  case refine_1 =>
    refine hf.append ?_
    split
    · exact .single
    · exact .nil
  case refine_2 =>
    split
    · simp; omega
    · simp
  case refine_3 =>
    split
    · simp
    · simp; omega
  case refine_4 => exact adjustWindow_pos (by simpa using hw)

theorem commit_eq (h : verified.length = drafted.length) :
    s.commit drafted verified =
      (.ok ((s.recordDrafted drafted.length).resolve (drafted.map (·.token)) verified).1,
        ((s.recordDrafted drafted.length).resolve (drafted.map (·.token)) verified).2) := by
  simp [commit, h]

theorem commit_emits
    (h : verified.map (·.expected) = expectedAfter f s.context (drafted.map (·.token))) :
    ∃ accepted s', s.commit drafted verified = (.ok accepted, s') ∧
      Emits f s drafted.length accepted s' := by
  have hlen : verified.length = drafted.length := by simpa using congrArg length h
  refine ⟨_, _, commit_eq hlen, ?_⟩
  have e := resolve_emits (s := s.recordDrafted drafted.length) h
  exact ⟨e.prompt, e.context, e.follows, by simpa using e.length_le, by simpa using e.progress,
    e.window⟩

end SpeculativeSession
