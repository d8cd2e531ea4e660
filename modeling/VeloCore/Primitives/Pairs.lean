import VeloCore.Primitives.Eff

-- Two loops that run side by side.
namespace Eff

variable {σ σ' ε ε' α α' β β' : Type} {body : α → Eff σ ε (α ⊕ β)} {body' : α' → Eff σ' ε' (α' ⊕ β')}
  {a : α} {a' : α'} {s : σ} {s' : σ'} {n : Nat}

-- What the bodies have to do together for `I` to relate the loops and `Q` their outcomes.
def Pair (I : α → σ → α' → σ' → Prop) (Q : Except (Fault ε) β → Except (Fault ε') β' → Prop) :
    Except (Fault ε) (α ⊕ β) × σ → Except (Fault ε') (α' ⊕ β') × σ' → Prop
  | (.ok (.inl a), s), (.ok (.inl a'), s') => I a s a' s'
  | (.ok (.inr b), _), (.ok (.inr b'), _)  => Q (.ok b) (.ok b')
  | (.error e, _), (.error e', _)          => Q (.error e) (.error e')
  | _, _                                   => False

-- Loops that go on together end together, before they are cut off.
theorem loop_pair {I : α → σ → α' → σ' → Prop} {Q : Except (Fault ε) β → Except (Fault ε') β' → Prop} {V : α → Nat}
    (step : ∀ a s a' s', I a s a' s' → Pair (fun b t b' t' => I b t b' t' ∧ V b < V a) Q (body a s) (body' a' s'))
    (h : I a s a' s') (hn : V a < n) : Q (loop body n a s).1 (loop body' n a' s').1 := by
  induction n generalizing a s a' s'
  case zero => omega
  case succ n hi =>
    have hs := step a s a' s' h
    match hb : body a s, hb' : body' a' s' with
    | (.ok (.inl b), t), (.ok (.inl b'), t') =>
      rw [loop_succ_next hb, loop_succ_next hb']
      rw [hb, hb'] at hs
      exact hi hs.left (by have := hs.right; omega)
    | (.ok (.inr b), t), (.ok (.inr b'), t') =>
      rw [loop_succ_exit hb, loop_succ_exit hb']
      rw [hb, hb'] at hs
      exact hs
    | (.error e, t), (.error e', t') =>
      rw [loop_succ_error hb, loop_succ_error hb']
      rw [hb, hb'] at hs
      exact hs
    | (.ok (.inl b), t), (.ok (.inr b'), t') | (.ok (.inr b), t), (.ok (.inl b'), t') | (.ok (.inl b), t), (.error e', t')
    | (.ok (.inr b), t), (.error e', t') | (.error e, t), (.ok (.inl b'), t') | (.error e, t), (.ok (.inr b'), t') =>
      rw [hb, hb'] at hs
      exact hs.elim

end Eff
