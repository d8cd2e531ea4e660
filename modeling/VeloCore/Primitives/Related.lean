import VeloCore.Primitives.Eff

open List

namespace Eff

variable {σ σ' ε α α' β β' γ : Type} {S : σ → σ' → Prop} {V : α → α' → Prop} {W : β → β' → Prop}

-- With values that `V` relates, or with the same fault
inductive Ends (V : α → α' → Prop) : Except (Fault ε) α → Except (Fault ε) α' → Prop
  | ok : V a a' → Ends V (.ok a) (.ok a')
  | error (e : Fault ε) : Ends V (.error e) (.error e)

-- From states that `S` relates, both calls come to such states, and end alike.
def Related (S : σ → σ' → Prop) (V : α → α' → Prop) (x : Eff σ ε α) (y : Eff σ' ε α') : Prop :=
  ∀ s s', S s s' → Ends V (x s).1 (y s').1 ∧ S (x s).2 (y s').2

namespace Related

theorem pure {a : α} {a' : α'} (h : V a a') : Related S V (Pure.pure a : Eff σ ε α) (Pure.pure a') :=
  fun _ _ hs => ⟨.ok h, hs⟩

theorem throw (e : ε) : Related S V (Eff.throw e) (Eff.throw e) :=
  fun _ _ hs => ⟨.error _, hs⟩

theorem panic : Related S V (Eff.panic : Eff σ ε α) Eff.panic :=
  fun _ _ hs => ⟨.error _, hs⟩

theorem bind {x : Eff σ ε α} {y : Eff σ' ε α'} {f : α → Eff σ ε β} {g : α' → Eff σ' ε β'} (hx : Related S V x y)
    (hf : ∀ a a', V a a' → Related S W (f a) (g a')) : Related S W (x >>= f) (y >>= g) := by
  intro s s' hs
  have h := hx s s' hs
  rcases hx₁ : x s with ⟨r, t⟩
  rcases hy₁ : y s' with ⟨r', t'⟩
  rw [hx₁, hy₁] at h
  obtain ⟨hr, ht⟩ := h
  cases hr
  case ok hv  => rw [bind_ok hx₁, bind_ok hy₁]; exact hf _ _ hv t t' ht
  case error e => rw [bind_error hx₁, bind_error hy₁]; exact ⟨.error e, ht⟩

theorem index {f : α → γ} {g : α' → γ} {l : List α} {l' : List α'} (h : l.map f = l'.map g) (i : Nat) :
    Related S (fun a a' => f a = g a') (Eff.index l i : Eff σ ε α) (Eff.index l' i) := by
  intro s s' hs
  have hi : (l[i]?).map f = (l'[i]?).map g := by
    rw [← getElem?_map, ← getElem?_map, h]
  unfold Eff.index
  cases hl : l[i]? <;> cases hl' : l'[i]? <;> rw [hl, hl'] at hi
  case none.none => exact ⟨.error _, hs⟩
  case none.some => cases hi
  case some.none => cases hi
  case some.some => exact ⟨.ok (Option.some.inj hi), hs⟩

theorem zoom {σ₁ σ₁' ε' : Type} {T : σ₁ → σ₁' → Prop} {get : σ → σ₁} {set : σ₁ → σ → σ} {get' : σ' → σ₁'} {set' : σ₁' → σ' → σ'}
    {into : ε' → ε} {x : Eff σ₁ ε' α} {y : Eff σ₁' ε' α'} (h : Related T V x y) (hget : ∀ s s', S s s' → T (get s) (get' s'))
    (hset : ∀ s s' t t', S s s' → T t t' → S (set t s) (set' t' s')) :
    Related S V (Eff.zoom get set into x) (Eff.zoom get' set' into y) := by
  intro s s' hs
  have hh := h _ _ (hget s s' hs)
  rcases hx₁ : x (get s) with ⟨r, t⟩
  rcases hy₁ : y (get' s') with ⟨r', t'⟩
  rw [hx₁, hy₁] at hh
  obtain ⟨hr, ht⟩ := hh
  refine ⟨?_, ?_⟩
  case refine_2 => rw [zoom_snd, zoom_snd, hx₁, hy₁]; exact hset s s' t t' hs ht
  case refine_1 =>
    unfold Eff.zoom
    rw [hx₁, hy₁]
    cases hr
    case ok hv   => exact .ok hv
    case error e => cases e <;> exact .error _

theorem call {f : σ → Except ε α × σ} {g : σ' → Except ε α × σ'}
    (h : ∀ s s', S s s' → (f s).1 = (g s').1 ∧ S (f s).2 (g s').2) : Related S Eq (Eff.call f) (Eff.call g) := by
  intro s s' hs
  have hh := h s s' hs
  unfold Eff.call
  rcases hf : f s with ⟨r, t⟩
  rcases hg : g s' with ⟨r', t'⟩
  rw [hf, hg] at hh
  obtain ⟨hr, ht⟩ := hh
  cases hr
  cases r
  case ok    => exact ⟨.ok rfl, ht⟩
  case error => exact ⟨.error _, ht⟩

-- The iterations keep what the loop variables have in common.
theorem loop {body : α → Eff σ ε (α ⊕ β)} {body' : α' → Eff σ' ε (α' ⊕ β')}
    (h : ∀ a a', V a a' → Related S (Sum.LiftRel V W) (body a) (body' a')) (n : Nat) {a : α} {a' : α'} (ha : V a a') :
    Related S W (Eff.loop body n a) (Eff.loop body' n a') := by
  induction n generalizing a a'
  case zero => exact fun _ _ hs => ⟨.error _, hs⟩
  case succ n hi =>
    refine (h a a' ha).bind fun r r' hr => ?_
    cases hr
    case inl hv => exact hi hv
    case inr hw => exact .pure hw

theorem ok {x : Eff σ ε α} {y : Eff σ' ε α'} (h : Related S V x y) (hs : S s s') (hx : x s = (.ok a, t)) (hy : y s' = (.ok a', t')) :
    V a a' ∧ S t t' := by
  obtain ⟨hr, ht⟩ := h s s' hs
  rw [hx, hy] at hr ht
  cases hr
  case ok hv => exact ⟨hv, ht⟩

end Related
end Eff
