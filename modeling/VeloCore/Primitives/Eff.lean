import Mathlib.Tactic

-- How a call ends when it does not return `Ok`. A Rust call can return `Err`, panic, or keep on
-- running; `unfinished` stands for a loop that was cut off by its bound.
inductive Fault (ε : Type)
  | err (e : ε)
  | panic
  | unfinished
deriving DecidableEq, Repr

-- The result was handed back to the caller.
def Fault.Returned : Except (Fault ε) α → Prop
  | .ok _ | .error (.err _) => True
  | .error .panic | .error .unfinished => False

instance (r : Except (Fault ε) α) : Decidable (Fault.Returned r) :=
  match r with
  | .ok _ | .error (.err _) => inferInstanceAs (Decidable True)
  | .error .panic | .error .unfinished => inferInstanceAs (Decidable False)

-- A `fn(&mut self) -> Result<α, ε>`: unlike in `ExceptT` over a rolled back state, everything that
-- was written before an early return stays written.
def Eff (σ ε α : Type) := σ → Except (Fault ε) α × σ

namespace Eff

variable {σ τ ε ε' α β : Type} {x : Eff σ ε α} {f : α → Eff σ ε β} {s : σ}

instance : Monad (Eff σ ε) where
  pure a := fun s => (.ok a, s)
  bind x f := fun s =>
    match x s with
    | (.ok a, s')    => f a s'
    | (.error e, s') => (.error e, s')

@[ext]
theorem ext {x y : Eff σ ε α} (h : ∀ s, x s = y s) : x = y :=
  funext h

theorem pure_apply (a : α) : (pure a : Eff σ ε α) s = (.ok a, s) :=
  rfl

theorem bind_apply :
    (x >>= f) s = match x s with | (.ok a, s') => f a s' | (.error e, s') => (.error e, s') :=
  rfl

theorem bind_ok (h : x s = (.ok a, s₁)) : (x >>= f) s = f a s₁ := by
  simp [bind_apply, h]

theorem bind_error (h : x s = (.error e, s₁)) : (x >>= f) s = (.error e, s₁) := by
  simp [bind_apply, h]

theorem bind_eq_ok_iff :
    (x >>= f) s = (.ok b, s₂) ↔ ∃ a s₁, x s = (.ok a, s₁) ∧ f a s₁ = (.ok b, s₂) := by
  rw [bind_apply]
  split
  case h_1 a s₁ h => simp [h]
  case h_2 e s₁ h => simp [h]

theorem bind_pure_snd (g : α → β) : ((x >>= fun a => (pure (g a) : Eff σ ε β)) s).2 = (x s).2 := by
  rw [bind_apply]
  split
  case h_1 h => simp [h, pure_apply]
  case h_2 h => simp [h]

instance : LawfulMonad (Eff σ ε) :=
  LawfulMonad.mk' _
    (fun x => by
      ext1 s
      change (match x s with | (.ok a, s') => (.ok a, s') | (.error e, s') => (.error e, s')) = x s
      split <;> simp_all)
    (fun _ _ => rfl)
    (fun x f g => by
      ext1 s
      simp only [bind_apply]
      cases x s with
      | mk r s' => cases r <;> rfl)

-- The operations of the monad

def throw (e : ε) : Eff σ ε α :=
  fun s => (.error (.err e), s)

def panic : Eff σ ε α :=
  fun s => (.error .panic, s)

-- `a[i]`, which panics when the index is out of range.
def index (l : List α) (i : Nat) : Eff σ ε α :=
  fun s =>
    match l[i]? with
    | some a => (.ok a, s)
    | none   => (.error .panic, s)

def get : Eff σ ε σ :=
  fun s => (.ok s, s)

def modify (g : σ → σ) : Eff σ ε Unit :=
  fun s => (.ok (), g s)

-- A method that cannot panic, called with `?`.
def call (f : σ → Except ε α × σ) : Eff σ ε α :=
  fun s =>
    match f s with
    | (.ok a, s')    => (.ok a, s')
    | (.error e, s') => (.error (.err e), s')

-- `if let Err(e) = x { .. }`: an error of `x` becomes a value, the state is not rolled back.
def attempt (x : Eff σ ε α) : Eff σ ε (Except ε α) :=
  fun s =>
    match x s with
    | (.ok a, s')           => (.ok (.ok a), s')
    | (.error (.err e), s') => (.ok (.error e), s')
    | (.error .panic, s')      => (.error .panic, s')
    | (.error .unfinished, s') => (.error .unfinished, s')

-- Runs `x` on a component of the state, its errors converted by `?`.
def zoom (get : σ → τ) (set : τ → σ → σ) (into : ε' → ε) (x : Eff τ ε' α) : Eff σ ε α :=
  fun s =>
    match x (get s) with
    | (.ok a, t)           => (.ok a, set t s)
    | (.error (.err e), t) => (.error (.err (into e)), set t s)
    | (.error .panic, t)      => (.error .panic, set t s)
    | (.error .unfinished, t) => (.error .unfinished, set t s)

theorem throw_apply (e : ε) : (throw e : Eff σ ε α) s = (.error (.err e), s) :=
  rfl

theorem get_apply : (get : Eff σ ε σ) s = (.ok s, s) :=
  rfl

theorem call_ok {f : σ → Except ε α × σ} (h : f s = (.ok a, s₁)) : call f s = (.ok a, s₁) := by
  simp [call, h]

theorem call_error {f : σ → Except ε α × σ} (h : f s = (.error e, s₁)) :
    call f s = (.error (.err e), s₁) := by
  simp [call, h]

theorem attempt_ok (h : x s = (.ok a, s₁)) : attempt x s = (.ok (.ok a), s₁) := by
  simp [attempt, h]

theorem attempt_error (h : x s = (.error (.err e), s₁)) : attempt x s = (.ok (.error e), s₁) := by
  simp [attempt, h]

theorem call_eq_ok_iff {f : σ → Except ε α × σ} :
    call f s = (.ok a, s₁) ↔ f s = (.ok a, s₁) := by
  unfold call
  split <;> simp_all

theorem attempt_eq_ok_iff : attempt x s = (.ok (.ok a), s₁) ↔ x s = (.ok a, s₁) := by
  unfold attempt
  split <;> simp_all

theorem call_snd (f : σ → Except ε α × σ) (s : σ) : (call f s).2 = (f s).2 := by
  unfold call
  split <;> simp_all

theorem attempt_snd (x : Eff σ ε α) (s : σ) : (attempt x s).2 = (x s).2 := by
  unfold attempt
  split <;> simp_all

theorem index_snd (l : List α) (i : Nat) (s : σ) : ((index l i : Eff σ ε α) s).2 = s := by
  unfold index
  split <;> rfl

theorem index_eq_ok {l : List α} {i : Nat} (h : (index l i : Eff σ ε α) s = (.ok a, s₁)) :
    l[i]? = some a ∧ s₁ = s := by
  unfold index at h
  split at h <;> cases h
  exact ⟨‹_›, rfl⟩

section Zoom

variable {get : σ → τ} {set : τ → σ → σ} {into : ε' → ε} {y : Eff τ ε' α} {t : τ}

theorem zoom_ok (h : y (get s) = (.ok a, t)) : zoom get set into y s = (.ok a, set t s) := by
  simp [zoom, h]

theorem zoom_eq_ok_iff :
    zoom get set into y s = (.ok a, s₁) ↔ ∃ t, y (get s) = (.ok a, t) ∧ s₁ = set t s := by
  unfold zoom
  split <;> simp_all [eq_comm]

theorem zoom_snd : (zoom get set into y s).2 = set (y (get s)).2 s := by
  unfold zoom
  split <;> simp_all

end Zoom

-- `x` returns `Ok`, with a value and in a state that satisfy `Q`.
def Returns (x : Eff σ ε α) (s : σ) (Q : α → σ → Prop) : Prop :=
  ∃ a s', x s = (.ok a, s') ∧ Q a s'

namespace Returns

variable {P Q : α → σ → Prop} {R : β → σ → Prop}

theorem pure (h : Q a s) : Returns (Pure.pure a : Eff σ ε α) s Q :=
  ⟨a, s, rfl, h⟩

theorem get {Q : σ → σ → Prop} (h : Q s s) : Returns (Eff.get : Eff σ ε σ) s Q :=
  ⟨s, s, rfl, h⟩

theorem modify {Q : Unit → σ → Prop} {g : σ → σ} (h : Q () (g s)) :
    Returns (Eff.modify g : Eff σ ε Unit) s Q :=
  ⟨(), g s, rfl, h⟩

theorem index {l : List α} {i : Nat} (hi : l[i]? = some a) (h : Q a s) :
    Returns (Eff.index l i : Eff σ ε α) s Q :=
  ⟨a, s, by simp [Eff.index, hi], h⟩

theorem bind (h : Returns x s fun a s' => Returns (f a) s' R) : Returns (x >>= f) s R := by
  obtain ⟨a, s', hx, b, s'', hf, hr⟩ := h
  exact ⟨b, s'', by rw [bind_ok hx, hf], hr⟩

theorem mono (hx : Returns x s P) (h : ∀ a s', P a s' → Q a s') : Returns x s Q :=
  have ⟨a, s', hx, hp⟩ := hx
  ⟨a, s', hx, h a s' hp⟩

end Returns

-- Every outcome of `x` keeps `I`.
def Keeps (I : σ → Prop) (x : Eff σ ε α) : Prop :=
  ∀ s, I s → I (x s).2

namespace Keeps

variable {I : σ → Prop}

theorem pure (a : α) : Keeps I (Pure.pure a : Eff σ ε α) :=
  fun _ h => h

theorem throw (e : ε) : Keeps I (Eff.throw e : Eff σ ε α) :=
  fun _ h => h

theorem get : Keeps I (Eff.get : Eff σ ε σ) :=
  fun _ h => h

theorem index (l : List α) (i : Nat) : Keeps I (Eff.index l i : Eff σ ε α) :=
  fun s h => (index_snd l i s).symm ▸ h

theorem attempt (hx : Keeps I x) : Keeps I (Eff.attempt x) :=
  fun s hs => attempt_snd x s ▸ hx s hs

theorem call {f : σ → Except ε α × σ} (h : ∀ s, I s → I (f s).2) : Keeps I (Eff.call f) :=
  fun s hs => call_snd f s ▸ h s hs

theorem zoom {J : τ → Prop} {get : σ → τ} {set : τ → σ → σ} {into : ε' → ε} {y : Eff τ ε' α}
    (hy : Keeps J y) (hget : ∀ s, I s → J (get s)) (hset : ∀ s t, I s → J t → I (set t s)) :
    Keeps I (Eff.zoom get set into y) :=
  fun s hs => zoom_snd ▸ hset s _ hs (hy _ (hget s hs))

theorem bind (hx : Keeps I x) (hf : ∀ a, Keeps I (f a)) : Keeps I (x >>= f) := by
  intro s hs
  have hx := hx s hs
  rw [bind_apply]
  split
  case h_1 a s' h => exact hf a s' (by simpa [h] using hx)
  case h_2 e s' h => simpa [h] using hx

end Keeps

-- `x` neither panics nor runs on, and keeps `I`.
def Settles (I : σ → Prop) (x : Eff σ ε α) : Prop :=
  ∀ s, I s → Fault.Returned (x s).1 ∧ I (x s).2

namespace Settles

variable {I : σ → Prop}

theorem pure (a : α) : Settles I (Pure.pure a : Eff σ ε α) :=
  fun _ h => ⟨trivial, h⟩

theorem throw (e : ε) : Settles I (Eff.throw e : Eff σ ε α) :=
  fun _ h => ⟨trivial, h⟩

theorem get : Settles I (Eff.get : Eff σ ε σ) :=
  fun _ h => ⟨trivial, h⟩

theorem call {f : σ → Except ε α × σ} (h : ∀ s, I s → I (f s).2) : Settles I (Eff.call f) := by
  intro s hs
  have hi := h s hs
  unfold Eff.call
  split
  case h_1 heq => rw [heq] at hi; exact ⟨trivial, hi⟩
  case h_2 heq => rw [heq] at hi; exact ⟨trivial, hi⟩

theorem zoom {J : τ → Prop} {get : σ → τ} {set : τ → σ → σ} {into : ε' → ε} {y : Eff τ ε' α}
    (hy : Settles J y) (hget : ∀ s, I s → J (get s)) (hset : ∀ s t, I s → J t → I (set t s)) :
    Settles I (Eff.zoom get set into y) := by
  intro s hs
  have ⟨hr, hj⟩ := hy (get s) (hget s hs)
  refine ⟨?_, zoom_snd ▸ hset s _ hs hj⟩
  unfold Eff.zoom
  split
  case h_1 => trivial
  case h_2 => trivial
  case h_3 heq => rw [heq] at hr; exact hr
  case h_4 heq => rw [heq] at hr; exact hr

theorem bind (hx : Settles I x) (hf : ∀ a, Settles I (f a)) : Settles I (x >>= f) := by
  intro s hs
  have h := hx s hs
  rw [bind_apply]
  split
  case h_1 a s' heq => rw [heq] at h; exact hf a s' h.right
  case h_2 e s' heq =>
    rw [heq] at h
    refine ⟨?_, h.right⟩
    cases e
    case err => trivial
    all_goals exact h.left

end Settles

-- `while` and `loop`: the body goes on with new values of the loop variables or leaves the loop.
def loop (body : α → Eff σ ε (α ⊕ β)) : Nat → α → Eff σ ε β
  | 0, _     => fun s => (.error .unfinished, s)
  | n + 1, a => do
    match ← body a with
    | .inl a' => loop body n a'
    | .inr b  => Pure.pure b

section Loop

variable {body : α → Eff σ ε (α ⊕ β)} {I : α → σ → Prop} {Q : Except (Fault ε) β → σ → Prop}

-- What the body has to do for `I` to be an invariant and `Q` a postcondition of the loop.
def Step (I : α → σ → Prop) (Q : Except (Fault ε) β → σ → Prop) :
    Except (Fault ε) (α ⊕ β) × σ → Prop
  | (.ok (.inl a'), s') => I a' s'
  | (.ok (.inr b), s')  => Q (.ok b) s'
  | (.error e, s')      => Q (.error e) s'

theorem loop_succ_next (h : body a s = (.ok (.inl a'), s₁)) :
    loop body (n + 1) a s = loop body n a' s₁ := by
  rw [loop, bind_ok h]

theorem loop_succ_exit (h : body a s = (.ok (.inr b), s₁)) :
    loop body (n + 1) a s = (.ok b, s₁) := by
  rw [loop, bind_ok h]
  rfl

theorem loop_succ_error (h : body a s = (.error e, s₁)) :
    loop body (n + 1) a s = (.error e, s₁) := by
  rw [loop, bind_error h]

theorem loop_invariant
    (step : ∀ a s, I a s → Step I Q (body a s)) (cut : ∀ a s, I a s → Q (.error .unfinished) s)
    (h : I a s) : Q (loop body n a s).1 (loop body n a s).2 := by
  induction n generalizing a s
  case zero => exact cut a s h
  case succ n hi =>
    have hs := step a s h
    match hb : body a s with
    | (.ok (.inl a'), s') => rw [loop_succ_next hb]; rw [hb] at hs; exact hi hs
    | (.ok (.inr b), s')  => rw [loop_succ_exit hb]; rw [hb] at hs; exact hs
    | (.error e, s')      => rw [loop_succ_error hb]; rw [hb] at hs; exact hs

theorem Keeps.loop {I : σ → Prop} (h : ∀ a, Keeps I (body a)) : Keeps I (loop body n a) := by
  intro s hs
  refine loop_invariant (I := fun _ => I) (Q := fun _ => I) (fun a s hs => ?_) (fun _ _ => id) hs
  have hs := h a s hs
  match hb : body a s with
  | (.ok (.inl _), _) | (.ok (.inr _), _) | (.error _, _) => rw [hb] at hs; exact hs

-- The variant bounds the number of iterations, so a loop with more fuel than that is not cut off.
theorem loop_total {V : α → σ → Nat}
    (step : ∀ a s, I a s → Step (fun a' s' => I a' s' ∧ V a' s' < V a s) Q (body a s))
    (h : I a s) (hn : V a s < n) : Q (loop body n a s).1 (loop body n a s).2 := by
  induction n generalizing a s
  case zero => omega
  case succ n hi =>
    have hs := step a s h
    match hb : body a s with
    | (.ok (.inl a'), s') =>
      rw [loop_succ_next hb]
      rw [hb] at hs
      exact hi hs.left (by have := hs.right; omega)
    | (.ok (.inr b), s') => rw [loop_succ_exit hb]; rw [hb] at hs; exact hs
    | (.error e, s')     => rw [loop_succ_error hb]; rw [hb] at hs; exact hs

theorem Returns.loop {V : α → σ → Nat} {P : β → σ → Prop}
    (step : ∀ a s, I a s → Returns (body a) s fun r s' =>
      Sum.elim (fun a' => I a' s' ∧ V a' s' < V a s) (P · s') r)
    (h : I a s) (hn : V a s < n) : Returns (loop body n a) s P := by
  have step : ∀ a s, I a s → Step (fun a' s' => I a' s' ∧ V a' s' < V a s)
      (fun r s' => ∃ b, r = .ok b ∧ P b s') (body a s) := by
    intro a s h
    obtain ⟨r, s', hb, hr⟩ := step a s h
    rw [hb]
    cases r
    case inl   => exact hr
    case inr b => exact ⟨b, rfl, hr⟩
  obtain ⟨b, hb, hp⟩ := loop_total step h hn
  exact ⟨b, _, Prod.ext hb rfl, hp⟩

-- The states in which the body of the loop is entered.
inductive Heads (body : α → Eff σ ε (α ⊕ β)) (a : α) (s : σ) : α → σ → Prop
  | refl : Heads body a s a s
  | step : Heads body a s b t → body b t = (.ok (.inl b'), t') → Heads body a s b' t'

theorem Heads.invariant
    (step : ∀ a s a' s', I a s → body a s = (.ok (.inl a'), s') → I a' s')
    (h : I a s) : Heads body a s a' s' → I a' s'
  | .refl      => h
  | .step hh e => step _ _ _ _ (hh.invariant step h) e

-- From each head on, the loop ends as it does from the first one.
theorem Heads.loop_eq_ok (hh : Heads body a s b t) (h : loop body n a s = (.ok r, s')) :
    ∃ n, loop body n b t = (.ok r, s') := by
  induction hh
  case refl => exact ⟨n, h⟩
  case step _ hb hi =>
    have ⟨n, h⟩ := hi
    cases n
    case zero => cases h
    case succ n => exact ⟨n, (loop_succ_next hb).symm.trans h⟩

end Loop
end Eff
