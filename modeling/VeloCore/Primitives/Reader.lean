import VeloCore.Primitives.Eff
import VeloCore.Primitives.Bytes

open List

namespace Eff

variable {σ τ ε ε' α β : Type} {x : Eff σ ε α} {f : α → Eff σ ε β} {s : σ}

-- `option.ok_or(e)?`
def okOr (o : Option α) (e : ε) : Eff σ ε α :=
  match o with
  | some a => pure a
  | none   => throw e

-- The result of an operation on `u64`, with overflow checks.
def checked (n : Nat) : Eff σ ε UInt64 :=
  if n < 2 ^ 64 then pure (.ofNat n) else panic

-- An allocation, which fails when more is asked for than there can be.
def reserve (n most : UInt64) : Eff σ ε Unit :=
  if n ≤ most then pure () else panic

-- What `n` runs of `x` return.
def times (x : Eff σ ε α) : Nat → Eff σ ε (List α)
  | 0     => pure []
  | n + 1 => do
    let a ← x
    let l ← times x n
    pure (a :: l)

theorem checked_of_lt {n : Nat} (h : n < 2 ^ 64) : (checked n : Eff σ ε UInt64) = pure (.ofNat n) :=
  if_pos h

theorem reserve_of_le {n most : UInt64} (h : n ≤ most) : (reserve n most : Eff σ ε Unit) = pure () :=
  if_pos h

theorem okOr_eq_ok_iff {o : Option α} {e : ε} :
    (okOr o e : Eff σ ε α) s = (.ok a, s₁) ↔ o = some a ∧ s₁ = s := by
  cases o <;> simp [okOr, throw, pure_apply, eq_comm]

theorem times_succ_eq_ok_iff :
    times x (n + 1) s = (.ok l, s₂) ↔
      ∃ a l' s₁, x s = (.ok a, s₁) ∧ times x n s₁ = (.ok l', s₂) ∧ l = a :: l' := by
  rw [times, bind_eq_ok_iff]
  constructor
  case mp =>
    intro ⟨a, s₁, hx, h⟩
    have ⟨l', s', hl, hp⟩ := bind_eq_ok_iff.mp h
    cases hp
    exact ⟨a, l', s₁, hx, hl, rfl⟩
  case mpr =>
    intro ⟨a, l', s₁, hx, hl, h⟩
    exact ⟨a, s₁, hx, h ▸ bind_ok hl⟩

-- Whether `x` returns to its caller when it is run from `s`.
def Returned (x : Eff σ ε α) (s : σ) : Prop :=
  Fault.Returned (x s).1

@[simp]
theorem returned_pure (a : α) : Returned (pure a : Eff σ ε α) s :=
  trivial

@[simp]
theorem returned_throw (e : ε) : Returned (throw e : Eff σ ε α) s :=
  trivial

@[simp]
theorem returned_okOr (o : Option α) (e : ε) : Returned (okOr o e : Eff σ ε α) s := by
  cases o <;> trivial

theorem returned_checked_iff {n : Nat} : Returned (checked n : Eff σ ε UInt64) s ↔ n < 2 ^ 64 := by
  unfold checked
  split
  case isTrue h  => exact iff_of_true trivial h
  case isFalse h => exact iff_of_false id h

theorem returned_reserve_iff {n most : UInt64} : Returned (reserve n most : Eff σ ε Unit) s ↔ n ≤ most := by
  unfold reserve
  split
  case isTrue h  => exact iff_of_true trivial h
  case isFalse h => exact iff_of_false id h

theorem returned_bind_iff :
    Returned (x >>= f) s ↔ Returned x s ∧ ∀ a s', x s = (.ok a, s') → Returned (f a) s' := by
  unfold Returned
  rw [bind_apply]
  cases x s with
  | mk r s' =>
    cases r
    case ok a    => simp [Fault.Returned]
    case error e => cases e <;> simp [Fault.Returned]

theorem returned_zoom_iff {get : σ → τ} {set : τ → σ → σ} {into : ε' → ε} {y : Eff τ ε' α} :
    Returned (zoom get set into y) s ↔ Returned y (get s) := by
  unfold Returned zoom
  split <;> simp_all [Fault.Returned]

@[simp]
theorem returned_map_iff {g : α → β} : Returned (g <$> x) s ↔ Returned x s := by
  rw [← bind_pure_comp, returned_bind_iff]
  exact and_iff_left fun _ _ _ => returned_pure _

theorem returned_okOr_bind_iff {o : Option α} {e : ε} :
    Returned (okOr o e >>= f) s ↔ ∀ a, o = some a → Returned (f a) s := by
  cases o
  case none   => exact iff_of_true trivial nofun
  case some a => exact ⟨fun h a' ha => Option.some.inj ha ▸ h, fun h => h a rfl⟩

theorem returned_times_iff :
    Returned (times x n) s ↔ ∀ k < n, ∀ l s', times x k s = (.ok l, s') → Returned x s' := by
  induction n generalizing s
  case zero =>
    simp [times, returned_pure]
  case succ n hi =>
    rw [times, returned_bind_iff]
    simp only [returned_bind_iff, hi, returned_pure, implies_true, and_true]
    constructor
    case mp =>
      intro ⟨hx, ht⟩ k hk l s' hl
      cases k
      case zero   => cases hl; exact hx
      case succ k =>
        have ⟨a, l', s₁, hx, hl, _⟩ := times_succ_eq_ok_iff.mp hl
        exact ht a s₁ hx k (Nat.lt_of_succ_lt_succ hk) l' s' hl
    case mpr =>
      intro h
      refine ⟨h 0 n.succ_pos [] s rfl, fun a s₁ hx k hk l s' hl => ?_⟩
      exact h (k + 1) (Nat.succ_lt_succ hk) (a :: l) s' <| times_succ_eq_ok_iff.mpr ⟨a, l, s₁, hx, hl, rfl⟩

end Eff

-- A file that is open for reading, and where in it the next byte comes from.
structure Reader where
  bytes    : List UInt8
  position : Nat
deriving DecidableEq

namespace Reader

variable {ε α β : Type} {s : Reader} {l l₁ l₂ : List UInt8}

def new (bytes : List UInt8) : Reader :=
  ⟨bytes, 0⟩

-- What has not been read.
def rest (s : Reader) : List UInt8 :=
  s.bytes.drop s.position

def skip (s : Reader) (n : Nat) : Reader :=
  { s with position := s.position + n }

@[simp]
theorem rest_new : (new l).rest = l :=
  rfl

@[simp]
theorem rest_skip : (s.skip n).rest = s.rest.drop n :=
  drop_drop.symm

@[simp]
theorem skip_zero : s.skip 0 = s :=
  rfl

@[simp]
theorem skip_skip : (s.skip m).skip n = s.skip (m + n) := by
  simp [skip, Nat.add_assoc]

@[simp]
theorem skip_position : (s.skip n).position = s.position + n :=
  rfl

-- `read_exact`
def readExact (eof : ε) (n : Nat) : Eff Reader ε (List UInt8) := fun s =>
  if n ≤ s.rest.length then (.ok (s.rest.take n), s.skip n) else (.error (.err eof), s)

-- The number in the next `k` bytes.
def readLe (eof : ε) (k : Nat) : Eff Reader ε Nat := do
  let l ← readExact eof k
  pure (ofLeBytes l)

@[simp]
theorem returned_readExact (eof : ε) (n : Nat) : Eff.Returned (readExact eof n) s := by
  unfold Eff.Returned readExact
  split <;> trivial

@[simp]
theorem returned_readLe (eof : ε) (k : Nat) : Eff.Returned (readLe eof k) s :=
  Eff.returned_bind_iff.mpr ⟨returned_readExact eof k, fun _ _ _ => Eff.returned_pure _⟩

-- Wherever `l` is next, `x` reads all of it and nothing else, and returns `a`.
def Decodes (x : Eff Reader ε α) (l : List UInt8) (a : α) : Prop :=
  ∀ s rest, s.rest = l ++ rest → x s = (.ok a, s.skip l.length)

namespace Decodes

variable {x : Eff Reader ε α} {f : α → Eff Reader ε β}

theorem pure (a : α) : Decodes (Pure.pure a : Eff Reader ε α) [] a :=
  fun _ _ _ => rfl

theorem bind (hx : Decodes x l₁ a) (hf : Decodes (f a) l₂ b) : Decodes (x >>= f) (l₁ ++ l₂) b := by
  intro s rest h
  have h₁ := hx s (l₂ ++ rest) (h.trans <| append_assoc l₁ l₂ rest)
  have h₂ := hf (s.skip l₁.length) rest (by rw [rest_skip, h, append_assoc, drop_left])
  rw [Eff.bind_ok h₁, h₂, skip_skip, length_append]

-- What comes last may read nothing.
theorem last (hx : Decodes x l a) (hf : f a = Pure.pure b) : Decodes (x >>= f) l b := by
  have hb : Decodes (f a) [] b := hf ▸ Decodes.pure b
  exact append_nil l ▸ hx.bind hb

-- What comes first may read nothing.
theorem next {x : Eff Reader ε α} (hx : x = Pure.pure a) (hf : Decodes (f a) l b) :
    Decodes (x >>= f) l b :=
  hx ▸ hf

theorem readExact (eof : ε) (l : List UInt8) : Decodes (readExact eof l.length) l l := by
  intro s rest h
  simp [Reader.readExact, h]

theorem readLe (eof : ε) (h : n < 256 ^ k) : Decodes (readLe eof k) (leBytes k n) n := by
  have h₁ := (Decodes.readExact eof (leBytes k n)).last (f := fun l => Pure.pure (ofLeBytes l)) rfl
  rwa [ofLeBytes_leBytes, Nat.mod_eq_of_lt h, leBytes_length] at h₁

theorem times {x : Eff Reader ε β} {w : α → List UInt8} {g : α → β} {as : List α}
    (h : ∀ a ∈ as, Decodes x (w a) (g a)) : Decodes (Eff.times x as.length) (as.flatMap w) (as.map g) := by
  induction as
  case nil => exact .pure []
  case cons a as hi =>
    have ha  := h a mem_cons_self
    have has := hi fun a' ha' => h a' (mem_cons_of_mem a ha')
    exact ha.bind <| has.last rfl

end Decodes
end Reader
