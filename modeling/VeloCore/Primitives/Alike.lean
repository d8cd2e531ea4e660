import VeloCore.Primitives.Reader
import VeloCore.Primitives.Slices

open List

namespace Eff

variable {σ ε α β ι : Type} {x : Eff σ ε α} {f : α → Eff σ ε β} {g g' : α → ι → Eff σ ε α} {l : List ι}

-- `x` neither looks at the state nor changes it.
def Fixed (x : Eff σ ε α) : Prop :=
  ∃ r, ∀ s, x s = (r, s)

namespace Fixed

theorem pure (a : α) : Fixed (Pure.pure a : Eff σ ε α) :=
  ⟨_, fun _ => rfl⟩

theorem panic : Fixed (Eff.panic : Eff σ ε α) :=
  ⟨_, fun _ => rfl⟩

theorem okOr (o : Option α) (e : ε) : Fixed (Eff.okOr o e : Eff σ ε α) := by
  cases o
  case none   => exact ⟨_, fun _ => rfl⟩
  case some a => exact pure a

theorem index (l : List α) (i : Nat) : Fixed (Eff.index l i : Eff σ ε α) := by
  unfold Eff.index
  split <;> exact ⟨_, fun _ => rfl⟩

theorem ite {p : Prop} [Decidable p] (a : α) : Fixed (if p then Pure.pure a else Eff.panic : Eff σ ε α) := by
  split
  case isTrue  => exact pure a
  case isFalse => exact panic

theorem slice (l : List α) (start stop : Nat) : Fixed (Eff.slice l start stop : Eff σ ε (List α)) :=
  ite _

theorem put (l : List α) (i : Nat) (b : α) : Fixed (Eff.put l i b : Eff σ ε (List α)) :=
  ite _

theorem copyInto (l : List α) (start stop : Nat) (b : List α) : Fixed (Eff.copyInto l start stop b : Eff σ ε (List α)) :=
  ite _

theorem bind (hx : Fixed x) (hf : ∀ a, Fixed (f a)) : Fixed (x >>= f) := by
  have ⟨r, hr⟩ := hx
  cases r
  case error e => exact ⟨.error e, fun s => bind_error (hr s)⟩
  case ok a =>
    have ⟨r, hf⟩ := hf a
    exact ⟨r, fun s => (bind_ok (hr s)).trans (hf s)⟩

theorem forEach (h : ∀ a i, Fixed (g a i)) (l : List ι) (a : α) : Fixed (Eff.forEach g l a) := by
  induction l generalizing a
  case nil           => exact pure a
  case cons i l hi   => exact (h a i).bind hi

theorem keeps {I : σ → Prop} (hx : Fixed x) : Keeps I x := by
  intro s hs
  have ⟨r, hr⟩ := hx
  rwa [hr]

end Fixed

theorem Keeps.forEach {I : σ → Prop} (h : ∀ i ∈ l, ∀ a, Keeps I (g a i)) (a : α) : Keeps I (Eff.forEach g l a) := by
  induction l generalizing a
  case nil         => exact .pure a
  case cons i l hi => exact (h i mem_cons_self a).bind (hi fun j hj => h j (mem_cons_of_mem i hj))

theorem forEach_congr (h : ∀ i ∈ l, ∀ a, g a i = g' a i) (a : α) : forEach g l a = forEach g' l a := by
  induction l generalizing a
  case nil => rfl
  case cons i l hi =>
    rw [forEach, forEach, h i mem_cons_self a]
    exact congrArg (g' a i >>= ·) (funext fun a => hi (fun j hj => h j (mem_cons_of_mem i hj)) a)

-- In states that `R` relates, `x` ends in the same way, and when it returns a value, `S` relates the states after it.
def Alike (R S : σ → σ → Prop) (x : Eff σ ε α) : Prop :=
  ∀ s s', R s s' → (x s).1 = (x s').1 ∧ ∀ a, (x s).1 = .ok a → S (x s).2 (x s').2

namespace Alike

variable {R S T : σ → σ → Prop}

theorem of_fixed (hx : Fixed x) : Alike R R x := by
  intro s s' h
  have ⟨r, hr⟩ := hx
  rw [hr, hr]
  exact ⟨rfl, fun _ _ => h⟩

theorem bind (hx : Alike R S x) (hf : ∀ a, Alike S T (f a)) : Alike R T (x >>= f) := by
  intro s s' h
  have ⟨hr, hs⟩ := hx s s' h
  rcases hx₁ : x s with ⟨_ | a, s₁⟩ <;> rcases hx₂ : x s' with ⟨_ | a', s₁'⟩ <;> rw [hx₁, hx₂] at hr <;> cases hr
  case error.error => rw [bind_error hx₁, bind_error hx₂]; exact ⟨rfl, nofun⟩
  case ok.ok =>
    rw [hx₁, hx₂] at hs
    rw [bind_ok hx₁, bind_ok hx₂]
    exact hf a s₁ s₁' (hs a rfl)

-- What looks at the state does so in the same way in related ones.
theorem get_bind {f : σ → Eff σ ε α} (hf : ∀ s, Alike R S (f s)) (h : ∀ s s', R s s' → f s = f s') :
    Alike R S (Eff.get >>= f) := by
  intro s s' hr
  rw [bind_ok get_apply, bind_ok get_apply, ← h s s' hr]
  exact hf s s s' hr

theorem mono {R' S' : σ → σ → Prop} (hx : Alike R S x) (hr : ∀ s s', R' s s' → R s s') (hs : ∀ s s', S s s' → S' s s') :
    Alike R' S' x :=
  fun s s' h => (hx s s' (hr s s' h)).imp_right fun h a ha => hs _ _ (h a ha)

theorem forEach (h : ∀ i ∈ l, ∀ a, Alike R R (g a i)) (a : α) : Alike R R (Eff.forEach g l a) := by
  induction l generalizing a
  case nil         => exact of_fixed (.pure a)
  case cons i l hi => exact (h i mem_cons_self a).bind (hi fun j hj => h j (mem_cons_of_mem i hj))

-- A loop over the first numbers, with a relation for each
theorem forEach_range {g : α → Nat → Eff σ ε α} {R : Nat → σ → σ → Prop} {n : Nat}
    (h : ∀ i < n, ∀ a, Alike (R i) (R (i + 1)) (g a i)) (a : α) : Alike (R 0) (R n) (Eff.forEach g (range n) a) := by
  suffices hall : ∀ k i, i + k = n → ∀ a, Alike (R i) (R n) (Eff.forEach g (range' i k) a) by
    rw [range_eq_range']
    exact hall n 0 (Nat.zero_add n) a
  intro k
  induction k
  case zero =>
    rintro i rfl a
    exact of_fixed (.pure a)
  case succ k hi =>
    intro i hk a
    exact (h i (by omega) a).bind (hi (i + 1) (by omega))

end Alike
end Eff
