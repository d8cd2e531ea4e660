import VeloCore.Primitives.Eff

open List

theorem Except.bind_eq_ok_iff {x : Except ε α} {f : α → Except ε β} : (x >>= f) = .ok b ↔ ∃ a, x = .ok a ∧ f a = .ok b := by
  cases x <;> simp [bind, Except.bind]

theorem Except.forM_eq_ok_iff {l : List α} {f : α → Except ε Unit} : l.forM f = .ok () ↔ ∀ a ∈ l, f a = .ok () := by
  induction l
  case nil => simp [List.forM, Pure.pure, Except.pure]
  case cons a l hi =>
    rw [List.forM, forall_mem_cons, ← hi]
    cases f a <;> simp [Bind.bind, Except.bind]

namespace Eff

variable {σ ε α β ι : Type}

-- `&a[start..stop]`
def slice (l : List α) (start stop : Nat) : Eff σ ε (List α) :=
  if start ≤ stop ∧ stop ≤ l.length then pure ((l.take stop).drop start) else panic

-- `a[i] = b`
def put (l : List α) (i : Nat) (b : α) : Eff σ ε (List α) :=
  if i < l.length then pure (l.set i b) else panic

-- `a[start..stop].copy_from_slice(b)`
def copyInto (l : List α) (start stop : Nat) (b : List α) : Eff σ ε (List α) :=
  if start ≤ stop ∧ stop ≤ l.length ∧ b.length = stop - start then
    pure (l.take start ++ b ++ l.drop stop)
  else
    panic

-- `for i in .. { .. }`, over the variables that the body assigns
def forEach (f : α → ι → Eff σ ε α) : List ι → α → Eff σ ε α
  | [], a      => pure a
  | i :: is, a => do
    let a ← f a i
    forEach f is a

-- In a state with `I`, `x` returns `Ok` just when `P` holds, and then with a value that satisfies `Q`.
def Guarded (I : σ → Prop) (P : Prop) (Q : α → Prop) (x : Eff σ ε α) : Prop :=
  ∀ s, I s → (P → ∃ a s', x s = (.ok a, s') ∧ Q a ∧ I s') ∧ ∀ a s', x s = (.ok a, s') → P

namespace Guarded

variable {I : σ → Prop} {P P' : Prop} {Q : α → Prop} {R : β → Prop} {x : Eff σ ε α} {f : α → Eff σ ε β}

theorem pure {a : α} (h : Q a) : Guarded I True Q (Pure.pure a : Eff σ ε α) :=
  fun s hs => ⟨fun _ => ⟨a, s, rfl, h, hs⟩, fun _ _ _ => trivial⟩

theorem panic : Guarded I False Q (Eff.panic : Eff σ ε α) :=
  fun _ _ => ⟨False.elim, nofun⟩

theorem ite [Decidable P] {a : α} (h : P → Q a) : Guarded I P Q (if P then Pure.pure a else Eff.panic : Eff σ ε α) := by
  intro s hs
  split
  case isTrue hp  => exact ⟨fun _ => ⟨a, s, rfl, h hp, hs⟩, fun _ _ _ => hp⟩
  case isFalse hp => exact ⟨fun h => absurd h hp, nofun⟩

theorem bind (hx : Guarded I P Q x) (hf : P → ∀ a, Q a → Guarded I P' R (f a)) : Guarded I (P ∧ P') R (x >>= f) := by
  intro s hs
  refine ⟨fun ⟨hp, hp'⟩ => ?_, fun b s₂ h => ?_⟩
  case refine_1 =>
    have ⟨a, s₁, ha, hq, hs₁⟩ := (hx s hs).left hp
    have ⟨b, s₂, hb, hr⟩ := (hf hp a hq s₁ hs₁).left hp'
    exact ⟨b, s₂, (bind_ok ha).trans hb, hr⟩
  case refine_2 =>
    have ⟨a, s₁, ha, hb⟩ := bind_eq_ok_iff.mp h
    have hp := (hx s hs).right a s₁ ha
    have ⟨a', s₁', ha', hq, hs₁⟩ := (hx s hs).left hp
    cases ha.symm.trans ha'
    exact ⟨hp, (hf hp a hq s₁ hs₁).right b s₂ hb⟩

theorem congr (hx : Guarded I P Q x) (h : P ↔ P') : Guarded I P' Q x :=
  fun s hs => ⟨fun hp => (hx s hs).left (h.mpr hp), fun a s' ha => h.mp ((hx s hs).right a s' ha)⟩

theorem returns_iff (hx : Guarded I P Q x) (hs : I s) : (∀ s, I s → ∃ a s', x s = (.ok a, s') ∧ Q a ∧ I s') ↔ P :=
  ⟨fun h => have ⟨a, s', ha, _⟩ := h s hs; (hx s hs).right a s' ha, fun hp s hs => (hx s hs).left hp⟩

theorem of (hx : Guarded I P Q x) (h : P) : Guarded I True Q x :=
  hx.congr (iff_of_true h trivial)

theorem mono {Q' : α → Prop} (hx : Guarded I P Q x) (h : ∀ a, Q a → Q' a) : Guarded I P Q' x :=
  fun s hs => ⟨fun hp =>
    have ⟨a, s', ha, hq, hs'⟩ := (hx s hs).left hp
    ⟨a, s', ha, h a hq, hs'⟩, (hx s hs).right⟩

-- A step that needs nothing
theorem next (hx : Guarded I True Q x) (hf : ∀ a, Q a → Guarded I P R (f a)) : Guarded I P R (x >>= f) :=
  (hx.bind fun _ => hf).congr (iff_of_eq (true_and P))

-- A step that is followed by others which need nothing
theorem last (hx : Guarded I P Q x) (hf : P → ∀ a, Q a → Guarded I True R (f a)) : Guarded I P R (x >>= f) :=
  (hx.bind hf).congr (iff_of_eq (and_true P))

theorem forEach {g : α → ι → Eff σ ε α} {p : ι → Prop} {l : List ι} {a : α}
    (h : ∀ i ∈ l, ∀ a, Q a → Guarded I (p i) Q (g a i)) (ha : Q a) :
    Guarded I (∀ i ∈ l, p i) Q (Eff.forEach g l a) := by
  induction l generalizing a
  case nil => exact (pure ha).congr (by simp)
  case cons i l hi =>
    refine ((h i mem_cons_self a ha).bind fun _ a ha => hi (fun j hj => h j (mem_cons_of_mem i hj)) ha).congr ?_
    rw [forall_mem_cons]

theorem forEach_true {g : α → ι → Eff σ ε α} {l : List ι} {a : α}
    (h : ∀ i ∈ l, ∀ a, Q a → Guarded I True Q (g a i)) (ha : Q a) : Guarded I True Q (Eff.forEach g l a) :=
  (forEach h ha).congr (by simp)

theorem get {Q : σ → Prop} (h : ∀ s, I s → Q s) : Guarded I True Q (Eff.get : Eff σ ε σ) :=
  fun s hs => ⟨fun _ => ⟨s, s, rfl, h s hs, hs⟩, fun _ _ _ => trivial⟩

theorem modify {Q : Unit → Prop} {g : σ → σ} (hq : Q ()) (h : ∀ s, I s → I (g s)) :
    Guarded I True Q (Eff.modify g : Eff σ ε Unit) :=
  fun s hs => ⟨fun _ => ⟨(), g s, rfl, hq, h s hs⟩, fun _ _ _ => trivial⟩

section Lists

variable {l b : List α} {i start stop : Nat}

theorem index : Guarded I (i < l.length) (fun a => l[i]? = some a) (Eff.index l i : Eff σ ε α) := by
  intro s hs
  refine ⟨fun h => ⟨l[i], s, by simp [Eff.index, h], getElem?_eq_getElem h, hs⟩, fun a s' ha => ?_⟩
  exact (List.getElem?_eq_some_iff.mp (index_eq_ok ha).left).1

theorem slice : Guarded I (start ≤ stop ∧ stop ≤ l.length) (fun b => b.length = stop - start)
    (Eff.slice l start stop : Eff σ ε (List α)) :=
  ite fun ⟨_, h⟩ => by simp [h]

theorem put {a : α} : Guarded I (i < l.length) (fun b => b.length = l.length) (Eff.put l i a : Eff σ ε (List α)) :=
  ite fun _ => length_set

theorem copyInto : Guarded I (start ≤ stop ∧ stop ≤ l.length ∧ b.length = stop - start)
    (fun b => b.length = l.length) (Eff.copyInto l start stop b : Eff σ ε (List α)) :=
  ite fun ⟨h, h', hb⟩ => by simp; omega

end Lists
end Guarded
end Eff
