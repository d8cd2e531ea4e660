import VeloCore.Primitives.Slices

open List

-- `a[base..][..b.len()]` replaced by `b`
def List.overwrite (a : List α) (base : Nat) (b : List α) : List α :=
  a.take base ++ b ++ a.drop (base + b.length)

namespace List

variable {a b c : List α} {base : Nat}

@[simp]
theorem overwrite_nil : a.overwrite base [] = a := by
  simp [overwrite]

theorem length_overwrite (h : base + b.length ≤ a.length) : (a.overwrite base b).length = a.length := by
  simp [overwrite]
  omega

theorem overwrite_append (h : a.length = base) : (a ++ b).overwrite base c = a ++ c ++ b.drop c.length := by
  rw [overwrite, take_left' h, ← drop_drop, drop_left' h]

theorem overwrite_overwrite (h : base + b.length ≤ a.length) :
    (a.overwrite base b).overwrite (base + b.length) c = a.overwrite base (b ++ c) := by
  have hlen : (a.take base ++ b).length = base + b.length := by
    rw [length_append, length_take_of_le (by omega)]
  have hsplit : a.overwrite base b = a.take base ++ b ++ a.drop (base + b.length) := rfl
  rw [hsplit, overwrite_append hlen, drop_drop, overwrite, length_append, append_assoc (a.take base), Nat.add_assoc]

theorem overwrite_all (h : a.length = b.length) : a.overwrite 0 b = b := by
  simp [overwrite, ← h]

theorem overwrite_singleton (h : base < a.length) : a.overwrite base [v] = a.set base v := by
  rw [overwrite, set_eq_take_append_cons_drop, if_pos h]
  simp

end List

namespace Eff

variable {σ ε α ι κ : Type}

theorem slice_eq {l : List α} (h : start ≤ stop) (h' : stop ≤ l.length) :
    (slice l start stop : Eff σ ε (List α)) = pure ((l.take stop).drop start) :=
  if_pos ⟨h, h'⟩

theorem index_some {l : List α} {i : Nat} (h : l[i]? = some a) : (index l i : Eff σ ε α) = pure a := by
  funext s
  simp [index, h, pure_apply]

theorem index_eq {l : List α} {i : Nat} (h : i < l.length) : (index l i : Eff σ ε α) = pure l[i] :=
  index_some (getElem?_eq_getElem h)

theorem put_eq {l : List α} {i : Nat} (h : i < l.length) : (put l i b : Eff σ ε (List α)) = pure (l.set i b) :=
  if_pos h

theorem forEach_eq_pure {f : α → ι → Eff σ ε α} {g : α → ι → α} {l : List ι} (h : ∀ i ∈ l, ∀ a, f a i = pure (g a i))
    (a : α) : forEach f l a = pure (l.foldl g a) := by
  induction l generalizing a
  case nil         => rfl
  case cons i l hi =>
    rw [forEach, h i mem_cons_self, pure_bind, hi fun j hj => h j (mem_cons_of_mem i hj), foldl_cons]

theorem forEach_append {f : α → ι → Eff σ ε α} (l l' : List ι) (a : α) :
    forEach f (l ++ l') a = forEach f l a >>= forEach f l' := by
  induction l generalizing a
  case nil          => simp [forEach]
  case cons i l hi => simp [forEach, hi]

theorem forEach_flatMap {f : α → ι → Eff σ ε α} {g : κ → List ι} (l : List κ) (a : α) :
    forEach f (l.flatMap g) a = forEach (fun a i => forEach f (g i) a) l a := by
  induction l generalizing a
  case nil         => rfl
  case cons i l hi => simp [forEach_append, forEach, ← funext hi]

theorem forEach_map {f : α → ι → Eff σ ε α} {g : κ → ι} (l : List κ) (a : α) :
    forEach f (l.map g) a = forEach (fun a i => f a (g i)) l a := by
  induction l generalizing a
  case nil         => rfl
  case cons i l hi => simp [forEach, hi]

-- A loop that takes `a` from one value to the next one, and leaves the state as it is
theorem forEach_range_ok {f : α → Nat → Eff σ ε α} {a : Nat → α} {s : σ} {n : Nat}
    (h : ∀ i < n, f (a i) i s = (.ok (a (i + 1)), s)) : forEach f (range n) (a 0) s = (.ok (a n), s) := by
  have hfrom (k i : Nat) (hi : i + k = n) : forEach f (range' i k) (a i) s = (.ok (a n), s) := by
    induction k generalizing i
    case zero      => subst hi; rfl
    case succ k hk => rw [range'_succ, forEach, bind_ok (h i (by omega)), hk (i + 1) (by omega)]
  rw [range_eq_range', hfrom n 0 (Nat.zero_add n)]

-- In a list that reaches far enough, `f` puts `b` in the place of what is from `base` on.
def Fills (base : Nat) (b : List α) (f : List α → Eff σ ε (List α)) : Prop :=
  ∀ a, base + b.length ≤ a.length → f a = pure (a.overwrite base b)

namespace Fills

variable {base : Nat} {b c : List α} {f g : List α → Eff σ ε (List α)}

theorem nil : Fills base [] (pure : List α → Eff σ ε (List α)) :=
  fun _ _ => by rw [overwrite_nil]

theorem put {v : α} : Fills base [v] (fun a => (Eff.put a base v : Eff σ ε (List α))) :=
  fun _ h => (put_eq h).trans (congrArg pure (overwrite_singleton h).symm)

theorem bind (hf : Fills base b f) (hg : Fills (base + b.length) c g) : Fills base (b ++ c) (fun a => f a >>= g) := by
  intro a h
  rw [length_append] at h
  dsimp only
  rw [hf a (by omega), pure_bind, hg _ (by rw [length_overwrite (by omega)]; omega), overwrite_overwrite (by omega)]

-- A loop whose rounds fill one part of `w` elements after the other
theorem forEach {g : List α → ι → Eff σ ε (List α)} {parts : ι → List α} {l : List ι}
    (h : ∀ j i, l[j]? = some i → (parts i).length = w ∧ Fills (base + j * w) (parts i) (g · i)) :
    Fills base (l.flatMap parts) (Eff.forEach g l) := by
  induction l generalizing base
  case nil => exact nil
  case cons i l hi =>
    have ⟨hlen, hfill⟩ := h 0 i rfl
    rw [Nat.zero_mul, Nat.add_zero] at hfill
    refine hfill.bind (hi fun j i hj => ?_)
    have ⟨hlen', hfill'⟩ := h (j + 1) i hj
    refine ⟨hlen', ?_⟩
    rwa [hlen, Nat.add_assoc, Nat.add_comm w, ← Nat.succ_mul]

-- All of a list is filled.
theorem eq_pure {a : List α} (hf : Fills 0 b f) (h : a.length = b.length) : f a = pure b := by
  rw [hf a (by omega), overwrite_all h]

end Fills
end Eff
