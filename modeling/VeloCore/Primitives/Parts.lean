import Mathlib.Tactic

open List

namespace List

variable {α β : Type}

-- The part `i` of a list in parts of `n` elements
def part (n i : Nat) (l : List α) : List α :=
  (l.take ((i + 1) * n)).drop (i * n)

theorem length_part {l : List α} {n i k : Nat} (h : k * n ≤ l.length) (hi : i < k) : (l.part n i).length = n := by
  have hle : (i + 1) * n ≤ k * n := Nat.mul_le_mul_right n hi
  rw [part, length_drop, length_take, Nat.min_eq_left (hle.trans h), Nat.succ_mul, Nat.add_sub_cancel_left]

theorem getElem?_part {l : List α} {n i k : Nat} (hk : k < n) : (l.part n i)[k]? = l[i * n + k]? := by
  rw [part, getElem?_drop, getElem?_take_of_lt (by rw [Nat.succ_mul]; omega)]

theorem part_eq_take_drop (l : List α) (n i : Nat) : l.part n i = (l.drop (i * n)).take n := by
  rw [part, drop_take, Nat.succ_mul, Nat.add_sub_cancel_left]

theorem length_flatMap_of {f : α → List β} {l : List α} (he : ∀ x ∈ l, (f x).length = e) :
    (l.flatMap f).length = l.length * e := by
  rw [length_flatMap, map_congr_left he, map_const', sum_replicate, smul_eq_mul]

theorem part_flatMap_of {f : α → List β} {l : List α} (he : ∀ x ∈ l, (f x).length = e) (h : l[b]? = some x) :
    (l.flatMap f).part e b = f x := by
  have ⟨hlt, hx⟩ := List.getElem?_eq_some_iff.mp h
  have hcut : l = l.take b ++ x :: l.drop (b + 1) := by
    rw [← hx, getElem_cons_drop, take_append_drop]
  have hb : ((l.take b).flatMap f).length = b * e := by
    rw [length_flatMap_of fun y hy => he y (mem_of_mem_take hy), length_take_of_le hlt.le]
  have hx : (f x).length = e := he x (mem_of_getElem? h)
  rw [part, hcut, flatMap_append, flatMap_cons, ← append_assoc, take_left' (by rw [length_append, hb, hx]; ring),
    drop_left' hb]

theorem part_flatMap {f : α → List β} {l : List α} (he : ∀ x, (f x).length = e) (h : l[b]? = some x) :
    (l.flatMap f).part e b = f x :=
  part_flatMap_of (fun x _ => he x) h

-- The parts one after another
theorem flatMap_part (l : List α) (m n : Nat) : (range m).flatMap (l.part n) = l.take (m * n) := by
  induction m
  case zero => simp
  case succ m hi =>
    rw [range_succ, flatMap_append, flatMap_singleton, hi, part_eq_take_drop, Nat.succ_mul, take_add]

theorem flatMap_part_eq {l : List α} {m n : Nat} (h : l.length = m * n) : (range m).flatMap (l.part n) = l := by
  rw [flatMap_part, ← h, take_length]

-- A part of a part
theorem part_part (l : List α) {d n i j : Nat} (hj : j < d) : (l.part (d * n) i).part n j = l.part n (i * d + j) := by
  have hle : (j + 1) * n ≤ d * n := Nat.mul_le_mul_right n hj
  have hmin : min n (d * n - j * n) = n := Nat.min_eq_left (by rw [Nat.succ_mul] at hle; omega)
  have hoff : i * (d * n) + j * n = (i * d + j) * n := by ring
  rw [part_eq_take_drop, part_eq_take_drop, part_eq_take_drop, drop_take, take_take, drop_drop, hmin, hoff]

theorem getElem?_flatMap_part {f : α → List β} {l : List α} (he : ∀ x, (f x).length = e) (h : l[b]? = some x) (hk : k < e) :
    (l.flatMap f)[b * e + k]? = (f x)[k]? := by
  rw [← getElem?_part hk, part_flatMap he h]

-- All of a range, in parts of `e` elements
theorem range_mul_map (n e : Nat) (f : Nat → α) :
    (range (n * e)).map f = (range n).flatMap fun b => (range e).map fun i => f (b * e + i) := by
  induction n
  case zero      => simp
  case succ n hi => simp [Nat.succ_mul, range_add, range_succ, hi]

theorem flatMap_pairs (g : Nat → α) (n : Nat) :
    (range n).flatMap (fun i => [g (2 * i), g (2 * i + 1)]) = (range (2 * n)).map g := by
  induction n
  case zero      => rfl
  case succ n hi => simp [range_succ, hi, Nat.mul_succ]

theorem map_getElem? (l : List α) (a : α) : l = (range l.length).map fun i => l[i]?.getD a := by
  refine ext_getElem (by simp) fun i hi _ => ?_
  simp [getElem?_eq_getElem hi]

-- Some of a list, in pairs
theorem take_drop_pairs {l : List α} (a : α) {m n off : Nat} (h : off + n * (2 * m) ≤ l.length) :
    (l.drop off).take (n * (2 * m)) = (range n).flatMap fun b => (range m).flatMap fun i =>
      [l[off + b * (2 * m) + i * 2]?.getD a, l[off + b * (2 * m) + i * 2 + 1]?.getD a] := by
  have hlen : ((l.drop off).take (n * (2 * m))).length = n * (2 * m) := by simp; omega
  rw [map_getElem? ((l.drop off).take (n * (2 * m))) a, hlen, range_mul_map]
  refine flatMap_congr fun b hb => ?_
  have hb := Nat.mul_le_mul_right (2 * m) (Nat.succ_le_of_lt (mem_range.mp hb))
  rw [Nat.succ_mul] at hb
  rw [← flatMap_pairs _ m]
  refine flatMap_congr fun i hi => ?_
  have hi := mem_range.mp hi
  have hget (k : Nat) (hk : k < 2 * m) : ((l.drop off).take (n * (2 * m)))[b * (2 * m) + k]? = l[off + b * (2 * m) + k]? := by
    rw [getElem?_take_of_lt (by omega), getElem?_drop, Nat.add_assoc]
  rw [hget _ (by omega), hget _ (by omega), Nat.mul_comm 2 i, Nat.add_assoc _ _ 1]

theorem zipWith_flatMap {f : ι → List α} {g : ι → List β} {l : List ι} (h : ∀ i ∈ l, (f i).length = (g i).length) (k : α → β → γ) :
    zipWith k (l.flatMap f) (l.flatMap g) = l.flatMap fun i => zipWith k (f i) (g i) := by
  induction l
  case nil => rfl
  case cons i l hi =>
    rw [flatMap_cons, flatMap_cons, flatMap_cons, zipWith_append (h i mem_cons_self),
      hi fun j hj => h j (mem_cons_of_mem i hj)]

end List
