import VeloCore.Objects.Metal.Sharding

open List

theorem List.cons_infix_append_iff {c : α} {l p r : List α} (hc : c ∉ l) : c :: p <:+: l ++ r ↔ c :: p <:+: r := by
  induction l
  case nil => rw [nil_append]
  case cons a l hi =>
    rw [mem_cons, not_or] at hc
    rw [cons_append, infix_cons_iff, hi hc.right, cons_prefix_cons]
    exact ⟨fun h => h.elim (fun h => absurd h.left hc.left) id, .inr⟩

namespace Sharding

theorem contains_iff {name pattern : String} : contains name pattern = true ↔ pattern.toList <:+: name.toList :=
  decide_eq_true_iff

theorem not_mem_repr {c : Char} (hc : c.isDigit = false) (n : Nat) : c ∉ n.repr.toList := fun hmem => by
  rw [Nat.toList_repr] at hmem
  rw [Nat.isDigit_of_mem_toDigits (by decide) (by decide) hmem] at hc
  cases hc

-- None of the patterns can start before the last dot in front of the tensor.
theorem contains_layer {pattern : String} {p : List Char} (l : Nat) (t : LayerTensor)
    (hp : pattern.toList = 'a' :: 't' :: p ∨ pattern.toList = 'f' :: 'e' :: p) :
    contains (TensorName.layer l t).text pattern = contains s!".{t.text}.weight" pattern := by
  have htext : (TensorName.layer l t).text.toList =
      "layers.".toList ++ (l.repr.toList ++ s!".{t.text}.weight".toList) := by
    simp [TensorName.text, toString]
  rw [Bool.eq_iff_iff, contains_iff, contains_iff, htext]
  rcases hp with hp | hp
  case inl =>
    have hfront (r : List Char) : 'a' :: 't' :: p <:+: "layers.".toList ++ r ↔ 'a' :: 't' :: p <:+: r := by
      simp [infix_cons_iff, cons_prefix_cons]
    rw [hp, hfront, cons_infix_append_iff (not_mem_repr (by decide) l)]
  case inr =>
    rw [hp, cons_infix_append_iff (by decide), cons_infix_append_iff (not_mem_repr (by decide) l)]

theorem getShardStrategy_text (name : TensorName) : getShardStrategy name.text = name.shardStrategy := by
  cases name
  case tokenEmbd  => decide +kernel
  case outputNorm => decide +kernel
  case output     => decide +kernel
  case layer l t =>
    have hne : (TensorName.layer l t).text ≠ "output.weight" := fun heq => by
      have hhead := congrArg (·.toList.head?) heq
      simp [TensorName.text, toString] at hhead
    unfold getShardStrategy
    rw [contains_layer l t (.inl (by simp; rfl)), contains_layer l t (.inl (by simp; rfl)),
      contains_layer l t (.inl (by simp; rfl)), contains_layer l t (.inl (by simp; rfl)),
      contains_layer l t (.inr (by simp; rfl)), contains_layer l t (.inr (by simp; rfl)),
      contains_layer l t (.inr (by simp; rfl)), if_neg hne]
    cases t <;> simp only [TensorName.shardStrategy] <;> decide +kernel

end Sharding
