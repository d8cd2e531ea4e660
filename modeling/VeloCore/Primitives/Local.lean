import VeloCore.Primitives.Reader

open List

namespace Reader

variable {ε α β : Type} {eof : ε} {x : Eff Reader ε α} {f : α → Eff Reader ε β}

-- Unless it gets to the end of the file, `x` depends on nothing but the bytes that it reads and on its place in the file, and
-- when some of these bytes are missing, it gets to the end of the file.
def Local (eof : ε) (x : Eff Reader ε α) : Prop :=
  ∀ s r s', x s = (r, s') → r ≠ .error (.err eof) → ∃ n ≤ s.rest.length, s' = s.skip n ∧
    ∀ t : Reader, t.position = s.position → (s.rest.take n <+: t.rest → x t = (r, t.skip n)) ∧
      (t.rest <+: s.rest.take n → t.rest.length < n → (x t).1 = .error (.err eof))

namespace Local

-- What does not look at the file
theorem of_fixed (h : ∀ s, x s = (r, s)) : Local eof x := by
  intro s r' s' hx _
  cases (h s).symm.trans hx
  exact ⟨0, Nat.zero_le _, rfl, fun t _ => ⟨fun _ => h t, fun _ hlt => absurd hlt (Nat.not_lt_zero _)⟩⟩

theorem pure (a : α) : Local eof (Pure.pure a : Eff Reader ε α) :=
  of_fixed fun _ => rfl

theorem throw (e : ε) : Local eof (Eff.throw e : Eff Reader ε α) :=
  of_fixed fun _ => rfl

theorem okOr (o : Option α) (e : ε) : Local eof (Eff.okOr o e) := by
  cases o
  case none => exact throw e
  case some => exact pure _

theorem checked (n : Nat) : Local eof (Eff.checked n : Eff Reader ε UInt64) := by
  unfold Eff.checked
  split
  case isTrue  => exact pure _
  case isFalse => exact of_fixed fun _ => rfl

theorem reserve (n most : UInt64) : Local eof (Eff.reserve n most : Eff Reader ε Unit) := by
  unfold Eff.reserve
  split
  case isTrue  => exact pure _
  case isFalse => exact of_fixed fun _ => rfl

theorem readExact (n : Nat) : Local eof (Reader.readExact eof n) := by
  intro s r s' hx hr
  unfold Reader.readExact at hx
  split at hx
  case isFalse =>
    cases hx
    exact absurd rfl hr
  case isTrue hn =>
    cases hx
    refine ⟨n, hn, rfl, fun t _ => ⟨fun ht => ?_, fun _ hlt => ?_⟩⟩
    case refine_1 =>
      have hlen : n ≤ t.rest.length := by simpa [hn] using ht.length_le
      have htake : t.rest.take n = s.rest.take n := by
        have h := prefix_iff_eq_take.mp ht
        rwa [length_take, min_eq_left hn, eq_comm] at h
      rw [Reader.readExact, if_pos hlen, htake]
    case refine_2 => rw [Reader.readExact, if_neg (Nat.not_le.mpr hlt)]

-- What comes first reads the first of the bytes.
theorem bind (hx : Local eof x) (hf : ∀ a, Local eof (f a)) : Local eof (x >>= f) := by
  intro s r s' h hr
  rcases hxs : x s with ⟨e | a, s₁⟩
  case error =>
    rw [Eff.bind_error hxs] at h
    cases h
    have he : (Except.error e : Except (Fault ε) α) ≠ .error (.err eof) := by
      rintro ⟨⟩
      exact hr rfl
    obtain ⟨n, hn, hs', ht⟩ := hx s _ _ hxs he
    refine ⟨n, hn, hs', fun t hpos => ⟨fun hp => ?_, fun hp hlt => ?_⟩⟩
    case refine_1 => exact Eff.bind_error ((ht t hpos).left hp)
    case refine_2 =>
      have heof := (ht t hpos).right hp hlt
      exact congrArg Prod.fst (Eff.bind_error (Prod.ext heof rfl : x t = (.error (.err eof), (x t).2)))
  case ok =>
    rw [Eff.bind_ok hxs] at h
    obtain ⟨n₁, hn₁, rfl, ht₁⟩ := hx s _ _ hxs (by intro heof; cases heof)
    obtain ⟨n₂, hn₂, rfl, ht₂⟩ := hf a _ _ _ h hr
    rw [rest_skip] at hn₂ ht₂
    rw [length_drop] at hn₂
    have htake : s.rest.take (n₁ + n₂) = s.rest.take n₁ ++ (s.rest.drop n₁).take n₂ := take_add
    have hlen : (s.rest.take n₁).length = n₁ := by rw [length_take, min_eq_left hn₁]
    refine ⟨n₁ + n₂, by omega, skip_skip, fun t hpos => ⟨fun hp => ?_, fun hp hlt => ?_⟩⟩
    case refine_1 =>
      obtain ⟨rest, hrest⟩ := hp
      rw [htake, append_assoc] at hrest
      have hdrop : t.rest.drop n₁ = (s.rest.drop n₁).take n₂ ++ rest := by
        rw [← hrest, drop_append_of_le_length hlen.ge, drop_eq_nil_of_le hlen.le, nil_append]
      have hnext := (ht₂ (t.skip n₁) (congrArg (· + n₁) hpos)).left (by rw [rest_skip, hdrop]; exact prefix_append ..)
      rw [Eff.bind_ok ((ht₁ t hpos).left ⟨_, hrest⟩), hnext, skip_skip]
    case refine_2 =>
      by_cases hshort : t.rest.length < n₁
      case pos =>
        have hp₁ : t.rest <+: s.rest.take n₁ := prefix_of_prefix_length_le hp (htake ▸ prefix_append ..) (by omega)
        have heof := (ht₁ t hpos).right hp₁ hshort
        exact congrArg Prod.fst (Eff.bind_error (Prod.ext heof rfl : x t = (.error (.err eof), (x t).2)))
      case neg =>
        have hp₁ : s.rest.take n₁ <+: t.rest := prefix_of_prefix_length_le (htake ▸ prefix_append ..) hp (by omega)
        obtain ⟨rest, hrest⟩ := hp₁
        have hdrop : t.rest.drop n₁ = rest := by
          rw [← hrest, drop_append_of_le_length hlen.ge, drop_eq_nil_of_le hlen.le, nil_append]
        have hp₂ : rest <+: (s.rest.drop n₁).take n₂ := by
          rw [← hrest, htake] at hp
          exact (prefix_append_right_inj _).mp hp
        have hlt₂ : rest.length < n₂ := by
          rw [← hrest, length_append, hlen] at hlt
          omega
        have hnext := (ht₂ (t.skip n₁) (congrArg (· + n₁) hpos)).right (by rwa [rest_skip, hdrop]) (by rwa [rest_skip, hdrop])
        rw [Eff.bind_ok ((ht₁ t hpos).left ⟨rest, hrest⟩)]
        exact hnext

theorem readLe (k : Nat) : Local eof (Reader.readLe eof k) :=
  (readExact k).bind fun _ => pure _

theorem times (h : Local eof x) (n : Nat) : Local eof (Eff.times x n) := by
  induction n
  case zero      => exact pure []
  case succ n hi => exact h.bind fun _ => hi.bind fun _ => pure _

-- What looks at its place in the file
theorem position_bind {g : Nat → Eff Reader ε β} (h : ∀ n, Local eof (g n)) : Local eof (Eff.get >>= fun s => g s.position) := by
  intro s r s' hx hr
  obtain ⟨n, hn, hs', ht⟩ := h s.position s r s' hx hr
  refine ⟨n, hn, hs', fun t hpos => ?_⟩
  have heq : (Eff.get >>= fun s => g s.position) t = g s.position t := by rw [← hpos]; rfl
  rw [heq]
  exact ht t hpos

-- Of a whole file
theorem file (h : Local eof x) {bytes : List UInt8} (hr : (x (new bytes)).1 ≠ .error (.err eof)) :
    ∃ n ≤ bytes.length, (x (new bytes)).2.position = n ∧ ∀ other : List UInt8,
      (bytes.take n <+: other → (x (new other)).1 = (x (new bytes)).1) ∧
      (other <+: bytes.take n → other.length < n → (x (new other)).1 = .error (.err eof)) := by
  obtain ⟨n, hn, hs', ht⟩ := h (new bytes) _ _ rfl hr
  rw [rest_new] at hn ht
  refine ⟨n, hn, by rw [hs', skip_position]; exact Nat.zero_add n, fun other => ?_⟩
  obtain ⟨hleft, hright⟩ := ht (new other) rfl
  rw [rest_new] at hleft hright
  exact ⟨fun hp => by rw [hleft hp], hright⟩

end Local
end Reader
