import VeloCore.Objects.Nixl
import VeloCore.Primitives.Slices

open List

-- `deserialize_block` with its slices and its sum as the code takes them, where `usize` has 64 bits.
def sliceBlock (buf : List UInt8) : Eff σ ε (Option (KvCacheHandle × List UInt8)) :=
  if buf.length < wireHeaderLen then
    pure none
  else do
    let blockId ← Eff.slice buf 0 8
    let tokenLen ← Eff.slice buf 8 12
    let byteLen ← Eff.slice buf 12 16
    let stop := wireHeaderLen + ofLeBytes byteLen
    if stop ≥ 2 ^ 64 then
      Eff.panic
    else if buf.length < stop then
      pure none
    else do
      let payload ← Eff.slice buf wireHeaderLen stop
      pure (some (⟨ofLeBytes blockId, ofLeBytes tokenLen⟩, payload))

namespace Eff

variable {σ ε α : Type} {l : List α} {start stop : Nat}

theorem slice_of_le (h : start ≤ stop) (h' : stop ≤ l.length) :
    (slice l start stop : Eff σ ε (List α)) = pure ((l.drop start).take (stop - start)) := by
  rw [slice, if_pos ⟨h, h'⟩, drop_take]

end Eff

section Wire

variable {buf payload : List UInt8} {handle : KvCacheHandle}

-- No slice is out of bounds.
theorem sliceBlock_eq : (sliceBlock buf : Eff σ ε _) = pure (deserializeBlock buf) := by
  rw [sliceBlock, deserializeBlock]
  split
  case isTrue => rfl
  case isFalse hlen =>
    rw [Nat.not_lt, wireHeaderLen] at hlen
    have hstop : wireHeaderLen + ofLeBytes ((buf.drop 12).take 4) < 2 ^ 64 := by
      have h := ofLeBytes_lt ((buf.drop 12).take 4)
      have hfour : ((buf.drop 12).take 4).length = 4 := by simp; omega
      rw [hfour] at h
      simp only [wireHeaderLen]
      omega
    rw [Eff.slice_of_le (by omega) (by omega), Eff.slice_of_le (by omega) (by omega),
      Eff.slice_of_le (by omega) (by omega)]
    simp only [pure_bind, Nat.reduceSub, drop_zero]
    rw [if_neg (Nat.not_le.mpr hstop)]
    split
    case isTrue => rfl
    case isFalse hpayload =>
      rw [Eff.slice_of_le (Nat.le_add_right ..) (Nat.not_lt.mp hpayload), pure_bind, Nat.add_sub_cancel_left]

-- What stands behind a block is not looked at.
theorem deserializeBlock_append (hid : handle.blockId < 2 ^ 64) (htoken : handle.tokenLen < 2 ^ 32)
    (hbyte : payload.length < 2 ^ 32) (rest : List UInt8) :
    deserializeBlock (serializeBlock handle payload ++ rest) = some (handle, payload) := by
  have hlen : (serializeBlock handle payload ++ rest).length = wireHeaderLen + payload.length + rest.length := by
    rw [length_append, serializeBlock_length]
  have h₁ : (serializeBlock handle payload ++ rest).take 8 = leBytes 8 handle.blockId := by
    simp [serializeBlock]
  have h₂ : ((serializeBlock handle payload ++ rest).drop 8).take 4 = leBytes 4 handle.tokenLen := by
    simp [serializeBlock]
  have h₃ : ((serializeBlock handle payload ++ rest).drop 12).take 4 = leBytes 4 payload.length := by
    have hlen : (leBytes 8 handle.blockId ++ leBytes 4 handle.tokenLen).length = 12 := by simp
    rw [serializeBlock, append_assoc, append_assoc, drop_left' hlen]
    exact take_left' leBytes_length
  have h₄ : ((serializeBlock handle payload ++ rest).drop wireHeaderLen).take payload.length = payload := by
    rw [drop_append_of_le_length (by rw [serializeBlock_length]; omega), drop_serializeBlock, take_left]
  have hid' : handle.blockId % 256 ^ 8 = handle.blockId := Nat.mod_eq_of_lt (by omega)
  have htoken' : handle.tokenLen % 256 ^ 4 = handle.tokenLen := Nat.mod_eq_of_lt (by omega)
  have hbyte' : payload.length % 256 ^ 4 = payload.length := Nat.mod_eq_of_lt (by omega)
  simp only [deserializeBlock, hlen, h₁, h₂, h₃, ofLeBytes_leBytes, hid', htoken', hbyte', h₄]
  rw [if_neg (by omega), if_neg (by omega)]

theorem leBytes_of_length {l : List UInt8} (h : l.length = k) : leBytes k (ofLeBytes l) = l ∧ ofLeBytes l < 256 ^ k :=
  h ▸ ⟨leBytes_ofLeBytes l, ofLeBytes_lt l⟩

-- A block that was read is the encoding of what was read of it.
theorem serializeBlock_isPrefix (h : deserializeBlock buf = some (handle, payload)) :
    (handle.blockId < 2 ^ 64 ∧ handle.tokenLen < 2 ^ 32 ∧ payload.length < 2 ^ 32) ∧
      serializeBlock handle payload <+: buf := by
  simp only [deserializeBlock] at h
  split at h
  case isTrue => cases h
  case isFalse hlen =>
    split at h
    case isTrue => cases h
    case isFalse hpayload =>
      cases h
      rw [Nat.not_lt] at hlen hpayload
      simp only [wireHeaderLen] at hlen hpayload ⊢
      obtain ⟨hb₁, hid⟩ := leBytes_of_length (show (buf.take 8).length = 8 by simp; omega)
      obtain ⟨hb₂, htoken⟩ := leBytes_of_length (show ((buf.drop 8).take 4).length = 4 by simp; omega)
      obtain ⟨hb₃, hlt⟩ := leBytes_of_length (show ((buf.drop 12).take 4).length = 4 by simp; omega)
      have hbyte : ((buf.drop 16).take (ofLeBytes ((buf.drop 12).take 4))).length = ofLeBytes ((buf.drop 12).take 4) := by
        simp only [length_take, length_drop]
        omega
      refine ⟨⟨by omega, by omega, by omega⟩, ?_⟩
      rw [serializeBlock, hbyte, hb₁, hb₂, hb₃]
      have hall : buf.take 8 ++ (buf.drop 8).take 4 ++ (buf.drop 12).take 4 ++
          (buf.drop 16).take (ofLeBytes ((buf.drop 12).take 4)) =
          buf.take (16 + ofLeBytes ((buf.drop 12).take 4)) := by
        rw [take_add, show 16 = 12 + 4 from rfl, take_add, show 12 = 8 + 4 from rfl, take_add]
      exact hall ▸ take_prefix ..

theorem deserializeBlock_eq_some : deserializeBlock buf = some (handle, payload) ↔
    (handle.blockId < 2 ^ 64 ∧ handle.tokenLen < 2 ^ 32 ∧ payload.length < 2 ^ 32) ∧ serializeBlock handle payload <+: buf := by
  refine ⟨serializeBlock_isPrefix, fun ⟨⟨hid, htoken, hbyte⟩, rest, hrest⟩ => ?_⟩
  rw [← hrest]
  exact deserializeBlock_append hid htoken hbyte rest

-- A buffer is refused when the header or the payload that it announces is not all there.
theorem deserializeBlock_eq_none : deserializeBlock buf = none ↔
    buf.length < wireHeaderLen ∨ buf.length < wireHeaderLen + ofLeBytes ((buf.drop 12).take 4) := by
  simp only [deserializeBlock]
  split
  case isTrue h => simp [h]
  case isFalse h =>
    split
    case isTrue h'  => simp [h']
    case isFalse h' => simp [h, h']

end Wire

-- The wire format is decoded exactly, and without a slice that is out of bounds. A block id is a `u64`.
theorem deserializeBlock_exact (buf : List UInt8) :
    (∀ σ : Type, (sliceBlock buf : Eff σ Empty _) = pure (deserializeBlock buf)) ∧
      (∀ handle payload, deserializeBlock buf = some (handle, payload) ↔
        handle.blockId < 2 ^ 64 ∧ handle.tokenLen < 2 ^ 32 ∧ payload.length < 2 ^ 32 ∧
          serializeBlock handle payload <+: buf) ∧
      (∀ handle payload, handle.blockId < 2 ^ 64 → handle.tokenLen < 2 ^ 32 → payload.length < 2 ^ 32 →
        deserializeBlock (serializeBlock handle payload) = some (handle, payload)) ∧
      (deserializeBlock buf = none ↔
        buf.length < wireHeaderLen ∨ buf.length < wireHeaderLen + ofLeBytes ((buf.drop 12).take 4)) := by
  refine ⟨fun σ => sliceBlock_eq, fun handle payload => ?_, fun handle payload hid htoken hbyte => ?_, deserializeBlock_eq_none⟩
  case refine_1 => rw [deserializeBlock_eq_some, and_assoc, and_assoc]
  case refine_2 => simpa using deserializeBlock_append hid htoken hbyte []
