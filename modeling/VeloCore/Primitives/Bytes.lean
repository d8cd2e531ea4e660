import Mathlib.Tactic

open List

-- The first `k` bytes of a number, the least significant one first.
def leBytes : Nat → Nat → List UInt8
  | 0, _     => []
  | k + 1, n => UInt8.ofNat n :: leBytes k (n / 256)

def ofLeBytes : List UInt8 → Nat
  | []      => 0
  | b :: bs => b.toNat + 256 * ofLeBytes bs

@[simp]
theorem leBytes_length : (leBytes k n).length = k := by
  induction k generalizing n
  case zero      => rfl
  case succ k hi => rw [leBytes, length_cons, hi]

-- What is read back has lost what did not fit.
@[simp]
theorem ofLeBytes_leBytes : ofLeBytes (leBytes k n) = n % 256 ^ k := by
  induction k generalizing n
  case zero      => simp [leBytes, ofLeBytes, Nat.mod_one]
  case succ k hi =>
    rw [leBytes, ofLeBytes, hi, pow_succ', Nat.mod_mul, UInt8.toNat_ofNat']

theorem ofLeBytes_lt (l : List UInt8) : ofLeBytes l < 256 ^ l.length := by
  induction l
  case nil => simp [ofLeBytes]
  case cons b bs hi =>
    have hb := b.toNat_lt
    rw [ofLeBytes, length_cons, pow_succ']
    omega

-- Bytes are the bytes of the number that they are read as.
theorem leBytes_ofLeBytes (l : List UInt8) : leBytes l.length (ofLeBytes l) = l := by
  induction l
  case nil => rfl
  case cons b bs hi =>
    have hb := b.toNat_lt
    have hmod : (b.toNat + 256 * ofLeBytes bs) / 256 = ofLeBytes bs := by omega
    have hbyte : UInt8.ofNat (b.toNat + 256 * ofLeBytes bs) = b :=
      UInt8.toNat_inj.mp <| by rw [UInt8.toNat_ofNat']; omega
    rw [ofLeBytes, length_cons, leBytes, hmod, hbyte, hi]
