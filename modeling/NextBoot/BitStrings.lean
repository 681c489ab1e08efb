import Mathlib.Data.Nat.Bitwise

/-!
Strings of bits, the highest bit of a number first.
-/

namespace NextBoot.BitStrings

/-- The number that the first bits of a string spell; behind its end there are zeros. -/
def front : Nat → List Bool → Nat
  | 0, _ => 0
  | n + 1, bits => (bits.headD false).toNat * 2 ^ n + front n bits.tail

def spell : Nat → Nat → List Bool
  | 0, _ => []
  | n + 1, value => value.testBit n :: spell n value

variable {bits : List Bool} {m n value : Nat}

@[simp] theorem length_spell : (spell n value).length = n := by
  induction n with
  | zero => rfl
  | succ n ih => rw [spell, List.length_cons, ih]

theorem front_lt : front n bits < 2 ^ n := by
  induction n generalizing bits with
  | zero => exact Nat.one_pos
  | succ n ih =>
      have hrest := @ih bits.tail
      have hbit := Bool.toNat_le (bits.headD false)
      have hfirst := Nat.mul_le_mul_right (2 ^ n) hbit
      rw [front, Nat.pow_succ]
      omega

theorem front_add : front (m + n) bits = front m bits * 2 ^ n + front n (bits.drop m) := by
  induction m generalizing bits with
  | zero => rw [Nat.zero_add, front, Nat.zero_mul, Nat.zero_add, List.drop_zero]
  | succ m ih =>
      have hdrop : bits.tail.drop m = bits.drop (m + 1) := by rw [List.drop_tail]
      rw [Nat.succ_add, front, ih, front, hdrop, Nat.add_mul, Nat.mul_assoc, ← Nat.pow_add, Nat.add_assoc]

/-- What a number is spelled with spells the number. -/
theorem front_spell (hvalue : value < 2 ^ n) : front n (spell n value ++ bits) = value := by
  have hmod : front n (spell n value ++ bits) = value % 2 ^ n := by
    clear hvalue
    induction n with
    | zero => rw [Nat.pow_zero, Nat.mod_one, front]
    | succ n ih =>
        rw [Nat.mod_pow_succ, front, spell, List.cons_append, List.headD_cons, List.tail_cons, ih, Nat.toNat_testBit,
          Nat.add_comm, Nat.mul_comm]
  rw [hmod, Nat.mod_eq_of_lt hvalue]

@[simp] theorem drop_spell : (spell n value ++ bits).drop n = bits := List.drop_left' length_spell

end NextBoot.BitStrings
