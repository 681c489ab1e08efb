import Mathlib.Algebra.Group.Nat.Defs
import Mathlib.Data.Nat.Basic

namespace NextBoot.Words

/-- Unchecked addition of an unsigned word of `bits` bits; it wraps in a release build. -/
def wrappingAdd (bits a b : Nat) : Nat := (a + b) % 2 ^ bits

def wrappingSub (bits a b : Nat) : Nat := (a + 2 ^ bits - b) % 2 ^ bits

def wrappingMul (bits a b : Nat) : Nat := a * b % 2 ^ bits

def checkedAdd (bits a b : Nat) : Option Nat := if a + b < 2 ^ bits then some (a + b) else none

def checkedSub (a b : Nat) : Option Nat := if b ≤ a then some (a - b) else none

def checkedMul (bits a b : Nat) : Option Nat := if a * b < 2 ^ bits then some (a * b) else none

def saturatingAdd (bits a b : Nat) : Nat := min (a + b) (2 ^ bits - 1)

def saturatingMul (bits a b : Nat) : Nat := min (a * b) (2 ^ bits - 1)

/-- `1.checked_shl(shift)`: the shift amount, not the result, is what is checked. -/
def checkedShlOne (bits shift : Nat) : Option Nat := if shift < bits then some (2 ^ shift) else none

/-- `value << shift` for a value of `bits` bits: the shift has to be shorter than that, and what leaves the value is lost. -/
def checkedShl (bits value shift : Nat) : Option Nat := if shift < bits then some (value * 2 ^ shift % 2 ^ bits) else none

def checkedShr (bits value shift : Nat) : Option Nat := if shift < bits then some (value / 2 ^ shift) else none

def divRoundUp (bits value divisor : Nat) : Option Nat :=
  if divisor = 0 then none else (checkedAdd bits value (divisor - 1)).map (· / divisor)

section Bounds

theorem two_lt_u32 : 2 < 2 ^ 32 := by decide

theorem four_lt_u32 : 4 < 2 ^ 32 := by decide

theorem eighteen_lt_u32 : 18 < 2 ^ 32 := by decide

theorem sector_lt_u32 : 512 < 2 ^ 32 := by decide

theorem isoSector_lt_u16 : 2048 < 2 ^ 16 := by decide

theorem isoSector_lt_u32 : 2048 < 2 ^ 32 := by decide

theorem zero_lt_u64 : 0 < 2 ^ 64 := by decide

theorem three_lt_u64 : 3 < 2 ^ 64 := by decide

theorem four_lt_u64 : 4 < 2 ^ 64 := by decide

theorem five_lt_u64 : 5 < 2 ^ 64 := by decide

theorem eight_lt_u64 : 8 < 2 ^ 64 := by decide

theorem twelve_lt_u64 : 12 < 2 ^ 64 := by decide

theorem sixteen_lt_u64 : 16 < 2 ^ 64 := by decide

theorem twenty_lt_u64 : 20 < 2 ^ 64 := by decide

theorem kilo_lt_u64 : 1024 < 2 ^ 64 := by decide

theorem eight_pos : 0 < 8 := by decide

theorem sector_pos : 0 < 512 := by decide

end Bounds

theorem wrappingAdd_eq {bits a b : Nat} (h : a + b < 2 ^ bits) : wrappingAdd bits a b = a + b :=
  Nat.mod_eq_of_lt h

theorem wrappingMul_eq {bits a b : Nat} (h : a * b < 2 ^ bits) : wrappingMul bits a b = a * b :=
  Nat.mod_eq_of_lt h

theorem wrappingSub_eq {bits a b : Nat} (hb : b ≤ a) (ha : a < 2 ^ bits) : wrappingSub bits a b = a - b := by
  have h : a + 2 ^ bits - b = a - b + 2 ^ bits := by omega
  rw [wrappingSub, h, Nat.add_mod_right, Nat.mod_eq_of_lt (by omega)]

theorem wrappingSub_one_wrappingAdd {bits a b : Nat} (h : 0 < a + b) :
    wrappingSub bits (wrappingAdd bits a b) 1 = (a + b - 1) % 2 ^ bits := by
  have hp : 0 < 2 ^ bits := Nat.two_pow_pos bits
  have he : (a + b) % 2 ^ bits + 2 ^ bits - 1 = (a + b) % 2 ^ bits + (2 ^ bits - 1) := Nat.add_sub_assoc hp _
  have hx : a + b + (2 ^ bits - 1) = a + b - 1 + 2 ^ bits := by omega
  rw [wrappingSub, wrappingAdd, he, Nat.mod_add_mod, hx, Nat.add_mod_right]

theorem checkedAdd_eq_some {bits a b c : Nat} :
    checkedAdd bits a b = some c ↔ a + b < 2 ^ bits ∧ c = a + b := by
  unfold checkedAdd
  split
  · next h => simp [h, eq_comm]
  · next h => simp [h]

theorem checkedSub_eq_some {a b c : Nat} : checkedSub a b = some c ↔ b ≤ a ∧ c = a - b := by
  unfold checkedSub
  split
  · next h => simp [h, eq_comm]
  · next h => simp [h]

theorem checkedMul_eq_some {bits a b c : Nat} :
    checkedMul bits a b = some c ↔ a * b < 2 ^ bits ∧ c = a * b := by
  unfold checkedMul
  split
  · next h => simp [h, eq_comm]
  · next h => simp [h]

theorem divRoundUp_eq_some {bits value divisor c : Nat} :
    divRoundUp bits value divisor = some c ↔
      divisor ≠ 0 ∧ value + (divisor - 1) < 2 ^ bits ∧ c = (value + (divisor - 1)) / divisor := by
  unfold divRoundUp
  split
  · next h => simp [h]
  · next h =>
      simp only [h, Option.map_eq_some_iff, checkedAdd_eq_some, ne_eq, not_false_iff, true_and]
      exact ⟨fun ⟨_, ⟨hlt, ha⟩, hc⟩ => ⟨hlt, by rw [← hc, ha]⟩, fun ⟨hlt, hc⟩ => ⟨_, ⟨hlt, rfl⟩, hc.symm⟩⟩

theorem checkedShlOne_eq_some {bits shift c : Nat} :
    checkedShlOne bits shift = some c ↔ shift < bits ∧ c = 2 ^ shift := by
  unfold checkedShlOne
  split
  · next h => simp [h, eq_comm]
  · next h => simp [h]

theorem checkedShl_eq_some {bits value shift c : Nat} :
    checkedShl bits value shift = some c ↔ shift < bits ∧ c = value * 2 ^ shift % 2 ^ bits := by
  unfold checkedShl
  split
  · next h => simp [h, eq_comm]
  · next h => simp [h]

theorem checkedShr_eq_some {bits value shift c : Nat} :
    checkedShr bits value shift = some c ↔ shift < bits ∧ c = value / 2 ^ shift := by
  unfold checkedShr
  split
  · next h => simp [h, eq_comm]
  · next h => simp [h]

end NextBoot.Words
