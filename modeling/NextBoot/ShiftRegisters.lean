import Mathlib.Algebra.Group.Nat.Defs
import Mathlib.Data.Nat.Basic
import Mathlib.Logic.Function.Iterate

namespace NextBoot.ShiftRegisters

variable {w : Nat} (poly : BitVec w)

/-- One shift of a register that gives its low bit back through a polynomial. -/
def shift (x : BitVec w) : BitVec w := (x >>> 1) ^^^ (if x.getLsbD 0 then poly else 0#w)

def step (x : BitVec w) (byte : UInt8) : BitVec w := (shift poly)^[8] (x ^^^ byte.toBitVec.setWidth w)

def run (x : BitVec w) (bytes : List UInt8) : BitVec w := bytes.foldl (step poly) x

variable {poly} {x y : BitVec w} {b c : UInt8} {us vs : List UInt8} {k n i m : Nat}

theorem shift_xor : shift poly (x ^^^ y) = shift poly x ^^^ shift poly y := by
  simp only [shift, BitVec.getLsbD_xor, BitVec.ushiftRight_xor_distrib]
  cases x.getLsbD 0 <;> cases y.getLsbD 0 <;> ext j <;> simp [Bool.xor_left_comm, Bool.xor_comm]

theorem shifts_xor : (shift poly)^[n] (x ^^^ y) = (shift poly)^[n] x ^^^ (shift poly)^[n] y := by
  induction n generalizing x y with
  | zero => rfl
  | succ n ih => rw [Function.iterate_succ_apply, shift_xor, ih]; rfl

/-- A register that is small after a shift has not given a bit back. -/
theorem toNat_of_shift (hpoly : poly.msb = true) (hk : k < w) (h : (shift poly x).toNat < 2 ^ k) :
    x.toNat = 2 * (shift poly x).toNat := by
  cases hbit : x.getLsbD 0 with
  | true =>
      have hmsb : (shift poly x).msb = true := by
        simp [shift, hbit, hpoly]
      have hle := BitVec.le_toNat_of_msb_true hmsb
      have hpow : 2 ^ k ≤ 2 ^ (w - 1) := Nat.pow_le_pow_right Nat.two_pos (by omega)
      omega
  | false =>
      have hshift : shift poly x = x >>> 1 := by
        rw [shift, hbit, if_neg Bool.false_ne_true, BitVec.xor_zero]
      rw [BitVec.getLsbD, Nat.testBit_zero, decide_eq_false_iff_not] at hbit
      rw [hshift, BitVec.toNat_ushiftRight, Nat.shiftRight_eq_div_pow]
      omega

theorem toNat_of_shifts (hpoly : poly.msb = true) (hk : k + n ≤ w) (h : ((shift poly)^[n] x).toNat < 2 ^ k) :
    x.toNat = 2 ^ n * ((shift poly)^[n] x).toNat := by
  induction n generalizing x with
  | zero => rw [Function.iterate_zero_apply, Nat.pow_zero, Nat.one_mul]
  | succ n ih =>
      rw [Function.iterate_succ_apply] at h ⊢
      have hshift := ih (by omega) h
      have hsmall : (shift poly x).toNat < 2 ^ (n + k) := by
        rw [hshift, Nat.pow_add]
        exact Nat.mul_lt_mul_of_pos_left h (Nat.two_pow_pos n)
      rw [toNat_of_shift hpoly (by omega) hsmall, hshift, Nat.pow_succ', Nat.mul_assoc]

theorem step_xor : step poly x b ^^^ step poly y c =
    (shift poly)^[8] ((x ^^^ y) ^^^ (b.toBitVec.setWidth w ^^^ c.toBitVec.setWidth w)) := by
  rw [step, step, ← shifts_xor]
  congr 1
  ac_rfl

theorem toNat_byte_lt : (b.toBitVec.setWidth w).toNat < 2 ^ 8 := by
  rw [BitVec.toNat_setWidth]
  exact lt_of_le_of_lt (Nat.mod_le _ _) b.toBitVec.isLt

theorem byte_injective (hw : 8 ≤ w) (h : b.toBitVec.setWidth w = c.toBitVec.setWidth w) : b = c := by
  have hnumber := congrArg BitVec.toNat h
  have hpow : 2 ^ 8 ≤ 2 ^ w := Nat.pow_le_pow_right Nat.two_pos hw
  rw [BitVec.toNat_setWidth, BitVec.toNat_setWidth, Nat.mod_eq_of_lt (lt_of_lt_of_le b.toBitVec.isLt hpow),
    Nat.mod_eq_of_lt (lt_of_lt_of_le c.toBitVec.isLt hpow)] at hnumber
  exact UInt8.toNat_inj.mp hnumber

theorem toNat_bytes_lt : (b.toBitVec.setWidth w ^^^ c.toBitVec.setWidth w).toNat < 2 ^ 8 := by
  rw [BitVec.toNat_xor]
  exact Nat.xor_lt_two_pow toNat_byte_lt toNat_byte_lt

theorem difference_lt (hpoly : poly.msb = true) (hk : k + 8 ≤ w) (h : ((shift poly)^[8] x).toNat < 2 ^ k) :
    x.toNat < 2 ^ (k + 8) := by
  rw [toNat_of_shifts hpoly hk h, Nat.add_comm, Nat.pow_add]
  exact Nat.mul_lt_mul_of_pos_left h (Nat.two_pow_pos 8)

/-- Two registers that come together over a few bytes were not far apart. -/
theorem xor_lt_of_run_eq (hpoly : poly.msb = true) (hlength : us.length = vs.length) (hw : 8 * us.length ≤ w)
    (h : run poly x us = run poly y vs) : (x ^^^ y).toNat < 2 ^ (8 * us.length) := by
  induction us generalizing x y vs with
  | nil =>
      cases vs with
      | nil => rw [show x = y from h, BitVec.xor_self]; exact Nat.one_pos
      | cons c vs => cases hlength
  | cons b us ih =>
      cases vs with
      | nil => cases hlength
      | cons c vs =>
          rw [List.length_cons] at hw
          have hsmall := ih (Nat.succ.inj hlength) (by omega) h
          rw [step_xor] at hsmall
          have hdiff := difference_lt hpoly (by omega) hsmall
          have hback : x ^^^ y = ((x ^^^ y) ^^^ (b.toBitVec.setWidth w ^^^ c.toBitVec.setWidth w)) ^^^
              (b.toBitVec.setWidth w ^^^ c.toBitVec.setWidth w) := by
            rw [BitVec.xor_assoc, BitVec.xor_self, BitVec.xor_zero]
          rw [hback, BitVec.toNat_xor, List.length_cons]
          refine Nat.xor_lt_two_pow hdiff (lt_of_lt_of_le toNat_bytes_lt ?_)
          exact Nat.pow_le_pow_right Nat.two_pos (by omega)

theorem step_injective (hpoly : poly.msb = true) (hw : 8 ≤ w) (h : step poly x b = step poly y b) : x = y := by
  have hzero : ((shift poly)^[8] (x ^^^ y)).toNat = 0 := by
    have hxor := @step_xor w poly x y b b
    rw [h, BitVec.xor_self, BitVec.xor_self, BitVec.xor_zero] at hxor
    rw [← hxor]
    rfl
  have hdiff := @toNat_of_shifts w poly (x ^^^ y) 0 8 hpoly (by omega) (by rw [hzero]; exact Nat.one_pos)
  rw [hzero, Nat.mul_zero] at hdiff
  exact BitVec.xor_eq_zero_iff.mp (BitVec.eq_of_toNat_eq hdiff)

theorem run_injective (hpoly : poly.msb = true) (hw : 8 ≤ w) (h : run poly x us = run poly y us) : x = y := by
  induction us generalizing x y with
  | nil => exact h
  | cons b us ih => exact step_injective hpoly hw (ih h)

/-- Bytes that fit into the register are told apart by it. -/
theorem eq_of_run_eq (hpoly : poly.msb = true) (hlength : us.length = vs.length) (hw : 8 * us.length ≤ w)
    (h : run poly x us = run poly x vs) : us = vs := by
  induction us generalizing x vs with
  | nil => exact (List.length_eq_zero_iff.mp hlength.symm).symm
  | cons b us ih =>
      cases vs with
      | nil => cases hlength
      | cons c vs =>
          rw [List.length_cons] at hw
          have hrest := Nat.succ.inj hlength
          have hsmall := xor_lt_of_run_eq hpoly hrest (by omega) h
          rw [step_xor, BitVec.xor_self, BitVec.zero_xor] at hsmall
          have hdiff := toNat_of_shifts hpoly (by omega) hsmall
          have hlt := @toNat_bytes_lt w b c
          have hzero : (b.toBitVec.setWidth w ^^^ c.toBitVec.setWidth w).toNat = 0 := by omega
          obtain rfl := byte_injective (by omega) (BitVec.xor_eq_zero_iff.mp (BitVec.eq_of_toNat_eq hzero))
          rw [ih hrest (by omega) h]

/-- A burst of changes that fits into the register changes what the register comes to. -/
theorem eq_of_burst (hpoly : poly.msb = true) (hw : 8 * m ≤ w) (hm : 0 < m) (hlength : us.length = vs.length)
    (hburst : ∀ j, j < i ∨ i + m ≤ j → us[j]? = vs[j]?) (h : run poly x us = run poly x vs) : us = vs := by
  have hcut : ∀ bytes : List UInt8, bytes = bytes.take i ++ (bytes.drop i).take m ++ bytes.drop (i + m) := by
    intro bytes
    rw [← List.drop_drop, List.append_assoc, List.take_append_drop, List.take_append_drop]
  have hfront : us.take i = vs.take i := by
    apply List.ext_getElem?
    intro j
    rw [List.getElem?_take, List.getElem?_take]
    split
    · next hj => exact hburst j (.inl hj)
    · rfl
  have hback : us.drop (i + m) = vs.drop (i + m) := by
    apply List.ext_getElem?
    intro j
    rw [List.getElem?_drop, List.getElem?_drop]
    exact hburst _ (.inr (Nat.le_add_right _ _))
  have hmiddle : ((us.drop i).take m).length = ((vs.drop i).take m).length := by
    rw [List.length_take, List.length_take, List.length_drop, List.length_drop, hlength]
  rw [hcut us, hcut vs, hfront, hback] at h ⊢
  simp only [run, List.foldl_append] at h
  have hstate := run_injective hpoly (by omega) h
  have hshort : 8 * ((us.drop i).take m).length ≤ w :=
    Nat.le_trans (Nat.mul_le_mul_left 8 (List.length_take_le _ _)) hw
  rw [eq_of_run_eq hpoly hmiddle hshort hstate]

end NextBoot.ShiftRegisters
