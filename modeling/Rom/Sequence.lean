import Mathlib.Tactic

/-!
Serial number arithmetic on 32-bit packet numbers (`sequence.h`). A number is
before another when the signed difference is negative, so each comparison is a
bound on the unsigned distance between the two (`seqLe_iff`, `seqGe_iff`). At a
distance of exactly `2^31` each of two numbers is before the other.
-/
namespace Rom

/-- Whether `a` is before `b`, with wrap-around. -/
def seqLt (a b : UInt32) : Bool := decide ((a - b).toInt32 < 0)

def seqLe (a b : UInt32) : Bool := a == b || seqLt a b

def seqGt (a b : UInt32) : Bool := seqLt b a

def seqGe (a b : UInt32) : Bool := a == b || seqGt a b

theorem toInt32_neg_iff (x : UInt32) : x.toInt32 < 0 ↔ 2^31 ≤ x.toNat := by
  rw [Int32.lt_iff_toInt_lt]
  have bound := x.toNat_lt
  have value : x.toInt32.toInt = x.toBitVec.toInt := rfl
  rw [value,BitVec.toInt_eq_toNat_cond]
  simp only [UInt32.toNat_toBitVec,Int32.toInt_zero]
  split <;> omega

theorem seqLt_iff (a b : UInt32) : seqLt a b = true ↔ 2^31 ≤ (a - b).toNat := by
  simp only [seqLt,decide_eq_true_eq,toInt32_neg_iff]


/-- `a` is at or before `b`: going up from `a`, `b` is at most `2^31` away. -/
theorem seqLe_iff (a b : UInt32) : seqLe a b = true ↔ (b - a).toNat ≤ 2^31 := by
  have boundA := a.toNat_lt
  have boundB := b.toNat_lt
  simp only [seqLe,Bool.or_eq_true,beq_iff_eq,seqLt_iff]
  rw [← UInt32.toNat_inj,UInt32.toNat_sub,UInt32.toNat_sub]
  omega

theorem seqGt_iff (a b : UInt32) : seqGt a b = true ↔ 2^31 ≤ (b - a).toNat := seqLt_iff b a

/-- `a` is at or after `b`: going up from `b`, `a` is at most `2^31` away. -/
theorem seqGe_iff (a b : UInt32) : seqGe a b = true ↔ (a - b).toNat ≤ 2^31 := by
  have boundA := a.toNat_lt
  have boundB := b.toNat_lt
  simp only [seqGe,Bool.or_eq_true,beq_iff_eq,seqGt_iff]
  rw [← UInt32.toNat_inj,UInt32.toNat_sub,UInt32.toNat_sub]
  omega

end Rom
