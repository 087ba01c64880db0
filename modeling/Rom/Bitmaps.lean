import Mathlib.Tactic

/-!
Bits in rows of bytes. The bit at a position of a row stands in the byte that many
eighths along; rows go on without end, and a row in memory goes on with zeros. What a
shift with carry does byte by byte moves each bit by the same number of positions
(`bitAt_carried`).
-/
namespace Rom.Bitmaps

/-- A bit of a byte. -/
def bit (b : UInt8) (k : ℕ) : Bool := b.toBitVec.getLsbD k

/-- A bit of a row of bytes. -/
def bitAt (row : ℕ → UInt8) (k : ℕ) : Bool := bit (row (k / 8)) (k % 8)

@[simp] theorem bit_zero (k : ℕ) : bit 0 k = false := BitVec.getLsbD_zero

theorem bit_or (a b : UInt8) (k : ℕ) : bit (a ||| b) k = (bit a k || bit b k) := by
  rw [bit,UInt8.toBitVec_or,BitVec.getLsbD_or,bit,bit]

theorem shift_amount {r : ℕ} (small : r < 8) : ((UInt8.ofNat r).toBitVec % 8).toNat = r := by
  have inside : r < 256 := by omega
  show r % 256 % 8 = r
  rw [Nat.mod_eq_of_lt inside,Nat.mod_eq_of_lt small]

theorem bit_shiftLeft (b : UInt8) {r k : ℕ} (small : r < 8) (inside : k < 8) :
    bit (b <<< UInt8.ofNat r) k = (decide (r ≤ k) && bit b (k - r)) := by
  rw [bit,UInt8.toBitVec_shiftLeft,BitVec.shiftLeft_eq',shift_amount small,BitVec.getLsbD_shiftLeft,bit]
  simp only [inside,decide_true,Bool.true_and]
  by_cases low : k < r
  · simp [low]
  · simp [low,Nat.not_lt.mp low]

theorem bit_shiftRight (b : UInt8) {r : ℕ} (small : r < 8) (k : ℕ) : bit (b >>> UInt8.ofNat r) k = bit b (r + k) := by
  rw [bit,UInt8.toBitVec_shiftRight,BitVec.ushiftRight_eq',shift_amount small,BitVec.getLsbD_ushiftRight,bit]

/-- The byte with one bit. -/
theorem bit_single {r k : ℕ} (small : r < 8) (inside : k < 8) : bit (1 <<< UInt8.ofNat r) k = decide (k = r) := by
  have one : ∀ j, bit 1 j = decide (j = 0) := by
    intro j
    rw [bit]
    exact (BitVec.getLsbD_one (w := 8)).trans (by simp)
  rw [bit_shiftLeft 1 small inside,one]
  simp only [← Bool.decide_and]
  exact decide_eq_decide.mpr (by omega)

theorem eq_zero_iff (b : UInt8) : b = 0 ↔ ∀ k < 8, bit b k = false := by
  constructor
  · rintro rfl k _
    exact bit_zero k
  · intro none
    rw [← UInt8.toBitVec_inj]
    refine BitVec.eq_of_getLsbD_eq (fun k inside => ?_)
    exact (none k inside).trans (bit_zero k).symm

/-- Testing a bit with a mask. -/
theorem test_single (b : UInt8) {r : ℕ} (small : r < 8) : ((b &&& 1 <<< UInt8.ofNat r) != 0) = bit b r := by
  have masked : ∀ k < 8, bit (b &&& 1 <<< UInt8.ofNat r) k = (bit b k && decide (k = r)) := by
    intro k inside
    rw [← bit_single small inside,bit,UInt8.toBitVec_and,BitVec.getLsbD_and,bit,bit]
  rw [Bool.eq_iff_iff,bne_iff_ne,ne_eq,eq_zero_iff]
  constructor
  · intro some_bit
    by_contra clear
    rw [Bool.not_eq_true] at clear
    refine some_bit (fun k inside => ?_)
    rw [masked k inside]
    by_cases here : k = r
    · simp [here,clear]
    · simp [here]
  · intro set clear
    have here := clear r small
    rw [masked r small,set] at here
    simp at here

/-- Setting a bit of a row. -/
theorem bitAt_set {row after : ℕ → UInt8} {i : ℕ}
    (set : ∀ j, after j = if j = i / 8 then row j ||| 1 <<< UInt8.ofNat (i % 8) else row j) (k : ℕ) :
    bitAt after k = (decide (k = i) || bitAt row k) := by
  have low : i % 8 < 8 := Nat.mod_lt _ (by decide)
  have inside : k % 8 < 8 := Nat.mod_lt _ (by decide)
  rw [bitAt,set,bitAt]
  by_cases byte : k / 8 = i / 8
  · rw [if_pos byte,bit_or,bit_single low inside,Bool.or_comm]
    have same : k % 8 = i % 8 ↔ k = i := by omega
    simp only [same]
  · have other : k ≠ i := by
      rintro rfl
      exact byte rfl
    simp [byte,other]

/-- Moving a row by whole bytes. -/
theorem bitAt_moved {row after : ℕ → UInt8} {q limit : ℕ}
    (moved : ∀ j < limit, after j = if j < q then 0 else row (j - q)) {k : ℕ} (inside : k / 8 < limit) :
    bitAt after k = (decide (8 * q ≤ k) && bitAt row (k - 8 * q)) := by
  rw [bitAt,moved _ inside,bitAt]
  by_cases low : k / 8 < q
  · have below : ¬ 8 * q ≤ k := by omega
    simp [low,below]
  · have above : 8 * q ≤ k := by omega
    have byte : (k - 8 * q) / 8 = k / 8 - q := by omega
    have position : (k - 8 * q) % 8 = k % 8 := by omega
    simp [low,above,byte,position]

/-- Moving a row by bytes and some bits more: the bits that leave a byte at the top
    come into the next one. -/
theorem bitAt_carried {row after : ℕ → UInt8} {q r limit : ℕ} (some_bits : 0 < r) (small : r < 8)
    (carried : ∀ j < limit, after j =
      if j < q then 0
      else if j - q > 0 then row (j - q) <<< UInt8.ofNat r ||| row (j - q - 1) >>> UInt8.ofNat (8 - r)
      else row (j - q) <<< UInt8.ofNat r) {k : ℕ} (inside : k / 8 < limit) :
    bitAt after k = (decide (8 * q + r ≤ k) && bitAt row (k - (8 * q + r))) := by
  have position : k % 8 < 8 := Nat.mod_lt _ (by decide)
  have back : 8 - r < 8 := by omega
  rw [bitAt,carried _ inside,bitAt]
  by_cases low : k / 8 < q
  · have below : ¬ 8 * q + r ≤ k := by omega
    simp [low,below]
  · rw [if_neg low]
    -- A bit below the shift comes from the byte before.
    by_cases own : r ≤ k % 8
    · have above : 8 * q + r ≤ k := by omega
      have byte : (k - (8 * q + r)) / 8 = k / 8 - q := by omega
      have place : (k - (8 * q + r)) % 8 = k % 8 - r := by omega
      have gone : bit (row (k / 8 - q - 1) >>> UInt8.ofNat (8 - r)) (k % 8) = false := by
        rw [bit_shiftRight _ back]
        exact BitVec.getLsbD_of_ge _ _ (by omega)
      split
      · rw [bit_or,bit_shiftLeft _ small position,gone]
        simp [own,above,byte,place]
      · rw [bit_shiftLeft _ small position]
        simp [own,above,byte,place]
    · split
      · next before =>
        have above : 8 * q + r ≤ k := by omega
        have byte : (k - (8 * q + r)) / 8 = k / 8 - q - 1 := by omega
        have place : (k - (8 * q + r)) % 8 = 8 - r + k % 8 := by omega
        rw [bit_or,bit_shiftLeft _ small position,bit_shiftRight _ back]
        simp [own,above,byte,place]
      · have below : ¬ 8 * q + r ≤ k := by omega
        rw [bit_shiftLeft _ small position]
        simp [own,below]

end Rom.Bitmaps
