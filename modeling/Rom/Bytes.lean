import Mathlib.Data.List.Basic
import Mathlib.Tactic

/-!
Byte strings and the big-endian words inside them. A buffer is a list of bytes,
a pointer into it is the list that starts there, and the words of `platform.h`
are read and written at the front of such a list. Reading back a written word
gives the word (`readU16_write`, `readU32_write`, `readU64_write`), whatever
follows it, and writing a word that was read gives its bytes (`writeU16_read`,
`writeU32_read`, `writeU64_read`).
-/
namespace Rom

/-- The bytes from a pointer on. -/
abbrev Bytes := List UInt8

/-- The text of a path or a name, one byte for each character. -/
def ofText (s : String) : Bytes := s.toList.map (fun c => UInt8.ofNat c.toNat)

/-- The byte at an index; 0 stands for a read past the end. -/
def byteAt (p : Bytes) (i : Nat) : UInt8 := p.getD i 0

def readU16 : Bytes → UInt16
  | b0 :: b1 :: _ => UInt16.ofNat (b0.toNat * 256 + b1.toNat)
  | _ => 0

def readU32 : Bytes → UInt32
  | b0 :: b1 :: b2 :: b3 :: _ =>
    UInt32.ofNat (((b0.toNat * 256 + b1.toNat) * 256 + b2.toNat) * 256 + b3.toNat)
  | _ => 0

def writeU16 (v : UInt16) : Bytes := [UInt8.ofNat (v.toNat / 256),UInt8.ofNat v.toNat]

def writeU32 (v : UInt32) : Bytes :=
  [UInt8.ofNat (v.toNat / 2^24),UInt8.ofNat (v.toNat / 2^16),UInt8.ofNat (v.toNat / 2^8),UInt8.ofNat v.toNat]

/-- A 64-bit count travels as its high half, then its low half. -/
def readU64 (p : Bytes) : UInt64 :=
  UInt64.ofNat ((readU32 p).toNat * 2^32 + (readU32 (p.drop 4)).toNat)

def writeU64 (v : UInt64) : Bytes :=
  writeU32 (UInt32.ofNat (v.toNat / 2^32)) ++ writeU32 (UInt32.ofNat v.toNat)

@[simp] theorem writeU16_length (v : UInt16) : (writeU16 v).length = 2 := rfl
@[simp] theorem writeU32_length (v : UInt32) : (writeU32 v).length = 4 := rfl
@[simp] theorem writeU64_length (v : UInt64) : (writeU64 v).length = 8 := rfl

@[simp] theorem readU16_write (v : UInt16) (rest : Bytes) : readU16 (writeU16 v ++ rest) = v := by
  have bound := v.toNat_lt
  apply UInt16.toNat_inj.mp
  simp only [writeU16,List.cons_append,readU16,UInt16.toNat_ofNat',UInt8.toNat_ofNat']
  omega

@[simp] theorem readU32_write (v : UInt32) (rest : Bytes) : readU32 (writeU32 v ++ rest) = v := by
  have bound := v.toNat_lt
  apply UInt32.toNat_inj.mp
  simp only [writeU32,List.cons_append,readU32,UInt32.toNat_ofNat',UInt8.toNat_ofNat']
  omega

@[simp] theorem drop_writeU16 (v : UInt16) (rest : Bytes) : (writeU16 v ++ rest).drop 2 = rest := rfl
@[simp] theorem drop_writeU32 (v : UInt32) (rest : Bytes) : (writeU32 v ++ rest).drop 4 = rest := rfl

theorem writeU16_not_short (v : UInt16) (rest : Bytes) : ¬ (writeU16 v ++ rest).length < 2 := by
  rw [List.length_append,writeU16_length]
  omega

@[simp] theorem readU64_write (v : UInt64) (rest : Bytes) : readU64 (writeU64 v ++ rest) = v := by
  have bound := v.toNat_lt
  apply UInt64.toNat_inj.mp
  simp only [readU64,writeU64,List.append_assoc,readU32_write,drop_writeU32,UInt64.toNat_ofNat',UInt32.toNat_ofNat']
  omega

/-- A read looks at its own bytes only. -/
theorem readU16_take (p : Bytes) {n : Nat} (enough : 2 ≤ n) : readU16 (p.take n) = readU16 p := by
  obtain ⟨n,rfl⟩ := Nat.exists_eq_add_of_le' enough
  match p with
  | [] => rfl
  | [_] => rfl
  | _ :: _ :: _ => rfl

theorem readU32_take (p : Bytes) {n : Nat} (enough : 4 ≤ n) : readU32 (p.take n) = readU32 p := by
  obtain ⟨n,rfl⟩ := Nat.exists_eq_add_of_le' enough
  match p with
  | [] => rfl
  | [_] => rfl
  | [_,_] => rfl
  | [_,_,_] => rfl
  | _ :: _ :: _ :: _ :: _ => rfl

/-- A word that was read is written as the bytes it was read from. -/
theorem writeU16_read {p : Bytes} (long : 2 ≤ p.length) : writeU16 (readU16 p) = p.take 2 := by
  match p with
  | b0 :: b1 :: _ =>
    have bound0 := b0.toNat_lt
    have bound1 := b1.toNat_lt
    simp only [readU16,writeU16,List.take_succ_cons,List.take_zero,List.cons.injEq,and_true,← UInt8.toNat_inj,
      UInt8.toNat_ofNat',UInt16.toNat_ofNat']
    omega

theorem writeU32_read {p : Bytes} (long : 4 ≤ p.length) : writeU32 (readU32 p) = p.take 4 := by
  match p with
  | b0 :: b1 :: b2 :: b3 :: _ =>
    have bound0 := b0.toNat_lt
    have bound1 := b1.toNat_lt
    have bound2 := b2.toNat_lt
    have bound3 := b3.toNat_lt
    simp only [readU32,writeU32,List.take_succ_cons,List.take_zero,List.cons.injEq,and_true,← UInt8.toNat_inj,
      UInt8.toNat_ofNat',UInt32.toNat_ofNat']
    omega

theorem writeU64_read {p : Bytes} (long : 8 ≤ p.length) : writeU64 (readU64 p) = p.take 8 := by
  have bound := (readU32 p).toNat_lt
  have bound' := (readU32 (p.drop 4)).toNat_lt
  have high : UInt32.ofNat ((readU64 p).toNat / 2^32) = readU32 p := by
    rw [← UInt32.toNat_inj,readU64,UInt32.toNat_ofNat',UInt64.toNat_ofNat']
    omega
  have low : UInt32.ofNat (readU64 p).toNat = readU32 (p.drop 4) := by
    rw [← UInt32.toNat_inj,readU64,UInt32.toNat_ofNat',UInt64.toNat_ofNat']
    omega
  rw [writeU64,high,low,writeU32_read (by omega),writeU32_read (by rw [List.length_drop]; omega),← List.take_add]

end Rom
