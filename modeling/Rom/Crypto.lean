import Rom.Bytes

/-!
Keys, signatures and the functions the code takes from other libraries: the hash
of `hash.h` and the Ed25519 functions of `crypto.h`. Everything that calls them
is stated for any such functions; `plain` is a small instance to run the code
with.
-/
namespace Rom

abbrev PublicKey := Vector UInt8 32
/-- The seed, then the public key. -/
abbrev SecretKey := Vector UInt8 64
abbrev Signature := Vector UInt8 64

structure KeyPair where
  publicKey : PublicKey
  secretKey : SecretKey
  deriving DecidableEq

/-- The functions taken from other libraries. -/
structure Primitives where
  xxhash32 : Bytes → UInt32
  sign : SecretKey → Bytes → Signature
  verify : PublicKey → Signature → Bytes → Bool

/-- `memcpy` of `n` bytes into an array. -/
def copyBytes (n : Nat) (p : Bytes) : Vector UInt8 n := Vector.ofFn (fun i => byteAt p i)

theorem copyBytes_append {n : Nat} (v : Vector UInt8 n) (rest : Bytes) : copyBytes n (v.toList ++ rest) = v := by
  apply Vector.ext
  intro i inside
  have within : i < v.toList.length := by simpa using inside
  simp [copyBytes,byteAt,List.getElem?_append_left within,inside]

theorem toList_copyBytes {n : Nat} {p : Bytes} (enough : n ≤ p.length) : (copyBytes n p).toList = p.take n := by
  apply List.ext_getElem
  · simp [enough]
  · intro i inside inside'
    have within : i < p.length := by
      rw [List.length_take] at inside'
      omega
    simp [copyBytes,byteAt,within]

namespace Plain

/-- The half of a secret key that is its public key. -/
def publicHalf (sk : SecretKey) : PublicKey := copyBytes 32 (sk.toList.drop 32)

/-- A sum of the bytes. -/
def digest (m : Bytes) : UInt32 := m.foldl (fun h b => h * 31 + UInt32.ofNat b.toNat) 7

/-- A signature names its key and the sum of its message. -/
def signatureOf (pk : PublicKey) (m : Bytes) : Signature := copyBytes 64 (pk.toList ++ writeU32 (digest m))

end Plain

open Plain in
def plain : Primitives where
  xxhash32 := digest
  sign sk m := signatureOf (publicHalf sk) m
  verify pk sig m := sig == signatureOf pk m

/-- The keys of a node in concrete runs: every byte is the given one. -/
def plainKeys (b : UInt8) : KeyPair := ⟨Vector.replicate 32 b,Vector.replicate 64 b⟩

/-- What the keys sign verifies under their public key and no other. -/
def Primitives.Genuine (P : Primitives) (keys : KeyPair) : Prop :=
  ∀ (m : Bytes) (pk : PublicKey), P.verify pk (P.sign keys.secretKey m) m = true ↔ pk = keys.publicKey

theorem publicHalf_plainKeys (b : UInt8) : Plain.publicHalf (plainKeys b).secretKey = (plainKeys b).publicKey := by
  have half : (plainKeys b).secretKey.toList.drop 32 = (plainKeys b).publicKey.toList := rfl
  rw [Plain.publicHalf,half]
  simpa using copyBytes_append (plainKeys b).publicKey []

theorem Plain.signatureOf_inj {pk pk' : PublicKey} {m : Bytes} :
    Plain.signatureOf pk m = Plain.signatureOf pk' m ↔ pk = pk' := by
  have named (key : PublicKey) : copyBytes 32 (Plain.signatureOf key m).toList = key := by
    apply Vector.ext
    intro i inside
    have within : i < key.toList.length := by simpa using inside
    have room : i < 64 := by omega
    simp [Plain.signatureOf,copyBytes,byteAt,List.getElem?_append_left within,inside,room]
  constructor
  · intro same
    rw [← named pk,same,named pk']
  · exact congrArg (Plain.signatureOf · m)

theorem plain_genuine (b : UInt8) : plain.Genuine (plainKeys b) := by
  intro m pk
  show (Plain.signatureOf _ m == Plain.signatureOf pk m) = true ↔ _
  rw [publicHalf_plainKeys,beq_iff_eq,Plain.signatureOf_inj]
  exact eq_comm

end Rom
