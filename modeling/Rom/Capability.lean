import Rom.Crypto
import Rom.StatePath
import Std.Data.ExtTreeMap

/-!
Capability tokens and the store of a node (`capability.h`, `capability.cpp`). A
token grants permissions on the paths of a pattern up to an expiry time and is
signed by its issuer. The store keeps the tokens a node has issued or received
by their token id. `decode_encode` is the round trip of the wire format.
-/
namespace Rom
open Std

/-- The permission bits. -/
inductive CapabilityPermission where
  | none
  | read
  | write
  | subscribe
  | grant
  | all
  deriving DecidableEq, Repr

def CapabilityPermission.bits : CapabilityPermission → UInt8
  | none => 0x00
  | read => 0x01
  | write => 0x02
  | subscribe => 0x04
  | grant => 0x08
  | all => 0x0F

structure CapabilityToken where
  tokenId : UInt32
  issuerId : UInt32
  permissions : UInt8
  pathPattern : Bytes
  expiryUs : UInt32
  parentTokenId : UInt32
  signature : Signature
  deriving DecidableEq

namespace CapabilityToken

/-- The size of the fields in front of the pattern. -/
def fixedSize : Nat := 19
def signatureSize : Nat := 64

def signableBytes (t : CapabilityToken) : Bytes :=
  writeU32 t.tokenId ++ writeU32 t.issuerId ++ [t.permissions] ++ writeU32 t.expiryUs ++ writeU32 t.parentTokenId ++
    writeU16 (UInt16.ofNat t.pathPattern.length) ++ t.pathPattern

def encode (t : CapabilityToken) : Bytes := t.signableBytes ++ t.signature.toList

def decode (data : Bytes) : Option CapabilityToken :=
  if data.length < 83 then none
  else
    let patLen := (readU16 (data.drop 17)).toNat
    if fixedSize + patLen + signatureSize > data.length then none
    else
      some
        { tokenId := readU32 data
          issuerId := readU32 (data.drop 4)
          permissions := byteAt data 8
          expiryUs := readU32 (data.drop 9)
          parentTokenId := readU32 (data.drop 13)
          pathPattern := (data.drop fixedSize).take patLen
          signature := copyBytes 64 (data.drop (fixedSize + patLen)) }

def hasPermission (t : CapabilityToken) (perm : CapabilityPermission) : Bool := t.permissions &&& perm.bits != 0

def covers (t : CapabilityToken) (path : StatePath) : Bool := path.matchesPattern ⟨t.pathPattern⟩

def isExpired (t : CapabilityToken) (nowUs : UInt32) : Bool :=
  if t.expiryUs = 0 then false else decide (nowUs > t.expiryUs)

/-- The token returned for a refused attenuation: all fields zero. -/
def invalid : CapabilityToken := ⟨0,0,0,[],0,0,Vector.replicate 64 0⟩

/-- The token lets a path through at a time. -/
def qualifies (t : CapabilityToken) (path : StatePath) (perm : CapabilityPermission) (nowUs : UInt32) : Bool :=
  !t.isExpired nowUs && t.hasPermission perm && t.covers path

theorem isExpired_iff (t : CapabilityToken) (nowUs : UInt32) :
    t.isExpired nowUs = true ↔ t.expiryUs ≠ 0 ∧ t.expiryUs < nowUs := by
  by_cases never : t.expiryUs = 0
  · simp [isExpired,never]
  · simp [isExpired,never]

@[simp] theorem signableBytes_length (t : CapabilityToken) : t.signableBytes.length = fixedSize + t.pathPattern.length := by
  simp [signableBytes,fixedSize]
  omega

/-- A token whose pattern length fits its field is read back, whatever follows it. -/
theorem decode_encode (t : CapabilityToken) (rest : Bytes) (fits : t.pathPattern.length < 2^16) :
    decode (t.encode ++ rest) = some t := by
  have shape : t.encode ++ rest = writeU32 t.tokenId ++ (writeU32 t.issuerId ++ (t.permissions :: (writeU32 t.expiryUs ++
      (writeU32 t.parentTokenId ++ (writeU16 (UInt16.ofNat t.pathPattern.length) ++ (t.pathPattern ++
        (t.signature.toList ++ rest))))))) := by
    simp [encode,signableBytes]
  have long : (t.encode ++ rest).length = fixedSize + t.pathPattern.length + signatureSize + rest.length := by
    simp only [encode,signatureSize,List.length_append,signableBytes_length,Vector.length_toList]
  have patLen : (UInt16.ofNat t.pathPattern.length).toNat = t.pathPattern.length := by
    rw [UInt16.toNat_ofNat',Nat.mod_eq_of_lt fits]
  have lenAt : readU16 ((t.encode ++ rest).drop 17) = UInt16.ofNat t.pathPattern.length := by
    rw [shape]
    exact readU16_write _ _
  have body : (t.encode ++ rest).drop fixedSize = t.pathPattern ++ (t.signature.toList ++ rest) := by
    rw [shape]
    rfl
  have tail : (t.encode ++ rest).drop (fixedSize + t.pathPattern.length) = t.signature.toList ++ rest := by
    rw [← List.drop_drop,body,List.drop_left]
  have tokenId : readU32 (t.encode ++ rest) = t.tokenId := by
    rw [shape]
    exact readU32_write _ _
  have issuerId : readU32 ((t.encode ++ rest).drop 4) = t.issuerId := by
    rw [shape]
    exact readU32_write _ _
  have permissions : byteAt (t.encode ++ rest) 8 = t.permissions := by
    rw [shape]
    rfl
  have expiryUs : readU32 ((t.encode ++ rest).drop 9) = t.expiryUs := by
    rw [shape]
    exact readU32_write _ _
  have parentTokenId : readU32 ((t.encode ++ rest).drop 13) = t.parentTokenId := by
    rw [shape]
    exact readU32_write _ _
  rw [decode,if_neg (by rw [long,fixedSize,signatureSize]; omega),lenAt,patLen,if_neg (by rw [long]; omega),body,tail,
    List.take_left,copyBytes_append,tokenId,issuerId,permissions,expiryUs,parentTokenId]

/-- The pattern length that a token would have at this place. -/
def patternLength (data : Bytes) : Nat := (readU16 (data.drop 17)).toNat

/-- What is read as a token is the bytes it signs, with its signature behind them. -/
theorem decode_eq_some {data : Bytes} {t : CapabilityToken} (decoded : decode data = some t) :
    fixedSize + patternLength data + signatureSize ≤ data.length ∧ t.issuerId = readU32 (data.drop 4) ∧
      t.signableBytes = data.take (fixedSize + patternLength data) ∧
      t.signature = copyBytes 64 (data.drop (fixedSize + patternLength data)) := by
  rw [decode] at decoded
  split at decoded
  · cases decoded
  · next long =>
    dsimp only at decoded
    split at decoded
    · cases decoded
    · next room =>
      cases decoded
      have pattern : ((data.drop fixedSize).take (readU16 (data.drop 17)).toNat).length =
          (readU16 (data.drop 17)).toNat := by
        rw [List.length_take,List.length_drop]
        omega
      have permissions : [byteAt data 8] = (data.drop 8).take 1 := by
        have inside : 8 < data.length := by omega
        rw [List.drop_eq_getElem_cons inside,List.take_succ_cons,List.take_zero,byteAt,List.getD_eq_getElem?_getD,
          List.getElem?_eq_getElem inside,Option.getD_some]
      refine ⟨Nat.not_lt.mp room,rfl,?_,rfl⟩
      simp only [signableBytes]
      rw [pattern,UInt16.ofNat_toNat,permissions,writeU32_read (by omega)]
      repeat rw [writeU32_read (by rw [List.length_drop]; omega)]
      rw [writeU16_read (by rw [List.length_drop]; omega)]
      simp only [← List.take_add]
      exact List.take_add.symm

theorem decode_isSome {data : Bytes} (room : fixedSize + patternLength data + signatureSize ≤ data.length) :
    ∃ t, decode data = some t := by
  have long : ¬ data.length < 83 := by
    rw [fixedSize,signatureSize] at room
    omega
  rw [decode,if_neg long]
  exact ⟨_,if_neg (Nat.not_lt.mpr room)⟩

end CapabilityToken

structure CapabilityStore where
  keys : KeyPair
  nodeId : UInt32
  nextTokenId : UInt32 := 1
  tokens : ExtTreeMap UInt32 CapabilityToken := ∅
  peerKeys : ExtTreeMap UInt32 PublicKey := ∅

namespace CapabilityStore

/-- The node's own key is registered from the start. -/
def new (keys : KeyPair) (nodeId : UInt32) : CapabilityStore :=
  { keys := keys, nodeId := nodeId, peerKeys := (∅ : ExtTreeMap UInt32 PublicKey).insert nodeId keys.publicKey }

/-- The token with its signature, taken over its other fields. -/
def signed (P : Primitives) (s : CapabilityStore) (t : CapabilityToken) : CapabilityToken :=
  { t with signature := P.sign s.keys.secretKey t.signableBytes }

/-- The next token of the node, which it keeps. -/
def mint (P : Primitives) (s : CapabilityStore) (pathPattern : Bytes) (permissions : UInt8)
    (expiryUs parentTokenId : UInt32) : CapabilityToken × CapabilityStore :=
  let token := s.signed P
    { tokenId := s.nextTokenId
      issuerId := s.nodeId
      permissions := permissions
      pathPattern := pathPattern
      expiryUs := expiryUs
      parentTokenId := parentTokenId
      signature := CapabilityToken.invalid.signature }
  (token,{ s with nextTokenId := s.nextTokenId + 1, tokens := s.tokens.insert token.tokenId token })

def issue (P : Primitives) (s : CapabilityStore) (pathPattern : Bytes) (permissions : UInt8) (expiryUs : UInt32) :
    CapabilityToken × CapabilityStore :=
  s.mint P pathPattern permissions expiryUs 0

/-- A token derived from another; the invalid token when it is refused. -/
def attenuate (P : Primitives) (s : CapabilityStore) (parent : CapabilityToken) (narrowerPath : Bytes)
    (reducedPermissions : UInt8) (expiryUs : UInt32) : CapabilityToken × CapabilityStore :=
  if reducedPermissions &&& ~~~parent.permissions ≠ 0 then (.invalid,s)
  else if parent.expiryUs ≠ 0 ∧ (expiryUs = 0 ∨ expiryUs > parent.expiryUs) then (.invalid,s)
  else
    let parentPattern : StatePath := ⟨parent.pathPattern⟩
    let childPattern : StatePath := ⟨narrowerPath⟩
    -- a pattern that does not match is refused only when its segments are of another number
    if (!childPattern.matchesPattern parentPattern && narrowerPath != parent.pathPattern) &&
        parentPattern.segments.length != childPattern.segments.length then (.invalid,s)
    else s.mint P narrowerPath reducedPermissions expiryUs parent.tokenId

def verifyToken (P : Primitives) (token : CapabilityToken) (issuerPk : PublicKey) : Bool :=
  P.verify issuerPk token.signature token.signableBytes

def store (s : CapabilityStore) (token : CapabilityToken) : CapabilityStore :=
  { s with tokens := s.tokens.insert token.tokenId token }

/-- The store without the token, and whether there was one. -/
def revoke (s : CapabilityStore) (tokenId : UInt32) : CapabilityStore × Bool :=
  ({ s with tokens := s.tokens.erase tokenId },s.tokens.contains tokenId)

/-- A token that lets the path through. The source walks a hash map; callers ask
    only whether there is one. -/
def findCapability (s : CapabilityStore) (path : StatePath) (perm : CapabilityPermission) (nowUs : UInt32) :
    Option CapabilityToken :=
  (s.tokens.toList.map Prod.snd).find? (fun t => t.qualifies path perm nowUs)

def count (s : CapabilityStore) : Nat := s.tokens.size

/-- The store without expired tokens, and their number. -/
def gc (s : CapabilityStore) (nowUs : UInt32) : CapabilityStore × Nat :=
  let kept := s.tokens.filter (fun _ t => !t.isExpired nowUs)
  ({ s with tokens := kept },s.tokens.size - kept.size)

def registerPeerKey (s : CapabilityStore) (nodeId : UInt32) (pk : PublicKey) : CapabilityStore :=
  { s with peerKeys := s.peerKeys.insert nodeId pk }

def peerKey (s : CapabilityStore) (nodeId : UInt32) : Option PublicKey := s.peerKeys[nodeId]?

/-- The token of a received grant, if it verifies under the registered key of its
    issuer. -/
def acceptGrant (P : Primitives) (s : CapabilityStore) (payload : Bytes) : Option CapabilityToken :=
  match CapabilityToken.decode payload with
  | none => none
  | some token =>
    match s.peerKey token.issuerId with
    | none => none
    | some issuerPk => if verifyToken P token issuerPk then some token else none

theorem acceptGrant_eq_some {P : Primitives} {s : CapabilityStore} {payload : Bytes} {t : CapabilityToken} :
    s.acceptGrant P payload = some t ↔ CapabilityToken.decode payload = some t ∧
      ∃ issuerPk, s.peerKey t.issuerId = some issuerPk ∧ verifyToken P t issuerPk = true := by
  rw [acceptGrant]
  cases CapabilityToken.decode payload with
  | none => simp
  | some token =>
    cases key : s.peerKey token.issuerId with
    | none =>
      simp only [key,reduceCtorEq,Option.some.injEq,false_iff,not_and]
      rintro rfl ⟨issuerPk,known,_⟩
      rw [key] at known
      cases known
    | some issuerPk =>
      simp only [key,Option.ite_none_right_eq_some,Option.some.injEq]
      constructor
      · rintro ⟨valid,rfl⟩
        exact ⟨rfl,issuerPk,key,valid⟩
      · rintro ⟨rfl,pk,known,valid⟩
        rw [key] at known
        cases known
        exact ⟨valid,rfl⟩

/-- Attenuation is refused or mints a token. -/
theorem attenuate_cases (P : Primitives) (s : CapabilityStore) (parent : CapabilityToken) (narrowerPath : Bytes)
    (reducedPermissions : UInt8) (expiryUs : UInt32) :
    s.attenuate P parent narrowerPath reducedPermissions expiryUs = (.invalid,s) ∨
      s.attenuate P parent narrowerPath reducedPermissions expiryUs =
        s.mint P narrowerPath reducedPermissions expiryUs parent.tokenId := by
  rw [attenuate]
  split
  · exact .inl rfl
  · split
    · exact .inl rfl
    · dsimp only
      split
      · exact .inl rfl
      · exact .inr rfl

/-- Which bytes are accepted as a grant. -/
theorem acceptGrant_isSome_iff {P : Primitives} {s : CapabilityStore} {payload : Bytes} :
    (s.acceptGrant P payload).isSome = true ↔
      CapabilityToken.fixedSize + CapabilityToken.patternLength payload + CapabilityToken.signatureSize ≤ payload.length ∧
      ∃ pk, s.peerKey (readU32 (payload.drop 4)) = some pk ∧
        P.verify pk (copyBytes 64 (payload.drop (CapabilityToken.fixedSize + CapabilityToken.patternLength payload)))
          (payload.take (CapabilityToken.fixedSize + CapabilityToken.patternLength payload)) = true := by
  constructor
  · intro accepted
    obtain ⟨t,accepted⟩ := Option.isSome_iff_exists.mp accepted
    obtain ⟨decoded,pk,known,valid⟩ := acceptGrant_eq_some.mp accepted
    obtain ⟨room,issuer,signs,signature⟩ := CapabilityToken.decode_eq_some decoded
    rw [verifyToken,signs,signature] at valid
    exact ⟨room,pk,issuer ▸ known,valid⟩
  · rintro ⟨room,pk,known,valid⟩
    obtain ⟨t,decoded⟩ := CapabilityToken.decode_isSome room
    obtain ⟨_,issuer,signs,signature⟩ := CapabilityToken.decode_eq_some decoded
    refine Option.isSome_iff_exists.mpr ⟨t,acceptGrant_eq_some.mpr ⟨decoded,pk,issuer ▸ known,?_⟩⟩
    rw [verifyToken,signs,signature]
    exact valid

theorem findCapability_isSome_iff (s : CapabilityStore) (path : StatePath) (perm : CapabilityPermission) (nowUs : UInt32) :
    (s.findCapability path perm nowUs).isSome = true ↔
      ∃ (id : UInt32) (t : CapabilityToken), s.tokens[id]? = some t ∧ t.qualifies path perm nowUs = true := by
  rw [findCapability,List.find?_isSome]
  constructor
  · rintro ⟨t,listed,ok⟩
    obtain ⟨⟨id,t⟩,entry,rfl⟩ := List.mem_map.mp listed
    exact ⟨id,t,ExtTreeMap.mem_toList_iff_getElem?_eq_some.mp entry,ok⟩
  · rintro ⟨id,t,found,ok⟩
    exact ⟨t,List.mem_map.mpr ⟨(id,t),ExtTreeMap.mem_toList_iff_getElem?_eq_some.mpr found,rfl⟩,ok⟩

end CapabilityStore
end Rom
