import Rom.PeerSend

/-!
Signed bytes that arrive as something else. The frame type is not signed, so the
bytes of a delta may come as a snapshot or a grant and those of a token as a delta
or a snapshot; they should never be accepted there. For some node ids they are
(`delta_accepted_as_snapshot`). `apart_iff` says when: the field that is then read
as the author or issuer must have the signer's own key registered, and what the
bytes are then about must be there.
-/
namespace Rom.Confusion
open Peer

/-- The frame passes its signature check, and its merge or store is reached. -/
def accepted (P : Primitives) (q : Peer) (nowUs : UInt32) (frame : Frame) : Bool :=
  match q.frameAction P nowUs frame with
  | .applyDelta pathHash _ | .applySnapshot pathHash _ => (q.state.get pathHash).isSome
  | .storeToken _ => true
  | _ => false

/-- Neither the bytes of the delta nor those of the token are accepted as another
    kind. -/
def Apart (P : Primitives) (q : Peer) (nowUs : UInt32) (delta token : Bytes) : Prop :=
  accepted P q nowUs ⟨.stateSnapshot,delta⟩ = false ∧ accepted P q nowUs ⟨.capabilityGrant,delta⟩ = false ∧
  accepted P q nowUs ⟨.stateDelta,token⟩ = false ∧ accepted P q nowUs ⟨.stateSnapshot,token⟩ = false

/-- The store has issued the token, or derived it from another. -/
def Minted (P : Primitives) (s : CapabilityStore) (t : CapabilityToken) : Prop :=
  (∃ pathPattern permissions expiryUs, t = (s.issue P pathPattern permissions expiryUs).1) ∨
  ∃ parent narrowerPath reducedPermissions expiryUs,
    t = (s.attenuate P parent narrowerPath reducedPermissions expiryUs).1 ∧ t.tokenId ≠ 0

/-! ### When they are -/

/-- The region is declared, and the node id made of the reliability and the upper
    half of the author has the author's key. -/
def DeltaAsSnapshot (p : Peer) (d : PendingDelta) (q : Peer) : Prop :=
  (q.state.get d.pathHash).isSome = true ∧
    q.peerKeys[UInt16.ofNat (d.reliability.toByte.toNat * 256 + p.nodeId.toNat / 256)]? = some p.keys.publicKey

/-- The id made of type, reliability and author has a key, and bytes 9 and 10 of the
    data say a pattern length with which the token ends where the delta does, the key
    being the author's, or earlier, at a signature of the bytes before it. -/
def DeltaAsGrant (P : Primitives) (p : Peer) (d : PendingDelta) (q : Peer) : Prop :=
  let patLen := (readU16 (d.data.drop 9)).toNat
  let signed := CapabilityToken.fixedSize + patLen
  let payload := p.buildSignedDelta P d
  ∃ pk, q.capStore.peerKey
      (UInt32.ofNat ((d.crdtType.toByte.toNat * 256 + d.reliability.toByte.toNat) * 65536 + p.nodeId.toNat)) = some pk ∧
    (patLen + 11 = d.data.length ∧ pk = p.keys.publicKey ∨
      patLen + 11 < d.data.length ∧ P.verify pk (copyBytes 64 (payload.drop signed)) (payload.take signed) = true)

/-- The token id is the hash of a declared region that access control lets through,
    and the lower half of the issuer id has the issuer's key. -/
def TokenAsDelta (s : CapabilityStore) (t : CapabilityToken) (q : Peer) (nowUs : UInt32) : Prop :=
  (q.state.get t.tokenId).isSome = true ∧ q.peerKeys[UInt16.ofNat t.issuerId.toNat]? = some s.keys.publicKey ∧
    q.refuses t.tokenId nowUs = false

/-- The token id is the hash of a declared region, and the two middle bytes of the
    issuer id have the issuer's key. -/
def TokenAsSnapshot (s : CapabilityStore) (t : CapabilityToken) (q : Peer) : Prop :=
  (q.state.get t.tokenId).isSome = true ∧ q.peerKeys[UInt16.ofNat (t.issuerId.toNat / 256)]? = some s.keys.publicKey

section
variable {P : Primitives} {q : Peer} {nowUs : UInt32} {payload : Bytes}

theorem accepted_snapshot_iff :
    accepted P q nowUs ⟨.stateSnapshot,payload⟩ = true ↔ (q.state.get (readU32 payload)).isSome = true ∧
      q.verifyFrameSignature P payload (readU16 (payload.drop 5)) StateSnapshotFrame.baseWireSize = true := by
  have action : q.frameAction P nowUs ⟨.stateSnapshot,payload⟩ = q.snapshotAction P payload := rfl
  rw [accepted,action]
  constructor
  · intro taken
    rcases snapshotAction_range P q payload with ⟨pathHash,data,applied⟩ | ignored
    · obtain ⟨rfl,_,verified⟩ := snapshotAction_apply_iff.mp applied
      rw [applied] at taken
      exact ⟨taken,verified⟩
    · rw [ignored] at taken
      cases taken
  · rintro ⟨declared,verified⟩
    rw [snapshotAction_apply_iff.mpr ⟨rfl,rfl,verified⟩]
    exact declared

theorem accepted_delta_iff :
    accepted P q nowUs ⟨.stateDelta,payload⟩ = true ↔ (q.state.get (readU32 payload)).isSome = true ∧
      q.verifyFrameSignature P payload (readU16 (payload.drop 6)) StateDeltaFrame.baseWireSize = true ∧
      q.refuses (readU32 payload) nowUs = false := by
  have action : q.frameAction P nowUs ⟨.stateDelta,payload⟩ = q.deltaAction P nowUs payload := rfl
  rw [accepted,action]
  constructor
  · intro taken
    rcases deltaAction_range P q nowUs payload with ⟨pathHash,data,applied⟩ | ⟨_,_,failed⟩ | ignored
    · obtain ⟨rfl,_,verified,passes⟩ := deltaAction_apply_iff.mp applied
      rw [applied] at taken
      exact ⟨taken,verified,passes⟩
    · rw [failed] at taken
      cases taken
    · rw [ignored] at taken
      cases taken
  · rintro ⟨declared,verified,passes⟩
    rw [deltaAction_apply_iff.mpr ⟨rfl,rfl,verified,passes⟩]
    exact declared

theorem accepted_grant_iff :
    accepted P q nowUs ⟨.capabilityGrant,payload⟩ = true ↔ (q.capStore.acceptGrant P payload).isSome = true := by
  rw [accepted,frameAction]
  cases q.capStore.acceptGrant P payload with
  | none => simp
  | some token => simp

/-- Signed bytes pass the check of a frame exactly under the signer's key. -/
theorem verifyFrameSignature_signed {keys : KeyPair} (genuine : P.Genuine keys) (m : Bytes) (author : UInt16) {base : Nat}
    (long : base ≤ m.length) :
    q.verifyFrameSignature P (m ++ (P.sign keys.secretKey m).toList) author base = true ↔
      q.peerKeys[author]? = some keys.publicKey := by
  rw [verifyFrameSignature_iff,content_signed,trailer_signed,List.length_append,Vector.length_toList,signatureSize]
  constructor
  · rintro ⟨_,pk,known,valid⟩
    rw [known,(genuine m pk).mp valid]
  · intro known
    exact ⟨by omega,_,known,(genuine m _).mpr rfl⟩

section
variable {p : Peer} {d : PendingDelta}

theorem delta_as_snapshot_iff (genuine : P.Genuine p.keys) :
    accepted P q nowUs ⟨.stateSnapshot,p.buildSignedDelta P d⟩ = true ↔ DeltaAsSnapshot p d q := by
  have hash : readU32 (p.buildSignedDelta P d) = d.pathHash := readU32_write _ _
  have author : readU16 ((p.buildSignedDelta P d).drop 5) =
      UInt16.ofNat (d.reliability.toByte.toNat * 256 + p.nodeId.toNat / 256) := by
    show UInt16.ofNat (d.reliability.toByte.toNat * 256 + (UInt8.ofNat (p.nodeId.toNat / 256)).toNat) = _
    have bound := p.nodeId.toNat_lt
    rw [UInt8.toNat_ofNat',Nat.mod_eq_of_lt (by omega)]
  have long : StateSnapshotFrame.baseWireSize ≤ (p.deltaContent d).length := by
    rw [deltaContent,List.length_append,StateDeltaFrame.encode_length,StateSnapshotFrame.baseWireSize,
      StateDeltaFrame.baseWireSize]
    omega
  rw [accepted_snapshot_iff,hash,author,buildSignedDelta,verifyFrameSignature_signed genuine _ _ long,DeltaAsSnapshot]

/-- Read as a token, a delta has the length of its pattern in its data. -/
theorem patternLength_delta (long : 11 ≤ d.data.length) :
    CapabilityToken.patternLength (p.buildSignedDelta P d) = (readU16 (d.data.drop 9)).toNat := by
  have place : (p.buildSignedDelta P d).drop 17 =
      d.data.drop 9 ++ (P.sign p.keys.secretKey (p.deltaContent d)).toList := by
    rw [← List.drop_append_of_le_length (by omega)]
    rfl
  have inside : 2 ≤ (d.data.drop 9).length := by
    rw [List.length_drop]
    omega
  rw [CapabilityToken.patternLength,place,← readU16_take _ inside,List.take_left]

/-- A token that ends where the delta does has the signature of the delta. -/
theorem verify_whole (genuine : P.Genuine p.keys) {patLen : Nat} (whole : patLen + 11 = d.data.length) (pk : PublicKey) :
    P.verify pk (copyBytes 64 ((p.buildSignedDelta P d).drop (19 + patLen)))
      ((p.buildSignedDelta P d).take (19 + patLen)) = true ↔ pk = p.keys.publicKey := by
  have content : (p.deltaContent d).length = 19 + patLen := by
    rw [deltaContent,List.length_append,StateDeltaFrame.encode_length,StateDeltaFrame.baseWireSize]
    omega
  have copied : copyBytes 64 (P.sign p.keys.secretKey (p.deltaContent d)).toList =
      P.sign p.keys.secretKey (p.deltaContent d) := by
    simpa using copyBytes_append (P.sign p.keys.secretKey (p.deltaContent d)) []
  rw [buildSignedDelta,← content,List.drop_left,List.take_left,copied]
  exact genuine _ pk

theorem delta_as_grant_iff (genuine : P.Genuine p.keys) :
    accepted P q nowUs ⟨.capabilityGrant,p.buildSignedDelta P d⟩ = true ↔ DeltaAsGrant P p d q := by
  have issuer : readU32 ((p.buildSignedDelta P d).drop 4) =
      UInt32.ofNat ((d.crdtType.toByte.toNat * 256 + d.reliability.toByte.toNat) * 65536 + p.nodeId.toNat) := by
    show UInt32.ofNat (((d.crdtType.toByte.toNat * 256 + d.reliability.toByte.toNat) * 256 +
      (UInt8.ofNat (p.nodeId.toNat / 256)).toNat) * 256 + (UInt8.ofNat p.nodeId.toNat).toNat) = _
    have bound := p.nodeId.toNat_lt
    rw [UInt8.toNat_ofNat',UInt8.toNat_ofNat']
    apply congrArg UInt32.ofNat
    omega
  have size : (p.buildSignedDelta P d).length = 72 + d.data.length := PeerSend.buildSignedDelta_length
  rw [accepted_grant_iff,CapabilityStore.acceptGrant_isSome_iff,issuer,DeltaAsGrant,size,CapabilityToken.fixedSize,
    CapabilityToken.signatureSize]
  by_cases short : d.data.length < 11
  · constructor
    · rintro ⟨room,_⟩
      omega
    · rintro ⟨_,_,⟨ends,_⟩ | ⟨ends,_⟩⟩ <;> omega
  · rw [patternLength_delta (Nat.not_lt.mp short)]
    generalize (readU16 (d.data.drop 9)).toNat = patLen
    constructor
    · rintro ⟨room,pk,known,valid⟩
      by_cases whole : patLen + 11 = d.data.length
      · exact ⟨pk,known,.inl ⟨whole,(verify_whole genuine whole pk).mp valid⟩⟩
      · exact ⟨pk,known,.inr ⟨by omega,valid⟩⟩
    · rintro ⟨pk,known,⟨whole,own⟩ | ⟨earlier,valid⟩⟩
      · exact ⟨by omega,pk,known,(verify_whole genuine whole pk).mpr own⟩
      · exact ⟨by omega,pk,known,valid⟩

end

section
variable {s : CapabilityStore} {t : CapabilityToken}

/-- A minted token carries the signature of its store. -/
theorem Minted.signature (minted : Minted P s t) : t.signature = P.sign s.keys.secretKey t.signableBytes := by
  rcases minted with ⟨_,_,_,rfl⟩ | ⟨parent,path,permissions,expiry,rfl,valid⟩
  · rfl
  · rcases CapabilityStore.attenuate_cases P s parent path permissions expiry with refused | made
    · rw [refused] at valid
      exact absurd rfl valid
    · rw [made]
      rfl

theorem Minted.encode (minted : Minted P s t) :
    t.encode = t.signableBytes ++ (P.sign s.keys.secretKey t.signableBytes).toList := by
  rw [CapabilityToken.encode,minted.signature]

theorem readU32_token (t : CapabilityToken) : readU32 t.encode = t.tokenId := by
  simp only [CapabilityToken.encode,CapabilityToken.signableBytes,List.append_assoc,readU32_write]

theorem token_as_delta_iff (genuine : P.Genuine s.keys) (minted : Minted P s t) :
    accepted P q nowUs ⟨.stateDelta,t.encode⟩ = true ↔ TokenAsDelta s t q nowUs := by
  have author : readU16 (t.encode.drop 6) = UInt16.ofNat t.issuerId.toNat := by
    show UInt16.ofNat ((UInt8.ofNat (t.issuerId.toNat / 2^8)).toNat * 256 + (UInt8.ofNat t.issuerId.toNat).toNat) = _
    rw [UInt8.toNat_ofNat',UInt8.toNat_ofNat',← UInt16.toNat_inj,UInt16.toNat_ofNat',UInt16.toNat_ofNat']
    omega
  have long : StateDeltaFrame.baseWireSize ≤ t.signableBytes.length := by
    rw [CapabilityToken.signableBytes_length,CapabilityToken.fixedSize,StateDeltaFrame.baseWireSize]
    omega
  rw [accepted_delta_iff,readU32_token,author,minted.encode,verifyFrameSignature_signed genuine _ _ long,TokenAsDelta]

theorem token_as_snapshot_iff (genuine : P.Genuine s.keys) (minted : Minted P s t) :
    accepted P q nowUs ⟨.stateSnapshot,t.encode⟩ = true ↔ TokenAsSnapshot s t q := by
  have author : readU16 (t.encode.drop 5) = UInt16.ofNat (t.issuerId.toNat / 256) := by
    show UInt16.ofNat ((UInt8.ofNat (t.issuerId.toNat / 2^16)).toNat * 256 +
      (UInt8.ofNat (t.issuerId.toNat / 2^8)).toNat) = _
    rw [UInt8.toNat_ofNat',UInt8.toNat_ofNat',← UInt16.toNat_inj,UInt16.toNat_ofNat',UInt16.toNat_ofNat']
    omega
  have long : StateSnapshotFrame.baseWireSize ≤ t.signableBytes.length := by
    rw [CapabilityToken.signableBytes_length,CapabilityToken.fixedSize,StateSnapshotFrame.baseWireSize]
    omega
  rw [accepted_snapshot_iff,readU32_token,author,minted.encode,verifyFrameSignature_signed genuine _ _ long,
    TokenAsSnapshot]

end
end

/-- When signed bytes are not accepted as another kind. -/
theorem apart_iff (P : Primitives) (p : Peer) (d : PendingDelta) (s : CapabilityStore) (t : CapabilityToken) (q : Peer)
    (nowUs : UInt32) (author : P.Genuine p.keys) (issuer : P.Genuine s.keys) (minted : Minted P s t) :
    Apart P q nowUs (p.buildSignedDelta P d) t.encode ↔
      ¬ DeltaAsSnapshot p d q ∧ ¬ DeltaAsGrant P p d q ∧ ¬ TokenAsDelta s t q nowUs ∧ ¬ TokenAsSnapshot s t q := by
  have refused {b : Bool} {C : Prop} (same : b = true ↔ C) : b = false ↔ ¬ C := by rw [← same,Bool.not_eq_true]
  exact and_congr (refused (delta_as_snapshot_iff author)) (and_congr (refused (delta_as_grant_iff author))
    (and_congr (refused (token_as_delta_iff issuer minted)) (refused (token_as_snapshot_iff issuer minted))))

/-- A node of the given id that writes the register at `/a`. -/
def writer (nodeId : UInt16) : Peer := .new nodeId (plainKeys 1)

/-- Its reliable delta, with the value `[7]` of time 5. -/
def written (nodeId : UInt16) : PendingDelta :=
  ⟨plain.xxhash32 (ofText "/a"),.lwwRegister,.reliable,((LwwRegister.new nodeId).set [7] 5).delta.1⟩

/-- Its first token. -/
def granted (nodeId : UInt16) : CapabilityToken := ((writer nodeId).capStore.issue plain (ofText "/a") 3 0).1

/-- A node with the same register that knows its key. -/
def reader (nodeId : UInt16) : Peer :=
  (((Peer.new 1 (plainKeys 9)).registerPeerKey nodeId (plainKeys 1).publicKey).declare plain ⟨ofText "/a"⟩ .lwwRegister
    .reliable).1

theorem apart_node_three :
    Apart plain (reader 3) 0 ((writer 3).buildSignedDelta plain (written 3)) (granted 3).encode := by
  have unknown : (reader 3).capStore.peerKey (UInt32.ofNat ((1 * 256 + 2) * 65536 + 3)) = none := by decide +kernel
  refine (apart_iff plain (writer 3) (written 3) (writer 3).capStore (granted 3) (reader 3) 0 (plain_genuine 1)
    (plain_genuine 1) (.inl ⟨_,_,_,rfl⟩)).mpr ⟨?_,?_,?_,?_⟩
  · rintro ⟨_,known⟩
    exact absurd known (by decide +kernel)
  · rintro ⟨_,known,_⟩
    cases unknown.symm.trans known
  · rintro ⟨declared,_⟩
    exact absurd declared (by decide +kernel)
  · rintro ⟨declared,_⟩
    exact absurd declared (by decide +kernel)

/-- In a reliable delta of node 514, which is 2 and 2 in bytes, the reliability 2
    and the upper half of the id are the id of the node again. -/
theorem delta_accepted_as_snapshot :
    ¬ Apart plain (reader 514) 0 ((writer 514).buildSignedDelta plain (written 514)) (granted 514).encode := by
  rintro ⟨refused,_⟩
  revert refused
  decide +kernel

end Rom.Confusion
