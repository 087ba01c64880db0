import Rom.Peer
import Rom.Absorption

/-!
What the frames of a received packet may do to a node. Whatever changes a region
is signed by a registered author, and whatever enters the capability store by a
registered issuer (`only_authenticated`). Access control should stand before
every change of a region, but a snapshot goes around it (`snapshot_unguarded`);
`guarded_iff` says for which packets it holds. A revocation should act for the
issuer it names only, but takes away any token of that id (`revokes_other_issuer`);
`revokes_named_iff` says for which packets it does not.
-/
namespace Rom.PeerFrames
open Std Rom.Runs Peer
open Rom.Absorption (Absorbed merge_unchanged_iff)

/-! ### Authentic data -/

/-- The payload is content and a signature of it by the registered key of the
    author; the hash, the author and the data all stand in the content. A delta
    has 8 bytes in front of its data and a snapshot 7, of which the last two are
    the author. -/
def SignedRange (P : Primitives) (p : Peer) (payload : Bytes) (pathHash : UInt32) (data : Bytes) : Prop :=
  ∃ (content : Bytes) (signature : Signature) (author : UInt16) (pk : PublicKey) (base : Nat),
    payload = content ++ signature.toList ∧ (base = 8 ∨ base = 7) ∧ base ≤ content.length ∧
      pathHash = readU32 content ∧ author = readU16 (content.drop (base - 2)) ∧ data = content.drop base ∧
      p.peerKeys[author]? = some pk ∧ P.verify pk signature content = true

/-- A step changes a region only by merging a signed range, and adds only tokens
    that verify under the registered key of their issuer. -/
def OnlyAuthenticated (P : Primitives) (mc : ManagedConnection) (st : Progress) (a : Arrival) : Prop :=
  (∀ hash : UInt32,
    (frameStep P mc st a).peer.state.regions[hash]? = st.peer.state.regions[hash]? ∨
      ∃ (region : StateRegion) (data : Bytes), st.peer.state.regions[hash]? = some region ∧
        SignedRange P st.peer a.frame.payload hash data ∧
        (frameStep P mc st a).peer.state.regions[hash]? = some { region with crdt := (region.crdt.merge data).1 }) ∧
  ∀ (id : UInt32) (t : CapabilityToken), (frameStep P mc st a).peer.capStore.tokens[id]? = some t →
    st.peer.capStore.tokens[id]? = some t ∨
      ∃ pk, st.peer.capStore.peerKey t.issuerId = some pk ∧ P.verify pk t.signature t.signableBytes = true

theorem signedRange_of_verified {P : Primitives} {p : Peer} {payload : Bytes} {base : Nat} (kind : base = 8 ∨ base = 7)
    (verified : p.verifyFrameSignature P payload (readU16 (payload.drop (base - 2))) base = true) :
    SignedRange P p payload (readU32 payload) (body payload base) := by
  obtain ⟨long,pk,known,valid⟩ := verifyFrameSignature_iff.mp verified
  have enough : base ≤ (content payload).length := by
    rw [content_length]
    omega
  have shape : content payload ++ (trailer payload).toList = payload := content_append_trailer (by omega)
  refine ⟨content payload,trailer payload,_,pk,base,shape.symm,kind,enough,?_,?_,body_eq _ _,known,valid⟩
  · rw [content,readU32_take]
    rw [content_length] at enough
    omega
  · rw [content,List.drop_take,readU16_take]
    rw [content_length] at enough
    omega

/-- What reaches the registry is a signed range. -/
theorem reached_signed {P : Primitives} {p : Peer} {nowUs : UInt32} {frame : Frame} {pathHash : UInt32} {data : Bytes}
    (reached : Reaches P p nowUs frame (.applyDelta pathHash data) ∨
      Reaches P p nowUs frame (.applySnapshot pathHash data)) :
    SignedRange P p frame.payload pathHash data := by
  rcases reached with ⟨_,delta⟩ | ⟨_,snapshot⟩
  · obtain ⟨rfl,rfl,verified,_⟩ := deltaAction_apply_iff.mp delta
    exact signedRange_of_verified (.inl rfl) verified
  · obtain ⟨rfl,rfl,verified⟩ := snapshotAction_apply_iff.mp snapshot
    exact signedRange_of_verified (.inr rfl) verified

theorem regions_authenticated (P : Primitives) (mc : ManagedConnection) (st : Progress) (a : Arrival) (hash : UInt32) :
    (frameStep P mc st a).peer.state.regions[hash]? = st.peer.state.regions[hash]? ∨
      ∃ (region : StateRegion) (data : Bytes), st.peer.state.regions[hash]? = some region ∧
        SignedRange P st.peer a.frame.payload hash data ∧
        (frameStep P mc st a).peer.state.regions[hash]? = some { region with crdt := (region.crdt.merge data).1 } := by
  rcases region_step P mc st a hash with same | ⟨region,data,found,action,after⟩
  · exact .inl same
  · have signed := reached_signed (action.imp frameAction_eq_reaches frameAction_eq_reaches)
    exact .inr ⟨region,data,found,signed,after⟩

theorem tokens_authenticated (P : Primitives) (mc : ManagedConnection) (st : Progress) (a : Arrival) (id : UInt32)
    (t : CapabilityToken) (found : (frameStep P mc st a).peer.capStore.tokens[id]? = some t) :
    st.peer.capStore.tokens[id]? = some t ∨
      ∃ pk, st.peer.capStore.peerKey t.issuerId = some pk ∧ P.verify pk t.signature t.signableBytes = true := by
  rw [frameStep_tokens] at found
  cases action : arrivalAction P mc st a with
  | storeToken token =>
    simp only [action,ExtTreeMap.getElem?_insert,LawfulEqCmp.compare_eq_iff_eq] at found
    split at found
    · cases found
      obtain ⟨_,accepted⟩ := frameAction_eq_reaches action
      exact .inr (CapabilityStore.acceptGrant_eq_some.mp accepted).2
    · exact .inl found
  | revokeToken tokenId =>
    simp only [action,ExtTreeMap.getElem?_erase] at found
    split at found
    · cases found
    · exact .inl found
  | _ =>
    simp only [action] at found
    exact .inl found

/-- Whatever a packet does to regions and tokens is authenticated. -/
theorem only_authenticated (P : Primitives) (p : Peer) (mc : ManagedConnection) (clock : Nat → Nat) (d : PacketDecoder) :
    Along (frameStep P mc) (OnlyAuthenticated P mc) ⟨p,0⟩ (arrivals d clock) :=
  along_of_forall (I := fun _ => True) (fun _ _ _ => trivial)
    (fun st a _ => ⟨regions_authenticated P mc st a,tokens_authenticated P mc st a⟩) trivial

/-! ### Access control -/

/-- Where access control is on, a region changes only while the store holds a
    token to write it. -/
def Guarded (P : Primitives) (mc : ManagedConnection) (st : Progress) (a : Arrival) : Prop :=
  st.peer.accessControl = true → ∀ (hash : UInt32) (before after : StateRegion),
    st.peer.state.regions[hash]? = some before → (frameStep P mc st a).peer.state.regions[hash]? = some after →
      after.crdt ≠ before.crdt →
        (st.peer.capStore.findCapability before.path .write (mc.conn.elapsedUs a.now)).isSome = true

/-- Where access control is on, a snapshot that brings something new to its region
    comes while the store holds a token to write it. -/
def SnapshotGuarded (P : Primitives) (mc : ManagedConnection) (st : Progress) (a : Arrival) : Prop :=
  st.peer.accessControl = true → ∀ (pathHash : UInt32) (data : Bytes) (region : StateRegion),
    arrivalAction P mc st a = .applySnapshot pathHash data → st.peer.state.regions[pathHash]? = some region →
      ¬ Absorbed region.crdt data →
        (st.peer.capStore.findCapability region.path .write (mc.conn.elapsedUs a.now)).isSome = true

/-- A delta that reaches its region has passed access control. -/
theorem delta_guarded {P : Primitives} {p : Peer} {nowUs : UInt32} {frame : Frame} {pathHash : UInt32} {data : Bytes}
    {region : StateRegion} (enabled : p.accessControl = true) (found : p.state.regions[pathHash]? = some region)
    (reached : Reaches P p nowUs frame (.applyDelta pathHash data)) :
    (p.capStore.findCapability region.path .write nowUs).isSome = true := by
  obtain ⟨_,_,_,passed⟩ := deltaAction_apply_iff.mp reached.2
  simp only [refuses,enabled,StateRegistry.get,found,Bool.true_and] at passed
  simpa using passed

/-- For which packets access control stands before every change. -/
theorem guarded_iff (P : Primitives) (p : Peer) (mc : ManagedConnection) (clock : Nat → Nat) (d : PacketDecoder) :
    Along (frameStep P mc) (Guarded P mc) ⟨p,0⟩ (arrivals d clock) ↔
      Along (frameStep P mc) (SnapshotGuarded P mc) ⟨p,0⟩ (arrivals d clock) := by
  refine along_congr (I := fun _ => True) (fun _ _ _ => trivial) (fun st a _ => ?_) trivial
  constructor
  · intro guarded enabled pathHash data region action found brings
    have after := frameStep_regions P mc st a pathHash
    simp only [action,if_true,found,Option.map_some] at after
    exact guarded enabled pathHash region _ found after (fun same => brings ((merge_unchanged_iff _ _).mp same))
  · intro guarded enabled hash before after found stepped changes
    rcases region_step P mc st a hash with same | ⟨region,data,here,action,merged⟩
    · rw [same,found] at stepped
      cases stepped
      exact absurd rfl changes
    · rw [found] at here
      cases here
      rw [merged] at stepped
      cases stepped
      rcases action with delta | snapshot
      · exact delta_guarded enabled found (frameAction_eq_reaches delta)
      · exact guarded enabled hash data before snapshot found
          (fun absorbed => changes ((merge_unchanged_iff _ _).mpr absorbed))

/-- A packet with one frame, as its decoder. -/
def onePacket (type : FrameType) (payload : Bytes) : PacketDecoder :=
  let enc := (({} : PacketEncoder).addFrame type payload (UInt16.ofNat payload.length)).getD {}
  (PacketDecoder.ofPacket (enc.finalize plain).1).getD {}

/-- Node 1 with access control on, a register at `/a` and the key of node 2, but
    no token. -/
def lockedNode : Peer :=
  (((Peer.new 1 (plainKeys 1)).setAccessControl true).registerPeerKey 2 (plainKeys 2).publicKey |>.declare plain
    ⟨ofText "/a"⟩ .lwwRegister .reliable).1

/-- A snapshot of `/a` by node 2: the value `[7]`, written at time 5. -/
def signedSnapshot : Bytes :=
  let content := (StateSnapshotFrame.mk (plain.xxhash32 (ofText "/a")) .lwwRegister 2).encode ++
    (LwwRegister.new 2 |>.set [7] 5).snapshot
  content ++ (plain.sign (plainKeys 2).secretKey content).toList

/-- A signed snapshot changes the register without a token. -/
theorem snapshot_unguarded :
    ¬ Along (frameStep plain plainLink) (Guarded plain plainLink) ⟨lockedNode,0⟩
      (arrivals (onePacket .stateSnapshot signedSnapshot) (fun _ => 0)) := by
  have one : arrivals (onePacket .stateSnapshot signedSnapshot) (fun _ => 0) =
      [⟨⟨.stateSnapshot,signedSnapshot⟩,0⟩] := by decide +kernel
  rw [one]
  rintro ⟨guarded,_⟩
  have before : (lockedNode.state.regions[plain.xxhash32 (ofText "/a")]?).map (fun r => (r.path,r.crdt.snapshot)) =
      some (⟨ofText "/a"⟩,(LwwRegister.new 1).snapshot) := by decide +kernel
  have after : ((frameStep plain plainLink ⟨lockedNode,0⟩
      ⟨⟨.stateSnapshot,signedSnapshot⟩,0⟩).peer.state.regions[plain.xxhash32 (ofText "/a")]?).map (·.crdt.snapshot) =
      some ((LwwRegister.new 2).set [7] 5).snapshot := by decide +kernel
  obtain ⟨region,found,here⟩ := Option.map_eq_some_iff.mp before
  obtain ⟨changed,stepped,there⟩ := Option.map_eq_some_iff.mp after
  obtain ⟨path,empty⟩ := Prod.mk.inj here
  have changes : changed.crdt ≠ region.crdt := by
    intro same
    rw [same,empty] at there
    exact absurd there (by decide)
  have allowed := guarded (by decide +kernel) _ region changed found stepped changes
  rw [path] at allowed
  exact absurd allowed (by decide +kernel)

/-! ### Revocation -/

/-- A revocation takes away a token only of the issuer it names. -/
def RevokesNamed (P : Primitives) (mc : ManagedConnection) (st : Progress) (a : Arrival) : Prop :=
  ∀ crf, a.frame.type = .capabilityRevoke → CapabilityRevokeFrame.decode a.frame.payload = some crf →
    ∀ (id : UInt32) (t : CapabilityToken), st.peer.capStore.tokens[id]? = some t →
      (frameStep P mc st a).peer.capStore.tokens[id]? ≠ some t → t.issuerId = UInt32.ofNat crf.issuerNodeId.toNat

/-- The token that a revocation finds under its id is of the issuer it names. -/
def NamesIssuer (st : Progress) (a : Arrival) : Prop :=
  ∀ crf, a.frame.type = .capabilityRevoke → CapabilityRevokeFrame.decode a.frame.payload = some crf →
    ∀ t ∈ st.peer.capStore.tokens[crf.tokenId]?, t.issuerId = UInt32.ofNat crf.issuerNodeId.toNat

theorem revoke_action (P : Primitives) (mc : ManagedConnection) (st : Progress) {a : Arrival} {crf : CapabilityRevokeFrame}
    (type : a.frame.type = .capabilityRevoke) (decoded : CapabilityRevokeFrame.decode a.frame.payload = some crf) :
    (frameStep P mc st a).peer.capStore.tokens = st.peer.capStore.tokens.erase crf.tokenId := by
  have action : arrivalAction P mc st a = .revokeToken crf.tokenId := by
    simp only [arrivalAction,frameAction,type,decoded]
  rw [frameStep_tokens,action]

/-- For which packets every revocation acts only for the issuer it names. -/
theorem revokes_named_iff (P : Primitives) (p : Peer) (mc : ManagedConnection) (clock : Nat → Nat) (d : PacketDecoder) :
    Along (frameStep P mc) (RevokesNamed P mc) ⟨p,0⟩ (arrivals d clock) ↔
      Along (frameStep P mc) NamesIssuer ⟨p,0⟩ (arrivals d clock) := by
  refine along_congr (I := fun _ => True) (fun _ _ _ => trivial) (fun st a _ => ?_) trivial
  constructor
  · intro named crf type decoded t found
    refine named crf type decoded crf.tokenId t found ?_
    rw [revoke_action P mc st type decoded]
    simp
  · intro names crf type decoded id t found gone
    rw [revoke_action P mc st type decoded] at gone
    simp only [ExtTreeMap.getElem?_erase,LawfulEqCmp.compare_eq_iff_eq] at gone
    by_cases own : crf.tokenId = id
    · subst own
      exact names crf type decoded t found
    · rw [if_neg own] at gone
      exact absurd found gone

/-- Node 1 has issued its first token; anyone's frame that names node 2 and the id
    of that token takes it away. -/
theorem revokes_other_issuer :
    ¬ Along (frameStep plain plainLink) (RevokesNamed plain plainLink)
      ⟨{ lockedNode with capStore := (lockedNode.capStore.issue plain (ofText "/a") 3 0).2 },0⟩
      (arrivals (onePacket .capabilityRevoke (CapabilityRevokeFrame.mk 1 2).encode) (fun _ => 0)) := by
  have one : arrivals (onePacket .capabilityRevoke (CapabilityRevokeFrame.mk 1 2).encode) (fun _ => 0) =
      [⟨⟨.capabilityRevoke,(CapabilityRevokeFrame.mk 1 2).encode⟩,0⟩] := by decide +kernel
  rw [one]
  rintro ⟨named,_⟩
  have issuer := named ⟨1,2⟩ rfl (by decide +kernel) 1 (lockedNode.capStore.issue plain (ofText "/a") 3 0).1
    (by decide +kernel) (by decide +kernel)
  revert issuer
  decide +kernel

end Rom.PeerFrames
