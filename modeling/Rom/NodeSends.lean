import Rom.NodeNetwork

/-!
What the calls of a node hand to its transport. Connection calls and answers to them
are packets of the handshake or control packets, from which nothing is merged
(`mute_call`, `mute_poll`). The packets of a flush carry collected deltas and nothing
else (`flush_sound`): a delta whose signed bytes are counted by 16 bits is in them as
a whole or not at all (`deltaFrame_whole`).
-/
namespace Rom.NodeNetwork
open Std Rom.Runs Peer Handshake
open Rom.PeerSend (deltaFrame sendDeltasTo_frames buildSignedDelta_length)

/-! ### Packets without data -/

/-- Nothing is merged from the packet, and it fits the buffer of a receiver. -/
def Mute (P : Primitives) (pkt : Bytes) : Prop := dataFrames P pkt = [] ∧ pkt.length ≤ maxPacketSize

/-- All packets are mute. -/
def AllMute (P : Primitives) (sent : List (Bytes × Endpoint)) : Prop := ∀ pkt ∈ sent, Mute P pkt.1

section
variable {P : Primitives}

theorem allMute_nil : AllMute P [] := fun pkt member => by cases member

theorem allMute_singleton {pkt : Bytes} (mute : Mute P pkt) (remote : Endpoint) : AllMute P [(pkt,remote)] := by
  intro pkt' member
  rw [List.mem_singleton.mp member]
  exact mute

theorem mute_buildPacket (conn : Connection) {packetType : PacketType} (other : packetType ≠ .data) (connectionId : UInt16)
    (now : Nat) (type : FrameType) {payload : Bytes} (small : payload.length ≤ 1024) :
    Mute P (buildPacket P conn packetType connectionId now type payload).1 := by
  constructor
  · obtain ⟨d,parsed,_,kind,_⟩ := ofPacket_buildPacket P conn packetType connectionId now type payload small
    have refused : dataPacket P (buildPacket P conn packetType connectionId now type payload).1 = none := by
      simp only [dataPacket,parsed]
      exact if_neg (fun both => other (kind.symm.trans both.2))
    rw [dataFrames,refused]
  · have length : (UInt16.ofNat payload.length).toNat = payload.length := by
      rw [UInt16.toNat_ofNat']
      exact Nat.mod_eq_of_lt (by omega)
    rw [buildPacket]
    dsimp only
    rw [PeerSend.finalize_length,PacketEncoder.cursor,PacketEncoder.addFrame,length]
    split
    · exact (by decide : packetHeaderSize + 0 ≤ maxPacketSize)
    · next room =>
      simp only [PacketEncoder.cursor,List.length_nil,Nat.add_zero] at room
      simp only [Option.getD_some,List.length_append,List.length_cons,List.length_nil,writeU16_length,List.length_take]
      rw [frameHeaderSize,packetHeaderSize,maxPacketSize] at room
      rw [packetHeaderSize,maxPacketSize]
      omega

theorem mute_connect (conn : Connection) (now : Nat) : Mute P (buildConnectPacket P conn now).1 :=
  mute_buildPacket conn (by decide) _ _ _ (show 7 ≤ 1024 by decide)

theorem mute_accept (conn : Connection) (now later : Nat) : Mute P (buildAcceptPacket P conn now later).1 :=
  mute_buildPacket conn (by decide) _ _ _ (show 6 ≤ 1024 by decide)

theorem mute_close (conn : Connection) (reason : CloseReason) (now : Nat) : Mute P (buildClosePacket P conn reason now).1 :=
  mute_buildPacket conn (by decide) _ _ _ (show 1 ≤ 1024 by decide)

theorem mute_pong (conn : Connection) (pingId echoTimestamp : UInt32) (now : Nat) :
    Mute P (buildPongPacket P conn pingId echoTimestamp now).1 :=
  mute_buildPacket conn (by decide) _ _ _ (show 8 ≤ 1024 by decide)

theorem mute_dial (l : Links) (id : UInt16) (remote : Endpoint) (x : Exchange) : AllMute P (l.dial P id remote x).sent := by
  rw [Links.dial]
  split
  · exact allMute_nil
  · dsimp only
    split
    · exact allMute_nil
    · exact allMute_singleton (mute_connect _ _) _

theorem mute_answer (l : Links) (id : UInt16) (x : Exchange) : AllMute P (l.answer P id x).sent := by
  rw [Links.answer]
  split
  · dsimp only
    split
    · exact allMute_nil
    · exact allMute_singleton (mute_accept _ _ _) _
  · exact allMute_nil

theorem mute_awaitAccept (l : Links) (id : UInt16) (x : Exchange) : AllMute P (l.awaitAccept P id x).sent := by
  rw [Links.awaitAccept]
  split <;> exact allMute_nil

theorem mute_closeLink (l : Links) (id : UInt16) (reason : CloseReason) (x : Exchange) :
    AllMute P (l.closeLink P id reason x).sent := by
  rw [Links.closeLink]
  split
  · exact allMute_nil
  · split
    · exact allMute_nil
    · exact allMute_singleton (mute_close _ _ _) _

theorem mute_pollHandshake (l : Links) (expected : HandshakeState) {next : Links → LinkResult}
    (mute : ∀ l, AllMute P (next l).sent) : AllMute P (l.pollHandshake expected next).sent := by
  rw [Links.pollHandshake]
  split
  · exact allMute_nil
  · split
    · exact allMute_nil
    · split
      · exact allMute_nil
      · dsimp only
        split <;> exact mute l

theorem mute_tryNew (l : Links) (id : UInt16) (x : Exchange) {attempt : Links → LinkResult}
    (mute : ∀ l, AllMute P (attempt l).sent) : AllMute P (l.tryNew id x attempt).sent := by
  rw [Links.tryNew]
  dsimp only
  split
  · exact allMute_nil
  · split <;> exact mute _

theorem mute_call (l : Links) (x : Exchange) (call : LinkCall) : AllMute P (l.call P x call).sent := by
  cases call with
  | connect remote =>
    rw [Links.call,Links.connect]
    dsimp only
    split <;> exact mute_dial _ _ _ _
  | acceptFrom => exact mute_answer _ _ _
  | disconnect rank reason =>
    rw [Links.call,Links.disconnect]
    split
    · exact allMute_nil
    · exact mute_closeLink _ _ _ _
  | connectStart remote =>
    rw [Links.call,Links.connectStart]
    dsimp only
    split <;> exact mute_dial _ _ _ _
  | connectPoll => exact mute_pollHandshake _ _ (fun l => mute_awaitAccept l 0 x)
  | acceptStart => exact allMute_nil
  | acceptPoll => exact mute_pollHandshake _ _ (fun l => mute_answer l 0 x)
  | connectTo remoteNodeId remote =>
    refine mute_tryNew _ _ _ (fun l => ?_)
    dsimp only
    split <;> exact mute_dial _ _ _ _
  | acceptNode remoteNodeId => exact mute_tryNew _ _ _ (fun l => mute_answer l _ x)
  | disconnectNode remoteNodeId reason => exact mute_closeLink _ _ _ _

theorem mute_receive (p : Peer) (id : UInt16) (mc : ManagedConnection) (d : PacketDecoder) (data : Bytes) (from_ : Endpoint)
    (x : Exchange) : AllMute P (p.receive P id mc d data from_ x).sent := by
  rw [receive]
  dsimp only
  split
  · split
    · exact allMute_singleton (mute_pong _ _ _ _) _
    · exact allMute_nil
  · exact allMute_nil
  · exact allMute_nil

theorem mute_poll (p : Peer) (rank : UInt16 → Nat) (x : Exchange) : AllMute P (p.poll P rank x).sent := by
  rw [poll]
  split
  · exact allMute_nil
  · split
    · exact allMute_nil
    · split
      · exact allMute_nil
      · split
        · exact allMute_nil
        · split
          · exact mute_receive _ _ _ _ _ _ _
          · split
            · rw [autoAccept]
              dsimp only
              split
              · exact allMute_nil
              · split
                · exact allMute_singleton (mute_accept _ _ _) _
                · exact allMute_nil
            · split
              · exact allMute_nil
              · exact mute_receive _ _ _ _ _ _ _

end

/-! ### Packets of a flush -/

/-- The packet fits the buffer of a receiver, and each of its frames is that of one of
    the deltas. -/
def Carries (P : Primitives) (p : Peer) (deltas : List PendingDelta) (pkt : Bytes) : Prop :=
  pkt.length ≤ maxPacketSize ∧ ∀ f ∈ dataFrames P pkt, ∃ d ∈ deltas, deltaFrame P p d = some f

section
variable {P : Primitives} {p : Peer}

theorem sendDeltasTo_carries (p : Peer) (mc : ManagedConnection) (clock : Nat → Nat) (deltas : List PendingDelta) :
    ∀ pkt ∈ (p.sendDeltasTo P mc clock deltas).sent, Carries P p deltas pkt.1 := by
  obtain ⟨frames,sizes,_⟩ := sendDeltasTo_frames P p mc clock deltas
  refine fun pkt member => ⟨sizes pkt member,fun f inside => ?_⟩
  have sent : f ∈ (p.sendDeltasTo P mc clock deltas).sent.flatMap (fun pkt => dataFrames P pkt.1) :=
    List.mem_flatMap.mpr ⟨pkt,member,inside⟩
  rw [frames] at sent
  exact List.mem_filterMap.mp sent

/-- A filter lets through deltas that it was given. -/
theorem filtered_sub (clock : Nat → Nat) {deltas : List PendingDelta} {l : List PendingDelta} (sub : ∀ d ∈ l, d ∈ deltas)
    (st : (DeltaFilter × List PendingDelta) × Nat) (held : ∀ d ∈ st.1.2, d ∈ deltas) :
    ∀ d ∈ (l.foldl (Flushing.filterDelta clock) st).1.2, d ∈ deltas := by
  induction l generalizing st with
  | nil => exact held
  | cons d l ih =>
    refine ih (fun d member => sub d (List.mem_cons_of_mem _ member)) _ ?_
    intro d' member
    rw [Flushing.filterDelta] at member
    dsimp only at member
    split at member
    · rcases List.mem_append.mp member with old | new
      · exact held d' old
      · rw [List.mem_singleton.mp new]
        exact sub d List.mem_cons_self
    · exact held d' member

theorem carries_congr {q : Peer} (same : SameNode p q) {deltas l : List PendingDelta}
    (sub : ∀ d ∈ l, d ∈ deltas) {pkt : Bytes}
    (carries : Carries P q l pkt) : Carries P p deltas pkt := by
  refine ⟨carries.1,fun f inside => ?_⟩
  obtain ⟨d,listed,framed⟩ := carries.2 f inside
  exact ⟨d,sub d listed,(deltaFrame_congr P same d).symm.trans framed⟩

theorem visit_carries {clock : Nat → Nat} {deltas : List PendingDelta} {st : Flushing} (same : SameNode p st.peer)
    (all : ∀ pkt ∈ st.sent, Carries P p deltas pkt.1) (e : UInt16 × ManagedConnection) :
    ∀ pkt ∈ (st.visit P clock deltas e).sent, Carries P p deltas pkt.1 := by
  have sends : ∀ (st' : Flushing) (l : List PendingDelta), SameNode p st'.peer → (∀ d ∈ l, d ∈ deltas) →
      st'.sent = st.sent → ∀ pkt ∈ (st'.send P clock e.1 e.2 l).sent, Carries P p deltas pkt.1 := by
    intro st' l same' sub sent pkt member
    rcases List.mem_append.mp member with old | new
    · exact all pkt (sent ▸ old)
    · exact carries_congr same' sub (sendDeltasTo_carries st'.peer e.2 _ l pkt new)
  rw [Flushing.visit]
  split
  · exact all
  · split
    · exact sends st deltas same (fun _ listed => listed) rfl
    · next f _ =>
      have sub := filtered_sub clock (fun _ listed => listed : ∀ d ∈ deltas, d ∈ deltas) ((f,[]),st.readings)
        (fun d member => by cases member)
      dsimp only
      split
      · exact all
      · exact sends _ _ same sub rfl

/-- The packets of a flush carry what it has collected. -/
theorem flush_sound (p : Peer) (rank : UInt16 → Nat) (clock : Nat → Nat) :
    ∀ pkt ∈ (p.flush P rank clock).sent, Carries P p (p.flush P rank clock).deltas pkt.1 := by
  rw [Peer.flush]
  split
  · intro pkt member
    cases member
  · dsimp only
    split
    · intro pkt member
      cases member
    · have start : SameNode p { p with state := p.state.collectDeltas.2 } := SameNode.refl p
      exact (run_invariant (I := fun st : Flushing => SameNode p st.peer ∧
          ∀ pkt ∈ st.sent, Carries P p p.state.collectDeltas.1 pkt.1)
        (fun st e both => ⟨both.1.trans (sameNode_visit P clock _ st e),visit_carries both.1 both.2 e⟩)
        ⟨start,fun pkt member => by cases member⟩).2

/-- The signed bytes of the delta are counted by 16 bits. -/
def Countable (d : PendingDelta) : Prop := StateDeltaFrame.minWireSize + d.data.length < 2^16

theorem deltaFrame_whole {d : PendingDelta} (countable : Countable d) {f : Frame} (framed : deltaFrame P p d = some f) :
    f = ⟨.stateDelta,p.buildSignedDelta P d⟩ := by
  have size : (UInt16.ofNat (p.buildSignedDelta P d).length).toNat = (p.buildSignedDelta P d).length := by
    rw [UInt16.toNat_ofNat',Nat.mod_eq_of_lt]
    rw [buildSignedDelta_length]
    exact countable
  simp only [deltaFrame,size,List.take_length] at framed
  split at framed
  · cases framed
  · exact (Option.some.inj framed).symm

end
end Rom.NodeNetwork
