import Rom.Poll
import Rom.Window

/-!
The highest packet number received. A connection and its receive tracker both keep
it, and `poll` hands every packet number to both (`receive_counts`). The tracker
compares with wrap-around, the connection does not, so after the numbers have
wrapped the connection stays behind (`behind_after_wrap`). For packets that come
within half the numbers of the highest so far, the two agree exactly as long as no
packet is on the other side of the wrap (`highest_agree_iff`).
-/
namespace Rom.Highest
open Rom.Runs

/-- What a packet number does to a connection. -/
def received (mc : ManagedConnection) (pktNum : UInt32) : ManagedConnection :=
  { mc with
    conn := mc.conn.updateRecvPacketNumber pktNum
    recvTracker := mc.recvTracker.onPacketReceived pktNum }

/-- A connection as the table has it at first. -/
def opened (remoteNodeId : UInt16) (now : Nat) : ManagedConnection := { remoteNodeId := remoteNodeId, conn := .new now }

/-- Both have the same highest packet number. -/
def Agree (mc : ManagedConnection) : Prop := mc.conn.recvPktNum = mc.recvTracker.largestReceived

instance : DecidablePred Agree :=
  fun mc => inferInstanceAs (Decidable (mc.conn.recvPktNum = mc.recvTracker.largestReceived))

/-- The distance of two packet numbers, in the shorter direction. -/
def distance (a b : UInt32) : Nat := min (a - b).toNat (b - a).toNat

/-- A packet after the first is less than half the numbers away from the highest. -/
def Near (mc : ManagedConnection) (pktNum : UInt32) : Prop :=
  mc.recvTracker.hasReceived = true → distance pktNum mc.recvTracker.largestReceived < 2^31

instance (mc : ManagedConnection) (pktNum : UInt32) : Decidable (Near mc pktNum) :=
  inferInstanceAs (Decidable (_ → _))

/-- There is no wrap between a packet after the first and the highest. -/
def SameSide (mc : ManagedConnection) (pktNum : UInt32) : Prop :=
  mc.recvTracker.hasReceived = true → pktNum.toNat < mc.recvTracker.largestReceived.toNat + 2^31 ∧
    mc.recvTracker.largestReceived.toNat < pktNum.toNat + 2^31

instance (mc : ManagedConnection) (pktNum : UInt32) : Decidable (SameSide mc pktNum) :=
  inferInstanceAs (Decidable (_ → _))

/-! ### What `poll` does -/

theorem updateRecvPacketNumber_twice (conn : Connection) (pktNum : UInt32) :
    (conn.updateRecvPacketNumber pktNum).updateRecvPacketNumber pktNum = conn.updateRecvPacketNumber pktNum := by
  by_cases higher : pktNum > conn.recvPktNum
  · simp [Connection.updateRecvPacketNumber,higher]
  · simp [Connection.updateRecvPacketNumber,higher]

theorem effect_recvPktNum (event : Handshake.HandshakeEvent) (conn : Connection) :
    (event.effect conn).recvPktNum = conn.recvPktNum := by
  rw [Handshake.HandshakeEvent.effect]
  split
  · rfl
  · rw [Connection.onAccept]
    split
    · rfl
    · rfl
  · rfl
  · rfl

/-- A packet of the handshake counts once more with the same number. -/
theorem processPacket_recvPktNum (P : Primitives) (conn : Connection) {d : PacketDecoder} {data : Bytes}
    (decoded : PacketDecoder.ofPacket data = some d) :
    (Handshake.processPacket P (conn.updateRecvPacketNumber d.header.packetNumber) data).2.recvPktNum =
      (conn.updateRecvPacketNumber d.header.packetNumber).recvPktNum := by
  rw [Handshake.processPacket,decoded]
  dsimp only
  split
  · rfl
  · rw [updateRecvPacketNumber_twice,Handshake.processFrames_effect,effect_recvPktNum]

theorem perform_links (mc : ManagedConnection) (st : Peer.Progress) (action : Peer.FrameAction) :
    (Peer.perform mc st action).peer.links = st.peer.links := by
  cases action with
  | reportFailure author pathHash =>
    rw [Peer.perform]
    split
    · rfl
    · rfl
  | _ => rfl

theorem processDataFrames_links (P : Primitives) (p : Peer) (mc : ManagedConnection) (clock : Nat → Nat)
    (d : PacketDecoder) :
    (p.processDataFrames P mc clock d).1.links = p.links :=
  run_invariant (I := fun st : Peer.Progress => st.peer.links = p.links)
    (fun st a same => (perform_links mc st (Peer.arrivalAction P mc st a)).trans same) rfl

theorem get_putLink (p : Peer) (id : UInt16) (mc : ManagedConnection) :
    (p.putLink id mc).links.connMgr.get id = some mc := by
  simp [Peer.putLink,ConnectionManager.put,ConnectionManager.get]

/-- A packet that is received hands its number to both. -/
theorem receive_counts (P : Primitives) (p : Peer) (id : UInt16) (mc : ManagedConnection) {d : PacketDecoder} {data : Bytes}
    (decoded : PacketDecoder.ofPacket data = some d) (from_ : Endpoint) (x : Exchange) :
    ∃ mc', (p.receive P id mc d data from_ x).peer.links.connMgr.get id = some mc' ∧
      mc'.conn.recvPktNum = (received mc d.header.packetNumber).conn.recvPktNum ∧
      mc'.recvTracker = (received mc d.header.packetNumber).recvTracker := by
  have handshake := processPacket_recvPktNum P mc.conn decoded
  rw [Peer.receive]
  split
  · dsimp only
    split
    · exact ⟨_,get_putLink _ _ _,handshake,rfl⟩
    · exact ⟨_,get_putLink _ _ _,handshake,rfl⟩
  · refine ⟨_,?_,rfl,rfl⟩
    rw [processDataFrames_links]
    exact get_putLink _ _ _
  · exact ⟨_,get_putLink _ _ _,rfl,rfl⟩

/-! ### Numbers in order -/

theorem largest_onPacketReceived (t : RecvTracker) (pktNum : UInt32) :
    (t.onPacketReceived pktNum).hasReceived = true ∧ (t.onPacketReceived pktNum).largestReceived =
      if t.hasReceived && !seqGt pktNum t.largestReceived then t.largestReceived else pktNum := by
  rw [RecvTracker.onPacketReceived]
  cases begun : t.hasReceived with
  | false =>
    obtain ⟨largest,same⟩ := Window.setBit_rest ⟨pktNum,true,Vector.replicate 32 0⟩ pktNum
    simp [largest,same]
  | true =>
    cases later : seqGt pktNum t.largestReceived with
    | true =>
      obtain ⟨largest,same⟩ :=
        Window.setBit_rest ⟨pktNum,true,RecvTracker.shiftBitmap t.bitmap (pktNum - t.largestReceived).toNat⟩ pktNum
      simp [largest,same]
    | false =>
      obtain ⟨largest,same⟩ := Window.setBit_rest t pktNum
      simp [largest,same,begun]

/-- With no packet received the connection has the number 0. -/
def Begins (mc : ManagedConnection) : Prop := mc.recvTracker.hasReceived = false → mc.conn.recvPktNum = 0

theorem begins_received (mc : ManagedConnection) (pktNum : UInt32) : Begins (received mc pktNum) := by
  intro none
  have begun : (mc.recvTracker.onPacketReceived pktNum).hasReceived = true := (largest_onPacketReceived _ _).1
  exact absurd (begun.symm.trans none) (by decide)

/-- Both are right about a packet: in plain order it is higher if it is with wrap-around. -/
def SameOrder (mc : ManagedConnection) (pktNum : UInt32) : Prop :=
  mc.recvTracker.hasReceived = true →
    (mc.recvTracker.largestReceived < pktNum ↔ seqGt pktNum mc.recvTracker.largestReceived = true)

theorem recvPktNum_received (mc : ManagedConnection) (pktNum : UInt32) :
    (received mc pktNum).conn.recvPktNum = if mc.conn.recvPktNum < pktNum then pktNum else mc.conn.recvPktNum := by
  show (mc.conn.updateRecvPacketNumber pktNum).recvPktNum = _
  rw [Connection.updateRecvPacketNumber]
  split
  · rfl
  · rfl

/-- A packet keeps the agreement exactly if it is in the same order for both. -/
theorem agree_received {mc : ManagedConnection} (begins : Begins mc) (agree : Agree mc) (pktNum : UInt32) :
    Agree (received mc pktNum) ↔ SameOrder mc pktNum := by
  have tracked : (received mc pktNum).recvTracker.largestReceived = _ := (largest_onPacketReceived mc.recvTracker pktNum).2
  rw [Agree,tracked,recvPktNum_received,SameOrder]
  cases begun : mc.recvTracker.hasReceived with
  | false =>
    -- the first packet is taken over by both, even if its number is 0
    refine iff_of_true ?_ (by simp)
    rw [begins begun]
    by_cases zero : pktNum = 0
    · simp [zero]
    · simp [UInt32.pos_iff_ne_zero.mpr zero]
  | true =>
    rw [show mc.conn.recvPktNum = mc.recvTracker.largestReceived from agree]
    generalize mc.recvTracker.largestReceived = h
    by_cases higher : h < pktNum
    · cases later : seqGt pktNum h with
      | true => simp [higher]
      | false => simp [higher,UInt32.ne_of_lt higher |>.symm]
    · cases later : seqGt pktNum h with
      | true =>
        have apart : h ≠ pktNum := by
          rintro rfl
          simp [seqGt_iff] at later
        simp [higher,apart]
      | false => simp [higher]

/-- Near the highest, the orders are the same exactly if there is no wrap between. -/
theorem sameOrder_iff (mc : ManagedConnection) (pktNum : UInt32) (near : Near mc pktNum) :
    SameOrder mc pktNum ↔ SameSide mc pktNum := by
  refine forall_congr' (fun begun => ?_)
  have close := near begun
  generalize mc.recvTracker.largestReceived = h at close ⊢
  have boundN := pktNum.toNat_lt
  have boundH := h.toNat_lt
  rw [seqGt_iff,UInt32.lt_iff_toNat_lt]
  rw [distance] at close
  rw [UInt32.toNat_sub] at close ⊢
  rw [UInt32.toNat_sub] at close
  omega

/-- For packets near the highest so far, connection and tracker agree after every
    packet exactly as long as no packet is behind a wrap. -/
theorem highest_agree_iff (remoteNodeId : UInt16) (now : Nat) (pktNums : List UInt32)
    (near : Along received Near (opened remoteNodeId now) pktNums) :
    Everywhere received Agree (opened remoteNodeId now) pktNums ↔
      Along received SameSide (opened remoteNodeId now) pktNums := by
  rw [← near.congr sameOrder_iff]
  exact everywhere_iff_along (I := Begins) (fun mc pktNum _ => begins_received mc pktNum)
    (fun mc pktNum begins agree => agree_received begins agree pktNum) (fun _ => rfl) rfl

/-- Packets out of order, with one twice. -/
theorem highest_agree_iff_in_order :
    Along received Near (opened 2 0) [7,9,8,9,12] ∧ Everywhere received Agree (opened 2 0) [7,9,8,9,12] :=
  ⟨by decide +kernel,(highest_agree_iff 2 0 [7,9,8,9,12] (by decide +kernel)).mpr (by decide +kernel)⟩

/-- The last number is followed by the first. -/
theorem behind_after_wrap :
    Along received Near (opened 2 0) [4294967295,0] ∧ ¬ Everywhere received Agree (opened 2 0) [4294967295,0] := by
  decide +kernel

end Rom.Highest
