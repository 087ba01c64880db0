import Rom.Links
import Rom.Runs

/-!
A handshake between two connections. The client sends packets that ask for the
connection, the server answers each that reaches it as `accept_from` does, and the
client takes the answers; packets may arrive late, more than once or not at all.
When both are connected they should name each other by the same ids and have
settled on the smaller of their frame sizes. The server is never told the client's
id and the client never the frame size, so they agree only where both are 0, and
only if the answer that the client took is the server's last (`agreement_iff`,
`no_agreement`).
-/
namespace Rom.Agreement
open Rom.Runs Handshake

/-- What `accept_from` does with a packet, and the answer that it sends. -/
def respond (P : Primitives) (server : Connection) (data : Bytes) (localConnId : UInt16) (from_ : Endpoint)
    (clock : Nat → Nat) : Connection × Option Bytes :=
  let (event,conn) := processPacket P server data
  if event.result ≠ .connectReceived then (conn,none)
  else
    let (conn,_) := conn.accept localConnId 0 from_ (clock 1)
    let (pkt,conn) := buildAcceptPacket P conn (clock 2) (clock 3)
    (conn,some pkt)

/-- A node that answers a packet does so to its connection. -/
theorem answer_respond (P : Primitives) (l : Links) (id : UInt16) {x : Exchange} {mc : ManagedConnection} {data : Bytes}
    {from_ : Endpoint} (found : l.connMgr.get id = some mc) (arrived : x.reply = some (data,from_)) :
    ((l.answer P id x).links.connMgr.get id).map ManagedConnection.conn =
        some (respond P mc.conn data l.connMgr.nextConnId.1 from_ x.clock).1 ∧
      (l.answer P id x).sent =
        (respond P mc.conn data l.connMgr.nextConnId.1 from_ x.clock).2.toList.map (fun pkt => (pkt,from_)) := by
  simp only [Links.answer,found,arrived,respond]
  split
  · simp [ConnectionManager.get,ConnectionManager.put]
  · simp [ConnectionManager.get,ConnectionManager.put]

/-- Both sides and the packets on their way. Beside them is kept which id the
    server has given with each answer, and which answer the client has taken. -/
structure Meeting where
  client : Connection
  server : Connection
  connects : List Bytes := []
  accepts : List Bytes := []
  assigned : List UInt16 := []
  taken : Option Nat := none

inductive Event where
  | connectSent (now : Nat)
  | connectArrives (k : Nat) (localConnId : UInt16) (from_ : Endpoint) (clock : Nat → Nat)
  | acceptArrives (k : Nat)

/-- An answer is on its way, with the id that it gives. -/
def answered (s : Meeting) (conn : Connection) (pkt : Bytes) : Meeting :=
  { s with server := conn, accepts := s.accepts ++ [pkt], assigned := s.assigned ++ [conn.localConnId] }

def step (P : Primitives) (s : Meeting) : Event → Meeting
  | .connectSent now =>
    let (pkt,conn) := buildConnectPacket P s.client now
    { s with client := conn, connects := s.connects ++ [pkt] }
  | .connectArrives k localConnId from_ clock =>
    match s.connects[k]? with
    | none => s
    | some data =>
      match respond P s.server data localConnId from_ clock with
      | (conn,none) => { s with server := conn }
      | (conn,some pkt) => answered s conn pkt
  | .acceptArrives k =>
    match s.accepts[k]? with
    | none => s
    | some data =>
      { s with
        client := (processPacket P s.client data).2
        taken := if s.client.state = .connecting then some k else s.taken }

/-- A client that has initiated its connection and a new server, made at any
    times. -/
def start (clientConfig serverConfig : ConnectionConfig) (localConnId : UInt16) (remote : Endpoint) (clock : Nat → Nat) :
    Meeting :=
  { client := ({ Connection.new (clock 0) with config := clientConfig }.initiate localConnId remote (clock 1)).1
    server := { Connection.new (clock 2) with config := serverConfig } }

def BothConnected (s : Meeting) : Prop := s.client.state = .connected ∧ s.server.state = .connected

instance (s : Meeting) : Decidable (BothConnected s) := inferInstanceAs (Decidable (_ ∧ _))

/-- The smaller of the frame sizes. -/
def smaller (s : Meeting) : UInt16 := min s.server.config.maxFrameSize s.client.config.maxFrameSize

/-- The sides name each other by the same ids and have settled on the smaller frame
    size. -/
def Agreed (s : Meeting) : Prop :=
  s.client.remoteConnId = s.server.localConnId ∧ s.server.remoteConnId = s.client.localConnId ∧
    s.client.negotiatedMaxFrame = smaller s ∧ s.server.negotiatedMaxFrame = smaller s

instance (s : Meeting) : Decidable (Agreed s) := inferInstanceAs (Decidable (_ ∧ _))

/-- The client took an answer that gives the id of the server's last one. -/
def TookLatest (s : Meeting) : Prop := ∃ k, s.taken = some k ∧ s.assigned[k]? = s.assigned.getLast?

/-! ### What a meeting keeps -/

structure Kept (P : Primitives) (clientConfig serverConfig : ConnectionConfig) (s : Meeting) : Prop where
  clientSet : s.client.config = clientConfig
  serverSet : s.server.config = serverConfig
  /-- The client is not told the frame size. -/
  clientFrame : s.client.negotiatedMaxFrame = 0
  clientState : s.client.state = .connecting ∨
    s.client.state = .connected ∧ ∃ k, s.taken = some k ∧ s.assigned[k]? = some s.client.remoteConnId
  /-- The server is not told the id of the client. -/
  serverState : s.server.state = .connected →
    s.server.remoteConnId = 0 ∧ s.server.negotiatedMaxFrame = min serverConfig.maxFrameSize clientConfig.maxFrameSize ∧
      s.assigned.getLast? = some s.server.localConnId
  connects : ∀ data ∈ s.connects, ∃ sender now, sender.config = clientConfig ∧ data = (buildConnectPacket P sender now).1
  accepts : ∀ (k : Nat) (data : Bytes), s.accepts[k]? = some data → ∃ sender now later,
    s.assigned[k]? = some sender.localConnId ∧ data = (buildAcceptPacket P sender now later).1
  counted : s.accepts.length = s.assigned.length

section
variable {P : Primitives} {clientConfig serverConfig : ConnectionConfig} {s : Meeting}

theorem kept_start (P : Primitives) (clientConfig serverConfig : ConnectionConfig) (localConnId : UInt16)
    (remote : Endpoint)
    (clock : Nat → Nat) : Kept P clientConfig serverConfig (start clientConfig serverConfig localConnId remote clock) where
  clientSet := rfl
  serverSet := rfl
  clientFrame := rfl
  clientState := .inl rfl
  serverState := fun connected => by cases connected
  connects := fun _ member => by cases member
  accepts := fun _ _ found => by cases found
  counted := rfl

theorem kept_connectSent (kept : Kept P clientConfig serverConfig s) (now : Nat) :
    Kept P clientConfig serverConfig (step P s (.connectSent now)) where
  clientSet := kept.clientSet
  serverSet := kept.serverSet
  clientFrame := kept.clientFrame
  clientState := kept.clientState
  serverState := kept.serverState
  connects := by
    intro data member
    rcases List.mem_append.mp member with old | new
    · exact kept.connects data old
    · exact ⟨s.client,now,kept.clientSet,List.mem_singleton.mp new⟩
  accepts := kept.accepts
  counted := kept.counted

/-- What the server does with a request: it is connected under the new id, without
    an id of the client. -/
theorem respond_connect (P : Primitives) (server sender : Connection) (now : Nat) (localConnId : UInt16) (from_ : Endpoint)
    (clock : Nat → Nat) :
    ∃ n m, respond P server (buildConnectPacket P sender now).1 localConnId from_ clock =
      ({ server with
          state := .connected
          localConnId := localConnId
          remoteConnId := 0
          remote := from_
          epochUs := clock 1
          sendPktNum := n
          recvPktNum := m
          peerVersion := protocolVersion
          negotiatedMaxFrame := min server.config.maxFrameSize sender.config.maxFrameSize },
        some (buildAcceptPacket P
          { server with
            state := .connected
            localConnId := localConnId
            remoteConnId := 0
            remote := from_
            epochUs := clock 1
            recvPktNum := m
            peerVersion := protocolVersion
            negotiatedMaxFrame := min server.config.maxFrameSize sender.config.maxFrameSize } (clock 2) (clock 3)).1) := by
  obtain ⟨m,processed⟩ := processPacket_connect P server sender now
  exact ⟨server.sendPktNum + 1,m,by rw [respond,processed]; rfl⟩

theorem kept_answered (kept : Kept P clientConfig serverConfig s) {conn sender : Connection} {now later : Nat}
    (config : conn.config = serverConfig) (unnamed : conn.remoteConnId = 0)
    (size : conn.negotiatedMaxFrame = min serverConfig.maxFrameSize clientConfig.maxFrameSize)
    (same : sender.localConnId = conn.localConnId) :
    Kept P clientConfig serverConfig (answered s conn (buildAcceptPacket P sender now later).1) where
  clientSet := kept.clientSet
  serverSet := config
  clientFrame := kept.clientFrame
  clientState := by
    rcases kept.clientState with connecting | ⟨connected,k,taken,found⟩
    · exact .inl connecting
    · refine .inr ⟨connected,k,taken,?_⟩
      obtain ⟨inside,_⟩ := List.getElem?_eq_some_iff.mp found
      show (s.assigned ++ _)[k]? = _
      rw [List.getElem?_append_left inside]
      exact found
  serverState := fun _ => ⟨unnamed,size,List.getLast?_concat⟩
  connects := kept.connects
  accepts := by
    intro k data found
    have appended : (s.accepts ++ [(buildAcceptPacket P sender now later).1])[k]? = some data := found
    by_cases inside : k < s.accepts.length
    · rw [List.getElem?_append_left inside] at appended
      obtain ⟨sender,now,later,id,packet⟩ := kept.accepts k data appended
      refine ⟨sender,now,later,?_,packet⟩
      show (s.assigned ++ _)[k]? = _
      rw [List.getElem?_append_left (kept.counted ▸ inside)]
      exact id
    · rw [List.getElem?_append_right (Nat.not_lt.mp inside)] at appended
      obtain ⟨here,packet⟩ := List.getElem?_eq_some_iff.mp appended
      have last : k = s.accepts.length := by
        rw [List.length_singleton] at here
        omega
      refine ⟨sender,now,later,?_,?_⟩
      · show (s.assigned ++ [conn.localConnId])[k]? = _
        rw [last,kept.counted,List.getElem?_concat_length,same]
      · rw [← packet]
        simp [last]
  counted := by
    show (s.accepts ++ _).length = (s.assigned ++ _).length
    rw [List.length_append,List.length_append,kept.counted]
    rfl

theorem kept_connectArrives (kept : Kept P clientConfig serverConfig s) (k : Nat) (localConnId : UInt16) (from_ : Endpoint)
    (clock : Nat → Nat) : Kept P clientConfig serverConfig (step P s (.connectArrives k localConnId from_ clock)) := by
  rw [step]
  cases found : s.connects[k]? with
  | none => exact kept
  | some data =>
    obtain ⟨sender,now,config,rfl⟩ := kept.connects data (List.mem_of_getElem? found)
    obtain ⟨n,m,responded⟩ := respond_connect P s.server sender now localConnId from_ clock
    simp only [responded]
    refine kept_answered kept kept.serverSet rfl ?_ rfl
    show min s.server.config.maxFrameSize sender.config.maxFrameSize = _
    rw [kept.serverSet,config]

theorem kept_acceptArrives (kept : Kept P clientConfig serverConfig s) (k : Nat) :
    Kept P clientConfig serverConfig (step P s (.acceptArrives k)) := by
  rw [step]
  cases found : s.accepts[k]? with
  | none => exact kept
  | some data =>
    obtain ⟨sender,now,later,id,rfl⟩ := kept.accepts k data found
    obtain ⟨n,processed⟩ := processPacket_accept P s.client sender now later
    simp only [processed]
    rcases kept.clientState with connecting | ⟨connected,j,taken,given⟩
    · have accepted : ({ s.client with recvPktNum := n }.onAccept sender.localConnId (sender.elapsedUs later)).1 =
          { s.client with recvPktNum := n, remoteConnId := sender.localConnId, state := .connected } := by
        rw [Connection.onAccept,if_neg (not_not.mpr connecting)]
      rw [accepted,if_pos connecting]
      exact
        { kept with
          clientSet := kept.clientSet
          clientFrame := kept.clientFrame
          clientState := .inr ⟨rfl,k,rfl,id⟩ }
    · have late : s.client.state ≠ .connecting := by
        rw [connected]
        decide
      have ignored : ({ s.client with recvPktNum := n }.onAccept sender.localConnId (sender.elapsedUs later)).1 =
          { s.client with recvPktNum := n } := by
        rw [Connection.onAccept,if_pos late]
      rw [ignored,if_neg late]
      exact
        { kept with
          clientSet := kept.clientSet
          clientFrame := kept.clientFrame
          clientState := .inr ⟨connected,j,taken,given⟩ }

theorem kept_step (s : Meeting) (e : Event) (kept : Kept P clientConfig serverConfig s) :
    Kept P clientConfig serverConfig (step P s e) := by
  cases e with
  | connectSent now => exact kept_connectSent kept now
  | connectArrives k localConnId from_ clock => exact kept_connectArrives kept k localConnId from_ clock
  | acceptArrives k => exact kept_acceptArrives kept k

/-- When two connected sides agree. -/
theorem agreed_iff (kept : Kept P clientConfig serverConfig s) (both : BothConnected s) :
    Agreed s ↔ s.client.localConnId = 0 ∧ smaller s = 0 ∧ TookLatest s := by
  obtain ⟨unnamed,size,last⟩ := kept.serverState both.2
  have settled : s.server.negotiatedMaxFrame = smaller s := by
    rw [size,smaller,kept.serverSet,kept.clientSet]
  rcases kept.clientState with connecting | ⟨_,k,taken,given⟩
  · rw [both.1] at connecting
    cases connecting
  · have latest : TookLatest s ↔ s.client.remoteConnId = s.server.localConnId := by
      constructor
      · rintro ⟨j,taken',same⟩
        rw [taken] at taken'
        cases taken'
        rw [given,last] at same
        exact Option.some.inj same
      · exact fun same => ⟨k,taken,by rw [given,last,same]⟩
    rw [Agreed,unnamed,kept.clientFrame,latest]
    constructor
    · rintro ⟨id,name,frame,_⟩
      exact ⟨name.symm,frame.symm,id⟩
    · rintro ⟨name,frame,id⟩
      exact ⟨id,name.symm,frame.symm,settled⟩

end

/-- In which meetings the sides agree whenever both are connected. -/
theorem agreement_iff (P : Primitives) (clientConfig serverConfig : ConnectionConfig) (localConnId : UInt16)
    (remote : Endpoint) (clock : Nat → Nat) (events : List Event) :
    Everywhere (step P) (fun s => BothConnected s → Agreed s) (start clientConfig serverConfig localConnId remote clock)
        events ↔
      Everywhere (step P) (fun s => BothConnected s → s.client.localConnId = 0 ∧ smaller s = 0 ∧ TookLatest s)
        (start clientConfig serverConfig localConnId remote clock) events := by
  refine everywhere_congr (I := Kept P clientConfig serverConfig) kept_step (fun s kept => ?_)
    (kept_start P clientConfig serverConfig localConnId remote clock)
  exact forall_congr' (fun both => agreed_iff kept both)

/-- The plain exchange between a client and a server that both use the id 1: the
    server holds 0 for the client's id, and the client 0 for the frame size. -/
theorem no_agreement :
    ¬ Everywhere (step plain) (fun s => BothConnected s → Agreed s) (start {} {} 1 ⟨[],1⟩ (fun _ => 0))
      [.connectSent 0,.connectArrives 0 1 ⟨[],2⟩ (fun _ => 0),.acceptArrives 0] := by
  rintro ⟨_,_,_,agreed⟩
  have ended := agreed (by decide +kernel)
  revert ended
  decide +kernel

end Rom.Agreement
