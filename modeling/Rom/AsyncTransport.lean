import Rom.Connection
import Rom.Runs

/-!
Sending and receiving on threads (`async_transport.h`, `async_transport.cpp`). Sends
are queued; threads of the send loop take them off the queue, hand them to the
transport below and call their callbacks, while one thread receives. Between two
steps of a thread every other thread may take any number of steps. What the
transport below is handed, the calls of callbacks and those of the receive handler
are kept as lists. `stop` goes through the list of threads without a lock while it
waits for them, and `start` adds to that list: what holds only if no `start` comes in
between says so.
-/
namespace Rom

/-- A queued send, with the name of its callback if it has one. -/
structure SendJob where
  data : Bytes
  remote : Endpoint
  callback : Option Nat
  deriving DecidableEq, Repr

/-- A call of a callback: which, the bytes sent and the error. -/
structure SendCall where
  callback : Nat
  bytesSent : Int
  error : Int
  deriving DecidableEq, Repr

/-- Where a thread of the send loop stands. -/
inductive SendThread where
  /-- Before the test of `running_`. -/
  | testing
  /-- Before the queue. -/
  | waiting
  /-- With a job off the queue. -/
  | holding (job : SendJob)
  /-- With a job that the transport below was handed, and what that returned. -/
  | reporting (job : SendJob) (result : Int)
  | ended
  deriving DecidableEq, Repr

/-- The job of a thread that has not handed it on. -/
def SendThread.held : SendThread → Option SendJob
  | .holding job => some job
  | _ => none

/-- The job of a thread that has handed it on and not reported it. -/
def SendThread.unreported : SendThread → Option (SendJob × Int)
  | .reporting job result => some (job,result)
  | _ => none

/-- Where a thread of the receive loop stands. -/
inductive RecvThread where
  | testing
  | receiving
  | ended
  deriving DecidableEq, Repr

structure AsyncTransport where
  numThreads : Nat
  running : Bool := false
  /-- Whether `stop` is waiting for the threads. -/
  joining : Bool := false
  sendQueue : List SendJob := []
  recvThreads : List RecvThread := []
  sendThreads : List SendThread := []
  packetsSent : UInt64 := 0
  bytesSent : UInt64 := 0
  packetsReceived : UInt64 := 0
  bytesReceived : UInt64 := 0
  /-- Whether a receive handler is set. -/
  handles : Bool := false
  /-- What the transport below was handed off the queue, and what it returned. -/
  handed : List (SendJob × Int) := []
  /-- What `stop` found in the queue. -/
  dropped : List SendJob := []
  calls : List SendCall := []
  received : List (Bytes × Endpoint) := []
  deriving DecidableEq, Repr

namespace AsyncTransport

def new (numThreads : Nat) (handles : Bool) : AsyncTransport :=
  { numThreads := if numThreads < 1 then 1 else numThreads, handles := handles }

/-- The number of threads that send. -/
def senders (t : AsyncTransport) : Nat := if t.numThreads = 1 then 1 else t.numThreads - 1

def start (t : AsyncTransport) : AsyncTransport :=
  if t.running then t
  else
    { t with
      running := true
      recvThreads := t.recvThreads ++ [.testing]
      sendThreads := t.sendThreads ++ List.replicate t.senders .testing }

/-- `stop` until it waits for the threads. -/
def stop (t : AsyncTransport) : AsyncTransport :=
  if t.running then { t with running := false, joining := true } else t

/-- The call for a job that was handed to the transport below. -/
def report (j : SendJob × Int) : Option SendCall := j.1.callback.map (fun f => ⟨f,j.2,if j.2 > 0 then 0 else -1⟩)

/-- The call for a job that was not. -/
def refusal (job : SendJob) : Option SendCall := job.callback.map (fun f => ⟨f,-1,-1⟩)

def AllEnded (t : AsyncTransport) : Prop := (∀ th ∈ t.recvThreads, th = .ended) ∧ ∀ th ∈ t.sendThreads, th = .ended

instance (t : AsyncTransport) : Decidable t.AllEnded :=
  inferInstanceAs (Decidable ((∀ th ∈ t.recvThreads, th = .ended) ∧ ∀ th ∈ t.sendThreads, th = .ended))

/-- The rest of `stop`, when all threads have ended. The queue is locked while it is
    emptied. -/
def join (t : AsyncTransport) : AsyncTransport :=
  if t.joining ∧ t.AllEnded then
    { t with
      joining := false
      recvThreads := []
      sendThreads := []
      sendQueue := []
      dropped := t.dropped ++ t.sendQueue
      calls := t.calls ++ t.sendQueue.filterMap refusal }
  else t

def asyncSend (t : AsyncTransport) (job : SendJob) : AsyncTransport := { t with sendQueue := t.sendQueue ++ [job] }

/-- What is counted for a send. -/
def countSent (t : AsyncTransport) (result : Int) : AsyncTransport :=
  { t with
    packetsSent := if result > 0 then t.packetsSent + 1 else t.packetsSent
    bytesSent := if result > 0 then t.bytesSent + UInt64.ofNat result.toNat else t.bytesSent }

/-- A send on the caller's thread, of which the transport below returned something. -/
def sendTo (t : AsyncTransport) (result : Int) : AsyncTransport := t.countSent result

def putSend (t : AsyncTransport) (i : Nat) (th : SendThread) : AsyncTransport :=
  { t with sendThreads := t.sendThreads.set i th }

def putRecv (t : AsyncTransport) (i : Nat) (th : RecvThread) : AsyncTransport :=
  { t with recvThreads := t.recvThreads.set i th }

@[simp] theorem putSend_handed (t : AsyncTransport) (i : Nat) (th : SendThread) : (t.putSend i th).handed = t.handed := rfl
@[simp] theorem putSend_dropped (t : AsyncTransport) (i : Nat) (th : SendThread) :
    (t.putSend i th).dropped = t.dropped := rfl
@[simp] theorem putSend_calls (t : AsyncTransport) (i : Nat) (th : SendThread) : (t.putSend i th).calls = t.calls := rfl
@[simp] theorem putSend_sendQueue (t : AsyncTransport) (i : Nat) (th : SendThread) :
    (t.putSend i th).sendQueue = t.sendQueue := rfl

/-- The next step of a thread of the send loop. The wait for the queue may end at any
    time; `result` is what the transport below returns if it is asked. -/
def sendLoop (t : AsyncTransport) (i : Nat) (result : Int) : AsyncTransport :=
  match t.sendThreads[i]? with
  | some .testing => t.putSend i (if t.running then .waiting else .ended)
  | some .waiting =>
    match t.sendQueue with
    | [] => t.putSend i (if t.running then .testing else .ended)
    | job :: rest => { t with sendQueue := rest }.putSend i (.holding job)
  | some (.holding job) =>
    ({ t with handed := t.handed ++ [(job,result)] }.countSent result).putSend i (.reporting job result)
  | some (.reporting job result) => { t with calls := t.calls ++ (report (job,result)).toList }.putSend i .testing
  | some .ended => t
  | none => t

/-- The next step of a thread of the receive loop; `reply` is what the transport
    below receives if it is asked. -/
def recvLoop (t : AsyncTransport) (i : Nat) (reply : Option (Bytes × Endpoint)) : AsyncTransport :=
  match t.recvThreads[i]? with
  | some .testing => t.putRecv i (if t.running then .receiving else .ended)
  | some .receiving =>
    match reply with
    | some (data,from_) =>
      if data.length > 0 then
        { t with
          packetsReceived := t.packetsReceived + 1
          bytesReceived := t.bytesReceived + UInt64.ofNat data.length
          received := if t.handles then t.received ++ [(data,from_)] else t.received }.putRecv i .testing
      else t.putRecv i .testing
    | none => t.putRecv i .testing
  | some .ended => t
  | none => t

/-- What may happen next, on any thread. -/
inductive Event where
  | start
  | stop
  | join
  | asyncSend (job : SendJob)
  | sendTo (result : Int)
  | sendLoop (i : Nat) (result : Int)
  | recvLoop (i : Nat) (reply : Option (Bytes × Endpoint))
  deriving DecidableEq, Repr

def step (t : AsyncTransport) : Event → AsyncTransport
  | .start => t.start
  | .stop => t.stop
  | .join => t.join
  | .asyncSend job => t.asyncSend job
  | .sendTo result => t.sendTo result
  | .sendLoop i result => t.sendLoop i result
  | .recvLoop i reply => t.recvLoop i reply

/-- The jobs in the hands of threads that have not handed them on. -/
def held (t : AsyncTransport) : List SendJob := t.sendThreads.filterMap SendThread.held

/-- The jobs that were handed on and not reported yet. -/
def unreported (t : AsyncTransport) : List (SendJob × Int) := t.sendThreads.filterMap SendThread.unreported

/-- What a thread of the send loop does next: nothing, when it has ended or is not
    there; it goes on without a job; it takes a job, hands it on or calls its
    callback. -/
theorem sendLoop_cases (t : AsyncTransport) (i : Nat) (result : Int) :
    (t.sendLoop i result = t ∧ ∀ th ∈ t.sendThreads[i]?, th = .ended) ∨
    (∃ old new, t.sendThreads[i]? = some old ∧ t.sendLoop i result = t.putSend i new ∧
      (old = .testing ∧ new = (if t.running then .waiting else .ended) ∨
        old = .waiting ∧ t.sendQueue = [] ∧ new = if t.running then .testing else .ended)) ∨
    (∃ job rest, t.sendThreads[i]? = some .waiting ∧ t.sendQueue = job :: rest ∧
      t.sendLoop i result = { t with sendQueue := rest }.putSend i (.holding job)) ∨
    (∃ job, t.sendThreads[i]? = some (.holding job) ∧
      t.sendLoop i result =
        ({ t with handed := t.handed ++ [(job,result)] }.countSent result).putSend i (.reporting job result)) ∨
    ∃ job returned, t.sendThreads[i]? = some (.reporting job returned) ∧
      t.sendLoop i result = { t with calls := t.calls ++ (report (job,returned)).toList }.putSend i .testing := by
  unfold sendLoop
  cases t.sendThreads[i]? with
  | none => exact .inl ⟨rfl,by simp⟩
  | some th =>
    cases th with
    | testing => exact .inr (.inl ⟨_,_,rfl,rfl,.inl ⟨rfl,rfl⟩⟩)
    | waiting =>
      cases queue : t.sendQueue with
      | nil => exact .inr (.inl ⟨_,_,rfl,rfl,.inr ⟨rfl,rfl,rfl⟩⟩)
      | cons job rest => exact .inr (.inr (.inl ⟨job,rest,rfl,rfl,rfl⟩))
    | holding job => exact .inr (.inr (.inr (.inl ⟨job,rfl,rfl⟩)))
    | reporting job returned => exact .inr (.inr (.inr (.inr ⟨job,returned,rfl,rfl⟩)))
    | ended => exact .inl ⟨rfl,by simp⟩

/-- What the steps of threads leave as it is. -/
theorem sendLoop_settings (t : AsyncTransport) (i : Nat) (result : Int) :
    (t.sendLoop i result).running = t.running ∧ (t.sendLoop i result).joining = t.joining ∧
      (t.sendLoop i result).numThreads = t.numThreads ∧
      (t.sendLoop i result).sendThreads.length = t.sendThreads.length := by
  rcases sendLoop_cases t i result with
    ⟨same,_⟩ | ⟨old,new,_,same,_⟩ | ⟨job,rest,_,_,same⟩ | ⟨job,_,same⟩ | ⟨job,returned,_,same⟩
  · rw [same]
    exact ⟨rfl,rfl,rfl,rfl⟩
  all_goals
    rw [same]
    exact ⟨rfl,rfl,rfl,List.length_set⟩

theorem recvLoop_settings (t : AsyncTransport) (i : Nat) (reply : Option (Bytes × Endpoint)) :
    (t.recvLoop i reply).running = t.running ∧ (t.recvLoop i reply).joining = t.joining ∧
      (t.recvLoop i reply).numThreads = t.numThreads ∧ (t.recvLoop i reply).sendThreads = t.sendThreads ∧
      (t.recvLoop i reply).sendQueue = t.sendQueue ∧ (t.recvLoop i reply).handed = t.handed := by
  unfold recvLoop
  split
  · exact ⟨rfl,rfl,rfl,rfl,rfl,rfl⟩
  · split
    · split <;> exact ⟨rfl,rfl,rfl,rfl,rfl,rfl⟩
    · exact ⟨rfl,rfl,rfl,rfl,rfl,rfl⟩
  · exact ⟨rfl,rfl,rfl,rfl,rfl,rfl⟩
  · exact ⟨rfl,rfl,rfl,rfl,rfl,rfl⟩

end AsyncTransport
end Rom
