import Rom.AsyncTransport
import Mathlib.Data.List.Perm.Basic

/-!
Threads that send, over every interleaving. Each queued job is in exactly one place:
in the queue, in the hands of a thread, handed to the transport below, or dropped by
`stop`; and each callback is called once, with what became of its job
(`jobs_accounted`). Once `stop` waits, every thread ends after a few steps of its
own, whatever the others do, having handed on at most one more job, and then no job
is left over (`stop_completes`). With one thread that sends, jobs are handed on in
the order in which they were queued (`handed_in_order`). The last two need that
`start` is not called while a `stop` is under way (`Serialised`).
-/
namespace Rom.AsyncRuns
open Rom.Runs AsyncTransport

/-! ### Every job in one place -/

/-- The job that an event queues. -/
def queued : Event → List SendJob
  | .asyncSend job => [job]
  | _ => []

/-- What the transport below returned for a send on the caller's thread. -/
def direct : Event → List Int
  | .sendTo result => [result]
  | _ => []

/-- What is counted as sent, of some results. A result that is not positive is the
    error of a send and adds no bytes. -/
structure Counts (t : AsyncTransport) (results : List Int) : Prop where
  packets : t.packetsSent = UInt64.ofNat (results.countP (0 < ·))
  bytes : t.bytesSent = UInt64.ofNat (results.map Int.toNat).sum

/-- Where the jobs are that were queued, which callbacks were called, and what was
    counted, also for sends on the caller's thread. -/
structure Accounted (t : AsyncTransport) (jobs : List SendJob) (results : List Int) : Prop where
  placed : (t.handed.map Prod.fst ++ t.dropped ++ t.held ++ t.sendQueue).Perm jobs
  called : (t.calls ++ t.unreported.filterMap report).Perm (t.handed.filterMap report ++ t.dropped.filterMap refusal)
  counts : Counts t (t.handed.map Prod.snd ++ results)

/-- Replacing a thread replaces what it has. -/
theorem count_filterMap_set {σ β : Type} [DecidableEq β] {l : List σ} {i : Nat} {old : σ} (found : l[i]? = some old)
    (new : σ) (f : σ → Option β) (x : β) :
    ((l.set i new).filterMap f).count x + (f old).toList.count x = (l.filterMap f).count x + (f new).toList.count x := by
  obtain ⟨inside,rfl⟩ := List.getElem?_eq_some_iff.mp found
  have cons : ∀ (a : σ) (l : List σ), ((a :: l).filterMap f).count x = (f a).toList.count x + (l.filterMap f).count x := by
    intro a l
    cases have_ : f a with
    | none => simp [have_]
    | some b => simp [have_,List.count_cons]; omega
  have after := ((List.set_perm_cons_eraseIdx inside new).filterMap f).count_eq x
  have before := ((List.getElem_cons_eraseIdx_perm inside).filterMap f).count_eq x
  rw [cons] at after before
  omega

section
variable {t : AsyncTransport} {jobs : List SendJob} {results : List Int}

theorem count_held_putSend {i : Nat} {old : SendThread} (found : t.sendThreads[i]? = some old) (new : SendThread)
    (job : SendJob) :
    (t.putSend i new).held.count job + old.held.toList.count job = t.held.count job + new.held.toList.count job :=
  count_filterMap_set found new SendThread.held job

theorem filterMap_unreported (t : AsyncTransport) :
    t.unreported.filterMap report = t.sendThreads.filterMap (fun th => th.unreported.bind report) := by
  rw [unreported,List.filterMap_filterMap]

theorem count_unreported_putSend {i : Nat} {old : SendThread} (found : t.sendThreads[i]? = some old) (new : SendThread)
    (call : SendCall) :
    ((t.putSend i new).unreported.filterMap report).count call + (old.unreported.bind report).toList.count call =
      (t.unreported.filterMap report).count call + (new.unreported.bind report).toList.count call := by
  rw [filterMap_unreported,filterMap_unreported]
  exact count_filterMap_set found new (fun th => th.unreported.bind report) call

/-- A thread without a job goes on without one. -/
theorem Accounted.move (acc : Accounted t jobs results) {i : Nat} {old : SendThread} (found : t.sendThreads[i]? = some old)
    {new : SendThread} (free : old.held = none ∧ old.unreported = none) (free' : new.held = none ∧ new.unreported = none) :
    Accounted (t.putSend i new) jobs results := by
  refine ⟨List.perm_iff_count.mpr fun job => ?_,List.perm_iff_count.mpr fun call => ?_,
    ⟨acc.counts.packets,acc.counts.bytes⟩⟩
  · have placed := acc.placed.count_eq job
    have moved := count_held_putSend found new job
    simp only [free.1,free'.1,Option.toList_none,List.count_nil] at moved
    simp only [List.count_append,putSend_handed,putSend_dropped,putSend_sendQueue] at placed ⊢
    omega
  · have called := acc.called.count_eq call
    have moved := count_unreported_putSend found new call
    simp only [free.2,free'.2,Option.bind_none,Option.toList_none,List.count_nil] at moved
    simp only [List.count_append,putSend_handed,putSend_dropped,putSend_calls] at called ⊢
    omega

/-- A thread takes the first job off the queue. -/
theorem Accounted.take (acc : Accounted t jobs results) {i : Nat} (found : t.sendThreads[i]? = some .waiting)
    {job : SendJob} {rest : List SendJob} (queue : t.sendQueue = job :: rest) :
    Accounted ({ t with sendQueue := rest }.putSend i (.holding job)) jobs results := by
  refine ⟨List.perm_iff_count.mpr fun x => ?_,List.perm_iff_count.mpr fun call => ?_,⟨acc.counts.packets,acc.counts.bytes⟩⟩
  · have placed := acc.placed.count_eq x
    have moved := count_held_putSend (t := { t with sendQueue := rest }) found (.holding job) x
    simp only [SendThread.held,Option.toList_none,Option.toList_some,List.count_nil] at moved
    rw [queue,← List.singleton_append] at placed
    simp only [List.count_append,putSend_handed,putSend_dropped,putSend_sendQueue] at placed ⊢
    change _ = List.count x t.held + _ at moved
    omega
  · have called := acc.called.count_eq call
    have moved := count_unreported_putSend (t := { t with sendQueue := rest }) found (.holding job) call
    simp only [SendThread.unreported,Option.bind_none,Option.toList_none,List.count_nil] at moved
    simp only [List.count_append,putSend_handed,putSend_dropped,putSend_calls] at called ⊢
    change _ = List.count call (t.unreported.filterMap report) + _ at moved
    omega

theorem Counts.countSent (counts : Counts t results) (result : Int) {results' : List Int}
    (more : results'.Perm (results ++ [result])) : Counts (t.countSent result) results' := by
  have packets := more.countP_eq (0 < ·)
  have bytes := (more.map Int.toNat).sum_eq
  rw [List.countP_append,List.countP_singleton] at packets
  rw [List.map_append,List.sum_append,List.map_singleton,List.sum_singleton] at bytes
  by_cases sent : result > 0
  · rw [if_pos (decide_eq_true sent)] at packets
    refine ⟨(if_pos sent).trans ?_,(if_pos sent).trans ?_⟩
    · rw [packets,counts.packets,UInt64.ofNat_add]
      rfl
    · rw [bytes,counts.bytes,UInt64.ofNat_add]
  · rw [if_neg (by simpa using sent),Nat.add_zero] at packets
    rw [Int.toNat_of_nonpos (Int.not_lt.mp sent),Nat.add_zero] at bytes
    exact ⟨(if_neg sent).trans (counts.packets.trans (by rw [packets])),
      (if_neg sent).trans (counts.bytes.trans (by rw [bytes]))⟩

/-- A thread hands its job to the transport below. -/
theorem Accounted.hand (acc : Accounted t jobs results) {i : Nat} {job : SendJob}
    (found : t.sendThreads[i]? = some (.holding job)) (result : Int) :
    Accounted (({ t with handed := t.handed ++ [(job,result)] }.countSent result).putSend i (.reporting job result))
      jobs results := by
  refine ⟨List.perm_iff_count.mpr fun x => ?_,List.perm_iff_count.mpr fun call => ?_,?_⟩
  · have placed := acc.placed.count_eq x
    have moved : (t.putSend i (.reporting job result)).held.count x + [job].count x = t.held.count x + 0 :=
      count_held_putSend found (.reporting job result) x
    show List.count x ((t.handed ++ [(job,result)]).map Prod.fst ++ t.dropped ++
      (t.putSend i (.reporting job result)).held ++
      t.sendQueue) = _
    simp only [List.map_append,List.map_singleton,List.count_append] at placed ⊢
    omega
  · have called := acc.called.count_eq call
    have moved : ((t.putSend i (.reporting job result)).unreported.filterMap report).count call + 0 =
        (t.unreported.filterMap report).count call + (report (job,result)).toList.count call :=
      count_unreported_putSend found (.reporting job result) call
    have last : [(job,result)].filterMap report = (report (job,result)).toList := by
      rw [List.filterMap_eq_flatMap_toList,List.flatMap_singleton]
    show List.count call (t.calls ++ (t.putSend i (.reporting job result)).unreported.filterMap report) =
      List.count call ((t.handed ++ [(job,result)]).filterMap report ++ t.dropped.filterMap refusal)
    rw [List.filterMap_append,last]
    simp only [List.count_append] at called ⊢
    omega
  · have counts : Counts { t with handed := t.handed ++ [(job,result)] } (t.handed.map Prod.snd ++ results) :=
      ⟨acc.counts.packets,acc.counts.bytes⟩
    have more : ((t.handed ++ [(job,result)]).map Prod.snd ++ results).Perm
        (t.handed.map Prod.snd ++ results ++ [result]) := by
      rw [List.map_append,List.append_assoc,List.append_assoc]
      exact (@List.perm_append_comm _ [result] _).append_left _
    exact ⟨(counts.countSent result more).packets,(counts.countSent result more).bytes⟩

/-- A thread calls the callback of its job. -/
theorem Accounted.tell (acc : Accounted t jobs results) {i : Nat} {job : SendJob} {result : Int}
    (found : t.sendThreads[i]? = some (.reporting job result)) :
    Accounted ({ t with calls := t.calls ++ (report (job,result)).toList }.putSend i .testing) jobs results := by
  refine ⟨List.perm_iff_count.mpr fun x => ?_,List.perm_iff_count.mpr fun call => ?_,⟨acc.counts.packets,acc.counts.bytes⟩⟩
  · have placed := acc.placed.count_eq x
    have moved : (t.putSend i .testing).held.count x + 0 = t.held.count x + 0 := count_held_putSend found .testing x
    show List.count x (t.handed.map Prod.fst ++ t.dropped ++ (t.putSend i .testing).held ++ t.sendQueue) = _
    simp only [List.count_append] at placed ⊢
    omega
  · have called := acc.called.count_eq call
    have moved : ((t.putSend i .testing).unreported.filterMap report).count call + (report (job,result)).toList.count call =
        (t.unreported.filterMap report).count call + 0 := count_unreported_putSend found .testing call
    show List.count call (t.calls ++ (report (job,result)).toList ++ (t.putSend i .testing).unreported.filterMap report) =
      List.count call (t.handed.filterMap report ++ t.dropped.filterMap refusal)
    simp only [List.count_append] at called ⊢
    omega

theorem Accounted.sendLoop (acc : Accounted t jobs results) (i : Nat) (result : Int) :
    Accounted (t.sendLoop i result) jobs results := by
  rcases sendLoop_cases t i result with
    ⟨same,_⟩ | ⟨old,new,found,same,goes⟩ | ⟨job,rest,found,queue,same⟩ | ⟨job,found,same⟩ | ⟨job,returned,found,same⟩
  · rwa [same]
  · rw [same]
    rcases goes with ⟨rfl,rfl⟩ | ⟨rfl,_,rfl⟩
    · refine acc.move found ⟨rfl,rfl⟩ ?_
      split <;> exact ⟨rfl,rfl⟩
    · refine acc.move found ⟨rfl,rfl⟩ ?_
      split <;> exact ⟨rfl,rfl⟩
  · rw [same]
    exact acc.take found queue
  · rw [same]
    exact acc.hand found result
  · rw [same]
    exact acc.tell found

/-- Threads that have ended have no jobs. -/
theorem filterMap_ended {β : Type} (ended : ∀ th ∈ t.sendThreads, th = .ended) (f : SendThread → Option β)
    (none : f .ended = none) : t.sendThreads.filterMap f = [] := by
  rw [List.filterMap_eq_nil_iff]
  intro th member
  rw [ended th member,none]

theorem Accounted.join (acc : Accounted t jobs results) : Accounted t.join jobs results := by
  rw [AsyncTransport.join]
  split
  · next done =>
    have held : t.held = [] := filterMap_ended done.2.2 SendThread.held rfl
    have unreported : t.unreported = [] := filterMap_ended done.2.2 SendThread.unreported rfl
    refine ⟨?_,?_,⟨acc.counts.packets,acc.counts.bytes⟩⟩
    · have placed := acc.placed
      rw [held,List.append_nil] at placed
      show (t.handed.map Prod.fst ++ (t.dropped ++ t.sendQueue) ++ [] ++ []).Perm jobs
      rwa [List.append_nil,List.append_nil,← List.append_assoc]
    · have called := acc.called
      rw [unreported,List.filterMap_nil,List.append_nil] at called
      show (t.calls ++ t.sendQueue.filterMap refusal ++ []).Perm
        (t.handed.filterMap report ++ (t.dropped ++ t.sendQueue).filterMap refusal)
      rw [List.append_nil,List.filterMap_append,← List.append_assoc]
      exact called.append_right _
  · exact acc

/-- New threads have no jobs. -/
theorem Accounted.start (acc : Accounted t jobs results) : Accounted t.start jobs results := by
  rw [AsyncTransport.start]
  split
  · exact acc
  · have new : ∀ {β : Type} (f : SendThread → Option β), f .testing = none →
        (t.sendThreads ++ List.replicate t.senders SendThread.testing).filterMap f = t.sendThreads.filterMap f := by
      intro β f none
      rw [List.filterMap_append,List.filterMap_replicate,none]
      exact List.append_nil _
    refine ⟨?_,?_,⟨acc.counts.packets,acc.counts.bytes⟩⟩
    · show (t.handed.map Prod.fst ++ t.dropped ++ List.filterMap _ (t.sendThreads ++ _) ++ t.sendQueue).Perm jobs
      rw [new SendThread.held rfl]
      exact acc.placed
    · show (t.calls ++ (List.filterMap _ (t.sendThreads ++ _)).filterMap report).Perm _
      rw [new SendThread.unreported rfl]
      exact acc.called

theorem Accounted.recvLoop (acc : Accounted t jobs results) (i : Nat) (reply : Option (Bytes × Endpoint)) :
    Accounted (t.recvLoop i reply) jobs results := by
  unfold AsyncTransport.recvLoop
  split
  · exact ⟨acc.placed,acc.called,⟨acc.counts.packets,acc.counts.bytes⟩⟩
  · split
    · split <;> exact ⟨acc.placed,acc.called,⟨acc.counts.packets,acc.counts.bytes⟩⟩
    · exact ⟨acc.placed,acc.called,⟨acc.counts.packets,acc.counts.bytes⟩⟩
  · exact acc
  · exact acc

/-- An event that queues and sends nothing. -/
theorem Accounted.quiet (acc : Accounted t jobs results) : Accounted t (jobs ++ []) (results ++ []) := by
  rwa [List.append_nil,List.append_nil]

/-- No step loses a job or a call, or makes one twice. -/
theorem accounted_step (acc : Accounted t jobs results) (e : Event) :
    Accounted (step t e) (jobs ++ queued e) (results ++ direct e) := by
  cases e with
  | start => exact acc.start.quiet
  | stop =>
    refine Accounted.quiet ?_
    show Accounted t.stop jobs results
    rw [AsyncTransport.stop]
    split
    · exact ⟨acc.placed,acc.called,⟨acc.counts.packets,acc.counts.bytes⟩⟩
    · exact acc
  | join => exact acc.join.quiet
  | asyncSend job =>
    refine ⟨?_,acc.called,?_⟩
    · show (t.handed.map Prod.fst ++ t.dropped ++ t.held ++ (t.sendQueue ++ [job])).Perm (jobs ++ [job])
      rw [← List.append_assoc]
      exact acc.placed.append_right _
    · show Counts _ (t.handed.map Prod.snd ++ (results ++ []))
      rw [List.append_nil]
      exact ⟨acc.counts.packets,acc.counts.bytes⟩
  | sendTo result =>
    have more : (t.handed.map Prod.snd ++ (results ++ [result])).Perm (t.handed.map Prod.snd ++ results ++ [result]) := by
      rw [List.append_assoc]
    refine ⟨?_,acc.called,acc.counts.countSent result more⟩
    show List.Perm _ (jobs ++ [])
    rw [List.append_nil]
    exact acc.placed
  | sendLoop i result => exact (acc.sendLoop i result).quiet
  | recvLoop i reply => exact (acc.recvLoop i reply).quiet

theorem accounted_run (acc : Accounted t jobs results) (es : List Event) :
    Accounted (run step t es) (jobs ++ es.flatMap queued) (results ++ es.flatMap direct) := by
  induction es generalizing t jobs results with
  | nil => exact acc.quiet
  | cons e es ih =>
    have rest := ih (accounted_step acc e)
    rwa [List.append_assoc,List.append_assoc] at rest

end

theorem accounted_new (numThreads : Nat) (handles : Bool) : Accounted (AsyncTransport.new numThreads handles) [] [] :=
  ⟨List.Perm.refl _,List.Perm.refl _,⟨rfl,rfl⟩⟩

/-- Whatever the threads do and in whatever order, every job is in one place, every
    callback is called once with what became of its job, and what was sent is
    counted. -/
theorem jobs_accounted (numThreads : Nat) (handles : Bool) (es : List Event) :
    Accounted (run step (AsyncTransport.new numThreads handles) es) (es.flatMap queued) (es.flatMap direct) :=
  accounted_run (accounted_new numThreads handles) es

/-! ### Stopping -/

/-- The steps that a thread of the send loop has left once `running_` is not set. -/
def sendLeft : SendThread → Nat
  | .testing => 1
  | .waiting => 4
  | .holding _ => 3
  | .reporting _ _ => 2
  | .ended => 0

def recvLeft : RecvThread → Nat
  | .testing => 1
  | .receiving => 2
  | .ended => 0

/-- Whether an event is a step of this thread of the send loop. -/
def ofSender (i : Nat) : Event → Bool
  | .sendLoop j _ => j == i
  | _ => false

def ofReceiver (i : Nat) : Event → Bool
  | .recvLoop j _ => j == i
  | _ => false

/-- `start` is not called while `stop` waits for the threads. -/
def Serialised (t : AsyncTransport) (e : Event) : Prop := e = .start → t.joining = false

instance (t : AsyncTransport) (e : Event) : Decidable (Serialised t e) :=
  inferInstanceAs (Decidable (e = .start → t.joining = false))

/-- `stop` waits for the threads. -/
def Waits (t : AsyncTransport) : Prop := t.joining = true ∧ t.running = false

/-- A thread that may still hand on a job. -/
def mayHand : SendThread → Bool
  | .waiting => true
  | .holding _ => true
  | _ => false

/-- The steps that the threads at a position have left. -/
def sendAt (t : AsyncTransport) (i : Nat) : Nat := (t.sendThreads[i]?.map sendLeft).getD 0
def recvAt (t : AsyncTransport) (i : Nat) : Nat := (t.recvThreads[i]?.map recvLeft).getD 0

/-- From one state to another in which `stop` still waits, threads come closer to
    their end by their own steps, and what they hand on they were about to. -/
structure Closer (t t' : AsyncTransport) (es : List Event) : Prop where
  waits : Waits t'
  senders : t'.sendThreads.length = t.sendThreads.length
  receivers : t'.recvThreads.length = t.recvThreads.length
  sends : ∀ i, sendAt t' i ≤ sendAt t i - es.countP (ofSender i)
  receives : ∀ i, recvAt t' i ≤ recvAt t i - es.countP (ofReceiver i)
  handed : t'.handed.length + t'.sendThreads.countP mayHand ≤ t.handed.length + t.sendThreads.countP mayHand

section
variable {t t' : AsyncTransport}

theorem Closer.still (waits : Waits t') (senders : t'.sendThreads = t.sendThreads)
    (receivers : t'.recvThreads = t.recvThreads)
    (handed : t'.handed = t.handed) {e : Event} (notSend : ∀ i, ofSender i e = true → sendAt t i = 0)
    (notReceive : ∀ i, ofReceiver i e = true → recvAt t i = 0) : Closer t t' [e] := by
  refine ⟨waits,by rw [senders],by rw [receivers],fun i => ?_,fun i => ?_,by rw [senders,handed]⟩
  · have same : sendAt t' i = sendAt t i := by rw [sendAt,sendAt,senders]
    cases own : ofSender i e with
    | true =>
      rw [same,notSend i own]
      exact Nat.zero_le _
    | false => rw [List.countP_singleton,own,same]; exact le_refl _
  · have same : recvAt t' i = recvAt t i := by rw [recvAt,recvAt,receivers]
    cases own : ofReceiver i e with
    | true =>
      rw [same,notReceive i own]
      exact Nat.zero_le _
    | false => rw [List.countP_singleton,own,same]; exact le_refl _

theorem getD_set {σ : Type} {l : List σ} {i : Nat} {old new : σ} (found : l[i]? = some old) (left : σ → Nat) (j : Nat) :
    ((l.set i new)[j]?.map left).getD 0 = if i = j then left new else (l[j]?.map left).getD 0 := by
  obtain ⟨inside,_⟩ := List.getElem?_eq_some_iff.mp found
  rw [List.getElem?_set]
  by_cases same : i = j
  · simp [same,same ▸ inside]
  · simp [same]

/-- A thread of the send loop takes a step that brings it closer to its end. -/
theorem Closer.send (waits : Waits t') {i : Nat} {result : Int} {old new : SendThread}
    (found : t.sendThreads[i]? = some old)
    (senders : t'.sendThreads = t.sendThreads.set i new) (receivers : t'.recvThreads = t.recvThreads)
    (fewer : sendLeft new < sendLeft old)
    (handed : t'.handed.length + (if mayHand new then 1 else 0) ≤ t.handed.length + if mayHand old then 1 else 0) :
    Closer t t' [.sendLoop i result] := by
  obtain ⟨inside,here⟩ := List.getElem?_eq_some_iff.mp found
  refine ⟨waits,by rw [senders,List.length_set],by rw [receivers],fun j => ?_,fun j => ?_,?_⟩
  · rw [sendAt,senders,getD_set found,List.countP_singleton]
    by_cases own : i = j
    · subst own
      rw [if_pos rfl,sendAt,found]
      simp only [ofSender,beq_self_eq_true,if_true,Option.map_some,Option.getD_some]
      omega
    · rw [if_neg own]
      simp [ofSender,own,sendAt]
  · rw [recvAt,recvAt,receivers]
    exact le_refl _
  · have after := (List.set_perm_cons_eraseIdx inside new).countP_eq mayHand
    have before := (List.getElem_cons_eraseIdx_perm inside).countP_eq mayHand
    rw [here] at before
    rw [List.countP_cons] at after before
    rw [senders]
    omega

/-- The step of a thread that has ended, or that is not there. -/
theorem Closer.sendNothing (waits : Waits t) {i : Nat} {result : Int} (nothing : sendAt t i = 0) :
    Closer t t [.sendLoop i result] := by
  refine Closer.still waits rfl rfl rfl (fun j own => ?_) (fun j own => by cases own)
  rw [← beq_iff_eq.mp own]
  exact nothing

theorem closer_sendLoop (waits : Waits t) (i : Nat) (result : Int) :
    Closer t (t.sendLoop i result) [.sendLoop i result] := by
  obtain ⟨running,joining,_⟩ := sendLoop_settings t i result
  have still : Waits (t.sendLoop i result) := ⟨joining.trans waits.1,running.trans waits.2⟩
  rcases sendLoop_cases t i result with
    ⟨same,ended⟩ | ⟨old,new,found,same,goes⟩ | ⟨job,rest,found,_,same⟩ | ⟨job,found,same⟩ | ⟨job,returned,found,same⟩
  · rw [same]
    refine Closer.sendNothing waits ?_
    rw [sendAt]
    cases found : t.sendThreads[i]? with
    | none => rfl
    | some th =>
      rw [ended th found]
      rfl
  · rw [same] at still ⊢
    rcases goes with ⟨rfl,rfl⟩ | ⟨rfl,_,rfl⟩
    · exact Closer.send still found rfl rfl (by simp [waits.2,sendLeft]) (by simp [waits.2,mayHand])
    · exact Closer.send still found rfl rfl (by simp [waits.2,sendLeft]) (by simp [waits.2,mayHand])
  · rw [same] at still ⊢
    exact Closer.send still found rfl rfl (Nat.lt_succ_self 3) (le_refl _)
  · rw [same] at still ⊢
    refine Closer.send still found rfl rfl (Nat.lt_succ_self 2) ?_
    show (t.handed ++ [(job,result)]).length + 0 ≤ t.handed.length + 1
    rw [List.length_append]
    exact le_refl _
  · rw [same] at still ⊢
    exact Closer.send still found rfl rfl (Nat.lt_succ_self 1) (le_refl _)

/-- A thread of the receive loop takes a step that brings it closer to its end. -/
theorem Closer.receive (waits : Waits t') {i : Nat} {reply : Option (Bytes × Endpoint)} {old new : RecvThread}
    (found : t.recvThreads[i]? = some old) (senders : t'.sendThreads = t.sendThreads)
    (receivers : t'.recvThreads = t.recvThreads.set i new) (fewer : recvLeft new < recvLeft old)
    (handed : t'.handed = t.handed) : Closer t t' [.recvLoop i reply] := by
  refine ⟨waits,by rw [senders],by rw [receivers,List.length_set],fun j => ?_,fun j => ?_,by rw [senders,handed]⟩
  · rw [sendAt,sendAt,senders]
    exact le_refl _
  · rw [recvAt,receivers,getD_set found,List.countP_singleton]
    by_cases own : i = j
    · subst own
      rw [if_pos rfl,recvAt,found]
      simp only [ofReceiver,beq_self_eq_true,if_true,Option.map_some,Option.getD_some]
      omega
    · rw [if_neg own]
      simp [ofReceiver,own,recvAt]

theorem Closer.receiveNothing (waits : Waits t) {i : Nat} {reply : Option (Bytes × Endpoint)} (nothing : recvAt t i = 0) :
    Closer t t [.recvLoop i reply] := by
  refine Closer.still waits rfl rfl rfl (fun j own => by cases own) (fun j own => ?_)
  rw [← beq_iff_eq.mp own]
  exact nothing

theorem closer_recvLoop (waits : Waits t) (i : Nat) (reply : Option (Bytes × Endpoint)) :
    Closer t (t.recvLoop i reply) [.recvLoop i reply] := by
  unfold AsyncTransport.recvLoop
  cases found : t.recvThreads[i]? with
  | none => exact Closer.receiveNothing waits (by rw [recvAt,found]; rfl)
  | some th =>
    cases th with
    | testing =>
      refine Closer.receive ?_ found rfl rfl ?_ rfl
      · exact waits
      · simp [waits.2,recvLeft]
    | receiving =>
      have fewer : recvLeft .testing < recvLeft .receiving := by decide
      have closer (t' : AsyncTransport) (still : Waits t') (senders : t'.sendThreads = t.sendThreads)
          (receivers : t'.recvThreads = t.recvThreads.set i .testing) (handed : t'.handed = t.handed) :
          Closer t t' [.recvLoop i reply] := Closer.receive still found senders receivers fewer handed
      cases reply with
      | none => exact closer _ waits rfl rfl rfl
      | some packet =>
        dsimp only
        split
        · exact closer _ waits rfl rfl rfl
        · exact closer _ waits rfl rfl rfl
    | ended => exact Closer.receiveNothing waits (by rw [recvAt,found]; rfl)

/-- As long as `stop` waits, every step leaves it waiting and no thread farther from
    its end. -/
theorem closer_step (waits : Waits t) {e : Event} (serialised : Serialised t e) (notJoin : e ≠ .join) :
    Closer t (step t e) [e] := by
  have aside (t' : AsyncTransport) (still : Waits t') (senders : t'.sendThreads = t.sendThreads)
      (receivers : t'.recvThreads = t.recvThreads) (handed : t'.handed = t.handed)
      (other : ∀ i, ofSender i e = false ∧ ofReceiver i e = false) : Closer t t' [e] :=
    Closer.still still senders receivers handed (fun i own => absurd (own.symm.trans (other i).1) Bool.noConfusion)
      (fun i own => absurd (own.symm.trans (other i).2) Bool.noConfusion)
  cases e with
  | start => exact absurd (waits.1.symm.trans (serialised rfl)) Bool.noConfusion
  | stop =>
    have same : step t .stop = t := by rw [step,AsyncTransport.stop,waits.2,if_neg Bool.false_ne_true]
    exact aside _ (by rwa [same]) (by rw [same]) (by rw [same]) (by rw [same]) (fun _ => ⟨rfl,rfl⟩)
  | join => exact absurd rfl notJoin
  | asyncSend job => exact aside (t.asyncSend job) waits rfl rfl rfl (fun _ => ⟨rfl,rfl⟩)
  | sendTo result => exact aside (t.sendTo result) waits rfl rfl rfl (fun _ => ⟨rfl,rfl⟩)
  | sendLoop i result => exact closer_sendLoop waits i result
  | recvLoop i reply => exact closer_recvLoop waits i reply

theorem closer_run (waits : Waits t) {fs : List Event} (serialised : Along step Serialised t fs) (noJoin : .join ∉ fs) :
    Closer t (run step t fs) fs := by
  induction fs generalizing t with
  | nil => exact ⟨waits,rfl,rfl,fun _ => le_refl _,fun _ => le_refl _,le_refl _⟩
  | cons e fs ih =>
    have first : Closer t (step t e) [e] := closer_step waits serialised.1 (fun same => noJoin (same ▸ List.mem_cons_self))
    have rest := ih first.waits serialised.2 (fun member => noJoin (List.mem_cons_of_mem _ member))
    refine ⟨rest.waits,rest.senders.trans first.senders,rest.receivers.trans first.receivers,fun i => ?_,fun i => ?_,
      rest.handed.trans first.handed⟩
    · have here := first.sends i
      have later := rest.sends i
      rw [List.countP_singleton] at here
      rw [List.countP_cons,run_cons]
      omega
    · have here := first.receives i
      have later := rest.receives i
      rw [List.countP_singleton] at here
      rw [List.countP_cons,run_cons]
      omega

/-- Threads with no steps left have ended. -/
theorem Closer.allEnded {fs : List Event} (closer : Closer t t' fs)
    (sends : ∀ i < t.sendThreads.length, 4 ≤ fs.countP (ofSender i))
    (receives : ∀ i < t.recvThreads.length, 2 ≤ fs.countP (ofReceiver i)) : t'.AllEnded := by
  constructor
  · intro th member
    obtain ⟨i,inside,here⟩ := List.mem_iff_getElem.mp member
    have few : recvAt t i ≤ 2 := by
      rw [recvAt]
      cases t.recvThreads[i]? with
      | none => exact Nat.zero_le _
      | some th => cases th <;> simp [recvLeft]
    have left : recvAt t' i = recvLeft th := by rw [recvAt,List.getElem?_eq_getElem inside,here]; rfl
    have none := closer.receives i
    have enough := receives i (closer.receivers ▸ inside)
    cases th with
    | ended => rfl
    | testing => simp only [left,recvLeft] at none; omega
    | receiving => simp only [left,recvLeft] at none; omega
  · intro th member
    obtain ⟨i,inside,here⟩ := List.mem_iff_getElem.mp member
    have few : sendAt t i ≤ 4 := by
      rw [sendAt]
      cases t.sendThreads[i]? with
      | none => exact Nat.zero_le _
      | some th => cases th <;> simp [sendLeft]
    have left : sendAt t' i = sendLeft th := by rw [sendAt,List.getElem?_eq_getElem inside,here]; rfl
    have none := closer.sends i
    have enough := sends i (closer.senders ▸ inside)
    cases th with
    | ended => rfl
    | _ => simp only [left,sendLeft] at none; omega

/-- While `stop` waits nothing runs. -/
theorem joining_step (stopped : t.joining = true → t.running = false) {e : Event} (serialised : Serialised t e) :
    (step t e).joining = true → (step t e).running = false := by
  cases e with
  | start =>
    rw [step,AsyncTransport.start]
    split
    · exact stopped
    · intro joining
      exact absurd ((show t.joining = true from joining).symm.trans (serialised rfl)) Bool.noConfusion
  | stop =>
    rw [step,AsyncTransport.stop]
    split
    · exact fun _ => rfl
    · exact stopped
  | join =>
    rw [step,AsyncTransport.join]
    split
    · intro joining
      cases joining
    · exact stopped
  | asyncSend job => exact stopped
  | sendTo result => exact stopped
  | sendLoop i result =>
    obtain ⟨running,joining,_⟩ := sendLoop_settings t i result
    rw [step,running,joining]
    exact stopped
  | recvLoop i reply =>
    obtain ⟨running,joining,_⟩ := recvLoop_settings t i reply
    rw [step,running,joining]
    exact stopped

theorem join_of_allEnded (waits : Waits t) (ended : t.AllEnded) :
    t.join =
      { t with
        joining := false
        recvThreads := []
        sendThreads := []
        sendQueue := []
        dropped := t.dropped ++ t.sendQueue
        calls := t.calls ++ t.sendQueue.filterMap refusal } := if_pos ⟨waits.1,ended⟩

end

/-- From whatever point `stop` waits, four steps of each thread of the send loop and
    two of the receive loop are enough for it to return, whatever happens in between
    but a `start`. It leaves no thread and no job; all jobs queued until then were handed on or
    dropped, and all their callbacks called. At most one more job for each thread was
    handed on. -/
theorem stop_completes (numThreads : Nat) (handles : Bool) (es fs : List Event)
    (serialised : Along step Serialised (AsyncTransport.new numThreads handles) (es ++ fs))
    (waits : (run step (AsyncTransport.new numThreads handles) es).joining = true) (noJoin : .join ∉ fs)
    (sends : ∀ i < (run step (AsyncTransport.new numThreads handles) es).sendThreads.length, 4 ≤ fs.countP (ofSender i))
    (receives : ∀ i < (run step (AsyncTransport.new numThreads handles) es).recvThreads.length,
      2 ≤ fs.countP (ofReceiver i)) :
    let before := run step (AsyncTransport.new numThreads handles) es
    let after := run step (AsyncTransport.new numThreads handles) (es ++ fs ++ [.join])
    (after.running = false ∧ after.joining = false ∧ after.sendThreads = [] ∧ after.recvThreads = [] ∧
        after.sendQueue = []) ∧
      (after.handed.map Prod.fst ++ after.dropped).Perm ((es ++ fs).flatMap queued) ∧
      after.calls.Perm (after.handed.filterMap report ++ after.dropped.filterMap refusal) ∧
      after.handed.length ≤ before.handed.length + before.sendThreads.length := by
  intro before after
  obtain ⟨early,late⟩ := (along_append fs).mp serialised
  have stopped : before.running = false :=
    early.run_invariant (I := fun t : AsyncTransport => t.joining = true → t.running = false)
      (fun t e stopped serialised => joining_step stopped serialised) (fun joining => by cases joining) waits
  have closer : Closer before (run step before fs) fs := closer_run ⟨waits,stopped⟩ late noJoin
  have joined : after = (run step before fs).join := by
    show run step _ (es ++ fs ++ [.join]) = _
    rw [run_append,run_append]
    rfl
  rw [join_of_allEnded closer.waits (closer.allEnded sends receives)] at joined
  have acc := accounted_run (accounted_new numThreads handles) (es ++ fs ++ [.join])
  rw [List.flatMap_append,show [Event.join].flatMap queued = [] from rfl,List.append_nil] at acc
  have queue : after.sendQueue = [] := by rw [joined]
  have threads : after.sendThreads = [] := by rw [joined]
  refine ⟨⟨?_,?_,threads,?_,queue⟩,?_,?_,?_⟩
  · rw [joined]
    exact closer.waits.2
  · rw [joined]
  · rw [joined]
  · have placed := acc.placed
    rwa [queue,held,threads,List.filterMap_nil,List.append_nil,List.append_nil] at placed
  · have called := acc.called
    rwa [unreported,threads,List.filterMap_nil,List.filterMap_nil,List.append_nil] at called
  · have handed := closer.handed
    have few : before.sendThreads.countP mayHand ≤ before.sendThreads.length := List.countP_le_length
    have same : after.handed = (run step before fs).handed := by rw [joined]
    rw [same]
    omega

/-- A job to nowhere. -/
def anyJob (callback : Nat) : SendJob := ⟨[1],⟨[],7⟩,some callback⟩

/-- Two threads; the one that sends is before the queue when `stop` begins. -/
def stopping : List Event :=
  [.start,.asyncSend (anyJob 1),.asyncSend (anyJob 2),.sendLoop 0 0,.recvLoop 0 none,.stop]

/-- The rest of its way, with a job queued meanwhile. -/
def ending : List Event :=
  [.sendLoop 0 0,.asyncSend (anyJob 3),.recvLoop 0 (some ([5],⟨[],9⟩)),.sendLoop 0 1,.sendLoop 0 0,.recvLoop 0 none,
    .sendLoop 0 0]

/-- The first job is handed on and the other two are dropped, each with its call. -/
theorem stop_completes_two_threads :
    (run step (AsyncTransport.new 2 true) (stopping ++ ending ++ [.join])).calls = [⟨1,1,0⟩,⟨2,-1,-1⟩,⟨3,-1,-1⟩] ∧
      (run step (AsyncTransport.new 2 true) (stopping ++ ending ++ [.join])).sendThreads = [] :=
  ⟨by decide,(stop_completes 2 true stopping ending (by decide) (by decide) (by decide) (by decide) (by decide)).1.2.2.1⟩

/-! ### Order -/

/-- One thread that sends has handed on jobs in the order of the queue. -/
structure InOrder (t : AsyncTransport) (jobs : List SendJob) : Prop where
  few : t.numThreads ≤ 2
  idle : t.running = false → t.joining = false → t.sendThreads = []
  one : t.sendThreads.length ≤ 1
  order : ∃ gone, gone ++ t.sendQueue = jobs ∧ (t.handed.map Prod.fst ++ t.held).Sublist gone

section
variable {t : AsyncTransport} {jobs : List SendJob}

/-- A thread that is found is the only one. -/
theorem InOrder.only (inOrder : InOrder t jobs) {i : Nat} {th : SendThread} (found : t.sendThreads[i]? = some th) :
    i = 0 ∧ t.sendThreads = [th] := by
  obtain ⟨inside,here⟩ := List.getElem?_eq_some_iff.mp found
  have one := inOrder.one
  cases threads : t.sendThreads with
  | nil =>
    rw [threads] at inside
    cases inside
  | cons first rest =>
    rw [threads,List.length_cons] at one
    obtain rfl : rest = [] := List.length_eq_zero_iff.mp (by omega)
    obtain rfl : i = 0 := by
      rw [threads,List.length_singleton] at inside
      omega
    rw [threads] at found
    cases found
    exact ⟨rfl,rfl⟩

theorem InOrder.sendLoop (inOrder : InOrder t jobs) (i : Nat) (result : Int) : InOrder (t.sendLoop i result) jobs := by
  obtain ⟨running,joining,numThreads,size⟩ := sendLoop_settings t i result
  refine ⟨numThreads ▸ inOrder.few,?_,size ▸ inOrder.one,?_⟩
  · rw [running,joining]
    intro stopped idle
    exact List.length_eq_zero_iff.mp (size.trans (List.length_eq_zero_iff.mpr (inOrder.idle stopped idle)))
  obtain ⟨gone,queued,ordered⟩ := inOrder.order
  -- the jobs in the hands of the one thread, before and after it moves on
  have before {th : SendThread} (found : t.sendThreads[i]? = some th) : t.held = th.held.toList := by
    rw [AsyncTransport.held,(inOrder.only found).2]
    cases th <;> rfl
  have after {th : SendThread} (found : t.sendThreads[i]? = some th) (new : SendThread) :
      (t.sendThreads.set i new).filterMap SendThread.held = new.held.toList := by
    obtain ⟨rfl,threads⟩ := inOrder.only found
    rw [threads]
    cases new <;> rfl
  rcases sendLoop_cases t i result with
    ⟨same,_⟩ | ⟨old,new,found,same,goes⟩ | ⟨job,rest,found,queue,same⟩ | ⟨job,found,same⟩ | ⟨job,returned,found,same⟩
  · rw [same]
    exact ⟨gone,queued,ordered⟩
  · have free : old.held = none ∧ new.held = none := by
      rcases goes with ⟨rfl,rfl⟩ | ⟨rfl,_,rfl⟩
      · exact ⟨rfl,by split <;> rfl⟩
      · exact ⟨rfl,by split <;> rfl⟩
    rw [same]
    refine ⟨gone,queued,?_⟩
    show (t.handed.map Prod.fst ++ (t.sendThreads.set i new).filterMap SendThread.held).Sublist gone
    rwa [after found,free.2,← free.1,← before found]
  · rw [same]
    refine ⟨gone ++ [job],?_,?_⟩
    · rw [← queued,queue,List.append_assoc]
      rfl
    · show (t.handed.map Prod.fst ++ (t.sendThreads.set i (.holding job)).filterMap SendThread.held).Sublist _
      rw [after found]
      rw [show t.held = [] from before found,List.append_nil] at ordered
      exact ordered.append (List.Sublist.refl [job])
  · rw [same]
    refine ⟨gone,queued,?_⟩
    show ((t.handed ++ [(job,result)]).map Prod.fst ++
      (t.sendThreads.set i (.reporting job result)).filterMap SendThread.held).Sublist gone
    rw [after found,List.map_append]
    rw [before found] at ordered
    exact (List.append_nil _).symm ▸ ordered
  · rw [same]
    refine ⟨gone,queued,?_⟩
    show (t.handed.map Prod.fst ++ (t.sendThreads.set i .testing).filterMap SendThread.held).Sublist gone
    rw [after found]
    rwa [before found] at ordered

theorem InOrder.start (inOrder : InOrder t jobs) (settled : t.joining = false) : InOrder t.start jobs := by
  obtain ⟨gone,queue,ordered⟩ := inOrder.order
  rw [AsyncTransport.start]
  split
  · exact inOrder
  · next idle =>
    have none := inOrder.idle (Bool.not_eq_true _ ▸ idle) settled
    have held : t.held = [] := by rw [AsyncTransport.held,none]; rfl
    have senders : t.senders ≤ 1 := by
      have few := inOrder.few
      rw [AsyncTransport.senders]
      split <;> omega
    refine ⟨inOrder.few,fun running => (by cases running),?_,gone,queue,?_⟩
    · show (t.sendThreads ++ List.replicate t.senders SendThread.testing).length ≤ 1
      rw [none,List.nil_append,List.length_replicate]
      exact senders
    · show (t.handed.map Prod.fst ++
        (t.sendThreads ++ List.replicate t.senders SendThread.testing).filterMap SendThread.held).Sublist gone
      rw [none,List.nil_append,List.filterMap_replicate]
      rwa [held] at ordered

/-- What is left in the queue is dropped. -/
theorem InOrder.join (inOrder : InOrder t jobs) : InOrder t.join jobs := by
  obtain ⟨gone,queue,ordered⟩ := inOrder.order
  rw [AsyncTransport.join]
  split
  · refine ⟨inOrder.few,fun _ _ => rfl,Nat.zero_le _,gone ++ t.sendQueue,by rw [queue]; exact List.append_nil _,?_⟩
    show (t.handed.map Prod.fst ++ []).Sublist _
    rw [List.append_nil]
    exact ((List.sublist_append_left _ _).trans ordered).trans (List.sublist_append_left _ _)
  · exact inOrder

theorem InOrder.recvLoop (inOrder : InOrder t jobs) (i : Nat) (reply : Option (Bytes × Endpoint)) :
    InOrder (t.recvLoop i reply) jobs := by
  obtain ⟨gone,queue,ordered⟩ := inOrder.order
  obtain ⟨running,joining,numThreads,threads,queue',handed⟩ := recvLoop_settings t i reply
  refine ⟨numThreads ▸ inOrder.few,?_,?_,gone,?_,?_⟩
  · rw [running,joining,threads]
    exact inOrder.idle
  · rw [threads]
    exact inOrder.one
  · rw [queue',queue]
  · rwa [handed,AsyncTransport.held,threads]

theorem inOrder_step (inOrder : InOrder t jobs) {e : Event} (serialised : Serialised t e) :
    InOrder (step t e) (jobs ++ queued e) := by
  obtain ⟨gone,queue,ordered⟩ := inOrder.order
  have quiet {t' : AsyncTransport} (inOrder : InOrder t' jobs) : InOrder t' (jobs ++ []) := by rwa [List.append_nil]
  cases e with
  | start => exact quiet (inOrder.start (serialised rfl))
  | stop =>
    refine quiet ?_
    rw [step,AsyncTransport.stop]
    split
    · exact ⟨inOrder.few,fun _ joining => (by cases joining),inOrder.one,gone,queue,ordered⟩
    · exact inOrder
  | join => exact quiet inOrder.join
  | asyncSend job =>
    refine ⟨inOrder.few,inOrder.idle,inOrder.one,gone,?_,ordered⟩
    show gone ++ (t.sendQueue ++ [job]) = jobs ++ [job]
    rw [← List.append_assoc,queue]
  | sendTo result => exact quiet ⟨inOrder.few,inOrder.idle,inOrder.one,gone,queue,ordered⟩
  | sendLoop i result => exact quiet (inOrder.sendLoop i result)
  | recvLoop i reply => exact quiet (inOrder.recvLoop i reply)

theorem inOrder_run (inOrder : InOrder t jobs) {es : List Event} (serialised : Along step Serialised t es) :
    InOrder (run step t es) (jobs ++ es.flatMap queued) := by
  induction es generalizing t jobs with
  | nil => rwa [List.flatMap_nil,List.append_nil]
  | cons e es ih =>
    have rest := ih (inOrder_step inOrder serialised.1) serialised.2
    rwa [List.append_assoc] at rest

end

/-- With at most two threads one of them sends, and the transport below is handed jobs
    in the order in which they were queued, if no `start` comes while `stop` waits. -/
theorem handed_in_order (numThreads : Nat) (handles : Bool) (few : numThreads ≤ 2) (es : List Event)
    (serialised : Along step Serialised (AsyncTransport.new numThreads handles) es) :
    ((run step (AsyncTransport.new numThreads handles) es).handed.map Prod.fst).Sublist (es.flatMap queued) := by
  have new : InOrder (AsyncTransport.new numThreads handles) [] := by
    refine ⟨?_,fun _ _ => rfl,Nat.zero_le _,[],rfl,List.Sublist.refl _⟩
    show (if numThreads < 1 then 1 else numThreads) ≤ 2
    split <;> omega
  obtain ⟨gone,queue,ordered⟩ := (inOrder_run new serialised).order
  rw [List.nil_append] at queue
  rw [← queue]
  exact ((List.sublist_append_left _ _).trans ordered).trans (List.sublist_append_left _ _)

/-- Started again after `stop` has returned. -/
def again : List Event := [.join,.start,.asyncSend (anyJob 4),.sendLoop 0 0,.sendLoop 0 0,.sendLoop 0 1]

theorem handed_in_order_two_threads :
    (run step (AsyncTransport.new 2 true) (stopping ++ ending ++ again)).handed.map Prod.fst = [anyJob 1,anyJob 4] ∧
      ((run step (AsyncTransport.new 2 true) (stopping ++ ending ++ again)).handed.map Prod.fst).Sublist
        ((stopping ++ ending ++ again).flatMap queued) :=
  ⟨by decide,handed_in_order 2 true (by decide) (stopping ++ ending ++ again) (by decide)⟩

end Rom.AsyncRuns
