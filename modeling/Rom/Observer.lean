import Rom.Registry
import Rom.Runs

/-!
Local observers of state changes (`observer.h`, `observer.cpp`). A watch asks for the
changes of the paths that match a pattern, of one type or of all, and at most so many
times; a negative number stands for no limit. A watch that has used up its number is
removed with its last call, and one made for no calls at the first change that it would
get. The source keeps watches in a hash table, so nothing depends on their order.

In every run, as long as no handle is given twice, the callback of a watch gets exactly
the first so many of the changes that it asks for, in order, from the watch to its end
(`watch_exact`).
-/
namespace Rom
open Std (ExtTreeMap LawfulEqCmp ReflCmp)

structure StateChangeEvent where
  path : StatePath
  pathHash : UInt32
  crdtType : CrdtType
  data : Bytes
  authorNodeId : UInt16
  deriving DecidableEq

structure WatchOptions where
  crdtFilter : Option CrdtType := none
  maxNotifications : Int32 := -1
  deriving DecidableEq

structure WatchEntry (Callback : Type) where
  pattern : StatePath
  callback : Callback
  options : WatchOptions
  remaining : Int32

namespace WatchEntry
variable {Callback : Type}

/-- The watch asks for the change. -/
def wants (entry : WatchEntry Callback) (event : StateChangeEvent) : Bool :=
  entry.options.crdtFilter.all (· == event.crdtType) && event.path.matchesPattern entry.pattern

def fires (entry : WatchEntry Callback) (event : StateChangeEvent) : Bool := entry.wants event && entry.remaining != 0

/-- The watch after the change, unless it is to be removed. -/
def visited (entry : WatchEntry Callback) (event : StateChangeEvent) : Option (WatchEntry Callback) :=
  if ¬ entry.wants event then some entry
  else if entry.remaining = 0 then none
  else if entry.remaining > 0 then
    if entry.remaining - 1 = 0 then none else some { entry with remaining := entry.remaining - 1 }
  else some entry

end WatchEntry

structure StateObserver (Callback : Type) where
  nextHandle : UInt32 := 1
  watches : ExtTreeMap UInt32 (WatchEntry Callback) := ∅

namespace StateObserver
variable {Callback : Type} (o : StateObserver Callback)

/-- Handles start again after the last one; one that is in use keeps its watch. -/
def watch (pattern : StatePath) (callback : Callback) (options : WatchOptions) : UInt32 × StateObserver Callback :=
  let entry : WatchEntry Callback :=
    { pattern := pattern, callback := callback, options := options, remaining := options.maxNotifications }
  (o.nextHandle,{ nextHandle := o.nextHandle + 1, watches := o.watches.insertIfNew o.nextHandle entry })

def unwatch (handle : UInt32) : StateObserver Callback × Bool :=
  ({ o with watches := o.watches.erase handle },o.watches.contains handle)

/-- The observer after a change, and the watches whose callbacks were called. -/
def notify (event : StateChangeEvent) : StateObserver Callback × List (UInt32 × Callback) :=
  ({ o with watches := o.watches.filterMap (fun _ entry => entry.visited event) },
    (o.watches.toList.filter (fun e => e.2.fires event)).map (fun e => (e.1,e.2.callback)))

def count : Nat := o.watches.size

def clear : StateObserver Callback := { o with watches := ∅ }

end StateObserver

namespace Observer
open Rom.Runs
variable {Callback : Type}

inductive Call (Callback : Type) where
  | watch (pattern : StatePath) (callback : Callback) (options : WatchOptions)
  | unwatch (handle : UInt32)
  | notify (event : StateChangeEvent)
  | clear

def step (o : StateObserver Callback) : Call Callback → StateObserver Callback
  | .watch pattern callback options => (o.watch pattern callback options).2
  | .unwatch handle => (o.unwatch handle).1
  | .notify event => (o.notify event).1
  | .clear => o.clear

/-- The callbacks that are called, each with its handle and the change. -/
def called (o : StateObserver Callback) : Call Callback → List (UInt32 × Callback × StateChangeEvent)
  | .notify event => (o.notify event).2.map (fun e => (e.1,e.2,event))
  | _ => []

def Call.watches : Call Callback → Bool
  | .watch _ _ _ => true
  | _ => false

/-- The call removes the watch. -/
def Call.ends (handle : UInt32) : Call Callback → Bool
  | .unwatch other => other == handle
  | .clear => true
  | _ => false

def Call.change : Call Callback → Option StateChangeEvent
  | .notify event => some event
  | _ => none

/-- The changes up to the end of the watch. -/
def heard (handle : UInt32) (calls : List (Call Callback)) : List StateChangeEvent :=
  (calls.takeWhile (fun call => !call.ends handle)).filterMap Call.change

/-- The first so many, or all. -/
def limit {α : Type} (most : Int32) (l : List α) : List α := if most < 0 then l else l.take most.toInt.toNat

/-- The changes that the callback of a watch should get from calls after it. -/
def expected (handle : UInt32) (entry : WatchEntry Callback) (calls : List (Call Callback)) :
    List (UInt32 × Callback × StateChangeEvent) :=
  (limit entry.remaining ((heard handle calls).filter entry.wants)).map (fun event => (handle,entry.callback,event))

/-! ### Limits -/

section
variable {α : Type}

theorem limit_zero (l : List α) : limit 0 l = [] := rfl

theorem limit_nil (most : Int32) : limit most ([] : List α) = [] := by
  unfold limit
  split <;> simp

theorem limit_cons_neg {most : Int32} (unlimited : most < 0) (a : α) (l : List α) :
    limit most (a :: l) = a :: limit most l := by
  rw [limit,limit,if_pos unlimited,if_pos unlimited]

theorem limit_cons_pos {most : Int32} (positive : 0 < most) (a : α) (l : List α) :
    limit most (a :: l) = a :: limit (most - 1) l := by
  have large : 0 < most.toInt := by simpa [Int32.lt_iff_toInt_lt] using positive
  have pred : (most - 1).toInt = most.toInt - 1 := by
    have upper := most.toInt_lt
    rw [Int32.toInt_sub]
    exact Int.bmod_eq_of_le (by simp; omega) (by simp; omega)
  have below : ¬ most < 0 := by
    rw [Int32.lt_iff_toInt_lt]
    simp
    omega
  have below' : ¬ most - 1 < 0 := by
    rw [Int32.lt_iff_toInt_lt,pred]
    simp
    omega
  rw [limit,limit,if_neg below,if_neg below',pred,
    show most.toInt.toNat = (most.toInt - 1).toNat + 1 by omega,List.take_succ_cons]

end

/-! ### What a call does to a watch -/

/-- The call does not make a watch with the handle. -/
def Spares (handle : UInt32) (o : StateObserver Callback) (call : Call Callback) : Prop :=
  call.watches = true → o.nextHandle ≠ handle

/-- The callbacks called for a handle depend on its watch alone. -/
theorem called_handle (o : StateObserver Callback) (handle : UInt32) (event : StateChangeEvent) :
    (called o (.notify event)).filter (fun e => e.1 == handle) =
      ((o.watches[handle]?.filter (·.fires event)).map (fun entry => (handle,entry.callback,event))).toList := by
  have listed := toList_filter_key o.watches handle
  rw [called,StateObserver.notify,List.map_map,List.filter_map,List.filter_filter]
  have swap : (fun e : UInt32 × WatchEntry Callback => ((fun e => e.1 == handle) ∘
      (fun e : UInt32 × Callback => (e.1,e.2,event)) ∘ fun e => (e.1,e.2.callback)) e && e.2.fires event) =
      fun e => e.2.fires event && (e.1 == handle) := by
    funext e
    exact Bool.and_comm _ _
  rw [swap,← List.filter_filter,listed]
  cases o.watches[handle]? with
  | none => rfl
  | some entry => cases fires : entry.fires event <;> simp [Option.filter,fires]

theorem called_quiet (o : StateObserver Callback) (call : Call Callback) (handle : UInt32) (quiet : call.change = none) :
    (called o call).filter (fun e => e.1 == handle) = [] := by
  cases call with
  | notify event => cases quiet
  | watch pattern callback options => rfl
  | unwatch other => rfl
  | clear => rfl

theorem watches_notify (o : StateObserver Callback) (handle : UInt32) (event : StateChangeEvent) :
    (step o (.notify event)).watches[handle]? = o.watches[handle]?.bind (·.visited event) := ExtTreeMap.getElem?_filterMap'

theorem watches_ends (o : StateObserver Callback) {call : Call Callback} {handle : UInt32}
    (ends : call.ends handle = true) :
    (step o call).watches[handle]? = none := by
  cases call with
  | watch pattern callback options => cases ends
  | notify event => cases ends
  | unwatch other =>
    rw [Call.ends,beq_iff_eq] at ends
    rw [ends]
    exact ExtTreeMap.getElem?_erase_self
  | clear => exact ExtTreeMap.getElem?_empty

/-- Every other call leaves the watch as it is. -/
theorem watches_other {o : StateObserver Callback} {call : Call Callback} {handle : UInt32} (quiet : call.change = none)
    (goes : call.ends handle = false) (spares : Spares handle o call) :
    (step o call).watches[handle]? = o.watches[handle]? := by
  cases call with
  | watch pattern callback options =>
    refine ExtTreeMap.getElem?_insertIfNew.trans (if_neg fun given => ?_)
    exact spares rfl (LawfulEqCmp.compare_eq_iff_eq.mp given.1)
  | notify event => cases quiet
  | unwatch other =>
    refine ExtTreeMap.getElem?_erase.trans (if_neg fun same => ?_)
    rw [LawfulEqCmp.compare_eq_iff_eq.mp same,Call.ends,beq_self_eq_true] at goes
    cases goes
  | clear => cases goes

/-! ### Runs -/

/-- A handle that is not in use has no callback. -/
theorem called_absent {o : StateObserver Callback} {handle : UInt32} {calls : List (Call Callback)}
    (spared : Along step (Spares handle) o calls) (absent : o.watches[handle]? = none) :
    (outputs step called o calls).filter (fun e => e.1 == handle) = [] ∧ (run step o calls).watches[handle]? = none := by
  induction calls generalizing o with
  | nil => exact ⟨rfl,absent⟩
  | cons call calls ih =>
    obtain ⟨here,later⟩ := spared
    have silent : (called o call).filter (fun e => e.1 == handle) = [] ∧ (step o call).watches[handle]? = none := by
      cases change : call.change with
      | none =>
        refine ⟨called_quiet o call handle change,?_⟩
        cases goes : call.ends handle with
        | true => exact watches_ends o goes
        | false => rw [watches_other change goes here,absent]
      | some event =>
        obtain rfl : call = .notify event := by
          cases call <;> simp_all [Call.change]
        rw [called_handle,watches_notify,absent]
        exact ⟨rfl,rfl⟩
    rw [outputs,List.filter_append,silent.1,List.nil_append,run_cons]
    exact ih later silent.2

theorem heard_ends {handle : UInt32} {call : Call Callback} (ends : call.ends handle = true)
    (calls : List (Call Callback)) :
    heard handle (call :: calls) = [] := by
  rw [heard,List.takeWhile_cons_of_neg (by simp [ends])]
  rfl

theorem heard_goes {handle : UInt32} {call : Call Callback} (goes : call.ends handle = false)
    (calls : List (Call Callback)) :
    heard handle (call :: calls) = call.change.toList ++ heard handle calls := by
  rw [heard,List.takeWhile_cons_of_pos (by simp [goes]),List.filterMap_cons,heard]
  cases call.change <;> rfl

/-- What is expected from a change on: the call for it, if any, and what the watch
    that it leaves expects. -/
theorem expected_notify (handle : UInt32) (entry : WatchEntry Callback) (event : StateChangeEvent)
    (calls : List (Call Callback)) :
    expected handle entry (.notify event :: calls) =
      (((some entry).filter (·.fires event)).map (fun entry => (handle,entry.callback,event))).toList ++
        ((entry.visited event).map (fun entry => expected handle entry calls)).getD [] := by
  have next : heard handle (.notify event :: calls) = event :: heard handle calls := heard_goes rfl calls
  simp only [expected,next,WatchEntry.visited,WatchEntry.fires,Option.filter_some]
  cases wants : entry.wants event with
  | false =>
    rw [List.filter_cons_of_neg (by simp [wants])]
    simp
  | true =>
    rw [List.filter_cons_of_pos wants]
    by_cases none : entry.remaining = 0
    · simp [none,limit_zero]
    · by_cases finite : entry.remaining > 0
      · rw [limit_cons_pos finite]
        by_cases last : entry.remaining - 1 = 0
        · simp [none,finite,last,limit_zero]
        · have same : WatchEntry.wants { entry with remaining := entry.remaining - 1 } = entry.wants := rfl
          simp [none,finite,last,same]
      · have unlimited : entry.remaining < 0 := Int32.lt_of_le_of_ne (Int32.not_lt.mp finite) none
        rw [limit_cons_neg unlimited]
        simp [none,finite]

/-- A watch gets what it expects. -/
theorem called_present {o : StateObserver Callback} {handle : UInt32} {entry : WatchEntry Callback}
    {calls : List (Call Callback)}
    (spared : Along step (Spares handle) o calls) (present : o.watches[handle]? = some entry) :
    (outputs step called o calls).filter (fun e => e.1 == handle) = expected handle entry calls := by
  induction calls generalizing o entry with
  | nil =>
    rw [expected,heard,List.takeWhile_nil,List.filterMap_nil,List.filter_nil,limit_nil]
    rfl
  | cons call calls ih =>
    obtain ⟨here,later⟩ := spared
    rw [outputs,List.filter_append]
    cases change : call.change with
    | none =>
      rw [called_quiet o call handle change,List.nil_append]
      cases goes : call.ends handle with
      | true =>
        rw [(called_absent later (watches_ends o goes)).1,expected,heard_ends goes,List.filter_nil,limit_nil]
        rfl
      | false =>
        rw [ih later ((watches_other change goes here).trans present),expected,expected,heard_goes goes,change]
        rfl
    | some event =>
      obtain rfl : call = .notify event := by
        cases call <;> simp_all [Call.change]
      have left : (step o (.notify event)).watches[handle]? = entry.visited event := by
        rw [watches_notify,present,Option.bind_some]
      rw [called_handle,present,expected_notify]
      cases visited : entry.visited event with
      | none => rw [(called_absent later (left.trans visited)).1,Option.map_none,Option.getD_none]
      | some entry' => rw [ih later (left.trans visited),Option.map_some,Option.getD_some]

/-! ### Handles -/

theorem nextHandle_step (o : StateObserver Callback) (call : Call Callback) :
    (step o call).nextHandle = o.nextHandle + if call.watches then 1 else 0 := by
  cases call with
  | watch pattern callback options => rfl
  | unwatch other => exact (UInt32.add_zero _).symm
  | notify event => exact (UInt32.add_zero _).symm
  | clear => exact (UInt32.add_zero _).symm

theorem nextHandle_run (o : StateObserver Callback) (calls : List (Call Callback)) :
    (run step o calls).nextHandle = o.nextHandle + UInt32.ofNat (calls.countP Call.watches) := by
  induction calls generalizing o with
  | nil => exact (UInt32.add_zero _).symm
  | cons call calls ih =>
    rw [run_cons,ih,nextHandle_step,List.countP_cons,UInt32.ofNat_add,UInt32.add_assoc,
      UInt32.add_comm (UInt32.ofNat (calls.countP Call.watches))]
    cases call.watches <;> rfl

/-- The handles that calls give are the ones that come next. -/
theorem spares_of_next {o : StateObserver Callback} {handle : UInt32} {calls : List (Call Callback)}
    (other : ∀ i < calls.countP Call.watches, o.nextHandle + UInt32.ofNat i ≠ handle) :
    Along step (Spares handle) o calls := by
  induction calls generalizing o with
  | nil => trivial
  | cons call calls ih =>
    constructor
    · intro watches
      have first := other 0 (by rw [List.countP_cons_of_pos watches]; omega)
      exact (UInt32.add_zero o.nextHandle) ▸ first
    · refine ih fun i less => ?_
      rw [nextHandle_step]
      cases watches : call.watches with
      | true =>
        have next := other (i + 1) (by rw [List.countP_cons_of_pos watches]; omega)
        rw [UInt32.add_assoc,if_pos rfl]
        rwa [UInt32.ofNat_add,UInt32.add_comm (UInt32.ofNat i)] at next
      | false =>
        have next := other i (by rw [List.countP_cons_of_neg (by simp [watches])]; exact less)
        simpa using next

/-- Different numbers of steps of a 32-bit counter lead to different values. -/
theorem add_ofNat_ne (start : UInt32) {i j : Nat} (less : i < j) (small : j < 2^32) :
    start + UInt32.ofNat i ≠ start + UInt32.ofNat j := by
  intro same
  have equal := congrArg UInt32.toNat ((UInt32.add_right_inj start).mp same)
  rw [UInt32.toNat_ofNat_of_lt' (Nat.lt_trans less small),UInt32.toNat_ofNat_of_lt' small] at equal
  omega

/-- The callback of a watch gets the first so many of the changes that it asks for, up
    to the end of the watch, in order, and nothing else, if there are not more watches
    than handles. -/
theorem watch_exact (before after : List (Call Callback)) (pattern : StatePath) (callback : Callback)
    (options : WatchOptions)
    (few : (before ++ .watch pattern callback options :: after).countP Call.watches ≤ 2^32) :
    (outputs step called {} (before ++ .watch pattern callback options :: after)).filter
        (fun e => e.1 == (run step {} before).nextHandle) =
      expected (run step {} before).nextHandle ⟨pattern,callback,options,options.maxNotifications⟩ after := by
  rw [List.countP_append,List.countP_cons_of_pos rfl] at few
  have handle : (run step {} before).nextHandle = 1 + UInt32.ofNat (before.countP Call.watches) := nextHandle_run {} before
  have early : Along step (Spares (run step {} before).nextHandle) {} before := by
    refine spares_of_next fun i less => ?_
    rw [handle]
    exact add_ofNat_ne 1 less (by omega)
  obtain ⟨silent,absent⟩ := called_absent early ExtTreeMap.getElem?_empty
  have late : Along step (Spares (run step {} before).nextHandle)
      (step (run step {} before) (.watch pattern callback options)) after := by
    refine spares_of_next fun i less => ?_
    intro same
    refine add_ofNat_ne (run step {} before).nextHandle (show 0 < i + 1 by omega) (by omega) ?_
    rw [UInt32.ofNat_add,UInt32.add_comm (UInt32.ofNat i),← UInt32.add_assoc]
    exact (UInt32.add_zero _).trans same.symm
  have present : (step (run step {} before) (.watch pattern callback options)).watches[(run step {} before).nextHandle]? =
      some ⟨pattern,callback,options,options.maxNotifications⟩ := by
    refine ExtTreeMap.getElem?_insertIfNew.trans (if_pos ⟨ReflCmp.compare_self,fun used => ?_⟩)
    rw [ExtTreeMap.mem_iff_isSome_getElem?,absent] at used
    cases used
  rw [outputs_append,List.filter_append,silent,List.nil_append,outputs]
  exact called_present late present

/-- A change of the path `/a/` and a letter. -/
def changed (letter : UInt8) : StateChangeEvent := ⟨⟨[47,97,47,letter]⟩,0,.lwwRegister,[],0⟩

/-- A watch of `/a/*` for one change gets the first and not the second. -/
theorem watch_exact_once :
    (outputs step called {} ([.notify (changed 98)] ++ .watch ⟨[47,97,47,42]⟩ true ⟨none,1⟩ ::
      [.notify (changed 99),.notify (changed 100)])).filter (fun e => e.1 == 1) = [(1,true,changed 99)] :=
  (watch_exact [.notify (changed 98)] [.notify (changed 99),.notify (changed 100)] ⟨[47,97,47,42]⟩ true ⟨none,1⟩
    (by decide)).trans (by decide +kernel)

end Observer
end Rom
