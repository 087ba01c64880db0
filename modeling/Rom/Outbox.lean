import Rom.Freshness
import Rom.Runs

/-!
The outbox of deltas over runs. Entries are stamped with a clock of microseconds that
is cut to 32 bits, and dropped when their age exceeds their deadline; dropping them
early (`gc`) saves memory. With exact times (`Entry`), an entry that is stale stays so,
and the outbox after the last `gc` is the one without any, filtered by what was fresh
then (`Behind`). So `gc` changes nothing of what is popped (`gc_unnoticed`), as long
as no entry gets so old that its age wraps and no entry expires before an older one of
its path; otherwise `coalesce` could keep an entry that `gc` would have dropped in
favour of another.
-/
namespace Rom.Outbox
open Rom.Runs DeltaOutbox

/-! ### Last of each key -/

section
variable {α κ : Type*} [DecidableEq κ] (key : α → κ)

/-- The list with the last element of each key. -/
def lastOfEach : List α → List α
  | [] => []
  | a :: l => if l.any (fun b => key b = key a) then lastOfEach l else a :: lastOfEach l

theorem lastOfEach_sublist (l : List α) : (lastOfEach key l).Sublist l := by
  induction l with
  | nil => exact .slnil
  | cons a l ih =>
    rw [lastOfEach]
    split
    · exact ih.cons a
    · exact ih.cons_cons a

theorem lastOfEach_map {β : Type*} (f : β → α) (l : List β) :
    lastOfEach key (l.map f) = (lastOfEach (key ∘ f) l).map f := by
  induction l with
  | nil => rfl
  | cons b l ih =>
    rw [List.map_cons,lastOfEach,lastOfEach,List.any_map,ih]
    simp only [Function.comp_def]
    split <;> rfl

/-- Where a property that an element has passes to later elements of its key, it does
    not matter whether it is asked for before or after. -/
theorem lastOfEach_filter {f : α → Bool} {l : List α}
    (passes : l.Pairwise (fun a b => key b = key a → f a = true → f b = true)) :
    lastOfEach key (l.filter f) = (lastOfEach key l).filter f := by
  induction l with
  | nil => rfl
  | cons a l ih =>
    obtain ⟨here,later⟩ := List.pairwise_cons.mp passes
    cases own : f a with
    | false =>
      rw [List.filter_cons_of_neg (by simp [own]),ih later,lastOfEach]
      split
      · rfl
      · rw [List.filter_cons_of_neg (by simp [own])]
    | true =>
      have same : (l.filter f).any (fun b => key b = key a) = l.any (fun b => key b = key a) := by
        rw [Bool.eq_iff_iff,List.any_eq_true,List.any_eq_true]
        constructor
        · rintro ⟨b,member,equal⟩
          exact ⟨b,List.mem_of_mem_filter member,equal⟩
        · rintro ⟨b,member,equal⟩
          exact ⟨b,List.mem_filter.mpr ⟨member,here b member (of_decide_eq_true equal) own⟩,equal⟩
      rw [List.filter_cons_of_pos own,lastOfEach,lastOfEach,same,ih later]
      split
      · rfl
      · rw [List.filter_cons_of_pos own]

end

/-- The entries that are the latest of their path are the last of each path. -/
theorem kept_eq_lastOfEach (l : List OutboxEntry) (k : Nat) (m : Std.ExtTreeMap UInt32 Nat)
    (agree : ∀ e ∈ l, m[e.pathHash]? = (latest (l.zipIdx k))[e.pathHash]?) :
    ((l.zipIdx k).filter (fun e => m[e.1.pathHash]? == some e.2)).map Prod.fst = lastOfEach OutboxEntry.pathHash l := by
  induction l generalizing k with
  | nil => rfl
  | cons e l ih =>
    have rest : ∀ e' ∈ l, m[e'.pathHash]? = (latest (l.zipIdx (k+1)))[e'.pathHash]? := by
      intro e' member
      rw [agree e' (List.mem_cons_of_mem _ member),List.zipIdx_cons,latest_cons]
      cases found : (latest (l.zipIdx (k+1)))[e'.pathHash]? with
      | none =>
        have none := latest_none.mp found
        rw [List.filter_eq_nil_iff] at none
        exact absurd (beq_self_eq_true _) (none e' member)
      | some i => rfl
    have here : (m[e.pathHash]? == some k) = !l.any (fun b => b.pathHash = e.pathHash) := by
      rw [agree e List.mem_cons_self,List.zipIdx_cons,latest_cons,if_pos rfl]
      cases found : (latest (l.zipIdx (k+1)))[e.pathHash]? with
      | none =>
        have none := latest_none.mp found
        rw [List.filter_eq_nil_iff] at none
        have absent : l.any (fun b => b.pathHash = e.pathHash) = false := by simpa using none
        simp [absent]
      | some i =>
        have later : k + 1 ≤ i := le_latest found
        have present : l.any (fun b => b.pathHash = e.pathHash) = true := by
          by_contra absent
          have none : l.filter (fun b => b.pathHash == e.pathHash) = [] := by
            rw [List.filter_eq_nil_iff]
            simpa using absent
          rw [latest_none.mpr none] at found
          cases found
        simp [present]
        omega
    rw [List.zipIdx_cons,lastOfEach]
    cases present : l.any (fun b => b.pathHash = e.pathHash) with
    | true =>
      rw [present] at here
      rw [List.filter_cons_of_neg (by rw [here]; simp),if_pos rfl]
      exact ih (k+1) rest
    | false =>
      rw [present] at here
      rw [List.filter_cons_of_pos (by rw [here]; rfl),if_neg Bool.false_ne_true]
      exact congrArg (e :: ·) (ih (k+1) rest)

theorem coalesce_entries (o : DeltaOutbox) : o.coalesce.1.entries = lastOfEach OutboxEntry.pathHash o.entries := by
  rw [coalesce]
  split
  · next few =>
    obtain ⟨entries⟩ := o
    cases entries with
    | nil => rfl
    | cons e l =>
      cases l with
      | nil => rfl
      | cons e' l => simp at few
  · exact kept_eq_lastOfEach o.entries 0 _ (fun _ _ => rfl)

/-! ### Exact times -/

/-- An entry with the time at which it was pushed. -/
structure Entry where
  pushed : Nat
  entry : OutboxEntry

namespace Entry

def fresh (now : Nat) (x : Entry) : Bool :=
  x.entry.freshness.deadlineUs == 0 || now ≤ x.pushed + x.entry.freshness.deadlineUs.toNat

/-- The entry is stamped with the time, cut to 32 bits, and its age does not wrap. -/
structure Dated (now : Nat) (x : Entry) : Prop where
  stamped : x.entry.freshness.createdUs = UInt32.ofNat x.pushed
  past : x.pushed ≤ now
  young : now < x.pushed + 2^32

/-- It expires no earlier than the other, if at all. -/
def Outlives (x y : Entry) : Prop :=
  x.entry.freshness.deadlineUs = 0 ∨ y.entry.freshness.deadlineUs ≠ 0 ∧
    y.pushed + y.entry.freshness.deadlineUs.toNat ≤ x.pushed + x.entry.freshness.deadlineUs.toNat

instance (x y : Entry) : Decidable (Outlives x y) := inferInstanceAs (Decidable (_ ∨ _ ∧ _))

theorem isFresh_eq {now : Nat} {x : Entry} (dated : Dated now x) :
    x.entry.freshness.isFresh (UInt32.ofNat now) = x.fresh now := by
  have age : (UInt32.ofNat now - UInt32.ofNat x.pushed).toNat = now - x.pushed := by
    have past := dated.past
    have young := dated.young
    rw [UInt32.toNat_sub,UInt32.toNat_ofNat',UInt32.toNat_ofNat']
    omega
  unfold FreshnessStamp.isFresh fresh
  rw [dated.stamped]
  cases none : x.entry.freshness.deadlineUs == 0 with
  | true => rfl
  | false =>
    have past := dated.past
    rw [if_neg Bool.false_ne_true,Bool.false_or,decide_eq_decide,UInt32.le_iff_toNat_le,age]
    omega

/-- What is stale stays so. -/
theorem fresh_of_later {now later : Nat} {x : Entry} (le : now ≤ later) (fresh : x.fresh later = true) :
    x.fresh now = true := by
  simp only [Entry.fresh,Bool.or_eq_true,decide_eq_true_eq] at fresh ⊢
  exact fresh.imp_right (Nat.le_trans le)

theorem Outlives.fresh {x y : Entry} (outlives : Outlives x y) {now : Nat} (fresh : y.fresh now = true) :
    x.fresh now = true := by
  simp only [Entry.fresh,Bool.or_eq_true,beq_iff_eq,decide_eq_true_eq] at fresh ⊢
  rcases outlives with forever | ⟨ends,later⟩
  · exact .inl forever
  · exact .inr (Nat.le_trans (fresh.resolve_left ends) later)

end Entry

/-! ### Calls -/

inductive Call where
  | push (entry : OutboxEntry) (now : Nat)
  | pop (now : Nat)
  | gc (now : Nat)
  | coalesce

def Call.time : Call → Option Nat
  | .push _ now => some now
  | .pop now => some now
  | .gc now => some now
  | .coalesce => none

def Call.isGc : Call → Bool
  | .gc _ => true
  | _ => false

/-- The entry as it is pushed at a time. -/
def stamp (entry : OutboxEntry) (now : Nat) : OutboxEntry :=
  { entry with freshness := { entry.freshness with createdUs := UInt32.ofNat now } }

def step (o : DeltaOutbox) : Call → DeltaOutbox
  | .push entry now => o.push (stamp entry now)
  | .pop now => (o.pop (UInt32.ofNat now)).2
  | .gc now => (o.gc (UInt32.ofNat now)).1
  | .coalesce => o.coalesce.1

def popped (o : DeltaOutbox) : Call → List OutboxEntry
  | .pop now => (o.pop (UInt32.ofNat now)).1.toList
  | _ => []

/-- The entries with exact times and without `gc`. -/
def plainStep (p : List Entry) : Call → List Entry
  | .push entry now => p ++ [⟨now,stamp entry now⟩]
  | .pop now => (p.dropWhile (fun x => !x.fresh now)).tail
  | .gc _ => p
  | .coalesce => lastOfEach (fun x => x.entry.pathHash) p

/-- No age wraps when it is looked at, and an entry outlives those of its path before
    it. -/
def Lively (p : List Entry) : Call → Prop
  | .push entry now => ∀ x ∈ p, x.entry.pathHash = entry.pathHash → Entry.Outlives ⟨now,stamp entry now⟩ x
  | .pop now => ∀ x ∈ p, x.pushed ≤ now ∧ now < x.pushed + 2^32
  | .gc now => ∀ x ∈ p, x.pushed ≤ now ∧ now < x.pushed + 2^32
  | .coalesce => True

instance (p : List Entry) : ∀ call, Decidable (Lively p call)
  | .push entry now =>
    inferInstanceAs (Decidable (∀ x ∈ p, x.entry.pathHash = entry.pathHash → Entry.Outlives ⟨now,stamp entry now⟩ x))
  | .pop now => inferInstanceAs (Decidable (∀ x ∈ p, x.pushed ≤ now ∧ now < x.pushed + 2^32))
  | .gc now => inferInstanceAs (Decidable (∀ x ∈ p, x.pushed ≤ now ∧ now < x.pushed + 2^32))
  | .coalesce => isTrue trivial

/-! ### Popping and collecting with exact times -/

/-- An outbox that holds the entries. -/
def outbox (l : List Entry) : DeltaOutbox := ⟨l.map Entry.entry⟩

section
variable {l : List Entry} {now : Nat} (dated : ∀ x ∈ l, x.Dated now)
include dated

theorem dropWhile_stale :
    (l.map Entry.entry).dropWhile (fun e => !e.freshness.isFresh (UInt32.ofNat now)) =
      (l.dropWhile (fun x => !x.fresh now)).map Entry.entry := by
  induction l with
  | nil => rfl
  | cons x l ih =>
    have same := Entry.isFresh_eq (dated x List.mem_cons_self)
    rw [List.map_cons,List.dropWhile_cons,List.dropWhile_cons,same]
    split
    · exact ih (fun x member => dated x (List.mem_cons_of_mem _ member))
    · rfl

theorem pop_outbox : (outbox l).pop (UInt32.ofNat now) =
    ((l.dropWhile (fun x => !x.fresh now)).head?.map Entry.entry,outbox (l.dropWhile (fun x => !x.fresh now)).tail) := by
  rw [pop,outbox,dropWhile_stale dated]
  cases l.dropWhile (fun x => !x.fresh now) with
  | nil => rfl
  | cons x rest => rfl

theorem gc_outbox : ((outbox l).gc (UInt32.ofNat now)).1 = outbox (l.filter (Entry.fresh now)) := by
  rw [gc,outbox,outbox,List.filter_map]
  refine congrArg (fun kept => DeltaOutbox.mk (kept.map Entry.entry)) (List.filter_congr fun x member => ?_)
  exact Entry.isFresh_eq (dated x member)

end

theorem coalesce_outbox (l : List Entry) : (outbox l).coalesce.1 = outbox (lastOfEach (fun x => x.entry.pathHash) l) := by
  have entries := coalesce_entries (outbox l)
  rw [outbox,lastOfEach_map] at entries
  exact congrArg DeltaOutbox.mk entries

/-- What was stale before is dropped anyway. -/
theorem dropWhile_filter (l : List Entry) {since now : Nat} (le : since ≤ now) :
    (l.filter (Entry.fresh since)).dropWhile (fun x => !x.fresh now) =
      (l.dropWhile (fun x => !x.fresh now)).filter (Entry.fresh since) := by
  induction l with
  | nil => rfl
  | cons x l ih =>
    rw [List.dropWhile_cons]
    cases here : x.fresh now with
    | true =>
      have before := Entry.fresh_of_later le here
      rw [List.filter_cons_of_pos before,List.dropWhile_cons,here,if_neg (by simp),if_neg (by simp),
        List.filter_cons_of_pos before]
    | false =>
      rw [if_pos (by simp),← ih,List.filter_cons]
      split
      · rw [List.dropWhile_cons,here,if_pos (by simp)]
      · rfl

theorem head_dropWhile_filter (l : List Entry) {since now : Nat} (le : since ≤ now) :
    ((l.filter (Entry.fresh since)).dropWhile (fun x => !x.fresh now)).head? = (l.dropWhile (fun x => !x.fresh now)).head? ∧
    ((l.filter (Entry.fresh since)).dropWhile (fun x => !x.fresh now)).tail =
      (l.dropWhile (fun x => !x.fresh now)).tail.filter (Entry.fresh since) := by
  rw [dropWhile_filter l le]
  cases rest : l.dropWhile (fun x => !x.fresh now) with
  | nil => exact ⟨rfl,rfl⟩
  | cons x rest' =>
    have first : x.fresh now = true := by
      have stops := List.head?_dropWhile_not (fun x : Entry => !x.fresh now) l
      simpa [rest] using stops
    rw [List.filter_cons_of_pos (Entry.fresh_of_later le first)]
    exact ⟨rfl,rfl⟩

/-! ### Runs -/

/-- The outbox with `gc` has, of the entries without it, those that were fresh when it
    was last called. -/
structure Behind (s t : DeltaOutbox) (p : List Entry) (since : Nat) : Prop where
  collected : s = outbox (p.filter (Entry.fresh since))
  plain : t = outbox p
  stamped : ∀ x ∈ p, x.entry.freshness.createdUs = UInt32.ofNat x.pushed
  ordered : p.Pairwise (fun x y => y.entry.pathHash = x.entry.pathHash → y.Outlives x)

section
variable {s t : DeltaOutbox} {p : List Entry} {since : Nat}

theorem Behind.sublist (behind : Behind s t p since) {p' : List Entry} (sub : p'.Sublist p) :
    Behind (outbox (p'.filter (Entry.fresh since))) (outbox p') p' since :=
  ⟨rfl,rfl,fun x member => behind.stamped x (sub.subset member),behind.ordered.sublist sub⟩

theorem Behind.dated (behind : Behind s t p since) {now : Nat} (young : ∀ x ∈ p, x.pushed ≤ now ∧ now < x.pushed + 2^32) :
    ∀ x ∈ p, x.Dated now :=
  fun x member => ⟨behind.stamped x member,(young x member).1,(young x member).2⟩

theorem behind_push (behind : Behind s t p since) {entry : OutboxEntry} {now : Nat} (le : since ≤ now)
    (lively : Lively p (.push entry now)) :
    Behind (step s (.push entry now)) (step t (.push entry now)) (plainStep p (.push entry now)) since := by
  have fresh : Entry.fresh since ⟨now,stamp entry now⟩ = true := by
    simp only [Entry.fresh,Bool.or_eq_true,decide_eq_true_eq]
    exact .inr (Nat.le_trans le (Nat.le_add_right _ _))
  refine ⟨?_,?_,?_,?_⟩
  · rw [behind.collected,plainStep,List.filter_append,List.filter_cons_of_pos fresh]
    simp [step,push,outbox]
  · rw [behind.plain]
    simp [step,push,outbox,plainStep]
  · intro x member
    rcases List.mem_append.mp member with old | new
    · exact behind.stamped x old
    · rw [List.mem_singleton.mp new]
      rfl
  · refine List.pairwise_append.mpr ⟨behind.ordered,List.pairwise_singleton _ _,fun x member y new => ?_⟩
    rw [List.mem_singleton.mp new]
    exact fun same => lively x member same.symm

theorem behind_pop (behind : Behind s t p since) {now : Nat} (le : since ≤ now) (lively : Lively p (.pop now)) :
    popped s (.pop now) = popped t (.pop now) ∧
      Behind (step s (.pop now)) (step t (.pop now)) (plainStep p (.pop now)) since := by
  have dated := behind.dated lively
  have dated' : ∀ x ∈ p.filter (Entry.fresh since), x.Dated now := fun x member => dated x (List.mem_of_mem_filter member)
  obtain ⟨head,tail⟩ := head_dropWhile_filter p le
  simp only [popped,step,behind.collected,behind.plain,pop_outbox dated,pop_outbox dated',head,tail]
  exact ⟨trivial,behind.sublist ((List.tail_sublist _).trans (List.dropWhile_sublist _))⟩

theorem behind_gc (behind : Behind s t p since) {now : Nat} (le : since ≤ now) (lively : Lively p (.gc now)) :
    Behind (step s (.gc now)) t p now := by
  have dated := behind.dated lively
  refine ⟨?_,behind.plain,behind.stamped,behind.ordered⟩
  rw [step,behind.collected,gc_outbox (fun x member => dated x (List.mem_of_mem_filter member)),List.filter_filter]
  refine congrArg outbox (List.filter_congr fun x _ => ?_)
  cases here : x.fresh now with
  | false => rfl
  | true => rw [Bool.true_and,Entry.fresh_of_later le here]

theorem behind_coalesce (behind : Behind s t p since) :
    Behind (step s .coalesce) (step t .coalesce) (plainStep p .coalesce) since := by
  have passes : p.Pairwise (fun x y => y.entry.pathHash = x.entry.pathHash → x.fresh since = true → y.fresh since = true) :=
    behind.ordered.imp fun outlives same fresh => (outlives same).fresh fresh
  simp only [step,behind.collected,behind.plain,coalesce_outbox,lastOfEach_filter _ passes]
  exact behind.sublist (lastOfEach_sublist _ _)

end

/-- The times of the calls do not go back, and are not before the given one. -/
def Clocked (since : Nat) (calls : List Call) : Prop := (since :: calls.filterMap Call.time).Pairwise (· ≤ ·)

theorem clocked_timed {since now : Nat} {call : Call} {calls : List Call} (timed : call.time = some now)
    (clock : Clocked since (call :: calls)) : since ≤ now ∧ Clocked since calls ∧ Clocked now calls := by
  rw [Clocked,List.filterMap_cons_some timed] at clock
  obtain ⟨first,rest⟩ := List.pairwise_cons.mp clock
  refine ⟨first now List.mem_cons_self,?_,rest⟩
  exact clock.sublist ((List.sublist_cons_self now _).cons_cons since)

/-- Leaving out every `gc` changes nothing of what is popped. -/
theorem gc_unnoticed {calls : List Call} (clock : Clocked 0 calls) (lively : Along plainStep Lively [] calls) :
    outputs step popped {} calls = outputs step popped {} (calls.filter (fun call => !call.isGc)) := by
  have start : Behind {} {} [] 0 := ⟨rfl,rfl,fun x member => (by cases member),.nil⟩
  have related : ∃ p since, Behind {} {} p since ∧ Clocked since calls ∧ Along plainStep Lively p calls :=
    ⟨[],0,start,clock,lively⟩
  refine outputs_filter (R := fun s t calls => ∃ p since, Behind s t p since ∧ Clocked since calls ∧
    Along plainStep Lively p calls) ?_ ?_ related
  · rintro s t call calls ⟨p,since,behind,clock,here,later⟩ loud
    cases call with
    | push entry now =>
      obtain ⟨le,clock,_⟩ := clocked_timed rfl clock
      exact ⟨rfl,_,since,behind_push behind le here,clock,later⟩
    | pop now =>
      obtain ⟨le,clock,_⟩ := clocked_timed rfl clock
      obtain ⟨same,behind⟩ := behind_pop behind le here
      exact ⟨same,_,since,behind,clock,later⟩
    | gc now => cases loud
    | coalesce => exact ⟨rfl,_,since,behind_coalesce behind,clock,later⟩
  · rintro s t call calls ⟨p,since,behind,clock,here,later⟩ silent
    cases call with
    | gc now =>
      obtain ⟨le,_,clock⟩ := clocked_timed rfl clock
      exact ⟨rfl,p,now,behind_gc behind le here,clock,later⟩
    | push entry now => cases silent
    | pop now => cases silent
    | coalesce => cases silent

/-- An entry for a path with a deadline of one millisecond. -/
def brief (hash : UInt32) : OutboxEntry := ⟨hash,0,0,⟨0,1000⟩,[],0,0⟩

/-- Two entries of one path and one of another; the first is dropped as stale. -/
def briefCalls : List Call :=
  [.push (brief 1) 0,.push (brief 2) 500,.gc 1200,.push (brief 1) 1200,.coalesce,.pop 1300,.pop 1400]

theorem gc_unnoticed_brief :
    outputs step popped {} briefCalls = outputs step popped {} (briefCalls.filter (fun call => !call.isGc)) := by
  have clock : Clocked 0 briefCalls := by
    unfold Clocked
    decide
  exact gc_unnoticed clock (by decide +kernel)

/-- An entry without a deadline is followed by a brief one of its path. -/
def outlived : List Call := [.push ⟨1,0,0,⟨0,0⟩,[],0,0⟩ 0,.push (brief 1) 0,.gc 2000,.coalesce,.pop 2000]

example : (outputs step popped {} outlived).length = 1 ∧
    outputs step popped {} (outlived.filter (fun call => !call.isGc)) = [] := by decide +kernel

end Rom.Outbox
