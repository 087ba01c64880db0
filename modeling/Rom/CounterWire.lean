import Rom.Counters
import Rom.Keyed
import Mathlib.Data.Finset.Card
import Mathlib.Data.Finset.Dedup

/-!
What counters hold and what their payloads carry. A counter is seen as the count
it has for each node, 0 for a node without an entry (`countOf`); a payload is
seen as its entries, none when it is cut off (`carriedEntries`). A merge takes
the larger count of each node (`countOf_merge`), and the entries of a snapshot or
delta are read back as far as the count byte reaches (`carriedEntries_encode`).
-/
namespace Rom

namespace GCounter

/-- The count of the first entry of a node, 0 if it has none. -/
def countIn (l : List GCounterEntry) (n : UInt16) : ℕ :=
  match l.find? (fun e => e.nodeId == n) with
  | some e => e.count.toNat
  | none => 0

/-- The count that a counter has for a node. -/
def countOf (c : GCounter) (n : UInt16) : ℕ := countIn c.entries n

/-- The nodes of some entries. -/
def nodesOf (l : List GCounterEntry) : List UInt16 := l.map GCounterEntry.nodeId

@[simp] theorem countIn_nil (n : UInt16) : countIn [] n = 0 := rfl

theorem countIn_cons (e : GCounterEntry) (l : List GCounterEntry) (n : UInt16) :
    countIn (e :: l) n = if e.nodeId = n then e.count.toNat else countIn l n := by
  by_cases same : e.nodeId = n
  · simp [countIn,same]
  · simp [countIn,same]

theorem find_none_iff (l : List GCounterEntry) (n : UInt16) :
    l.find? (fun e => e.nodeId == n) = none ↔ n ∉ nodesOf l := Keyed.find_eq_none_iff GCounterEntry.nodeId l n

theorem countIn_of_not_mem {l : List GCounterEntry} {n : UInt16} (absent : n ∉ nodesOf l) : countIn l n = 0 := by
  rw [countIn,(find_none_iff l n).mpr absent]

theorem countIn_append_of_not_mem {l : List GCounterEntry} {e : GCounterEntry} (absent : e.nodeId ∉ nodesOf l)
    (n : UInt16) : countIn (l ++ [e]) n = if e.nodeId = n then e.count.toNat else countIn l n := by
  rw [countIn,Keyed.find_append GCounterEntry.nodeId absent]
  by_cases own : e.nodeId = n
  · rw [if_pos own,if_pos own]
  · rw [if_neg own,if_neg own,countIn]

theorem countIn_of_find {l : List GCounterEntry} {n : UInt16} {e : GCounterEntry}
    (found : l.find? (fun e => e.nodeId == n) = some e) : countIn l n = e.count.toNat := by
  rw [countIn,found]

/-! ### Changing an entry -/

/-- `update` on the list of entries. -/
def updated (l : List GCounterEntry) (n : UInt16) (f : UInt64 → UInt64) : List GCounterEntry :=
  l.modify (l.findIdx (fun e => e.nodeId == n)) (fun e => { e with count := f e.count })

theorem updated_cons (e : GCounterEntry) (l : List GCounterEntry) (n : UInt16) (f : UInt64 → UInt64) :
    updated (e :: l) n f = if e.nodeId = n then { e with count := f e.count } :: l else e :: updated l n f :=
  Keyed.modify_cons GCounterEntry.nodeId e l n fun e => { e with count := f e.count }

theorem nodesOf_updated (l : List GCounterEntry) (n : UInt16) (f : UInt64 → UInt64) :
    nodesOf (updated l n f) = nodesOf l :=
  Keyed.map_modify GCounterEntry.nodeId (f := fun e => { e with count := f e.count }) (fun _ => rfl) l n

theorem countIn_updated {l : List GCounterEntry} {n : UInt16} {e : GCounterEntry}
    (found : l.find? (fun e => e.nodeId == n) = some e) (f : UInt64 → UInt64) (m : UInt16) :
    countIn (updated l n f) m = if m = n then (f e.count).toNat else countIn l m := by
  have lookup := Keyed.find_modify GCounterEntry.nodeId (f := fun e => { e with count := f e.count }) (fun _ => rfl) l n m
  rw [countIn,updated,lookup]
  by_cases same : m = n
  · rw [if_pos same,if_pos same,same,found]
    rfl
  · rw [if_neg same,if_neg same,countIn]

/-! ### Merging -/

theorem countOf_mergeEntry (st : GCounter × Bool) (nid : UInt16) (cnt : UInt64) (n : UInt16) :
    (mergeEntry st nid cnt).1.countOf n = if n = nid then max (st.1.countOf n) cnt.toNat else st.1.countOf n := by
  rw [mergeEntry,find]
  cases found : st.1.entries.find? (fun e => e.nodeId == nid) with
  | none =>
    have absent := (find_none_iff _ _).mp found
    show countIn (st.1.entries ++ [⟨nid,cnt⟩]) n = _
    rw [countIn_append_of_not_mem absent]
    by_cases same : n = nid
    · rw [if_pos same.symm,if_pos same,countOf,same,countIn_of_not_mem absent,Nat.zero_max]
    · rw [if_neg (Ne.symm same),if_neg same,countOf]
  | some e =>
    have here : st.1.countOf nid = e.count.toNat := countIn_of_find found
    show (GCounter.countOf (if cnt > e.count then _ else _ : GCounter × Bool).1 n) = _
    by_cases larger : cnt > e.count
    · rw [if_pos larger]
      show countIn (updated st.1.entries nid (fun _ => cnt)) n = _
      rw [countIn_updated found]
      by_cases same : n = nid
      · rw [if_pos same,if_pos same,same,here,max_eq_right (UInt64.le_iff_toNat_le.mp (UInt64.le_of_lt larger))]
      · rw [if_neg same,if_neg same,countOf]
    · rw [if_neg larger]
      by_cases same : n = nid
      · have le : cnt.toNat ≤ e.count.toNat := by
          rw [gt_iff_lt,UInt64.lt_iff_toNat_lt] at larger
          omega
        rw [if_pos same,same,here,max_eq_left le]
      · rw [if_neg same]

theorem nodesOf_mergeEntry (st : GCounter × Bool) (nid : UInt16) (cnt : UInt64) :
    nodesOf (mergeEntry st nid cnt).1.entries =
      if nid ∈ nodesOf st.1.entries then nodesOf st.1.entries else nodesOf st.1.entries ++ [nid] := by
  rw [mergeEntry,find]
  cases found : st.1.entries.find? (fun e => e.nodeId == nid) with
  | none =>
    rw [if_neg ((find_none_iff _ _).mp found)]
    simp [nodesOf]
  | some e =>
    have present : nid ∈ nodesOf st.1.entries := by
      by_contra absent
      rw [(find_none_iff _ _).mpr absent] at found
      cases found
    rw [if_pos present]
    show nodesOf (if cnt > e.count then _ else _ : GCounter × Bool).1.entries = _
    split
    · exact nodesOf_updated st.1.entries nid (fun _ => cnt)
    · rfl

/-- Reads `n` entries; the caller has checked that they are there. -/
def readEntries : Nat → Bytes → List GCounterEntry
  | 0, _ => []
  | n+1, p => ⟨readU16 p,readU64 (p.drop 2)⟩ :: readEntries n (p.drop entryWireSize)

/-- The entries that a merge takes from bytes; none from those that are cut off. -/
def carriedEntries (data : Bytes) : List GCounterEntry :=
  if data.length < 1 then []
  else if data.length < 1 + (byteAt data 0).toNat * entryWireSize then []
  else readEntries (byteAt data 0).toNat (data.drop 1)

/-- Merges entries one after the other. -/
def mergeEntries (st : GCounter × Bool) (l : List GCounterEntry) : GCounter × Bool :=
  l.foldl (fun st e => mergeEntry st e.nodeId e.count) st

theorem mergeLoop_eq (n : Nat) (p : Bytes) (st : GCounter × Bool) :
    mergeLoop n p st = mergeEntries st (readEntries n p) := by
  induction n generalizing p st with
  | zero => rfl
  | succ n ih =>
    rw [mergeLoop,ih]
    rfl

theorem merge_eq (c : GCounter) (data : Bytes) : c.merge data = mergeEntries (c,false) (carriedEntries data) := by
  rw [merge,carriedEntries]
  by_cases short : data.length < 1
  · rw [if_pos short,if_pos short]
    rfl
  · rw [if_neg short,if_neg short]
    by_cases cut : data.length < 1 + (byteAt data 0).toNat * entryWireSize
    · rw [if_pos cut,if_pos cut]
      rfl
    · rw [if_neg cut,if_neg cut,mergeLoop_eq]

/-- The largest count that some entries have for a node. -/
def largest : List GCounterEntry → UInt16 → ℕ
  | [], _ => 0
  | e :: l, n => if e.nodeId = n then max e.count.toNat (largest l n) else largest l n

theorem countOf_mergeEntries (l : List GCounterEntry) (st : GCounter × Bool) (n : UInt16) :
    (mergeEntries st l).1.countOf n = max (st.1.countOf n) (largest l n) := by
  induction l generalizing st with
  | nil => exact (Nat.max_zero _).symm
  | cons e l ih =>
    rw [mergeEntries,List.foldl_cons]
    refine (ih _).trans ?_
    rw [countOf_mergeEntry,largest]
    by_cases same : e.nodeId = n
    · rw [if_pos same.symm,if_pos same,max_assoc]
    · rw [if_neg (Ne.symm same),if_neg same]

/-- A merge takes the larger count of each node. -/
theorem countOf_merge (c : GCounter) (data : Bytes) (n : UInt16) :
    (c.merge data).1.countOf n = max (c.countOf n) (largest (carriedEntries data) n) := by
  rw [merge_eq,countOf_mergeEntries]

theorem largest_eq_countIn {l : List GCounterEntry} (distinct : (nodesOf l).Nodup) (n : UInt16) :
    largest l n = countIn l n := by
  induction l with
  | nil => rfl
  | cons e l ih =>
    rw [nodesOf,List.map_cons,List.nodup_cons] at distinct
    have rest : largest l n = countIn l n := ih distinct.2
    rw [largest,countIn_cons]
    by_cases same : e.nodeId = n
    · have absent : countIn l n = 0 := countIn_of_not_mem (same ▸ distinct.1)
      rw [if_pos same,if_pos same,rest,absent,Nat.max_zero]
    · rw [if_neg same,if_neg same,rest]

/-! ### Payloads -/

/-- Entries on the wire, behind their number. -/
def encodeEntries (l : List GCounterEntry) : Bytes := UInt8.ofNat l.length :: l.flatMap encodeEntry

theorem snapshot_eq (c : GCounter) : c.snapshot = encodeEntries c.entries := rfl

theorem readEntries_encode (l : List GCounterEntry) (rest : Bytes) {n : Nat} (within : n ≤ l.length) :
    readEntries n (l.flatMap encodeEntry ++ rest) = l.take n := by
  induction n generalizing l with
  | zero => rfl
  | succ n ih =>
    match l, within with
    | e :: l, within =>
      have node : readU16 ((e :: l).flatMap encodeEntry ++ rest) = e.nodeId := by
        rw [List.flatMap_cons,encodeEntry,List.append_assoc,List.append_assoc,readU16_write]
      have count : readU64 (((e :: l).flatMap encodeEntry ++ rest).drop 2) = e.count := by
        rw [List.flatMap_cons,encodeEntry,List.append_assoc,List.append_assoc,drop_writeU16,readU64_write]
      have behind : ((e :: l).flatMap encodeEntry ++ rest).drop entryWireSize = l.flatMap encodeEntry ++ rest := rfl
      rw [readEntries,node,count,behind,ih l (Nat.le_of_succ_le_succ within)]
      rfl

theorem flatMap_encodeEntry_length (l : List GCounterEntry) :
    (l.flatMap encodeEntry).length = l.length * entryWireSize := by
  induction l with
  | nil => rfl
  | cons e l ih =>
    rw [List.flatMap_cons,List.length_append,ih,List.length_cons,Nat.add_mul,Nat.one_mul,Nat.add_comm]
    rfl

theorem encodeEntries_length (l : List GCounterEntry) : (encodeEntries l).length = 1 + l.length * entryWireSize := by
  rw [encodeEntries,List.length_cons,flatMap_encodeEntry_length,Nat.add_comm]

/-- What is read back of entries on the wire: as many as the count byte says. -/
theorem carriedEntries_encode (l : List GCounterEntry) : carriedEntries (encodeEntries l) = l.take (l.length % 2^8) := by
  have number : (byteAt (encodeEntries l) 0).toNat = l.length % 2^8 := UInt8.toNat_ofNat'
  have read := readEntries_encode l [] (Nat.mod_le l.length (2^8))
  rw [List.append_nil] at read
  rw [carriedEntries,number,encodeEntries_length,if_neg (by omega),if_neg]
  · exact read
  · have few := Nat.mul_le_mul_right entryWireSize (Nat.mod_le l.length (2^8))
    omega

theorem carriedEntries_encode_of_lt {l : List GCounterEntry} (few : l.length < 2^8) :
    carriedEntries (encodeEntries l) = l := by
  rw [carriedEntries_encode,Nat.mod_eq_of_lt few,List.take_length]

/-! ### Counters of some nodes -/

/-- One entry for each of some nodes, the counter's own among them. -/
structure Sound (S : Finset UInt16) (c : GCounter) : Prop where
  distinct : (nodesOf c.entries).Nodup
  within : ∀ n ∈ nodesOf c.entries, n ∈ S
  own : c.nodeId ∈ nodesOf c.entries

variable {S : Finset UInt16}

theorem sound_new {n : UInt16} (member : n ∈ S) : Sound S (.new n) := by
  refine ⟨List.nodup_singleton n,?_,List.mem_singleton.mpr rfl⟩
  intro m listed
  rw [List.mem_singleton.mp listed]
  exact member

theorem countOf_new (n m : UInt16) : (GCounter.new n).countOf m = 0 := by
  show countIn [⟨n,0⟩] m = 0
  rw [countIn_cons]
  split
  · rfl
  · rfl

theorem sound_few {c : GCounter} (sound : Sound S c) (few : S.card ≤ 255) : c.entries.length < 2^8 := by
  have subset : (nodesOf c.entries).toFinset ⊆ S := fun n member => sound.within n (List.mem_toFinset.mp member)
  have card := Finset.card_le_card subset
  rw [List.toFinset_card_of_nodup sound.distinct,nodesOf,List.length_map] at card
  omega

theorem find_own {c : GCounter} (sound : Sound S c) : ∃ e, c.find c.nodeId = some e ∧ e.nodeId = c.nodeId := by
  cases found : c.find c.nodeId with
  | none => exact absurd sound.own ((find_none_iff _ _).mp found)
  | some e => exact ⟨e,rfl,by simpa using List.find?_some found⟩

theorem increment_entries {c : GCounter} {e : GCounterEntry} (found : c.find c.nodeId = some e) (amount : UInt64) :
    (c.increment amount).entries = updated c.entries c.nodeId (· + amount) := by
  rw [increment,found]
  rfl

theorem nodeId_increment (c : GCounter) (amount : UInt64) : (c.increment amount).nodeId = c.nodeId := by
  rw [increment]
  split
  · rfl
  · rfl

theorem sound_increment {c : GCounter} (sound : Sound S c) (amount : UInt64) : Sound S (c.increment amount) := by
  obtain ⟨e,found,_⟩ := find_own sound
  have nodes : nodesOf (c.increment amount).entries = nodesOf c.entries := by
    rw [increment_entries found,nodesOf_updated]
  constructor
  · rw [nodes]
    exact sound.distinct
  · rw [nodes]
    exact sound.within
  · rw [nodes,nodeId_increment]
    exact sound.own

/-- An increment that does not wrap adds to the own count and to no other. -/
theorem countOf_increment (c : GCounter) (amount : UInt64) (room : c.countOf c.nodeId + amount.toNat < 2^64) (n : UInt16) :
    (c.increment amount).countOf n = if n = c.nodeId then c.countOf n + amount.toNat else c.countOf n := by
  cases found : c.find c.nodeId with
  | none =>
    have absent : c.nodeId ∉ nodesOf c.entries := (find_none_iff _ _).mp found
    have entries : (c.increment amount).entries = c.entries ++ [⟨c.nodeId,amount⟩] := by
      rw [increment,found]
    rw [countOf,entries,countIn_append_of_not_mem absent]
    by_cases same : n = c.nodeId
    · rw [if_pos same.symm,if_pos same,countOf,same,countIn_of_not_mem absent,Nat.zero_add]
    · rw [if_neg (Ne.symm same),if_neg same,countOf]
  | some e =>
    have here : c.countOf c.nodeId = e.count.toNat := countIn_of_find found
    rw [countOf,increment_entries found,countIn_updated found]
    by_cases same : n = c.nodeId
    · rw [here] at room
      rw [if_pos same,if_pos same,same,here,UInt64.toNat_add,Nat.mod_eq_of_lt room]
    · rw [if_neg same,if_neg same,countOf]

theorem nodeId_mergeEntry (st : GCounter × Bool) (nid : UInt16) (cnt : UInt64) :
    (mergeEntry st nid cnt).1.nodeId = st.1.nodeId := by
  rw [mergeEntry]
  split
  · split
    · rfl
    · rfl
  · rfl

theorem nodeId_mergeEntries (l : List GCounterEntry) (st : GCounter × Bool) :
    (mergeEntries st l).1.nodeId = st.1.nodeId := by
  induction l generalizing st with
  | nil => rfl
  | cons e l ih => exact (ih _).trans (nodeId_mergeEntry st e.nodeId e.count)

theorem dirty_mergeEntry (st : GCounter × Bool) (nid : UInt16) (cnt : UInt64) :
    (mergeEntry st nid cnt).1.dirty = st.1.dirty := by
  rw [mergeEntry]
  split
  · split
    · rfl
    · rfl
  · rfl

/-- Merging entries leaves the flag of local changes alone. -/
theorem dirty_mergeEntries (l : List GCounterEntry) (st : GCounter × Bool) : (mergeEntries st l).1.dirty = st.1.dirty := by
  induction l generalizing st with
  | nil => rfl
  | cons e l ih => exact (ih _).trans (dirty_mergeEntry st e.nodeId e.count)

theorem mem_nodesOf_mergeEntry (st : GCounter × Bool) (nid : UInt16) (cnt : UInt64) (n : UInt16) :
    n ∈ nodesOf (mergeEntry st nid cnt).1.entries ↔ n ∈ nodesOf st.1.entries ∨ n = nid := by
  rw [nodesOf_mergeEntry]
  split
  · next present => exact ⟨.inl,fun either => either.elim id (fun same => same ▸ present)⟩
  · rw [List.mem_append,List.mem_singleton]

theorem nodup_mergeEntry {st : GCounter × Bool} (distinct : (nodesOf st.1.entries).Nodup) (nid : UInt16) (cnt : UInt64) :
    (nodesOf (mergeEntry st nid cnt).1.entries).Nodup := by
  rw [nodesOf_mergeEntry]
  split
  · exact distinct
  · next absent => exact List.nodup_append'.mpr ⟨distinct,List.nodup_singleton nid,by simpa using absent⟩

theorem mem_nodesOf_mergeEntries (l : List GCounterEntry) (st : GCounter × Bool) (n : UInt16) :
    n ∈ nodesOf (mergeEntries st l).1.entries ↔ n ∈ nodesOf st.1.entries ∨ n ∈ nodesOf l := by
  induction l generalizing st with
  | nil => exact ⟨.inl,fun either => either.elim id (fun none => by cases none)⟩
  | cons e l ih =>
    have rest := ih (mergeEntry st e.nodeId e.count)
    rw [mem_nodesOf_mergeEntry,or_assoc] at rest
    rw [nodesOf,nodesOf,nodesOf,List.map_cons,List.mem_cons]
    exact rest

theorem nodup_mergeEntries {l : List GCounterEntry} {st : GCounter × Bool} (distinct : (nodesOf st.1.entries).Nodup) :
    (nodesOf (mergeEntries st l).1.entries).Nodup := by
  induction l generalizing st with
  | nil => exact distinct
  | cons e l ih => exact ih (nodup_mergeEntry distinct e.nodeId e.count)

theorem sound_mergeEntries {l : List GCounterEntry} {st : GCounter × Bool} (sound : Sound S st.1)
    (within : ∀ e ∈ l, e.nodeId ∈ S) : Sound S (mergeEntries st l).1 := by
  refine ⟨nodup_mergeEntries sound.distinct,fun n member => ?_,?_⟩
  · rcases (mem_nodesOf_mergeEntries l st n).mp member with old | new
    · exact sound.within n old
    · obtain ⟨e,listed,rfl⟩ := List.mem_map.mp new
      exact within e listed
  · rw [mem_nodesOf_mergeEntries,nodeId_mergeEntries]
    exact .inl sound.own

theorem sound_mono {T : Finset UInt16} {c : GCounter} (sound : Sound S c) (sub : S ⊆ T) : Sound T c :=
  ⟨sound.distinct,fun n member => sub (sound.within n member),sound.own⟩

theorem countIn_of_mem {l : List GCounterEntry} (distinct : (nodesOf l).Nodup) {e : GCounterEntry} (member : e ∈ l) :
    countIn l e.nodeId = e.count.toNat :=
  countIn_of_find ((Keyed.find_eq_some_iff GCounterEntry.nodeId distinct e.nodeId e).mpr ⟨member,rfl⟩)

/-! ### Entries that change nothing -/

theorem updated_updated (l : List GCounterEntry) (n : UInt16) (f g : UInt64 → UInt64) :
    updated (updated l n f) n g = updated l n (fun k => g (f k)) := by
  induction l with
  | nil => rfl
  | cons e l ih =>
    rw [updated_cons,updated_cons]
    by_cases same : e.nodeId = n
    · rw [if_pos same,if_pos same,updated_cons,if_pos same]
    · rw [if_neg same,if_neg same,updated_cons,if_neg same,ih]

theorem find_updated {l : List GCounterEntry} {n : UInt16} {e : GCounterEntry}
    (found : l.find? (fun e => e.nodeId == n) = some e) (f : UInt64 → UInt64) :
    (updated l n f).find? (fun e => e.nodeId == n) = some { e with count := f e.count } := by
  induction l with
  | nil => cases found
  | cons first l ih =>
    rw [updated_cons]
    by_cases here : first.nodeId = n
    · rw [List.find?_cons_of_pos (by simpa using here)] at found
      cases found
      rw [if_pos here,List.find?_cons_of_pos (by simpa using here)]
    · rw [List.find?_cons_of_neg (by simpa using here)] at found
      rw [if_neg here,List.find?_cons_of_neg (by simpa using here),ih found]

theorem updated_append_of_not_mem {l : List GCounterEntry} {e : GCounterEntry} (absent : e.nodeId ∉ nodesOf l)
    (f : UInt64 → UInt64) : updated (l ++ [e]) e.nodeId f = l ++ [{ e with count := f e.count }] := by
  induction l with
  | nil =>
    rw [List.nil_append,updated_cons,if_pos rfl]
    rfl
  | cons first l ih =>
    simp only [nodesOf,List.map_cons,List.mem_cons,not_or] at absent
    rw [List.cons_append,updated_cons,if_neg (Ne.symm absent.1),ih absent.2,List.cons_append]

/-- The counter has an entry for the node, with at least the count. -/
def Has (c : GCounter) (e : GCounterEntry) : Prop :=
  e.nodeId ∈ nodesOf c.entries ∧ e.count.toNat ≤ c.countOf e.nodeId

theorem has_of_mem {c : GCounter} (sound : Sound S c) {e : GCounterEntry} (member : e ∈ c.entries) : Has c e :=
  ⟨List.mem_map.mpr ⟨e,member,rfl⟩,(countIn_of_mem sound.distinct member).ge⟩

theorem mergeEntry_of_has {st : GCounter × Bool} {e : GCounterEntry} (has : Has st.1 e) :
    mergeEntry st e.nodeId e.count = st := by
  rw [mergeEntry,find]
  cases found : st.1.entries.find? (fun f => f.nodeId == e.nodeId) with
  | none => exact absurd has.1 ((find_none_iff _ _).mp found)
  | some f =>
    have le := has.2
    rw [countOf,countIn_of_find found] at le
    exact if_neg (UInt64.not_lt.mpr (UInt64.le_iff_toNat_le.mpr le))

theorem mergeEntries_of_has {l : List GCounterEntry} {st : GCounter × Bool} (has : ∀ e ∈ l, Has st.1 e) :
    mergeEntries st l = st := by
  induction l with
  | nil => rfl
  | cons e l ih =>
    rw [mergeEntries,List.foldl_cons,mergeEntry_of_has (has e List.mem_cons_self)]
    exact ih (fun e member => has e (List.mem_cons_of_mem _ member))

theorem has_mergeEntry {st : GCounter × Bool} {e : GCounterEntry} (has : Has st.1 e) (nid : UInt16) (cnt : UInt64) :
    Has (mergeEntry st nid cnt).1 e := by
  constructor
  · rw [nodesOf_mergeEntry]
    split
    · exact has.1
    · exact List.mem_append_left _ has.1
  · rw [countOf_mergeEntry]
    split
    · exact has.2.trans (le_max_left _ _)
    · exact has.2

theorem has_mergeEntries {st : GCounter × Bool} {e : GCounterEntry} (has : Has st.1 e) (l : List GCounterEntry) :
    Has (mergeEntries st l).1 e := by
  induction l generalizing st with
  | nil => exact has
  | cons f l ih => exact ih (has_mergeEntry has f.nodeId f.count)

theorem has_mergeEntry_own (st : GCounter × Bool) (e : GCounterEntry) : Has (mergeEntry st e.nodeId e.count).1 e := by
  constructor
  · rw [nodesOf_mergeEntry]
    split
    · next present => exact present
    · exact List.mem_append_right _ (List.mem_singleton.mpr rfl)
  · rw [countOf_mergeEntry,if_pos rfl]
    exact le_max_right _ _

/-- A counter has what it has merged. -/
theorem has_merged (st : GCounter × Bool) {l : List GCounterEntry} {e : GCounterEntry} (member : e ∈ l) :
    Has (mergeEntries st l).1 e := by
  induction l generalizing st with
  | nil => cases member
  | cons f l ih =>
    rcases List.mem_cons.mp member with rfl | later
    · exact has_mergeEntries (has_mergeEntry_own st e) l
    · exact ih _ later

/-- Entries change nothing exactly if the counter has them. -/
theorem mergeEntries_unchanged_iff (st : GCounter × Bool) (l : List GCounterEntry) :
    (mergeEntries st l).1 = st.1 ↔ ∀ e ∈ l, Has st.1 e := by
  constructor
  · intro same e member
    exact same ▸ has_merged st member
  · intro has
    rw [mergeEntries_of_has has]

theorem has_increment {c : GCounter} {e : GCounterEntry} (has : Has c e) {amount : UInt64}
    (room : c.countOf c.nodeId + amount.toNat < 2^64) : Has (c.increment amount) e := by
  constructor
  · rw [increment]
    split
    · show e.nodeId ∈ nodesOf (updated c.entries c.nodeId (· + amount))
      rw [nodesOf_updated]
      exact has.1
    · show e.nodeId ∈ nodesOf (c.entries ++ _)
      rw [nodesOf,List.map_append]
      exact List.mem_append_left _ has.1
  · rw [countOf_increment c amount room]
    split
    · exact has.2.trans (Nat.le_add_right _ _)
    · exact has.2

/-- Of two entries of a node, the one with the larger count is enough. -/
theorem mergeEntry_mergeEntry (st : GCounter × Bool) (n : UInt16) {a b : UInt64} (le : a ≤ b) :
    (mergeEntry (mergeEntry st n a) n b).1 = (mergeEntry st n b).1 := by
  have entries : ∀ (c : GCounter) (changed : Bool) (k : UInt64), (mergeEntry (c,changed) n k).1 =
      { c with entries := match c.entries.find? (fun e => e.nodeId == n) with
        | some e => if k > e.count then updated c.entries n (fun _ => k) else c.entries
        | none => c.entries ++ [⟨n,k⟩] } := by
    intro c changed k
    rw [mergeEntry,find]
    cases c.entries.find? (fun e => e.nodeId == n) with
    | none => rfl
    | some e =>
      dsimp only
      split
      · rfl
      · rfl
  obtain ⟨c,changed⟩ := st
  rw [← Prod.mk.eta (p := mergeEntry (c,changed) n a),entries,entries,entries]
  refine congrArg (fun l => { c with entries := l }) ?_
  dsimp only
  cases found : c.entries.find? (fun e => e.nodeId == n) with
  | none =>
    have absent : n ∉ nodesOf c.entries := (find_none_iff _ _).mp found
    have there : (c.entries ++ [(⟨n,a⟩ : GCounterEntry)]).find? (fun e => e.nodeId == n) = some ⟨n,a⟩ := by
      rw [List.find?_append,found]
      simp
    have update := updated_append_of_not_mem (e := ⟨n,a⟩) absent (fun _ => b)
    dsimp only
    rw [there]
    dsimp only
    split
    · exact update
    · next not => rw [UInt64.le_antisymm le (UInt64.not_lt.mp not)]
  | some e =>
    dsimp only
    by_cases larger : a > e.count
    · rw [if_pos larger,find_updated found]
      dsimp only
      rw [if_pos (UInt64.lt_of_lt_of_le larger le)]
      split
      · exact updated_updated _ _ _ _
      · next not => rw [UInt64.le_antisymm le (UInt64.not_lt.mp not)]
    · rw [if_neg larger,found]

theorem localCount_eq (c : GCounter) : c.localCount.toNat = c.countOf c.nodeId := by
  rw [localCount,find,countOf,countIn]
  cases c.entries.find? (fun e => e.nodeId == c.nodeId) with
  | none => rfl
  | some e => rfl

/-! ### What is handed out -/

/-- The entries that the two-way counter sends of one half. -/
def sentEntries (c : GCounter) : List GCounterEntry := if c.dirty then (c.find c.nodeId).toList else c.entries

theorem delta_state (c : GCounter) : c.delta.2 = { c with dirty := false } := by
  rw [GCounter.delta]
  cases dirty : c.dirty with
  | false =>
    rw [Bool.not_false,if_pos rfl,← dirty]
  | true =>
    rw [Bool.not_true,if_neg Bool.false_ne_true]
    split
    · rfl
    · rfl

theorem delta_bytes {c : GCounter} (sound : Sound S c) :
    c.delta.1 = if c.dirty then encodeEntries (c.find c.nodeId).toList else [] := by
  obtain ⟨e,found,_⟩ := find_own sound
  rw [GCounter.delta]
  cases c.dirty with
  | false => rfl
  | true =>
    rw [Bool.not_true,if_neg Bool.false_ne_true,found]
    rfl

theorem deltaHalf_bytes {c : GCounter} (sound : Sound S c) : (PnCounter.deltaHalf c).1 = encodeEntries (sentEntries c) := by
  rw [PnCounter.deltaHalf,hasPendingDelta,sentEntries]
  cases dirty : c.dirty with
  | false => rfl
  | true =>
    rw [if_pos rfl,delta_bytes sound,dirty]
    rfl

theorem deltaHalf_state (c : GCounter) : (PnCounter.deltaHalf c).2 = { c with dirty := false } := by
  rw [PnCounter.deltaHalf,hasPendingDelta]
  cases dirty : c.dirty with
  | false =>
    rw [if_neg Bool.false_ne_true,← dirty]
  | true => rw [if_pos rfl,delta_state]

theorem mem_entries_of_sent {c : GCounter} {e : GCounterEntry} (member : e ∈ sentEntries c) : e ∈ c.entries := by
  rw [sentEntries] at member
  split at member
  · rw [Option.mem_toList] at member
    exact List.mem_of_find?_eq_some member
  · exact member

theorem sentEntries_sub {c : GCounter} (sound : Sound S c) : ∀ e ∈ sentEntries c, e.nodeId ∈ S :=
  fun e member => sound.within _ (List.mem_map.mpr ⟨e,mem_entries_of_sent member,rfl⟩)

theorem sentEntries_few {c : GCounter} (sound : Sound S c) (few : S.card ≤ 255) : (sentEntries c).length < 2^8 := by
  rw [sentEntries]
  split
  · cases c.find c.nodeId with
    | none => decide
    | some e => exact Nat.one_lt_two_pow (by decide)
  · exact sound_few sound few

/-- The own entry alone. -/
theorem largest_own {c : GCounter} (sound : Sound S c) (n : UInt16) :
    largest (c.find c.nodeId).toList n = if n = c.nodeId then c.countOf n else 0 := by
  obtain ⟨e,found,own⟩ := find_own sound
  have here : c.countOf c.nodeId = e.count.toNat := countIn_of_find found
  rw [found,Option.toList_some,largest,own]
  by_cases same : n = c.nodeId
  · rw [if_pos same.symm,if_pos same,same,here]
    exact Nat.max_zero _
  · rw [if_neg (Ne.symm same),if_neg same]
    rfl

/-- What is sent of a half is not more than it holds, and its own count is sent. -/
theorem largest_sentEntries {c : GCounter} (sound : Sound S c) (n : UInt16) :
    largest (sentEntries c) n ≤ c.countOf n ∧ largest (sentEntries c) c.nodeId = c.countOf c.nodeId := by
  rw [sentEntries]
  split
  · rw [largest_own sound,largest_own sound,if_pos rfl]
    split
    · exact ⟨le_rfl,rfl⟩
    · exact ⟨Nat.zero_le _,rfl⟩
  · rw [largest_eq_countIn sound.distinct,largest_eq_countIn sound.distinct]
    exact ⟨le_rfl,rfl⟩

end GCounter

namespace PnCounter
open GCounter

/-- The two halves that a merge splits bytes into, if it can. -/
def halves (data : Bytes) : Option (Bytes × Bytes) :=
  if data.length < 2 then none
  else
    let pSize := 1 + (byteAt data 0).toNat * entryWireSize
    if data.length < pSize + 1 then none else some (data.take pSize,data.drop pSize)

inductive Side where
  | up
  | down
  deriving DecidableEq, Repr

/-- The half that counts on a side. -/
def half (side : Side) (c : PnCounter) : GCounter :=
  match side with
  | .up => c.p
  | .down => c.n

/-- What a merge takes from bytes for a side. -/
def carriedOn (side : Side) (data : Bytes) : List GCounterEntry :=
  match halves data with
  | none => []
  | some h =>
    match side with
    | .up => carriedEntries h.1
    | .down => carriedEntries h.2

theorem half_merge (side : Side) (c : PnCounter) (data : Bytes) :
    half side (c.merge data).1 = (mergeEntries (half side c,false) (carriedOn side data)).1 := by
  rw [merge,carriedOn,halves]
  by_cases short : data.length < 2
  · rw [if_pos short,if_pos short]
    rfl
  · rw [if_neg short,if_neg short]
    by_cases cut : data.length < 1 + (byteAt data 0).toNat * entryWireSize + 1
    · simp only [if_pos cut]
      rfl
    · simp only [if_neg cut]
      cases side with
      | up => exact congrArg Prod.fst (GCounter.merge_eq c.p _)
      | down => exact congrArg Prod.fst (GCounter.merge_eq c.n _)

theorem halves_encode {l : List GCounterEntry} (few : l.length < 2^8) (m : List GCounterEntry) :
    halves (encodeEntries l ++ encodeEntries m) = some (encodeEntries l,encodeEntries m) := by
  have number : (byteAt (encodeEntries l ++ encodeEntries m) 0).toNat = l.length := by
    show (UInt8.ofNat l.length).toNat = l.length
    rw [UInt8.toNat_ofNat',Nat.mod_eq_of_lt few]
  have size : (encodeEntries l ++ encodeEntries m).length =
      1 + l.length * entryWireSize + (1 + m.length * entryWireSize) := by
    rw [List.length_append,encodeEntries_length,encodeEntries_length]
  rw [halves,number,size,if_neg (by omega)]
  simp only []
  rw [if_neg (by omega),← encodeEntries_length,List.take_left,List.drop_left]

/-- Two lists of entries on the wire are read back as the two sides. -/
theorem carriedOn_encode {l m : List GCounterEntry} (few : l.length < 2^8) (few' : m.length < 2^8) (side : Side) :
    carriedOn side (encodeEntries l ++ encodeEntries m) = match side with
      | .up => l
      | .down => m := by
  rw [carriedOn,halves_encode few]
  cases side with
  | up => exact carriedEntries_encode_of_lt few
  | down => exact carriedEntries_encode_of_lt few'

/-- Of two lists of entries, the first within the limit, nothing else is read back. -/
theorem mem_carriedOn_encode {l m : List GCounterEntry} (few : l.length < 2^8) {side : Side} {e : GCounterEntry}
    (member : e ∈ carriedOn side (encodeEntries l ++ encodeEntries m)) :
    e ∈ match side with
      | .up => l
      | .down => m := by
  rw [carriedOn,halves_encode few] at member
  cases side with
  | up =>
    have member : e ∈ carriedEntries (encodeEntries l) := member
    rw [carriedEntries_encode] at member
    exact List.mem_of_mem_take member
  | down =>
    have member : e ∈ carriedEntries (encodeEntries m) := member
    rw [carriedEntries_encode] at member
    exact List.mem_of_mem_take member

end PnCounter
end Rom
