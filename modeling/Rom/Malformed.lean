import Rom.WireFormats
import Rom.Replicas

/-!
What a merge does with bytes that are no complete payload, because a number in them
asks for more bytes than are there. It should leave the value as it is and report
no change. The two-way counter merges its first half before it looks at the second
(`cut_half_taken`); otherwise such bytes are ignored (`ignored_iff`).
-/
namespace Rom.Malformed
open Format

/-- The bytes begin with a complete payload for the value. -/
def Complete : Crdt → Bytes → Prop
  | .lwwRegister _ => LwwRegister.format.Complete
  | .gCounter _ => GCounter.format.Complete
  | .pnCounter _ => PnCounter.format.Complete
  | .orSet _ => OrSet.format.Complete

/-- The bytes have a complete first half with something behind it, and the counter
    does not have all its entries. -/
def FirstHalfNew (c : PnCounter) (data : Bytes) : Prop :=
  ∃ l rest, GCounter.format.Fits l ∧ data = GCounter.format.write l ++ rest ∧ rest ≠ [] ∧ ∃ e ∈ l, ¬ GCounter.Has c.p e

theorem pnCounter_ignored_iff (c : PnCounter) (data : Bytes) (malformed : ¬ PnCounter.format.Complete data) :
    c.merge data = (c,false) ↔ ¬ FirstHalfNew c data := by
  rw [← read_eq_none_iff,PnCounter.format,read_pair] at malformed
  rw [PnCounter.merge_read]
  cases first : GCounter.format.read data with
  | none =>
    refine iff_of_true rfl ?_
    rintro ⟨l,rest,fits,rfl,_⟩
    rw [GCounter.format.read_write l fits] at first
    cases first
  | some found =>
    obtain ⟨l,rest⟩ := found
    obtain ⟨fits,rfl⟩ := GCounter.format.of_read _ _ _ first
    have only : FirstHalfNew c (GCounter.format.write l ++ rest) ↔ rest ≠ [] ∧ ∃ e ∈ l, ¬ GCounter.Has c.p e := by
      constructor
      · rintro ⟨m,rest',fits',same,new⟩
        rw [same,GCounter.format.read_write m fits'] at first
        cases first
        exact new
      · exact fun new => ⟨l,rest,fits,rfl,new⟩
    have second : GCounter.format.read rest = none := by
      cases second : GCounter.format.read rest with
      | none => rfl
      | some found => simp [first,second] at malformed
    rw [only]
    dsimp only
    by_cases last : rest = []
    · rw [if_pos last]
      exact iff_of_true rfl (fun new => new.1 last)
    · rw [if_neg last,GCounter.merge_read,second]
      constructor
      · rintro same ⟨_,e,member,lacks⟩
        have unchanged : (GCounter.mergeEntries (c.p,false) l).1 = c.p := congrArg (fun x => x.1.p) same
        exact lacks ((GCounter.mergeEntries_unchanged_iff _ _).mp unchanged e member)
      · intro old
        have has : ∀ e ∈ l, GCounter.Has c.p e := by
          intro e member
          by_contra lacks
          exact old ⟨last,e,member,lacks⟩
        have unchanged : GCounter.mergeEntries (c.p,false) l = (c.p,false) := GCounter.mergeEntries_of_has has
        rw [unchanged]
        rfl

/-- Which incomplete bytes a merge ignores. -/
theorem ignored_iff (c : Crdt) (data : Bytes) (malformed : ¬ Complete c data) :
    c.merge data = (c,false) ↔ ∀ counter, c = .pnCounter counter → ¬ FirstHalfNew counter data := by
  cases c with
  | lwwRegister r =>
    have unread := (LwwRegister.format.read_eq_none_iff data).mpr malformed
    have ignored : r.merge data = (r,false) := by rw [LwwRegister.merge_read,unread]
    exact iff_of_true (by rw [Crdt.merge,ignored]) (by simp)
  | gCounter c =>
    have unread := (GCounter.format.read_eq_none_iff data).mpr malformed
    have ignored : c.merge data = (c,false) := by rw [GCounter.merge_read,unread]
    exact iff_of_true (by rw [Crdt.merge,ignored]) (by simp)
  | pnCounter c =>
    have half : Crdt.merge (.pnCounter c) data = (.pnCounter c,false) ↔ c.merge data = (c,false) := by
      rw [Crdt.merge,Prod.mk.injEq,Crdt.pnCounter.injEq,← Prod.mk.injEq]
    rw [half,pnCounter_ignored_iff c data malformed]
    simp
  | orSet s =>
    have unread := (OrSet.format.read_eq_none_iff data).mpr malformed
    have ignored : s.merge data = (s,false) := by rw [OrSet.merge,OrSet.decodeEntries_read,unread]; rfl
    exact iff_of_true (by rw [Crdt.merge,ignored]) (by simp)

/-- A first half that says that node 2 counts 5, and a second half that is cut off. -/
def cutPayload : Bytes := GCounter.format.write [⟨2,5⟩] ++ [1]

/-- A counter that knows of the first half. -/
def informed : PnCounter := ⟨⟨1,[⟨1,3⟩,⟨2,9⟩],true⟩,.new 1⟩

/-- The delta of a set, cut off before its tombstones. -/
def cutDelta : Bytes := ((OrSet.new 2).add [121]).delta.1.take 12

/-- The counter ignores its payload, and a set the delta. -/
theorem cut_payloads_ignored :
    Crdt.merge (.pnCounter informed) cutPayload = (.pnCounter informed,false) ∧
      Crdt.merge (.orSet ((OrSet.new 1).add [120])) cutDelta = (.orSet ((OrSet.new 1).add [120]),false) := by
  have unread : ¬ Complete (.pnCounter informed) cutPayload :=
    (PnCounter.format.read_eq_none_iff cutPayload).mp (by decide +kernel)
  have unread' : ¬ Complete (.orSet ((OrSet.new 1).add [120])) cutDelta :=
    (OrSet.format.read_eq_none_iff cutDelta).mp (by decide +kernel)
  refine ⟨(ignored_iff _ _ unread).mpr ?_,(ignored_iff _ _ unread').mpr (by simp)⟩
  rintro counter ⟨⟩ ⟨l,rest,fits,same,_,e,member,lacks⟩
  have read := GCounter.format.read_write l fits rest
  rw [← same] at read
  obtain rfl : [⟨2,5⟩] = l := congrArg Prod.fst (Option.some.inj read)
  obtain rfl := List.mem_singleton.mp member
  exact lacks ⟨by decide,by decide⟩

/-- The first half is merged, and the value grows. -/
theorem cut_half_taken :
    ¬ Complete (.pnCounter (.new 1)) cutPayload ∧
      Crdt.merge (.pnCounter (.new 1)) cutPayload = (.pnCounter ⟨⟨1,[⟨1,0⟩,⟨2,5⟩],false⟩,.new 1⟩,true) := by
  constructor
  · exact (PnCounter.format.read_eq_none_iff cutPayload).mp (by decide +kernel)
  · rfl

end Rom.Malformed
