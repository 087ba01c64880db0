import Rom.Bytes
import Std.Data.ExtTreeMap

/-!
The filter in front of subscribers (`resolution.h`, `resolution.cpp`): depending
on its tier it forwards every delta, a limited number of deltas of each path a
second, deltas that differ enough from the last one forwarded, or none. Times are
in microseconds.
-/
namespace Rom
open Std

inductive ResolutionTier where
  | full
  | normal
  | coarse
  | metadata
  | other (code : UInt8) (unnamed : 0x03 < code)
  deriving DecidableEq, Repr

namespace ResolutionTier

def toByte : ResolutionTier → UInt8
  | full => 0x00
  | normal => 0x01
  | coarse => 0x02
  | metadata => 0x03
  | other code _ => code

/-- `static_cast` from a byte. -/
def ofByte (b : UInt8) : ResolutionTier :=
  if unnamed : 0x03 < b then other b unnamed
  else if b = 0x00 then full
  else if b = 0x01 then normal
  else if b = 0x02 then coarse
  else metadata

theorem ofByte_toByte (t : ResolutionTier) : ofByte t.toByte = t := by
  cases t with
  | other code unnamed => simp [toByte,ofByte,unnamed]
  | _ => decide

theorem toByte_ofByte (b : UInt8) : (ofByte b).toByte = b := by
  have all : ∀ i : Fin 256, (ofByte (UInt8.ofNat i.val)).toByte = UInt8.ofNat i.val := by decide +kernel
  simpa using all ⟨b.toNat,b.toNat_lt⟩

end ResolutionTier

structure ResolutionConfig where
  normalMaxUpdatesPerSec : UInt32 := 10
  coarseMinChangeBytes : Nat := 4
  deriving DecidableEq, Repr

structure PathRateState where
  lastSent : Nat := 0
  sentThisInterval : UInt32 := 0
  deriving DecidableEq, Repr

structure DeltaFilter where
  tier : ResolutionTier := .full
  config : ResolutionConfig := {}
  rateStates : ExtTreeMap UInt32 PathRateState := ∅
  /-- The last delta forwarded of each path. -/
  coarseStates : ExtTreeMap UInt32 Bytes := ∅
  /-- The paths that have ever had a version to announce, and whether it is pending. -/
  metadataStates : ExtTreeMap UInt32 Bool := ∅
  deltasForwarded : UInt64 := 0
  deltasFiltered : UInt64 := 0

namespace DeltaFilter

/-- The filter after the check, and whether the delta is within the rate. -/
def checkRateLimit (f : DeltaFilter) (now : Nat) (pathHash : UInt32) : DeltaFilter × Bool :=
  let state := f.rateStates.getD pathHash {}
  if state.sentThisInterval = 0 then ({ f with rateStates := f.rateStates.insert pathHash ⟨now,1⟩ },true)
  else if (now - state.lastSent) / 1000 ≥ 1000 then ({ f with rateStates := f.rateStates.insert pathHash ⟨now,1⟩ },true)
  else if state.sentThisInterval < f.config.normalMaxUpdatesPerSec then
    ({ f with
        rateStates := f.rateStates.insert pathHash { state with sentThisInterval := state.sentThisInterval + 1 } },true)
  else (f,false)

/-- How many bytes differ, those that only one of the two has included. -/
def diffBytes (last data : Bytes) : Nat :=
  (max last.length data.length - min last.length data.length) + (last.zip data).countP (fun b => b.1 != b.2)

/-- The filter after the check, and whether the delta differs enough. -/
def checkChangeThreshold (f : DeltaFilter) (pathHash : UInt32) (data : Bytes) : DeltaFilter × Bool :=
  let last := f.coarseStates.getD pathHash []
  if last.isEmpty then ({ f with coarseStates := f.coarseStates.insert pathHash data },true)
  else if diffBytes last data ≥ f.config.coarseMinChangeBytes then
    ({ f with coarseStates := f.coarseStates.insert pathHash data },true)
  else (f,false)

/-- Counts what became of a delta. -/
def record (r : DeltaFilter × Bool) : DeltaFilter × Bool :=
  if r.2 then ({ r.1 with deltasForwarded := r.1.deltasForwarded + 1 },true)
  else ({ r.1 with deltasFiltered := r.1.deltasFiltered + 1 },false)

/-- The filter after the delta, and whether the delta is to be forwarded. -/
def shouldForward (f : DeltaFilter) (now : Nat) (pathHash : UInt32) (data : Bytes) : DeltaFilter × Bool :=
  match f.tier with
  | .full => record (f,true)
  | .normal => record (f.checkRateLimit now pathHash)
  | .coarse => record (f.checkChangeThreshold pathHash data)
  | .metadata => record ({ f with metadataStates := f.metadataStates.insert pathHash true },false)
  -- a value that is no tier falls out of the switch and is not counted
  | .other _ _ => (f,false)

end DeltaFilter
end Rom
