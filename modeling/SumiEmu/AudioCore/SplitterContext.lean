/-
# The splitter context

A splitter sends a mix to several destinations, which are linked in a list through the
destinations themselves. An update reads headers from memory of the guest: each names a splitter
and the ids of its new destinations, and behind them come headers for the destinations.
-/

import Mathlib.Algebra.Group.Nat.Defs
import SumiEmu.Foundations.Fallible

namespace SumiEmu.AudioCore

open Fallible

/-- An access outside of an array, or a loop that has not ended in the rounds given to it. -/
inductive Fault
  | outOfRange
  | unfinished
  deriving DecidableEq

/-- A number as a `u32`. -/
def u32 (n : Nat) : Nat := n % 2 ^ 32

/-! ## Input -/

/-- The input buffer, by byte. -/
abbrev Input : Type := Nat → BitVec 8

/-- A little-endian `u32` of the input. -/
def u32At (input : Input) (offset : Nat) : Nat :=
  (input offset).toNat + 0x100 * (input (offset + 1)).toNat + 0x10000 * (input (offset + 2)).toNat +
    0x1000000 * (input (offset + 3)).toNat

/-- The same as an `s32`. -/
def s32At (input : Input) (offset : Nat) : Int := (BitVec.ofNat 32 (u32At input offset)).toInt

/-- `Common::MakeMagic`. -/
def makeMagic (a b c d : Char) : Nat :=
  a.toNat + 0x100 * b.toNat + 0x10000 * c.toNat + 0x1000000 * d.toNat

/-- The magic of the header. -/
def splitterInParamHeaderMagic : Nat := makeMagic 'S' 'N' 'D' 'H'
/-- The magic of a splitter. -/
def splitterInfoMagic : Nat := makeMagic 'S' 'N' 'D' 'I'
/-- The magic of a destination. -/
def splitterSendDataMagic : Nat := makeMagic 'S' 'N' 'D' 'D'

/-- The header of an update. -/
structure InParameterHeader where
  magic : Nat
  infoCount : Nat
  destinationCount : Nat

/-- `sizeof(InParameterHeader)`. -/
def InParameterHeader.size : Nat := 0x20

/-- The header at an offset. -/
def InParameterHeader.read (input : Input) (offset : Nat) : InParameterHeader :=
  ⟨u32At input offset, u32At input (offset + 4), u32At input (offset + 8)⟩

/-! ## Destinations -/

/-- `MaxMixBuffers`. -/
def maxMixBuffers : Nat := 24
/-- `UnusedMixId`. -/
def unusedMixId : Int := 0x7FFFFFFF

/-- A destination, with the id of the next one of its splitter. -/
structure SplitterDestinationData where
  id : Int
  destinationId : Int
  mixVolumes : List Nat
  prevMixVolumes : List Nat
  next : Option Nat
  inUse : Bool
  needUpdate : Bool

namespace SplitterDestinationData

/-- What an update says of a destination. -/
structure InParameter where
  magic : Nat
  id : Int
  mixVolumes : List Nat
  mixId : Int
  inUse : Bool

/-- `sizeof(InParameter)`. -/
def InParameter.size : Nat := 0x70

/-- The parameters at an offset. -/
def InParameter.read (input : Input) (offset : Nat) : InParameter where
  magic := u32At input offset
  id := s32At input (offset + 4)
  mixVolumes := (List.range maxMixBuffers).map fun i => u32At input (offset + 8 + 4 * i)
  mixId := s32At input (offset + 0x68)
  inUse := input (offset + 0x6C) ≠ 0

/-- A new destination. -/
def new (id : Nat) : SplitterDestinationData :=
  ⟨id, unusedMixId, List.replicate maxMixBuffers 0, List.replicate maxMixBuffers 0, none, false,
      false⟩

/-- `Update`: parameters of another id or magic are passed over. -/
def update (data : SplitterDestinationData) (params : InParameter) : SplitterDestinationData :=
  if params.id ≠ data.id ∨ params.magic ≠ splitterSendDataMagic then data
  else
    let data := { data with destinationId := params.mixId, mixVolumes := params.mixVolumes }
    let data :=
      if data.inUse = false ∧ params.inUse = true then
        { data with prevMixVolumes := data.mixVolumes, needUpdate := false }
      else data
    { data with inUse := params.inUse }

end SplitterDestinationData

/-! ## Splitters -/

/-- A splitter, with the id of its first destination. -/
structure SplitterInfo where
  id : Int
  sampleRate : Nat
  destinationCount : Nat
  hasNewConnection : Bool
  destinations : Option Nat

namespace SplitterInfo

/-- What an update says of a splitter, before the ids of its destinations. -/
structure InParameter where
  magic : Nat
  id : Int
  sampleRate : Nat
  destinationCount : Nat

/-- The size without the ids. -/
def InParameter.size : Nat := 0x10

/-- The parameters at an offset. -/
def InParameter.read (input : Input) (offset : Nat) : InParameter where
  magic := u32At input offset
  id := s32At input (offset + 4)
  sampleRate := u32At input (offset + 8)
  destinationCount := u32At input (offset + 0xC)

/-- A new splitter. -/
def new (id : Nat) : SplitterInfo := ⟨id, 0, 0, true, none⟩

/-- The splitter that it has become, and the size of what has been read. -/
def update (info : SplitterInfo) (params : InParameter) : SplitterInfo × Nat :=
  if params.id ≠ info.id then (info, 0)
  else
    ({ info with sampleRate := params.sampleRate, hasNewConnection := true },
      u32 (InParameter.size + 3 * 4 + params.destinationCount * 4))

end SplitterInfo

/-! ## The context -/

/-- The splitters and the pool of destinations. -/
structure SplitterContext where
  splitterInfos : Nat → SplitterInfo
  infoCount : Nat
  splitterDestinations : Nat → SplitterDestinationData
  destinationsCount : Nat
  splitterBugFixed : Bool

namespace SplitterContext

/-- `Initialize` with room for splitters and destinations. -/
def initializeContext (infoCount destinationsCount : Nat) (splitterBugFixed : Bool) :
    SplitterContext :=
  ⟨SplitterInfo.new, infoCount, SplitterDestinationData.new, destinationsCount, splitterBugFixed⟩

variable (context : SplitterContext)

/-- The splitter of an id. -/
def info (id : Nat) : Except Fault SplitterInfo :=
  if id < context.infoCount then .ok (context.splitterInfos id) else .error .outOfRange

/-- The destination of an id. -/
def data (id : Nat) : Except Fault SplitterDestinationData :=
  if id < context.destinationsCount then .ok (context.splitterDestinations id)
    else .error .outOfRange

/-- A splitter is written. -/
def setInfo (id : Nat) (info : SplitterInfo) : SplitterContext :=
  { context with splitterInfos := Function.update context.splitterInfos id info }

/-- A destination is written. -/
def setData (id : Nat) (data : SplitterDestinationData) : SplitterContext :=
  { context with splitterDestinations := Function.update context.splitterDestinations id data }

/-- The link of a destination is written. -/
def setNext (id : Nat) (next : Option Nat) : Except Fault SplitterContext := do
  let data ← context.data id
  return context.setData id { data with next }

/-- `GetDestCountPerInfoForCompat`. -/
def getDestCountPerInfoForCompat : Nat :=
  if context.infoCount = 0 then 0 else context.destinationsCount / context.infoCount

/-- The destinations of a list are taken apart. Where the list runs in a circle, it ends at one that
has been taken out before. -/
def clearLoop : Nat → Option Nat → SplitterContext → Except Fault SplitterContext
  | _, none, context => .ok context
  | 0, some _, _ => .error .unfinished
  | rounds + 1, some destination, context => do
    let data ← context.data destination
    let context ← context.setNext destination none
    clearLoop rounds data.next context

/-- The destinations are linked, each to the next one. An id that is none of a destination stops the
loop only when the place it stands for is written to. -/
def linkLoop : Nat → List Nat → SplitterContext → Except Fault SplitterContext
  | _, [], context => .ok context
  | current, next :: ids, context => do
    let context ← context.setNext current (some next)
    linkLoop next ids context

/-- How many of its ids a header has a list made of. -/
def destCount (header : SplitterInfo.InParameter) : Nat :=
  if context.splitterBugFixed then header.destinationCount
  else min header.destinationCount context.getDestCountPerInfoForCompat

/-- The ids behind a header. -/
def destinationIds (input : Input) (offset count : Nat) : List Nat :=
  (List.range count).map fun i => u32At input (offset + SplitterInfo.InParameter.size + 4 * i)

/-- `RecomposeDestination`: the old list is unlinked, then the new ids are linked in order. -/
def recomposeDestination (id : Nat) (ids : List Nat) : Except Fault SplitterContext := do
  let outInfo ← context.info id
  let context ← context.clearLoop (context.destinationsCount + 1) outInfo.destinations
  let context := context.setInfo id { outInfo with destinations := none }
  match ids with
  | [] => return context
  | head :: ids =>
    let context ← context.linkLoop head ids
    return context.setInfo id { outInfo with
      destinations := some head, destinationCount := ids.length + 1 }

/-- `UpdateInfo`, which ends at an id that is not one of a splitter. -/
def updateInfo (input : Input) : Nat → Nat → SplitterContext → Except Fault (SplitterContext × Nat)
  | 0, offset, context => .ok (context, offset)
  | splitters + 1, offset, context =>
    let header := SplitterInfo.InParameter.read input offset
    if header.magic ≠ splitterInfoMagic then updateInfo input splitters offset context
    else if header.id < 0 ∨ (context.infoCount : Int) < header.id then .ok (context, offset)
    else do
      let id := header.id.toNat
      let context ← context.recomposeDestination id
        (destinationIds input offset (context.destCount header))
      let info ← context.info id
      let (info, size) := info.update header
      updateInfo input splitters (u32 (offset + size)) (context.setInfo id info)

/-- `UpdateData`, for the destinations that are left. -/
def updateData (input : Input) : Nat → Nat → SplitterContext → Except Fault (SplitterContext × Nat)
  | 0, offset, context => .ok (context, offset)
  | count + 1, offset, context =>
    let header := SplitterDestinationData.InParameter.read input offset
    if header.magic ≠ splitterSendDataMagic then updateData input count offset context
    else if header.id < 0 ∨ (context.destinationsCount : Int) < header.id
      then updateData input count offset context
    else do
      let id := header.id.toNat
      let data ← context.data id
      updateData input count (u32 (offset + SplitterDestinationData.InParameter.size))
        (context.setData id (data.update header))

/-- Every flag of a new connection is cleared. -/
def clearNewConnectionFlags : SplitterContext :=
  { context with splitterInfos := fun i =>
      { context.splitterInfos i with hasNewConnection := false } }

/-- `Common::AlignUp`. -/
def alignUp (value size : Nat) : Nat := (value + (size - 1)) / size * size

/-- What an update gives: whether it has been made, and how much of the input it has consumed. -/
structure Updated where
  context : SplitterContext
  done : Bool
  consumedSize : Nat

/-- `Update`: the header, the splitters, the destinations. -/
def update (input : Input) : Except Fault Updated :=
  let params := InParameterHeader.read input 0
  if context.destinationsCount = 0 ∨ context.infoCount = 0 then .ok ⟨context, true, 0⟩
  else if params.magic ≠ splitterInParamHeaderMagic then .ok ⟨context, false, 0⟩
  else do
    let (context, offset) ← updateInfo input params.infoCount InParameterHeader.size
      context.clearNewConnectionFlags
    let (context, offset) ← updateData input params.destinationCount offset context
    return ⟨context, true, u32 (alignUp offset 0x10)⟩

end SplitterContext

end SumiEmu.AudioCore
