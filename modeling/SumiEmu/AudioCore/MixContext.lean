/-
# The mix context

Every mix feeds into its destination, and a chain of destinations ends at the final mix, is cut off
by a mix without a destination, or runs in a circle. Sorting the mixes first measures for each one
in use how far the final mix is, and then puts the far ones in front. A pointer to a mix is its
index here, and both spans have as many elements as the context counts mixes.
-/

import SumiEmu.AudioCore.SplitterContext
import SumiEmu.Foundations.Walks

namespace SumiEmu.AudioCore

open Foundations.Chains

/-- `FinalMixId`. -/
def FinalMixId : Int := 0

/-- `UnusedMixId`. -/
def UnusedMixId : Int := 2 ^ 31 - 1

/-- `InvalidDistanceFromFinalMix`. -/
def InvalidDistanceFromFinalMix : Int := - 2 ^ 31

/-- A mix. -/
structure MixInfo where
  bufferCount : BitVec 16
  inUse : Bool
  mixId : Int
  bufferOffset : BitVec 16
  distanceFromFinalMix : Int
  dstMixId : Int
  deriving DecidableEq

structure MixContext where
  mixInfos : List MixInfo
  sortedMixInfos : List Nat
  deriving DecidableEq

namespace MixContext

variable (mixes : List MixInfo)

/-- The mix of an id. -/
def infoAt (id : Int) : Except Fault MixInfo :=
  if id < 0 then .error .outOfRange
  else match mixes[id.toNat]? with
    | none => .error .outOfRange
    | some mix => .ok mix

/-- The inner loop of `UpdateDistancesFromFinalMix`; `rounds` is how far the distance is below the
count. -/
def followDestinations (mixes : List MixInfo) : Nat → Int → Int → Except Fault Int
  | 0, _, distance => .ok distance
  | rounds + 1, mixId, distance =>
    if mixId = FinalMixId then .ok distance
    else if mixId = UnusedMixId then .ok InvalidDistanceFromFinalMix
    else do
      let mix ← infoAt mixes mixId
      if mix.distanceFromFinalMix ≠ InvalidDistanceFromFinalMix
        then .ok (mix.distanceFromFinalMix + 1)
      else followDestinations mixes rounds mix.dstMixId (distance + 1)

def distanceToFinalMix (mixId : Int) : Except Fault Int := do
  let distance ← followDestinations mixes mixes.length mixId FinalMixId
  return if (mixes.length : Int) ≤ distance then InvalidDistanceFromFinalMix else distance

/-- One round of the outer loop of `UpdateDistancesFromFinalMix`. -/
def updateDistance (context : MixContext) (i : Nat) : Except Fault MixContext := do
  let mix ← infoAt context.mixInfos i
  let sorted := context.sortedMixInfos.set i i
  if mix.inUse then
    let distance ← distanceToFinalMix context.mixInfos mix.mixId
    return ⟨context.mixInfos.set i { mix with distanceFromFinalMix := distance }, sorted⟩
  else return ⟨context.mixInfos, sorted⟩

/-- `UpdateDistancesFromFinalMix`. -/
def updateDistancesFromFinalMix (context : MixContext) : Except Fault MixContext :=
  let cleared := context.mixInfos.map fun mix =>
    { mix with distanceFromFinalMix := InvalidDistanceFromFinalMix }
  (List.range context.mixInfos.length).foldlM updateDistance { context with mixInfos := cleared }

/-- The loop of `CalcMixBufferOffset` over the sorted mixes. -/
def placeBuffers : List Nat → BitVec 16 → List MixInfo → Except Fault (List MixInfo)
  | [], _, mixes => .ok mixes
  | i :: sorted, offset, mixes => do
    let mix ← infoAt mixes i
    if mix.inUse then
      placeBuffers sorted (offset + mix.bufferCount)
        (mixes.set i { mix with bufferOffset := offset })
    else placeBuffers sorted offset mixes

/-- `CalcMixBufferOffset`. -/
def calcMixBufferOffset (context : MixContext) : Except Fault MixContext := do
  let mixes ← placeBuffers context.sortedMixInfos 0 context.mixInfos
  return { context with mixInfos := mixes }

/-- The distance that a mix has. -/
def distance (i : Nat) : Int :=
  match mixes[i]? with
  | none => InvalidDistanceFromFinalMix
  | some mix => mix.distanceFromFinalMix

/-- What a sorting function of the standard library promises; it need not be stable. -/
def Sorts (sort : (Nat → Nat → Bool) → List Nat → List Nat) : Prop :=
  ∀ (key : Nat → Int) (indices : List Nat),
    (sort (fun lhs rhs => decide (key rhs < key lhs)) indices).Perm indices ∧
    (sort (fun lhs rhs => decide (key rhs < key lhs)) indices).Pairwise fun i j => key j ≤ key i

def sortInfo (sort : (Nat → Nat → Bool) → List Nat → List Nat) (context : MixContext) :
    Except Fault MixContext := do
  let context ← context.updateDistancesFromFinalMix
  let sorted := sort (fun lhs rhs => distance context.mixInfos rhs < distance context.mixInfos lhs)
    context.sortedMixInfos
  calcMixBufferOffset { context with sortedMixInfos := sorted }

/-- The mix that a mix feeds into. -/
def destination (i : Nat) : Option Nat :=
  match mixes[i]? with
  | none => none
  | some mix => if mix.dstMixId = UnusedMixId then none else some mix.dstMixId.toNat

/-- A mix is in use. -/
def InUse (i : Nat) : Prop := ∃ mix, mixes[i]? = some mix ∧ mix.inUse = true

instance (mixes : List MixInfo) (i : Nat) : Decidable (InUse mixes i) :=
  decidable_of_iff ((mixes[i]?.map MixInfo.inUse) = some true) (by simp [InUse])

/-- The chain of a mix is at another one after so many hops, and has not passed the final mix. -/
abbrev HopsTo (n i j : Nat) : Prop := Hops (destination mixes) 0 n i j

abbrev ReachesFinal (i : Nat) : Prop := Reaches (destination mixes) 0 i

/-- Every mix has its index as its id and a destination that is unused or a mix. -/
structure WellFormed (context : MixContext) : Prop where
  counted : context.mixInfos.length < 2 ^ 31
  sorted : context.sortedMixInfos.length = context.mixInfos.length
  named : ∀ (i : Nat) (mix : MixInfo), context.mixInfos[i]? = some mix → mix.mixId = i
  leads : ∀ mix ∈ context.mixInfos, mix.dstMixId = UnusedMixId ∨
    0 ≤ mix.dstMixId ∧ mix.dstMixId < context.mixInfos.length

/-- The distances are the numbers of hops to the final mix, and every mix that is heard there comes
before the mix that it feeds into. -/
structure ValidOrder (mixes : List MixInfo) (context : MixContext) : Prop where
  hops : ∀ i, InUse mixes i → ∀ n, HopsTo mixes n i 0 → distance context.mixInfos i = n
  others : ∀ i, ¬ (InUse mixes i ∧ ReachesFinal mixes i) →
    distance context.mixInfos i = InvalidDistanceFromFinalMix
  permutation : context.sortedMixInfos.Perm (List.range mixes.length)
  order : ∀ i j, i ≠ 0 → InUse mixes i → ReachesFinal mixes i → destination mixes i = some j →
    [i, j].Sublist context.sortedMixInfos

/-- The first mix of the chain whose distance is known when it is looked at is the destination
itself, or no mix before the final one is known by then. -/
def Heeds (i : Nat) : Prop :=
  InUse mixes i → ReachesFinal mixes i →
    (∃ j, destination mixes i = some j ∧ j < i ∧ InUse mixes j) ∨
      ∀ m j, 0 < m → HopsTo mixes m i j → j ≠ 0 → ¬ (j < i ∧ InUse mixes j)

end MixContext

end SumiEmu.AudioCore
