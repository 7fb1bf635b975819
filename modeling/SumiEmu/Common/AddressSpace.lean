/-
# The flat address space map

A vector of blocks, sorted by their virtual address. A block reaches up to the
next one, and the last one has no end.

Iterators are positions in the vector. A position that is one past the end is
never read.
-/

import Mathlib.Algebra.Group.Action.Defs
import Mathlib.Algebra.Group.Nat.Defs
import SumiEmu.Foundations.StepFunction
import SumiEmu.Foundations.Fallible

namespace SumiEmu.Common

namespace AddressSpace

/-- Why a call goes wrong. -/
inductive Fault
  /-- An `ASSERT_MSG` fires. -/
  | assertion
  /-- An iterator outside of the vector is read, or is moved out of it. -/
  | range
  deriving DecidableEq

/-- The template parameters. -/
structure Params (π : Type) where
  /-- The bits of `VaType`. -/
  vaBits : Nat
  unmappedVa : Nat
  unmappedPa : π
  paContigSplit : Bool
  addressSpaceBits : Nat
  /-- `AddressSpaceValid`. -/
  valid : addressSpaceBits ≤ vaBits

/-- `Block`. -/
structure Block (π ε : Type) where
  virt : Nat
  phys : π
  extraInfo : ε
  deriving DecidableEq

variable {π ε : Type} [DecidableEq π] [AddAction ℕ π] [Inhabited ε]

variable (p : Params π)

/-- `VaMaximum`. -/
def Params.vaMaximum : Nat := 2 ^ p.addressSpaceBits - 1

/-- `Unmapped`. -/
def Params.Unmapped (b : Block π ε) : Prop := b.phys = p.unmappedPa

instance (p : Params π) (b : Block π ε) : Decidable (p.Unmapped b) :=
  inferInstanceAs (Decidable (_ = _))

/-- The sum of two values of `VaType`. -/
def Params.add (x y : Nat) : Nat := (x + y) % 2 ^ p.vaBits

/-- The physical address of a block at a virtual address that is not before the block. -/
def Params.physAt (b : Block π ε) (va : Nat) : π :=
  if p.paContigSplit then (va - b.virt) +ᵥ b.phys else b.phys

/-- An assertion. -/
def assert (condition : Prop) [Decidable condition] : Except Fault Unit :=
  if condition then .ok () else .error .assertion

variable (blocks : List (Block π ε))

/-- Reads through an iterator. -/
def deref (i : Nat) : Except Fault (Block π ε) :=
  match blocks[i]? with
  | some b => .ok b
  | none => .error .range

/-- `std::prev`. -/
def prev : Nat → Except Fault Nat
  | 0 => .error .range
  | i + 1 => .ok i

/-- `std::lower_bound`. -/
def lowerBound (virt : Nat) : Nat :=
  blocks.findIdx (virt ≤ ·.virt)

/-- `insert` of a vector. -/
def insert (i : Nat) (new : List (Block π ε)) : List (Block π ε) :=
  blocks.take i ++ new ++ blocks.drop i

/-- `erase` of a vector. -/
def erase (first last : Nat) : List (Block π ε) :=
  blocks.take first ++ blocks.drop last

/-- The walk of `MapLocked` to the start successor. -/
def walkToSuccessor (blocks : List (Block π ε)) (virt : Nat) : Nat → Except Fault Nat
  | 0 => .error .range
  | i + 1 => do
    let b ← deref blocks i
    if virt ≤ b.virt then walkToSuccessor blocks virt i else .ok (i + 1)

/-- `walk_back_to_predecessor`. -/
def walkBackToPredecessor (blocks : List (Block π ε)) (virt i : Nat) : Except Fault Nat := do
  let b ← deref blocks i
  if virt ≤ b.virt then
    match i with
    | 0 => .error .range
    | i + 1 => walkBackToPredecessor blocks virt i
  else .ok i

/-- The second part of `MapLocked`, when the end of the range begins a block. -/
def mapStart (virt : Nat) (phys : π) (extraInfo : ε)
    (virtEnd blockEndSuccessor : Nat) : Except Fault (List (Block π ε)) := do
  let blockStartSuccessor ← walkToSuccessor blocks virt blockEndSuccessor
  let successor ← deref blocks blockStartSuccessor
  if virtEnd < successor.virt then
    .error .assertion
  else if successor.virt = virtEnd then
    return insert blocks blockStartSuccessor [⟨virt, phys, extraInfo⟩]
  else
    let eraseStart := blockStartSuccessor + 1
    let kept :=
      if eraseStart ≠ blockEndSuccessor then erase blocks eraseStart blockEndSuccessor else blocks
    return kept.set blockStartSuccessor ⟨virt, phys, extraInfo⟩

/-- What `MapLocked` does to the blocks. -/
def mapBlocks (vaLimit : Nat) (blocks : List (Block π ε)) (virt : Nat) (phys : π)
    (size : Nat) (extraInfo : ε) : Except Fault (List (Block π ε)) := do
  let virtEnd := p.add virt size
  assert (virtEnd ≤ vaLimit)
  let blockEndSuccessor := lowerBound blocks virtEnd
  assert (blockEndSuccessor ≠ 0)
  let blockEndPredecessor ← prev blockEndSuccessor
  let predecessor ← deref blocks blockEndPredecessor
  if blockEndSuccessor ≠ blocks.length then
    let successor ← deref blocks blockEndSuccessor
    if successor.virt ≠ virtEnd then
      let tailPhys := if p.Unmapped predecessor then predecessor.phys
        else p.physAt predecessor virtEnd
      if blockEndPredecessor ≠ 0 ∧ virt ≤ predecessor.virt then
        mapStart (blocks.set blockEndPredecessor ⟨virtEnd, tailPhys, predecessor.extraInfo⟩)
          virt phys extraInfo virtEnd blockEndPredecessor
      else
        return insert blocks blockEndSuccessor
          [⟨virt, phys, extraInfo⟩, ⟨virtEnd, tailPhys, predecessor.extraInfo⟩]
    else mapStart blocks virt phys extraInfo virtEnd blockEndSuccessor
  else if blockEndPredecessor ≠ 0 ∧ virt ≤ predecessor.virt then
    mapStart (blocks.set blockEndPredecessor { predecessor with virt := virtEnd })
      virt phys extraInfo virtEnd blockEndPredecessor
  else
    return insert blocks blockEndSuccessor
      [⟨virt, phys, extraInfo⟩, ⟨virtEnd, p.unmappedPa, default⟩]

/-- `erase_blocks_with_end_unmapped`. -/
def eraseBlocksWithEndUnmapped (blocks : List (Block π ε)) (virt unmappedEnd : Nat) :
    Except Fault (List (Block π ε)) := do
  let blockStartPredecessor ← walkBackToPredecessor blocks virt unmappedEnd
  let blockStartSuccessor := blockStartPredecessor + 1
  let predecessor ← deref blocks blockStartPredecessor
  let «end» ← deref blocks unmappedEnd
  let (blocks, eraseEnd) :=
    if p.Unmapped predecessor then (blocks, unmappedEnd + 1)
    else (blocks.set unmappedEnd { «end» with virt := virt }, unmappedEnd)
  let contiguous := (blocks[eraseEnd]?).any (p.Unmapped ·)
  assert (¬ (eraseEnd ≠ blocks.length ∧
    (eraseEnd = blockStartSuccessor ∨ (p.Unmapped predecessor ∧ contiguous))))
  return erase blocks blockStartSuccessor eraseEnd

/-- The last part of `UnmapLocked`, when the end of the range begins a mapped block. -/
def unmapStart (blocks : List (Block π ε)) (virt virtEnd : Nat)
    (blockEndSuccessor blockEndPredecessor : Nat) : Except Fault (List (Block π ε)) := do
  let blockStartPredecessor ← walkBackToPredecessor blocks virt blockEndSuccessor
  let blockStartSuccessor := blockStartPredecessor + 1
  let predecessor ← deref blocks blockStartPredecessor
  let successor ← deref blocks blockStartSuccessor
  if virtEnd < successor.virt then
    .error .assertion
  else if successor.virt = virtEnd then
    if p.Unmapped predecessor then return blocks
    else return insert blocks blockStartSuccessor [⟨virt, p.unmappedPa, default⟩]
  else if p.Unmapped predecessor then
    return erase blocks blockStartSuccessor blockEndPredecessor
  else
    let eraseStart := blockStartSuccessor + 1
    let kept :=
      if eraseStart ≠ blockEndSuccessor then erase blocks eraseStart blockEndSuccessor else blocks
    return kept.set blockStartSuccessor { successor with virt := virt, phys := p.unmappedPa }

/-- What `UnmapLocked` does to the blocks. When the predecessor is mapped the vector has a
successor, so the assertion that follows the read of it cannot fire. -/
def unmapBlocks (vaLimit : Nat) (blocks : List (Block π ε)) (virt size : Nat) :
    Except Fault (List (Block π ε)) := do
  let virtEnd := p.add virt size
  assert (virtEnd ≤ vaLimit)
  let blockEndSuccessor := lowerBound blocks virtEnd
  assert (blockEndSuccessor ≠ 0)
  let blockEndPredecessor ← prev blockEndSuccessor
  let predecessor ← deref blocks blockEndPredecessor
  if p.Unmapped predecessor then
    if virt < predecessor.virt then eraseBlocksWithEndUnmapped p blocks virt blockEndPredecessor
    else return blocks
  else
    let successor ← deref blocks blockEndSuccessor
    if successor.virt = virtEnd ∧ p.Unmapped successor then
      eraseBlocksWithEndUnmapped p blocks virt blockEndSuccessor
    else if successor.virt ≠ virtEnd then
      let tailPhys := p.physAt predecessor virtEnd
      if virt ≤ predecessor.virt then
        let blockEndPredecessor' ← prev blockEndPredecessor
        unmapStart p (blocks.set blockEndPredecessor
          { predecessor with virt := virtEnd, phys := tailPhys })
          virt virtEnd blockEndPredecessor blockEndPredecessor'
      else
        return insert blocks blockEndSuccessor
          [⟨virt, p.unmappedPa, default⟩, ⟨virtEnd, tailPhys, predecessor.extraInfo⟩]
    else unmapStart p blocks virt virtEnd blockEndSuccessor blockEndPredecessor

end AddressSpace

open AddressSpace

/-- `FlatAddressSpaceMap`. -/
structure FlatAddressSpaceMap (π ε : Type) where
  blocks : List (Block π ε)
  vaLimit : Nat
  /-- The calls of `unmap_callback`, the latest one first. -/
  unmapCallbacks : List (Nat × Nat) := []

namespace FlatAddressSpaceMap

variable {π ε : Type} [DecidableEq π] [AddAction ℕ π] [Inhabited ε]

/-- The constructor. -/
def new (p : Params π) (vaLimit : Nat) : Except Fault (FlatAddressSpaceMap π ε) := do
  assert (vaLimit ≤ p.vaMaximum)
  return { blocks := [⟨p.unmappedVa, p.unmappedPa, default⟩], vaLimit }

/-- `MapLocked`. -/
def mapLocked (p : Params π) (m : FlatAddressSpaceMap π ε) (virt : Nat) (phys : π) (size : Nat)
    (extraInfo : ε) : Except Fault (FlatAddressSpaceMap π ε) := do
  let blocks ← mapBlocks p m.vaLimit m.blocks virt phys size extraInfo
  return { m with blocks, unmapCallbacks := (virt, size) :: m.unmapCallbacks }

/-- `UnmapLocked`. -/
def unmapLocked (p : Params π) (m : FlatAddressSpaceMap π ε) (virt size : Nat) :
    Except Fault (FlatAddressSpaceMap π ε) := do
  let blocks ← unmapBlocks p m.vaLimit m.blocks virt size
  return { m with blocks, unmapCallbacks := (virt, size) :: m.unmapCallbacks }

end FlatAddressSpaceMap

end SumiEmu.Common
