/-
# Freeing an allocation with its mappings

An allocation is freed through its own list of mappings. A buffer that is unmapped leaves the map of
mappings but not the list, and a buffer that is mapped at an offset once more is in the list twice.
Freeing then stops at a mapping that it does not find, with the mappings before it gone and the
allocation still there.
-/

import SumiEmu.Common.FlatAllocator
import SumiEmu.Nvdrv.NvhostAsGpu
import SumiEmu.VideoCore.MemoryManagerQueries

namespace SumiEmu.Nvdrv

open Foundations VideoCore VideoCore.MemoryManager List

namespace IoctlAllocSpace

variable (space : IoctlAllocSpace)

/-- The bytes of a space. -/
def size : Nat := space.pages.toNat * space.pageSize

/-- An address lies in the range of an allocation. -/
def Contains (address : Nat) : Prop :=
  space.offset ≤ address ∧ address < space.offset + space.size

/-- The call that frees an allocation as it has been made. -/
def toFree : IoctlFreeSpace := ⟨space.offset, space.pages, space.pageSize⟩

end IoctlAllocSpace

namespace NvhostAsGpu

variable {N A : Type*} (container : Container N A) (g : Geometry) (space : IoctlAllocSpace)

/-! ## What freeing an allocation should do -/

/-- The calls that are made between an allocation and its end. -/
inductive Call
  | map (params : IoctlMapBufferEx)
  | unmap (offset : Nat)

/-- What a call does. -/
def Call.apply (as : NvhostAsGpu N A) : Call → NvhostAsGpu N A
  | .map params => (as.mapBufferEx container g params).2.2
  | .unmap offset => (as.unmapBuffer container g offset).2

/-- The state after some calls. -/
def run (as : NvhostAsGpu N A) (history : List Call) : NvhostAsGpu N A :=
  history.foldl (Call.apply container g) as

/-- Each call of a history is as it should be in the state in which it is made. -/
def Along (law : NvhostAsGpu N A → Call → Prop) : NvhostAsGpu N A → List Call → Prop
  | _, [] => True
  | as, call :: history => law as call ∧ Along law (call.apply container g as) history

/-- Nothing is mapped in the range of an allocation, and no other allocation begins in it. -/
structure Fresh (as : NvhostAsGpu N A) : Prop where
  mappings : ∀ offset, space.Contains offset → as.mappingMap.get? offset = none
  allocations : ∀ offset, space.Contains offset → as.allocationMap.get? offset = none
  pages : ∀ address, space.Contains address →
    ∀ isBigPage, as.gmmu.getEntry g isBigPage address = .free

/-- A call maps a buffer at a fixed offset in the allocation, or unmaps an offset in it. -/
def Inside (as : NvhostAsGpu N A) : Call → Prop
  | .map params => MappingFlags.fixed params.flags ∧ ¬ MappingFlags.remap params.flags ∧
      space.Contains params.offset ∧
      ∀ handle, container.getHandle params.handle as.nvmap = some handle →
        params.offset + bufferSize params handle ≤ space.offset + space.size
  | .unmap offset => space.Contains offset

/-- The end of an allocation is a call that succeeds, removes all mappings in the range, unpins each
of their handles once, leaves no page of the range in use and returns the range to the allocator. -/
structure FreesWhole (as : NvhostAsGpu N A) : Prop where
  result : (as.freeSpace container g space.toFree).1 = .success
  removed : ∀ offset, space.Contains offset →
    (as.freeSpace container g space.toFree).2.mappingMap.get? offset = none
  unpinned : ∃ freed : List Mapping, freed.Nodup ∧
    (∀ mapping, mapping ∈ freed ↔ ∃ offset, space.Contains offset ∧
      as.mappingMap.get? offset = some mapping) ∧ (as.freeSpace container g space.toFree).2.nvmap =
      freed.foldl (fun nvmap mapping => container.unpinHandle mapping.handle nvmap) as.nvmap
  pages : ∀ address, space.Contains address → ∀ isBigPage,
    (as.freeSpace container g space.toFree).2.gmmu.getEntry g isBigPage address = .free
  returned : (as.freeSpace container g space.toFree).2.allocator (isBig space.pageSize) =
    container.free (space.offset / 2 ^ pageSizeBits g (isBig space.pageSize) % 2 ^ 32)
    space.pages.toNat (as.allocator (isBig space.pageSize))
  erased : (as.freeSpace container g space.toFree).2.allocationMap.get? space.offset = none

/-! ## When it does -/

/-- No page of a mapping lies behind the pages that are unmapped with a sparse allocation. -/
def Covers (bigPage : Bool) (offset size : Nat) : Prop :=
  MappingFlags.sparse space.flags → offset / 2 ^ usedPageBits g bigPage +
    size ⌈/⌉ 2 ^ usedPageBits g bigPage ≤
    space.offset / 2 ^ usedPageBits g bigPage + space.size ⌈/⌉ 2 ^ usedPageBits g bigPage

/-- A buffer is mapped where there is no mapping, and unmapped where there is none. -/
def Spares (as : NvhostAsGpu N A) : Call → Prop
  | .map params => ∀ handle, container.getHandle params.handle as.nvmap = some handle →
      as.mappingMap.get? params.offset = none ∧
      Covers g space (isBig space.pageSize && isBigPage g handle) params.offset
      (bufferSize params handle)
  | .unmap offset => as.mappingMap.get? offset = none

/-! ## The loop over the mappings -/

variable {container g space} {as as' : NvhostAsGpu N A} {offset : Nat} {mapping : Mapping}
  {mappings : List Mapping}

theorem freeMappingLocked_none (missing : as.mappingMap.get? offset = none) :
    as.freeMappingLocked container g offset = none := by
  rw [freeMappingLocked, missing]

theorem freeMappingLocked_some (container : Container N A) (g : Geometry)
    (read : as.mappingMap.get? offset = some mapping) :
    ∃ as', as.freeMappingLocked container g offset = some as' ∧
      as'.mappingMap = as.mappingMap.erase offset := by
  rw [freeMappingLocked, read]
  refine ⟨_, rfl, ?_⟩
  cases mapping.fixed <;> cases mapping.bigPage <;> rfl

/-- The loop ends when no offset comes twice and there is a mapping at each. -/
theorem freeMappings_finished : (as.freeMappings container g mappings).1 = true ↔
    (mappings.map Mapping.offset).Nodup ∧
    ∀ mapping ∈ mappings, as.mappingMap.get? mapping.offset ≠ none := by
  induction mappings generalizing as with
  | nil => simp [freeMappings]
  | cons mapping rest ih =>
    rw [map_cons, nodup_cons, forall_mem_cons, freeMappings]
    cases read : as.mappingMap.get? mapping.offset with
    | none =>
      rw [freeMappingLocked_none read]
      simp
    | some found =>
      obtain ⟨as', done, erased⟩ := freeMappingLocked_some container g read
      rw [done]
      dsimp only
      have later (other : Mapping) : as'.mappingMap.get? other.offset ≠ none ↔
          other.offset ≠ mapping.offset ∧ as.mappingMap.get? other.offset ≠ none := by
        rw [erased, OrderedMap.get?_erase]
        by_cases same : other.offset = mapping.offset <;> simp [same]
      rw [ih]
      constructor
      · rintro ⟨apart, present⟩
        refine ⟨⟨fun again => ?_,
          apart⟩, by simp, fun other member => ((later other).mp (present other member)).2⟩
        obtain ⟨other, member, same⟩ := mem_map.mp again
        exact ((later other).mp (present other member)).1 same
      · rintro ⟨⟨once, apart⟩, -, present⟩
        refine ⟨apart, fun other member =>
          (later other).mpr ⟨fun same => once ?_, present other member⟩⟩
        exact mem_map.mpr ⟨other, member, same⟩

/-- What a mapping holds in a table when it is freed. -/
def Holds (g : Geometry) (space : IoctlAllocSpace) (mapping : Mapping) (isBigPage : Bool)
    (page : Nat) : Prop :=
  (MappingFlags.sparse space.flags → mapping.bigPage = isBigPage) ∧
    Spans g isBigPage mapping.offset mapping.size page

/-- What the pages of a mapping become when it is freed. -/
def freedEntry (space : IoctlAllocSpace) : EntryType :=
  if MappingFlags.sparse space.flags then .reserved else .free

theorem releasePages_entryAt (container : Container N A) (g : Geometry) (as : NvhostAsGpu N A)
    (kind : mapping.sparseAlloc = MappingFlags.sparse space.flags) (isBigPage : Bool)
    (page : Nat) : (Holds g space mapping isBigPage page →
      (as.releasePages container g mapping.offset mapping).gmmu.entryAt isBigPage page =
      freedEntry space) ∧
    (¬ Holds g space mapping isBigPage page →
      (as.releasePages container g mapping.offset mapping).gmmu.entryAt isBigPage page =
        as.gmmu.entryAt isBigPage page) := by
  rw [Holds, releasePages, freedEntry, kind]
  cases sparse : MappingFlags.sparse space.flags
  · simp only [Bool.false_eq_true, if_false, false_implies, true_and, unmap_entryAt]
    exact ⟨fun reached => if_pos reached, fun away => if_neg away⟩
  · simp only [if_true, true_implies, mapSparse_entryAt]
    refine ⟨fun ⟨table, reached⟩ => if_pos ⟨table.symm, table ▸ reached⟩, fun away => if_neg ?_⟩
    rintro ⟨table, reached⟩
    exact away ⟨table.symm, table ▸ reached⟩

/-- What the loop leaves when it has freed all its mappings. -/
structure Freed (g : Geometry) (container : Container N A) (space : IoctlAllocSpace)
    (mappings : List Mapping)
    (as as' : NvhostAsGpu N A) : Prop where
  removed : ∀ offset ∈ mappings.map Mapping.offset, as'.mappingMap.get? offset = none
  others : ∀ offset, offset ∉ mappings.map Mapping.offset →
    as'.mappingMap.get? offset = as.mappingMap.get? offset
  nvmap : as'.nvmap = mappings.foldl (fun nvmap mapping =>
    container.unpinHandle mapping.handle nvmap) as.nvmap
  allocationMap : as'.allocationMap = as.allocationMap
  allocator : ∀ big, as'.allocator big = as.allocator big
  reached : ∀ isBigPage page, (∃ mapping ∈ mappings, Holds g space mapping isBigPage page) →
    as'.gmmu.entryAt isBigPage page = freedEntry space
  away : ∀ isBigPage page, (∀ mapping ∈ mappings, ¬ Holds g space mapping isBigPage page) →
    as'.gmmu.entryAt isBigPage page = as.gmmu.entryAt isBigPage page

theorem freeMappingLocked_freed (container : Container N A) (g : Geometry)
    (read : as.mappingMap.get? mapping.offset = some mapping)
    (isFixed : mapping.fixed = true)
    (kind : mapping.sparseAlloc = MappingFlags.sparse space.flags) :
    ∃ next, as.freeMappingLocked container g mapping.offset = some next ∧
      Freed g container space [mapping] as next := by
  rw [freeMappingLocked, read]
  dsimp only
  rw [if_pos isFixed]
  have entries := releasePages_entryAt container g
    { as with nvmap := container.unpinHandle mapping.handle as.nvmap } kind
  refine ⟨_, rfl, fun offset member => ?_, fun offset out => ?_, rfl, rfl, fun _ => rfl,
    fun isBigPage page reached => ?_, fun isBigPage page away => ?_⟩
  · exact OrderedMap.get?_erase.trans (if_pos (mem_singleton.mp member))
  · exact OrderedMap.get?_erase.trans (if_neg fun same => out (mem_singleton.mpr same))
  · obtain ⟨other, member, holds⟩ := reached
    obtain rfl := mem_singleton.mp member
    exact (entries isBigPage page).1 holds
  · exact (entries isBigPage page).2 (away mapping (mem_singleton_self _))

theorem Freed.cons {next : NvhostAsGpu N A} (first : Freed g container space [mapping] as next)
    (rest : Freed g container space mappings next as') :
    Freed g container space (mapping :: mappings) as as' := by
  refine ⟨fun offset member => ?_, fun offset out => ?_, ?_,
    rest.allocationMap.trans first.allocationMap, fun big => (rest.allocator big).trans
    (first.allocator big), fun isBigPage page reached => ?_, fun isBigPage page away => ?_⟩
  · by_cases later : offset ∈ mappings.map Mapping.offset
    · exact rest.removed offset later
    · rw [rest.others offset later]
      exact first.removed offset (mem_singleton.mpr ((mem_cons.mp member).resolve_right later))
  · rw [map_cons, mem_cons, not_or] at out
    rw [rest.others offset out.2]
    exact first.others offset fun member => out.1 (mem_singleton.mp member)
  · rw [rest.nvmap, first.nvmap]
    rfl
  · by_cases later : ∃ other ∈ mappings, Holds g space other isBigPage page
    · exact rest.reached isBigPage page later
    · obtain ⟨other, member, holds⟩ := reached
      obtain rfl : other = mapping := (mem_cons.mp member).resolve_right fun member =>
        later ⟨other, member, holds⟩
      rw [rest.away isBigPage page fun other member holds => later ⟨other, member, holds⟩]
      exact first.reached isBigPage page ⟨other, mem_singleton_self _, holds⟩
  · rw [rest.away isBigPage page fun other member => away other (mem_cons_of_mem _ member)]
    refine first.away isBigPage page fun other member => away other ?_
    rw [mem_singleton.mp member]
    exact mem_cons_self

theorem freeMappings_freed (container : Container N A) (g : Geometry)
    (apart : (mappings.map Mapping.offset).Nodup)
    (present : ∀ mapping ∈ mappings, as.mappingMap.get? mapping.offset = some mapping)
    (kind : ∀ mapping ∈ mappings, mapping.fixed = true ∧
    mapping.sparseAlloc = MappingFlags.sparse space.flags) :
    ∃ as', as.freeMappings container g mappings = (true, as') ∧
      Freed g container space mappings as as' := by
  induction mappings generalizing as with
  | nil => exact ⟨as, rfl,
      by simp, fun _ _ => rfl, rfl, rfl, fun _ => rfl, by simp, fun _ _ _ => rfl⟩
  | cons mapping rest ih =>
    rw [map_cons, nodup_cons] at apart
    obtain ⟨isFixed, isSparse⟩ := kind mapping mem_cons_self
    obtain ⟨next, done, first⟩ := freeMappingLocked_freed container g
      (present mapping mem_cons_self) isFixed isSparse
    have later : ∀ other ∈ rest, next.mappingMap.get? other.offset = some other := by
      intro other member
      rw [first.others other.offset fun same =>
        apart.1 (mem_singleton.mp same ▸ mem_map_of_mem member)]
      exact present other (mem_cons_of_mem _ member)
    obtain ⟨as', finished, freed⟩ := ih apart.2 later fun other member =>
      kind other (mem_cons_of_mem _ member)
    refine ⟨as', ?_, first.cons freed⟩
    rw [freeMappings, done]
    exact finished

/-! ## An allocation and its list -/

/-- The list of an allocation has all mappings in its range, and perhaps others. -/
structure Listed (g : Geometry) (space : IoctlAllocSpace) (mappings : List Mapping)
    (as : NvhostAsGpu N A) : Prop where
  initialised : as.initialised = true
  pageSize : space.pageSize = 2 ^ pageSizeBits g (isBig space.pageSize)
  allocation : as.allocationMap.get? space.offset = some
    ⟨space.size, mappings, space.pageSize, MappingFlags.sparse space.flags, isBig space.pageSize⟩
  alone : ∀ offset, space.Contains offset → offset ≠ space.offset →
    as.allocationMap.get? offset = none
  within : ∀ mapping ∈ mappings, space.Contains mapping.offset ∧
    mapping.offset + mapping.size ≤ space.offset + space.size
  kind : ∀ mapping ∈ mappings, mapping.fixed = true ∧
    mapping.sparseAlloc = MappingFlags.sparse space.flags
  listed : ∀ offset, space.Contains offset → ∀ mapping, as.mappingMap.get? offset = some mapping →
    mapping ∈ mappings ∧ mapping.offset = offset
  pages : ∀ address, space.Contains address → ∀ isBigPage,
    (∀ mapping ∈ mappings, mapping.bigPage = isBigPage →
      ¬ Spans g isBigPage mapping.offset mapping.size (address / 2 ^ usedPageBits g isBigPage)) →
    ¬ (MappingFlags.sparse space.flags ∧
      Spans g isBigPage space.offset space.size (address / 2 ^ usedPageBits g isBigPage)) →
    as.gmmu.entryAt isBigPage (address / 2 ^ usedPageBits g isBigPage) = .free

/-- Each mapping in the list is there, once, and ends where the allocation does. -/
structure Releasable (g : Geometry) (space : IoctlAllocSpace) (mappings : List Mapping)
    (as : NvhostAsGpu N A) : Prop where
  apart : (mappings.map Mapping.offset).Nodup
  present : ∀ mapping ∈ mappings, as.mappingMap.get? mapping.offset ≠ none
  covers : ∀ mapping ∈ mappings, Covers g space mapping.bigPage mapping.offset mapping.size

theorem Listed.read (listed : Listed g space mappings as)
    (apart : (mappings.map Mapping.offset).Nodup)
    (present : ∀ mapping ∈ mappings, as.mappingMap.get? mapping.offset ≠ none) :
    ∀ mapping ∈ mappings, as.mappingMap.get? mapping.offset = some mapping := by
  intro mapping member
  obtain ⟨found, read⟩ := Option.ne_none_iff_exists'.mp (present mapping member)
  obtain ⟨member', same⟩ := listed.listed mapping.offset (listed.within mapping member).1 found read
  rw [read, inj_on_of_nodup_map apart member' member same]

theorem Listed.freeSpace_eq (container : Container N A) (listed : Listed g space mappings as) :
    as.freeSpace container g space.toFree =
      (match as.freeMappings container g mappings with
      | (false, as) => (.badValue, as)
      | (true, as) => (.success, as.freeAllocation container g space.toFree
          ⟨space.size, mappings, space.pageSize, MappingFlags.sparse space.flags,
            isBig space.pageSize⟩)) := by
  have read : as.allocationAt space.toFree.offset =
      (⟨space.size, mappings, space.pageSize, MappingFlags.sparse space.flags,
        isBig space.pageSize⟩, as) := by
    rw [allocationAt, IoctlAllocSpace.toFree, listed.allocation]
  rw [freeSpace, if_neg (not_not.mpr listed.initialised), read]
  dsimp only
  exact if_neg (by simp [IoctlAllocSpace.toFree, IoctlAllocSpace.size])

/-- A mapping that reaches behind a sparse allocation has a page that is not unmapped with it. -/
theorem exists_behind {isBigPage : Bool} {offset size : Nat} (inside : space.Contains offset)
    (uncovered : ¬ Covers g space isBigPage offset size) : MappingFlags.sparse space.flags ∧
      ∃ page, Spans g isBigPage offset size page ∧
      ¬ Spans g isBigPage space.offset space.size page := by
  obtain ⟨sparse, behind⟩ := Classical.not_imp.mp uncovered
  have start : offset / 2 ^ usedPageBits g isBigPage ≤
      space.offset / 2 ^ usedPageBits g isBigPage +
      space.size ⌈/⌉ 2 ^ usedPageBits g isBigPage := by
    have positive : 0 < 2 ^ usedPageBits g isBigPage := Nat.two_pow_pos _
    obtain ⟨-, upper⟩ := inside
    generalize 2 ^ usedPageBits g isBigPage = unit at *
    have whole : space.size ≤ unit * (space.size ⌈/⌉ unit) := le_smul_ceilDiv positive
    have rest := Nat.mod_lt space.offset positive
    have parts := Nat.div_add_mod space.offset unit
    refine Nat.le_of_lt_succ (Nat.div_lt_of_lt_mul ?_)
    rw [Nat.mul_succ, Nat.mul_add]
    omega
  refine ⟨sparse, offset / 2 ^ usedPageBits g isBigPage + size ⌈/⌉ 2 ^ usedPageBits g isBigPage - 1,
    ?_⟩
  rw [Spans, Spans]
  generalize offset / 2 ^ usedPageBits g isBigPage = first at *
  generalize space.offset / 2 ^ usedPageBits g isBigPage = first' at *
  omega

theorem setAllocator_fields (as : NvhostAsGpu N A) (big : Bool) (allocator : A) :
    (as.setAllocator big allocator).initialised = as.initialised ∧
      (as.setAllocator big allocator).mappingMap = as.mappingMap ∧
      (as.setAllocator big allocator).allocationMap = as.allocationMap ∧
      (as.setAllocator big allocator).gmmu = as.gmmu ∧
      (as.setAllocator big allocator).nvmap = as.nvmap := by
  cases big <;> exact ⟨rfl, rfl, rfl, rfl, rfl⟩

theorem allocator_setAllocator (as : NvhostAsGpu N A) (big : Bool) (allocator : A) :
    (as.setAllocator big allocator).allocator big = allocator := by
  cases big <;> rfl

theorem freeAllocation_entryAt {allocation : Allocation} (isBigPage : Bool) (page : Nat) :
    (as.freeAllocation container g space.toFree allocation).gmmu.entryAt isBigPage page =
      if allocation.sparse ∧ Spans g isBigPage space.offset allocation.size page then .free
      else as.gmmu.entryAt isBigPage page := by
  rw [freeAllocation]
  cases sparse : allocation.sparse
  · simp
  · simp only [if_true, unmap_entryAt, true_and]
    rfl

/-- The pages of a sparse allocation and those of its mappings are all free at the end. -/
theorem Listed.entryAt_free (listed : Listed g space mappings as)
    (releasable : Releasable g space mappings as)
    (freed : Freed g container space mappings as as') {address : Nat}
    (inside : space.Contains address)
    (isBigPage : Bool) (out : ¬ (MappingFlags.sparse space.flags ∧
      Spans g isBigPage space.offset space.size (address / 2 ^ usedPageBits g isBigPage))) :
    as'.gmmu.entryAt isBigPage (address / 2 ^ usedPageBits g isBigPage) = .free := by
  by_cases held : ∃ mapping ∈ mappings,
    Holds g space mapping isBigPage (address / 2 ^ usedPageBits g isBigPage)
  · rw [freed.reached _ _ held, freedEntry, if_neg]
    intro sparse
    obtain ⟨mapping, member, table, -, upper⟩ := held
    obtain rfl := table sparse
    refine out ⟨sparse, Nat.div_le_div_right inside.1,
      upper.trans_le (releasable.covers mapping member sparse)⟩
  · have away : ∀ mapping ∈ mappings,
        ¬ Holds g space mapping isBigPage (address / 2 ^ usedPageBits g isBigPage) :=
      fun mapping member holds => held ⟨mapping, member, holds⟩
    rw [freed.away _ _ away]
    exact listed.pages address inside isBigPage (fun mapping member table spans =>
      away mapping member ⟨fun _ => table, spans⟩) out

theorem Listed.pages_eq (listed : Listed g space mappings as) :
    space.size / 2 ^ pageSizeBits g (isBig space.pageSize) % 2 ^ 32 = space.pages.toNat := by
  have whole : space.size = space.pages.toNat * 2 ^ pageSizeBits g (isBig space.pageSize) :=
    congrArg (space.pages.toNat * ·) listed.pageSize
  rw [whole, Nat.mul_div_cancel _ (Nat.two_pow_pos _), Nat.mod_eq_of_lt space.pages.isLt]

theorem Releasable.freesWhole (releasable : Releasable g space mappings as)
    (listed : Listed g space mappings as) : FreesWhole container g space as := by
  have read := listed.read releasable.apart releasable.present
  obtain ⟨as', finished, freed⟩ := freeMappings_freed container g releasable.apart read
    listed.kind
  have whole := listed.freeSpace_eq container
  rw [finished] at whole
  dsimp only at whole
  constructor
  all_goals rw [whole]
  · intro offset inside
    refine (congrArg (OrderedMap.get? · offset) (setAllocator_fields _ _ _).2.1).trans ?_
    by_cases member : offset ∈ mappings.map Mapping.offset
    · exact freed.removed offset member
    · rw [freed.others offset member, Option.eq_none_iff_forall_ne_some]
      intro mapping found
      obtain ⟨member', same⟩ := listed.listed offset inside mapping found
      exact member (mem_map.mpr ⟨mapping, member', same⟩)
  · refine ⟨mappings, .of_map _ releasable.apart, fun mapping => ⟨fun member => ?_, ?_⟩, ?_⟩
    · exact ⟨mapping.offset, (listed.within mapping member).1, read mapping member⟩
    · rintro ⟨offset, inside, found⟩
      exact (listed.listed offset inside mapping found).1
    · exact (setAllocator_fields _ _ _).2.2.2.2.trans freed.nvmap
  · intro address inside isBigPage
    rw [getEntry_eq, freeAllocation_entryAt]
    split_ifs with out
    · rfl
    · exact listed.entryAt_free releasable freed inside isBigPage out
  · refine (allocator_setAllocator as' (isBig space.pageSize) _).trans ?_
    rw [freed.allocator]
    exact congrArg (container.free _ · _) listed.pages_eq
  · exact OrderedMap.get?_erase.trans (if_pos rfl)

/-- The loop only ends where an allocation can be released, and its pages show whether a mapping
lies behind it. -/
theorem FreesWhole.releasable (frees : FreesWhole container g space as)
    (listed : Listed g space mappings as) : Releasable g space mappings as := by
  have whole := listed.freeSpace_eq container
  have finished : (as.freeMappings container g mappings).1 = true := by
    have result := frees.result
    rw [whole] at result
    cases loop : as.freeMappings container g mappings with
    | mk finished as' =>
      cases finished with
      | true => rfl
      | false =>
        rw [loop] at result
        cases result
  obtain ⟨apart, present⟩ := freeMappings_finished.mp finished
  refine ⟨apart, present, fun mapping member => ?_⟩
  by_contra uncovered
  have inside := listed.within mapping member
  obtain ⟨sparse, page, spans, behind⟩ := exists_behind inside.1 uncovered
  obtain ⟨address, lower, upper, here⟩ := spans.exists_address
  have free := frees.pages address ⟨inside.1.1.trans lower, upper.trans_le inside.2⟩ mapping.bigPage
  obtain ⟨as', done, freed⟩ := freeMappings_freed container g apart
    (listed.read apart present) listed.kind
  rw [whole, done, getEntry_eq, freeAllocation_entryAt, here, if_neg fun both => behind both.2,
    freed.reached _ _ ⟨mapping, member, fun _ => rfl, spans⟩, freedEntry, if_pos sparse] at free
  cases free

/-! ## The calls in between -/

theorem unmapBuffer_fields (container : Container N A) (g : Geometry)
    (initialised : as.initialised = true)
    (read : as.mappingMap.get? offset = some mapping) :
    (as.unmapBuffer container g offset).2.initialised = true ∧
      (as.unmapBuffer container g offset).2.mappingMap = as.mappingMap.erase offset ∧
      (as.unmapBuffer container g offset).2.allocationMap = as.allocationMap ∧
      (as.unmapBuffer container g offset).2.gmmu =
      (as.releasePages container g offset mapping).gmmu := by
  rw [unmapBuffer, if_neg (not_not.mpr initialised), read]
  dsimp only
  cases mapping.fixed <;> cases mapping.bigPage <;> exact ⟨initialised, rfl, rfl, rfl⟩

theorem unmapBuffer_none (missing : as.mappingMap.get? offset = none) :
    (as.unmapBuffer container g offset).2 = as := by
  rw [unmapBuffer, missing]
  split_ifs <;> rfl

/-- Unmapping keeps the list as it is, and a mapping that is unmapped stays in it. -/
theorem Listed.unmap (listed : Listed g space mappings as) (inside : space.Contains offset) :
    Listed g space mappings (as.unmapBuffer container g offset).2 ∧
      (Releasable g space mappings (as.unmapBuffer container g offset).2 ↔
        Releasable g space mappings as ∧ as.mappingMap.get? offset = none) := by
  cases read : as.mappingMap.get? offset with
  | none =>
    rw [unmapBuffer_none read]
    exact ⟨listed, (and_iff_left rfl).symm⟩
  | some mapping =>
    obtain ⟨member, rfl⟩ := listed.listed offset inside mapping read
    obtain ⟨initialised, erased, allocations, tables⟩ :=
      unmapBuffer_fields container g listed.initialised read
    refine ⟨⟨initialised, listed.pageSize, allocations ▸ listed.allocation,
      allocations ▸ listed.alone, listed.within, listed.kind, fun offset inside found read' => ?_,
      fun address inside isBigPage out out' => ?_⟩, ?_⟩
    · rw [erased, OrderedMap.get?_erase] at read'
      split_ifs at read'
      exact listed.listed offset inside found read'
    · have entries := releasePages_entryAt container g as
        (listed.kind mapping member).2 isBigPage (address / 2 ^ usedPageBits g isBigPage)
      rw [tables]
      by_cases held : Holds g space mapping isBigPage (address / 2 ^ usedPageBits g isBigPage)
      · rw [entries.1 held, freedEntry, if_neg fun sparse =>
          out mapping member (held.1 sparse) held.2]
      · rw [entries.2 held]
        exact listed.pages address inside isBigPage out out'
    · refine iff_of_false (fun releasable => releasable.present mapping member ?_) fun both => by
        cases both.2
      rw [erased, OrderedMap.get?_erase, if_pos rfl]

theorem mapBufferEx_none {params : IoctlMapBufferEx} (remap : ¬ MappingFlags.remap params.flags)
    (missing : container.getHandle params.handle as.nvmap = none) :
    (as.mapBufferEx container g params).2.2 = as := by
  rw [mapBufferEx, if_neg remap, missing]
  split_ifs <;> rfl

/-- What a buffer leaves that has been mapped in an allocation. -/
structure Mapped (g : Geometry) (space : IoctlAllocSpace) (mappings : List Mapping)
    (mapping : Mapping)
    (as as' : NvhostAsGpu N A) : Prop where
  initialised : as'.initialised = as.initialised
  mappingMap : as'.mappingMap = as.mappingMap.insert mapping.offset mapping
  allocationMap : as'.allocationMap = as.allocationMap.insert space.offset
    ⟨space.size, mappings ++ [mapping], space.pageSize, MappingFlags.sparse space.flags,
        isBig space.pageSize⟩
  entryAt : ∀ isBigPage page, as'.gmmu.entryAt isBigPage page =
    if isBigPage = mapping.bigPage ∧ Spans g mapping.bigPage mapping.offset mapping.size page
    then .mapped
    else as.gmmu.entryAt isBigPage page

theorem Listed.mapBufferEx (listed : Listed g space mappings as) {params : IoctlMapBufferEx}
    (fixed : MappingFlags.fixed params.flags) (remap : ¬ MappingFlags.remap params.flags)
    (inside : space.Contains params.offset) {handle : HandleDescription}
    (found : container.getHandle params.handle as.nvmap = some handle)
    (fits : params.offset + bufferSize params handle ≤ space.offset + space.size) :
    ∃ mapping, Mapped g space mappings mapping as (as.mapBufferEx container g params).2.2 ∧
      mapping.offset = params.offset ∧ mapping.size = bufferSize params handle ∧
      mapping.bigPage = (isBig space.pageSize && isBigPage g handle) ∧ mapping.fixed = true ∧
      mapping.sparseAlloc = MappingFlags.sparse space.flags := by
  have floor : as.allocationMap.floor? params.offset = some (space.offset,
      ⟨space.size, mappings, space.pageSize, MappingFlags.sparse space.flags,
        isBig space.pageSize⟩) := by
    refine OrderedMap.floor?_eq_some listed.allocation inside.1 fun other lower upper => ?_
    exact listed.alone other ⟨lower.le, upper.trans_lt inside.2⟩ lower.ne'
  have room : ¬ (params.offset - space.offset + bufferSize params handle) % 2 ^ 64 >
      space.size := by
    have reduced := Nat.mod_le (params.offset - space.offset + bufferSize params handle) (2 ^ 64)
    have lower := inside.1
    omega
  rw [NvhostAsGpu.mapBufferEx, if_neg (not_not.mpr listed.initialised), if_neg remap, found]
  dsimp only
  rw [if_pos fixed, mapFixed]
  dsimp only
  rw [floor]
  dsimp only
  rw [if_neg room]
  refine ⟨_, ⟨rfl, rfl, rfl, fun isBigPage page => map_entryAt _ _ _⟩, rfl, rfl, rfl, rfl, rfl⟩

theorem Mapped.listed (mapped : Mapped g space mappings mapping as as')
    (listed : Listed g space mappings as)
    (inside : space.Contains mapping.offset)
    (fits : mapping.offset + mapping.size ≤ space.offset + space.size)
    (kind : mapping.fixed = true ∧ mapping.sparseAlloc = MappingFlags.sparse space.flags) :
    Listed g space (mappings ++ [mapping]) as' where
  initialised := mapped.initialised.trans listed.initialised
  pageSize := listed.pageSize
  allocation := by rw [mapped.allocationMap, OrderedMap.get?_insert, if_pos rfl]
  alone offset inside ne := by
    rw [mapped.allocationMap, OrderedMap.get?_insert, if_neg ne]
    exact listed.alone offset inside ne
  within other member := by
    rcases mem_append.mp member with member | member
    · exact listed.within other member
    · obtain rfl := mem_singleton.mp member
      exact ⟨inside, fits⟩
  kind other member := by
    rcases mem_append.mp member with member | member
    · exact listed.kind other member
    · obtain rfl := mem_singleton.mp member
      exact kind
  listed offset inside other found := by
    rw [mapped.mappingMap, OrderedMap.get?_insert] at found
    split_ifs at found with same
    · obtain rfl := Option.some.inj found
      exact ⟨mem_append_right _ (mem_singleton_self _), same.symm⟩
    · obtain ⟨member, here⟩ := listed.listed offset inside other found
      exact ⟨mem_append_left _ member, here⟩
  pages address inside isBigPage out out' := by
    rw [mapped.entryAt, if_neg]
    · exact listed.pages address inside isBigPage
        (fun other member => out other (mem_append_left _ member)) out'
    · rintro ⟨rfl, spans⟩
      exact out mapping (mem_append_right _ (mem_singleton_self _)) rfl spans

/-- A mapping can be released with the others when there has been none in its place. -/
theorem Mapped.releasable_iff (mapped : Mapped g space mappings mapping as as')
    (listed : Listed g space mappings as) (inside : space.Contains mapping.offset) :
    Releasable g space (mappings ++ [mapping]) as' ↔ Releasable g space mappings as ∧
      as.mappingMap.get? mapping.offset = none ∧
      Covers g space mapping.bigPage mapping.offset mapping.size := by
  have read (other : Mapping) : as'.mappingMap.get? other.offset =
      if other.offset = mapping.offset then some mapping else as.mappingMap.get? other.offset := by
    rw [mapped.mappingMap, OrderedMap.get?_insert]
  constructor
  · rintro ⟨apart, present, covers⟩
    rw [map_append, nodup_append] at apart
    obtain ⟨apart, -, differ⟩ := apart
    have elsewhere (other : Mapping) (member : other ∈ mappings) : other.offset ≠ mapping.offset :=
      differ _ (mem_map_of_mem member) _ (mem_singleton_self _)
    refine ⟨⟨apart, fun other member => ?_,
      fun other member => covers other (mem_append_left _ member)⟩, ?_,
      covers mapping (mem_append_right _ (mem_singleton_self _))⟩
    · have found := present other (mem_append_left _ member)
      rwa [read, if_neg (elsewhere other member)] at found
    · rw [Option.eq_none_iff_forall_ne_some]
      intro other found
      obtain ⟨member, same⟩ := listed.listed mapping.offset inside other found
      exact elsewhere other member same
  · rintro ⟨⟨apart, present, covers⟩, missing, covered⟩
    have elsewhere (other : Mapping) (member : other ∈ mappings) : other.offset ≠ mapping.offset :=
      fun same => present other member (same ▸ missing)
    refine ⟨?_, fun other member => ?_, fun other member => ?_⟩
    · rw [map_append, nodup_append]
      refine ⟨apart, nodup_singleton _, fun offset member offset' isLast same => ?_⟩
      obtain ⟨other, member', rfl⟩ := mem_map.mp member
      exact elsewhere other member' (same.trans (mem_singleton.mp isLast))
    · rw [read]
      rcases mem_append.mp member with member | member
      · rw [if_neg (elsewhere other member)]
        exact present other member
      · rw [mem_singleton.mp member, if_pos rfl]
        simp
    · rcases mem_append.mp member with member | member
      · exact covers other member
      · rw [mem_singleton.mp member]
        exact covered

/-- A call keeps the list of an allocation, and what can be released can still be when the call
spares the mappings. -/
theorem Listed.apply (listed : Listed g space mappings as) {call : Call}
    (inside : Inside container space as call) :
    ∃ mappings', Listed g space mappings' (call.apply container g as) ∧
      (Releasable g space mappings' (call.apply container g as) ↔
        Releasable g space mappings as ∧ Spares container g space as call) := by
  cases call with
  | unmap offset => exact ⟨mappings, listed.unmap inside⟩
  | map params =>
    obtain ⟨fixed, remap, contains, fits⟩ := inside
    rw [Call.apply, Spares]
    cases found : container.getHandle params.handle as.nvmap with
    | none =>
      rw [mapBufferEx_none remap found]
      exact ⟨mappings, listed, (and_iff_left fun handle read => by cases read).symm⟩
    | some handle =>
      have fits := fits handle found
      obtain ⟨mapping, mapped, isOffset, isSize, isBigPage, kind⟩ :=
        listed.mapBufferEx (g := g) fixed remap contains found fits
      rw [← isOffset, ← isSize] at fits
      rw [← isOffset] at contains
      refine ⟨mappings ++ [mapping], mapped.listed listed contains fits kind, ?_⟩
      rw [mapped.releasable_iff listed contains, isOffset, isSize, isBigPage]
      refine and_congr_right fun _ =>
        ⟨fun spares handle' same => ?_, fun spares => spares handle rfl⟩
      obtain rfl := Option.some.inj same
      exact spares

theorem Listed.run (listed : Listed g space mappings as) {history : List Call}
    (inside : Along container g (Inside container space) as history) :
    ∃ mappings', Listed g space mappings' (as.run container g history) ∧
      (Releasable g space mappings' (as.run container g history) ↔
        Releasable g space mappings as ∧
        Along container g (Spares container g space) as history) := by
  induction history generalizing as mappings with
  | nil => exact ⟨mappings, listed, (and_iff_left trivial).symm⟩
  | cons call history ih =>
    obtain ⟨first, rest⟩ := inside
    obtain ⟨mappings', listed', iff'⟩ := listed.apply (g := g) first
    obtain ⟨mappings'', listed'', iff''⟩ := ih listed' rest
    exact ⟨mappings'', listed'', iff''.trans ((and_congr_left' iff').trans and_assoc)⟩

/-! ## From an allocation to its end -/

theorem allocateSpace_success {params : IoctlAllocSpace}
    (made : as.allocateSpace container g params = (.success, space, as')) :
    as.initialised = true ∧ space.pageSize = 2 ^ pageSizeBits g (isBig space.pageSize) ∧
      ∃ allocator, as' = (as.setAllocator (isBig space.pageSize) allocator).addAllocation container
      g space := by
  rw [allocateSpace] at made
  by_cases initialised : as.initialised = true
  · rw [if_neg (not_not.mpr initialised)] at made
    by_cases size : params.pageSize ≠ Vm.sumiPageSize ∧ params.pageSize ≠ 2 ^ g.bigPageBits
    · rw [if_pos size] at made
      cases made
    · have pageSize : params.pageSize = 2 ^ pageSizeBits g (isBig params.pageSize) := by
        by_cases small : params.pageSize = Vm.sumiPageSize
        · rw [small]
          rfl
        · have big : isBig params.pageSize = true := decide_eq_true small
          rw [big]
          exact not_not.mp fun differ => size ⟨small, differ⟩
      rw [if_neg size] at made
      dsimp only at made
      split_ifs at made
      · cases made
      · cases made
        exact ⟨initialised, pageSize, _, rfl⟩
      · cases made
      · cases made
        exact ⟨initialised, pageSize, _, rfl⟩
  · rw [if_pos initialised] at made
    cases made

theorem Fresh.listed {params : IoctlAllocSpace} (fresh : Fresh g space as)
    (made : as.allocateSpace container g params = (.success, space, as')) :
    Listed g space [] as' := by
  obtain ⟨initialised, pageSize, allocator, rfl⟩ := allocateSpace_success made
  obtain ⟨kept, mappings, allocations, tables, -⟩ :=
    setAllocator_fields as (isBig space.pageSize) allocator
  refine ⟨kept.trans initialised, pageSize, OrderedMap.get?_insert.trans (if_pos rfl),
    fun offset inside ne => ?_,
    by simp, by simp, fun offset inside mapping found => ?_,
    fun address inside isBigPage _ out => ?_⟩
  · refine OrderedMap.get?_insert.trans ((if_neg ne).trans ?_)
    rw [allocations]
    exact fresh.allocations offset inside
  · have missing := fresh.mappings offset inside
    rw [← mappings] at missing
    cases missing.symm.trans found
  · have free := fresh.pages address inside isBigPage
    rw [getEntry_eq, ← tables] at free
    rw [addAllocation]
    dsimp only
    split_ifs with sparse
    · rw [mapSparse_entryAt, if_neg]
      · exact free
      · rintro ⟨rfl, spans⟩
        exact out ⟨sparse, spans⟩
    · exact free

/-- An allocation is freed with all its mappings exactly when the calls since it was made have
unmapped none of them, have mapped nothing in the place of another, and, where the allocation is
sparse, have mapped nothing behind its last page. -/
theorem freesWhole_iff (container : Container N A) (g : Geometry) (as as' : NvhostAsGpu N A)
    (params space : IoctlAllocSpace) (history : List Call)
    (made : as.allocateSpace container g params = (.success, space, as')) (fresh : Fresh g space as)
    (inside : Along container g (Inside container space) as' history) :
    FreesWhole container g space (as'.run container g history) ↔
      Along container g (Spares container g space) as' history := by
  obtain ⟨mappings, listed, releasable⟩ := (fresh.listed made).run inside
  have start : Releasable g space [] as' := ⟨nodup_nil, by simp, by simp⟩
  have sparing := releasable.trans (and_iff_right start)
  exact ⟨fun frees => sparing.mp (frees.releasable listed),
    fun spares => (sparing.mpr spares).freesWhole listed⟩

/-! ## Two pages -/

open Common

/-- An address space of 37 bits with big pages of 64 KiB. -/
def smallGeometry : Geometry := ⟨37, 16, VideoCore.MemoryManager.smallGeometry.page_le, by decide⟩

/-- The pages of an allocator. -/
def pageParams : AddressSpace.Params Bool := FlatAllocator.params 32 0 32 FlatAllocator.wholeWord

/-- One handle of 64 KiB, and the pins of handles. -/
def pinContainer : Container (Nat → Int) FlatAllocator where
  getHandle id _ := if id = 4 then some ⟨0x10000, 0x1000⟩ else none
  pinHandle id pins := (0x8000000, Function.update pins id (pins id + 1))
  unpinHandle id pins := Function.update pins id (pins id - 1)
  deviceMemory _ := ⟨fun page => BitVec.ofNat 32 (page + 1), fun _ => 1⟩
  allocate size a :=
    match a.allocate pageParams size with
    | .ok result => result
    | .error _ => (0, a)
  allocateFixed virt size a := (a.allocateFixed pageParams virt size).toOption.getD a
  free virt size a := (a.free pageParams virt size).toOption.getD a

/-- An address space as it begins, with small pages below 2^34 and big ones behind. -/
def newSpace : NvhostAsGpu (Nat → Int) FlatAllocator where
  initialised := true
  mappingMap := .empty
  allocationMap := .empty
  smallPageAllocator := ⟨⟨[⟨0, false, ()⟩], 0x400000, []⟩, 0x4000, 0x4000⟩
  bigPageAllocator := ⟨⟨[⟨0, false, ()⟩], 0x1C0000, []⟩, 0x40000, 0x40000⟩
  gmmu := {}
  nvmap _ := 0

/-- Two small pages, where they have been allocated. -/
def twoPages : IoctlAllocSpace := ⟨2, 0x1000, 0, 0x4000000⟩

/-- A buffer is mapped at the first of the pages. -/
def mapFirst : Call := .map ⟨1, 4, 0, 0x1000, 0x4000000⟩

def withPages : NvhostAsGpu (Nat → Int) FlatAllocator :=
  (newSpace.allocateSpace pinContainer smallGeometry { twoPages with offset := 0 }).2.2

theorem withPages_made :
    newSpace.allocateSpace pinContainer smallGeometry { twoPages with offset := 0 } =
    (.success, twoPages, withPages) := rfl

theorem newSpace_fresh (space : IoctlAllocSpace) : Fresh smallGeometry space newSpace where
  mappings _ _ := rfl
  allocations _ _ := rfl
  pages _ _ isBigPage := entryAt_initial isBigPage _

theorem mapFirst_inside (as : NvhostAsGpu (Nat → Int) FlatAllocator) :
    Inside pinContainer twoPages as mapFirst := by
  refine ⟨rfl, by decide, ⟨by decide, by decide⟩, fun handle _ => ?_⟩
  show 0x4000000 + 0x1000 ≤ 0x4000000 + twoPages.size
  decide

theorem freesWhole_iff_mapFirst :
    FreesWhole pinContainer smallGeometry twoPages
      (withPages.run pinContainer smallGeometry [mapFirst]) ↔ Along pinContainer smallGeometry
      (Spares pinContainer smallGeometry twoPages) withPages [mapFirst] :=
  freesWhole_iff pinContainer smallGeometry newSpace withPages { twoPages with offset := 0 }
    twoPages [mapFirst] withPages_made (newSpace_fresh twoPages) ⟨mapFirst_inside _, trivial⟩

/-- The buffer is unmapped before the allocation is freed, and freeing fails. -/
theorem not_freesWhole_unmapped :
    newSpace.allocateSpace pinContainer smallGeometry { twoPages with offset := 0 } =
        (.success, twoPages, withPages) ∧
      Fresh smallGeometry twoPages newSpace ∧
      Along pinContainer smallGeometry (Inside pinContainer twoPages) withPages
      [mapFirst, .unmap 0x4000000] ∧ ¬ FreesWhole pinContainer smallGeometry twoPages
      (withPages.run pinContainer smallGeometry [mapFirst, .unmap 0x4000000]) := by
  refine ⟨withPages_made, newSpace_fresh twoPages,
    ⟨mapFirst_inside _, ⟨by decide, by decide⟩, trivial⟩, ?_⟩
  intro frees
  have failed : (NvhostAsGpu.freeSpace pinContainer smallGeometry
      (withPages.run pinContainer smallGeometry [mapFirst, .unmap 0x4000000]) twoPages.toFree).1 =
      .badValue := by
    decide
  rw [frees.result] at failed
  cases failed

end NvhostAsGpu

end SumiEmu.Nvdrv
