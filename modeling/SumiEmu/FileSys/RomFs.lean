/-
# Walking the tables of an image

The directories and files of an image are entries of two tables. An entry names its sibling and a
directory its first subdirectory and its first file, all by their offsets in the tables, and nothing
keeps these from leading back. An entry that is not in its table as a whole is read as zeros, which
name the entry at the start of the table and not the end.
-/

import Mathlib.Data.Finite.Sum
import SumiEmu.FileSys.VirtualFile
import SumiEmu.Foundations.Walks

namespace SumiEmu.FileSys.RomFs

open Relation

/-! ## The image -/

/-- What is in an image, and the largest vector that there is memory for. -/
structure Image where
  content : List Byte
  room : Nat

variable (bytes : List Byte)

/-- A field of a record, the low byte first. -/
def field (place size : Nat) : Nat :=
  Nat.ofDigits 256 (((bytes.drop place).take size).map BitVec.toNat)

/-- `TableLocation`. -/
structure TableLocation where
  offset : BitVec 64
  size : BitVec 64

/-- `RomFSHeader`. -/
structure RomFSHeader where
  headerSize : BitVec 64
  directoryMeta : TableLocation
  fileMeta : TableLocation
  dataOffset : BitVec 64

/-- `DirectoryEntry`. -/
structure DirectoryEntry where
  sibling : BitVec 32 := 0
  childDir : BitVec 32 := 0
  childFile : BitVec 32 := 0
  nameLength : BitVec 32 := 0

/-- `FileEntry`. -/
structure FileEntry where
  sibling : BitVec 32 := 0
  offset : BitVec 64 := 0
  size : BitVec 64 := 0
  nameLength : BitVec 32 := 0

/-- The location at a place. -/
def tableLocation (place : Nat) : TableLocation :=
  ⟨.ofNat 64 (field bytes place 8), .ofNat 64 (field bytes (place + 8) 8)⟩

/-- The hash tables are not walked. -/
def romFSHeader : RomFSHeader where
  headerSize := .ofNat 64 (field bytes 0 8)
  directoryMeta := tableLocation bytes 24
  fileMeta := tableLocation bytes 56
  dataOffset := .ofNat 64 (field bytes 72 8)

/-- A directory entry from its bytes. -/
def directoryEntry : DirectoryEntry where
  sibling := .ofNat 32 (field bytes 4 4)
  childDir := .ofNat 32 (field bytes 8 4)
  childFile := .ofNat 32 (field bytes 12 4)
  nameLength := .ofNat 32 (field bytes 20 4)

/-- A file entry from its bytes. -/
def fileEntry : FileEntry where
  sibling := .ofNat 32 (field bytes 4 4)
  offset := .ofNat 64 (field bytes 8 8)
  size := .ofNat 64 (field bytes 16 8)
  nameLength := .ofNat 32 (field bytes 28 4)

/-- A vector takes what the image has of a range, if there is memory for the whole range. -/
def Image.readBytes (image : Image) (size offset : BitVec 64) : Option (List Byte) :=
  if size.toNat ≤ image.room then some ((image.content.drop offset.toNat).take size.toNat) else none

/-! ## The walk -/

/-- `ROMFS_ENTRY_EMPTY`. -/
def romfsEntryEmpty : BitVec 32 := 0xFFFFFFFF

/-- `RomFSTraversalContext`. -/
structure RomFSTraversalContext where
  header : RomFSHeader
  directoryMeta : List Byte
  fileMeta : List Byte

/-- The file of an entry is a window of the image. -/
structure RomFSFile where
  size : BitVec 64
  offset : BitVec 64
  name : List Byte

/-- An extracted directory. -/
inductive RomFSDirectory
  | directory (name : List Byte) (files : List RomFSFile) (subdirectories : List RomFSDirectory)

/-- The name of a directory. -/
def RomFSDirectory.name : RomFSDirectory → List Byte
  | directory name _ _ => name

/-- A chain, if there is one. -/
def unlessEmpty {α : Type} (process : BitVec 32 → Option (List α)) (offset : BitVec 32) :
    Option (List α) :=
  if offset ≠ romfsEntryEmpty then process offset else some []

/-- The entry of a size at an offset of a table and its name, or nothing but zeros. -/
def getEntry {α : Type} (sizeOf : Nat) (entryOf : List Byte → α) (nameLengthOf : α → BitVec 32)
    (zero : α)
    (vec : List Byte) (offset : BitVec 32) : α × List Byte :=
  let entryEnd := offset.toNat + sizeOf
  if vec.length < entryEnd then (zero, [])
  else
    let entry := entryOf ((vec.drop offset.toNat).take sizeOf)
    let nameLength := min (entryEnd + (nameLengthOf entry).toNat) vec.length - entryEnd
    (entry, (vec.drop entryEnd).take nameLength)

namespace RomFSTraversalContext

variable (ctx : RomFSTraversalContext)

/-- `GetDirectoryEntry`. -/
def getDirectoryEntry (offset : BitVec 32) : DirectoryEntry × List Byte :=
  getEntry 24 directoryEntry DirectoryEntry.nameLength {} ctx.directoryMeta offset

/-- `GetFileEntry`. -/
def getFileEntry (offset : BitVec 32) : FileEntry × List Byte :=
  getEntry 32 fileEntry FileEntry.nameLength {} ctx.fileMeta offset

/-- The files of a chain, within a number of steps. -/
def processFile : Nat → BitVec 32 → Option (List RomFSFile)
  | 0, _ => none
  | levels + 1, thisFileOffset => do
    if thisFileOffset = romfsEntryEmpty then return []
    let (entry, name) := ctx.getFileEntry thisFileOffset
    let files ← processFile levels entry.sibling
    return ⟨entry.size, entry.offset + ctx.header.dataOffset, name⟩ :: files

/-- The directories of a chain with what is in them, within a number of steps and levels. -/
def processDirectory : Nat → BitVec 32 → Option (List RomFSDirectory)
  | 0, _ => none
  | levels + 1, thisDirOffset => do
    if thisDirOffset = romfsEntryEmpty then return []
    let (entry, name) := ctx.getDirectoryEntry thisDirOffset
    let files ← unlessEmpty (ctx.processFile levels) entry.childFile
    let subdirectories ← unlessEmpty (processDirectory levels) entry.childDir
    let directories ← processDirectory levels entry.sibling
    return .directory name files subdirectories :: directories

end RomFSTraversalContext

/-- A directory or nothing is returned, or memory is not enough. -/
inductive Extraction
  | directory (root : RomFSDirectory)
  | null
  | thrown

/-- The tables of an image whose header is accepted. -/
def context (image : Image) : Option (Option RomFSTraversalContext) :=
  if image.content.length < 80 then none
  else
    let header := romFSHeader (image.content.take 80)
    if header.headerSize ≠ 80 then none
    else some do
      let directoryMeta ← image.readBytes header.directoryMeta.size header.directoryMeta.offset
      let fileMeta ← image.readBytes header.fileMeta.size header.fileMeta.offset
      return ⟨header, directoryMeta, fileMeta⟩

/-- The root is the first directory at the start of the table that has no name. -/
def extractRomFS (levels : Nat) : Option Image → Option Extraction
  | none => some (.directory (.directory [] [] []))
  | some image =>
    match context image with
    | none => some .null
    | some none => some .thrown
    | some (some ctx) => do
      let directories ← ctx.processDirectory levels 0
      match directories.find? (·.name = []) with
      | some root => return .directory root
      | none => return .null

/-- Some number of steps and levels is enough. -/
def Terminates (image : Image) : Prop := ∃ levels, (extractRomFS levels (some image)).isSome

/-! ## Entries that the walk comes to -/

/-- An offset in one of the tables, or the number that ends a chain. -/
inductive Entry
  | directory (offset : BitVec 32)
  | file (offset : BitVec 32)

instance : Finite Entry := by
  have : Finite (BitVec 32) := Finite.of_injective BitVec.toFin fun _ _ => BitVec.eq_of_toFin_eq
  refine Finite.of_surjective (α := BitVec 32 ⊕ BitVec 32) (Sum.elim .directory .file) fun entry =>
    ?_
  cases entry with
  | directory offset => exact ⟨.inl offset, rfl⟩
  | file offset => exact ⟨.inr offset, rfl⟩

/-- The entries that the walk goes on to from an entry. -/
inductive Leads (ctx : RomFSTraversalContext) : Entry → Entry → Prop
  | nextFile {offset : BitVec 32} : offset ≠ romfsEntryEmpty →
      Leads ctx (.file offset) (.file (ctx.getFileEntry offset).1.sibling)
  | nextDirectory {offset : BitVec 32} : offset ≠ romfsEntryEmpty →
      Leads ctx (.directory offset) (.directory (ctx.getDirectoryEntry offset).1.sibling)
  | childDir {offset : BitVec 32} : offset ≠ romfsEntryEmpty →
      (ctx.getDirectoryEntry offset).1.childDir ≠ romfsEntryEmpty →
      Leads ctx (.directory offset) (.directory (ctx.getDirectoryEntry offset).1.childDir)
  | childFile {offset : BitVec 32} : offset ≠ romfsEntryEmpty →
      (ctx.getDirectoryEntry offset).1.childFile ≠ romfsEntryEmpty →
      Leads ctx (.directory offset) (.file (ctx.getDirectoryEntry offset).1.childFile)

/-- Nothing that the walk comes to leads back to itself. -/
def Acyclic (ctx : RomFSTraversalContext) : Prop :=
  ∀ entry, ReflTransGen (Leads ctx) (.directory 0) entry → ¬ TransGen (Leads ctx) entry entry

section Walk

variable {ctx : RomFSTraversalContext}

/-- The chain from an entry is walked within a number of steps and levels. -/
def Walked (ctx : RomFSTraversalContext) (levels : Nat) : Entry → Prop
  | .directory offset => (ctx.processDirectory levels offset).isSome
  | .file offset => (ctx.processFile levels offset).isSome

theorem isSome_bind_iff {α β : Type} {x : Option α} {f : α → Option β} {rest : Prop}
    (each : ∀ a, (f a).isSome ↔ rest) : (x >>= f).isSome ↔ x.isSome ∧ rest := by
  cases x with
  | none => exact ⟨fun isSome => absurd isSome Bool.false_ne_true, fun both => both.1⟩
  | some a => exact (each a).trans (and_iff_right rfl).symm

variable {offset : BitVec 32}

theorem isSome_unlessEmpty_iff {α : Type} {process : BitVec 32 → Option (List α)} :
    (unlessEmpty process offset).isSome ↔ (offset ≠ romfsEntryEmpty → (process offset).isSome) := by
  rw [unlessEmpty]
  split
  · exact (imp_iff_right ‹_›).symm
  · exact ⟨fun _ isChain => absurd isChain ‹_›, fun _ => rfl⟩

theorem walked_file_succ {levels : Nat} :
    Walked ctx (levels + 1) (.file offset) ↔
      ∀ entry, Leads ctx (.file offset) entry → Walked ctx levels entry := by
  rw [Walked, RomFSTraversalContext.processFile]
  by_cases isEmpty : offset = romfsEntryEmpty
  · rw [if_pos isEmpty]
    refine ⟨fun _ entry leads => ?_, fun _ => rfl⟩
    cases leads
    contradiction
  · rw [if_neg isEmpty, isSome_bind_iff fun files => iff_of_true rfl trivial, and_true]
    constructor
    · intro walked entry leads
      cases leads
      exact walked
    · exact fun all => all _ (.nextFile isEmpty)

theorem walked_directory_succ {levels : Nat} :
    Walked ctx (levels + 1) (.directory offset) ↔
      ∀ entry, Leads ctx (.directory offset) entry → Walked ctx levels entry := by
  rw [Walked, RomFSTraversalContext.processDirectory]
  by_cases isEmpty : offset = romfsEntryEmpty
  · rw [if_pos isEmpty]
    refine ⟨fun _ entry leads => ?_, fun _ => rfl⟩
    cases leads <;> contradiction
  · rw [if_neg isEmpty]
    dsimp only
    rw [isSome_bind_iff fun files => isSome_bind_iff fun subdirectories =>
      isSome_bind_iff fun directories =>
      iff_of_true (show (pure _ : Option _).isSome from rfl) trivial, isSome_unlessEmpty_iff,
      isSome_unlessEmpty_iff, and_true]
    constructor
    · rintro ⟨files, subdirectories, directories⟩ entry leads
      cases leads with
      | nextDirectory _ => exact directories
      | childDir _ isChild => exact subdirectories isChild
      | childFile _ isChild => exact files isChild
    · exact fun all => ⟨fun isChild => all _ (.childFile isEmpty isChild),
        fun isChild => all _ (.childDir isEmpty isChild), all _ (.nextDirectory isEmpty)⟩

theorem levels_walked (ctx : RomFSTraversalContext) : Walks.Levels (Leads ctx) (Walked ctx) where
  zero entry := by
    cases entry <;> exact Bool.false_ne_true
  succ levels entry := by
    cases entry with
    | directory offset => exact walked_directory_succ
    | file offset => exact walked_file_succ

theorem exists_isSome_iff : (∃ levels, (ctx.processDirectory levels 0).isSome) ↔ Acyclic ctx :=
  show (∃ levels, Walked ctx levels (.directory 0)) ↔ _ from
    (levels_walked ctx).exists_iff_ends.trans Walks.ends_iff

/-- A table without a whole entry is read as zeros, which name the start of the table. -/
theorem not_acyclic_of_short (short : ctx.directoryMeta.length < 24) : ¬ Acyclic ctx := by
  intro acyclic
  have zeros : ctx.getDirectoryEntry 0 = ({}, []) := if_pos (by simpa using short)
  have back : Leads ctx (.directory 0) (.directory (ctx.getDirectoryEntry 0).1.childDir) :=
    .childDir (by decide) (by rw [zeros]; decide)
  rw [zeros] at back
  exact acyclic _ .refl (.single back)

end Walk

theorem isSome_extractRomFS {image : Image} {ctx : RomFSTraversalContext}
    (accepted : context image = some (some ctx)) (levels : Nat) :
    (extractRomFS levels (some image)).isSome = (ctx.processDirectory levels 0).isSome := by
  simp only [extractRomFS, accepted]
  cases ctx.processDirectory levels 0 with
  | none => rfl
  | some directories =>
    rw [Option.bind_eq_bind, Option.bind_some]
    split <;> rfl

/-- The walk ends exactly when the header or the tables are refused or when no entry leads back. -/
theorem terminates_iff_acyclic (image : Image) :
    Terminates image ↔ ∀ ctx, context image = some (some ctx) → Acyclic ctx := by
  cases accepted : context image with
  | none =>
    exact iff_of_true ⟨0, by simp only [extractRomFS, accepted, Option.isSome_some]⟩ (by simp)
  | some tables =>
    cases tables with
    | none =>
      exact iff_of_true ⟨0, by simp only [extractRomFS, accepted, Option.isSome_some]⟩ (by simp)
    | some ctx =>
      have walked : Terminates image ↔ Acyclic ctx := by
        simp only [Terminates, isSome_extractRomFS accepted, exists_isSome_iff]
      rw [walked]
      constructor
      · rintro acyclic _ ⟨⟩
        exact acyclic
      · exact fun all => all ctx rfl

/-- An image of nothing but a header, whose tables are empty. -/
theorem not_forall_terminates : ¬ ∀ image, Terminates image := by
  intro all
  obtain ⟨levels, isSome⟩ := all ⟨0x50 :: List.replicate 79 0, 0⟩
  have accepted : context ⟨0x50 :: List.replicate 79 0, 0⟩ =
      some (some ⟨romFSHeader ((0x50 :: List.replicate 79 0 : List Byte).take 80), [], []⟩) := by
    rfl
  rw [isSome_extractRomFS accepted] at isSome
  exact not_acyclic_of_short (by decide) (exists_isSome_iff.mp ⟨levels, isSome⟩)

end SumiEmu.FileSys.RomFs
