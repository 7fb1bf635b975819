/-
# The initial processes of the kernel

An image of initial processes has a header and behind it the images of kernel processes, one after
the other. How long each of them is follows from its own header. The constructor makes a window of
the file for each process that is announced. The windows go from an offset to the end of the file,
and nothing moves the offset on.
-/

import Mathlib.Algebra.Order.BigOperators.Group.List
import Mathlib.Data.List.GetD
import SumiEmu.FileSys.KernelExecutable
import SumiEmu.FileSys.OffsetVfsFile

namespace SumiEmu.FileSys

open Fallible List

/-- The results of the loader. -/
inductive ResultStatus
  | success
  | errorNullFile
  | errorBadKIPHeader
  | errorBLZDecompressionFailed
  | errorBadINIHeader
  | errorINITooManyKIPs
  deriving DecidableEq

variable (bytes : List Byte)

/-- A number in four bytes, the low one first. -/
def le32 (i : Nat) : BitVec 32 :=
  bytes.getD (i + 3) 0 ++ bytes.getD (i + 2) 0 ++ bytes.getD (i + 1) 0 ++ bytes.getD i 0

/-- A little-endian `u64`. -/
def le64 (i : Nat) : BitVec 64 := le32 bytes (i + 4) ++ le32 bytes i

/-- `KIPSectionHeader`. -/
structure KIPSectionHeader where
  offset : BitVec 32
  decompressedSize : BitVec 32
  compressedSize : BitVec 32
  attr : BitVec 32
  deriving DecidableEq

/-- `KIPHeader`. -/
structure KIPHeader where
  magic : BitVec 32
  name : List Byte
  titleId : BitVec 64
  processCategory : BitVec 32
  mainThreadPriority : Byte
  defaultCore : Byte
  flags : Byte
  sections : List KIPSectionHeader
  capabilities : List (BitVec 32)
  deriving DecidableEq

/-- The header at an offset. -/
def KIPSectionHeader.ofBytes (i : Nat) : KIPSectionHeader :=
  ⟨le32 bytes i, le32 bytes (i + 4), le32 bytes (i + 8), le32 bytes (i + 12)⟩

/-- A header as it lies in memory. -/
def KIPHeader.ofBytes (bytes : List Byte) : KIPHeader where
  magic := le32 bytes 0
  name := (range 0xC).map fun i => bytes.getD (0x4 + i) 0
  titleId := le64 bytes 0x10
  processCategory := le32 bytes 0x18
  mainThreadPriority := bytes.getD 0x1C 0
  defaultCore := bytes.getD 0x1D 0
  flags := bytes.getD 0x1F 0
  sections := (range 6).map fun i => .ofBytes bytes (0x20 + 0x10 * i)
  capabilities := (range 0x20).map fun i => le32 bytes (0x80 + 4 * i)

/-- A process image. -/
structure KIP where
  status : ResultStatus
  header : KIPHeader
  decompressedSections : List (List Byte)
  deriving DecidableEq

/-- `INIHeader`. -/
structure INIHeader where
  magic : BitVec 32
  size : BitVec 32
  kipCount : BitVec 32

/-- The header at the start. -/
def INIHeader.ofBytes : INIHeader := ⟨le32 bytes 0, le32 bytes 4, le32 bytes 8⟩

/-- An image of several processes. -/
structure INI where
  status : ResultStatus
  header : INIHeader
  kips : List KIP

/-- `INI_MAX_KIPS`. -/
def INI_MAX_KIPS : Nat := 0x50

namespace KIP

/-- A section of zeros, of the bytes as they are, or of what they decompress to. -/
def decompressSection (header : KIPSectionHeader) (compressed : List Byte) :
    Except BlzFault (Bool × List Byte) :=
  if header.compressedSize = 0 ∧ header.decompressedSize ≠ 0 then
    .ok (true, replicate header.decompressedSize.toNat 0)
  else if header.compressedSize = header.decompressedSize then .ok (true, compressed)
  else decompressBLZ compressed

/-- The loop over the sections, for which there is memory. Those behind one that fails stay
empty. -/
def readSections (file : OffsetVfsFile) :
    List KIPSectionHeader → Size → Except BlzFault (ResultStatus × List (List Byte))
  | [], _ => .ok (.success, [])
  | header :: headers, offset => do
    let compressed := (file.readVector (header.compressedSize.setWidth 64) offset).2
    let (complete, data) ← decompressSection header compressed
    if complete then
      let (status, rest) ← readSections file headers (offset + header.compressedSize.setWidth 64)
      return (status, data :: rest)
    else return (.errorBLZDecompressionFailed, data :: headers.map fun _ => [])

/-- A process without sections. -/
def failed (status : ResultStatus) (header : KIPHeader) : KIP := ⟨status, header, replicate 6 []⟩

/-- The constructor from a file. -/
def ofFile : Option OffsetVfsFile → Except BlzFault KIP
  | none => .ok (failed .errorNullFile (.ofBytes []))
  | some file =>
    if file.size < 0x100 then .ok (failed .errorBadKIPHeader (.ofBytes []))
    else
      let (read, memory) := file.read zeros 0x100 0
      let header := KIPHeader.ofBytes ((range 0x100).map memory)
      if read.count ≠ 0x100 then .ok (failed .errorBadKIPHeader header)
      else if header.magic ≠ 0x3150494B then .ok (failed .errorBadKIPHeader header)
      else do
        let (status, decompressedSections) ← readSections file header.sections 0x100
        return ⟨status, header, decompressedSections⟩

end KIP

namespace INI

/-- The loop over the processes, which makes every window at the same offset. -/
def readKips (file : BackingFile) (offset : Size) : Nat → Except BlzFault (List KIP)
  | 0 => .ok []
  | count + 1 => do
    let kip ← KIP.ofFile (some ⟨file, offset, BitVec.ofNat 64 file.size - offset⟩)
    let rest ← readKips file offset count
    return if kip.status = .success then kip :: rest else rest

/-- The constructor from a file. -/
def ofFile (file : BackingFile) : Except BlzFault INI :=
  if file.size < 0x10 then .ok ⟨.errorBadINIHeader, .ofBytes [], []⟩
  else
    let (read, memory) := file.read zeros 0x10 0
    let header := INIHeader.ofBytes ((range 0x10).map memory)
    if read.count ≠ 0x10 then .ok ⟨.errorBadINIHeader, header, []⟩
    else if header.magic ≠ 0x31494E49 then .ok ⟨.errorBadINIHeader, header, []⟩
    else if INI_MAX_KIPS < header.kipCount.toNat then .ok ⟨.errorINITooManyKIPs, header, []⟩
    else do
      let kips ← readKips file 0x10 header.kipCount.toNat
      return ⟨.success, header, kips⟩

end INI

/-- A file that holds just these bytes. -/
def fileOf : BackingFile where
  size := bytes.length
  byte i := bytes.getD i 0
  takes length _ := length
  takes_le _ _ := le_rfl

/-- The process that is parsed from the bytes of its image. -/
def kipOf (image : List Byte) : Except BlzFault KIP :=
  KIP.ofFile (some ⟨fileOf image, 0, BitVec.ofNat 64 image.length⟩)

/-- How many bytes an image with this header has. -/
def KIPHeader.imageLength (header : KIPHeader) : Nat :=
  0x100 + (header.sections.map fun s => s.compressedSize.toNat).sum

/-- The image of a process that is parsed with success and takes all the bytes. -/
def ValidKIP (image : List Byte) : Prop :=
  ∃ kip, kipOf image = .ok kip ∧ kip.status = .success ∧ image.length = kip.header.imageLength

/-- A header that announces as many processes as there are images behind it. -/
structure IniImage (header : List Byte) (images : List (List Byte)) : Prop where
  length : header.length = 0x10
  magic : (INIHeader.ofBytes header).magic = 0x31494E49
  announced : (INIHeader.ofBytes header).kipCount.toNat = images.length
  counted : 1 ≤ images.length ∧ images.length ≤ INI_MAX_KIPS
  valid : ∀ image ∈ images, ValidKIP image

/-- The processes of the images are stored in order, each once. -/
def StoresEach (header : List Byte) (images : List (List Byte)) : Prop :=
  ∃ ini, INI.ofFile (fileOf (header ++ images.flatten)) = .ok ini ∧ ini.status = .success ∧
    ini.kips.map Except.ok = images.map kipOf

/-! ## Windows that begin with an image -/

variable {f g : OffsetVfsFile} {image : List Byte}

/-- The window begins with the bytes of an image. -/
structure Begins (f : OffsetVfsFile) (image : List Byte) : Prop where
  room : image.length ≤ f.size.toNat
  inside : f.offset.toNat + image.length ≤ f.file.size
  small : f.offset.toNat + image.length < 2 ^ 64
  bytes : ∀ i < image.length, f.file.byte (f.offset.toNat + i) = image.getD i 0

section

variable (begins : Begins f image)

include begins

theorem Begins.served {length offset : Size}
    (within : offset.toNat + length.toNat ≤ image.length) :
    f.Served f.file.available length offset ∧ f.fit length offset = length.toNat := by
  have room := begins.room
  have inside := begins.inside
  have small := begins.small
  have fit : f.fit length offset = length.toNat := by
    rw [OffsetVfsFile.fit]
    omega
  rw [OffsetVfsFile.Served, if_neg (by omega), if_neg (by omega), fit]
  exact ⟨VirtualFile.available_eq (by omega), rfl⟩

theorem Begins.requested_eq {offset : Size} {i : Nat}
    (within : offset.toNat + i < image.length) :
    f.requested offset i = image.getD (offset.toNat + i) 0 := by
  rw [OffsetVfsFile.requested, Nat.add_assoc, begins.bytes _ within]

theorem Begins.readVector_eq {length offset : Size}
    (within : offset.toNat + length.toNat ≤ image.length) :
    (f.readVector length offset).2 = (range length.toNat).map fun i =>
    image.getD (offset.toNat + i) 0 := by
  obtain ⟨served, fit⟩ := begins.served within
  rw [OffsetVfsFile.Keeps.readVector_eq
    ((OffsetVfsFile.keeps_iff OffsetVfsFile.available_le).2 served), fit]
  refine map_congr_left fun i member => ?_
  have below := mem_range.mp member
  exact begins.requested_eq (by omega)

/-- The header is all there. -/
theorem Begins.read_header (long : 0x100 ≤ image.length) :
    (f.read zeros 0x100 0).1.count = 0x100 ∧
      (range 0x100).map (f.read zeros 0x100 0).2 = (range 0x100).map fun i => image.getD i 0 := by
  have size : (0x100 : Size).toNat = 0x100 := rfl
  obtain ⟨served, fit⟩ : f.Served f.file.available 0x100 0 ∧ f.fit 0x100 0 = (0x100 : Size).toNat :=
    begins.served (by simpa using long)
  have confined : f.Confined (.read zeros 0x100 0) := OffsetVfsFile.confined_read_iff.2 served
  refine ⟨confined.1.count.trans fit, ?_⟩
  rw [confined.2, fit, size, OffsetVfsFile.map_writeBlock]
  refine map_congr_left fun i member => ?_
  have below := mem_range.mp member
  rw [begins.requested_eq (by simpa using (by omega : i < image.length))]
  simp

/-- The sections are read from the image only. -/
theorem Begins.readSections_eq (begins' : Begins g image) {headers : List KIPSectionHeader}
    {offset : Size} (within : offset.toNat + (headers.map fun s => s.compressedSize.toNat).sum ≤
    image.length) : KIP.readSections f headers offset = KIP.readSections g headers offset := by
  have small := begins.small
  induction headers generalizing offset with
  | nil => rfl
  | cons header headers hyp =>
    rw [map_cons, sum_cons] at within
    have size : (header.compressedSize.setWidth 64 : Size).toNat = header.compressedSize.toNat := by
      rw [BitVec.toNat_setWidth, Nat.mod_eq_of_lt (by omega)]
    have moved : (offset + header.compressedSize.setWidth 64).toNat =
        offset.toNat + header.compressedSize.toNat := by
      rw [BitVec.toNat_add, size, Nat.mod_eq_of_lt (by omega)]
    rw [KIP.readSections, KIP.readSections, begins.readVector_eq (by omega),
      begins'.readVector_eq (by omega), hyp (by omega)]

end

/-- The header that is read from an image. -/
def headerOf (image : List Byte) : KIPHeader := .ofBytes ((range 0x100).map fun i => image.getD i 0)

/-- What is parsed from a window that begins with an image. -/
theorem Begins.ofFile_eq (begins : Begins f image) (long : 0x100 ≤ image.length) :
    KIP.ofFile (some f) =
      if (headerOf image).magic ≠ 0x3150494B
      then .ok (KIP.failed .errorBadKIPHeader (headerOf image))
      else do
        let (status, decompressedSections) ← KIP.readSections f (headerOf image).sections 0x100
        return ⟨status, headerOf image, decompressedSections⟩ := by
  obtain ⟨count, bytes⟩ := begins.read_header long
  have room := begins.room
  have notShort : ¬ f.size < 0x100 := by
    rw [BitVec.lt_def]
    exact Nat.not_lt.mpr (long.trans room)
  rw [KIP.ofFile, if_neg notShort]
  dsimp only
  rw [bytes, if_neg (not_not.mpr count)]
  rfl

/-- Windows that begin with the same whole image are parsed alike. -/
theorem Begins.ofFile_congr (begins : Begins f image) (begins' : Begins g image)
    (length : (headerOf image).imageLength ≤ image.length) :
    KIP.ofFile (some f) = KIP.ofFile (some g) := by
  rw [KIPHeader.imageLength] at length
  have sections : KIP.readSections f (headerOf image).sections 0x100 =
      KIP.readSections g (headerOf image).sections 0x100 := begins.readSections_eq begins' length
  rw [begins.ofFile_eq (by omega), begins'.ofFile_eq (by omega), sections]

/-- A header is read that is not too short. -/
theorem header_eq_of_ok {kip : KIP} (begins : Begins f image) (long : 0x100 ≤ image.length)
    (parsed : KIP.ofFile (some f) = .ok kip) : kip.header = headerOf image := by
  rw [begins.ofFile_eq long] at parsed
  split_ifs at parsed with magic
  · exact congrArg KIP.header (Except.ok.inj parsed).symm
  · obtain ⟨read, -, same⟩ := bind_eq_ok.mp parsed
    exact congrArg KIP.header (Except.ok.inj same).symm

theorem begins_fileOf (small : image.length < 2 ^ 64) :
    Begins ⟨fileOf image, 0, BitVec.ofNat 64 image.length⟩ image where
  room := by
    rw [BitVec.toNat_ofNat, Nat.mod_eq_of_lt small]
  inside := by simp [fileOf]
  small := by simpa using small
  bytes := by simp [fileOf]

/-! ## Images one after the other -/

variable {header : List Byte} {images : List (List Byte)}

/-- The sizes of six sections are 32-bit numbers. -/
theorem imageLength_lt : (KIPHeader.ofBytes bytes).imageLength < 2 ^ 36 := by
  have sizes : ((KIPHeader.ofBytes bytes).sections.map fun s => s.compressedSize.toNat).sum ≤
      6 • 2 ^ 32 := by
    refine sum_le_card_nsmul _ _ fun size member => ?_
    obtain ⟨s, -, rfl⟩ := mem_map.mp member
    exact s.compressedSize.isLt.le
  have product : 6 • 2 ^ 32 = 6 * 2 ^ 32 := rfl
  rw [KIPHeader.imageLength]
  omega

theorem exists_header {file : Option OffsetVfsFile} {kip : KIP}
    (parsed : KIP.ofFile file = .ok kip) : ∃ bytes, kip.header = .ofBytes bytes := by
  cases file with
  | none => exact ⟨_, congrArg KIP.header (Except.ok.inj parsed).symm⟩
  | some file =>
    rw [KIP.ofFile] at parsed
    dsimp only at parsed
    split_ifs at parsed with short missing magic
    · exact ⟨_, congrArg KIP.header (Except.ok.inj parsed).symm⟩
    · exact ⟨_, congrArg KIP.header (Except.ok.inj parsed).symm⟩
    · exact ⟨_, congrArg KIP.header (Except.ok.inj parsed).symm⟩
    · obtain ⟨read, -, same⟩ := bind_eq_ok.mp parsed
      exact ⟨_, congrArg KIP.header (Except.ok.inj same).symm⟩

/-- A valid image is as long as its own header says. -/
theorem ValidKIP.length_eq (valid : ValidKIP image) :
    (headerOf image).imageLength = image.length ∧ image.length < 2 ^ 36 := by
  obtain ⟨kip, parsed, -, length⟩ := valid
  obtain ⟨bytes, header⟩ := exists_header parsed
  have few : image.length < 2 ^ 36 := by
    rw [length, header]
    exact imageLength_lt bytes
  have long : 0x100 ≤ image.length := by
    rw [length, KIPHeader.imageLength]
    omega
  refine ⟨?_, few⟩
  rw [← header_eq_of_ok (begins_fileOf (by omega)) long parsed, length]

theorem length_images_lt (valid : ∀ image ∈ images, ValidKIP image)
    (counted : images.length ≤ INI_MAX_KIPS) : images.flatten.length ≤ 2 ^ 43 := by
  have sum : (images.map length).sum ≤ (images.map length).length • 2 ^ 36 := by
    refine sum_le_card_nsmul _ _ fun length member => ?_
    obtain ⟨image, listed, rfl⟩ := mem_map.mp member
    exact (valid image listed).length_eq.2.le
  rw [length_map, nsmul_eq_mul, Nat.cast_id] at sum
  rw [length_flatten]
  rw [INI_MAX_KIPS] at counted
  omega

/-- The window that the code makes each time begins with the first image. -/
theorem IniImage.begins {first : List Byte} {rest : List (List Byte)}
    (ini : IniImage header (first :: rest)) :
    Begins ⟨fileOf (header ++ (first :: rest).flatten), 0x10,
      BitVec.ofNat 64 (header ++ (first :: rest).flatten).length - 0x10⟩ first := by
  have total := length_images_lt ini.valid ini.counted.2
  have length := ini.length
  have offset : (0x10 : Size).toNat = 0x10 := rfl
  rw [flatten_cons, length_append] at total
  refine ⟨?_, ?_, ?_, ?_⟩
  · simp only [flatten_cons, length_append, length]
    rw [BitVec.toNat_sub, BitVec.toNat_ofNat, offset]
    omega
  · simp only [fileOf, flatten_cons, length_append, length, offset]
    omega
  · simp only [offset]
    omega
  · intro i below
    simp only [fileOf, offset, flatten_cons]
    rw [getD_append_right _ _ _ _ (by omega), length, Nat.add_sub_cancel_left,
      getD_append _ _ _ _ below]

theorem readKips_eq {file : BackingFile} {offset : Size} {kip : KIP}
    (parsed : KIP.ofFile (some ⟨file, offset, BitVec.ofNat 64 file.size - offset⟩) = .ok kip)
    (success : kip.status = .success) (count : Nat) :
    INI.readKips file offset count = .ok (replicate count kip) := by
  induction count with
  | zero => rfl
  | succ count hyp =>
    rw [INI.readKips, parsed, ok_bind, hyp, ok_bind, if_pos success]
    rfl

/-- The constructor stores the first process as often as there are images. -/
theorem IniImage.ofFile_eq {first : List Byte} {rest : List (List Byte)}
    (ini : IniImage header (first :: rest)) :
    ∃ kip, kipOf first = .ok kip ∧ INI.ofFile (fileOf (header ++ (first :: rest).flatten)) =
      .ok ⟨.success, .ofBytes header, replicate (rest.length + 1) kip⟩ := by
  have valid := ini.valid first mem_cons_self
  obtain ⟨same, few⟩ := valid.length_eq
  obtain ⟨kip, parsed, success, -⟩ := valid
  refine ⟨kip, parsed, ?_⟩
  have begins := ini.begins
  have parsed' := (begins.ofFile_congr (begins_fileOf (by omega)) same.le).trans parsed
  have length := ini.length
  generalize (first :: rest).flatten = body at parsed' ⊢
  have size : (fileOf (header ++ body)).size = 0x10 + body.length := by
    rw [fileOf, length_append, length]
  have bytes : (range 0x10).map ((fileOf (header ++ body)).toVirtualFile.read zeros 0x10 0) =
      header := by
    refine ext_getElem (by simp [length]) fun i below below' => ?_
    rw [getElem_map, getElem_range, VirtualFile.read, if_pos (by omega), Nat.zero_add]
    dsimp only [fileOf]
    rw [getD_append _ _ _ _ below', getD_eq_getElem _ _ below']
  rw [INI.ofFile, if_neg (by omega)]
  dsimp only [BackingFile.read]
  rw [bytes, if_neg (by rw [VirtualFile.available]; omega), if_neg (not_not.mpr ini.magic),
    ini.announced, if_neg (Nat.not_lt.mpr ini.counted.2), readKips_eq parsed' success]
  rfl

/-- Each process is stored once and in order exactly when all images are parsed to the same
process. -/
theorem storesEach_iff (header : List Byte) (images : List (List Byte))
    (ini : IniImage header images) :
    StoresEach header images ↔ ∀ image ∈ images, ∀ other ∈ images, kipOf image = kipOf other := by
  cases images with
  | nil => exact absurd ini.counted.1 (by decide)
  | cons first rest =>
    obtain ⟨kip, parsed, stored⟩ := ini.ofFile_eq
    have alike : (replicate (rest.length + 1) kip).map Except.ok = (first :: rest).map kipOf ↔
        ∀ image ∈ first :: rest, kipOf image = kipOf first := by
      rw [map_replicate, eq_comm, eq_replicate_iff, parsed]
      simp
    have same : (∀ image ∈ first :: rest, kipOf image = kipOf first) ↔
        ∀ image ∈ first :: rest, ∀ other ∈ first :: rest, kipOf image = kipOf other :=
      ⟨fun each image member other member' => (each image member).trans (each other member').symm,
        fun all image member => all image member first mem_cons_self⟩
    rw [StoresEach, stored, ← same, ← alike]
    constructor
    · rintro ⟨ini, same, -, each⟩
      obtain rfl := Except.ok.inj same
      exact each
    · exact fun each => ⟨_, rfl, rfl, each⟩

/-- A process whose sections are empty. -/
def emptyImage (titleId : Byte) : List Byte :=
  [0x4B, 0x49, 0x50, 0x31] ++ replicate 0xC 0 ++ titleId :: replicate 0xEF 0

/-- A header of some images. -/
def iniHeader (count : Byte) : List Byte :=
  [0x49, 0x4E, 0x49, 0x31, 0, 0, 0, 0, count, 0, 0, 0, 0, 0, 0, 0]

theorem kipOf_emptyImage (titleId : Byte) (listed : titleId = 1 ∨ titleId = 2) :
    ∃ kip, kipOf (emptyImage titleId) = .ok kip ∧ kip.status = .success ∧
      kip.header.imageLength = 0x100 ∧ kip.header.titleId = titleId.setWidth 64 := by
  have parsed : (kipOf (emptyImage titleId)).map
    (fun kip => (kip.status, kip.header.imageLength, kip.header.titleId)) =
    .ok (.success, 0x100, titleId.setWidth 64) := by
    obtain rfl | rfl := listed <;> decide +kernel
  cases run : kipOf (emptyImage titleId) with
  | error fault =>
    rw [run] at parsed
    cases parsed
  | ok kip =>
    rw [run] at parsed
    have parts := Except.ok.inj parsed
    exact ⟨kip, rfl, congrArg Prod.fst parts, congrArg (fun p => p.2.1) parts,
      congrArg (fun p => p.2.2) parts⟩

theorem validKIP_emptyImage (titleId : Byte) (listed : titleId = 1 ∨ titleId = 2) :
    ValidKIP (emptyImage titleId) := by
  obtain ⟨kip, parsed, success, length, -⟩ := kipOf_emptyImage titleId listed
  refine ⟨kip, parsed, success, ?_⟩
  simp only [length, emptyImage, length_append, length_cons, length_replicate, length_nil]

theorem not_storesEach_two : IniImage (iniHeader 2) [emptyImage 1, emptyImage 2] ∧
    ¬ StoresEach (iniHeader 2) [emptyImage 1, emptyImage 2] := by
  have ini : IniImage (iniHeader 2) [emptyImage 1, emptyImage 2] := {
    length := rfl
    magic := by decide
    announced := by decide
    counted := by decide
    valid := by simp [validKIP_emptyImage] }
  refine ⟨ini, ?_⟩
  rintro ⟨result, run, -, each⟩
  obtain ⟨kip, parsed, stored⟩ := ini.ofFile_eq
  obtain rfl := Except.ok.inj (run.symm.trans stored)
  obtain ⟨kip₁, parsed₁, -, -, title₁⟩ := kipOf_emptyImage 1 (.inl rfl)
  obtain ⟨kip₂, parsed₂, -, -, title₂⟩ := kipOf_emptyImage 2 (.inr rfl)
  obtain rfl := Except.ok.inj (parsed.symm.trans parsed₁)
  have second : Except.ok kip = kipOf (emptyImage 2) := by
    simpa [replicate_succ] using (cons.inj (cons.inj each).2).1
  obtain rfl := Except.ok.inj (second.trans parsed₂)
  exact absurd (title₁.symm.trans title₂) (by decide)

/-- Two images that are the same. -/
theorem storesEach_iff_twice : StoresEach (iniHeader 2) [emptyImage 1, emptyImage 1] ↔
    ∀ image ∈ [emptyImage 1, emptyImage 1], ∀ other ∈ [emptyImage 1, emptyImage 1],
    kipOf image = kipOf other :=
  storesEach_iff (iniHeader 2) [emptyImage 1, emptyImage 1] {
    length := rfl
    magic := by decide
    announced := by decide
    counted := by decide
    valid := by simp [validKIP_emptyImage] }

end SumiEmu.FileSys
