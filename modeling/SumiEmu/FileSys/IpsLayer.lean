/-
# Patches that are sequences of records

A record has an offset and bytes that go there, or one byte and how often it is repeated. The length
of the bytes is in front of them, and the length zero stands for a repeated byte. A number that is
no offset ends the patch. There are two formats, whose offsets have different widths.
-/

import SumiEmu.FileSys.VirtualFile
import SumiEmu.Foundations.Fallible

namespace SumiEmu.FileSys

open List

/-- `IPSFileType`. -/
inductive IPSFileType | ips | ips32 | error
  deriving DecidableEq

/-- Nothing is returned, or the vector is written beyond its end. -/
inductive Refusal | null | overrun
  deriving DecidableEq

namespace IpsLayer

open Fallible

def patchMagic : List Byte := [0x50, 0x41, 0x54, 0x43, 0x48]

def ips32Magic : List Byte := [0x49, 0x50, 0x53, 0x33, 0x32]

def eof : List Byte := [0x45, 0x4F, 0x46]

def eeof : List Byte := [0x45, 0x45, 0x4F, 0x46]

/-- `IdentifyMagic`. -/
def identifyMagic (magic : List Byte) : IPSFileType :=
  if magic.length ≠ 5 then .error
  else if magic = patchMagic then .ips
  else if magic = ips32Magic then .ips32
  else .error

/-- The bytes are as many as an offset of the format has. -/
def isEOF (type : IPSFileType) (bytes : List Byte) : Bool :=
  type = .ips ∧ bytes = eof ∨ type = .ips32 ∧ bytes = eeof

/-- The number that bytes stand for, the high one first. -/
def number (bytes : List Byte) : Nat := BigEndian.value 256 (bytes.map BitVec.toNat)

/-- A position of a vector and those behind it take bytes, as far as the vector goes. -/
def overwrite (content : List Byte) (place : Nat) (bytes : List Byte) : List Byte :=
  content.mapIdx fun i byte => if place ≤ i then bytes.getD (i - place) byte else byte

/-- The number of bytes that are to go to a position. The end of the range is a number of 32 bits,
and what is left a number of 16 bits. -/
def clipped (size place count : Nat) : Nat :=
  if size < (place + count) % 2 ^ 32 then (size - place) % 2 ^ 16 else count

/-- The bytes of an offset, the place in the patch, the bytes of the file, and what the patch has
been asked for. -/
structure Patching where
  temp : List Byte
  offset : Nat
  inData : List Byte
  requests : List Request

namespace Patching

variable (p : Patching)

/-- The patch is read, and the place goes on. -/
def read (ips : List Byte) (size : Nat) : List Byte × Patching :=
  ((ips.drop p.offset).take size,
    { p with offset := p.offset + size, requests := p.requests ++ [⟨p.offset, size⟩] })

/-- An object is read as a whole. -/
def readObject (ips : List Byte) (size : Nat) : Except Refusal (List Byte × Patching) :=
  let (bytes, p) := p.read ips size
  if bytes.length = size then .ok (bytes, p) else .error .null

/-- Bytes are copied to the vector. -/
def store (place : Nat) (bytes : List Byte) : Except Refusal Patching :=
  if place + bytes.length ≤ p.inData.length then
    .ok { p with inData := overwrite p.inData place bytes }
  else .error .overrun

/-- A byte and how often it goes to the vector. -/
def patchRle (ips : List Byte) (realOffset : Nat) : Except Refusal Patching := do
  let (bytes, p) ← p.readObject ips 2
  let rleSize := number bytes
  let (data, p) ← p.readObject ips 1
  p.store realOffset (replicate (clipped p.inData.length realOffset rleSize) (data.headD 0))

/-- Bytes are read to the vector. They have to be as many as the record says. -/
def patchStandard (ips : List Byte) (realOffset dataSize : Nat) : Except Refusal Patching := do
  let (bytes, p) := p.read ips (clipped p.inData.length realOffset dataSize)
  let p ← p.store realOffset bytes
  if bytes.length = dataSize then .ok p else .error .null

/-- What follows the offset of a record. -/
def patchRecord (ips : List Byte) : Except Refusal Patching :=
  let realOffset := number p.temp
  if p.inData.length < realOffset then .error .null
  else do
    let (bytes, p) ← p.readObject ips 2
    let dataSize := number bytes
    if dataSize = 0 then p.patchRle ips realOffset else p.patchStandard ips realOffset dataSize

/-- The bytes that are there of those of an offset, and whether there are enough. -/
def readTemp (ips : List Byte) : Bool × Patching :=
  let (bytes, next) := p.read ips p.temp.length
  if bytes.length = p.temp.length then (true, { next with temp := bytes })
  else (false, { next with temp := bytes ++ p.temp.drop bytes.length, offset := p.offset })

/-! ## The records one after the other -/

variable {p q : Patching} {ips bytes : List Byte} {realOffset size : Nat}

theorem readObject_eq_ok (isRead : p.readObject ips size = .ok (bytes, q)) :
    bytes.length = size ∧ p.read ips size = (bytes, q) := by
  simp only [readObject] at isRead
  split at isRead
  · cases isRead
    exact ⟨‹_›, rfl⟩
  · cases isRead

theorem offset_store (stored : p.store realOffset bytes = .ok q) : q.offset = p.offset := by
  rw [store] at stored
  split at stored
  · cases stored
    rfl
  · cases stored

theorem offset_readObject (isRead : p.readObject ips size = .ok (bytes, q)) :
    p.offset + size = q.offset := by
  exact congrArg (·.2.offset) (readObject_eq_ok isRead).2

theorem offset_le_patchRle (patched : p.patchRle ips realOffset = .ok q) : p.offset ≤ q.offset := by
  obtain ⟨⟨_, first⟩, isRead, patched⟩ := bind_eq_ok.mp patched
  obtain ⟨⟨_, second⟩, isRead', stored⟩ := bind_eq_ok.mp patched
  have := offset_readObject isRead
  have := offset_readObject isRead'
  have := offset_store stored
  omega

theorem offset_le_patchStandard {dataSize : Nat}
    (patched : p.patchStandard ips realOffset dataSize = .ok q) : p.offset ≤ q.offset := by
  obtain ⟨stored, isStored, patched⟩ := bind_eq_ok.mp patched
  split at patched
  · cases patched
    rw [offset_store isStored]
    exact Nat.le_add_right ..
  · cases patched

/-- A record takes the bytes of its length at least. -/
theorem offset_lt_patchRecord (patched : p.patchRecord ips = .ok q) :
    p.offset < ips.length ∧ p.offset < q.offset := by
  rw [patchRecord] at patched
  split at patched
  · cases patched
  · obtain ⟨⟨bytes, first⟩, isRead, patched⟩ := bind_eq_ok.mp patched
    have inside : p.offset < ips.length := by
      obtain ⟨enough, rfl, -⟩ := (readObject_eq_ok isRead).imp_right Prod.mk.inj
      rw [length_take, length_drop] at enough
      omega
    have before := offset_readObject isRead
    have after : first.offset ≤ q.offset := by
      dsimp only at patched
      split at patched
      · exact offset_le_patchRle patched
      · exact offset_le_patchStandard patched
    omega

theorem offset_readTemp (ips : List Byte) : p.offset ≤ (p.readTemp ips).2.offset := by
  simp only [readTemp]
  split
  · exact Nat.le_add_right ..
  · exact Nat.le_refl _

end Patching

/-- The loop, to the mark or the end of the patch. -/
def patchRecords (type : IPSFileType) (ips : List Byte) (p : Patching) : Except Refusal Patching :=
  match _ : p.readTemp ips with
  | (false, next) => .ok next
  | (true, next) =>
    if isEOF type next.temp then .ok next
    else
      match _ : next.patchRecord ips with
      | .error refusal => .error refusal
      | .ok q => patchRecords type ips q
termination_by ips.length - p.offset
decreasing_by
  have fewer := Patching.offset_lt_patchRecord ‹next.patchRecord ips = .ok q›
  have before := p.offset_readTemp ips
  rw [‹p.readTemp ips = _›] at before
  dsimp only at before
  omega

/-- The patched file and what the patch has been asked for. -/
def patchIPS : Option VfsFile → Option VfsFile → Except Refusal (VfsFile × List Request)
  | some file, some ips => do
    let type := identifyMagic (ips.content.take 5)
    if type = .error ∨ file.content.length = 0 then .error .null
    else
      let width := if type = .ips then 3 else 4
      let p ← patchRecords type ips.content ⟨replicate width 0, 5, file.content, [⟨0, 5⟩]⟩
      if isEOF type p.temp then .ok (⟨file.name, p.inData⟩, p.requests) else .error .null
  | _, _ => .error .null

end IpsLayer

end SumiEmu.FileSys

/-!
## Which patches are applied exactly

The records of a patch are applied one after the other, and what they have behind the end of the
file is left out. The code does so up to the first record that has the number of the mark for its
offset. A record with bytes of its own must not go beyond the end of the file, since fewer bytes are
read then. A repeated byte may do so unless the end of its range overflows.
-/

namespace SumiEmu.FileSys.IpsLayer

open Fallible List

/-- The two formats. -/
inductive Format | ips | ips32

namespace Format

/-- The type of a format. -/
def type : Format → IPSFileType
  | ips => .ips
  | ips32 => .ips32

/-- The number of bytes of an offset. -/
def width : Format → Nat
  | ips => 3
  | ips32 => 4

/-- What a patch begins with. -/
def magic : Format → List Byte
  | ips => patchMagic
  | ips32 => ips32Magic

/-- What a patch ends with. -/
def mark : Format → List Byte
  | ips => eof
  | ips32 => eeof

end Format

/-- What a record writes. -/
inductive Content
  | literal (bytes : List Byte) (some : bytes ≠ []) (short : bytes.length < 2 ^ 16)
  | rle (count : BitVec 16) (byte : Byte)

namespace Content

/-- The bytes that go to the file. -/
def bytes : Content → List Byte
  | literal bytes _ _ => bytes
  | rle count byte => replicate count.toNat byte

/-- The bytes of a content. -/
def encode : Content → List Byte
  | literal bytes _ _ => bigEndianBytes 2 (BitVec.ofNat 64 bytes.length) ++ bytes
  | rle count byte => bigEndianBytes 2 0 ++ (bigEndianBytes 2 (count.setWidth 64) ++ [byte])

/-- What may go to a position of a file, as far as the file goes or beyond its end. -/
def Fits (size place : Nat) : Content → Prop
  | literal bytes _ _ => place + bytes.length ≤ size
  | rle count _ => place + count.toNat ≤ size ∨ place + count.toNat < 2 ^ 32

instance (size place : Nat) : (c : Content) → Decidable (c.Fits size place)
  | literal bytes _ _ => inferInstanceAs (Decidable (place + bytes.length ≤ size))
  | rle count _ =>
    inferInstanceAs (Decidable (place + count.toNat ≤ size ∨ place + count.toNat < 2 ^ 32))

end Content

/-- A record of a format whose offsets have a width. -/
structure Record (width : Nat) where
  offset : Nat
  content : Content
  offset_lt : offset < 256 ^ width

/-- The bytes of a record. -/
def Record.encode {width : Nat} (r : Record width) : List Byte :=
  bigEndianBytes width (BitVec.ofNat 64 r.offset) ++ r.content.encode

/-- The records are applied in order. -/
def applied {width : Nat} (records : List (Record width)) (content : List Byte) : List Byte :=
  records.foldl (fun content r => overwrite content r.offset r.content.bytes) content

namespace Format

/-- A well-formed patch. -/
def patch (f : Format) (name : String) (records : List (Record f.width)) : VfsFile where
  name := name
  content := f.magic ++ (records.flatMap Record.encode ++ f.mark)

/-- The records in front of the first one whose offset is the number of the mark. -/
def inFront (f : Format) (records : List (Record f.width)) : List (Record f.width) :=
  records.takeWhile fun r => r.offset ≠ number f.mark

end Format

/-- The file has its size and the records applied, and the patch is asked for what it has. -/
def PatchesExactly (f : Format) (file : VfsFile) (name : String) (records : List (Record f.width)) :
    Prop :=
  ∃ patched requests, patchIPS (some file) (some (f.patch name records)) = .ok (patched, requests) ∧
    patched = ⟨file.name, applied records file.content⟩ ∧
    patched.content.length = file.content.length ∧
    ∀ request ∈ requests, request.offset + request.size ≤ (f.patch name records).content.length

/-- The records in front of the first one at the mark fit, and the others change nothing. -/
structure Heeds (f : Format) (content : List Byte) (records : List (Record f.width)) : Prop where
  fits : ∀ r ∈ f.inFront records, r.content.Fits content.length r.offset
  idle : applied (f.inFront records) content = applied records content

/-! ## Bytes -/

section Bytes

variable {content bytes : List Byte} {place count size : Nat}

theorem length_overwrite : (overwrite content place bytes).length = content.length := length_mapIdx

theorem length_applied {width : Nat} (records : List (Record width)) (content : List Byte) :
    (applied records content).length = content.length := by
  induction records generalizing content with
  | nil => rfl
  | cons r records ih => exact (ih _).trans length_overwrite

/-- A repeated byte beyond the end of the file. -/
theorem overwrite_replicate {byte : Byte} (many : content.length - place ≤ count) :
    overwrite content place (replicate (content.length - place) byte) =
      overwrite content place (replicate count byte) := by
  apply ext_getElem
  · rw [length_overwrite, length_overwrite]
  · intro i inside _
    rw [length_overwrite] at inside
    simp only [overwrite, getElem_mapIdx]
    split
    · have within : i - place < content.length - place := by omega
      rw [getD_eq_getElem?_getD, getD_eq_getElem?_getD, getElem?_replicate,
        getElem?_replicate, if_pos within, if_pos (within.trans_le many)]
    · rfl

theorem number_bigEndianBytes {value : BitVec 64} (small : value.toNat < 256 ^ count) :
    number (bigEndianBytes count value) = value.toNat := by
  rw [number, value_bigEndianBytes, Nat.mod_eq_of_lt small]

theorem clipped_eq (inside : place + count ≤ size) : clipped size place count = count := by
  rw [clipped, if_neg]
  omega

theorem clipped_of_wrapped (start : place ≤ size) (small : place < 2 ^ 32) (short : count < 2 ^ 16)
    (wrapped : 2 ^ 32 ≤ place + count) : clipped size place count = count := by
  rw [clipped, if_neg]
  omega

theorem clipped_of_beyond (short : count < 2 ^ 16) (beyond : size < place + count)
    (unwrapped : place + count < 2 ^ 32) : clipped size place count = size - place := by
  rw [clipped, Nat.mod_eq_of_lt unwrapped, if_pos beyond]
  omega

end Bytes

/-! ## The place in the patch -/

/-- What follows the place in the patch, which has been asked for what it has. -/
structure Stands (ips rest : List Byte) (p : Patching) : Prop where
  rest : ips.drop p.offset = rest
  within : p.offset ≤ ips.length
  inside : ∀ request ∈ p.requests, request.offset + request.size ≤ ips.length

/-- Bytes of the file have been written, and the place has gone on. -/
structure Follows (ips rest : List Byte) (p : Patching) (content : List Byte) (q : Patching) : Prop
    extends Stands ips rest q where
  temp : q.temp.length = p.temp.length
  inData : q.inData = content

section Steps

variable {ips bytes rest : List Byte} {p q : Patching} {place size : Nat}

theorem Stands.read (stands : Stands ips (bytes ++ rest) p) :
    ∃ q, p.read ips bytes.length = (bytes, q) ∧ q.temp = p.temp ∧
      Follows ips rest p p.inData q := by
  refine ⟨(p.read ips bytes.length).2, ?_, rfl, ?_, rfl, rfl⟩
  · rw [Patching.read, stands.rest, take_left]
  have enough := congrArg length stands.rest
  rw [length_drop, length_append] at enough
  have within := stands.within
  have reached : p.offset + bytes.length ≤ ips.length := by omega
  refine ⟨?_, reached, ?_⟩
  · rw [Patching.read, ← drop_drop, stands.rest, drop_left]
  · intro request asked
    obtain asked | rfl := mem_append.mp asked |>.imp_right mem_singleton.mp
    · exact stands.inside request asked
    · exact reached

theorem Stands.readObject (stands : Stands ips (bytes ++ rest) p) (length : bytes.length = size) :
    ∃ q, p.readObject ips size = .ok (bytes, q) ∧ q.temp = p.temp ∧
      Follows ips rest p p.inData q := by
  obtain ⟨q, isRead, sameTemp, follows⟩ := stands.read
  refine ⟨q, ?_, sameTemp, follows⟩
  rw [Patching.readObject, ← length, isRead]
  exact if_pos rfl

theorem Stands.store (stands : Stands ips rest p) (place : Nat) (bytes : List Byte)
    (fits : place + bytes.length ≤ p.inData.length) :
    ∃ q, p.store place bytes = .ok q ∧ Follows ips rest p (overwrite p.inData place bytes) q :=
  ⟨_, if_pos fits, ⟨stands.rest, stands.within, stands.inside⟩, rfl, rfl⟩

theorem Follows.trans {rest' content content' : List Byte} {q' : Patching}
    (first : Follows ips rest p content q) (second : Follows ips rest' q content' q') :
    Follows ips rest' p content' q' where
  toStands := second.toStands
  temp := second.temp.trans first.temp
  inData := second.inData

/-- What a record comes to: it fits and is applied, or it does not and is refused. -/
def Served (ips rest : List Byte) (p : Patching) (place : Nat) (c : Content)
    (result : Except Refusal Patching) : Prop :=
  (c.Fits p.inData.length place ∧
    ∃ q, result = .ok q ∧ Follows ips rest p (overwrite p.inData place c.bytes) q) ∨
  (¬ c.Fits p.inData.length place ∧ ∃ refusal, result = .error refusal)

/-- The number of a repeated byte is cut off at the end of the vector, unless the end of the range
overflows. -/
theorem Stands.patchRle {count : BitVec 16} {byte : Byte}
    (stands : Stands ips (bigEndianBytes 2 (count.setWidth 64) ++ ([byte] ++ rest)) p)
    (start : place ≤ p.inData.length) (small : place < 2 ^ 32) :
    Served ips rest p place (.rle count byte) (p.patchRle ips place) := by
  have short := count.isLt
  obtain ⟨q, readCount, -, follows⟩ := stands.readObject (length_bigEndianBytes ..)
  obtain ⟨q', readByte, -, follows'⟩ :=
    follows.toStands.readObject (show [byte].length = 1 from rfl)
  have same : q'.inData = p.inData := follows'.inData.trans follows.inData
  have isCount : number (bigEndianBytes 2 (count.setWidth 64)) = count.toNat := by
    rw [number_bigEndianBytes] <;> rw [BitVec.toNat_setWidth, Nat.mod_eq_of_lt] <;> omega
  have unfolded : p.patchRle ips place =
      q'.store place (replicate (clipped p.inData.length place count.toNat) byte) := by
    rw [Patching.patchRle, readCount, ok_bind]
    dsimp only
    rw [readByte, ok_bind]
    dsimp only
    rw [isCount, same]
    rfl
  rw [Served, unfolded, Content.Fits, Content.bytes]
  by_cases inside : place + count.toNat ≤ p.inData.length
  · rw [clipped_eq inside]
    obtain ⟨q'', stored, follows''⟩ := follows'.toStands.store place
      (replicate count.toNat byte) (by rwa [length_replicate, same])
    rw [same] at follows''
    exact .inl ⟨.inl inside, q'', stored, (follows.trans follows').trans follows''⟩
  · by_cases unwrapped : place + count.toNat < 2 ^ 32
    · rw [clipped_of_beyond short (by omega) unwrapped]
      obtain ⟨q'', stored, follows''⟩ := follows'.toStands.store place
        (replicate (p.inData.length - place) byte) (by rw [length_replicate, same]; omega)
      have many : p.inData.length - place ≤ count.toNat := by omega
      rw [same, overwrite_replicate many] at follows''
      exact .inl ⟨.inr unwrapped, q'', stored, (follows.trans follows').trans follows''⟩
    · rw [clipped_of_wrapped start small short (by omega)]
      refine .inr ⟨by omega, .overrun, if_neg ?_⟩
      rwa [length_replicate, same]

/-- Bytes that would go beyond the end of the vector are refused, since fewer are read, or written
there, if the end of the range overflows. -/
theorem Stands.patchStandard {some : bytes ≠ []} {short : bytes.length < 2 ^ 16}
    (stands : Stands ips (bytes ++ rest) p) (start : place ≤ p.inData.length)
    (small : place < 2 ^ 32) :
    Served ips rest p place (.literal bytes some short)
      (p.patchStandard ips place bytes.length) := by
  rw [Served, Content.Fits, Content.bytes]
  by_cases inside : place + bytes.length ≤ p.inData.length
  · obtain ⟨q, isRead, -, follows⟩ := stands.read
    obtain ⟨q', stored, follows'⟩ := follows.toStands.store place bytes (by rwa [follows.inData])
    rw [follows.inData] at follows'
    refine .inl ⟨inside, q', ?_, follows.trans follows'⟩
    rw [Patching.patchStandard, clipped_eq inside, isRead]
    dsimp only
    rw [stored, ok_bind, if_pos rfl]
  · refine .inr ⟨inside, ?_⟩
    rw [Patching.patchStandard]
    by_cases unwrapped : place + bytes.length < 2 ^ 32
    · rw [clipped_of_beyond short (by omega) unwrapped]
      have parted : bytes ++ rest =
          bytes.take (p.inData.length - place) ++
          (bytes.drop (p.inData.length - place) ++ rest) := by
        rw [← append_assoc, take_append_drop]
      have length : (bytes.take (p.inData.length - place)).length = p.inData.length - place := by
        rw [length_take]
        omega
      rw [parted] at stands
      obtain ⟨q, isRead, -, follows⟩ := stands.read
      obtain ⟨q', stored, -⟩ :=
        follows.toStands.store place _ (by rw [length, follows.inData]; omega)
      rw [length] at isRead
      refine ⟨.null, ?_⟩
      rw [isRead]
      dsimp only
      rw [stored, ok_bind, if_neg (by omega)]
    · rw [clipped_of_wrapped start small short (by omega)]
      obtain ⟨q, isRead, -, follows⟩ := stands.read
      refine ⟨.overrun, ?_⟩
      rw [isRead]
      dsimp only
      rw [Patching.store, if_neg (by rwa [follows.inData]), error_bind]

theorem Served.of_follows {rest' : List Byte} {c : Content} {result : Except Refusal Patching}
    (follows : Follows ips rest' p p.inData q) (served : Served ips rest q place c result) :
    Served ips rest p place c result := by
  rw [Served, follows.inData] at served
  obtain ⟨fits, q', isOk, follows'⟩ | refused := served
  · exact .inl ⟨fits, q', isOk, follows.trans follows'⟩
  · exact .inr refused

theorem Stands.patchRecord {c : Content} (stands : Stands ips (c.encode ++ rest) p)
    (start : number p.temp ≤ p.inData.length) (small : number p.temp < 2 ^ 32) :
    Served ips rest p (number p.temp) c (p.patchRecord ips) := by
  rw [Patching.patchRecord]
  dsimp only
  rw [if_neg start.not_gt]
  cases c with
  | literal bytes some short =>
    rw [Content.encode, append_assoc] at stands
    obtain ⟨q, readSize, -, follows⟩ := stands.readObject (length_bigEndianBytes ..)
    have isSize : number (bigEndianBytes 2 (BitVec.ofNat 64 bytes.length)) = bytes.length := by
      rw [number_bigEndianBytes] <;> rw [BitVec.toNat_ofNat, Nat.mod_eq_of_lt] <;> omega
    rw [readSize, ok_bind]
    dsimp only
    rw [isSize, if_neg (length_pos_iff.mpr some).ne']
    exact .of_follows follows
      (follows.toStands.patchStandard (start.trans_eq (by rw [follows.inData])) small)
  | rle count byte =>
    rw [Content.encode, append_assoc, append_assoc] at stands
    obtain ⟨q, readSize, -, follows⟩ := stands.readObject (length_bigEndianBytes ..)
    rw [readSize, ok_bind]
    exact .of_follows follows
      (follows.toStands.patchRle (start.trans_eq (by rw [follows.inData])) small)

/-- The bytes of an offset are read. -/
theorem Stands.readTemp (stands : Stands ips (bytes ++ rest) p)
    (length : bytes.length = p.temp.length) :
    ∃ q, p.readTemp ips = (true, q) ∧ q.temp = bytes ∧ Follows ips rest p p.inData q := by
  obtain ⟨q, isRead, sameTemp, follows⟩ := stands.read
  refine ⟨{ q with temp := bytes }, ?_, rfl, ⟨follows.rest, follows.within, follows.inside⟩, length,
    follows.inData⟩
  rw [Patching.readTemp, ← length, isRead]
  exact if_pos rfl

end Steps

/-! ## The records -/

section Records

variable {f : Format}

theorem length_mark : f.mark.length = f.width := by
  cases f <;> rfl

theorem width_le : 256 ^ f.width ≤ 2 ^ 32 := by
  cases f <;> decide

theorem bigEndianBytes_mark :
    bigEndianBytes f.width (BitVec.ofNat 64 (number f.mark)) = f.mark := by
  cases f <;> decide

theorem isEOF_iff {bytes : List Byte} : isEOF f.type bytes ↔ bytes = f.mark := by
  cases f <;> simp [isEOF, Format.type, Format.mark]

theorem Record.number_offset (r : Record f.width) :
    number (bigEndianBytes f.width (BitVec.ofNat 64 r.offset)) = r.offset := by
  have small := r.offset_lt
  have bound := width_le (f := f)
  have same : (BitVec.ofNat 64 r.offset).toNat = r.offset := by
    rw [BitVec.toNat_ofNat, Nat.mod_eq_of_lt (by omega)]
  rw [number_bigEndianBytes (by rwa [same]), same]

/-- The offset of a record ends the patch if it is the number of the mark. -/
theorem Record.isEOF_offset_iff (r : Record f.width) :
    isEOF f.type (bigEndianBytes f.width (BitVec.ofNat 64 r.offset)) ↔
      r.offset = number f.mark := by
  rw [isEOF_iff]
  constructor
  · intro isMark
    rw [← r.number_offset, isMark]
  · intro isMark
    rw [isMark, bigEndianBytes_mark]

variable {ips : List Byte} {p : Patching}

theorem patchRecords_of_mark {type : IPSFileType} {q : Patching}
    (isRead : p.readTemp ips = (true, q))
    (ends : isEOF type q.temp) : patchRecords type ips p = .ok q := by
  rw [patchRecords, isRead]
  exact if_pos ends

theorem patchRecords_of_record {type : IPSFileType} {q : Patching}
    (isRead : p.readTemp ips = (true, q)) (goesOn : ¬ isEOF type q.temp) :
    patchRecords type ips p = q.patchRecord ips >>= patchRecords type ips := by
  rw [patchRecords, isRead]
  dsimp only
  rw [if_neg goesOn]
  split <;> rename_i result <;> rw [result]
  · rw [error_bind]
  · rw [ok_bind]

/-- The records in front are all applied, or one of them is refused. -/
theorem patchRecords_patch (records : List (Record f.width))
    (stands : Stands ips (records.flatMap Record.encode ++ f.mark) p)
    (width : p.temp.length = f.width)
    (start : ∀ r ∈ records, r.offset ≤ p.inData.length) :
    ((∀ r ∈ f.inFront records, r.content.Fits p.inData.length r.offset) ∧
      ∃ q, patchRecords f.type ips p = .ok q ∧ q.inData = applied (f.inFront records) p.inData ∧
        isEOF f.type q.temp ∧ ∀ request ∈ q.requests, request.offset + request.size ≤ ips.length) ∨
    ((¬ ∀ r ∈ f.inFront records, r.content.Fits p.inData.length r.offset) ∧
      ∃ refusal, patchRecords f.type ips p = .error refusal) := by
  induction records generalizing p with
  | nil =>
    rw [flatMap_nil, nil_append, ← append_nil f.mark] at stands
    obtain ⟨q, isRead, temp, follows⟩ := stands.readTemp (length_mark.trans width.symm)
    have ends : isEOF f.type q.temp := isEOF_iff.mpr temp
    exact .inl ⟨fun r isOne => absurd isOne not_mem_nil, q, patchRecords_of_mark isRead ends,
      follows.inData, ends, follows.inside⟩
  | cons r records ih =>
    rw [flatMap_cons, Record.encode, append_assoc, append_assoc] at stands
    obtain ⟨q, isRead, temp, follows⟩ :=
      stands.readTemp ((length_bigEndianBytes ..).trans width.symm)
    have isMark_iff := r.isEOF_offset_iff
    rw [← temp] at isMark_iff
    by_cases isMark : r.offset = number f.mark
    · have none : f.inFront (r :: records) = [] := takeWhile_cons_of_neg (by simpa using isMark)
      have ends := isMark_iff.mpr isMark
      rw [none]
      exact .inl ⟨fun r isOne => absurd isOne not_mem_nil, q, patchRecords_of_mark isRead ends,
        follows.inData, ends, follows.inside⟩
    · have more : f.inFront (r :: records) = r :: f.inFront records :=
        takeWhile_cons_of_pos (by simpa using isMark)
      have place : number q.temp = r.offset := by rw [temp, r.number_offset]
      have served := follows.toStands.patchRecord
        (by rw [place, follows.inData]; exact start r mem_cons_self)
        (by rw [place]; exact r.offset_lt.trans_le width_le)
      rw [patchRecords_of_record isRead (mt isMark_iff.mp isMark), more, forall_mem_cons]
      rw [Served, place, follows.inData] at served
      obtain ⟨fits, q', isOk, follows'⟩ | ⟨unfit, refusal, isError⟩ := served
      · have size : q'.inData.length = p.inData.length := by rw [follows'.inData, length_overwrite]
        have rest := ih follows'.toStands (follows'.temp.trans (follows.temp.trans width))
            fun r isOne => by
          rw [size]
          exact start r (mem_cons_of_mem _ isOne)
        rw [size, follows'.inData] at rest
        rw [isOk, ok_bind]
        exact rest.imp (And.imp_left fun further => ⟨fits, further⟩)
          (And.imp_left fun further => mt And.right further)
      · rw [isError, error_bind]
        exact .inr ⟨mt And.left unfit, refusal, rfl⟩

end Records

/-! ## The patch -/

section Patches

variable {f : Format} {file : VfsFile} {name : String} {records : List (Record f.width)}

theorem take_patch : (f.patch name records).content.take 5 = f.magic := by
  have length : f.magic.length = 5 := by cases f <;> rfl
  rw [Format.patch, ← length, take_left]

theorem identifyMagic_magic : identifyMagic f.magic = f.type := by
  cases f <;> decide

/-- The file has the records in front applied, or nothing is returned. -/
theorem patchIPS_patch (f : Format) (file : VfsFile) (name : String)
    (records : List (Record f.width))
    (isSome : file.content ≠ [])
    (start : ∀ r ∈ records, r.offset ≤ file.content.length) :
    ((∀ r ∈ f.inFront records, r.content.Fits file.content.length r.offset) ∧
      ∃ requests, patchIPS (some file) (some (f.patch name records)) =
        .ok (⟨file.name, applied (f.inFront records) file.content⟩, requests) ∧
        ∀ request ∈ requests, request.offset + request.size ≤
        (f.patch name records).content.length) ∨
    ((¬ ∀ r ∈ f.inFront records, r.content.Fits file.content.length r.offset) ∧
      ∃ refusal, patchIPS (some file) (some (f.patch name records)) = .error refusal) := by
  have length : f.magic.length = 5 := by cases f <;> rfl
  have within : 5 ≤ (f.patch name records).content.length := by
    rw [Format.patch, length_append, length]
    exact Nat.le_add_right ..
  have stands : Stands (f.patch name records).content (records.flatMap Record.encode ++ f.mark)
      ⟨replicate f.width 0, 5, file.content, [⟨0, 5⟩]⟩ := by
    refine ⟨?_, within, fun request asked => ?_⟩
    · rw [Format.patch, ← length, drop_left]
    · rw [mem_singleton.mp asked]
      exact within
  have unfolded : patchIPS (some file) (some (f.patch name records)) =
      patchRecords f.type (f.patch name records).content
        ⟨replicate f.width 0, 5, file.content, [⟨0, 5⟩]⟩ >>= fun p =>
          if isEOF f.type p.temp then .ok (⟨file.name, p.inData⟩, p.requests)
            else .error .null := by
    rw [patchIPS, take_patch, identifyMagic_magic]
    dsimp only
    rw [if_neg (by rw [length_eq_zero_iff]; cases f <;> simp [Format.type, isSome])]
    cases f <;> rfl
  rw [unfolded]
  obtain ⟨fits, q, isOk, inData, ends, inside⟩ | ⟨unfit, refusal, isError⟩ :=
    patchRecords_patch records stands length_replicate start
  · rw [isOk, ok_bind, if_pos ends, inData]
    exact .inl ⟨fits, _, rfl, inside⟩
  · rw [isError, error_bind]
    exact .inr ⟨unfit, refusal, rfl⟩

theorem patchesExactly_iff (isSome : file.content ≠ [])
    (start : ∀ r ∈ records, r.offset ≤ file.content.length) :
    PatchesExactly f file name records ↔ Heeds f file.content records := by
  constructor
  · rintro ⟨patched, requests, isOk, isApplied, -, -⟩
    obtain ⟨fits, requests', isOk', -⟩ | ⟨-, refusal, isError⟩ :=
      patchIPS_patch f file name records isSome start
    · have same := (Prod.mk.inj (Except.ok.inj (isOk'.symm.trans isOk))).1.trans isApplied
      exact ⟨fits, (VfsFile.mk.inj same).2⟩
    · cases isError.symm.trans isOk
  · rintro ⟨fits, idle⟩
    obtain ⟨-, requests, isOk, inside⟩ | ⟨unfit, -⟩ :=
      patchIPS_patch f file name records isSome start
    · exact ⟨_, requests, isOk, by rw [idle], length_applied .., inside⟩
    · exact absurd fits unfit

/-- Two bytes beyond the end of a file of one byte go to a file of two. -/
theorem patchesExactly_iff_repeated :
    PatchesExactly .ips ⟨"main", [1, 2]⟩ "main.ips" [⟨1, .rle 3 7, by decide⟩] ↔
      Heeds .ips [1, 2] [⟨1, .rle 3 7, by decide⟩] :=
  patchesExactly_iff (by decide) (by decide)

/-- The second of the bytes of a record is beyond the end of the file, which is refused. -/
theorem not_patchesExactly_of_literal :
    ¬ ∀ (f : Format) (file : VfsFile) (name : String) (records : List (Record f.width)),
      file.content ≠ [] → (∀ r ∈ records, r.offset ≤ file.content.length) →
        PatchesExactly f file name records := by
  intro exact
  obtain ⟨patched, requests, isOk, -⟩ := exact .ips ⟨"main", [1]⟩ "main.ips"
    [⟨0, .literal [2, 3] (by decide) (by decide), by decide⟩] (by decide) (by decide)
  obtain ⟨fits, -⟩ | ⟨-, refusal, isError⟩ := patchIPS_patch .ips ⟨"main", [1]⟩ "main.ips"
    [⟨0, .literal [2, 3] (by decide) (by decide), by decide⟩] (by decide) (by decide)
  · exact absurd fits (by decide)
  · cases isError.symm.trans isOk

end Patches

end SumiEmu.FileSys.IpsLayer
