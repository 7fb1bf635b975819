/-
# A storage encrypted sector by sector

The sectors of the base storage are data units of a tweakable cipher, and the tweak of a sector is
the initial value of the storage with its number added. The cipher works block by block inside of a
sector, which the reading makes use of: a sector that is asked for in part is decrypted with zeros
in front of the part, or without its end.
-/

import SumiEmu.FileSys.AesCtrStorage

namespace SumiEmu.FileSys

open Nat

/-- The block size of the cipher. -/
def aesBlockSize : Nat := 0x10

/-- XTS under a pair of keys: a data unit of some size is decrypted under a tweak. Each block of
the result depends on the same block of the unit only, and on its number in the unit. -/
structure XtsCipher where
  decrypt : (tweak : BitVec 128) → (size : Nat) → (unit : Nat → Byte) → Nat → Byte
  blockwise (tweak : BitVec 128) {size size' i : Nat} {unit unit' : Nat → Byte}
    (whole : size % aesBlockSize = 0) (whole' : size' % aesBlockSize = 0)
    (inside : i < size) (inside' : i < size')
    (same : ∀ j, j / aesBlockSize = i / aesBlockSize → unit j = unit' j) :
    decrypt tweak size unit i = decrypt tweak size' unit' i

/-- The size of a sector is a multiple of the block size of the cipher, as the constructor
asserts. -/
structure AesXtsStorage where
  base : VirtualFile
  cipher : XtsCipher
  iv : List Byte
  blockSize : Nat
  ivSize : iv.length = 16
  positive : 0 < blockSize
  aligned : blockSize % aesBlockSize = 0

namespace AesXtsStorage

variable (s : AesXtsStorage)

/-- A data unit is decrypted in place. -/
def transcode (ctr : List Byte) (buffer : Memory) (position size : Nat) : Memory :=
  Scatter.writeBlock buffer position size
    (s.cipher.decrypt (counterBlock ctr) size fun j => buffer (position + j))

/-- The sector in which the range starts, if not at its start. It is decrypted in a pooled buffer,
with what its memory holds behind the part that is asked for. -/
def readHead (pool buffer : Memory) (ctr : List Byte) (size offset : Nat) : Option (Nat × Memory) :=
  let skipSize := offset % s.blockSize
  let dataSize := min size (s.blockSize - skipSize)
  let tmpBuf := PooledBuffer.allocate s.blockSize s.blockSize s.positive
  if heapAllocatableSizeMax < s.blockSize ∨ tmpBuf.size < s.blockSize then none
  else
    let tmp := Scatter.writeBlock pool 0 skipSize zeros
    let tmp := Scatter.writeBlock tmp skipSize dataSize buffer
    let tmp := s.transcode ctr tmp 0 s.blockSize
    some (dataSize, Scatter.writeBlock buffer 0 dataSize fun j => tmp (skipSize + j))

/-- The sectors of the range from their starts on. -/
def readLoop (ctr : List Byte) (position remaining : Nat) (buffer : Memory) : Memory :=
  if _more : 0 < remaining then
    let curSize := min s.blockSize remaining
    readLoop (addCounter ctr 1) (position + curSize) (remaining - curSize)
      (s.transcode ctr buffer position curSize)
  else buffer
termination_by remaining
decreasing_by
  have positive := s.positive
  omega

/-- What a read returns and the buffer, unless an assertion fails. -/
def read (pool buffer : Memory) (size offset : Size) : Option (Nat × Memory) :=
  let size := size.toNat
  let offset := offset.toNat
  if size = 0 then some (0, buffer)
  else if offset % aesBlockSize ≠ 0 ∨ size % aesBlockSize ≠ 0 then none
  else
    let buffer := s.base.read buffer size offset
    let ctr := addCounter s.iv (BitVec.ofNat 64 (offset / s.blockSize))
    if offset % s.blockSize ≠ 0 then do
      let (processedSize, buffer) ← s.readHead pool buffer ctr size offset
      return (size, s.readLoop (addCounter ctr 1) processedSize (size - processedSize) buffer)
    else some (size, s.readLoop ctr 0 size buffer)

/-! ## The plain content -/

/-- The byte at a place of the storage, with its whole sector decrypted. -/
def plain (p : Nat) : Byte :=
  let sector := p / s.blockSize
  s.cipher.decrypt (counterBlock s.iv + BitVec.ofNat 128 sector) s.blockSize
    (fun j => s.base.byte (sector * s.blockSize + j)) (p % s.blockSize)

/-- The base storage has the block of a place. -/
def Stored (p : Nat) : Prop := p / aesBlockSize * aesBlockSize + aesBlockSize ≤ s.base.size

/-- A read passes its assertions and brings the plain content of its range. -/
def ReadsPlain (pool buffer : Memory) (size offset : Size) : Prop :=
  ∃ buffer', s.read pool buffer size offset = some (size.toNat, buffer') ∧
    (∀ i < size.toNat, s.Stored (offset.toNat + i) → buffer' i = s.plain (offset.toNat + i)) ∧
    ∀ i, size.toNat ≤ i → buffer' i = buffer i

/-- What a place of the buffer is to hold at the end. -/
def Wanted (offset i : Nat) (byte : Byte) : Prop :=
  s.Stored (offset + i) → byte = s.plain (offset + i)

/-- What it holds before the decryption. -/
def Raw (offset i : Nat) (byte : Byte) : Prop :=
  s.Stored (offset + i) → byte = s.base.byte (offset + i)

variable {s} {offset size position count : Nat} {buffer original : Memory} {ctr : List Byte}

/-- The counter of the sector of a place. -/
def CounterAt (s : AesXtsStorage) (ctr : List Byte) (p : Nat) : Prop :=
  ctr.length = 16 ∧ counterBlock ctr = counterBlock s.iv + BitVec.ofNat 128 (p / s.blockSize)

theorem counterAt_start (small : offset < 2 ^ 64) :
    s.CounterAt (addCounter s.iv (BitVec.ofNat 64 (offset / s.blockSize))) offset := by
  have below : offset / s.blockSize < 2 ^ 64 := (div_le_self _ _).trans_lt small
  refine ⟨by rw [length_addCounter, s.ivSize], ?_⟩
  rw [counterBlock_addCounter _ _ s.ivSize, BitVec.toNat_ofNat, mod_eq_of_lt below]

/-- Adding one brings the counter of the next sector. -/
theorem CounterAt.next {p q : Nat} (here : s.CounterAt ctr p)
    (sector : q / s.blockSize = p / s.blockSize + 1) : s.CounterAt (addCounter ctr 1) q := by
  refine ⟨by rw [length_addCounter, here.1], ?_⟩
  have one : (1 : BitVec 64).toNat = 1 := rfl
  rw [counterBlock_addCounter _ _ here.1, here.2, sector, BitVec.ofNat_add, BitVec.add_assoc, one]

/-- A part of a sector that agrees with the sector in whole blocks is decrypted as in the sector. -/
theorem decrypt_eq {p skip i : Nat} {unit : Nat → Byte} (here : s.CounterAt ctr p)
    (start : p / s.blockSize * s.blockSize + skip = offset + i) (inSector : skip < s.blockSize)
    (sector : (offset + i) / s.blockSize = p / s.blockSize) (whole : count % aesBlockSize = 0)
    (inside : skip < count)
    (same : ∀ j, j / aesBlockSize = skip / aesBlockSize →
      unit j = s.base.byte (p / s.blockSize * s.blockSize + j)) :
    s.cipher.decrypt (counterBlock ctr) count unit skip = s.plain (offset + i) := by
  have place : (offset + i) % s.blockSize = skip := by
    have split := div_add_mod (offset + i) s.blockSize
    rw [sector, mul_comm] at split
    omega
  rw [plain, sector, place, here.2]
  exact s.cipher.blockwise _ whole s.aligned inside inSector same

/-- What the buffer holds while the first bytes have been decrypted. -/
structure Progress (s : AesXtsStorage) (offset size : Nat) (original buffer : Memory)
    (position : Nat) : Prop where
  reached : position ≤ size
  aligned : position % aesBlockSize = 0
  done : Scatter.Filled (s.Wanted offset) buffer 0 position
  raw : Scatter.Filled (s.Raw offset) buffer position size
  kept : ∀ i, size ≤ i → buffer i = original i

/-- The next bytes are replaced by those of the plain content. -/
theorem Progress.extend (progress : s.Progress offset size original buffer position) (count : Nat)
    (cells : Nat → Byte) (upTo : position + count ≤ size)
    (aligned : (position + count) % aesBlockSize = 0)
    (right : ∀ j < count, s.Wanted offset (position + j) (cells j)) :
    s.Progress offset size original (Scatter.writeBlock buffer position count cells)
      (position + count) where
  reached := upTo
  aligned := aligned
  done := progress.done.extend right
  raw place low high := by
    rw [Scatter.writeBlock_of_ne fun j below => by omega]
    exact progress.raw place (by omega) high
  kept i behind := by
    rw [Scatter.writeBlock_of_ne fun j below => by omega]
    exact progress.kept i behind

theorem readLoop_spec (offsetAligned : offset % aesBlockSize = 0)
    (sizeAligned : size % aesBlockSize = 0)
    (remaining position : Nat) (buffer : Memory) (ctr : List Byte)
    (ends : position + remaining = size)
    (starts : 0 < remaining →
      (offset + position) % s.blockSize = 0 ∧ s.CounterAt ctr (offset + position))
    (progress : s.Progress offset size original buffer position) :
    s.Progress offset size original (s.readLoop ctr position remaining buffer) size := by
  induction remaining using Nat.strongRecOn generalizing position buffer ctr with
  | ind remaining ih =>
    rw [readLoop]
    by_cases more : 0 < remaining
    · obtain ⟨start, here⟩ := starts more
      have positive := s.positive
      have whole := s.aligned
      have before := progress.aligned
      have first : (offset + position) / s.blockSize * s.blockSize = offset + position := by
        rw [mul_comm]
        exact Nat.mul_div_cancel' (Nat.dvd_of_mod_eq_zero start)
      obtain ⟨count, isCount⟩ : ∃ count, min s.blockSize remaining = count := ⟨_, rfl⟩
      have countAligned : count % aesBlockSize = 0 := by
        unfold aesBlockSize at *
        omega
      rw [dif_pos more]
      dsimp only
      rw [isCount]
      refine ih _ (by omega) _ _ _ (by omega) (fun further => ?_) ?_
      · -- Only a whole sector is followed by another one.
        obtain rfl : s.blockSize = count := by omega
        rw [← add_assoc, add_mod_right]
        exact ⟨start, here.next (add_div_right _ positive)⟩
      · refine progress.extend _ _ (by omega) (by unfold aesBlockSize at *; omega)
          fun j below stored => ?_
        refine decrypt_eq here (by omega) (by omega) ?_ countAligned below fun k sameBlock => ?_
        · have inSector : j < s.blockSize := by omega
          obtain ⟨sector, place⟩ := dvd_of_mod_eq_zero start
          rw [← add_assoc, place, mul_add_div positive, div_eq_of_lt inSector,
            Nat.add_zero, Nat.mul_div_cancel_left _ positive]
        · rw [first, add_assoc]
          refine progress.raw _ (le_add_right _ _) ?_ ?_
          · unfold aesBlockSize at *
            omega
          · rw [Stored] at stored ⊢
            unfold aesBlockSize at *
            omega
    · obtain rfl : position = size := by omega
      rw [dif_neg more]
      exact progress

/-- The sector that the range starts in is decrypted as far as the range goes. -/
theorem readHead_spec (fits : s.blockSize ≤ heapAllocatableSizeMax)
    (offsetAligned : offset % aesBlockSize = 0) (sizeAligned : size % aesBlockSize = 0)
    (pool buffer : Memory) (here : s.CounterAt ctr offset)
    (progress : s.Progress offset size original buffer 0) :
    ∃ count buffer', s.readHead pool buffer ctr size offset = some (count, buffer') ∧
      count = min size (s.blockSize - offset % s.blockSize) ∧
      s.Progress offset size original buffer' count := by
  have positive := s.positive
  have whole := s.aligned
  have split := div_add_mod offset s.blockSize
  have short := mod_lt offset positive
  have skipAligned : offset % s.blockSize % aesBlockSize = 0 := by
    rw [mod_mod_of_dvd _ (dvd_of_mod_eq_zero whole), offsetAligned]
  rw [mul_comm] at split
  obtain ⟨skip, isSkip⟩ : ∃ skip, offset % s.blockSize = skip := ⟨_, rfl⟩
  obtain ⟨count, isCount⟩ : ∃ count, min size (s.blockSize - skip) = count := ⟨_, rfl⟩
  rw [isSkip] at split short skipAligned ⊢
  have room : ¬ (heapAllocatableSizeMax < s.blockSize ∨
      (PooledBuffer.allocate s.blockSize s.blockSize s.positive).size < s.blockSize) := by
    rw [PooledBuffer.allocate]
    dsimp only
    omega
  have countAligned : count % aesBlockSize = 0 := by
    unfold aesBlockSize at *
    omega
  rw [readHead, isSkip]
  dsimp only
  rw [if_neg room, isCount]
  refine ⟨count, _, rfl, rfl, ?_⟩
  have extended := progress.extend count (fun j =>
    s.transcode ctr (Scatter.writeBlock (Scatter.writeBlock pool 0 skip zeros) skip count buffer) 0
      s.blockSize (skip + j)) (by omega) (by rwa [zero_add]) fun j below stored => ?_
  · rwa [zero_add] at extended
  · have inSector : skip + j < s.blockSize := by omega
    rw [Nat.zero_add, transcode, Scatter.writeBlock, if_pos ⟨Nat.zero_le _, by omega⟩, Nat.sub_zero]
    rw [zero_add] at stored
    refine decrypt_eq here (by omega) inSector ?_ whole inSector fun k sameBlock => ?_
    · rw [← split, add_assoc, mul_comm, mul_add_div positive, div_eq_of_lt inSector,
        mul_add_div positive, div_eq_of_lt short]
    · have part : skip ≤ k ∧ k < skip + count := by
        unfold aesBlockSize at *
        omega
      have raw := progress.raw (k - skip) (zero_le _) (by omega)
      rw [zero_add, Scatter.writeBlock, if_pos part]
      have place : offset + (k - skip) = offset / s.blockSize * s.blockSize + k := by omega
      rw [Raw, place] at raw
      refine raw ?_
      rw [Stored] at stored ⊢
      unfold aesBlockSize at *
      omega

/-- Reads at the borders of the blocks of the cipher bring the plain content, if they start with a
sector, or the sector has room in a pooled buffer. -/
theorem readsPlain (s : AesXtsStorage) (pool buffer : Memory) (size offset : Size)
    (offsetAligned : offset.toNat % aesBlockSize = 0) (sizeAligned : size.toNat % aesBlockSize = 0)
    (pooled : s.blockSize ≤ heapAllocatableSizeMax ∨ offset.toNat % s.blockSize = 0) :
    s.ReadsPlain pool buffer size offset := by
  rw [ReadsPlain, read]
  dsimp only
  by_cases none : size.toNat = 0
  · rw [if_pos none, none]
    exact ⟨buffer, rfl, fun i below => absurd below (not_lt_zero i), fun i _ => rfl⟩
  have aligned : ¬ (offset.toNat % aesBlockSize ≠ 0 ∨ size.toNat % aesBlockSize ≠ 0) := by omega
  rw [if_neg none, if_neg aligned]
  have here := counterAt_start (s := s) offset.isLt
  have progress : s.Progress offset.toNat size.toNat buffer
      (s.base.read buffer size.toNat offset.toNat) 0 := by
    refine ⟨zero_le _, rfl, fun place low high => absurd high (not_lt_zero _),
      fun place low high stored => ?_, fun i behind => ?_⟩
    · have inside : offset.toNat + place < s.base.size := by
        rw [Stored] at stored
        unfold aesBlockSize at stored
        omega
      rw [VirtualFile.read, if_pos ⟨high, inside⟩]
    · rw [VirtualFile.read, if_neg (by omega)]
  by_cases inside : offset.toNat % s.blockSize ≠ 0
  · have fits := pooled.resolve_right inside
    obtain ⟨count, buffer', head, isCount, progress'⟩ :=
      readHead_spec fits offsetAligned sizeAligned pool _ here progress
    have whole := readLoop_spec offsetAligned sizeAligned (size.toNat - count) count buffer'
      (addCounter (addCounter s.iv (BitVec.ofNat 64 (offset.toNat / s.blockSize))) 1)
      (by omega) (fun more => ?_) progress'
    · refine ⟨_, ?_, fun i below => whole.done i (zero_le _) below, whole.kept⟩
      rw [if_pos inside, head]
      rfl
    · have short := mod_lt offset.toNat s.positive
      have split := div_add_mod offset.toNat s.blockSize
      have next : offset.toNat + count = s.blockSize * (offset.toNat / s.blockSize + 1) := by
        rw [mul_succ]
        omega
      rw [next]
      exact ⟨Nat.mul_mod_right _ _, here.next (Nat.mul_div_cancel_left _ s.positive)⟩
  · have whole := readLoop_spec offsetAligned sizeAligned size.toNat 0 _
      (addCounter s.iv (BitVec.ofNat 64 (offset.toNat / s.blockSize))) (zero_add _)
      (fun _ => ⟨not_not.1 inside, here⟩) progress
    exact ⟨_, if_neg inside, fun i below => whole.done i (zero_le _) below, whole.kept⟩

/-- The image of zeros under two keys of zeros and the tweak zero. -/
def zerosImage : List Byte :=
  [0x91, 0x7C, 0xF6, 0x9E, 0xBD, 0x68, 0xB2, 0xEC, 0x9B, 0x9F, 0xE9, 0xA3, 0xEA, 0xDD, 0xA6, 0x92,
    0xCD, 0x43, 0xD2, 0xF5, 0x95, 0x98, 0xED, 0x85, 0x8C, 0x02, 0xC2, 0x65, 0x2F, 0xBF, 0x92, 0x2E]

/-- A cipher that decrypts the image to zeros. -/
def zerosCipher : XtsCipher where
  decrypt _ _ unit i := unit i ^^^ zerosImage.getD i 0
  blockwise _ {_ _ i _ _} _ _ _ _ same := congrArg (· ^^^ zerosImage.getD i 0) (same i rfl)

/-- The second block of a sector. -/
theorem readsPlain_second_block :
    AesXtsStorage.ReadsPlain ⟨⟨32, fun i => zerosImage.getD i 0⟩, zerosCipher, List.replicate 16 0,
      32, rfl, by decide, by decide⟩ zeros zeros 16 16 :=
  readsPlain _ zeros zeros 16 16 (by decide) (by decide) (.inl (by decide))

/-- A sector is sixteen bytes too long for a pooled buffer, and its second block is asked for. -/
theorem not_readsPlain_large_sector :
    ¬ ∀ (s : AesXtsStorage) (pool buffer : Memory) (size offset : Size),
      offset.toNat % aesBlockSize = 0 → size.toNat % aesBlockSize = 0 →
        s.ReadsPlain pool buffer size offset := by
  intro reads
  obtain ⟨buffer, read, -⟩ := reads ⟨⟨0x80010, zeros⟩, zerosCipher, List.replicate 16 0, 0x80010,
    rfl, by decide, by decide⟩ zeros zeros 16 16 (by decide) (by decide)
  have refused : AesXtsStorage.read ⟨⟨0x80010, zeros⟩, zerosCipher, List.replicate 16 0, 0x80010,
      rfl, by decide, by decide⟩ zeros zeros 16 16 = none := by
    rw [AesXtsStorage.read]
    dsimp only
    rw [if_neg (by decide), if_neg (by decide), if_pos (by decide), readHead]
    dsimp only
    rw [if_pos (.inl (by decide))]
    rfl
  exact Option.some_ne_none _ (read.symm.trans refused)

end AesXtsStorage

end SumiEmu.FileSys
