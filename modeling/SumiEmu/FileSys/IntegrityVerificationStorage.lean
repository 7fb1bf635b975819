/-
# A storage of whole verification blocks

The data of an integrity verification storage may end inside a block. It is read block by block all
the same, and what the last block lacks is filled with zeros. Offsets and sizes are signed 64-bit
numbers where they are compared with the size of the data.
-/

import SumiEmu.FileSys.VirtualFile

namespace SumiEmu.FileSys

open BitVec Nat

/-- The results of a check. -/
inductive AccessResult
  | success
  | invalidOffset
  | invalidSize
  | outOfRange
  deriving DecidableEq

/-- `CheckAccessRange`. -/
def checkAccessRange (offset size totalSize : Size) : AccessResult :=
  if offset.slt 0 then .invalidOffset
  else if size.slt 0 then .invalidSize
  else if (offset + size).slt offset then .outOfRange
  else if totalSize.slt (offset + size) then .outOfRange
  else .success

/-- `Common::AlignUp` of a signed number, which is taken for an unsigned one. -/
def alignUpSize (value size : Size) : Size :=
  let mod := value % size
  let value := value - mod
  if mod = 0 then value else value + size

/-- The block size is the power of two of its order, as the initialization asserts. -/
structure IntegrityVerificationStorage where
  dataStorage : VirtualFile
  verificationBlockSize : Size
  verificationBlockOrder : Nat
  dataStorage_lt : dataStorage.size < 2 ^ 64
  order_lt : verificationBlockOrder < 63
  blockSize_eq : verificationBlockSize.toNat = 2 ^ verificationBlockOrder

namespace IntegrityVerificationStorage

variable (s : IntegrityVerificationStorage)

/-- The size of the data. -/
def dataSize : Size := BitVec.ofNat 64 s.dataStorage.size

/-- The number of bytes read and the buffer, unless an assertion fails. -/
def read (buffer : Memory) (size offset : Size) : Option (Nat × Memory) :=
  if size = 0 then some (0, buffer)
  else if s.dataSize < offset then none
  else if checkAccessRange offset size (alignUpSize s.dataSize s.verificationBlockSize) ≠ .success
    then
    none
  else if s.dataSize.slt (offset + size) then
    let paddingOffset := s.dataSize - offset
    let paddingSize :=
      s.verificationBlockSize - (paddingOffset &&& (s.verificationBlockSize - 1))
    if ¬ paddingSize.slt s.verificationBlockSize then none
    else
      let buffer := Scatter.writeBlock buffer paddingOffset.toNat paddingSize.toNat zeros
      let readSize := s.dataSize - offset
      some (s.dataStorage.available readSize.toNat offset.toNat,
        s.dataStorage.read buffer readSize.toNat offset.toNat)
  else
    some (s.dataStorage.available size.toNat offset.toNat,
      s.dataStorage.read buffer size.toNat offset.toNat)

/-- A range of whole blocks, which starts in the data or at its end and does not go on behind the
block that the data ends in. -/
structure Admissible (size offset : Size) : Prop where
  offset_aligned : s.verificationBlockSize.toNat ∣ offset.toNat
  size_aligned : s.verificationBlockSize.toNat ∣ size.toNat
  offset_le : offset.toNat ≤ s.dataStorage.size
  end_le : (offset.toNat + size.toNat : Int) ≤
    (alignUpSize s.dataSize s.verificationBlockSize).toInt

/-- A read passes its assertions. It brings the data as far as there are any and zeros behind them,
and leaves everything behind the range as it is. -/
def ReadsPadded (buffer : Memory) (size offset : Size) : Prop :=
  ∃ buffer', s.read buffer size offset =
      some (min size.toNat (s.dataStorage.size - offset.toNat), buffer') ∧
    (∀ i < size.toNat, buffer' i =
      if offset.toNat + i < s.dataStorage.size then s.dataStorage.byte (offset.toNat + i) else 0) ∧
    ∀ i, size.toNat ≤ i → buffer' i = buffer i

variable {s} {size offset : Size}

theorem dataSize_toNat : s.dataSize.toNat = s.dataStorage.size := by
  rw [dataSize, toNat_ofNat, mod_eq_of_lt s.dataStorage_lt]

theorem blockSize_pos : 0 < s.verificationBlockSize.toNat := by
  rw [s.blockSize_eq]
  exact Nat.two_pow_pos _

theorem blockSize_lt : s.verificationBlockSize.toNat < 2 ^ 63 := by
  rw [s.blockSize_eq]
  exact Nat.pow_lt_pow_right (by decide) s.order_lt

/-- The low bits of a number are what it exceeds the blocks by. -/
theorem and_mask_toNat (value : Size) :
    (value &&& (s.verificationBlockSize - 1)).toNat =
    value.toNat % s.verificationBlockSize.toNat := by
  have one : (1 : Size).toNat = 1 := rfl
  have mask : (s.verificationBlockSize - 1).toNat = 2 ^ s.verificationBlockOrder - 1 := by
    rw [toNat_sub_of_le, one, s.blockSize_eq]
    exact blockSize_pos
  rw [toNat_and, mask, and_two_pow_sub_one_eq_mod, s.blockSize_eq]

theorem toInt_eq {value : Size} (small : value.toNat < 2 ^ 63) : value.toInt = value.toNat :=
  toInt_eq_toNat_of_lt (by omega)

theorem slt_iff {value other : Size} (small : value.toNat < 2 ^ 63)
    (small' : other.toNat < 2 ^ 63) : value.slt other = true ↔ value.toNat < other.toNat := by
  rw [slt_iff_toInt_lt, toInt_eq small, toInt_eq small', Int.ofNat_lt]

/-- The size that the data are rounded up to: it is the first multiple of the block size that is not
below the size of the data. -/
structure RoundedTo (s : IntegrityVerificationStorage) (rounded : Nat) : Prop where
  toNat_eq : (alignUpSize s.dataSize s.verificationBlockSize).toNat = rounded
  small : rounded < 2 ^ 63
  aligned : s.verificationBlockSize.toNat ∣ rounded
  data_le : s.dataStorage.size ≤ rounded
  near : rounded < s.dataStorage.size + s.verificationBlockSize.toNat

/-- A range of some bytes shows that the rounded size is a positive signed number. -/
theorem Admissible.rounded (admissible : s.Admissible size offset) (some : size ≠ 0) :
    ∃ rounded, RoundedTo s rounded ∧ offset.toNat + size.toNat ≤ rounded := by
  have positive : 0 < size.toNat := by
    refine pos_of_ne_zero fun none => some (eq_of_toNat_eq none)
  have fits := admissible.end_le
  have small : (alignUpSize s.dataSize s.verificationBlockSize).toNat < 2 ^ 63 := by
    by_contra big
    have negative : (alignUpSize s.dataSize s.verificationBlockSize).toInt < 0 := by
      rw [toInt_eq_toNat_cond, if_neg (by omega)]
      have := (alignUpSize s.dataSize s.verificationBlockSize).isLt
      omega
    omega
  rw [toInt_eq small] at fits
  refine ⟨(alignUpSize s.dataSize s.verificationBlockSize).toNat, ?_, by omega⟩
  have block := blockSize_lt (s := s)
  have blockPos := blockSize_pos (s := s)
  have below := s.dataStorage_lt
  obtain ⟨rest, isRest⟩ : ∃ rest, s.dataStorage.size % s.verificationBlockSize.toNat = rest :=
    ⟨_, rfl⟩
  have rest_lt : rest < s.verificationBlockSize.toNat := isRest ▸ mod_lt _ blockPos
  have rest_le : rest ≤ s.dataStorage.size := isRest ▸ mod_le _ _
  have whole : s.verificationBlockSize.toNat ∣ s.dataStorage.size - rest := isRest ▸ dvd_sub_mod _
  have mod : (s.dataSize % s.verificationBlockSize).toNat = rest := by
    rw [toNat_umod, dataSize_toNat, isRest]
  have down : (s.dataSize - s.dataSize % s.verificationBlockSize).toNat =
      s.dataStorage.size - rest := by
    rw [toNat_sub_of_le, mod, dataSize_toNat]
    rw [le_def, mod, dataSize_toNat]
    exact rest_le
  by_cases even : s.dataSize % s.verificationBlockSize = 0
  · have none : rest = 0 := by rw [← mod, even]; rfl
    have up : (alignUpSize s.dataSize s.verificationBlockSize).toNat = s.dataStorage.size := by
      rw [alignUpSize, if_pos even, down, none, Nat.sub_zero]
    rw [none, Nat.sub_zero] at whole
    exact ⟨rfl, small, up ▸ whole, up ▸ le_refl _, by omega⟩
  · have some : rest ≠ 0 := fun none => even (eq_of_toNat_eq (mod.trans none))
    have up : (alignUpSize s.dataSize s.verificationBlockSize).toNat =
        (s.dataStorage.size - rest + s.verificationBlockSize.toNat) % 2 ^ 64 := by
      rw [alignUpSize, if_neg even, toNat_add, down]
    -- A sum that left the range would be smaller than a block, and the range would not end by it.
    have no_wrap : s.dataStorage.size - rest + s.verificationBlockSize.toNat < 2 ^ 64 := by
      have one_block := le_of_dvd positive admissible.size_aligned
      by_contra wraps
      omega
    rw [mod_eq_of_lt no_wrap] at up
    refine ⟨rfl, small, up ▸ (Nat.dvd_add whole (Nat.dvd_refl _)), ?_, ?_⟩ <;> omega

/-- The range is checked and found good. -/
theorem RoundedTo.checkAccessRange_eq {rounded : Nat} (round : RoundedTo s rounded)
    (fits : offset.toNat + size.toNat ≤ rounded) :
    checkAccessRange offset size (alignUpSize s.dataSize s.verificationBlockSize) = .success := by
  have small := round.small
  have sum : (offset + size).toNat = offset.toNat + size.toNat := toNat_add_of_lt (by omega)
  have zero : (0 : Size).toNat = 0 := rfl
  rw [checkAccessRange, if_neg, if_neg, if_neg, if_neg]
  · rw [slt_iff (round.toNat_eq ▸ small) (by omega), round.toNat_eq]
    omega
  · rw [slt_iff (by omega) (by omega)]
    omega
  · rw [slt_iff (by omega) (by omega)]
    omega
  · rw [slt_iff (by omega) (by omega)]
    omega

/-- What is left of the last block behind the data is what the range has behind them. -/
theorem RoundedTo.paddingSize_eq {rounded : Nat} (round : RoundedTo s rounded)
    (admissible : s.Admissible size offset) (fits : offset.toNat + size.toNat ≤ rounded)
    (crossing : s.dataStorage.size < offset.toNat + size.toNat) :
    (s.dataSize - offset).toNat = s.dataStorage.size - offset.toNat ∧
      (s.verificationBlockSize - ((s.dataSize - offset) &&& (s.verificationBlockSize - 1))).toNat =
        offset.toNat + size.toNat - s.dataStorage.size ∧
      offset.toNat + size.toNat - s.dataStorage.size < s.verificationBlockSize.toNat := by
  have late := admissible.offset_le
  have near := round.near
  have left : (s.dataSize - offset).toNat = s.dataStorage.size - offset.toNat := by
    rw [toNat_sub_of_le, dataSize_toNat]
    rw [le_def, dataSize_toNat]
    exact late
  -- The end of the range is the end of the block, as both are borders of blocks.
  have ends : offset.toNat + size.toNat = rounded := by
    obtain ⟨k, whole⟩ := Nat.dvd_add admissible.offset_aligned admissible.size_aligned
    obtain ⟨l, border⟩ := round.aligned
    have same : k = l := by
      refine le_antisymm ?_ ?_
      · exact le_of_mul_le_mul_left (whole ▸ border ▸ fits) blockSize_pos
      · refine Nat.lt_succ_iff.1 (Nat.lt_of_mul_lt_mul_left (a := s.verificationBlockSize.toNat) ?_)
        rw [Nat.mul_succ]
        omega
    rw [whole, border, same]
  have rest : (s.dataStorage.size - offset.toNat) % s.verificationBlockSize.toNat =
      s.verificationBlockSize.toNat - (rounded - s.dataStorage.size) := by
    obtain ⟨k, whole⟩ := dvd_sub round.aligned admissible.offset_aligned
    cases k with
    | zero =>
      rw [Nat.mul_zero] at whole
      omega
    | succ k =>
      rw [Nat.mul_succ] at whole
      have split : s.dataStorage.size - offset.toNat =
          s.verificationBlockSize.toNat - (rounded - s.dataStorage.size) +
            s.verificationBlockSize.toNat * k := by
        omega
      rw [split, add_mul_mod_self_left, mod_eq_of_lt (by omega)]
  refine ⟨left, ?_, by omega⟩
  rw [toNat_sub_of_le, and_mask_toNat, left, rest, ends]
  · omega
  · rw [le_def, and_mask_toNat]
    exact le_of_lt (mod_lt _ blockSize_pos)

/-- A read of whole blocks up to the end of the last one stays in its buffer, and is padded. -/
theorem readsPadded (s : IntegrityVerificationStorage) (buffer : Memory) (size offset : Size)
    (admissible : s.Admissible size offset) : s.ReadsPadded buffer size offset := by
  rw [ReadsPadded, read]
  by_cases none : size = 0
  · subst none
    rw [if_pos rfl]
    exact ⟨buffer, by simp, fun i below => absurd below (not_lt_zero i), fun i _ => rfl⟩
  rw [if_neg none]
  have late := admissible.offset_le
  obtain ⟨rounded, round, fits⟩ := admissible.rounded none
  have small := round.small
  have data := round.data_le
  have within : ¬ s.dataSize < offset := by
    rw [lt_def, dataSize_toNat]
    exact not_lt.2 late
  have sum : (offset + size).toNat = offset.toNat + size.toNat := toNat_add_of_lt (by omega)
  have crosses : s.dataSize.slt (offset + size) = true ↔
      s.dataStorage.size < offset.toNat + size.toNat := by
    rw [slt_iff (dataSize_toNat ▸ by omega) (by omega), dataSize_toNat, sum]
  rw [if_neg within, round.checkAccessRange_eq fits, if_neg (fun failed => failed rfl)]
  by_cases crossing : s.dataStorage.size < offset.toNat + size.toNat
  · obtain ⟨left, padding, padding_lt⟩ := round.paddingSize_eq admissible fits crossing
    have asserted : (s.verificationBlockSize -
        ((s.dataSize - offset) &&& (s.verificationBlockSize - 1))).slt s.verificationBlockSize =
        true := by
      have block := blockSize_lt (s := s)
      rw [slt_iff (by omega) block, padding]
      exact padding_lt
    rw [if_pos (crosses.2 crossing)]
    dsimp only
    rw [if_neg (not_not.2 asserted), left, padding,
      VirtualFile.available_eq (le_of_eq (add_sub_of_le late)),
      min_eq_right (by omega)]
    refine ⟨_, rfl, fun i below => ?_, fun i above => ?_⟩
    · rw [VirtualFile.read]
      by_cases inData : offset.toNat + i < s.dataStorage.size
      · rw [if_pos ⟨by omega, inData⟩, if_pos inData]
      · rw [if_neg fun inside => inData inside.2, if_neg inData, Scatter.writeBlock,
          if_pos ⟨by omega, by omega⟩, zeros]
    · rw [VirtualFile.read, if_neg (by omega), Scatter.writeBlock, if_neg (by omega)]
  · rw [if_neg (crosses.not.2 crossing), VirtualFile.available]
    refine ⟨_, rfl, fun i below => ?_, fun i above => ?_⟩
    · rw [VirtualFile.read, if_pos ⟨below, by omega⟩, if_pos (by omega)]
    · rw [VirtualFile.read, if_neg (by omega)]

/-- Five bytes in blocks of four. The second block is read. -/
theorem readsPadded_second_block :
    let s : IntegrityVerificationStorage :=
      ⟨⟨5, fun _ => 7⟩, 4, 2, by decide, by decide, by decide⟩
    s.Admissible 4 4 ∧ s.ReadsPadded zeros 4 4 := by
  intro s
  have admissible : s.Admissible 4 4 := ⟨by decide, by decide, by decide, by decide⟩
  exact ⟨admissible, readsPadded s zeros 4 4 admissible⟩

end IntegrityVerificationStorage

end SumiEmu.FileSys
