/-
# A storage encrypted in counter mode

A base storage whose bytes are combined with a key stream, sixteen bytes for each value of a
counter. Writing goes through a pooled buffer of bounded size, chunk by chunk.
-/

import Mathlib.Data.List.GetD
import Mathlib.Data.Nat.ModEq
import SumiEmu.FileSys.VirtualFile

namespace SumiEmu.FileSys

open List Nat

/-! ## The counter -/

/-- The bytes of a counter from the last one on, to which a value and a carry are added. -/
def addCounterLoop : List Byte → BitVec 64 → Byte → List Byte
  | [], _, _ => []
  | byte :: bytes, remaining, carry =>
    let sum := byte.setWidth 64 + (remaining &&& 0xFF) + carry.setWidth 64
    let carry : Byte := (sum >>> 8).setWidth 8
    let sum8 : Byte := (sum &&& 0xFF).setWidth 8
    let remaining := remaining >>> 8
    if carry = 0 ∧ remaining = 0 then sum8 :: bytes
      else sum8 :: addCounterLoop bytes remaining carry

/-- `AddCounter`. -/
def addCounter (counter : List Byte) (value : BitVec 64) : List Byte :=
  (addCounterLoop counter.reverse value 0).reverse

/-- The block that the bytes of a counter make. -/
def counterBlock (counter : List Byte) : BitVec 128 :=
  BitVec.ofNat 128 (BigEndian.value 256 (counter.map BitVec.toNat))

/-- A byte of a block, the high one first. -/
def byteAt (block : BitVec 128) (i : Nat) : Byte := block.extractLsb' (8 * (15 - i)) 8

/-- Counter mode: each block of the data is combined with the image of its counter. -/
def transcode (aes : BitVec 128 → BitVec 128) (ctr : List Byte) (src : List Byte) : List Byte :=
  src.mapIdx fun i byte => byte ^^^ byteAt (aes (counterBlock ctr + BitVec.ofNat 128 (i / 16)))
    (i % 16)

/-! ## The base storage and the pooled buffer -/

/-- The storage below, by byte. -/
abbrev BaseStorage : Type := Nat → Byte

/-- `Read` of the storage below. -/
def BaseStorage.read (base : BaseStorage) (size offset : Nat) : List Byte :=
  (range size).map fun i => base (offset + i)

/-- `Write` of the storage below. -/
def BaseStorage.write (base : BaseStorage) (data : List Byte) (offset : Nat) : BaseStorage :=
  fun p => if offset ≤ p ∧ p < offset + data.length then data.getD (p - offset) 0 else base p

def heapAllocatableSizeMax : Nat := 0x1000 * 2 ^ 7

/-- A buffer that has been allocated. -/
structure PooledBuffer where
  size : Nat
  allocated : 0 < size

/-- The buffer may be smaller than the ideal size, but not than the required one. -/
def PooledBuffer.allocate (idealSize requiredSize : Nat) (required : 0 < requiredSize) :
    PooledBuffer where
  size := min (max idealSize requiredSize) heapAllocatableSizeMax
  allocated := by
    have positive : 0 < heapAllocatableSizeMax := by decide
    omega

/-! ## The storage -/

def blockSize : Nat := 0x10

/-- The block function is AES under the key of the storage. -/
structure AesCtrStorage where
  base : BaseStorage
  aes : BitVec 128 → BitVec 128
  iv : List Byte
  ivSize : iv.length = 16

/-- An offset and a size are given as 64-bit numbers of whole blocks. -/
def Aligned (size offset : Nat) : Prop :=
  offset % blockSize = 0 ∧ size % blockSize = 0 ∧ offset + size ≤ 2 ^ 64

instance (size offset : Nat) : Decidable (Aligned size offset) :=
  inferInstanceAs (Decidable (_ ∧ _))

namespace AesCtrStorage

variable (s : AesCtrStorage)

/-- The bytes that are read, unless an assertion on the block alignment fails. -/
def read (size offset : Nat) : Option (List Byte) :=
  if size = 0 then some []
  else if Aligned size offset then
    let buffer := s.base.read size offset
    let ctr := addCounter s.iv (BitVec.ofNat 64 (offset / blockSize))
    some (transcode s.aes ctr buffer)
  else none

/-- The base storage after the chunks that remain have been written. -/
def writeLoop (buffer : List Byte) (offset : Nat) (pooledBuffer : PooledBuffer) (ctr : List Byte)
    (curOffset remaining : Nat) (base : BaseStorage) : BaseStorage :=
  if _started : 0 < remaining then
    let writeSize := min pooledBuffer.size remaining
    -- The data is taken from the start of the buffer in every round.
    let writeBuf := transcode s.aes ctr (buffer.take writeSize)
    let base := base.write writeBuf (offset + curOffset)
    let ctr :=
      if 0 < remaining - writeSize then addCounter ctr (BitVec.ofNat 64 (writeSize / blockSize))
        else ctr
    writeLoop buffer offset pooledBuffer ctr (curOffset + writeSize) (remaining - writeSize) base
  else base
termination_by remaining
decreasing_by
  have positive := pooledBuffer.allocated
  omega

def write (buffer : List Byte) (offset : Nat) : Option AesCtrStorage :=
  if buffer.length = 0 then some s
  else if Aligned buffer.length offset then
    let pooledBuffer := PooledBuffer.allocate buffer.length blockSize (by decide)
    let ctr := addCounter s.iv (BitVec.ofNat 64 (offset / blockSize))
    some { s with base := s.writeLoop buffer offset pooledBuffer ctr 0 buffer.length s.base }
  else none

end AesCtrStorage

/-! ## Adding to a counter -/

/-- One round of adding: the sum of a byte, of the last byte of the value and of the carry. -/
theorem addCounter_round (byte : Byte) (remaining : BitVec 64) (carry : Byte)
    (small : carry.toNat ≤ 1) :
    let sum := byte.setWidth 64 + (remaining &&& 0xFF) + carry.setWidth 64
    ((sum >>> 8).setWidth 8 : Byte).toNat ≤ 1 ∧
    ((sum &&& 0xFF).setWidth 8 : Byte).toNat +
    256 * (((sum >>> 8).setWidth 8 : Byte).toNat + (remaining >>> 8).toNat) =
      byte.toNat + remaining.toNat + carry.toNat := by
  intro sum
  have low : (remaining &&& 0xFF).toNat = remaining.toNat % 256 := by
    rw [BitVec.toNat_and]
    exact and_two_pow_sub_one_eq_mod _ 8
  have byteLt := byte.isLt
  have sumEq : sum.toNat = byte.toNat + remaining.toNat % 256 + carry.toNat := by
    simp only [sum, BitVec.toNat_add, low, BitVec.toNat_setWidth]
    omega
  have sumLow : (sum &&& 0xFF).toNat = sum.toNat % 256 := by
    rw [BitVec.toNat_and]
    exact and_two_pow_sub_one_eq_mod _ 8
  simp only [BitVec.toNat_setWidth, BitVec.toNat_ushiftRight, shiftRight_eq_div_pow, sumLow]
  omega

theorem length_addCounterLoop (bytes : List Byte) (remaining : BitVec 64) (carry : Byte) :
    (addCounterLoop bytes remaining carry).length = bytes.length := by
  induction bytes generalizing remaining carry with
  | nil => rfl
  | cons byte bytes ih =>
    rw [addCounterLoop]
    split
    · rfl
    · rw [length_cons, length_cons, ih]

/-- Byte for byte from the last one on, the value and the carry are added to what the bytes stand
for. -/
theorem ofDigits_addCounterLoop (bytes : List Byte) (remaining : BitVec 64) (carry : Byte)
    (small : carry.toNat ≤ 1) :
    Nat.ofDigits 256 ((addCounterLoop bytes remaining carry).map BitVec.toNat) ≡
      Nat.ofDigits 256 (bytes.map BitVec.toNat) +
        (carry.toNat + remaining.toNat) [MOD 256 ^ bytes.length] := by
  induction bytes generalizing remaining carry with
  | nil => exact modEq_one
  | cons byte bytes ih =>
    obtain ⟨carrySmall, round⟩ := addCounter_round byte remaining carry small
    rw [addCounterLoop]
    generalize byte.setWidth 64 + (remaining &&& 0xFF) + carry.setWidth 64 = sum at *
    -- What is left over for the further bytes.
    have further : Nat.ofDigits 256
      (((if ((sum >>> 8).setWidth 8 : Byte) = 0 ∧ remaining >>> 8 = 0 then bytes
      else addCounterLoop bytes (remaining >>> 8) ((sum >>> 8).setWidth 8)).map BitVec.toNat)) ≡
      Nat.ofDigits 256 (bytes.map BitVec.toNat) +
          (((sum >>> 8).setWidth 8 : Byte).toNat + (remaining >>> 8).toNat)
          [MOD 256 ^ bytes.length] := by
      split
      · rename_i done
        rw [done.1, done.2]
        exact Nat.ModEq.refl _
      · exact ih _ _ carrySmall
    have whole : (if ((sum >>> 8).setWidth 8 : Byte) = 0 ∧ remaining >>> 8 = 0 then
          ((sum &&& 0xFF).setWidth 8 : Byte) :: bytes
        else (sum &&& 0xFF).setWidth 8 ::
          addCounterLoop bytes (remaining >>> 8) ((sum >>> 8).setWidth 8)) = (sum &&& 0xFF).setWidth
          8 :: (if ((sum >>> 8).setWidth 8 : Byte) = 0 ∧ remaining >>> 8 = 0 then bytes
          else addCounterLoop bytes (remaining >>> 8) ((sum >>> 8).setWidth 8)) := by
      split <;> rfl
    show Nat.ofDigits 256 (map BitVec.toNat (if _ then _ else _)) ≡ _ [MOD _]
    rw [whole, map_cons, map_cons, ofDigits_cons, ofDigits_cons, length_cons, pow_succ,
      mul_comm (256 ^ bytes.length)]
    refine ((further.mul_left' 256).add_left _).trans ?_
    show _ % _ = _ % _
    congr 1
    omega

/-- The counter goes on by the value, as a number of 128 bits. -/
theorem counterBlock_addCounter (counter : List Byte) (value : BitVec 64)
    (size : counter.length = 16) :
    counterBlock (addCounter counter value) =
      counterBlock counter + BitVec.ofNat 128 value.toNat := by
  have added := ofDigits_addCounterLoop counter.reverse value 0 (zero_le _)
  rw [length_reverse, size] at added
  rw [counterBlock, counterBlock, ← BitVec.ofNat_add]
  apply BitVec.eq_of_toNat_eq
  rw [BitVec.toNat_ofNat, BitVec.toNat_ofNat, BigEndian.value, BigEndian.value, addCounter,
    map_reverse, reverse_reverse, ← map_reverse]
  simpa [Nat.ModEq] using added

theorem length_addCounter (counter : List Byte) (value : BitVec 64) :
    (addCounter counter value).length = counter.length := by
  rw [addCounter, length_reverse, length_addCounterLoop, length_reverse]

end SumiEmu.FileSys

/-!
## Reading back what was written

The plain content of the storage is its base combined with the key stream. A read is a part of it,
and a write puts its data there, except that every chunk gets the data of the first one.
-/

namespace SumiEmu.FileSys.AesCtrStorage

open List Nat

variable (s : AesCtrStorage)

/-- The byte of the key stream at a place of the storage. -/
def keyStream (p : Nat) : Byte :=
  byteAt (s.aes (counterBlock s.iv + BitVec.ofNat 128 (p / blockSize))) (p % blockSize)

/-- The byte of the plain content at a place of the storage. -/
def plain (p : Nat) : Byte := s.base p ^^^ s.keyStream p

variable {s}

/-! ## Transcoding a part of the storage -/

/-- The counter of a place of the storage. -/
def CounterAt (s : AesCtrStorage) (ctr : List Byte) (p : Nat) : Prop :=
  ctr.length = 16 ∧ counterBlock ctr = counterBlock s.iv + BitVec.ofNat 128 (p / blockSize)

variable {offset : Nat}

theorem counterAt_start (bound : offset < 2 ^ 64) :
    CounterAt s (addCounter s.iv (BitVec.ofNat 64 (offset / blockSize))) offset := by
  have small : offset / blockSize < 2 ^ 64 := lt_of_le_of_lt (div_le_self _ _) bound
  refine ⟨by rw [length_addCounter, s.ivSize], ?_⟩
  rw [counterBlock_addCounter _ _ s.ivSize, BitVec.toNat_ofNat, mod_eq_of_lt small]

theorem CounterAt.next {ctr : List Byte} {p size : Nat} (here : CounterAt s ctr p)
    (aligned : size % blockSize = 0)
    (bound : size < 2 ^ 64) :
    CounterAt s (addCounter ctr (BitVec.ofNat 64 (size / blockSize))) (p + size) := by
  have small : size / blockSize < 2 ^ 64 := lt_of_le_of_lt (div_le_self _ _) bound
  refine ⟨by rw [length_addCounter, here.1], ?_⟩
  have blocks : (p + size) / blockSize = p / blockSize + size / blockSize := by
    unfold blockSize at *
    omega
  rw [counterBlock_addCounter _ _ here.1, here.2, BitVec.toNat_ofNat, mod_eq_of_lt small, blocks,
    BitVec.ofNat_add, BitVec.add_assoc]

theorem length_transcode (aes : BitVec 128 → BitVec 128) (ctr src : List Byte) :
    (transcode aes ctr src).length = src.length := length_mapIdx

/-- With the counter of an aligned place the data is combined with the key stream from there on. -/
theorem getD_transcode {ctr src : List Byte} {p i : Nat} (here : CounterAt s ctr p)
    (aligned : p % blockSize = 0)
    (inside : i < src.length) :
    (transcode s.aes ctr src).getD i 0 = src.getD i 0 ^^^ s.keyStream (p + i) := by
  have block : (p + i) / blockSize = p / blockSize + i / 16 := by
    unfold blockSize at *
    omega
  have byte : (p + i) % blockSize = i % 16 := by
    unfold blockSize at *
    omega
  have insideResult : i < (transcode s.aes ctr src).length := by
    rwa [length_transcode]
  rw [getD_eq_getElem _ _ inside, getD_eq_getElem _ _ insideResult]
  simp only [transcode, getElem_mapIdx, keyStream, block, byte, here.2, BitVec.ofNat_add,
    BitVec.add_assoc]

theorem length_baseRead (base : BaseStorage) (size offset : Nat) :
    (base.read size offset).length = size := by
  rw [BaseStorage.read, length_map, length_range]

theorem getD_baseRead (base : BaseStorage) {size offset i : Nat} (inside : i < size) :
    (base.read size offset).getD i 0 = base (offset + i) := by
  rw [getD_eq_getElem _ _ (by rwa [length_baseRead])]
  simp only [BaseStorage.read, getElem_map, getElem_range]

/-! ## Reading -/

/-- Reading gives the plain content. -/
theorem read_eq {size offset : Nat} (aligned : Aligned size offset) :
    s.read size offset = some ((range size).map fun i => s.plain (offset + i)) := by
  rw [read]
  by_cases empty : size = 0
  · rw [if_pos empty, empty]
    rfl
  · rw [if_neg empty, if_pos aligned]
    have bound : offset < 2 ^ 64 := by
      have whole := aligned.2.2
      omega
    have lengths : (transcode s.aes (addCounter s.iv (BitVec.ofNat 64 (offset / blockSize)))
        (s.base.read size offset)).length = size := by
      rw [length_transcode, length_baseRead]
    refine congrArg some ?_
    apply ext_getElem
    · rw [lengths, length_map, length_range]
    · intro i inside _
      rw [← getD_eq_getElem _ 0 inside, getD_transcode (counterAt_start bound) aligned.1
        (by rwa [length_baseRead, ← lengths]), getD_baseRead _ (by rwa [← lengths]), getElem_map,
        getElem_range, plain]

/-! ## Writing -/

/-- The data that writing puts into the storage: every chunk has the data of the first one. -/
def writtenByte (data : List Byte) (i : Nat) : Byte := data.getD (i % heapAllocatableSizeMax) 0

variable {data : List Byte}

/-- What the chunks that remain put into the base. -/
theorem writeLoop_apply {pool : PooledBuffer} (aligned : Aligned data.length offset)
    (poolAligned : pool.size % blockSize = 0) (ctr : List Byte) (curOffset remaining : Nat)
    (base : BaseStorage)
    (whole : curOffset + remaining = data.length)
    (chunks : 0 < remaining → curOffset % pool.size = 0 ∧ CounterAt s ctr (offset + curOffset))
    (p : Nat) : s.writeLoop data offset pool ctr curOffset remaining base p =
      if offset + curOffset ≤ p ∧ p < offset + data.length then
        data.getD ((p - offset) % pool.size) 0 ^^^ s.keyStream p
      else base p := by
  induction remaining using Nat.strong_induction_on generalizing ctr curOffset base with
  | _ remaining ih =>
    rw [writeLoop]
    by_cases started : 0 < remaining
    · rw [dif_pos started]
      obtain ⟨chunkStart, here⟩ := chunks started
      have positive := pool.allocated
      obtain ⟨offsetAligned, sizeAligned, bound⟩ := aligned
      have writeAligned : min pool.size remaining % blockSize = 0 := by
        have curAligned : curOffset % blockSize = 0 := by
          obtain ⟨n, eq⟩ := dvd_of_mod_eq_zero chunkStart
          rw [eq, mul_mod, poolAligned, zero_mul, zero_mod]
        unfold blockSize at *
        omega
      generalize writeSizeEq : min pool.size remaining = writeSize at *
      have taken : (data.take writeSize).length = writeSize := by
        rw [length_take]
        omega
      rw [ih (remaining - writeSize) (by omega) _ (curOffset + writeSize) _ (by omega) ?next]
      case next =>
        intro further
        -- Another chunk follows, so this one has filled the buffer.
        have full : writeSize = pool.size := by
          omega
        rw [if_pos further, ← add_assoc]
        refine ⟨?_, here.next writeAligned (by omega)⟩
        rw [full, add_mod_right, chunkStart]
      by_cases inChunk : offset + curOffset ≤ p ∧ p < offset + (curOffset + writeSize)
      · have place : (p - offset) % pool.size = p - (offset + curOffset) := by
          obtain ⟨n, eq⟩ := dvd_of_mod_eq_zero chunkStart
          have split : p - offset = p - (offset + curOffset) + pool.size * n := by
            omega
          rw [split, add_mul_mod_self_left, mod_eq_of_lt (by omega)]
        have placeAligned : (offset + curOffset) % blockSize = 0 := by
          obtain ⟨n, eq⟩ := dvd_of_mod_eq_zero chunkStart
          rw [add_mod, offsetAligned, eq, mul_mod, poolAligned, zero_mul, zero_mod, add_zero,
            zero_mod]
        rw [if_neg (by omega), if_pos (by omega), BaseStorage.write, length_transcode, taken,
          if_pos (by omega), getD_transcode here placeAligned (by omega), place,
          add_sub_of_le inChunk.1]
        congr 1
        rw [getD_eq_getElem _ _ (by omega), getElem_take, getD_eq_getElem]
      · by_cases later : offset + (curOffset + writeSize) ≤ p ∧ p < offset + data.length
        · rw [if_pos later, if_pos (by omega)]
        · rw [if_neg later, if_neg (by omega), BaseStorage.write, length_transcode, taken,
            if_neg (by omega)]
    · rw [dif_neg started, if_neg (by omega)]

/-- A write changes the base only in its range, where its data stands in the plain content with
every chunk like the first one. -/
theorem write_eq (aligned : Aligned data.length offset) :
    ∃ s', s.write data offset = some s' ∧ s'.aes = s.aes ∧ s'.iv = s.iv ∧
      ∀ p, s'.base p =
        if offset ≤ p ∧ p < offset + data.length
        then writtenByte data (p - offset) ^^^ s.keyStream p
        else s.base p := by
  rw [write]
  by_cases empty : data.length = 0
  · rw [if_pos empty]
    exact ⟨s, rfl, rfl, rfl, fun p => (if_neg (by omega)).symm⟩
  · rw [if_neg empty, if_pos aligned]
    refine ⟨_, rfl, rfl, rfl, fun p => ?_⟩
    have sizeEq : (PooledBuffer.allocate data.length blockSize (by decide)).size =
        min (max data.length blockSize) heapAllocatableSizeMax := rfl
    have poolAligned : (PooledBuffer.allocate data.length blockSize (by decide)).size % blockSize =
        0 := by
      have dataAligned := aligned.2.1
      rw [sizeEq]
      simp only [blockSize, heapAllocatableSizeMax] at *
      omega
    show s.writeLoop data offset (PooledBuffer.allocate data.length blockSize (by decide)) _ 0
      data.length s.base p = _
    rw [writeLoop_apply aligned poolAligned _ 0 data.length s.base (zero_add _)]
    · rw [add_zero]
      by_cases inside : offset ≤ p ∧ p < offset + data.length
      · rw [if_pos inside, if_pos inside, writtenByte, sizeEq]
        congr 2
        by_cases short : data.length ≤ heapAllocatableSizeMax
        · have atLeast : data.length ≤ min (max data.length blockSize) heapAllocatableSizeMax := by
            omega
          rw [mod_eq_of_lt (by omega), mod_eq_of_lt (by omega)]
        · rw [min_eq_right (by omega)]
      · rw [if_neg inside, if_neg inside]
    · intro _
      rw [add_zero]
      have bound := aligned.2.2
      exact ⟨zero_mod _, counterAt_start (by omega)⟩

/-! ## Sequences of calls -/

/-- A call of the storage. -/
inductive Call where
  | read (size offset : Nat)
  | write (data : List Byte) (offset : Nat)

/-- The call passes its assertions. -/
def Call.Valid : Call → Prop
  | .read size offset => Aligned size offset
  | .write data offset => Aligned data.length offset

/-- The data of a write repeats itself after every 512 KiB. Data that is not longer does. -/
def Call.Repeats : Call → Prop
  | .read _ _ => True
  | .write data _ => ∀ i < data.length, data.getD (i % heapAllocatableSizeMax) 0 = data.getD i 0

/-- The storage after a call, unless one of its assertions fails. -/
def apply (s : AesCtrStorage) : Call → Option AesCtrStorage
  | .read size offset => (s.read size offset).map fun _ => s
  | .write data offset => s.write data offset

/-- The storage after some calls. -/
def run (s : AesCtrStorage) : List Call → Option AesCtrStorage
  | [] => some s
  | call :: calls => (s.apply call).bind fun s => s.run calls

/-- What the storage should contain after a call, given what it contained before. -/
def Call.onContent : Call → (Nat → Byte) → Nat → Byte
  | .read _ _, content, p => content p
  | .write data offset, content, p =>
    if offset ≤ p ∧ p < offset + data.length then data.getD (p - offset) 0 else content p

/-- The bytes last written, and the plain base where nothing has been written. -/
def expected (s : AesCtrStorage) (calls : List Call) : Nat → Byte :=
  calls.foldl (fun content call => call.onContent content) s.plain

/-- What the storage promises after some calls: a read gives the bytes that were last written, and a
write changes nothing outside its range. -/
def RandomAccess (s : AesCtrStorage) (calls : List Call) : Prop :=
  ∃ s', s.run calls = some s' ∧
    (∀ size offset, Aligned size offset →
      s'.read size offset = some ((range size).map fun i => s.expected calls (offset + i))) ∧
    ∀ data offset, Aligned data.length offset →
      ∃ s'', s'.write data offset = some s'' ∧
        ∀ p, ¬ (offset ≤ p ∧ p < offset + data.length) → s''.base p = s'.base p

theorem run_append (calls more : List Call) :
    s.run (calls ++ more) = (s.run calls).bind fun s' => s'.run more := by
  induction calls generalizing s with
  | nil => rfl
  | cons call calls ih =>
    rw [cons_append, run, run]
    cases s.apply call with
    | none => rfl
    | some s' => exact ih

theorem keyStream_congr {s' : AesCtrStorage} (aes : s'.aes = s.aes) (iv : s'.iv = s.iv) :
    s'.keyStream = s.keyStream := by
  funext p
  rw [keyStream, keyStream, aes, iv]

/-- A write puts its data into the plain content, with every chunk like the first one. -/
theorem write_plain (aligned : Aligned data.length offset) :
    ∃ s', s.write data offset = some s' ∧ ∀ p, s'.plain p =
      if offset ≤ p ∧ p < offset + data.length then writtenByte data (p - offset)
      else s.plain p := by
  obtain ⟨s', written, aes, iv, base⟩ := write_eq (s := s) aligned
  refine ⟨s', written, fun p => ?_⟩
  rw [plain, base, keyStream_congr aes iv]
  split
  · rw [BitVec.xor_assoc, BitVec.xor_self, BitVec.xor_zero]
  · rfl

/-- A call whose data repeats itself leaves the content that it should. -/
theorem apply_plain {call : Call} (valid : call.Valid) (repeats : call.Repeats) :
    ∃ s', s.apply call = some s' ∧ s'.plain = call.onContent s.plain := by
  cases call with
  | read size offset =>
    refine ⟨s, ?_, rfl⟩
    rw [apply, read_eq valid]
    rfl
  | write data offset =>
    obtain ⟨s', written, content⟩ := write_plain (s := s) valid
    refine ⟨s', written, funext fun p => ?_⟩
    rw [content, Call.onContent]
    split
    · exact repeats (p - offset) (by omega)
    · rfl

theorem run_plain (calls : List Call) (valid : ∀ call ∈ calls, call.Valid)
    (repeats : ∀ call ∈ calls, call.Repeats) :
    ∃ s', s.run calls = some s' ∧ s'.plain = s.expected calls := by
  induction calls generalizing s with
  | nil => exact ⟨s, rfl, rfl⟩
  | cons call calls ih =>
    obtain ⟨s', applied, content⟩ :=
      apply_plain (s := s) (valid _ mem_cons_self) (repeats _ mem_cons_self)
    obtain ⟨s'', ran, finalContent⟩ :=
      ih (s := s') (fun c member => valid c (mem_cons_of_mem _ member)) fun c member =>
      repeats c (mem_cons_of_mem _ member)
    refine ⟨s'', by rw [run, applied]; exact ran, ?_⟩
    rw [finalContent, expected, expected, foldl_cons, content]

/-- Reads give the bytes last written, after every part of a sequence of calls, if and only if the
data of every write repeats itself after every 512 KiB. -/
theorem randomAccess_iff (s : AesCtrStorage) (calls : List Call)
    (valid : ∀ call ∈ calls, call.Valid) :
    (∀ before, before <+: calls → s.RandomAccess before) ↔ ∀ call ∈ calls, call.Repeats := by
  constructor
  · intro access call member
    cases call with
    | read size offset => trivial
    | write data offset =>
      intro i inside
      obtain ⟨before, after, rfl⟩ := append_of_mem member
      obtain ⟨s₁, ran, -, -⟩ := access before (prefix_append _ _)
      obtain ⟨s₂, ranWrite, reads, -⟩ := access (before ++ [.write data offset]) ⟨after, by simp⟩
      have aligned : Aligned data.length offset := valid _ member
      obtain ⟨s', written, content⟩ := write_plain (s := s₁) aligned
      obtain rfl : s₂ = s' := by
        rw [run_append, ran] at ranWrite
        simpa [run, apply, written] using ranWrite.symm
      have bytes := Option.some.inj ((read_eq (s := s₂) aligned).symm.trans (reads _ _ aligned))
      have byte := map_inj_left.mp bytes i (mem_range.mpr inside)
      rw [content, if_pos (by omega), Nat.add_sub_cancel_left, expected, foldl_append, foldl_cons,
        foldl_nil, Call.onContent, if_pos (by omega), Nat.add_sub_cancel_left] at byte
      exact byte
  · intro repeats before isPrefix
    obtain ⟨s', ran, content⟩ :=
      run_plain (s := s) before (fun c member => valid c (isPrefix.subset member)) fun c member =>
      repeats c (isPrefix.subset member)
    refine ⟨s', ran, ?_, ?_⟩
    · intro size offset aligned
      rw [read_eq aligned, content]
    · intro data offset aligned
      obtain ⟨s'', written, -, -, base⟩ := write_eq (s := s') aligned
      refine ⟨s'', written, fun p outside => ?_⟩
      rw [base, if_neg outside]

/-- A storage of zeros whose block function has the image zero everywhere. -/
def zeros : AesCtrStorage where
  base _ := 0
  aes _ := 0
  iv := replicate 16 0
  ivSize := length_replicate

theorem randomAccess_zeros :
    (∀ before, before <+: [Call.write (replicate 16 1) 32, .read 16 32] →
      zeros.RandomAccess before) ↔
      ∀ call ∈ [Call.write (replicate 16 1) 32, .read 16 32], call.Repeats := by
  refine randomAccess_iff zeros _ fun call member => ?_
  simp only [mem_cons, not_mem_nil, or_false] at member
  rcases member with rfl | rfl
  · exact ⟨by decide, by decide, by decide⟩
  · exact ⟨by decide, by decide, by decide⟩

/-- One block more than 512 KiB, with ones in the last block only. -/
def longData : List Byte := replicate heapAllocatableSizeMax 0 ++ replicate 16 1

/-- The last block of a write that is too long is read back as the first one. -/
theorem write_longData : Aligned longData.length 0 ∧ ¬ zeros.RandomAccess [.write longData 0] := by
  have length : longData.length = heapAllocatableSizeMax + 16 := by
    rw [longData, length_append, length_replicate, length_replicate]
  have aligned : Aligned longData.length 0 := by
    rw [length]
    decide
  refine ⟨aligned, ?_⟩
  rintro ⟨s', ran, reads, -⟩
  obtain ⟨s'', written, content⟩ := write_plain (s := zeros) aligned
  obtain rfl : s' = s'' := by
    rw [run, apply, written] at ran
    exact (Option.some.inj ran).symm
  have lastAligned : Aligned 16 heapAllocatableSizeMax := by decide
  have bytes := Option.some.inj ((read_eq (s := s') lastAligned).symm.trans (reads _ _ lastAligned))
  have byte := map_inj_left.mp bytes 0 (by decide)
  have first : longData.getD 0 0 = 0 := rfl
  have last : longData.getD heapAllocatableSizeMax 0 = 1 := by
    rw [longData, getD_append_right _ _ _ _ (by rw [length_replicate]), length_replicate,
      Nat.sub_self]
    rfl
  rw [content, expected, foldl_cons, foldl_nil, Call.onContent, add_zero, length,
    if_pos ⟨Nat.zero_le _, by decide⟩, if_pos ⟨Nat.zero_le _, by decide⟩, Nat.sub_zero, writtenByte,
    Nat.mod_self, first, last] at byte
  exact absurd byte (by decide)

end SumiEmu.FileSys.AesCtrStorage
