/-
# The bit writer of H.264 headers

Values are written with a given count of bits, or in Exp-Golomb code: a number and one more, led by
one zero less than it has bits. Signed values alternate, the positive ones first. The reader is
the one of the format.
-/

import SumiEmu.VideoCore.BitWriter

namespace SumiEmu.VideoCore

open BitStrings

namespace H264BitWriter

open BitWriter (Fault)

/-- `WriteBits`. -/
def writeBits (value bitCount : BitVec 32) (w : BitWriter) : Except Fault BitWriter :=
  BitWriter.writeBits BitVec.sshiftRight value bitCount w

/-- `WriteU`. -/
def writeU (value valueSz : BitVec 32) (w : BitWriter) : Except Fault BitWriter :=
  writeBits value valueSz w

/-- `WriteBit`. -/
def writeBit (state : Bool) (w : BitWriter) : Except Fault BitWriter :=
  writeBits (if state then 1 else 0) 1 w

/-- `WriteExpGolombCodedUInt`. -/
def writeExpGolombCodedUInt (value : BitVec 32) (w : BitWriter) : Except Fault BitWriter := do
  let size := 32 - (value + 1).clz
  let w ← writeBits 1 size w
  let value := value - ((1#32 <<< (size - 1)) - 1)
  writeBits value (size - 1) w

/-- `WriteExpGolombCodedInt`. -/
def writeExpGolombCodedInt (value : BitVec 32) (w : BitWriter) : Except Fault BitWriter :=
  let sign : BitVec 32 := if value.toInt ≤ 0 then 0 else 1
  let value := if value.toInt < 0 then -value else value
  writeExpGolombCodedUInt ((value <<< 1) - sign) w

/-- `WriteSe`. -/
def writeSe (value : BitVec 32) (w : BitWriter) : Except Fault BitWriter :=
  writeExpGolombCodedInt value w

/-- `WriteUe`. -/
def writeUe (value : BitVec 32) (w : BitWriter) : Except Fault BitWriter :=
  writeExpGolombCodedUInt value w

/-- `End`. -/
def endStream (w : BitWriter) : Except Fault BitWriter := do
  let w ← writeBit true w
  return w.flush

/-- A call of one of the public functions. -/
inductive Write
  | u (value valueSz : BitVec 32)
  | bit (state : Bool)
  | ue (value : BitVec 32)
  | se (value : BitVec 32)
  deriving DecidableEq, Repr

/-- One write. -/
def write (w : BitWriter) : Write → Except Fault BitWriter
  | .u value valueSz => writeU value valueSz w
  | .bit state => writeBit state w
  | .ue value => writeUe value w
  | .se value => writeSe value w

/-- The bytes of a sequence of calls that `End` closes. -/
def compose (writes : List Write) : Except Fault (List (BitVec 8)) := do
  let w ← writes.foldlM write {}
  let w ← endStream w
  return w.byteArray

end H264BitWriter

/-! ## The reader of the format -/

namespace H264

/-- The descriptors of syntax elements. -/
inductive Descriptor
  | u (n : Nat)
  | ue
  | se
  deriving DecidableEq, Repr

/-- `ue(v)`: the zeros up to a one tell how many bits follow it. -/
def readUe (xs : List Bool) : Option (Nat × List Bool) :=
  let leadingZeroBits := (xs.takeWhile not).length
  match xs.drop leadingZeroBits with
  | [] => none
  | _ :: xs => (readNat leadingZeroBits xs).map fun (suffix, xs) =>
      (2 ^ leadingZeroBits - 1 + suffix, xs)

/-- `se(v)`: odd code numbers stand for positive values. -/
def signed (codeNum : Nat) : Int := if codeNum % 2 = 1 then (codeNum + 1) / 2 else -(codeNum / 2)

/-- What a descriptor reads. -/
def read : Descriptor → List Bool → Option (Int × List Bool)
  | .u n, xs => (readNat n xs).map fun (value, xs) => (value, xs)
  | .ue, xs => (readUe xs).map fun (codeNum, xs) => (codeNum, xs)
  | .se, xs => (readUe xs).map fun (codeNum, xs) => (signed codeNum, xs)

end H264

namespace H264BitWriter.Write

open H264 (Descriptor)

/-- How the format reads what a call writes. -/
def descriptor : Write → Descriptor
  | .u _ valueSz => .u valueSz.toNat
  | .bit _ => .u 1
  | .ue _ => .ue
  | .se _ => .se

/-- The value that a call is given. -/
def value : Write → Int
  | .u value _ => value.toInt
  | .bit state => state.toNat
  | .ue value => value.toNat
  | .se value => value.toInt

/-- The values that a call is meant for. -/
def Admissible : Write → Prop
  | .u value valueSz => 0 ≤ valueSz.toInt ∧ valueSz.toInt ≤ 31 ∧ 0 ≤ value.toInt ∧
      value.toInt < 2 ^ valueSz.toInt.toNat
  | .bit _ => True
  | .ue value => value.toNat < 2 ^ 32 - 1
  | .se value => |value.toInt| < 2 ^ 31

instance : (w : Write) → Decidable w.Admissible
  | .u _ _ => inferInstanceAs (Decidable (_ ∧ _))
  | .bit _ => inferInstanceAs (Decidable True)
  | .ue _ => inferInstanceAs (Decidable (_ < _))
  | .se _ => inferInstanceAs (Decidable (_ < _))

end H264BitWriter.Write

end SumiEmu.VideoCore

/-!
## H.264 headers read back

Each call puts the code of its value behind the string of bits written so far, and each code is
read back with anything behind it. So a sequence of calls is read back call by call, up to the bit
with which `End` closes it.
-/

namespace SumiEmu.VideoCore

open BitStrings BitWriter

namespace H264

/-! ## Exp-Golomb codes -/

/-- The code of a number: as many zeros as bits follow the leading one of its successor. -/
def expGolomb (codeNum : Nat) : List Bool :=
  let n := (codeNum + 1).log2
  List.replicate n false ++ bits (n + 1) (codeNum + 1)

/-- The code number of a signed value. -/
def codeNum (value : Int) : Nat := if 0 < value then 2 * value.natAbs - 1 else 2 * value.natAbs

theorem signed_codeNum (value : Int) : signed (codeNum value) = value := by
  unfold signed codeNum
  split_ifs <;> omega

theorem readUe_expGolomb (k : Nat) (rest : List Bool) :
    readUe (expGolomb k ++ rest) = some (k, rest) := by
  obtain ⟨n, size⟩ : ∃ n, (k + 1).log2 = n := ⟨_, rfl⟩
  obtain ⟨lower, upper⟩ := (Nat.log2_eq_iff (Nat.succ_ne_zero k)).1 size
  have leading : (k + 1).testBit n = true := by
    rw [Nat.testBit_eq_decide_div_mod_eq, decide_eq_true_iff]
    have one : (k + 1) / 2 ^ n = 1 := by
      rw [Nat.div_eq_iff (Nat.two_pow_pos n)]
      rw [Nat.pow_succ] at upper
      omega
    rw [one]
  have code : expGolomb k ++ rest =
      List.replicate n false ++ true :: (bits n (k + 1) ++ rest) := by
    simp only [expGolomb, size, bits, leading, List.append_assoc, List.cons_append]
  have zeros : ((List.replicate n false ++ true :: (bits n (k + 1) ++ rest)).takeWhile not).length =
      n := by
    rw [List.takeWhile_append_of_pos, List.takeWhile_cons_of_neg (by decide), List.append_nil,
      List.length_replicate]
    intro x member
    rw [List.eq_of_mem_replicate member]
    rfl
  rw [code, readUe]
  simp only [zeros]
  have small : k + 1 - 2 ^ n < 2 ^ n := by
    rw [Nat.pow_succ] at upper
    omega
  have number : 2 ^ n - 1 + (k + 1 - 2 ^ n) = k := by
    have positive := Nat.two_pow_pos n
    omega
  simp only [List.drop_left' List.length_replicate, ← bits_sub_two_pow lower, readNat_append small,
    Option.map_some, number]

end H264

namespace H264BitWriter

variable {w : BitWriter} {xs : List Bool}

theorem holds_writeBits (holds : w.Holds xs) (value bitCount : BitVec 32)
    (small : value.toNat < 2 ^ 31)
    (count : bitCount.toNat ≤ 32) :
    ∃ w', writeBits value bitCount w = .ok w' ∧
      w'.Holds (xs ++ bits bitCount.toNat value.toNat) := by
  have room := Nat.mod_lt xs.length (show 0 < 8 by decide)
  refine holds.writeBits (fun s _ => ?_) (by omega)
  exact BitVec.sshiftRight_eq_of_msb_false (BitVec.msb_eq_false_iff_two_mul_lt.2 (by omega))

theorem holds_writeBit (holds : w.Holds xs) (state : Bool) :
    ∃ w', writeBit state w = .ok w' ∧ w'.Holds (xs ++ [state]) := by
  have bit : bits (1 : BitVec 32).toNat (if state then 1 else 0 : BitVec 32).toNat = [state] := by
    cases state <;> rfl
  have written := holds_writeBits holds (if state then 1 else 0) 1
    (by cases state <;> decide) (by decide)
  rwa [bit] at written

variable {value : BitVec 32}

/-- The count of bits of a number that is not the largest of its type, and of its successor. -/
theorem exists_size (small : value.toNat < 2 ^ 32 - 1) :
    ∃ n, (value.toNat + 1).log2 = n ∧ n < 32 ∧ (32 - (value + 1).clz).toNat = n + 1 := by
  have next : (value + 1).toNat = value.toNat + 1 := by
    rw [BitVec.toNat_add, show (1 : BitVec 32).toNat = 1 from rfl, Nat.mod_eq_of_lt (by omega)]
  have nonzero : value + 1 ≠ 0 := by
    intro zero
    rw [zero] at next
    exact absurd next (by simp)
  have fewer : (value + 1).clz.toNat < 32 := BitVec.lt_def.1 (BitVec.clz_lt_iff_ne_zero.2 nonzero)
  have lower := BitVec.two_pow_sub_clz_le_toNat_of_ne_zero (by decide) nonzero
  have upper := BitVec.toNat_lt_two_pow_sub_clz (x := value + 1)
  have size : (32 - (value + 1).clz).toNat = 32 - (value + 1).clz.toNat := by
    rw [BitVec.toNat_sub_of_le]
    · rfl
    · rw [BitVec.le_def]
      exact fewer.le
  refine ⟨31 - (value + 1).clz.toNat, ?_, by omega, by omega⟩
  rw [← next, Nat.log2_eq_iff (by omega)]
  refine ⟨lower, ?_⟩
  rwa [show 31 - (value + 1).clz.toNat + 1 = 32 - (value + 1).clz.toNat by omega]

theorem holds_writeExpGolombCodedUInt (holds : w.Holds xs) (small : value.toNat < 2 ^ 32 - 1) :
    ∃ w', writeExpGolombCodedUInt value w = .ok w' ∧
      w'.Holds (xs ++ H264.expGolomb value.toNat) := by
  obtain ⟨n, log, short, size⟩ := exists_size small
  obtain ⟨lower, upper⟩ := (Nat.log2_eq_iff (Nat.succ_ne_zero _)).1 log
  have pred : (32 - (value + 1).clz - 1).toNat = n := by
    rw [BitVec.toNat_sub_of_le, size]
    · rfl
    · rw [BitVec.le_def, size]
      exact Nat.le_add_left 1 n
  have power : (1#32 <<< (32 - (value + 1).clz - 1)).toNat = 2 ^ n := by
    rw [BitVec.shiftLeft_eq', pred, BitVec.toNat_shiftLeft, Nat.shiftLeft_eq,
      show (1#32).toNat = 1 from rfl, Nat.one_mul,
      Nat.mod_eq_of_lt (Nat.pow_lt_pow_right (by decide) short)]
  have positive := Nat.two_pow_pos n
  have suffix : (value - ((1#32 <<< (32 - (value + 1).clz - 1)) - 1)).toNat =
      value.toNat + 1 - 2 ^ n := by
    have offset : ((1#32 <<< (32 - (value + 1).clz - 1)) - 1).toNat = 2 ^ n - 1 := by
      rw [BitVec.toNat_sub_of_le, power]
      · rfl
      · rw [BitVec.le_def, power]
        exact positive
    rw [BitVec.toNat_sub_of_le, offset]
    · omega
    · rw [BitVec.le_def, offset]
      omega
  have half : 2 ^ n ≤ 2 ^ 31 := Nat.pow_le_pow_right (by decide) (by omega)
  rw [Nat.pow_succ] at upper
  obtain ⟨between, first, holds⟩ := holds_writeBits holds 1 (32 - (value + 1).clz)
    (by decide) (by omega)
  obtain ⟨w', second, holds⟩ := holds_writeBits holds
    (value - ((1#32 <<< (32 - (value + 1).clz - 1)) - 1)) (32 - (value + 1).clz - 1)
    (by omega) (by omega)
  refine ⟨w', ?_, ?_⟩
  · rw [writeExpGolombCodedUInt, first, Fallible.ok_bind, second]
  · -- A one behind zeros, and the bits below the leading one of the successor.
    have lead : bits (n + 1) 1 = List.replicate n false ++ [true] := by
      rw [bits_add n 1 1]
      rcases Nat.eq_zero_or_pos n with rfl | _
      · rfl
      · rw [show 1 / 2 ^ 1 = 0 from rfl, bits_of_zero]
        rfl
    have code : H264.expGolomb value.toNat =
        List.replicate n false ++ [true] ++ bits n (value.toNat + 1 - 2 ^ n) := by
      have one : (value.toNat + 1) / 2 ^ n = 1 := by
        rw [Nat.div_eq_iff positive]
        omega
      rw [H264.expGolomb, log, Nat.add_comm n 1, bits_add, one, ← bits_sub_two_pow lower,
        List.append_assoc]
      rfl
    rw [size, pred, suffix, show (1 : BitVec 32).toNat = 1 from rfl, lead, List.append_assoc,
      ← code] at holds
    exact holds

/-- The code number is computed without losing a bit. -/
theorem toNat_codeNum (small : |value.toInt| < 2 ^ 31) :
    (((if value.toInt < 0 then -value else value) <<< 1) -
      (if value.toInt ≤ 0 then 0 else 1 : BitVec 32)).toNat = H264.codeNum value.toInt := by
  have below := value.isLt
  have magnitude : (if value.toInt < 0 then -value else value).toNat = value.toInt.natAbs := by
    rw [abs_lt] at small
    split_ifs with negative
    · rw [BitVec.toNat_neg]
      rw [BitVec.toInt_eq_toNat_cond] at negative ⊢
      split_ifs at negative ⊢ <;> omega
    · rw [BitVec.toInt_eq_toNat_cond] at negative ⊢
      split_ifs at negative ⊢ <;> omega
  have bound : value.toInt.natAbs < 2 ^ 31 := by
    rw [abs_lt] at small
    omega
  have doubled : ((if value.toInt < 0 then -value else value) <<< 1).toNat =
      2 * value.toInt.natAbs := by
    rw [BitVec.toNat_shiftLeft, magnitude, Nat.shiftLeft_eq, Nat.mod_eq_of_lt (by omega)]
    omega
  rw [H264.codeNum]
  by_cases positive : 0 < value.toInt
  · have sign : (if value.toInt ≤ 0 then 0 else 1 : BitVec 32) = 1 := if_neg (not_le.2 positive)
    rw [if_pos positive, sign, BitVec.toNat_sub_of_le, doubled]
    · rfl
    · rw [BitVec.le_def, doubled]
      show 1 ≤ _
      omega
  · have sign : (if value.toInt ≤ 0 then 0 else 1 : BitVec 32) = 0 := if_pos (not_lt.1 positive)
    rw [if_neg positive, sign, show (0 : BitVec 32) = 0#32 from rfl, BitVec.sub_zero, doubled]

/-! ## Sequences of calls -/

theorem toInt_eq_toNat (nonnegative : 0 ≤ value.toInt) : value.toInt = value.toNat := by
  have below := value.isLt
  rw [BitVec.toInt_eq_toNat_cond] at nonnegative ⊢
  split_ifs at nonnegative ⊢ <;> omega

namespace Write

/-- The bits that a call writes. -/
def code : Write → List Bool
  | .u value valueSz => bits valueSz.toNat value.toNat
  | .bit state => [state]
  | .ue value => H264.expGolomb value.toNat
  | .se value => H264.expGolomb (H264.codeNum value.toInt)

theorem Admissible.read {write : Write} (admissible : write.Admissible) (rest : List Bool) :
    H264.read write.descriptor (write.code ++ rest) = some (write.value, rest) := by
  cases write with
  | u value valueSz =>
    obtain ⟨someBits, _, nonnegative, small⟩ := admissible
    rw [toInt_eq_toNat someBits, Int.toNat_natCast] at small
    rw [toInt_eq_toNat nonnegative] at small
    have within : value.toNat < 2 ^ valueSz.toNat := by exact_mod_cast small
    rw [descriptor, H264.read, code, readNat_append within, Option.map_some, Write.value,
      toInt_eq_toNat nonnegative]
  | bit state => cases state <;> rfl
  | ue value => rw [descriptor, H264.read, code, H264.readUe_expGolomb, Option.map_some,
      Write.value]
  | se value =>
    rw [descriptor, H264.read, code, H264.readUe_expGolomb, Option.map_some, Write.value]
    exact congrArg (fun value => some (value, rest)) (H264.signed_codeNum value.toInt)

end Write

theorem holds_write (holds : w.Holds xs) {write : Write} (admissible : write.Admissible) :
    ∃ w', H264BitWriter.write w write = .ok w' ∧ w'.Holds (xs ++ write.code) := by
  cases write with
  | u value valueSz =>
    obtain ⟨someBits, few, nonnegative, _⟩ := admissible
    have count := toInt_eq_toNat someBits
    have number := toInt_eq_toNat nonnegative
    have top := BitVec.toInt_lt (x := value)
    exact holds_writeBits holds _ _ (by omega) (by omega)
  | bit state => exact holds_writeBit holds state
  | ue value => exact holds_writeExpGolombCodedUInt holds admissible
  | se value =>
    have code := toNat_codeNum admissible
    have bound : H264.codeNum value.toInt < 2 ^ 32 - 1 := by
      have small : |value.toInt| < 2 ^ 31 := admissible
      rw [abs_lt] at small
      unfold H264.codeNum
      split_ifs <;> omega
    rw [← code] at bound
    have written := holds_writeExpGolombCodedUInt holds bound
    rwa [code] at written

theorem holds_foldlM (holds : w.Holds xs) {writes : List Write}
    (admissible : ∀ write ∈ writes, write.Admissible) :
    ∃ w', writes.foldlM write w = .ok w' ∧ w'.Holds (xs ++ writes.flatMap Write.code) := by
  induction writes generalizing w xs with
  | nil => exact ⟨w, rfl, by rwa [List.flatMap_nil, List.append_nil]⟩
  | cons write writes ih =>
    obtain ⟨between, first, holds⟩ := holds_write holds (admissible write List.mem_cons_self)
    obtain ⟨w', others, holds⟩ := ih holds fun other member =>
      admissible other (List.mem_cons_of_mem _ member)
    refine ⟨w', ?_, ?_⟩
    · rw [List.foldlM_cons, first, Fallible.ok_bind, others]
    · rwa [List.append_assoc, ← List.flatMap_cons] at holds

/-- The bytes that a sequence of calls leaves are read back as the values it has been given, and
behind them stand a one and zeros up to the border of a byte. -/
theorem compose_reads_back (writes : List Write) (admissible : ∀ write ∈ writes, write.Admissible) :
    ∃ bytes, compose writes = .ok bytes ∧ ∃ k < 8,
      readAll H264.read (writes.map Write.descriptor) (bytesBits bytes) =
        some (writes.map Write.value, true :: List.replicate k false) := by
  obtain ⟨w, ran, holds⟩ := holds_foldlM holds_new admissible
  obtain ⟨w', stopped, holds⟩ := holds_writeBit holds true
  obtain ⟨k, short, bytes, _, _⟩ := holds.flush
  refine ⟨w'.flush.byteArray, ?_, k, short, ?_⟩
  · rw [compose, ran, Fallible.ok_bind, endStream, stopped]
    rfl
  · rw [bytes, List.nil_append, List.append_assoc]
    exact readAll_flatMap (fun write member => (admissible write member).read) _

/-- The least and the largest values of each kind. -/
theorem compose_reads_back_limits :
    ∃ bytes, compose [.u 0x7fffffff 31, .bit true, .ue 0xfffffffe, .se 0x7fffffff, .se 0x80000001,
        .ue 0, .se 0x40000000] = .ok bytes ∧ ∃ k < 8,
      readAll H264.read [.u 31, .u 1, .ue, .se, .se, .ue, .se] (bytesBits bytes) =
        some ([0x7fffffff, 1, 0xfffffffe, 0x7fffffff, -0x7fffffff, 0, 0x40000000],
          true :: List.replicate k false) :=
  compose_reads_back [.u 0x7fffffff 31, .bit true, .ue 0xfffffffe, .se 0x7fffffff, .se 0x80000001,
    .ue 0, .se 0x40000000] (by decide)

end H264BitWriter

end SumiEmu.VideoCore
