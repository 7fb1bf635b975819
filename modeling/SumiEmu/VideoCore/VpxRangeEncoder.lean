/-
# The range encoder of VP9 headers

A bit narrows the range, and the low end of the range is put out byte by byte when enough of
it has been shifted out. A carry out of the low end goes backwards through the bytes that
have been put out. The decoder is the one of the format: it starts with the first byte, and
takes further bits while its range is small.
-/

import Mathlib.Data.BitVec
import Mathlib.Data.List.GetD
import SumiEmu.Common.Stream
import SumiEmu.Foundations.IntervalCoding

namespace SumiEmu.VideoCore

open Common List

/-- How often a range has to be doubled to reach its upper half. -/
def normLut : List Nat :=
  [0, 7, 6, 6] ++ replicate 4 5 ++ replicate 8 4 ++ replicate 16 3 ++ replicate 32 2 ++
    replicate 64 1 ++ replicate 128 0

/-- `VpxRangeEncoder`. -/
structure VpxRangeEncoder where
  baseStream : Stream := {}
  lowValue : BitVec 32 := 0
  range : BitVec 32 := 0xff
  count : Int := -24
  deriving DecidableEq

namespace VpxRangeEncoder

def halfProbability : Nat := 128

/-- A byte is read, and the position goes back to it. -/
def peekByte (s : Stream) : Except StreamFault (BitVec 8 × Stream) := do
  let (value, s) ← s.readByte
  return (value, s.seek (-1) .fromCurrentPos)

/-- The loop of the carry over bytes of ones, with a bound on its rounds. -/
def carryOnes : Nat → Stream → Except StreamFault Stream
  | 0, _ => .error .endless
  | rounds + 1, s => do
    let (value, s) ← peekByte s
    if value = 0xff then carryOnes rounds ((s.writeByte 0).seek (-2) .fromCurrentPos) else return s

/-- A carry is added to the bytes that have been put out. -/
def carry (s : Stream) : Except StreamFault Stream := do
  let currentPos := s.position
  let s ← carryOnes (currentPos + 1) (s.seek (-1) .fromCurrentPos)
  let (value, s) ← peekByte s
  return (s.writeByte (value + 1)).seek currentPos .setOrigin

variable (e : VpxRangeEncoder)

/-- The low end and the range of the part that stands for a bit. -/
def part (bit : Bool) (probability : Nat) : BitVec 32 × BitVec 32 :=
  let split := 1 + (((e.range - 1) * BitVec.ofNat 32 probability) >>> 8)
  if bit then (e.lowValue + split, e.range - split) else (e.lowValue, split)

/-- Enough has been shifted out for a byte, and more than a byte is there. -/
def Carries (bit : Bool) (probability : Nat) : Prop :=
  0 ≤ e.count + normLut.getD (e.part bit probability).2.toNat 0 ∧
    ((e.part bit probability).1 <<< ((-e.count).toNat - 1)) >>> 31 ≠ 0

instance decidableCarries (bit : Bool) (probability : Nat) :
    Decidable (e.Carries bit probability) :=
  inferInstanceAs (Decidable (_ ∧ _))

/-- `Write` of a bit. -/
def write (bit : Bool) (probability : Nat) : Except StreamFault VpxRangeEncoder := do
  let (low, localRange) := e.part bit probability
  let shift := normLut.getD localRange.toNat 0
  let range := localRange <<< shift
  let count := e.count + shift
  if 0 ≤ count then
    let offset := (shift - count).toNat
    let baseStream ← if (low <<< (offset - 1)) >>> 31 ≠ 0 then carry e.baseStream
      else .ok e.baseStream
    let baseStream := baseStream.writeByte ((low >>> (24 - offset)).setWidth 8)
    let low := (low <<< offset) &&& 0xffffff
    return { baseStream, lowValue := low <<< count.toNat, range, count := count - 8 }
  else return { e with lowValue := low <<< shift, range, count }

/-- Bits with their probabilities, one after the other. -/
def writeAll (writes : List (Bool × Nat)) : Except StreamFault VpxRangeEncoder :=
  writes.foldlM (fun e w => e.write w.1 w.2) e

/-- No carry leaves the low value while bits are written. -/
def carryFree (e : VpxRangeEncoder) : List (Bool × Nat) → Bool
  | [] => true
  | w :: writes => !e.Carries w.1 w.2 &&
    match e.write w.1 w.2 with
    | .ok e' => carryFree e' writes
    | .error _ => false

/-- What the constructor and the end of the stream write around the bits. -/
def framed (writes : List (Bool × Nat)) : List (Bool × Nat) :=
  (false, halfProbability) :: writes ++ replicate 32 (false, halfProbability)

/-- The bytes of an encoder that is made, written to and ended. -/
def encode (writes : List (Bool × Nat)) : Except StreamFault (List (BitVec 8)) :=
  return (← writeAll {} (framed writes)).baseStream.buffer

end VpxRangeEncoder

/-! ## The decoder -/

/-- The decoder of the specification. -/
structure BoolDecoder where
  value : Nat
  range : Nat
  bits : List Nat
  deriving DecidableEq

namespace BoolDecoder

/-- The bits of a byte, the highest one first. -/
def byteBits (byte : BitVec 8) : List Nat := (finRange 8).map fun i => (byte.getMsb i).toNat

/-- The decoder before a stream. -/
def start : List (BitVec 8) → Option BoolDecoder
  | [] => none
  | byte :: bytes => some ⟨byte.toNat, 255, bytes.flatMap byteBits⟩

/-- Bits are taken while the range lies in its lower half: at most seven of them. -/
def renormalise : Nat → BoolDecoder → Option BoolDecoder
  | 0, d => some d
  | rounds + 1, d =>
    if d.range < 128 then
      match d.bits with
      | [] => none
      | b :: bits => renormalise rounds ⟨2 * d.value + b, 2 * d.range, bits⟩
    else some d

/-- A bit is decoded. -/
def read (d : BoolDecoder) (probability : Nat) : Option (Bool × BoolDecoder) :=
  let split := 1 + ((d.range - 1) * probability) >>> 8
  if d.value < split then (renormalise 7 { d with range := split }).map (false, ·)
  else (renormalise 7 { d with value := d.value - split, range := d.range - split }).map (true, ·)

/-- Several bits are decoded. -/
def readAll (d : BoolDecoder) : List Nat → Option (List Bool)
  | [] => some []
  | probability :: probabilities => do
    let (bit, d) ← d.read probability
    let rest ← d.readAll probabilities
    return bit :: rest

end BoolDecoder

end SumiEmu.VideoCore

/-!
## The decoder inverts the range encoder

The bytes that have been put out and the low value are together the low end of the interval
that the bits stand for. While no carry leaves the low value, the bytes are only appended to,
and with the zeros at the end they hold all of the low end, from which the decoder finds the
bits. The first carry ends the encoding, since the stream cannot be sought back from its end.
-/

namespace SumiEmu.VideoCore

open Common Fallible IntervalCoding List Nat

/-! ## Splitting the range -/

/-- The probabilities of the format. -/
abbrev Probability : Type := { p : Nat // 1 ≤ p ∧ p ≤ 255 }

theorem normLut_spec : ∀ range < 256, 0 < range →
    128 ≤ range * 2 ^ normLut.getD range 0 ∧ range * 2 ^ normLut.getD range 0 < 256 := by
  have entries : ∀ entry ∈ normLut.zipIdx, 0 < entry.2 →
      128 ≤ entry.2 * 2 ^ entry.1 ∧ entry.2 * 2 ^ entry.1 < 256 := by decide +kernel
  have length : normLut.length = 256 := by decide +kernel
  intro range small
  have there := getElem?_eq_getElem (length ▸ small)
  rw [getD_eq_getElem?_getD, there]
  exact entries _ (mk_mem_zipIdx_iff_getElem?.mpr there)

theorem normLut_le (range : Nat) : normLut.getD range 0 ≤ 7 := by
  rcases lt_or_ge range normLut.length with inside | outside
  · rw [getD_eq_getElem _ _ inside]
    exact (show ∀ n ∈ normLut, n ≤ 7 by decide +kernel) _ (getElem_mem inside)
  · rw [getD_eq_default _ _ outside]
    exact zero_le _

/-- A range in its upper half is split in two that are not empty. -/
theorem split_between {range : Nat} (p : Probability) (proper : 128 ≤ range ∧ range < 256) :
    0 < 1 + ((range - 1) * p.1) >>> 8 ∧ 1 + ((range - 1) * p.1) >>> 8 < range := by
  have scaled : (range - 1) * p.1 ≤ (range - 1) * 255 := mul_le_mul_left _ p.2.2
  rw [shiftRight_eq_div_pow]
  omega

/-- The splitting of the format. -/
def vpxSplitting : Splitting Probability where
  split range p := 1 + ((range - 1) * p.1) >>> 8
  shift range := normLut.getD range 0
  proper range := 128 ≤ range ∧ range < 256
  split_le p proper := (split_between p proper).2.le
  proper_low p proper := by
    obtain ⟨positive, small⟩ := split_between p proper
    exact normLut_spec _ (small.trans proper.2) positive
  proper_high {range} p proper := by
    obtain ⟨positive, small⟩ := split_between p proper
    exact normLut_spec _ ((Nat.sub_le ..).trans_lt proper.2) (Nat.sub_pos_of_lt small)

namespace BoolDecoder

/-- The loop takes as many bits as the range has to be doubled. -/
theorem renormalise_eq (n : Nat) : ∀ {rounds value range : Nat} {bits : List Nat}, n ≤ rounds →
    128 ≤ range * 2 ^ n → (∀ m < n, range * 2 ^ m < 128) →
    renormalise rounds ⟨value, range, bits⟩ =
      (refill n value bits).map fun (value, bits) => ⟨value, range * 2 ^ n, bits⟩ := by
  induction n with
  | zero =>
    intro rounds value range bits _ large _
    rw [pow_zero, mul_one] at large ⊢
    cases rounds with
    | zero => rfl
    | succ rounds =>
      rw [renormalise, if_neg (not_lt.mpr large)]
      rfl
  | succ n ih =>
    intro rounds value range bits enough large small
    obtain ⟨rounds, rfl⟩ : ∃ k, rounds = k + 1 := ⟨rounds - 1, by omega⟩
    have first := small 0 (succ_pos n)
    rw [pow_zero, mul_one] at first
    rw [renormalise, if_pos first]
    cases bits with
    | nil => rfl
    | cons b bits =>
      have doubled : ∀ m, 2 * range * 2 ^ m = range * 2 ^ (m + 1) := by
        intro m
        rw [pow_succ]
        ring
      rw [refill]
      dsimp only
      rw [ih (le_of_succ_le_succ enough) (by rwa [doubled]) fun m below => by
        rw [doubled]
        exact small (m + 1) (succ_lt_succ below), doubled]

theorem renormalise_range {range : Nat} (positive : 0 < range) (small : range < 256) (value : Nat)
    (bits : List Nat) :
    renormalise 7 ⟨value, range, bits⟩ =
      (refill (normLut.getD range 0) value bits).map fun (value, bits) =>
      ⟨value, range * 2 ^ normLut.getD range 0, bits⟩ := by
  obtain ⟨large, fits⟩ := normLut_spec range small positive
  refine renormalise_eq _ (normLut_le range) large fun m below => ?_
  have doubled : range * 2 ^ (m + 1) ≤ range * 2 ^ normLut.getD range 0 :=
    Nat.mul_le_mul_left _ (Nat.pow_le_pow_right (by decide) below)
  rw [pow_succ, ← mul_assoc] at doubled
  omega

theorem read_eq {d : BoolDecoder} (p : Probability) (proper : vpxSplitting.proper d.range) :
    d.read p = (vpxSplitting.decodeBit d.value d.range d.bits p).map
      fun (bit, value, range, bits) =>
      (bit, ⟨value, range, bits⟩) := by
  obtain ⟨positive, less⟩ := split_between p proper
  unfold read Splitting.decodeBit
  change (if d.value < vpxSplitting.split d.range p then _ else _) = _
  split
  case isTrue low =>
    rw [renormalise_range positive (less.trans proper.2)]
    simp only [if_pos low, Option.map_map]
    rfl
  case isFalse high =>
    rw [renormalise_range (Nat.sub_pos_of_lt less) ((Nat.sub_le ..).trans_lt proper.2)]
    simp only [if_neg high, Option.map_map]
    rfl

theorem readAll_eq (ps : List Probability) : ∀ {d : BoolDecoder}, vpxSplitting.proper d.range →
    d.readAll (ps.map (·.1)) = vpxSplitting.decodeAll d.value d.range d.bits ps := by
  induction ps with
  | nil => exact fun _ => rfl
  | cons p ps ih =>
    intro d proper
    rw [map_cons, readAll, Splitting.decodeAll, read_eq p proper]
    cases decoded : vpxSplitting.decodeBit d.value d.range d.bits p with
    | none => rfl
    | some found =>
      obtain ⟨bit, value, range, bits⟩ := found
      have rest := ih (d := ⟨value, range, bits⟩) (Splitting.proper_decodeBit proper decoded)
      simp only [Option.map_some, Option.bind_eq_bind, Option.bind_some, rest]

end BoolDecoder

/-! ## What the encoder stands for -/

namespace VpxRangeEncoder

/-- The number of the bytes that have been put out. -/
def bytesValue (e : VpxRangeEncoder) : Nat :=
  BigEndian.value 256 (e.baseStream.buffer.map BitVec.toNat)

/-- The interval that the encoder stands for, of which some low bits are not put out yet. -/
structure Encodes (e : VpxRangeEncoder) (i : Interval) (unwritten : Nat) : Prop where
  atEnd : e.baseStream.AtEnd
  range : e.range.toNat = i.range
  proper : vpxSplitting.proper i.range
  count : e.count = unwritten - 32
  few : unwritten < 32
  many : 24 ≤ unwritten ∨ e.baseStream.buffer = [] ∧ 8 ≤ unwritten
  scale : i.scale + 8 = 8 * e.baseStream.buffer.length + unwritten
  low : i.low = e.bytesValue * 2 ^ unwritten + e.lowValue.toNat
  bound : e.lowValue.toNat + i.range ≤ 3 * 2 ^ (unwritten - 1)

theorem encodes_start : Encodes {} ⟨0, 255, 0⟩ 8 where
  atEnd := rfl
  range := rfl
  proper := ⟨by decide, by decide⟩
  count := rfl
  few := by decide
  many := .inr ⟨rfl, by decide⟩
  scale := rfl
  low := rfl
  bound := by decide

variable {e e' : VpxRangeEncoder} {i : Interval} {unwritten : Nat}

/-- The part of a bit is computed without wrapping, and at most one carry is on top of the low
value. -/
theorem Encodes.part (encodes : Encodes e i unwritten) (bit : Bool) (p : Probability) :
    (e.part bit p).2.toNat = (vpxSplitting.part i (bit, p)).2 ∧
      (vpxSplitting.part i (bit, p)).1 = e.bytesValue * 2 ^ unwritten + (e.part bit p).1.toNat ∧
      (e.part bit p).1.toNat + (vpxSplitting.part i (bit, p)).2 ≤ 3 * 2 ^ (unwritten - 1) := by
  have less := (split_between p encodes.proper).2
  have range := encodes.range
  have small := encodes.proper.2
  have large := encodes.proper.1
  have product : (i.range - 1) * p.1 ≤ 255 * 255 := Nat.mul_le_mul (by omega) p.2.2
  have one : (e.range - 1#32).toNat = i.range - 1 := by
    rw [BitVec.toNat_sub_of_le (by rw [BitVec.le_def, range]; exact (show 1 ≤ i.range by omega)),
      range]
    rfl
  have split : (e.part false p).2.toNat = 1 + ((i.range - 1) * p.1) >>> 8 := by
    have probability : (BitVec.ofNat 32 p.1).toNat = p.1 := by
      rw [BitVec.toNat_ofNat]
      exact mod_eq_of_lt (p.2.2.trans_lt (by decide))
    change (1#32 + (((e.range - 1#32) * BitVec.ofNat 32 p.1) >>> 8)).toNat = _
    have unit : (1#32).toNat = 1 := rfl
    rw [BitVec.toNat_add, BitVec.toNat_ushiftRight, BitVec.toNat_mul, one, probability, unit,
      mod_eq_of_lt (show (i.range - 1) * p.1 < 2 ^ 32 by omega), mod_eq_of_lt (by omega)]
  have bound := encodes.bound
  have power : 2 ^ (unwritten - 1) ≤ 2 ^ 30 :=
    Nat.pow_le_pow_right (by decide) (by have := encodes.few; omega)
  cases bit with
  | false =>
    change _ ∧ i.low = _ + e.lowValue.toNat ∧
      e.lowValue.toNat + (1 + ((i.range - 1) * p.1) >>> 8) ≤ _
    exact ⟨split, encodes.low, by omega⟩
  | true =>
    have low : (e.lowValue + (e.part false p).2).toNat =
        e.lowValue.toNat + (1 + ((i.range - 1) * p.1) >>> 8) := by
      rw [BitVec.toNat_add, split, mod_eq_of_lt (by omega)]
    change (e.range - (e.part false p).2).toNat = i.range - (1 + ((i.range - 1) * p.1) >>> 8) ∧
      i.low + (1 + ((i.range - 1) * p.1) >>> 8) = _ + (e.lowValue + (e.part false p).2).toNat ∧
      (e.lowValue + (e.part false p).2).toNat + (i.range - (1 + ((i.range - 1) * p.1) >>> 8)) ≤ _
    refine ⟨?_, ?_, ?_⟩
    · rw [BitVec.toNat_sub_of_le (by rw [BitVec.le_def, split, range]; exact less.le), split, range]
    · rw [low, encodes.low, add_assoc]
    · rw [low]
      omega

theorem toNat_shiftLeft {x : BitVec 32} {n : Nat} (fits : x.toNat * 2 ^ n < 2 ^ 32) :
    (x <<< n).toNat = x.toNat * 2 ^ n := by
  rw [BitVec.toNat_shiftLeft, shiftLeft_eq, mod_eq_of_lt fits]

/-- While too little has been shifted out nothing is put out. -/
theorem Encodes.write_short (encodes : Encodes e i unwritten) (bit : Bool) (p : Probability)
    (short : unwritten + vpxSplitting.shift (vpxSplitting.part i (bit, p)).2 < 32) :
    ∃ e', e.write bit p = .ok e' ∧
      Encodes e' (vpxSplitting.encode i (bit, p))
      (unwritten + vpxSplitting.shift (vpxSplitting.part i (bit, p)).2) ∧ e'.lowValue.toNat =
      (e.part bit p).1.toNat * 2 ^ vpxSplitting.shift (vpxSplitting.part i (bit, p)).2 := by
  obtain ⟨range, low, bound⟩ := encodes.part bit p
  have proper := Splitting.proper_encode encodes.proper (w := (bit, p))
  have count := encodes.count
  have positive : 8 ≤ unwritten := encodes.many.elim (by omega) (·.2)
  have upper : (e.part bit p).1.toNat * 2 ^ vpxSplitting.shift (vpxSplitting.part i (bit, p)).2 +
      (vpxSplitting.encode i (bit, p)).range ≤
      3 * 2 ^ (unwritten + vpxSplitting.shift (vpxSplitting.part i (bit, p)).2 - 1) := by
    have scaled := mul_le_mul_right (2 ^ vpxSplitting.shift (vpxSplitting.part i (bit, p)).2) bound
    rw [add_mul, mul_assoc, ← pow_add] at scaled
    rwa [Nat.sub_add_comm (by omega)]
  have power : 2 ^ (unwritten + vpxSplitting.shift (vpxSplitting.part i (bit, p)).2 - 1) ≤ 2 ^ 30 :=
    Nat.pow_le_pow_right (by decide) (by omega)
  have lowShifted := toNat_shiftLeft
    (show (e.part bit p).1.toNat * 2 ^ vpxSplitting.shift (vpxSplitting.part i (bit, p)).2 <
    2 ^ 32 by omega)
  have rangeShifted : ((e.part bit p).2 <<< vpxSplitting.shift
    (vpxSplitting.part i (bit, p)).2).toNat = (vpxSplitting.encode i (bit, p)).range := by
    rw [toNat_shiftLeft, range]
    · rfl
    · rw [range]
      exact proper.2.trans (by decide)
  refine ⟨{ e with
    lowValue := (e.part bit p).1 <<< vpxSplitting.shift (vpxSplitting.part i (bit, p)).2
    range := (e.part bit p).2 <<< vpxSplitting.shift (vpxSplitting.part i (bit, p)).2
    count := e.count + vpxSplitting.shift (vpxSplitting.part i (bit, p)).2 }, ?_, ?_, lowShifted⟩
  · unfold VpxRangeEncoder.write
    generalize e.part bit p = found at *
    obtain ⟨low', range'⟩ := found
    dsimp only at range ⊢
    rw [range, if_neg]
    · rfl
    · change ¬ 0 ≤ e.count + (vpxSplitting.shift (vpxSplitting.part i (bit, p)).2 : Int)
      omega
  · refine ⟨encodes.atEnd, rangeShifted, proper, ?_, short, ?_, ?_, ?_, ?_⟩
    · rw [count]
      push_cast
      ring
    · rcases encodes.many with many | ⟨empty, few⟩
      · exact .inl (by omega)
      · exact .inr ⟨empty, by omega⟩
    · have scale := encodes.scale
      rw [Splitting.scale_encode]
      change _ = 8 * e.baseStream.buffer.length + _
      omega
    · rw [lowShifted]
      change (vpxSplitting.part i (bit, p)).1 *
        2 ^ vpxSplitting.shift (vpxSplitting.part i (bit, p)).2 = e.bytesValue * _ + _
      rw [low, pow_add]
      ring
    · rw [lowShifted]
      exact upper

/-- The bit above the window is the carry. -/
theorem carries_iff (encodes : Encodes e i unwritten) (bit : Bool) (p : Probability)
    (full : 32 ≤ unwritten + vpxSplitting.shift (vpxSplitting.part i (bit, p)).2) :
    e.Carries bit p ↔ 2 ^ unwritten ≤ (e.part bit p).1.toNat := by
  obtain ⟨range, -, bound⟩ := encodes.part bit p
  have count := encodes.count
  have few := encodes.few
  have positive : 8 ≤ unwritten := encodes.many.elim (by omega) (·.2)
  have reaches : 0 ≤ e.count + normLut.getD (e.part bit p).2.toNat 0 := by
    rw [range]
    change 0 ≤ e.count + (vpxSplitting.shift (vpxSplitting.part i (bit, p)).2 : Int)
    omega
  have offset : (-e.count).toNat - 1 = 31 - unwritten := by omega
  have window : 2 ^ 31 = 2 ^ unwritten * 2 ^ (31 - unwritten) := by
    rw [← pow_add]
    congr 1
    omega
  have double : 3 * 2 ^ (unwritten - 1) * 2 ^ (31 - unwritten) = 3 * 2 ^ 30 := by
    rw [mul_assoc, ← pow_add]
    congr 2
    omega
  have fits : (e.part bit p).1.toNat * 2 ^ (31 - unwritten) < 2 ^ 32 := by
    have scaled := mul_le_mul_right (2 ^ (31 - unwritten)) ((le_add_right _ _).trans bound)
    omega
  rw [Carries, and_iff_right reaches, offset, ne_eq, ← BitVec.toNat_inj, BitVec.toNat_ushiftRight,
    toNat_shiftLeft fits, Nat.shiftRight_eq_div_pow, window,
    Nat.mul_div_mul_right _ _ (Nat.two_pow_pos _)]
  change ¬ _ = 0 ↔ _
  rw [Nat.div_eq_zero_iff_lt (Nat.two_pow_pos _), Nat.not_lt]

/-- What stays in the low value when a byte has been taken from its upper end. -/
theorem toNat_kept {x : BitVec 32} {k : Nat} (large : 8 ≤ k) (few : k ≤ 32) :
    ((x <<< (32 - k)) &&& 0xffffff).toNat = x.toNat % 2 ^ (k - 8) * 2 ^ (32 - k) := by
  have mask : (0xffffff : BitVec 32).toNat = 2 ^ 24 - 1 := rfl
  have width : 2 ^ 24 = 2 ^ (k - 8) * 2 ^ (32 - k) := by
    rw [← pow_add]
    congr 1
    omega
  rw [BitVec.toNat_and, BitVec.toNat_shiftLeft, shiftLeft_eq, mask, and_two_pow_sub_one_eq_mod,
    mod_mod_of_dvd _ (pow_dvd_pow 2 (by decide)), width, mul_mod_mul_right]

/-- Without a carry the upper bits of the low value are put out as a byte. -/
theorem Encodes.write_full (encodes : Encodes e i unwritten) (bit : Bool) (p : Probability)
    (full : 32 ≤ unwritten + vpxSplitting.shift (vpxSplitting.part i (bit, p)).2)
    (carryFree : ¬ e.Carries bit p) : ∃ e', e.write bit p = .ok e' ∧
      Encodes e' (vpxSplitting.encode i (bit, p))
      (unwritten + vpxSplitting.shift (vpxSplitting.part i (bit, p)).2 - 8) ∧ e'.lowValue.toNat <
      2 ^ (unwritten + vpxSplitting.shift (vpxSplitting.part i (bit, p)).2 - 8) := by
  obtain ⟨range, low, -⟩ := encodes.part bit p
  have proper := Splitting.proper_encode encodes.proper (w := (bit, p))
  have count := encodes.count
  have few := encodes.few
  have positive : 8 ≤ unwritten := encodes.many.elim (by omega) (·.2)
  have window := Nat.lt_of_not_le ((carries_iff encodes bit p full).not.mp carryFree)
  have reaches : 0 ≤ e.count + normLut.getD (e.part bit p).2.toNat 0 := by
    rw [range]
    change 0 ≤ e.count + (vpxSplitting.shift (vpxSplitting.part i (bit, p)).2 : Int)
    omega
  have noCarry : ¬ ((e.part bit p).1 <<< ((-e.count).toNat - 1)) >>> 31 ≠ 0 :=
    fun carries => carryFree ⟨reaches, carries⟩
  have rangeShifted : ((e.part bit p).2 <<< vpxSplitting.shift
    (vpxSplitting.part i (bit, p)).2).toNat = (vpxSplitting.encode i (bit, p)).range := by
    rw [toNat_shiftLeft, range]
    · rfl
    · rw [range]
      exact proper.2.trans (by decide)
  obtain ⟨s, shift⟩ : ∃ s, s = vpxSplitting.shift (vpxSplitting.part i (bit, p)).2 := ⟨_, rfl⟩
  rw [← shift] at full rangeShifted ⊢
  have offset : ((s : Int) - (e.count + s)).toNat = 32 - unwritten := by omega
  have back : 24 - (32 - unwritten) = unwritten - 8 := by omega
  have rest : (e.count + s).toNat = unwritten + s - 32 := by omega
  have split : 2 ^ (unwritten - 8) * 2 ^ s = 2 ^ (unwritten + s - 8) := by
    rw [← pow_add]
    congr 1
    omega
  have keptLess : (e.part bit p).1.toNat % 2 ^ (unwritten - 8) * 2 ^ s <
      2 ^ (unwritten + s - 8) := by
    rw [← split]
    exact Nat.mul_lt_mul_of_pos_right (Nat.mod_lt _ (Nat.two_pow_pos _)) (Nat.two_pow_pos s)
  have small : s ≤ 7 := shift ▸ normLut_le _
  have kept : ((((e.part bit p).1 <<< (32 - unwritten)) &&& 0xffffff) <<<
    (unwritten + s - 32)).toNat = (e.part bit p).1.toNat % 2 ^ (unwritten - 8) * 2 ^ s := by
    have total : 2 ^ (32 - unwritten) * 2 ^ (unwritten + s - 32) = 2 ^ s := by
      rw [← pow_add]
      congr 1
      omega
    have power : 2 ^ (unwritten + s - 8) ≤ 2 ^ 31 := Nat.pow_le_pow_right (by decide) (by omega)
    rw [toNat_shiftLeft, toNat_kept positive few.le, mul_assoc, total]
    rw [toNat_kept positive few.le, mul_assoc, total]
    omega
  have byte : (((e.part bit p).1 >>> (unwritten - 8)).setWidth 8).toNat =
      (e.part bit p).1.toNat / 2 ^ (unwritten - 8) := by
    have width : 2 ^ unwritten = 2 ^ 8 * 2 ^ (unwritten - 8) := by
      rw [← pow_add]
      congr 1
      omega
    rw [BitVec.toNat_setWidth, BitVec.toNat_ushiftRight, shiftRight_eq_div_pow, mod_eq_of_lt]
    exact Nat.div_lt_of_lt_mul (by rwa [Nat.mul_comm, ← width])
  refine ⟨⟨e.baseStream.writeByte (((e.part bit p).1 >>> (unwritten - 8)).setWidth 8),
    (((e.part bit p).1 <<< (32 - unwritten)) &&& 0xffffff) <<< (unwritten + s - 32),
    (e.part bit p).2 <<< s, e.count + s - 8⟩, ?_, ?_, ?_⟩
  · have shifted : normLut.getD (e.part bit p).2.toNat 0 = s := by
      rw [range, shift]
      rfl
    rw [shifted] at reaches
    unfold VpxRangeEncoder.write
    generalize e.part bit p = found at *
    obtain ⟨low', range'⟩ := found
    dsimp only at shifted noCarry ⊢
    have offset' : 32 - unwritten - 1 = (-e.count).toNat - 1 := by omega
    rw [shifted, if_pos reaches, offset, offset', if_neg noCarry, back, rest]
    rfl
  · refine ⟨(encodes.atEnd.writeByte _).1, rangeShifted, proper,
      ?_, by omega, .inl (by omega), ?_, ?_, ?_⟩
    · change e.count + s - 8 = _
      omega
    · have scale := encodes.scale
      rw [Splitting.scale_encode, ← shift, (encodes.atEnd.writeByte _).2, length_append,
        length_singleton]
      omega
    · change (vpxSplitting.part i (bit, p)).1 *
        2 ^ vpxSplitting.shift (vpxSplitting.part i (bit, p)).2 = _
      rw [← shift, kept, low]
      change _ = BigEndian.value 256 (map BitVec.toNat (e.baseStream.writeByte _).buffer) * _ + _
      rw [(encodes.atEnd.writeByte _).2, map_append, map_singleton, BigEndian.value_concat, byte,
        ← split]
      have width : 2 ^ unwritten = 256 * 2 ^ (unwritten - 8) := by
        rw [show 256 = 2 ^ 8 from rfl, ← pow_add]
        congr 1
        omega
      conv_lhs => rw [← div_add_mod (e.part bit p).1.toNat (2 ^ (unwritten - 8)), width]
      unfold bytesValue
      ring
    · rw [kept]
      have fits := proper.2
      have power : 2 ^ 23 ≤ 2 ^ (unwritten + s - 8 - 1) :=
        Nat.pow_le_pow_right (by decide) (by omega)
      have double : 2 ^ (unwritten + s - 8) = 2 * 2 ^ (unwritten + s - 8 - 1) := by
        rw [← pow_succ']
        congr 1
        omega
      omega
  · rw [kept]
    exact keptLess

/-- A carry cannot go back from the end of the stream. -/
theorem carry_eq {s : Stream} (atEnd : s.AtEnd) : carry s = .error .outOfRange := by
  unfold carry carryOnes peekByte
  rw [atEnd.seek_back, atEnd.readByte]
  rfl

theorem Encodes.write_carries (encodes : Encodes e i unwritten) (bit : Bool) (p : Probability)
    (carries : e.Carries bit p) : e.write bit p = .error .outOfRange := by
  obtain ⟨reaches, high⟩ := carries
  unfold VpxRangeEncoder.write
  generalize e.part bit p = found at *
  obtain ⟨low', range'⟩ := found
  dsimp only at reaches high ⊢
  have offset : ((normLut.getD range'.toNat 0 : Int) -
      (e.count + normLut.getD range'.toNat 0)).toNat = (-e.count).toNat := by
    omega
  rw [if_pos reaches, offset, if_pos high, carry_eq encodes.atEnd]
  rfl

/-- A write without a carry goes on to the part of its bit. -/
theorem Encodes.write (encodes : Encodes e i unwritten) (w : Bool × Probability)
    (carryFree : ¬ e.Carries w.1 w.2) :
    ∃ e' unwritten', e.write w.1 w.2 = .ok e' ∧
      Encodes e' (vpxSplitting.encode i w) unwritten' := by
  obtain ⟨bit, p⟩ := w
  rcases lt_or_ge (unwritten + vpxSplitting.shift (vpxSplitting.part i (bit, p)).2) 32
    with short | full
  · obtain ⟨e', written, encodes', -⟩ := encodes.write_short bit p short
    exact ⟨e', _, written, encodes'⟩
  · obtain ⟨e', written, encodes', -⟩ := encodes.write_full bit p full carryFree
    exact ⟨e', _, written, encodes'⟩

/-- The writes as the encoder takes them. -/
def plain (w : Bool × Probability) : Bool × Nat := (w.1, w.2.1)

theorem writeAll_cons (w : Bool × Nat) (ws : List (Bool × Nat)) :
    e.writeAll (w :: ws) = e.write w.1 w.2 >>= fun e' => e'.writeAll ws := foldlM_cons ..

theorem carryFree_cons (w : Bool × Nat) (ws : List (Bool × Nat)) :
    e.carryFree (w :: ws) = true ↔ ¬ e.Carries w.1 w.2 ∧ ∃ e', e.write w.1 w.2 = .ok e' ∧
      e'.carryFree ws = true := by
  rw [carryFree, Bool.and_eq_true, Bool.not_eq_true', decide_eq_false_iff_not]
  cases written : e.write w.1 w.2 with
  | error fault => simp
  | ok e' => simp

/-- Without a carry the encoder stands for the interval of all bits. -/
theorem Encodes.writeAll (ws : List (Bool × Probability)) :
    ∀ {e : VpxRangeEncoder} {i : Interval} {unwritten : Nat},
    Encodes e i unwritten → e.carryFree (ws.map plain) = true →
    ∃ e' unwritten', e.writeAll (ws.map plain) = .ok e' ∧
    Encodes e' (vpxSplitting.encodeAll i ws) unwritten' := by
  induction ws with
  | nil => exact fun encodes _ => ⟨_, _, rfl, encodes⟩
  | cons w ws ih =>
    intro e i unwritten encodes carryFree
    rw [map_cons, carryFree_cons] at carryFree
    obtain ⟨free, e₁, written, rest⟩ := carryFree
    obtain ⟨e₁', unwritten₁, written', encodes₁⟩ := encodes.write w free
    obtain rfl := Except.ok.inj (written.symm.trans written')
    obtain ⟨e', unwritten', ran, encodes'⟩ := ih encodes₁ rest
    refine ⟨e', unwritten', ?_, encodes'⟩
    rw [map_cons, writeAll_cons, show e.write (plain w).1 (plain w).2 = .ok e₁ from written,
      ok_bind]
    exact ran

/-- The first carry ends the encoding. -/
theorem Encodes.writeAll_error (ws : List (Bool × Probability)) :
    ∀ {e : VpxRangeEncoder} {i : Interval} {unwritten : Nat}, Encodes e i unwritten →
    e.carryFree (ws.map plain) = false → e.writeAll (ws.map plain) = .error .outOfRange := by
  induction ws with
  | nil => exact fun _ carries => absurd carries (by simp [carryFree])
  | cons w ws ih =>
    intro e i unwritten encodes carries
    rw [map_cons, writeAll_cons]
    by_cases free : e.Carries w.1 w.2
    · rw [show e.write (plain w).1 (plain w).2 = _ from encodes.write_carries w.1 w.2 free,
        error_bind]
    · obtain ⟨e', unwritten', written, encodes'⟩ := encodes.write w free
      rw [show e.write (plain w).1 (plain w).2 = .ok e' from written, ok_bind]
      refine ih encodes' (Bool.eq_false_iff.mpr fun rest => Bool.eq_false_iff.mp carries ?_)
      exact (carryFree_cons _ _).mpr ⟨free, e', written, rest⟩

/-! ## The end of the stream -/

/-- The probability of a bit without one. -/
def half : Probability := ⟨halfProbability, by decide⟩

/-- The zeros at the end halve the range, except for the widest one at first. -/
theorem half_shift : ∀ range < 256, 128 ≤ range →
    vpxSplitting.shift (vpxSplitting.split range half) = (if range = 255 then 0 else 1) ∧
      vpxSplitting.split range half * 2 ^ vpxSplitting.shift (vpxSplitting.split range half) ≠
      255 := by
  decide +kernel

/-- Zeros put the low end out: either the low value has no carry any more, or no byte was put
out. -/
theorem Encodes.zeros (n : Nat) : ∀ {e : VpxRangeEncoder} {i : Interval} {unwritten : Nat},
    Encodes e i unwritten → e.carryFree ((replicate n (false, half)).map plain) = true →
    ∃ e' i' unwritten' t, e.writeAll ((replicate n (false, half)).map plain) = .ok e' ∧
      Encodes e' i' unwritten' ∧ i'.low = i.low * 2 ^ t ∧ i'.scale = i.scale + t ∧
      n ≤ t + (if i.range = 255 then 1 else 0) ∧
      (e'.lowValue.toNat < 2 ^ unwritten' ∨ unwritten' = unwritten + t ∧
        ¬ e.lowValue.toNat < 2 ^ unwritten) := by
  induction n with
  | zero =>
    intro e i unwritten encodes _
    refine ⟨e, i, unwritten, 0, rfl, encodes, (mul_one _).symm, rfl, zero_le _, ?_⟩
    exact (em _).imp_right fun above => ⟨rfl, above⟩
  | succ n ih =>
    intro e i unwritten encodes carryFree
    rw [replicate_succ, map_cons, carryFree_cons] at carryFree
    obtain ⟨free, e₁, written, rest⟩ := carryFree
    obtain ⟨shift, range⟩ := half_shift i.range encodes.proper.2 encodes.proper.1
    -- One zero more: the low end is only scaled.
    obtain ⟨e₁', unwritten₁, written', encodes₁, settled⟩ : ∃ e₁ unwritten₁,
      e.write false half = .ok e₁ ∧ Encodes e₁ (vpxSplitting.encode i (false, half)) unwritten₁ ∧
        (e₁.lowValue.toNat < 2 ^ unwritten₁ ∨
          unwritten₁ = unwritten + vpxSplitting.shift (vpxSplitting.split i.range half) ∧
          ¬ e.lowValue.toNat < 2 ^ unwritten) := by
      rcases lt_or_ge (unwritten + vpxSplitting.shift (vpxSplitting.part i (false, half)).2) 32
        with short | full
      · obtain ⟨e₁, written, encodes₁, low⟩ := encodes.write_short false half short
        refine ⟨e₁, _, written, encodes₁, ?_⟩
        rcases lt_or_ge e.lowValue.toNat (2 ^ unwritten) with below | above
        · refine .inl ?_
          rw [low, pow_add]
          exact Nat.mul_lt_mul_of_pos_right below (Nat.two_pow_pos _)
        · exact .inr ⟨rfl, not_lt.mpr above⟩
      · obtain ⟨e₁, written, encodes₁, below⟩ := encodes.write_full false half full free
        exact ⟨e₁, _, written, encodes₁, .inl below⟩
    obtain rfl := Except.ok.inj (written.symm.trans written')
    obtain ⟨e', i', unwritten', t, ran, encodes', low, scale, count, settled'⟩ := ih encodes₁ rest
    refine ⟨e', i', unwritten', vpxSplitting.shift (vpxSplitting.split i.range half) + t, ?_,
      encodes', ?_, ?_, ?_, ?_⟩
    · rw [replicate_succ, map_cons, writeAll_cons,
        show e.write (plain (false, half)).1 (plain (false, half)).2 = .ok e₁ from written, ok_bind]
      exact ran
    · rw [low, pow_add, ← mul_assoc]
      rfl
    · rw [scale, Splitting.scale_encode, add_assoc]
      rfl
    · rw [if_neg (show ¬ (vpxSplitting.encode i (false, half)).range = 255 from range)] at count
      rw [shift]
      split <;> omega
    · rcases settled' with below | ⟨same, above⟩
      · exact .inl below
      · obtain ⟨same', above'⟩ := settled.resolve_left above
        exact .inr ⟨by rw [same, same', add_assoc], above'⟩

/-- The bytes hold all of the low end that the bits have left. -/
theorem Encodes.ended (encodes : Encodes e i unwritten)
    (carryFree : e.carryFree ((replicate 32 (false, half)).map plain) = true) :
    ∃ e' m, e.writeAll ((replicate 32 (false, half)).map plain) = .ok e' ∧
      e'.bytesValue = i.low * 2 ^ m ∧ 8 * e'.baseStream.buffer.length = i.scale + 8 + m := by
  obtain ⟨e', i', unwritten', t, ran, encodes', low, scale, count, settled⟩ :=
    encodes.zeros 32 carryFree
  have few := encodes'.few
  have positive : 8 ≤ unwritten := encodes.many.elim (by omega) (·.2)
  have shifted : 31 ≤ t := by
    split at count <;> omega
  have below : e'.lowValue.toNat < 2 ^ unwritten' := settled.resolve_right (by omega)
  obtain ⟨m, rfl⟩ : ∃ m, t = m + unwritten' := ⟨t - unwritten', by omega⟩
  have split := encodes'.low
  rw [low, pow_add, ← mul_assoc] at split
  refine ⟨e', m, ran, ?_, ?_⟩
  · have quotient := congrArg (· / 2 ^ unwritten') split
    simp only [Nat.mul_div_cancel _ (Nat.two_pow_pos _)] at quotient
    rw [Nat.mul_comm e'.bytesValue, Nat.mul_add_div (Nat.two_pow_pos _), Nat.div_eq_of_lt below,
      Nat.add_zero] at quotient
    exact quotient.symm
  · have scale' := encodes'.scale
    omega

theorem carryFree_append (ws vs : List (Bool × Nat)) :
    ∀ {e : VpxRangeEncoder}, e.carryFree (ws ++ vs) = true →
    e.carryFree ws = true ∧ ∀ e', e.writeAll ws = .ok e' → e'.carryFree vs = true := by
  induction ws with
  | nil =>
    intro e free
    refine ⟨rfl, fun e' same => ?_⟩
    obtain rfl := Except.ok.inj same
    exact free
  | cons w ws ih =>
    intro e free
    rw [cons_append, carryFree_cons] at free
    obtain ⟨here, e₁, written, rest⟩ := free
    obtain ⟨front, back⟩ := ih rest
    refine ⟨(carryFree_cons w ws).mpr ⟨here, e₁, written, front⟩, fun e' ran => back e' ?_⟩
    rwa [writeAll_cons, written, ok_bind] at ran

theorem framed_eq (writes : List (Bool × Probability)) :
    framed (writes.map plain) = ((false, half) :: writes).map plain ++
      (replicate 32 (false, half)).map plain := by
  rw [map_replicate]
  rfl

theorem length_byteBits (byte : BitVec 8) : (BoolDecoder.byteBits byte).length = 8 := by
  simp [BoolDecoder.byteBits]

theorem value_byteBits : ∀ byte : BitVec 8,
    BigEndian.value 2 (BoolDecoder.byteBits byte) = byte.toNat := by
  decide +kernel

/-- The decoder finds the bits in the bytes just where no carry has left the low value. -/
theorem decode_encode_iff (writes : List (Bool × Probability)) :
    (∃ bytes, encode (writes.map plain) = .ok bytes ∧
      (BoolDecoder.start bytes >>= fun d => d.readAll (halfProbability :: writes.map (·.2.1))) =
        some (false :: writes.map (·.1))) ↔
      carryFree {} (framed (writes.map plain)) = true := by
  rw [encode, framed_eq]
  constructor
  · rintro ⟨bytes, encoded, -⟩
    by_contra carries
    rw [← map_append] at encoded carries
    rw [encodes_start.writeAll_error _ (Bool.eq_false_iff.mpr carries)] at encoded
    cases encoded
  · intro free
    obtain ⟨front, back⟩ := carryFree_append _ _ free
    obtain ⟨e₁, unwritten₁, ran₁, encodes₁⟩ := encodes_start.writeAll _ front
    obtain ⟨e', m, ran', bytes, length⟩ := encodes₁.ended (back e₁ ran₁)
    refine ⟨e'.baseStream.buffer, ?_, ?_⟩
    · rw [writeAll, foldlM_append, ← writeAll, ran₁, ok_bind, ← writeAll, ran']
      rfl
    · have proper : vpxSplitting.proper 255 := ⟨by decide, by decide⟩
      have positive : 0 < (vpxSplitting.encodeAll ⟨0, 255, 0⟩ ((false, half) :: writes)).range :=
        lt_of_lt_of_le (by decide) encodes₁.proper.1
      rw [bytesValue] at bytes
      cases stored : e'.baseStream.buffer with
      | nil =>
        rw [stored, length_nil] at length
        omega
      | cons byte rest =>
        obtain ⟨count, same⟩ := BigEndian.value_flatMap (l := rest) (fun b _ => length_byteBits b)
          fun b _ => value_byteBits b
        have digits : ∀ b ∈ rest.flatMap BoolDecoder.byteBits, b < 2 := by
          intro b member
          obtain ⟨byte, -, here⟩ := mem_flatMap.mp member
          obtain ⟨place, -, rfl⟩ := mem_map.mp here
          exact Bool.toNat_lt _
        have code : (0 + byte.toNat) * 2 ^ (rest.flatMap BoolDecoder.byteBits).length +
            BigEndian.value 2 (rest.flatMap BoolDecoder.byteBits) =
            (vpxSplitting.encodeAll ⟨0, 255, 0⟩ ((false, half) :: writes)).low * 2 ^ m := by
          rw [← bytes, stored, map_cons, BigEndian.value_cons, same, count, length_map, zero_add,
            pow_mul]
          rfl
        have decoded := Splitting.decodeAll_encodeAll ((false, half) :: writes)
          (i := ⟨0, 255, 0⟩) (n := m) proper digits
          (by rw [stored, length_cons] at length; rw [count]; change _ = 0 + _; omega) code.ge
          (by
            rw [code]
            exact Nat.mul_lt_mul_of_pos_right (Nat.lt_add_of_pos_right positive)
              (Nat.two_pow_pos m))
        have read := BoolDecoder.readAll_eq (((false, half) :: writes).map Prod.snd)
          (d := ⟨byte.toNat, 255, rest.flatMap BoolDecoder.byteBits⟩) proper
        rw [decoded] at read
        simp only [map_cons, map_map] at read
        exact read

/-- Eight bits whose carry runs into a byte that has been put out. -/
theorem encode_carry :
    ¬ ∃ bytes, encode [(false, 3), (true, 97), (false, 49), (true, 247), (false, 29), (true, 239),
      (false, 29), (true, 241)] = .ok bytes := by
  have fault : encode [(false, 3), (true, 97), (false, 49), (true, 247), (false, 29), (true, 239),
    (false, 29), (true, 241)] = .error .outOfRange := by
    decide +kernel
  rintro ⟨bytes, encoded⟩
  rw [fault] at encoded
  cases encoded

end VpxRangeEncoder

end SumiEmu.VideoCore
