/-
# Swizzling and back

The nested loops copy one texel after the other between its two offsets: carrying the
deposited column along gives the deposit of each column. The two transfers are the
same sequence of moves in opposite directions. The moves do not overlap in the surface
and cover the linear image, so the second restores what the first has read.
-/

import Mathlib.Tactic.IntervalCases
import SumiEmu.VideoCore.DecodersOffsets

namespace SumiEmu.VideoCore.Decoders

open Transfer List Nat

/-- A texel of an image: its column, its line and its slice. -/
structure Texel where
  column : Nat
  line : Nat
  slice : Nat
  deriving DecidableEq, Repr

namespace Layout

variable (l : Layout)

/-! ## The loops -/

/-- The offset of a texel in the block-linear surface. -/
def offset (t : Texel) : Nat :=
  (l.swizzledOffset (pdep swizzleXBits (BitVec.ofNat 32 t.column * l.bytesPerPixel))
    (BitVec.ofNat 32 t.column) (BitVec.ofNat 32 t.line) (BitVec.ofNat 32 t.slice)).toNat

/-- The offset of a texel in the linear image. -/
def linearOffset (t : Texel) : Nat :=
  (l.unswizzledOffset (BitVec.ofNat 32 t.column) (BitVec.ofNat 32 t.line)
    (BitVec.ofNat 32 t.slice)).toNat

/-- The move of a texel into the surface. -/
def move (t : Texel) : Move := ⟨l.offset t, l.linearOffset t⟩

/-- A texel of the image. -/
structure Has (t : Texel) : Prop where
  column : t.column < l.width.toNat
  line : t.line < l.height.toNat
  slice : t.slice < l.depth.toNat

def columnTexels (line slice : Nat) (columns : List Nat) : List Texel :=
  columns.map fun column => ⟨column, line, slice⟩

def lineTexels (slice : Nat) (lines : List Nat) : List Texel :=
  lines.flatMap fun line => columnTexels line slice (range' 0 l.width.toNat)

/-- The texels of the image in the order of the loops. -/
def texels : List Texel :=
  (range' 0 l.depth.toNat).flatMap fun slice => l.lineTexels slice (range' 0 l.height.toNat)

theorem mem_texels {t : Texel} : t ∈ l.texels ↔ l.Has t := by
  simp only [texels, lineTexels, columnTexels, mem_flatMap, mem_map,
    mem_range'_1, zero_le, zero_add, true_and]
  constructor
  · rintro ⟨slice, sliceBelow, line, lineBelow, column, columnBelow, rfl⟩
    exact ⟨columnBelow, lineBelow, sliceBelow⟩
  · intro has
    exact ⟨t.slice, has.slice, t.line, has.line, t.column, has.column, rfl⟩

variable {σ : Type} (body : BitVec 32 → BitVec 32 → σ → Option σ)

/-- What the loops do with one texel. -/
def visit (state : σ) (t : Texel) : Option σ :=
  body (l.swizzledOffset (pdep swizzleXBits (BitVec.ofNat 32 t.column * l.bytesPerPixel))
      (BitVec.ofNat 32 t.column) (BitVec.ofNat 32 t.line) (BitVec.ofNat 32 t.slice))
    (l.unswizzledOffset (BitVec.ofNat 32 t.column) (BitVec.ofNat 32 t.line)
      (BitVec.ofNat 32 t.slice)) state

variable {l}

theorem ofNat_succ (n : Nat) : BitVec.ofNat 32 n + 1 = BitVec.ofNat 32 (n + 1) := by
  rw [BitVec.ofNat_add]
  rfl

/-- The carried column is the deposit of the current column. -/
theorem columnLoop_eq (line slice count column : Nat) (state : σ) :
    l.columnLoop body (BitVec.ofNat 32 line) (BitVec.ofNat 32 slice) count (BitVec.ofNat 32 column)
      (pdep swizzleXBits (BitVec.ofNat 32 column * l.bytesPerPixel)) state =
    (columnTexels line slice (range' column count)).foldlM (l.visit body) state := by
  induction count generalizing column state with
  | zero => rfl
  | succ count ih =>
    have next : BitVec.ofNat 32 column * l.bytesPerPixel + l.bytesPerPixel =
        BitVec.ofNat 32 (column + 1) * l.bytesPerPixel := by
      rw [← ofNat_succ]
      ring
    rw [columnLoop, incrpdep_pdep, next, ofNat_succ, range'_succ, columnTexels,
      map_cons, foldlM_cons]
    apply bind_congr
    intro between
    exact ih (column + 1) between

theorem lineLoop_eq (slice count line : Nat) (state : σ) :
    l.lineLoop body (BitVec.ofNat 32 slice) count (BitVec.ofNat 32 line) state =
      (l.lineTexels slice (range' line count)).foldlM (l.visit body) state := by
  induction count generalizing line state with
  | zero => rfl
  | succ count ih =>
    have columns := columnLoop_eq (l := l) body line slice l.width.toNat 0 state
    rw [show BitVec.ofNat 32 0 * l.bytesPerPixel = 0 from BitVec.zero_mul] at columns
    rw [lineLoop, ofNat_succ, range'_succ, lineTexels, flatMap_cons, foldlM_append,
      ← columns]
    apply bind_congr
    intro between
    exact ih (line + 1) between

theorem sliceLoop_eq (count slice : Nat) (state : σ) :
    l.sliceLoop body count (BitVec.ofNat 32 slice) state =
      ((range' slice count).flatMap fun slice =>
        l.lineTexels slice (range' 0 l.height.toNat)).foldlM (l.visit body) state := by
  induction count generalizing slice state with
  | zero => rfl
  | succ count ih =>
    rw [sliceLoop, ofNat_succ, range'_succ, flatMap_cons, foldlM_append,
      ← lineLoop_eq body slice l.height.toNat 0 state]
    apply bind_congr
    intro between
    exact ih (slice + 1) between

end Layout

/-- Both directions copy the texels in order, each along its move or back. -/
theorem swizzleImpl_eq {l : Layout} (toLinear : Bool) (output input : List UInt8) :
    swizzleImpl toLinear output input l =
      copyBlocks l.bytesPerPixel.toNat input output
        (l.texels.map fun t => if toLinear then l.move t else (l.move t).back) := by
  have walk := Layout.sliceLoop_eq (l := l) (fun swizzledOffset unswizzledOffset output =>
    let dst := if toLinear then swizzledOffset else unswizzledOffset
    let src := if toLinear then unswizzledOffset else swizzledOffset
    copyBlock l.bytesPerPixel.toNat input output ⟨dst.toNat, src.toNat⟩) l.depth.toNat 0 output
  rw [swizzleImpl, copyBlocks, foldlM_map]
  refine walk.trans ?_
  congr 1
  funext output t
  cases toLinear <;> rfl

namespace Layout

variable {l : Layout}

/-! ## The moves -/

/-- The bytes of the linear image. -/
def linearBytes (l : Layout) : Nat :=
  l.width.toNat * l.bytesPerPixel.toNat * l.height.toNat * l.depth.toNat

/-- The offset of a byte in the linear image. -/
def linearPosition (l : Layout) (x y z : Nat) : Nat :=
  (z * l.height.toNat + y) * (l.width.toNat * l.bytesPerPixel.toNat) + x

/-- The linear image is no larger than the surface. -/
theorem Fits.linearBytes_le (fits : l.Fits) : l.linearBytes ≤ l.surfaceBytes := by
  have columns : l.stride.toNat ≤ 64 * l.gobs := le_smul_ceilDiv (show 0 < 64 by decide)
  have lines : l.height.toNat ≤ 2 ^ (l.blockHeight.toNat + 3) * l.rows :=
    le_smul_ceilDiv (Nat.two_pow_pos _)
  have slices : l.depth.toNat ≤ 2 ^ l.blockDepth.toNat * l.levels :=
    le_smul_ceilDiv (Nat.two_pow_pos _)
  calc l.linearBytes
      ≤ 64 * l.gobs * (2 ^ (l.blockHeight.toNat + 3) * l.rows) *
          (2 ^ l.blockDepth.toNat * l.levels) :=
        Nat.mul_le_mul (Nat.mul_le_mul (fits.line.trans columns) lines) slices
    _ = l.surfaceBytes := by
        simp only [surfaceBytes, rowBytes, pow_add]
        ring

section Moves

variable {t : Texel} {x y z i : Nat}

theorem Has.pos (has : l.Has t) : 0 < l.width.toNat := lt_of_le_of_lt (zero_le _) has.column

/-- The bytes of a texel are bytes of its line. -/
theorem Has.inside (has : l.Has t) (within : i < l.bytesPerPixel.toNat) :
    l.Inside (t.column * l.bytesPerPixel.toNat + i) t.line t.slice := by
  refine ⟨?_, has.line, has.slice⟩
  calc t.column * l.bytesPerPixel.toNat + i
      < t.column * l.bytesPerPixel.toNat + l.bytesPerPixel.toNat := Nat.add_lt_add_left within _
    _ = (t.column + 1) * l.bytesPerPixel.toNat := (succ_mul ..).symm
    _ ≤ l.width.toNat * l.bytesPerPixel.toNat := mul_le_mul_right _ has.column

theorem linearPosition_lt (inside : l.Inside x y z) : l.linearPosition x y z < l.linearBytes := by
  have line : z * l.height.toNat + y < l.depth.toNat * l.height.toNat := by
    calc z * l.height.toNat + y < z * l.height.toNat + l.height.toNat :=
          Nat.add_lt_add_left inside.y _
      _ = (z + 1) * l.height.toNat := (succ_mul ..).symm
      _ ≤ l.depth.toNat * l.height.toNat := mul_le_mul_right _ inside.z
  calc l.linearPosition x y z
      < (z * l.height.toNat + y) * (l.width.toNat * l.bytesPerPixel.toNat) +
          l.width.toNat * l.bytesPerPixel.toNat := Nat.add_lt_add_left inside.x _
    _ = (z * l.height.toNat + y + 1) * (l.width.toNat * l.bytesPerPixel.toNat) :=
        (succ_mul ..).symm
    _ ≤ l.depth.toNat * l.height.toNat * (l.width.toNat * l.bytesPerPixel.toNat) :=
        mul_le_mul_right _ line
    _ = l.linearBytes := by
        rw [linearBytes]
        ring

private theorem toNat_index {n : Nat} {bound : BitVec 32} (below : n < bound.toNat) :
    (BitVec.ofNat 32 n).toNat = n := by
  rw [BitVec.toNat_ofNat, mod_eq_of_lt (below.trans bound.isLt)]

variable (fits : l.Fits)
include fits

theorem Fits.unit_pos : 0 < l.bytesPerPixel.toNat := by
  have unit := fits.unit
  simp only [IsUnit, mem_cons, not_mem_nil, or_false] at unit
  omega

section

variable (has : l.Has t)

include has

theorem Fits.offset_eq :
    l.offset t = l.position (t.column * l.bytesPerPixel.toNat) t.line t.slice := by
  have inside := has.inside fits.unit_pos
  rw [add_zero] at inside
  have computed := @toNat_swizzledOffset l fits (BitVec.ofNat 32 t.column)
    (BitVec.ofNat 32 t.line) (BitVec.ofNat 32 t.slice)
  rw [toNat_index has.column, toNat_index has.line, toNat_index has.slice] at computed
  exact computed inside

theorem Fits.linearOffset_eq :
    l.linearOffset t = l.linearPosition (t.column * l.bytesPerPixel.toNat) t.line t.slice := by
  have inside := has.inside fits.unit_pos
  rw [add_zero] at inside
  have small := (linearPosition_lt inside).trans_le fits.linearBytes_le |>.trans fits.surface
  have computed : l.unswizzledOffset (BitVec.ofNat 32 t.column) (BitVec.ofNat 32 t.line)
      (BitVec.ofNat 32 t.slice) = BitVec.ofNat 32
        (l.linearPosition (t.column * l.bytesPerPixel.toNat) t.line t.slice) := by
    simp only [linearPosition, unswizzledOffset, pitch, BitVec.ofNat_add, BitVec.ofNat_mul,
      BitVec.ofNat_toNat, BitVec.setWidth_eq]
    ring
  rw [linearOffset, computed, BitVec.toNat_ofNat, mod_eq_of_lt small]

/-- The bytes of a texel of the linear image stand in order. -/
theorem Fits.linearOffset_add (i : Nat) : l.linearOffset t + i =
    l.linearPosition (t.column * l.bytesPerPixel.toNat + i) t.line t.slice := by
  rw [fits.linearOffset_eq has, linearPosition, linearPosition, add_assoc]

theorem Fits.offset_add (within : i < l.bytesPerPixel.toNat) : l.offset t + i =
    l.position (t.column * l.bytesPerPixel.toNat + i) t.line t.slice := by
  rw [fits.offset_eq has, position_add fits within]

/-- Bytes of distinct texels have distinct offsets. -/
theorem Fits.texel_eq {t' : Texel} {i' : Nat} (has' : l.Has t')
    (within : i < l.bytesPerPixel.toNat) (within' : i' < l.bytesPerPixel.toNat)
    (same : l.offset t + i = l.offset t' + i') : t = t' := by
  rw [fits.offset_add has within, fits.offset_add has' within'] at same
  obtain ⟨bytes, lines, slices⟩ := position_inj fits (has.inside within) (has'.inside within') same
  obtain ⟨column, line, slice⟩ := t
  obtain ⟨column', line', slice'⟩ := t'
  obtain ⟨rfl, _⟩ := MixedRadix.lead_digit_inj within within' bytes
  simp only at lines slices
  rw [lines, slices]

theorem Fits.offset_add_lt (within : i < l.bytesPerPixel.toNat) :
    l.offset t + i < l.surfaceBytes := by
  rw [fits.offset_add has within]
  exact position_lt fits (has.inside within)

theorem Fits.linearOffset_add_lt (within : i < l.bytesPerPixel.toNat) :
    l.linearOffset t + i < l.linearBytes := by
  rw [fits.linearOffset_add has]
  exact linearPosition_lt (has.inside within)

end

/-- Every byte of the linear image belongs to a texel. -/
theorem Fits.exists_texel (below : i < l.linearBytes) :
    ∃ t, l.Has t ∧ l.linearOffset t ≤ i ∧ i < l.linearOffset t + l.bytesPerPixel.toNat := by
  have unit := fits.unit_pos
  have pitch : 0 < l.width.toNat * l.bytesPerPixel.toNat := by
    apply pos_of_ne_zero
    intro zero
    rw [linearBytes, zero] at below
    simp at below
  have lines : i / (l.width.toNat * l.bytesPerPixel.toNat) < l.depth.toNat * l.height.toNat := by
    apply Nat.div_lt_of_lt_mul
    rwa [linearBytes, Nat.mul_assoc, Nat.mul_comm l.height.toNat] at below
  have height : 0 < l.height.toNat := by
    apply pos_of_ne_zero
    intro zero
    rw [zero, mul_zero] at lines
    exact absurd lines (not_lt_zero _)
  let x := i % (l.width.toNat * l.bytesPerPixel.toNat)
  let line := i / (l.width.toNat * l.bytesPerPixel.toNat)
  let t : Texel := ⟨x / l.bytesPerPixel.toNat, line % l.height.toNat, line / l.height.toNat⟩
  have has : l.Has t := by
    refine ⟨Nat.div_lt_of_lt_mul ?_, Nat.mod_lt _ height, Nat.div_lt_of_lt_mul ?_⟩
    · rw [Nat.mul_comm]
      exact mod_lt _ pitch
    · rw [mul_comm]
      exact lines
  have offset : l.linearOffset t + x % l.bytesPerPixel.toNat = i := by
    rw [fits.linearOffset_add has, linearPosition]
    simp only [t]
    rw [div_add_mod', div_add_mod', div_add_mod']
  have within := mod_lt x unit
  exact ⟨t, has, by omega, by omega⟩

end Moves

end Layout

/-! ## The public functions -/

/-- The layout with which both public functions transfer: texels are widened to the
largest unit that divides a line. -/
def widenedLayout (bytesPerPixel width height depth blockHeight blockDepth strideAlignment :
    BitVec 32) : Layout :=
  let newBpp := newBpp bytesPerPixel width
  { bytesPerPixel := 1#32 <<< newBpp
    width := (width * bytesPerPixel) >>> newBpp
    height, depth, blockHeight, blockDepth
    stride := alignUpLog2 width strideAlignment * bytesPerPixel }

/-- The bytes of a line of the surface. -/
def strideBytes (bytesPerPixel width strideAlignment : BitVec 32) : Nat :=
  width.toNat ⌈/⌉ 2 ^ strideAlignment.toNat * 2 ^ strideAlignment.toNat * bytesPerPixel.toNat

/-- The sizes of a transfer do not overflow 32 bits, and its lines are not empty. -/
structure SizesFit (bytesPerPixel width height depth blockHeight blockDepth strideAlignment :
    BitVec 32) : Prop where
  positive : 0 < width.toNat * bytesPerPixel.toNat
  stride : strideBytes bytesPerPixel width strideAlignment < 2 ^ 32
  block : strideBytes bytesPerPixel width strideAlignment ⌈/⌉ 64 *
    2 ^ (9 + blockHeight.toNat + blockDepth.toNat) < 2 ^ 32
  slice : height.toNat ⌈/⌉ 2 ^ (blockHeight.toNat + 3) *
    (strideBytes bytesPerPixel width strideAlignment ⌈/⌉ 64 *
      2 ^ (9 + blockHeight.toNat + blockDepth.toNat)) < 2 ^ 32
  surface : height.toNat ⌈/⌉ 2 ^ (blockHeight.toNat + 3) *
    (strideBytes bytesPerPixel width strideAlignment ⌈/⌉ 64 *
      2 ^ (9 + blockHeight.toNat + blockDepth.toNat)) * (depth.toNat ⌈/⌉ 2 ^ blockDepth.toNat) <
      2 ^ 32

section Widening

variable {bytesPerPixel width height depth blockHeight blockDepth strideAlignment : BitVec 32}

/-- Rounding up in 64 bits is exact when the result fits 32 bits. -/
theorem toNat_alignUpLog2 {value alignLog2 : BitVec 32} (positive : 0 < value.toNat)
    (fits : value.toNat ⌈/⌉ 2 ^ alignLog2.toNat * 2 ^ alignLog2.toNat < 2 ^ 32) :
    (alignUpLog2 value alignLog2).toNat =
      value.toNat ⌈/⌉ 2 ^ alignLog2.toNat * 2 ^ alignLog2.toNat := by
  have some : 0 < value.toNat ⌈/⌉ 2 ^ alignLog2.toNat :=
    lt_of_le_of_lt (Nat.zero_le _) (div_lt_ceilDiv (Nat.two_pow_pos _) positive)
  have power : 2 ^ alignLog2.toNat < 2 ^ 32 :=
    lt_of_le_of_lt (Nat.le_mul_of_pos_left _ some) fits
  have one := Nat.two_pow_pos alignLog2.toNat
  have shifted : (1#64 <<< alignLog2).toNat = 2 ^ alignLog2.toNat := by
    rw [BitVec.shiftLeft_eq', BitVec.toNat_shiftLeft, shiftLeft_eq,
      show (1#64).toNat = 1 from rfl, one_mul, mod_eq_of_lt (by omega)]
  have wide : (value.setWidth 64).toNat = value.toNat := by
    rw [BitVec.toNat_setWidth, mod_eq_of_lt]
    exact value.isLt.trans (by decide)
  have bound := value.isLt
  have sum : (value.setWidth 64 + ((1#64 <<< alignLog2) - 1)).toNat =
      value.toNat + 2 ^ alignLog2.toNat - 1 := by
    rw [BitVec.toNat_add, BitVec.toNat_sub, shifted, wide, show (1 : BitVec 64).toNat = 1 from rfl]
    omega
  rw [alignUpLog2, BitVec.toNat_setWidth, BitVec.shiftLeft_eq', BitVec.toNat_shiftLeft,
    BitVec.ushiftRight_eq', BitVec.toNat_ushiftRight, sum, shiftLeft_eq,
    shiftRight_eq_div_pow]
  change value.toNat ⌈/⌉ 2 ^ alignLog2.toNat * 2 ^ alignLog2.toNat % 2 ^ 64 % 2 ^ 32 = _
  rw [mod_eq_of_lt (fits.trans (by decide)), mod_eq_of_lt fits]

/-- The low bits below the trailing zeros of a word are clear. -/
theorem two_pow_dvd_of_le_ctz {v : BitVec 32} {k : Nat} (within : k ≤ v.ctz.toNat) :
    2 ^ k ∣ v.toNat := by
  apply dvd_of_mod_eq_zero
  apply eq_of_testBit_eq
  intro i
  rw [testBit_mod_two_pow, zero_testBit]
  by_cases low : i < k
  · have clear := BitVec.getLsbD_false_of_lt_ctz (x := v) (lt_of_lt_of_le low within)
    rw [BitVec.getLsbD] at clear
    rw [clear, Bool.and_false]
  · rw [decide_eq_false low, Bool.false_and]

theorem newBpp_le (bytesPerPixel width : BitVec 32) :
    (newBpp bytesPerPixel width).toNat ≤ 4 ∧
      (newBpp bytesPerPixel width).toNat ≤ (width * bytesPerPixel).ctz.toNat := by
  rw [newBpp]
  split_ifs with few
  · exact ⟨(BitVec.lt_def.mp few).le, le_rfl⟩
  · exact ⟨le_rfl, BitVec.le_def.mp (BitVec.not_lt.mp few)⟩

theorem unit_mem {n : Nat} (small : n ≤ 4) : IsUnit (2 ^ n) := by
  unfold IsUnit
  interval_cases n <;> decide

/-- A line is no longer than the stride. -/
theorem line_le_stride :
    width.toNat * bytesPerPixel.toNat ≤ strideBytes bytesPerPixel width strideAlignment := by
  apply Nat.mul_le_mul_right
  rw [mul_comm]
  exact le_smul_ceilDiv (Nat.two_pow_pos _)

theorem toNat_widened_unit :
    (widenedLayout bytesPerPixel width height depth blockHeight blockDepth
      strideAlignment).bytesPerPixel.toNat = 2 ^ (newBpp bytesPerPixel width).toNat := by
  have small := (newBpp_le bytesPerPixel width).1
  exact toNat_one_shiftLeft (by omega)

variable (fits : SizesFit bytesPerPixel width height depth blockHeight blockDepth strideAlignment)
include fits

theorem SizesFit.alignedWidth_lt :
    width.toNat ⌈/⌉ 2 ^ strideAlignment.toNat * 2 ^ strideAlignment.toNat < 2 ^ 32 :=
  lt_of_le_of_lt (Nat.le_mul_of_pos_right _ (Nat.pos_of_mul_pos_left fits.positive)) fits.stride

theorem SizesFit.toNat_stride :
    (widenedLayout bytesPerPixel width height depth blockHeight blockDepth
      strideAlignment).stride.toNat = strideBytes bytesPerPixel width strideAlignment := by
  have aligned := toNat_alignUpLog2 (Nat.pos_of_mul_pos_right fits.positive) fits.alignedWidth_lt
  rw [widenedLayout, BitVec.toNat_mul, aligned]
  exact mod_eq_of_lt fits.stride

/-- Widening the texels keeps the bytes of a line. -/
theorem SizesFit.line_eq :
    (widenedLayout bytesPerPixel width height depth blockHeight blockDepth
      strideAlignment).width.toNat * (widenedLayout bytesPerPixel width height depth blockHeight
      blockDepth strideAlignment).bytesPerPixel.toNat = width.toNat * bytesPerPixel.toNat := by
  have line : (width * bytesPerPixel).toNat = width.toNat * bytesPerPixel.toNat := by
    rw [BitVec.toNat_mul, mod_eq_of_lt (lt_of_le_of_lt line_le_stride fits.stride)]
  have divides := two_pow_dvd_of_le_ctz (newBpp_le bytesPerPixel width).2
  have narrowed : (widenedLayout bytesPerPixel width height depth blockHeight blockDepth
      strideAlignment).width.toNat =
      (width * bytesPerPixel).toNat / 2 ^ (newBpp bytesPerPixel width).toNat := by
    rw [widenedLayout, BitVec.ushiftRight_eq', BitVec.toNat_ushiftRight, shiftRight_eq_div_pow]
  rw [toNat_widened_unit, narrowed, Nat.div_mul_cancel divides, line]

theorem SizesFit.widened : (widenedLayout bytesPerPixel width height depth blockHeight blockDepth
    strideAlignment).Fits where
  unit := by
    rw [toNat_widened_unit]
    exact unit_mem (newBpp_le bytesPerPixel width).1
  stride_pos := by
    rw [fits.toNat_stride]
    exact lt_of_lt_of_le fits.positive line_le_stride
  line := by
    rw [fits.line_eq, fits.toNat_stride]
    exact line_le_stride
  row := by
    rw [Layout.rowBytes, Layout.gobs, fits.toNat_stride]
    exact fits.block
  slice := by
    rw [Layout.rowBytes, Layout.gobs, fits.toNat_stride]
    exact fits.slice
  surface := by
    rw [Layout.surfaceBytes, Layout.rowBytes, Layout.gobs, fits.toNat_stride]
    exact fits.surface

/-- Both functions move the texels of the widened layout, in opposite directions. -/
theorem SizesFit.swizzle_eq (toLinear : Bool) (output input : List UInt8) :
    swizzle toLinear output input (1#32 <<< newBpp bytesPerPixel width)
      ((width * bytesPerPixel) >>> newBpp bytesPerPixel width) height depth blockHeight blockDepth
      (alignUpLog2 width strideAlignment * bytesPerPixel) =
    copyBlocks (widenedLayout bytesPerPixel width height depth blockHeight blockDepth
      strideAlignment).bytesPerPixel.toNat input output
      ((widenedLayout bytesPerPixel width height depth blockHeight blockDepth
        strideAlignment).texels.map fun t =>
        if toLinear then (widenedLayout bytesPerPixel width height depth blockHeight blockDepth
          strideAlignment).move t
        else ((widenedLayout bytesPerPixel width height depth blockHeight blockDepth
          strideAlignment).move t).back) := by
  have unit := fits.widened.unit
  have listed : 1#32 <<< newBpp bytesPerPixel width ∈ [1#32, 2, 3, 4, 6, 8, 12, 16] := by
    have cases : ∀ unit ∈ [1, 2, 4, 8, 16],
        BitVec.ofNat 32 unit ∈ [1#32, 2, 3, 4, 6, 8, 12, 16] := by decide
    have member := cases _ unit
    rwa [BitVec.ofNat_toNat, BitVec.setWidth_eq] at member
  rw [swizzle, if_pos listed]
  exact swizzleImpl_eq (l := widenedLayout bytesPerPixel width height depth blockHeight blockDepth
    strideAlignment) toLinear output input

end Widening

/-- The block-linear transfers. Both functions copy the texels of the widened layout along
one offset map, in opposite directions; the map keeps distinct texels apart and inside the
surface; and the second transfer restores what the first has read, whatever the surface and
the output contained. -/
theorem swizzle_round_trip (bytesPerPixel width height depth blockHeight blockDepth
    strideAlignment : BitVec 32)
    (fits : SizesFit bytesPerPixel width height depth blockHeight blockDepth strideAlignment) :
    let l := widenedLayout bytesPerPixel width height depth blockHeight blockDepth strideAlignment
    let unit := l.bytesPerPixel.toNat
    let imageBytes := width.toNat * bytesPerPixel.toNat * height.toNat * depth.toNat
    let surfaceBytes := l.sliceSize.toNat * (depth.toNat ⌈/⌉ 2 ^ blockDepth.toNat)
    (∀ output input, swizzleTexture output input bytesPerPixel width height depth blockHeight
        blockDepth strideAlignment = copyBlocks unit input output (l.texels.map l.move)) ∧
    (∀ output input, unswizzleTexture output input bytesPerPixel width height depth blockHeight
        blockDepth strideAlignment =
          copyBlocks unit input output ((l.texels.map l.move).map Move.back)) ∧
    (∀ t t', l.Has t → l.Has t' → t ≠ t' → ∀ i i', i < unit → i' < unit →
      l.offset t + i ≠ l.offset t' + i') ∧
    (∀ t, l.Has t → l.offset t + unit ≤ surfaceBytes) ∧
    ∀ image surface output : List UInt8, imageBytes ≤ image.length →
      surfaceBytes ≤ surface.length → imageBytes ≤ output.length →
      ∃ swizzled restored,
        swizzleTexture surface image bytesPerPixel width height depth blockHeight blockDepth
          strideAlignment = some swizzled ∧
        unswizzleTexture output swizzled bytesPerPixel width height depth blockHeight blockDepth
          strideAlignment = some restored ∧
        restored.take imageBytes = image.take imageBytes := by
  intro l unit imageBytes surfaceBytes
  have widened : l.Fits := fits.widened
  have unitPositive : 0 < unit := widened.unit_pos
  have imageEq : l.linearBytes = imageBytes := by
    rw [Layout.linearBytes, fits.line_eq]
    rfl
  have surfaceEq : l.surfaceBytes = surfaceBytes := by
    have slice := widened.slice
    simp only [surfaceBytes]
    rw [Layout.surfaceBytes, widened.sliceSize_eq, BitVec.toNat_ofNat, mod_eq_of_lt slice]
    rfl
  have swizzled (output input : List UInt8) : swizzleTexture output input bytesPerPixel width height
      depth blockHeight blockDepth strideAlignment =
      copyBlocks unit input output (l.texels.map l.move) := by
    exact fits.swizzle_eq true output input
  have unswizzled (output input : List UInt8) : unswizzleTexture output input bytesPerPixel width
      height depth blockHeight blockDepth strideAlignment =
      copyBlocks unit input output ((l.texels.map l.move).map Move.back) := by
    rw [map_map]
    exact fits.swizzle_eq false output input
  have below {t : Texel} (has : l.Has t) {i : Nat} (within : i < unit) :
      l.offset t + i < surfaceBytes := by
    rw [← surfaceEq]
    exact widened.offset_add_lt has within
  have linearBelow {t : Texel} (has : l.Has t) {i : Nat} (within : i < unit) :
      l.linearOffset t + i < imageBytes := by
    rw [← imageEq]
    exact widened.linearOffset_add_lt has within
  refine ⟨swizzled, unswizzled, ?_, fun t has => ?_, ?_⟩
  · intro t t' has has' distinct i i' within within' same
    exact distinct (widened.texel_eq has has' within within' same)
  · have last := below has (sub_lt unitPositive one_pos)
    omega
  intro image surface output imageLong surfaceLong outputLong
  -- the blocks of two moves that share a cell belong to one texel
  have apart : Apart unit (l.texels.map l.move) := by
    intro move member other otherMember i covers otherCovers
    obtain ⟨t, tMember, rfl⟩ := mem_map.mp member
    obtain ⟨t', tMember', rfl⟩ := mem_map.mp otherMember
    obtain ⟨lower, upper⟩ := covers
    obtain ⟨lower', upper'⟩ := otherCovers
    simp only [Layout.move] at lower upper lower' upper'
    have same : l.offset t + (i - l.offset t) = l.offset t' + (i - l.offset t') := by omega
    rw [widened.texel_eq (Layout.mem_texels l |>.mp tMember) (Layout.mem_texels l |>.mp tMember')
      (by omega) (by omega) same]
  have inSource : ∀ move ∈ l.texels.map l.move, move.source + unit ≤ imageBytes := by
    intro move member
    obtain ⟨t, tMember, rfl⟩ := mem_map.mp member
    have last := linearBelow (Layout.mem_texels l |>.mp tMember) (sub_lt unitPositive one_pos)
    simp only [Layout.move]
    omega
  have within : ∀ move ∈ l.texels.map l.move, move.Within unit surface.length image.length := by
    intro move member
    have source := inSource move member
    obtain ⟨t, tMember, rfl⟩ := mem_map.mp member
    have last := below (Layout.mem_texels l |>.mp tMember) (sub_lt unitPositive one_pos)
    simp only [Layout.move, Move.Within] at source ⊢
    omega
  obtain ⟨result, restored, there, _, back, length, same⟩ := copyBlocks_back output apart
    within fun move member => (inSource move member).trans outputLong
  refine ⟨result, restored, (swizzled ..).trans there, (unswizzled ..).trans back, ?_⟩
  apply ext_getElem?
  intro i
  by_cases inside : i < imageBytes
  · rw [getElem?_take_of_lt inside, getElem?_take_of_lt inside]
    obtain ⟨t, has, lower, upper⟩ := widened.exists_texel (imageEq ▸ inside)
    exact same i ⟨l.move t, mem_map_of_mem (Layout.mem_texels l |>.mpr has), lower, upper⟩
  · rw [getElem?_eq_none (by rw [length_take]; omega),
      getElem?_eq_none (by rw [length_take]; omega)]

/-- Two slices of 9 lines with 5 texels of 4 bytes, in blocks of two GOBs each way. -/
theorem swizzle_round_trip_small :
    ∃ swizzled restored,
      swizzleTexture (replicate 2048 7) (replicate 360 1) 4 5 9 2 1 1 0 = some swizzled ∧
      unswizzleTexture (replicate 360 0) swizzled 4 5 9 2 1 1 0 = some restored ∧
      restored.take 360 = (replicate 360 1).take 360 := by
  have fits : SizesFit 4 5 9 2 1 1 0 :=
    ⟨by decide, by decide, by decide, by decide, by decide⟩
  apply (swizzle_round_trip 4 5 9 2 1 1 0 fits).2.2.2.2
  · rw [length_replicate]
    decide
  · rw [length_replicate]
    decide
  · rw [length_replicate]
    decide

end SumiEmu.VideoCore.Decoders
