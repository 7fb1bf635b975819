/-
# The offsets of the block-linear layout

The sizes of a surface are stated over the naturals. As long as they fit 32 bits, no
step of the offset computation wraps, and the offset of a byte of a texel is the
number with the digits of its position. Distinct positions have distinct offsets
below the size of the surface.
-/

import Mathlib.Algebra.Order.Floor.Div
import SumiEmu.VideoCore.Decoders

namespace SumiEmu.VideoCore.Decoders

open MixedRadix BitVec List

theorem div_lt_ceilDiv {y h k : Nat} (positive : 0 < k) (below : y < h) : y / k < h ⌈/⌉ k := by
  apply Nat.div_lt_of_lt_mul
  exact lt_of_lt_of_le below (le_smul_ceilDiv positive)

/-! ## Words as numbers -/

theorem shiftLeft_eq_ofNat (x s : BitVec 32) :
    x <<< s = BitVec.ofNat 32 (x.toNat * 2 ^ s.toNat) := by
  apply eq_of_toNat_eq
  rw [shiftLeft_eq', toNat_shiftLeft, Nat.shiftLeft_eq, toNat_ofNat]

theorem ushiftRight_eq_ofNat (x s : BitVec 32) :
    x >>> s = BitVec.ofNat 32 (x.toNat / 2 ^ s.toNat) := by
  apply eq_of_toNat_eq
  rw [ushiftRight_eq', toNat_ushiftRight, Nat.shiftRight_eq_div_pow,
    toNat_ofNat, Nat.mod_eq_of_lt]
  exact lt_of_le_of_lt (Nat.div_le_self _ _) x.isLt

theorem toNat_one_shiftLeft {s : BitVec 32} (small : s.toNat < 32) :
    (1#32 <<< s).toNat = 2 ^ s.toNat := by
  rw [shiftLeft_eq_ofNat, toNat_ofNat, show (1#32).toNat = 1 from rfl, Nat.one_mul,
    Nat.mod_eq_of_lt (Nat.pow_lt_pow_right (by decide) small)]

theorem and_mask_eq_ofNat (x : BitVec 32) {s : BitVec 32} (small : s.toNat < 32) :
    x &&& ((1#32 <<< s) - 1) = BitVec.ofNat 32 (x.toNat % 2 ^ s.toNat) := by
  have power := toNat_one_shiftLeft small
  have positive := Nat.two_pow_pos s.toNat
  have mask : ((1#32 <<< s) - 1).toNat = 2 ^ s.toNat - 1 := by
    rw [toNat_sub_of_le, power]
    · rfl
    · rw [le_def, power]
      exact positive
  apply eq_of_toNat_eq
  have kept : x.toNat % 2 ^ s.toNat < 2 ^ 32 := lt_of_le_of_lt (Nat.mod_le _ _) x.isLt
  rw [toNat_and, mask, Nat.and_two_pow_sub_one_eq_mod, toNat_ofNat,
    Nat.mod_eq_of_lt kept]

theorem toNat_divCeilLog2 {v k : BitVec 32} (small : k.toNat < 32)
    (fits : v.toNat + 2 ^ k.toNat ≤ 2 ^ 32) :
    (divCeilLog2 v k).toNat = v.toNat ⌈/⌉ 2 ^ k.toNat := by
  have power := toNat_one_shiftLeft small
  have positive := Nat.two_pow_pos k.toNat
  -- the sum may reach 2^32 before one is taken off again
  have sum : (v + (1#32 <<< k) - 1).toNat = v.toNat + 2 ^ k.toNat - 1 := by
    rw [toNat_sub, toNat_add, power, show (1 : BitVec 32).toNat = 1 from rfl]
    omega
  rw [divCeilLog2, ushiftRight_eq', toNat_ushiftRight, sum,
    Nat.shiftRight_eq_div_pow]
  rfl

namespace Layout

/-! ## Sizes and positions -/

variable (l : Layout)

/-- The number of GOB columns of a row of blocks. -/
def gobs : Nat := l.stride.toNat ⌈/⌉ 64

/-- The number of rows of blocks of a slice. -/
def rows : Nat := l.height.toNat ⌈/⌉ 2 ^ (l.blockHeight.toNat + 3)

/-- The number of slices of blocks. -/
def levels : Nat := l.depth.toNat ⌈/⌉ 2 ^ l.blockDepth.toNat

/-- The bytes of one row of blocks. -/
def rowBytes : Nat := l.gobs * 2 ^ (9 + l.blockHeight.toNat + l.blockDepth.toNat)

/-- The bytes of the surface. -/
def surfaceBytes : Nat := l.rows * l.rowBytes * l.levels

/-- A surface whose sizes fit 32 bits and whose lines fit its stride. -/
structure Fits : Prop where
  unit : IsUnit l.bytesPerPixel.toNat
  stride_pos : 0 < l.stride.toNat
  line : l.width.toNat * l.bytesPerPixel.toNat ≤ l.stride.toNat
  row : l.rowBytes < 2 ^ 32
  slice : l.rows * l.rowBytes < 2 ^ 32
  surface : l.surfaceBytes < 2 ^ 32

/-- The position of a byte in the surface: byte `x` of line `y` in slice `z`. -/
def position (x y z : Nat) : Nat :=
  value (z / 2 ^ l.blockDepth.toNat)
    [(l.rows, y / 8 / 2 ^ l.blockHeight.toNat), (l.gobs, x / 64),
      (2 ^ l.blockDepth.toNat, z % 2 ^ l.blockDepth.toNat),
      (2 ^ l.blockHeight.toNat, y / 8 % 2 ^ l.blockHeight.toNat), (512, swizzleTable y x)]

/-- A byte of the linear image. -/
structure Inside (x y z : Nat) : Prop where
  x : x < l.width.toNat * l.bytesPerPixel.toNat
  y : y < l.height.toNat
  z : z < l.depth.toNat

variable {l}

section Positions

variable {x y z x' y' z' : Nat}

theorem row_lt (inside : l.Inside x y z) : y / 8 / 2 ^ l.blockHeight.toNat < l.rows := by
  rw [Nat.div_div_eq_div_mul, show 8 * 2 ^ l.blockHeight.toNat = 2 ^ (l.blockHeight.toNat + 3) by
    rw [Nat.pow_add]; omega]
  exact div_lt_ceilDiv (Nat.two_pow_pos _) inside.y

theorem column_lt (fits : l.Fits) (inside : l.Inside x y z) : x / 64 < l.gobs :=
  div_lt_ceilDiv (by decide) (lt_of_lt_of_le inside.x fits.line)

private theorem proper (fits : l.Fits) (inside : l.Inside x y z) :
    Proper [(l.rows, y / 8 / 2 ^ l.blockHeight.toNat), (l.gobs, x / 64),
      (2 ^ l.blockDepth.toNat, z % 2 ^ l.blockDepth.toNat),
      (2 ^ l.blockHeight.toNat, y / 8 % 2 ^ l.blockHeight.toNat), (512, swizzleTable y x)] := by
  have row := row_lt inside
  have column := column_lt fits inside
  simp only [proper_cons, row, column, Nat.mod_lt _ (Nat.two_pow_pos _), swizzleTable_lt, true_and]
  exact proper_nil

/-- A position determines its byte. -/
theorem position_inj (fits : l.Fits) (inside : l.Inside x y z) (inside' : l.Inside x' y' z')
    (same : l.position x y z = l.position x' y' z') : x = x' ∧ y = y' ∧ z = z' := by
  have radices : ∀ {a b c d e a' b' c' d' e' : Nat},
      [(l.rows, a), (l.gobs, b), (2 ^ l.blockDepth.toNat, c), (2 ^ l.blockHeight.toNat, d),
        (512, e)].map Prod.fst =
      [(l.rows, a'), (l.gobs, b'), (2 ^ l.blockDepth.toNat, c'), (2 ^ l.blockHeight.toNat, d'),
        (512, e')].map Prod.fst := by
    intros
    simp only [map_cons, map_nil]
  obtain ⟨level, digits⟩ := value_inj (proper fits inside) (proper fits inside') radices same
  simp only [List.cons.injEq, Prod.mk.injEq, true_and, and_true] at digits
  obtain ⟨row, column, slice, gob, entry⟩ := digits
  obtain ⟨low, cell⟩ := swizzleTable_inj entry
  refine ⟨?_, ?_, ?_⟩
  · rw [← Nat.div_add_mod x 64, ← Nat.div_add_mod x' 64, column, cell]
  · have block : y / 8 = y' / 8 := by
      rw [← Nat.div_add_mod (y / 8) (2 ^ l.blockHeight.toNat),
        ← Nat.div_add_mod (y' / 8) (2 ^ l.blockHeight.toNat), row, gob]
    rw [← Nat.div_add_mod y 8, ← Nat.div_add_mod y' 8, block, low]
  · rw [← Nat.div_add_mod z (2 ^ l.blockDepth.toNat), ← Nat.div_add_mod z' (2 ^ l.blockDepth.toNat),
      level, slice]

/-- Positions lie inside the surface. -/
theorem position_lt (fits : l.Fits) (inside : l.Inside x y z) :
    l.position x y z < l.surfaceBytes := by
  have level : z / 2 ^ l.blockDepth.toNat < l.levels := div_lt_ceilDiv (Nat.two_pow_pos _) inside.z
  apply lt_of_lt_of_eq (value_lt (proper fits inside) level)
  simp only [map_cons, map_nil, prod_cons, prod_nil, surfaceBytes, rowBytes,
    Nat.pow_add]
  ring

end Positions

/-! ## The computed offsets -/

section

variable (fits : l.Fits)

include fits

theorem Fits.gobs_pos : 0 < l.gobs := by
  have below := div_lt_ceilDiv (show 0 < 64 by decide) fits.stride_pos
  exact lt_of_le_of_lt (Nat.zero_le _) below

/-- The shifts of a surface that fits stay below the width of a word. -/
theorem Fits.shift_lt : 9 + l.blockHeight.toNat + l.blockDepth.toNat < 32 := by
  apply (Nat.pow_lt_pow_iff_right (show 1 < 2 by decide)).mp
  exact lt_of_le_of_lt (Nat.le_mul_of_pos_left _ fits.gobs_pos) fits.row

theorem Fits.toNat_shift :
    (gobSizeShift + l.blockHeight + l.blockDepth).toNat =
      9 + l.blockHeight.toNat + l.blockDepth.toNat := by
  have small := fits.shift_lt
  rw [toNat_add, toNat_add, show gobSizeShift.toNat = 9 from rfl]
  omega

theorem Fits.gobsInX_eq : l.gobsInX = BitVec.ofNat 32 l.gobs := by
  have covered : l.stride.toNat ≤ 64 * l.gobs := le_smul_ceilDiv (show 0 < 64 by decide)
  have row := fits.row
  have least : l.gobs * 2 ^ 9 ≤ l.rowBytes := by
    apply Nat.mul_le_mul_left
    exact Nat.pow_le_pow_right (by decide) (by omega)
  apply eq_of_toNat_eq
  have shift : gobSizeXShift.toNat = 6 := rfl
  rw [gobsInX, toNat_divCeilLog2 (by omega) (by rw [shift]; omega), toNat_ofNat,
    Nat.mod_eq_of_lt (by omega), shift]
  rfl

theorem Fits.blockSize_eq : l.blockSize = BitVec.ofNat 32 l.rowBytes := by
  have row := fits.row
  have least : l.gobs ≤ l.rowBytes := Nat.le_mul_of_pos_right _ (Nat.two_pow_pos _)
  rw [blockSize, shiftLeft_eq_ofNat, fits.toNat_shift, fits.gobsInX_eq, toNat_ofNat,
    Nat.mod_eq_of_lt (by omega)]
  rfl

theorem Fits.sliceSize_eq :
    l.sliceSize = BitVec.ofNat 32 (l.rows * l.rowBytes) := by
  have shift := fits.shift_lt
  have exponent : (l.blockHeight + gobSizeYShift).toNat = l.blockHeight.toNat + 3 := by
    rw [toNat_add, show gobSizeYShift.toNat = 3 from rfl]
    omega
  have covered : l.height.toNat ≤ 2 ^ (l.blockHeight.toNat + 3) * l.rows :=
    le_smul_ceilDiv (Nat.two_pow_pos _)
  have slice := fits.slice
  have powers : 2 ^ (l.blockHeight.toNat + 3) * 2 ^ 6 ≤ l.rowBytes := by
    rw [← Nat.pow_add]
    apply le_trans (Nat.pow_le_pow_right (by decide) _) (Nat.le_mul_of_pos_left _ fits.gobs_pos)
    omega
  have row := fits.row
  have lines : 2 ^ (l.blockHeight.toNat + 3) * l.rows * 2 ^ 6 ≤ l.rows * l.rowBytes := by
    calc 2 ^ (l.blockHeight.toNat + 3) * l.rows * 2 ^ 6
        = l.rows * (2 ^ (l.blockHeight.toNat + 3) * 2 ^ 6) := by ring
      _ ≤ l.rows * l.rowBytes := Nat.mul_le_mul_left _ powers
  have rows : (divCeilLog2 l.height (l.blockHeight + gobSizeYShift)).toNat = l.rows := by
    rw [toNat_divCeilLog2 (by omega) (by rw [exponent]; omega), exponent]
    rfl
  rw [sliceSize, fits.blockSize_eq, ofNat_mul, ← rows, ofNat_toNat, setWidth_eq]

theorem Fits.offsetZ_eq (z : BitVec 32) :
    l.offsetZ z = BitVec.ofNat 32 (z.toNat / 2 ^ l.blockDepth.toNat * (l.rows * l.rowBytes) +
      z.toNat % 2 ^ l.blockDepth.toNat * 2 ^ (9 + l.blockHeight.toNat)) := by
  have shift := fits.shift_lt
  have exponent : (gobSizeShift + l.blockHeight).toNat = 9 + l.blockHeight.toNat := by
    rw [toNat_add, show gobSizeShift.toNat = 9 from rfl]
    omega
  have kept : z.toNat % 2 ^ l.blockDepth.toNat < 2 ^ 32 := lt_of_le_of_lt (Nat.mod_le _ _) z.isLt
  rw [offsetZ, blockDepthMask, ushiftRight_eq_ofNat, and_mask_eq_ofNat z (by omega),
    shiftLeft_eq_ofNat, exponent, toNat_ofNat, Nat.mod_eq_of_lt kept, fits.sliceSize_eq,
    ofNat_add, ofNat_mul (_ / _)]

theorem Fits.offsetY_eq (y : BitVec 32) :
    l.offsetY y = BitVec.ofNat 32 (y.toNat / 8 / 2 ^ l.blockHeight.toNat * l.rowBytes +
      y.toNat / 8 % 2 ^ l.blockHeight.toNat * 2 ^ 9) := by
  have shift := fits.shift_lt
  have block : (y >>> gobSizeYShift).toNat = y.toNat / 8 := by
    rw [ushiftRight_eq', toNat_ushiftRight, Nat.shiftRight_eq_div_pow]
    rfl
  have kept : y.toNat / 8 % 2 ^ l.blockHeight.toNat < 2 ^ 32 :=
    lt_of_le_of_lt ((Nat.mod_le _ _).trans (Nat.div_le_self _ _)) y.isLt
  rw [offsetY, ushiftRight_eq_ofNat (y >>> gobSizeYShift), block, blockHeightMask,
    and_mask_eq_ofNat _ (by omega), block, shiftLeft_eq_ofNat _ gobSizeShift, toNat_ofNat,
    Nat.mod_eq_of_lt kept, fits.blockSize_eq, show gobSizeShift.toNat = 9 from rfl,
    ofNat_add, ofNat_mul (_ / _)]

theorem Fits.offsetX_eq (x : BitVec 32) :
    l.offsetX x = BitVec.ofNat 32 (x.toNat / 64 *
      2 ^ (9 + l.blockHeight.toNat + l.blockDepth.toNat)) := by
  rw [offsetX, shiftLeft_eq_ofNat, xShift, fits.toNat_shift, ushiftRight_eq',
    toNat_ushiftRight, Nat.shiftRight_eq_div_pow]
  rfl

/-- The computed offset of a texel is the position of its first byte. -/
theorem Fits.toNat_swizzledOffset {column line slice : BitVec 32}
    (inside : l.Inside (column.toNat * l.bytesPerPixel.toNat) line.toNat slice.toNat) :
    (l.swizzledOffset (pdep swizzleXBits (column * l.bytesPerPixel)) column line slice).toNat =
      l.position (column.toNat * l.bytesPerPixel.toNat) line.toNat slice.toNat := by
  have bound := (position_lt fits inside).trans fits.surface
  have x : (column * l.bytesPerPixel).toNat = column.toNat * l.bytesPerPixel.toNat := by
    rw [toNat_mul, Nat.mod_eq_of_lt]
    exact (lt_of_lt_of_le inside.x fits.line).trans l.stride.isLt
  have gob : pdep swizzleXBits (column * l.bytesPerPixel) ||| pdep swizzleYBits line =
      BitVec.ofNat 32 (swizzleTable line.toNat (column.toNat * l.bytesPerPixel.toNat)) := by
    rw [← x, ← toNat_pdep_or, ofNat_toNat, setWidth_eq]
  rw [← Nat.mod_eq_of_lt bound, ← toNat_ofNat]
  congr 1
  rw [swizzledOffset, gob, fits.offsetZ_eq, fits.offsetY_eq, fits.offsetX_eq, x, ← ofNat_add,
    ← ofNat_add, ← ofNat_add]
  congr 1
  simp only [position, value, rowBytes, Nat.pow_add]
  ring

end

/-- The bytes of a sector stand in order. -/
theorem position_sector {x i : Nat} (sector : x % 16 + i < 16) (y z : Nat) :
    l.position (x + i) y z = l.position x y z + i := by
  have gob : (x + i) / 64 = x / 64 := by omega
  simp only [position, gob, swizzleTable_add y sector, value]
  rw [Nat.add_assoc]

/-- The bytes of a texel stand in order. -/
theorem position_add (fits : l.Fits) {column i : Nat} (inside : i < l.bytesPerPixel.toNat)
    (y z : Nat) : l.position (column * l.bytesPerPixel.toNat + i) y z =
      l.position (column * l.bytesPerPixel.toNat) y z + i := by
  have unit := fits.unit
  simp only [IsUnit, mem_cons, not_mem_nil, or_false] at unit
  apply position_sector
  rcases unit with unit | unit | unit | unit | unit <;> rw [unit] at inside ⊢ <;> omega

end Layout

end SumiEmu.VideoCore.Decoders
