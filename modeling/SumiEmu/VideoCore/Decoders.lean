/-
# The block-linear decoders

A block-linear surface is cut into blocks of GOBs. A GOB holds 64 bytes of 8 lines,
interleaved by two bit masks; a block stacks GOBs in height and in depth, and the
blocks of a slice stand in rows.

The transfer walks the texels of the linear image in order and copies each between
its linear and its block-linear offset. The interleaved part of the column is carried
along by an addition under the mask.
-/

import SumiEmu.Foundations.Deposit
import SumiEmu.Foundations.Numerals
import SumiEmu.Foundations.Transfer

namespace SumiEmu.VideoCore.Decoders

open Transfer Nat BitVec

/-! ## Arithmetic helpers -/

/-- `Common::DivCeilLog2`. -/
def divCeilLog2 (value alignmentLog2 : BitVec 32) : BitVec 32 :=
  (value + (1#32 <<< alignmentLog2) - 1) >>> alignmentLog2

/-- `Common::AlignUpLog2`, which computes in 64 bits. -/
def alignUpLog2 (value alignLog2 : BitVec 32) : BitVec 32 :=
  ((value.setWidth 64 + ((1#64 <<< alignLog2) - 1)) >>> alignLog2 <<< alignLog2).setWidth 32

/-! ## Depositing bits under a mask -/

def gobSizeXShift : BitVec 32 := 6
def gobSizeYShift : BitVec 32 := 3
def gobSizeZShift : BitVec 32 := 0
def gobSizeShift : BitVec 32 := gobSizeXShift + gobSizeYShift + gobSizeZShift

def swizzleXBits : BitVec 32 := 0b100101111
def swizzleYBits : BitVec 32 := 0b011010000

private theorem clear_lowest_lt {m : BitVec 32} (nonzero : ¬ m = 0) :
    (m &&& (m - 1)).toNat < m.toNat := by
  have positive : 0 < m.toNat := by
    apply pos_of_ne_zero
    intro zero
    exact nonzero (eq_of_toNat_eq zero)
  have pred : (m - 1).toNat = m.toNat - 1 := by
    apply toNat_sub_of_le
    rw [le_def]
    exact positive
  rw [toNat_and, pred]
  exact lt_of_le_of_lt and_le_right (sub_lt positive one_pos)

/-- The loop of `pdep`: the next bit of the value goes to the lowest bit that the mask still
has. -/
def pdepLoop (value result m bit : BitVec 32) : BitVec 32 :=
  if _ : m = 0 then
    result
  else
    pdepLoop value (if value &&& bit ≠ 0 then result ||| (m &&& (~~~m + 1)) else result)
      (m &&& (m - 1)) (bit + bit)
termination_by m.toNat
decreasing_by exact clear_lowest_lt ‹_›

/-- `pdep`. -/
def pdep (mask value : BitVec 32) : BitVec 32 := pdepLoop value 0 mask 1

/-- `incrpdep`. -/
def incrpdep (mask incrAmount value : BitVec 32) : BitVec 32 :=
  ((value ||| ~~~mask) + pdep mask incrAmount) &&& mask

/-! ## The layout of a surface -/

/-- The arguments of `SwizzleImpl` that fix the offsets. -/
structure Layout where
  bytesPerPixel : BitVec 32
  width : BitVec 32
  height : BitVec 32
  depth : BitVec 32
  blockHeight : BitVec 32
  blockDepth : BitVec 32
  stride : BitVec 32
  deriving DecidableEq, Repr

namespace Layout

variable (l : Layout)

/-- The bytes of a line. -/
def pitch : BitVec 32 := l.width * l.bytesPerPixel

/-- The GOBs across. -/
def gobsInX : BitVec 32 := divCeilLog2 l.stride gobSizeXShift

/-- The bytes of a row of blocks. -/
def blockSize : BitVec 32 := l.gobsInX <<< (gobSizeShift + l.blockHeight + l.blockDepth)

/-- The bytes of a slice. -/
def sliceSize : BitVec 32 := divCeilLog2 l.height (l.blockHeight + gobSizeYShift) * l.blockSize

def blockHeightMask : BitVec 32 := (1#32 <<< l.blockHeight) - 1

/-- The slices in a block, less one. -/
def blockDepthMask : BitVec 32 := (1#32 <<< l.blockDepth) - 1

def xShift : BitVec 32 := gobSizeShift + l.blockHeight + l.blockDepth

/-- The offset of a slice. -/
def offsetZ (z : BitVec 32) : BitVec 32 :=
  (z >>> l.blockDepth) * l.sliceSize + ((z &&& l.blockDepthMask) <<< (gobSizeShift + l.blockHeight))

/-- The offset of a line. -/
def offsetY (y : BitVec 32) : BitVec 32 :=
  let blockY := y >>> gobSizeYShift
  (blockY >>> l.blockHeight) * l.blockSize + ((blockY &&& l.blockHeightMask) <<< gobSizeShift)

/-- The offset of a column. -/
def offsetX (x : BitVec 32) : BitVec 32 := (x >>> gobSizeXShift) <<< l.xShift

/-- The offset of a texel in the block-linear surface; the origin of the transformation is
left at zero, as in the source. -/
def swizzledOffset (swizzledX column line slice : BitVec 32) : BitVec 32 :=
  let x := column * l.bytesPerPixel
  let baseSwizzledOffset := l.offsetZ slice + l.offsetY line + l.offsetX x
  baseSwizzledOffset + (swizzledX ||| pdep swizzleYBits line)

/-- The offset of a texel in the linear image. -/
def unswizzledOffset (column line slice : BitVec 32) : BitVec 32 :=
  slice * l.pitch * l.height + line * l.pitch + column * l.bytesPerPixel

/-! ## The walk over the texels -/

variable {σ : Type} (body : BitVec 32 → BitVec 32 → σ → Option σ)

/-- The loop over the columns of a line, from a column on. -/
def columnLoop (line slice : BitVec 32) : Nat → BitVec 32 → BitVec 32 → σ → Option σ
  | 0, _, _, state => some state
  | remaining + 1, column, swizzledX, state => do
    let state ← body (l.swizzledOffset swizzledX column line slice)
      (l.unswizzledOffset column line slice) state
    columnLoop line slice remaining (column + 1) (incrpdep swizzleXBits l.bytesPerPixel swizzledX)
      state

/-- The loop over the lines of a slice. -/
def lineLoop (slice : BitVec 32) : Nat → BitVec 32 → σ → Option σ
  | 0, _, state => some state
  | remaining + 1, line, state => do
    let state ← l.columnLoop body line slice l.width.toNat 0 (pdep swizzleXBits 0) state
    lineLoop slice remaining (line + 1) state

/-- The loop over the slices. -/
def sliceLoop : Nat → BitVec 32 → σ → Option σ
  | 0, _, state => some state
  | remaining + 1, slice, state => do
    let state ← l.lineLoop body slice l.height.toNat 0 state
    sliceLoop remaining (slice + 1) state

end Layout

/-- `SwizzleImpl`; an access outside a span fails. -/
def swizzleImpl (toLinear : Bool) (output input : List UInt8) (l : Layout) : Option (List UInt8) :=
  l.sliceLoop (fun swizzledOffset unswizzledOffset output =>
    let dst := if toLinear then swizzledOffset else unswizzledOffset
    let src := if toLinear then unswizzledOffset else swizzledOffset
    copyBlock l.bytesPerPixel.toNat input output ⟨dst.toNat, src.toNat⟩) l.depth.toNat 0 output

/-- `Swizzle`; a texel size without a case fails its assertion. -/
def swizzle (toLinear : Bool) (output input : List UInt8) (bytesPerPixel width height depth
    blockHeight blockDepth strideAlignment : BitVec 32) : Option (List UInt8) :=
  if bytesPerPixel ∈ [1#32, 2, 3, 4, 6, 8, 12, 16] then
    swizzleImpl toLinear output input
      ⟨bytesPerPixel, width, height, depth, blockHeight, blockDepth, strideAlignment⟩
  else
    none

/-- The number of bits by which both public functions widen the texels. -/
def newBpp (bytesPerPixel width : BitVec 32) : BitVec 32 :=
  let zeros := (width * bytesPerPixel).ctz
  if zeros < 4 then zeros else 4

/-- `UnswizzleTexture`. -/
def unswizzleTexture (output input : List UInt8) (bytesPerPixel width height depth blockHeight
    blockDepth strideAlignment : BitVec 32) : Option (List UInt8) :=
  let stride := alignUpLog2 width strideAlignment * bytesPerPixel
  let newBpp := newBpp bytesPerPixel width
  let width := (width * bytesPerPixel) >>> newBpp
  let bytesPerPixel := 1#32 <<< newBpp
  swizzle false output input bytesPerPixel width height depth blockHeight blockDepth stride

/-- `SwizzleTexture`. -/
def swizzleTexture (output input : List UInt8) (bytesPerPixel width height depth blockHeight
    blockDepth strideAlignment : BitVec 32) : Option (List UInt8) :=
  let stride := alignUpLog2 width strideAlignment * bytesPerPixel
  let newBpp := newBpp bytesPerPixel width
  let width := (width * bytesPerPixel) >>> newBpp
  let bytesPerPixel := 1#32 <<< newBpp
  swizzle true output input bytesPerPixel width height depth blockHeight blockDepth stride

end SumiEmu.VideoCore.Decoders

/-!
## The block-linear layout

Inside a GOB the deposited column and line give the offset of the sector table.
Around it the offset is a number in a mixed radix whose digits are the row of
blocks, the GOB column, the slice of the block, the GOB row of the block and the
byte of the GOB. The digits determine the texel, so texels do not overlap.
-/

namespace SumiEmu.VideoCore.Decoders

open Deposit MixedRadix Nat List BitVec

/-! ## Inside a GOB -/

/-- The entries of `MakeSwizzleTable`. -/
def swizzleTable (y x : Nat) : Nat :=
  x % 64 / 32 * 256 + y % 8 / 2 * 64 + x % 32 / 16 * 32 + y % 2 * 16 + x % 16

theorem swizzleTable_lt (y x : Nat) : swizzleTable y x < 512 := by
  unfold swizzleTable
  omega

/-- An entry of the table determines the place in the GOB. -/
theorem swizzleTable_inj {y x y' x' : Nat} (same : swizzleTable y x = swizzleTable y' x') :
    y % 8 = y' % 8 ∧ x % 64 = x' % 64 := by
  have column (x : Nat) : x % 64 = x % 64 / 32 * 32 + x % 32 / 16 * 16 + x % 16 := by omega
  have line (y : Nat) : y % 8 = y % 8 / 2 * 2 + y % 2 := by omega
  have bounds (y x : Nat) : x % 64 / 32 < 2 ∧ y % 8 / 2 < 4 ∧ x % 32 / 16 < 2 ∧ y % 2 < 2 ∧
      x % 16 < 16 := by
    omega
  obtain ⟨_, _, _, _, _⟩ := bounds y x
  obtain ⟨_, _, _, _, _⟩ := bounds y' x'
  rw [column x, column x', line y, line y']
  unfold swizzleTable at same
  generalize x % 64 / 32 = a, x' % 64 / 32 = a', y % 8 / 2 = b, y' % 8 / 2 = b' at *
  generalize x % 32 / 16 = c, x' % 32 / 16 = c', y % 2 = d, y' % 2 = d' at *
  generalize x % 16 = e, x' % 16 = e' at *
  omega

/-- The 16 bytes of a sector stand in order. -/
theorem swizzleTable_add (y : Nat) {x i : Nat} (inside : x % 16 + i < 16) :
    swizzleTable y (x + i) = swizzleTable y x + i := by
  unfold swizzleTable
  omega

def xPlaces : List (Nat × Nat) := [(0, 0), (1, 1), (2, 2), (3, 3), (4, 5), (5, 8)]

def yPlaces : List (Nat × Nat) := [(0, 4), (1, 6), (2, 7)]

theorem and_twoPow_ne_zero (value : BitVec 32) {i : Nat} (inside : i < 32) :
    value &&& BitVec.twoPow 32 i ≠ 0 ↔ value.getLsbD i = true := by
  rw [and_twoPow]
  constructor
  · intro nonzero
    by_contra clear
    exact nonzero (if_neg clear)
  · intro set zero
    rw [if_pos set] at zero
    have power := congrArg BitVec.toNat zero
    rw [toNat_twoPow_of_lt inside] at power
    exact absurd power (Nat.two_pow_pos i).ne'

/-- One round of the loop is one place of the deposit. -/
theorem pdepLoop_place {value result m bit : BitVec 32} (p : Nat × Nat) (inside : p.1 < 32)
    (nonzero : m ≠ 0) (source : bit = BitVec.twoPow 32 p.1)
    (target : m &&& (~~~m + 1) = BitVec.twoPow 32 p.2) :
    pdepLoop value result m bit = pdepLoop value (place value result p) (m &&& (m - 1))
      (bit + bit) := by
  rw [pdepLoop, dif_neg nonzero, target, source, place]
  simp only [and_twoPow_ne_zero value inside]

theorem pdepLoop_zero (value result bit : BitVec 32) : pdepLoop value result 0 bit = result := by
  rw [pdepLoop, dif_pos rfl]

theorem pdep_swizzleXBits (value : BitVec 32) :
    pdep swizzleXBits value = deposit xPlaces value := by
  rw [pdep, pdepLoop_place (0, 0) (by decide) (by decide) (by decide) (by decide),
    pdepLoop_place (1, 1) (by decide) (by decide) (by decide) (by decide),
    pdepLoop_place (2, 2) (by decide) (by decide) (by decide) (by decide),
    pdepLoop_place (3, 3) (by decide) (by decide) (by decide) (by decide),
    pdepLoop_place (4, 5) (by decide) (by decide) (by decide) (by decide),
    pdepLoop_place (5, 8) (by decide) (by decide) (by decide) (by decide)]
  exact pdepLoop_zero ..

theorem pdep_swizzleYBits (value : BitVec 32) :
    pdep swizzleYBits value = deposit yPlaces value := by
  rw [pdep, pdepLoop_place (0, 4) (by decide) (by decide) (by decide) (by decide),
    pdepLoop_place (1, 6) (by decide) (by decide) (by decide) (by decide),
    pdepLoop_place (2, 7) (by decide) (by decide) (by decide) (by decide)]
  exact pdepLoop_zero ..

/-- The number of a deposited column. -/
def columnCode (x : Nat) : Nat := x % 16 + x % 32 / 16 * 32 + x % 64 / 32 * 256

/-- What the mask of the columns leaves of a number. -/
def maskedCode (n : Nat) : Nat := n % 16 + n / 32 % 2 * 32 + n / 256 % 2 * 256

private theorem nibble (n : Nat) :
    n % 16 = n % 2 + n / 2 % 2 * 2 + n / 4 % 2 * 4 + n / 8 % 2 * 8 := by
  omega

theorem toNat_pdep_x (x : BitVec 32) : (pdep swizzleXBits x).toNat = columnCode x.toNat := by
  rw [pdep_swizzleXBits, toNat_deposit (by decide) (by decide)]
  simp only [weight, xPlaces, map_cons, map_nil, sum_cons, sum_nil,
    Nat.reducePow, Nat.div_one, Nat.mul_one, Nat.add_zero]
  rw [columnCode, nibble, show x.toNat % 32 / 16 = x.toNat / 16 % 2 from
    Nat.mod_mul_right_div_self _ 16 2, show x.toNat % 64 / 32 = x.toNat / 32 % 2 from
    Nat.mod_mul_right_div_self _ 32 2]
  simp only [Nat.add_assoc]

theorem toNat_pdep_y (y : BitVec 32) :
    (pdep swizzleYBits y).toNat = y.toNat % 8 / 2 * 64 + y.toNat % 2 * 16 := by
  rw [pdep_swizzleYBits, toNat_deposit (by decide) (by decide)]
  simp only [weight, yPlaces, map_cons, map_nil, sum_cons, sum_nil]
  omega

/-- The deposited column and line give the entry of the sector table. -/
theorem toNat_pdep_or (x y : BitVec 32) :
    (pdep swizzleXBits x ||| pdep swizzleYBits y).toNat = swizzleTable y.toNat x.toNat := by
  have apart : pdep swizzleXBits x &&& pdep swizzleYBits y = 0 := by
    rw [pdep_swizzleXBits, pdep_swizzleYBits]
    exact deposit_and_deposit (by decide) x y
  have column : columnCode x.toNat ≤ 303 := by
    unfold columnCode
    omega
  rw [← add_eq_or_of_and_eq_zero _ _ apart, toNat_add, toNat_pdep_x, toNat_pdep_y,
    mod_eq_of_lt (by omega), columnCode, swizzleTable]
  ac_rfl

/-- What remains of a word under the mask of the columns. -/
theorem toNat_and_swizzleXBits (value : BitVec 32) :
    (value &&& swizzleXBits).toNat = maskedCode value.toNat := by
  have selects : ∀ k < 32, swizzleXBits.getLsbD k = decide (k ∈ [0, 1, 2, 3, 5, 8]) := by decide
  rw [and_eq_deposit selects, toNat_deposit (by decide) (by decide)]
  simp only [weight, map_cons, map_nil, sum_cons, sum_nil, Nat.reducePow,
    Nat.div_one, Nat.mul_one, Nat.add_zero]
  rw [maskedCode, nibble]
  simp only [Nat.add_assoc]

/-- The sizes to which texels are widened. -/
def IsUnit (unit : Nat) : Prop := unit ∈ [1, 2, 4, 8, 16]

/-- With the bits outside the mask set, a carry passes over them. -/
theorem maskedCode_add (x increment : Nat) :
    maskedCode (columnCode x + 4294966992 + columnCode increment) = columnCode (x + increment) := by
  have oneGob : ∀ increment < 64, ∀ x < 64,
      maskedCode (columnCode x + 208 + columnCode increment) = columnCode (x + increment) := by
    decide +kernel
  have column (n : Nat) : columnCode n = columnCode (n % 64) := by
    unfold columnCode
    omega
  -- only the nine lowest bits of the complemented mask matter
  have period (n : Nat) : maskedCode (n + 4294966992) = maskedCode (n + 208) := by
    unfold maskedCode
    omega
  rw [add_right_comm, period, add_right_comm, column x, column increment,
    oneGob (increment % 64) (mod_lt _ (by decide)) (x % 64) (mod_lt _ (by decide)),
    column (x + increment), column, ← add_mod]

/-- The addition under the mask advances the deposited column. -/
theorem incrpdep_pdep (x increment : BitVec 32) :
    incrpdep swizzleXBits increment (pdep swizzleXBits x) = pdep swizzleXBits (x + increment) := by
  have subset : pdep swizzleXBits x &&& swizzleXBits = pdep swizzleXBits x := by
    rw [pdep_swizzleXBits]
    exact deposit_and (by decide) x
  have apart : pdep swizzleXBits x &&& ~~~swizzleXBits = 0 := by
    rw [← subset, BitVec.and_assoc]
    simp
  have wrapped (n : Nat) : maskedCode (n % 2 ^ 32) = maskedCode n := by
    unfold maskedCode
    omega
  have rounded (n : Nat) : columnCode (n % 2 ^ 32) = columnCode n := by
    unfold columnCode
    omega
  apply eq_of_toNat_eq
  rw [incrpdep, toNat_and_swizzleXBits, ← add_eq_or_of_and_eq_zero _ _ apart,
    toNat_pdep_x, toNat_add, toNat_add, toNat_add, wrapped, rounded,
    ← maskedCode_add, ← wrapped, mod_add_mod, wrapped, toNat_pdep_x, toNat_pdep_x]
  have outside : (~~~swizzleXBits).toNat = 4294966992 := by decide
  rw [outside]

end SumiEmu.VideoCore.Decoders
