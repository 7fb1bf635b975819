/-
# The levels of a block-linear image

The size of a level is counted in GOBs, from lines whose texels take a power of two of
bytes. The transfers of a level take the block height and depth that a second rule
gives, and a download takes the actual bytes of a texel. Both rules shrink the blocks
alike, so a level fits its bytes, unless the bytes of a texel are no power of two.

Sizes are numbers here, and the results are about images for which no 32 bits of the
source overflow.
-/

import SumiEmu.VideoCore.DecodersSpans

namespace SumiEmu.VideoCore.TextureCacheUtil

open Nat List

/-! ## The sizes of the levels -/

/-- `PixelFormat`. -/
inductive PixelFormat where
  | a8b8g8r8Unorm | a8b8g8r8Snorm | a8b8g8r8Sint | a8b8g8r8Uint | r5g6b5Unorm | b5g6r5Unorm
  | a1r5g5b5Unorm | a2b10g10r10Unorm | a2b10g10r10Uint | a2r10g10b10Unorm | a1b5g5r5Unorm
  | a5b5g5r1Unorm | r8Unorm | r8Snorm | r8Sint | r8Uint | r16g16b16a16Float | r16g16b16a16Unorm
  | r16g16b16a16Snorm | r16g16b16a16Sint | r16g16b16a16Uint | b10g11r11Float | r32g32b32a32Uint
  | bc1RgbaUnorm | bc2Unorm | bc3Unorm | bc4Unorm | bc4Snorm | bc5Unorm | bc5Snorm | bc7Unorm
  | bc6hUfloat | bc6hSfloat | astc2d4x4Unorm | b8g8r8a8Unorm | r32g32b32a32Float | r32g32b32a32Sint
  | r32g32Float | r32g32Sint | r32Float | r16Float | r16Unorm | r16Snorm | r16Uint | r16Sint
  | r16g16Unorm | r16g16Float | r16g16Uint | r16g16Sint | r16g16Snorm | r32g32b32Float
  | a8b8g8r8Srgb | r8g8Unorm | r8g8Snorm | r8g8Sint | r8g8Uint | r32g32Uint | r16g16b16x16Float
  | r32Uint | r32Sint | astc2d8x8Unorm | astc2d8x5Unorm | astc2d5x4Unorm | b8g8r8a8Srgb
  | bc1RgbaSrgb | bc2Srgb | bc3Srgb | bc7Srgb | a4b4g4r4Unorm | g4r4Unorm | astc2d4x4Srgb
  | astc2d8x8Srgb | astc2d8x5Srgb | astc2d5x4Srgb | astc2d5x5Unorm | astc2d5x5Srgb | astc2d10x8Unorm
  | astc2d10x8Srgb | astc2d6x6Unorm | astc2d6x6Srgb | astc2d10x6Unorm | astc2d10x6Srgb
  | astc2d10x5Unorm | astc2d10x5Srgb | astc2d10x10Unorm | astc2d10x10Srgb | astc2d12x10Unorm
  | astc2d12x10Srgb | astc2d12x12Unorm | astc2d12x12Srgb | astc2d8x6Unorm | astc2d8x6Srgb
  | astc2d6x5Unorm | astc2d6x5Srgb | e5b9g9r9Float | d32Float | d16Unorm | x8D24Unorm | s8Uint
  | d24UnormS8Uint | s8UintD24Unorm | d32FloatS8Uint
  deriving DecidableEq, Repr

/-- `BLOCK_WIDTH_TABLE`. -/
def blockWidthTable : List Nat :=
  [1, 1, 1, 1, 1, 1, 1, 1, 1, 1, 1, 1, 1, 1, 1, 1, 1, 1, 1, 1, 1, 1, 1, 4, 4, 4, 4, 4, 4, 4, 4, 4,
   4, 4, 1, 1, 1, 1, 1, 1, 1, 1, 1, 1, 1, 1, 1, 1, 1, 1, 1, 1, 1, 1, 1, 1, 1, 1, 1, 1, 8, 8, 5, 1,
   4, 4, 4, 4, 1, 1, 4, 8, 8, 5, 5, 5, 10, 10, 6, 6, 10, 10, 10, 10, 10, 10, 12, 12, 12, 12, 8, 8,
   6, 6, 1, 1, 1, 1, 1, 1, 1, 1]

/-- `BLOCK_HEIGHT_TABLE`. -/
def blockHeightTable : List Nat :=
  [1, 1, 1, 1, 1, 1, 1, 1, 1, 1, 1, 1, 1, 1, 1, 1, 1, 1, 1, 1, 1, 1, 1, 4, 4, 4, 4, 4, 4, 4, 4, 4,
   4, 4, 1, 1, 1, 1, 1, 1, 1, 1, 1, 1, 1, 1, 1, 1, 1, 1, 1, 1, 1, 1, 1, 1, 1, 1, 1, 1, 8, 5, 4, 1,
   4, 4, 4, 4, 1, 1, 4, 8, 5, 4, 5, 5, 8, 8, 6, 6, 6, 6, 5, 5, 10, 10, 10, 10, 12, 12, 6, 6, 5, 5,
   1, 1, 1, 1, 1, 1, 1, 1]

/-- `BITS_PER_BLOCK_TABLE`. -/
def bitsPerBlockTable : List Nat :=
  [32, 32, 32, 32, 16, 16, 16, 32, 32, 32, 16, 16, 8, 8, 8, 8, 64, 64, 64, 64, 64, 32, 128, 64, 128,
   128, 64, 64, 128, 128, 128, 128, 128, 128, 32, 128, 128, 64, 64, 32, 16, 16, 16, 16, 16, 32, 32,
   32, 32, 32, 96, 32, 16, 16, 16, 16, 64, 64, 32, 32, 128, 128, 128, 32, 64, 128, 128, 128, 16, 8,
   128, 128, 128, 128, 128, 128, 128, 128, 128, 128, 128, 128, 128, 128, 128, 128, 128, 128, 128,
   128, 128, 128, 128, 128, 32, 32, 16, 32, 8, 32, 32, 64]

variable (format : PixelFormat)

/-- `DefaultBlockWidth`. -/
def defaultBlockWidth : Nat := blockWidthTable.getD format.ctorIdx 0

/-- `DefaultBlockHeight`. -/
def defaultBlockHeight : Nat := blockHeightTable.getD format.ctorIdx 0

/-- `BytesPerBlock`. -/
def bytesPerBlock : Nat := bitsPerBlockTable.getD format.ctorIdx 0 / 8

/-- `BytesPerBlockLog2`: the place of the highest bit. -/
def bytesPerBlockLog2 (bytesPerBlock : Nat) : Nat := Nat.log2 bytesPerBlock

/-- `Extent2D`. -/
structure Extent2D where
  width : Nat
  height : Nat
  deriving DecidableEq, Repr

/-- `Extent3D`. -/
structure Extent3D where
  width : Nat
  height : Nat
  depth : Nat
  deriving DecidableEq, Repr

/-- What `ImageInfo` says about a block-linear image. -/
structure ImageInfo where
  format : PixelFormat
  size : Extent3D
  block : Extent3D
  tileWidthSpacing : Nat
  levels : Nat
  deriving DecidableEq, Repr

/-- `LevelInfo`. -/
structure LevelInfo where
  size : Extent3D
  block : Extent3D
  tileSize : Extent2D
  bppLog2 : Nat
  tileWidthSpacing : Nat
  numLevels : Nat
  deriving DecidableEq, Repr

/-- `GOB_SIZE_X`. -/
abbrev gobSizeX : Nat := 64
/-- `GOB_SIZE_Y`. -/
abbrev gobSizeY : Nat := 8
/-- `GOB_SIZE_Z`. -/
abbrev gobSizeZ : Nat := 1
/-- `GOB_SIZE_X_SHIFT`. -/
abbrev gobSizeXShift : Nat := 6
/-- `GOB_SIZE_Y_SHIFT`. -/
abbrev gobSizeYShift : Nat := 3
/-- `GOB_SIZE_SHIFT`. -/
abbrev gobSizeShift : Nat := 9

/-- `Common::DivCeilLog2`. -/
def divCeilLog2 (value alignmentLog2 : Nat) : Nat := value ⌈/⌉ 2 ^ alignmentLog2

/-- `Common::AlignUpLog2`. -/
def alignUpLog2 (value alignLog2 : Nat) : Nat := value ⌈/⌉ 2 ^ alignLog2 * 2 ^ alignLog2

/-- The loop of `AdjustTileSize`, from a shift that was just lowered. -/
def adjustTileSizeLoop (dimension : Nat) : Nat → Nat → Nat
  | 0, _ => 0
  | shift + 1, x =>
    if x >>> 1 < dimension then shift + 1 else adjustTileSizeLoop dimension shift (x >>> 1)

/-- `AdjustTileSize` of one dimension. -/
def adjustTileSize (shift unitFactor dimension : Nat) : Nat :=
  if shift = 0 then
    0
  else
    let x := unitFactor <<< (shift - 1)
    if dimension ≤ x then adjustTileSizeLoop dimension (shift - 1) x else shift

/-- The inner loop of `AdjustMipBlockSize`. -/
def shrinkBlockSize (gobExtent numTiles : Nat) : Nat → Nat
  | 0 => 0
  | blockSize + 1 =>
    if numTiles ≤ (1 <<< blockSize) * gobExtent then shrinkBlockSize gobExtent numTiles blockSize
    else blockSize + 1

/-- `AdjustMipBlockSize` of one dimension. -/
def adjustMipBlockSize (gobExtent numTiles blockSize : Nat) : Nat → Nat
  | 0 => shrinkBlockSize gobExtent numTiles blockSize
  | level + 1 =>
    adjustMipBlockSize gobExtent numTiles (shrinkBlockSize gobExtent numTiles blockSize) level

/-- `AdjustMipSize`. -/
def adjustMipSize (size level : Nat) : Nat := max (size >>> level) 1

namespace Extent3D

/-- `AdjustMipSize` of a size. -/
def adjustMipSize (size : Extent3D) (level : Nat) : Extent3D where
  width := TextureCacheUtil.adjustMipSize size.width level
  height := TextureCacheUtil.adjustMipSize size.height level
  depth := TextureCacheUtil.adjustMipSize size.depth level

/-- `AdjustMipBlockSize` of a block. -/
def adjustMipBlockSize (numTiles blockSize : Extent3D) (level numLevels : Nat) : Extent3D where
  width := TextureCacheUtil.adjustMipBlockSize gobSizeX numTiles.width blockSize.width level
  height := TextureCacheUtil.adjustMipBlockSize gobSizeY numTiles.height blockSize.height level
  depth :=
    if level = 0 ∧ numLevels = 1 then blockSize.depth
    else TextureCacheUtil.adjustMipBlockSize gobSizeZ numTiles.depth blockSize.depth level

/-- `AdjustTileSize` of a size. -/
def adjustTileSize (size : Extent3D) (tileSize : Extent2D) : Extent3D where
  width := size.width ⌈/⌉ tileSize.width
  height := size.height ⌈/⌉ tileSize.height
  depth := size.depth

end Extent3D

/-- `AdjustSize`. -/
def adjustSize (size level blockSize : Nat) : Nat := adjustMipSize size level ⌈/⌉ blockSize

/-- `DefaultBlockSize`. -/
def defaultBlockSize : Extent2D :=
  ⟨defaultBlockWidth format, defaultBlockHeight format⟩

/-- `GobSize`. -/
def gobSize (bppLog2 blockHeight tileWidthSpacing : Nat) : Extent2D where
  width := gobSizeXShift - bppLog2 + tileWidthSpacing
  height := gobSizeYShift + blockHeight

/-- `IsSmallerThanGobSize`. -/
def isSmallerThanGobSize (numTiles : Extent3D) (gob : Extent2D) (blockDepth : Nat) : Bool :=
  numTiles.width ≤ 1 <<< gob.width || numTiles.height ≤ 1 <<< gob.height ||
    numTiles.depth < 1 <<< blockDepth

/-- `StrideAlignment`. -/
def strideAlignment (numTiles block : Extent3D) (gob : Extent2D) (bppLog2 : Nat) : Nat :=
  if isSmallerThanGobSize numTiles gob block.depth then gobSizeXShift - bppLog2 else gob.width

namespace LevelInfo

variable (info : LevelInfo) (level : Nat)

/-- `NumLevelBlocks`: the extent of a level in blocks of the format. -/
def numLevelBlocks : Extent3D where
  width := adjustSize info.size.width level info.tileSize.width <<< info.bppLog2
  height := adjustSize info.size.height level info.tileSize.height
  depth := adjustMipSize info.size.depth level

/-- `TileShift`: the block of a level, shrunk unless the image has one level only. -/
def tileShift : Extent3D :=
  if level = 0 ∧ info.numLevels = 1 then
    info.block
  else
    let blocks := info.numLevelBlocks level
    { width := adjustTileSize info.block.width gobSizeX blocks.width
      height := adjustTileSize info.block.height gobSizeY blocks.height
      depth := adjustTileSize info.block.depth gobSizeZ blocks.depth }

/-- `NumGobs`: the GOBs across and down a level, with the spacing of its tiles. -/
def numGobs : Extent2D :=
  let blocks := info.numLevelBlocks level
  let gobs : Extent2D :=
    ⟨divCeilLog2 blocks.width gobSizeXShift, divCeilLog2 blocks.height gobSizeYShift⟩
  let gob := gobSize info.bppLog2 info.block.height info.tileWidthSpacing
  let isSmall := isSmallerThanGobSize blocks gob info.block.depth
  let alignment := if isSmall then 0 else info.tileWidthSpacing
  ⟨alignUpLog2 gobs.width alignment, gobs.height⟩

/-- `LevelTiles`: the extent of a level in tiles. -/
def levelTiles : Extent3D :=
  let blocks := info.numLevelBlocks level
  let tileShift := info.tileShift level
  let gobs := info.numGobs level
  { width := divCeilLog2 gobs.width tileShift.width
    height := divCeilLog2 gobs.height tileShift.height
    depth := divCeilLog2 blocks.depth tileShift.depth }

/-- `CalculateLevelSize`. -/
def calculateLevelSize : Nat :=
  let tileShift := info.tileShift level
  let tiles := info.levelTiles level
  let numTiles := tiles.width * tiles.height * tiles.depth
  let shift := gobSizeShift + tileShift.width + tileShift.height + tileShift.depth
  numTiles <<< shift

/-- `CalculateLevelSizes`. -/
def calculateLevelSizes (numLevels : Nat) : List Nat :=
  (List.range numLevels).map info.calculateLevelSize

end LevelInfo

/-- `CalculateLevelBytes`. -/
def calculateLevelBytes (sizes : List Nat) (numLevels : Nat) : Nat := (sizes.take numLevels).sum

/-- `MakeLevelInfo`. -/
def makeLevelInfo (info : ImageInfo) : LevelInfo where
  size := info.size
  block := info.block
  tileSize := defaultBlockSize info.format
  bppLog2 := bytesPerBlockLog2 (bytesPerBlock info.format)
  tileWidthSpacing := info.tileWidthSpacing
  numLevels := info.levels

/-- `AlignLayerSize`. -/
def alignLayerSize (sizeBytes : Nat) (size block : Extent3D) (tileSizeY tileWidthSpacing : Nat) :
    Nat :=
  if 0 < tileWidthSpacing then
    alignUpLog2 sizeBytes (gobSizeShift + tileWidthSpacing + block.height + block.depth)
  else
    let alignedHeight := size.height ⌈/⌉ tileSizeY * tileSizeY
    let blockHeight := shrinkBlockSize gobSizeY alignedHeight block.height
    let blockDepth := shrinkBlockSize gobSizeZ size.depth block.depth
    let blockShift := gobSizeShift + blockHeight + blockDepth
    let numBlocks := sizeBytes >>> blockShift
    if sizeBytes ≠ numBlocks <<< blockShift then (numBlocks + 1) <<< blockShift else sizeBytes

/-! ## The transfers of a level -/

namespace ImageInfo

variable (info : ImageInfo) (level : Nat)

/-- The tiles of a level, as both transfers count them. -/
def numTiles : Extent3D :=
  (info.size.adjustMipSize level).adjustTileSize (defaultBlockSize info.format)

/-- The block of a level, as both transfers shrink it. -/
def mipBlock : Extent3D :=
  (info.numTiles level).adjustMipBlockSize (makeLevelInfo info).block level
    (makeLevelInfo info).numLevels

/-- The logarithm of the bytes of a block. -/
def bppLog2 : Nat := bytesPerBlockLog2 (bytesPerBlock info.format)

/-- The stride alignment of `UnswizzleImage`. -/
def unswizzleAlignment : Nat :=
  strideAlignment (info.numTiles level) info.block
    (gobSize info.bppLog2 info.block.height info.tileWidthSpacing) info.bppLog2

/-- The arguments that a transfer of a level passes on. -/
def call {α : Sort*} (transfer : BitVec 32 → BitVec 32 → BitVec 32 → BitVec 32 → BitVec 32 →
    BitVec 32 → BitVec 32 → α) (bytesPerPixel strideAlignment : Nat) : α :=
  transfer (.ofNat 32 bytesPerPixel) (.ofNat 32 (info.numTiles level).width)
    (.ofNat 32 (info.numTiles level).height) (.ofNat 32 (info.numTiles level).depth)
    (.ofNat 32 (info.mipBlock level).height) (.ofNat 32 (info.mipBlock level).depth)
    (.ofNat 32 strideAlignment)

/-- `SwizzleBlockLinearImage`, one layer of a level: the actual bytes of a texel, and the
default stride alignment. -/
def swizzleLevel (dst src : List UInt8) : Option (List UInt8) :=
  info.call level (Decoders.swizzleTexture dst src) (bytesPerBlock info.format) 1

/-- `UnswizzleImage`, one layer of a level. -/
def unswizzleLevel (dst src : List UInt8) : Option (List UInt8) :=
  info.call level (Decoders.unswizzleTexture dst src) (1 <<< info.bppLog2)
    (info.unswizzleAlignment level)

/-- The size of a level. -/
def levelSize : Nat := (makeLevelInfo info).calculateLevelSize level

/-- The offset of a level in its layer. -/
def guestOffset : Nat :=
  calculateLevelBytes ((makeLevelInfo info).calculateLevelSizes info.levels) level

/-- The bytes from one layer to the next. -/
def layerStride : Nat :=
  alignLayerSize (info.guestOffset info.levels) info.size (makeLevelInfo info).block
    (defaultBlockSize info.format).height info.tileWidthSpacing

/-- The host bytes of a layer of a level. -/
def hostBytesPerLayer (bytesPerPixel : Nat) : Nat :=
  (info.numTiles level).width * (info.numTiles level).height * (info.numTiles level).depth *
    bytesPerPixel

/-- No 32 bits overflow: neither a size of the image, nor a shift, nor a size of a transfer,
nor the bytes of a layer. -/
structure NoOverflow : Prop where
  width : info.size.width < 2 ^ 32
  height : info.size.height < 2 ^ 32
  depth : info.size.depth < 2 ^ 32
  blockWidth : gobSizeX <<< (info.block.width - 1) < 2 ^ 32
  blockDepth : info.block.depth < 32
  gobWidth : (gobSize info.bppLog2 info.block.height info.tileWidthSpacing).width < 32
  gobHeight : (gobSize info.bppLog2 info.block.height info.tileWidthSpacing).height < 32
  swizzle : ∀ level < info.levels,
    info.call level Decoders.SizesFit (bytesPerBlock info.format) 1
  unswizzle : ∀ level < info.levels,
    info.call level Decoders.SizesFit (1 <<< info.bppLog2) (info.unswizzleAlignment level)
  layer : info.layerStride < 2 ^ 32

/-- Each level fits its guest range: on a span of the level's size both transfers of the
whole level succeed, and the ranges of a layer lie apart and inside the layer. -/
structure EachLevelFits : Prop where
  swizzle : ∀ level < info.levels, ∀ dst src : List UInt8, dst.length = info.levelSize level →
    info.hostBytesPerLayer level (bytesPerBlock info.format) ≤ src.length →
    ∃ result, info.swizzleLevel level dst src = some result
  unswizzle : ∀ level < info.levels, ∀ dst src : List UInt8, src.length = info.levelSize level →
    info.hostBytesPerLayer level (1 <<< info.bppLog2) ≤ dst.length →
    ∃ result, info.unswizzleLevel level dst src = some result
  apart : ∀ level later, level < later → later < info.levels →
    info.guestOffset level + info.levelSize level ≤ info.guestOffset later
  inside : ∀ level < info.levels, info.guestOffset level + info.levelSize level ≤ info.layerStride

end ImageInfo

/-! ## Shrinking -/

theorem shrinkBlockSize_le (gobExtent numTiles blockSize : Nat) :
    shrinkBlockSize gobExtent numTiles blockSize ≤ blockSize := by
  induction blockSize with
  | zero => exact le_rfl
  | succ blockSize ih =>
    rw [shrinkBlockSize]
    split_ifs
    · exact ih.trans (le_succ blockSize)
    · exact le_rfl

/-- A block that was shrunk still covers the tiles. -/
theorem shrinkBlockSize_covers (gobExtent numTiles blockSize : Nat) :
    shrinkBlockSize gobExtent numTiles blockSize = blockSize ∨
      numTiles ≤ 2 ^ shrinkBlockSize gobExtent numTiles blockSize * gobExtent := by
  induction blockSize with
  | zero => exact .inl rfl
  | succ blockSize ih =>
    rw [shrinkBlockSize, one_shiftLeft]
    split_ifs with small
    · rcases ih with same | covers
      · exact .inr (same.symm ▸ small)
      · exact .inr covers
    · exact .inl rfl

theorem shrinkBlockSize_idem (gobExtent numTiles blockSize : Nat) :
    shrinkBlockSize gobExtent numTiles (shrinkBlockSize gobExtent numTiles blockSize) =
      shrinkBlockSize gobExtent numTiles blockSize := by
  induction blockSize with
  | zero => rfl
  | succ blockSize ih =>
    rw [shrinkBlockSize]
    split_ifs with small
    · exact ih
    · rw [shrinkBlockSize, if_neg small]

theorem adjustMipBlockSize_eq (gobExtent numTiles blockSize level : Nat) :
    adjustMipBlockSize gobExtent numTiles blockSize level =
      shrinkBlockSize gobExtent numTiles blockSize := by
  induction level generalizing blockSize with
  | zero => rfl
  | succ level ih => rw [adjustMipBlockSize, ih, shrinkBlockSize_idem]

theorem adjustTileSizeLoop_eq (unitFactor dimension shift : Nat) :
    adjustTileSizeLoop dimension shift (2 ^ shift * unitFactor) =
      shrinkBlockSize unitFactor dimension shift := by
  induction shift with
  | zero => rfl
  | succ shift ih =>
    have half : (2 ^ (shift + 1) * unitFactor) >>> 1 = 2 ^ shift * unitFactor := by
      rw [shiftRight_eq_div_pow, pow_succ, pow_one, mul_right_comm,
        Nat.mul_div_cancel _ Nat.two_pos]
    rw [adjustTileSizeLoop, half, ih, shrinkBlockSize, one_shiftLeft]
    split_ifs with below covers covers
    · omega
    · rfl
    · rfl
    · omega

/-- The two rules shrink alike. -/
theorem adjustTileSize_eq (shift unitFactor dimension : Nat) :
    adjustTileSize shift unitFactor dimension = shrinkBlockSize unitFactor dimension shift := by
  cases shift with
  | zero => rfl
  | succ shift =>
    rw [adjustTileSize, if_neg (succ_ne_zero shift), succ_sub_one, shiftLeft_eq,
      mul_comm]
    dsimp only
    rw [adjustTileSizeLoop_eq, shrinkBlockSize, one_shiftLeft]

/-! ## Counting -/

open Decoders (ceilDiv_eq_succ)

theorem ceilDiv_ceilDiv {n a b : Nat} (left : 0 < a) (right : 0 < b) :
    n ⌈/⌉ a ⌈/⌉ b = n ⌈/⌉ (a * b) := by
  apply eq_of_forall_ge_iff
  intro c
  rw [ceilDiv_le_iff_le_mul right, ceilDiv_le_iff_le_mul left,
    ceilDiv_le_iff_le_mul (mul_pos left right), mul_assoc]

theorem le_alignUpLog2 (value alignLog2 : Nat) : value ≤ alignUpLog2 value alignLog2 := by
  rw [alignUpLog2, mul_comm]
  exact le_smul_ceilDiv (Nat.two_pow_pos _)

/-- A stride that is aligned no further than the GOB columns stays inside them. -/
theorem alignUpLog2_mul_le {width a b columns : Nat} (covered : width * 2 ^ b ≤ 64 * columns)
    (divides : 2 ^ (a + b) ∣ 64 * columns) : alignUpLog2 width a * 2 ^ b ≤ 64 * columns := by
  obtain ⟨count, total⟩ := divides
  have positive := Nat.two_pow_pos b
  rw [total, pow_add, mul_right_comm] at covered ⊢
  have few := le_of_mul_le_mul_right covered positive
  apply Nat.mul_le_mul_right
  rw [alignUpLog2, mul_comm]
  apply Nat.mul_le_mul_left
  exact (ceilDiv_le_iff_le_mul (Nat.two_pow_pos _)).mpr few

/-- What the tables say about a format. -/
theorem format_spec : (0 < bytesPerBlock format ∧ bytesPerBlock format ≤ 16 ∧
      bytesPerBlockLog2 (bytesPerBlock format) ≤ 4) ∧
    0 < defaultBlockWidth format ∧ 0 < defaultBlockHeight format := by
  cases format <;> decide +kernel

namespace ImageInfo

variable (info : ImageInfo) (level : Nat)

theorem mipBlock_height : (info.mipBlock level).height =
    shrinkBlockSize gobSizeY (info.numTiles level).height info.block.height :=
  adjustMipBlockSize_eq ..

/-- The blocks that a level's size counts are as deep as those of the transfers, and at
least as tall; where they are taller, one of the transfers' covers all lines. -/
theorem tileShift_spec : let shift := (makeLevelInfo info).tileShift level
    shift.depth = (info.mipBlock level).depth ∧
      (info.mipBlock level).height ≤ shift.height ∧
      (shift.height = (info.mipBlock level).height ∨
        (info.numTiles level).height ≤ 2 ^ (info.mipBlock level).height * gobSizeY) := by
  intro shift
  by_cases single : level = 0 ∧ info.levels = 1
  · have same : shift = info.block := if_pos single
    rw [same, mipBlock_height]
    refine ⟨(if_pos single).symm, shrinkBlockSize_le .., ?_⟩
    rcases shrinkBlockSize_covers gobSizeY (info.numTiles level).height info.block.height with
      same | covers
    · exact .inl same.symm
    · exact .inr covers
  · have height : shift.height = (info.mipBlock level).height := by
      rw [mipBlock_height, ← adjustTileSize_eq]
      exact congrArg Extent3D.height (if_neg single)
    have depth : shift.depth = (info.mipBlock level).depth := by
      have mip : (info.mipBlock level).depth = _ := if_neg single
      rw [mip, adjustMipBlockSize_eq, ← adjustTileSize_eq]
      exact congrArg Extent3D.depth (if_neg single)
    exact ⟨depth, height.ge, .inl height⟩

theorem numTiles_pos (info : ImageInfo) (level : Nat) : 0 < (info.numTiles level).width ∧
    0 < (info.numTiles level).height ∧ 0 < (info.numTiles level).depth := by
  obtain ⟨_, width, height⟩ := format_spec info.format
  have some (size : Nat) : 0 < adjustMipSize size level := lt_max_of_lt_right one_pos
  have tiles (size : Nat) {tile : Nat} (positive : 0 < tile) :
      0 < adjustMipSize size level ⌈/⌉ tile := by
    rw [ceilDiv_eq_succ (some size) positive]
    exact succ_pos _
  exact ⟨tiles _ width, tiles _ height, some _⟩

theorem numTiles_le (info : ImageInfo) (level : Nat) :
    (info.numTiles level).width ≤ max info.size.width 1 ∧
    (info.numTiles level).height ≤ max info.size.height 1 ∧
    (info.numTiles level).depth ≤ max info.size.depth 1 := by
  obtain ⟨_, width, height⟩ := format_spec info.format
  have mip (size : Nat) : adjustMipSize size level ≤ max size 1 := by
    apply max_le_max_right
    rw [shiftRight_eq_div_pow]
    exact div_le_self _ _
  have tiles (size : Nat) {tile : Nat} (positive : 0 < tile) :
      adjustMipSize size level ⌈/⌉ tile ≤ max size 1 :=
    ((ceilDiv_le_iff_le_mul positive).mpr (Nat.le_mul_of_pos_left _ positive)).trans (mip size)
  exact ⟨tiles _ width, tiles _ height, mip _⟩

/-- The GOB columns that a level's size counts for a row of blocks. Where the counted
blocks are taller, the rows that no line reaches leave as much as further columns. -/
def gobColumns (info : ImageInfo) (level : Nat) : Nat :=
  let shift := (makeLevelInfo info).tileShift level
  ((makeLevelInfo info).levelTiles level).width <<< shift.width <<<
    (shift.height - (info.mipBlock level).height)

/-- The rows of blocks of a level. -/
def blockRows (info : ImageInfo) (level : Nat) : Nat :=
  (info.numTiles level).height ⌈/⌉ 2 ^ ((info.mipBlock level).height + 3) *
    ((info.numTiles level).depth ⌈/⌉ 2 ^ (info.mipBlock level).depth)

section

variable (info : ImageInfo)

variable (level : Nat)

theorem blockRows_pos : 0 < info.blockRows level := by
  obtain ⟨_, height, depth⟩ := numTiles_pos info level
  rw [blockRows, ceilDiv_eq_succ height (Nat.two_pow_pos _),
    ceilDiv_eq_succ depth (Nat.two_pow_pos _)]
  exact mul_pos (succ_pos _) (succ_pos _)

/-- A level's size, in the rows of blocks of the transfers. -/
theorem levelSize_eq : info.levelSize level = info.gobColumns level * info.blockRows level *
      2 ^ (9 + (info.mipBlock level).height + (info.mipBlock level).depth) := by
  obtain ⟨depth, taller, height⟩ := tileShift_spec info level
  obtain ⟨_, lines, _⟩ := numTiles_pos info level
  have rows : ((makeLevelInfo info).levelTiles level).height =
      (info.numTiles level).height ⌈/⌉ 2 ^ ((info.mipBlock level).height + 3) := by
    have tiles : ((makeLevelInfo info).levelTiles level).height =
        (info.numTiles level).height ⌈/⌉ 2 ^ 3 ⌈/⌉
          2 ^ ((makeLevelInfo info).tileShift level).height := rfl
    rw [tiles, ceilDiv_ceilDiv (Nat.two_pow_pos _) (Nat.two_pow_pos _), ← Nat.pow_add, Nat.add_comm]
    rcases height with same | covers
    · rw [same]
    · -- one block covers the lines, and so does a taller one
      have small : (info.numTiles level).height ≤ 2 ^ ((info.mipBlock level).height + 3) := by
        rw [pow_add]
        exact covers
      have large := small.trans (Nat.pow_le_pow_right Nat.two_pos (Nat.add_le_add_right taller 3))
      rw [ceilDiv_eq_succ lines (Nat.two_pow_pos _), ceilDiv_eq_succ lines (Nat.two_pow_pos _),
        div_eq_of_lt (by omega), div_eq_of_lt (by omega)]
  have slices : ((makeLevelInfo info).levelTiles level).depth =
      (info.numTiles level).depth ⌈/⌉ 2 ^ (info.mipBlock level).depth := by
    rw [← depth]
    rfl
  rw [levelSize, LevelInfo.calculateLevelSize]
  rw [rows, slices, gobColumns, blockRows, depth]
  simp only [shiftLeft_eq]
  have raised : 2 ^ ((makeLevelInfo info).tileShift level).height =
      2 ^ (((makeLevelInfo info).tileShift level).height - (info.mipBlock level).height) *
        2 ^ (info.mipBlock level).height := by
    rw [← Nat.pow_add, Nat.sub_add_cancel taller]
  simp only [pow_add, raised]
  ring

/-! ## A level's lines -/

theorem numLevelBlocks_eq : (makeLevelInfo info).numLevelBlocks level =
      { info.numTiles level with width := (info.numTiles level).width <<< info.bppLog2 } := rfl

theorem numGobs_le_gobColumns :
    ((makeLevelInfo info).numGobs level).width ≤ info.gobColumns level := by
  have aligned := le_alignUpLog2 ((makeLevelInfo info).numGobs level).width
    ((makeLevelInfo info).tileShift level).width
  rw [gobColumns, shiftLeft_eq, shiftLeft_eq]
  exact aligned.trans (Nat.le_mul_of_pos_right _ (Nat.two_pow_pos _))

/-- The counted columns cover a line whose texels take a power of two of bytes. -/
theorem line_le_numGobs : (info.numTiles level).width * 2 ^ info.bppLog2 ≤
      64 * ((makeLevelInfo info).numGobs level).width := by
  have gobs : (info.numTiles level).width * 2 ^ info.bppLog2 ≤
      64 * divCeilLog2 ((info.numTiles level).width <<< info.bppLog2) gobSizeXShift := by
    rw [shiftLeft_eq]
    exact le_smul_ceilDiv (Nat.two_pow_pos 6)
  exact gobs.trans (mul_le_mul_left 64 (le_alignUpLog2 _ _))

/-- A level that is small for the count of GOBs is small for the stride alignment, so an
upload aligns its stride no further than the counted columns. -/
theorem unswizzleAlignment_dvd : 2 ^ (info.unswizzleAlignment level + info.bppLog2) ∣
      64 * ((makeLevelInfo info).numGobs level).width := by
  have bpp : info.bppLog2 ≤ 4 := (format_spec info.format).1.2.2
  by_cases small : isSmallerThanGobSize (info.numTiles level)
      (gobSize info.bppLog2 info.block.height info.tileWidthSpacing) info.block.depth = true
  · have alignment : info.unswizzleAlignment level = 6 - info.bppLog2 := if_pos small
    rw [alignment, Nat.sub_add_cancel (by omega)]
    exact dvd_mul_right _ _
  · have alignment : info.unswizzleAlignment level = 6 - info.bppLog2 + info.tileWidthSpacing :=
      if_neg small
    have blocks_large : ¬ isSmallerThanGobSize ((makeLevelInfo info).numLevelBlocks level)
        (gobSize info.bppLog2 info.block.height info.tileWidthSpacing) info.block.depth = true := by
      intro blocks_small
      apply small
      have wider : (info.numTiles level).width ≤ (info.numTiles level).width <<< info.bppLog2 := by
        rw [shiftLeft_eq]
        exact Nat.le_mul_of_pos_right _ (Nat.two_pow_pos _)
      rw [numLevelBlocks_eq] at blocks_small
      simp only [isSmallerThanGobSize, Bool.or_eq_true, decide_eq_true_eq] at blocks_small ⊢
      exact blocks_small.imp_left (Or.imp_left wider.trans)
    have gobs : ((makeLevelInfo info).numGobs level).width = alignUpLog2
        (divCeilLog2 ((makeLevelInfo info).numLevelBlocks level).width gobSizeXShift)
        info.tileWidthSpacing := congrArg (alignUpLog2 _) (if_neg blocks_large)
    rw [alignment, gobs, show 6 - info.bppLog2 + info.tileWidthSpacing + info.bppLog2 =
      6 + info.tileWidthSpacing by omega, pow_add, alignUpLog2]
    exact mul_dvd_mul_left _ (dvd_mul_left _ _)

end

/-! ## The levels of a layer -/

variable {info level}

theorem le_alignLayerSize (sizeBytes : Nat) (size block : Extent3D)
    (tileSizeY tileWidthSpacing : Nat) :
    sizeBytes ≤ alignLayerSize sizeBytes size block tileSizeY tileWidthSpacing := by
  unfold alignLayerSize
  split_ifs with spaced
  · exact le_alignUpLog2 _ _
  · dsimp only
    split_ifs
    · rw [shiftRight_eq_div_pow, shiftLeft_eq, mul_comm]
      exact (Nat.lt_mul_div_succ sizeBytes (Nat.two_pow_pos _)).le
    · exact le_rfl

theorem guestOffset_eq {later : Nat} (within : later ≤ info.levels) :
    info.guestOffset later = ((List.range later).map info.levelSize).sum := by
  rw [guestOffset, calculateLevelBytes, LevelInfo.calculateLevelSizes, ← map_take,
    take_range, min_eq_left within]
  rfl

/-- A level ends where a later one begins, or before. -/
theorem guestOffset_add_le {later : Nat} (less : level < later) (within : later ≤ info.levels) :
    info.guestOffset level + info.levelSize level ≤ info.guestOffset later := by
  rw [guestOffset_eq (less.le.trans within), guestOffset_eq within]
  induction less with
  | refl => rw [range_succ, map_append, sum_append_nat, map_singleton,
      sum_singleton]
  | step less ih =>
    rw [range_succ, map_append, sum_append_nat]
    exact (ih ((le_succ _).trans within)).trans (le_add_right _ _)

/-! ## Each level fits -/

/-- The bytes that the lines of a level take in a download: those of a line, and where
another row of blocks follows all of the stride. -/
def reachedBytes (info : ImageInfo) (level : Nat) : Nat :=
  if info.blockRows level = 1 then (info.numTiles level).width * bytesPerBlock info.format
  else alignUpLog2 (info.numTiles level).width 1 * bytesPerBlock info.format

/-- The arguments of a call are numbers below `2 ^ 32`. -/
theorem NoOverflow.call_iff (fits : info.NoOverflow) {bytesPerPixel alignment : Nat}
    (unit : 0 < bytesPerPixel ∧ bytesPerPixel < 2 ^ 32) (alignment_lt : alignment < 2 ^ 32)
    (call : info.call level Decoders.SizesFit bytesPerPixel alignment)
    {surface image : List UInt8} (counted : surface.length = info.levelSize level)
    (long : info.hostBytesPerLayer level bytesPerPixel ≤ image.length) :
    let within := (info.blockRows level - 1) *
        ((alignUpLog2 (info.numTiles level).width alignment * bytesPerPixel) ⌈/⌉ 64) +
        ((info.numTiles level).width * bytesPerPixel - 1) / 64 <
      info.gobColumns level * info.blockRows level
    ((∃ result, info.call level (Decoders.swizzleTexture surface image) bytesPerPixel alignment =
      some result) ↔ within) ∧
    ((∃ result, info.call level (Decoders.unswizzleTexture image surface) bytesPerPixel alignment =
      some result) ↔ within) := by
  obtain ⟨_, lines, slices⟩ := numTiles_pos info level
  obtain ⟨width_le, height_le, depth_le⟩ := numTiles_le info level
  have width := fits.width
  have height := fits.height
  have depth := fits.depth
  have blockHeight : (info.mipBlock level).height < 2 ^ 32 := by
    have small := fits.gobHeight
    have shrunk := shrinkBlockSize_le gobSizeY (info.numTiles level).height info.block.height
    rw [← mipBlock_height] at shrunk
    simp only [gobSize] at small
    omega
  have blockDepth : (info.mipBlock level).depth < 2 ^ 32 := by
    have small := fits.blockDepth
    have shrunk : (info.mipBlock level).depth ≤ info.block.depth := by
      simp only [mipBlock, Extent3D.adjustMipBlockSize]
      split_ifs
      · exact le_rfl
      · rw [adjustMipBlockSize_eq]
        exact shrinkBlockSize_le ..
    omega
  have word {n : Nat} (small : n < 2 ^ 32) : (BitVec.ofNat 32 n).toNat = n :=
    mod_eq_of_lt small
  have size := levelSize_eq info level
  have wide := word (width_le.trans_lt (max_lt width (by decide)))
  have tall := word (height_le.trans_lt (max_lt height (by decide)))
  have deep := word (depth_le.trans_lt (max_lt depth (by decide)))
  rw [hostBytesPerLayer] at long
  rw [ImageInfo.call] at call
  have iff := call.exists_transfer_iff (by rwa [tall]) (by rwa [deep]) (info.gobColumns level)
    (info.blockRows level) surface image
    (by rw [tall, deep, word blockHeight, word blockDepth]; rfl)
    (by rw [word blockHeight, word blockDepth, counted, size])
    (by rw [wide, tall, deep, word unit.2]; exact le_of_eq_of_le (by ring) long)
  rw [Decoders.strideBytes, wide, word unit.2, word alignment_lt] at iff
  exact iff

theorem line_le_aligned (width alignment bytes : Nat) :
    width * bytes ≤ alignUpLog2 width alignment * bytes :=
  mul_le_mul_right _ (le_alignUpLog2 _ _)

/-- A download succeeds if and only if its lines stay inside the counted columns. -/
theorem NoOverflow.swizzle_iff (fits : info.NoOverflow) (within : level < info.levels)
    {dst src : List UInt8} (counted : dst.length = info.levelSize level)
    (long : info.hostBytesPerLayer level (bytesPerBlock info.format) ≤ src.length) :
    (∃ result, info.swizzleLevel level dst src = some result) ↔
      info.reachedBytes level ≤ 64 * info.gobColumns level := by
  obtain ⟨⟨some, few, -⟩, -⟩ := format_spec info.format
  have columns := (numTiles_pos info level).1
  have inside := (fits.call_iff ⟨some, by omega⟩ (by decide) (fits.swizzle level within) counted
    long).1
  have near : alignUpLog2 (info.numTiles level).width 1 ≤ (info.numTiles level).width + 1 := by
    rw [alignUpLog2, ceilDiv_eq_succ columns (by decide), pow_one]
    omega
  have stride := mul_le_mul_right (bytesPerBlock info.format) near
  rw [succ_mul] at stride
  exact inside.trans (Decoders.last_column_lt_iff (mul_pos columns some)
    (line_le_aligned ..) (by omega) (blockRows_pos info level))

/-- An upload stays inside the counted columns. -/
theorem NoOverflow.unswizzle_inside (fits : info.NoOverflow) (within : level < info.levels)
    {dst src : List UInt8} (counted : src.length = info.levelSize level)
    (long : info.hostBytesPerLayer level (1 <<< info.bppLog2) ≤ dst.length) :
    ∃ result, info.unswizzleLevel level dst src = some result := by
  have bpp : info.bppLog2 ≤ 4 := (format_spec info.format).1.2.2
  have unit : 0 < 1 <<< info.bppLog2 ∧ 1 <<< info.bppLog2 < 2 ^ 32 := by
    rw [one_shiftLeft]
    exact ⟨Nat.two_pow_pos _, Nat.pow_lt_pow_right (by decide) (by omega)⟩
  have alignment : info.unswizzleAlignment level < 2 ^ 32 := by
    have gob := fits.gobWidth
    simp only [unswizzleAlignment, strideAlignment, gobSizeXShift]
    split_ifs <;> omega
  refine (fits.call_iff unit alignment (fits.unswizzle level within) counted long).2.mpr ?_
  apply Decoders.last_column_lt (mul_pos (numTiles_pos info level).1 unit.1)
    (line_le_aligned ..) (blockRows_pos info level)
  rw [one_shiftLeft]
  exact (alignUpLog2_mul_le (line_le_numGobs info level) (unswizzleAlignment_dvd info level)).trans
    (mul_le_mul_left 64 (numGobs_le_gobColumns info level))

/-- Lines whose texels take a power of two of bytes stay inside the counted columns. -/
theorem reachedBytes_le (power : 2 ^ info.bppLog2 = bytesPerBlock info.format) :
    info.reachedBytes level ≤ 64 * info.gobColumns level := by
  have bpp : info.bppLog2 ≤ 4 := (format_spec info.format).1.2.2
  have divides : 2 ^ (1 + info.bppLog2) ∣ 64 * ((makeLevelInfo info).numGobs level).width :=
    Dvd.dvd.mul_right (pow_dvd_pow 2 (show 1 + info.bppLog2 ≤ 6 by omega)) _
  have stride := (alignUpLog2_mul_le (line_le_numGobs info level) divides).trans
    (mul_le_mul_left 64 (numGobs_le_gobColumns info level))
  rw [power] at stride
  rw [reachedBytes]
  split_ifs
  · exact (line_le_aligned ..).trans stride
  · exact stride

/-- A strip of 16 texels, 8 lines high, with a second level. -/
def stripImage (format : PixelFormat) : ImageInfo := ⟨format, ⟨16, 8, 1⟩, ⟨0, 0, 0⟩, 0, 2⟩

theorem stripImage_noOverflow {format : PixelFormat}
    (bytes : format = .a8b8g8r8Unorm ∨ format = .r32g32b32Float) :
    (stripImage format).NoOverflow where
  width := show 16 < 2 ^ 32 by decide
  height := show 8 < 2 ^ 32 by decide
  depth := show 1 < 2 ^ 32 by decide
  blockWidth := show 64 < 2 ^ 32 by decide
  blockDepth := show 0 < 32 by decide
  gobWidth := by rcases bytes with rfl | rfl <;> decide
  gobHeight := show 3 < 32 by decide
  swizzle level within := by
    have levels : level = 0 ∨ level = 1 :=
      le_one_iff_eq_zero_or_eq_one.mp (le_of_lt_succ within)
    rcases bytes with rfl | rfl <;> rcases levels with rfl | rfl <;>
      exact ⟨by decide, by decide, by decide, by decide, by decide⟩
  unswizzle level within := by
    have levels : level = 0 ∨ level = 1 :=
      le_one_iff_eq_zero_or_eq_one.mp (le_of_lt_succ within)
    rcases bytes with rfl | rfl <;> rcases levels with rfl | rfl <;>
      exact ⟨by decide, by decide, by decide, by decide, by decide⟩
  layer := by rcases bytes with rfl | rfl <;> decide

end ImageInfo

end SumiEmu.VideoCore.TextureCacheUtil
