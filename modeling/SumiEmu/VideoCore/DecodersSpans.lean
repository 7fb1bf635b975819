/-
# Transfers on a bounded surface

Later texels of a linear image are further on in the block-linear surface. So a transfer
of a whole image stays inside a buffer exactly if the last byte of the image does, and on
a buffer of some GOB columns this depends on the last line alone.
-/

import SumiEmu.VideoCore.DecodersRoundTrip

namespace SumiEmu.VideoCore.Decoders

open MixedRadix Transfer Nat

/-- Two numbers with one more digit each. -/
theorem digit_le {a a' r d d' : Nat} (le : a ≤ a') (below : d < r) (same : a = a' → d ≤ d') :
    a * r + d ≤ a' * r + d' ∧ (a * r + d = a' * r + d' → a = a' ∧ d = d') := by
  rcases le.lt_or_eq with less | rfl
  · have step := mul_le_mul_right r (succ_le_of_lt less)
    rw [succ_mul] at step
    exact ⟨by omega, fun equal => by omega⟩
  · exact ⟨Nat.add_le_add_left (same rfl) _, fun equal => ⟨rfl, Nat.add_left_cancel equal⟩⟩

theorem digit_lt_iff {a b r d : Nat} (below : d < r) : a * r + d < b * r ↔ a < b := by
  rw [← div_lt_iff_lt_mul (zero_lt_of_lt below), mul_comm,
    mul_add_div (zero_lt_of_lt below), div_eq_of_lt below, add_zero]

theorem ceilDiv_eq_succ {n k : Nat} (some : 0 < n) (positive : 0 < k) :
    n ⌈/⌉ k = (n - 1) / k + 1 := by
  rw [ceilDiv_eq_add_pred_div, ← add_div_right _ positive]
  congr 1
  omega

theorem mod_le_mod {k n n' : Nat} (le : n ≤ n') (same : n / k = n' / k) : n % k ≤ n' % k := by
  have split := div_add_mod n k
  have split' := div_add_mod n' k
  rw [same] at split
  omega

theorem swizzleTable_le {x y x' y' : Nat} (column : x % 64 ≤ x' % 64) (line : y % 8 ≤ y' % 8) :
    swizzleTable y x ≤ swizzleTable y' x' := by
  unfold swizzleTable
  omega

namespace Layout

variable {l : Layout} {x y z x' y' z' : Nat}

/-- Later lines and slices, and bytes further on in a line, are further on in the surface. -/
theorem position_le (fits : l.Fits) (inside : l.Inside x y z) (column : x ≤ x') (line : y ≤ y')
    (slice : z ≤ z') : l.position x y z ≤ l.position x' y' z' := by
  have lines : y / 8 ≤ y' / 8 := Nat.div_le_div_right line
  have slices : z / 2 ^ l.blockDepth.toNat ≤ z' / 2 ^ l.blockDepth.toNat :=
    Nat.div_le_div_right slice
  have rows : y / 8 / 2 ^ l.blockHeight.toNat ≤ y' / 8 / 2 ^ l.blockHeight.toNat :=
    Nat.div_le_div_right lines
  have columns : x / 64 ≤ x' / 64 := Nat.div_le_div_right column
  have first := digit_le slices (row_lt inside) fun _ => rows
  have second := digit_le first.1 (column_lt fits inside) fun _ => columns
  have third := digit_le second.1 (Nat.mod_lt z (Nat.two_pow_pos _)) fun same =>
    mod_le_mod slice (first.2 (second.2 same).1).1
  have fourth := digit_le third.1 (Nat.mod_lt (y / 8) (Nat.two_pow_pos _)) fun same =>
    mod_le_mod lines (first.2 (second.2 (third.2 same).1).1).2
  have fifth := digit_le fourth.1 (swizzleTable_lt y x) fun same => by
    obtain ⟨outer, rest⟩ := fourth.2 same
    obtain ⟨row, gob⟩ := second.2 (third.2 outer).1
    have block : y / 8 = y' / 8 := by
      rw [← div_add_mod (y / 8) (2 ^ l.blockHeight.toNat), (first.2 row).2, rest,
        div_add_mod]
    exact swizzleTable_le (mod_le_mod column gob) (mod_le_mod line block)
  exact fifth.1

/-- The offset of the last byte of the image. -/
def lastPosition (l : Layout) : Nat :=
  l.position (l.width.toNat * l.bytesPerPixel.toNat - 1) (l.height.toNat - 1) (l.depth.toNat - 1)

/-- Every texel is inside a buffer exactly if the last byte is. -/
theorem Fits.offsets_within_iff (fits : l.Fits) (width : 0 < l.width.toNat)
    (height : 0 < l.height.toNat) (depth : 0 < l.depth.toNat) {n : Nat} :
    (∀ t, l.Has t → l.offset t + l.bytesPerPixel.toNat ≤ n) ↔ l.lastPosition < n := by
  have unit := fits.unit_pos
  have less : l.bytesPerPixel.toNat - 1 < l.bytesPerPixel.toNat := sub_lt unit one_pos
  constructor
  · intro within
    have has : l.Has ⟨l.width.toNat - 1, l.height.toNat - 1, l.depth.toNat - 1⟩ :=
      ⟨sub_lt width one_pos, sub_lt height one_pos, sub_lt depth one_pos⟩
    have last := fits.offset_add has less
    have line : (l.width.toNat - 1) * l.bytesPerPixel.toNat + (l.bytesPerPixel.toNat - 1) =
        l.width.toNat * l.bytesPerPixel.toNat - 1 := by
      rw [Nat.sub_mul, Nat.one_mul]
      have := Nat.le_mul_of_pos_left l.bytesPerPixel.toNat width
      omega
    rw [line] at last
    have bound := within _ has
    rw [lastPosition, ← last]
    omega
  · intro below t has
    have inside := has.inside less
    have later := position_le fits inside (le_pred_of_lt inside.x) (le_pred_of_lt inside.y)
      (le_pred_of_lt inside.z)
    rw [← fits.offset_add has less] at later
    have bound := later.trans_lt below
    omega

/-- In a surface with a number of GOB columns and this one's rows of blocks, the last byte is
inside if and only if its GOB column is. -/
theorem lastPosition_lt_iff (height : 0 < l.height.toNat)
    (depth : 0 < l.depth.toNat) (columns : Nat) :
    l.lastPosition < columns * (l.rows * l.levels) * 2 ^ (9 + l.blockHeight.toNat +
        l.blockDepth.toNat) ↔
      (l.rows * l.levels - 1) * l.gobs + (l.width.toNat * l.bytesPerPixel.toNat - 1) / 64 <
        columns * (l.rows * l.levels) := by
  have rows : l.rows = (l.height.toNat - 1) / 8 / 2 ^ l.blockHeight.toNat + 1 := by
    rw [Layout.rows, ceilDiv_eq_succ height (Nat.two_pow_pos _), Nat.pow_add, Nat.mul_comm,
      ← Nat.div_div_eq_div_mul]
  have levels : l.levels = (l.depth.toNat - 1) / 2 ^ l.blockDepth.toNat + 1 :=
    ceilDiv_eq_succ depth (Nat.two_pow_pos _)
  have last : (l.depth.toNat - 1) / 2 ^ l.blockDepth.toNat * l.rows +
      (l.height.toNat - 1) / 8 / 2 ^ l.blockHeight.toNat = l.rows * l.levels - 1 := by
    rw [levels, mul_succ, mul_comm, rows]
    rfl
  have power : 2 ^ (9 + l.blockHeight.toNat + l.blockDepth.toNat) =
      2 ^ l.blockDepth.toNat * (2 ^ l.blockHeight.toNat * 512) := by
    rw [pow_add, pow_add]
    ring
  simp only [lastPosition, position, value]
  rw [last, power, ← mul_assoc, ← mul_assoc, digit_lt_iff (swizzleTable_lt _ _),
    digit_lt_iff (Nat.mod_lt _ (Nat.two_pow_pos _)),
    digit_lt_iff (Nat.mod_lt _ (Nat.two_pow_pos _))]

end Layout

/-- The same for the rows of blocks: all but the last reach over the whole stride, the last
over the bytes of a line. -/
theorem last_column_lt {stride line columns rows : Nat} (positive : 0 < line) (le : line ≤ stride)
    (some : 0 < rows) (fits : stride ≤ 64 * columns) :
    (rows - 1) * (stride ⌈/⌉ 64) + (line - 1) / 64 < columns * rows := by
  have gobs : stride ⌈/⌉ 64 ≤ columns := (ceilDiv_le_iff_le_mul (by decide)).mpr fits
  have last : (line - 1) / 64 < columns := by omega
  have before := mul_le_mul_left (rows - 1) gobs
  have split : columns * rows = (rows - 1) * columns + columns := by
    rw [← Nat.succ_mul, Nat.succ_eq_add_one, Nat.sub_add_cancel some, Nat.mul_comm]
  omega

theorem last_column_lt_iff {stride line columns rows : Nat} (positive : 0 < line)
    (le : line ≤ stride) (near : stride ≤ line + 64) (some : 0 < rows) :
    (rows - 1) * (stride ⌈/⌉ 64) + (line - 1) / 64 < columns * rows ↔
      (if rows = 1 then line else stride) ≤ 64 * columns := by
  split_ifs with single
  · rw [single, Nat.sub_self, Nat.zero_mul, Nat.zero_add, Nat.mul_one]
    omega
  · constructor
    · intro below
      by_contra long
      -- a GOB too few in each of several rows is more than the last row leaves free
      have gobs : columns + 1 ≤ stride ⌈/⌉ 64 := by
        rw [ceilDiv_eq_succ (positive.trans_le le) (by decide)]
        omega
      have before := mul_le_mul_left (rows - 1) gobs
      have split : columns * rows = (rows - 1) * columns + columns := by
        rw [← Nat.succ_mul, Nat.succ_eq_add_one, Nat.sub_add_cancel some, Nat.mul_comm]
      rw [mul_succ] at before
      omega
    · exact last_column_lt positive le some

section Transfers

variable {bytesPerPixel width height depth blockHeight blockDepth strideAlignment : BitVec 32}

/-- A transfer of an image that is held whole, on a surface of some GOB columns, succeeds
exactly if the last byte of the image is in the surface. -/
theorem SizesFit.exists_transfer_iff
    (fits : SizesFit bytesPerPixel width height depth blockHeight blockDepth strideAlignment)
    (lines : 0 < height.toNat) (slices : 0 < depth.toNat) (columns rows : Nat)
    (surface image : List UInt8) (rows_eq : rows = height.toNat ⌈/⌉ 2 ^ (blockHeight.toNat + 3) *
      (depth.toNat ⌈/⌉ 2 ^ blockDepth.toNat))
    (counted : surface.length =
      columns * rows * 2 ^ (9 + blockHeight.toNat + blockDepth.toNat))
    (long : width.toNat * bytesPerPixel.toNat * height.toNat * depth.toNat ≤ image.length) :
    ((∃ result, swizzleTexture surface image bytesPerPixel width height depth blockHeight blockDepth
        strideAlignment = some result) ↔
      (rows - 1) * (strideBytes bytesPerPixel width strideAlignment ⌈/⌉ 64) +
        (width.toNat * bytesPerPixel.toNat - 1) / 64 < columns * rows) ∧
    ((∃ result, unswizzleTexture image surface bytesPerPixel width height depth blockHeight
        blockDepth strideAlignment = some result) ↔
      (rows - 1) * (strideBytes bytesPerPixel width strideAlignment ⌈/⌉ 64) +
        (width.toNat * bytesPerPixel.toNat - 1) / 64 < columns * rows) := by
  have there := fits.swizzle_eq true surface image
  have back := fits.swizzle_eq false image surface
  have widened := fits.widened
  have line := fits.line_eq
  have stride := fits.toNat_stride
  generalize layout : widenedLayout bytesPerPixel width height depth blockHeight blockDepth
    strideAlignment = l at *
  have fields : l.height = height ∧ l.depth = depth ∧ l.blockHeight = blockHeight ∧
      l.blockDepth = blockDepth := layout ▸ ⟨rfl, rfl, rfl, rfl⟩
  obtain ⟨rfl, rfl, rfl, rfl⟩ := fields
  have columns_pos : 0 < l.width.toNat := by
    have positive := fits.positive
    rw [← line] at positive
    exact Nat.pos_of_mul_pos_right positive
  have within := widened.offsets_within_iff columns_pos lines slices (n := surface.length)
  have last := l.lastPosition_lt_iff lines slices columns
  have rows_levels : l.rows * l.levels = rows := rows_eq.symm
  rw [rows_levels, ← counted, Layout.gobs, stride, line] at last
  rw [last] at within
  have image_within : ∀ t, l.Has t → l.linearOffset t + l.bytesPerPixel.toNat ≤ image.length := by
    intro t has
    have below := widened.linearOffset_add_lt has (sub_lt widened.unit_pos one_pos)
    rw [Layout.linearBytes, line] at below
    have unit := widened.unit_pos
    omega
  rw [← within]
  constructor
  · have copied : swizzleTexture surface image bytesPerPixel width l.height l.depth l.blockHeight
        l.blockDepth strideAlignment = _ := there
    rw [copied, exists_copyBlocks_iff]
    simp only [if_true, List.forall_mem_map, Layout.mem_texels]
    exact forall₂_congr fun t has => ⟨And.left, fun inside => ⟨inside, image_within t has⟩⟩
  · have copied : unswizzleTexture image surface bytesPerPixel width l.height l.depth l.blockHeight
        l.blockDepth strideAlignment = _ := back
    rw [copied, exists_copyBlocks_iff]
    simp only [Bool.false_eq_true, if_false, List.forall_mem_map, Layout.mem_texels]
    exact forall₂_congr fun t has => ⟨And.right, fun inside => ⟨image_within t has, inside⟩⟩

end Transfers

end SumiEmu.VideoCore.Decoders
