/-
# Indices into a circle of slots

An index that runs freely denotes the slot of its remainder by the length of the circle. Indices
that are closer than this length have different slots.
-/

import Mathlib.Algebra.Group.Nat.Defs
import Mathlib.Data.Nat.Basic

namespace SumiEmu.Circle

theorem mod_ne {size i j : Nat} (lt : i < j) (near : j < i + size) : i % size ≠ j % size := by
  intro same
  have divides := Nat.sub_mod_eq_zero_of_mod_eq same.symm
  rw [Nat.mod_eq_of_lt (by omega)] at divides
  omega

/-- The distance of two indices that run freely is the one of what they count. -/
theorem toNat_sub {read write : Nat} (ordered : read ≤ write) (near : write < read + 2 ^ 64) :
    (BitVec.ofNat 64 write - BitVec.ofNat 64 read).toNat = write - read := by
  rw [BitVec.toNat_sub, BitVec.toNat_ofNat, BitVec.toNat_ofNat]
  omega

end SumiEmu.Circle
