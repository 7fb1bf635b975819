/-
# Pages and alignment

The size of a page, and the two roundings of an address to a block size.
-/

import Mathlib.Data.Nat.Basic

namespace SumiEmu.Kernel

/-- `PageSize`. -/
abbrev pageSize : Nat := 0x1000

theorem pageSize_eq : pageSize = 4096 := rfl

/-- `Common::AlignDown`. -/
def alignDown (value size : Nat) : Nat := value - value % size

/-- `Common::AlignUp`. -/
def alignUp (value size : Nat) : Nat :=
  let mod := value % size
  if mod = 0 then value - mod else value - mod + size

theorem alignDown_dvd (value size : Nat) : size ∣ alignDown value size := Nat.dvd_sub_mod value

theorem alignDown_le (value size : Nat) : alignDown value size ≤ value := Nat.sub_le ..

theorem alignDown_of_dvd {value size : Nat} (aligned : size ∣ value) :
    alignDown value size = value := by
  rw [alignDown, Nat.mod_eq_zero_of_dvd aligned, Nat.sub_zero]

theorem lt_alignDown_add {size : Nat} (positive : 0 < size) (value : Nat) :
    value < alignDown value size + size := by
  have := Nat.mod_lt value positive
  have := Nat.mod_le value size
  rw [alignDown]
  omega

/-- The multiple of the size that a value is not a whole size behind. -/
theorem eq_alignDown {value size multiple : Nat} (aligned : size ∣ multiple)
    (lower : multiple ≤ value)
    (upper : value < multiple + size) : multiple = alignDown value size := by
  obtain ⟨k, rfl⟩ := aligned
  have whole := Nat.div_add_mod value size
  have quotient : value / size = k := by
    rw [Nat.div_eq_iff (by omega)]
    rw [Nat.mul_comm] at lower upper
    omega
  rw [quotient] at whole
  rw [alignDown]
  omega

theorem alignUp_dvd (value size : Nat) : size ∣ alignUp value size := by
  have down : size ∣ value - value % size := alignDown_dvd value size
  rw [alignUp]
  split
  · exact down
  · exact Nat.dvd_add down (Nat.dvd_refl size)

theorem alignUp_of_dvd {value size : Nat} (aligned : size ∣ value) :
    alignUp value size = value := by
  rw [alignUp, Nat.mod_eq_zero_of_dvd aligned]
  rfl

theorem le_alignUp {size : Nat} (positive : 0 < size) (value : Nat) :
    value ≤ alignUp value size := by
  have := Nat.mod_lt value positive
  rw [alignUp]
  split <;> omega

end SumiEmu.Kernel
