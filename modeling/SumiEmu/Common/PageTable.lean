/-
# The page table of a process

For every page of the address space the table holds the physical address of the page less its
virtual address, so adding a virtual address translates it. An entry of zero stands for a page that
is not mapped. Hence a page whose physical address is its own virtual address counts as not mapped.

A traversal begins at an address and goes on by one page at a time. Its first place is the
translation of the address; the offset of the address in its page is kept on all further pages.

The pointers, block numbers and attributes that only the accesses of the processor use are left out,
and so is the page size as a variable: every table is resized with the same one.
-/

import Mathlib.Algebra.Group.Nat.Defs
import SumiEmu.Kernel.MemoryTypes

namespace SumiEmu.Common

open Nat BitVec

open Kernel (pageSize pageSize_eq)

/-- `PageTable`. -/
structure PageTable where
  numEntries : Nat
  backingAddr : Nat → BitVec 64
  bounded : numEntries * pageSize ≤ 2 ^ 64

namespace PageTable

/-- `TraversalEntry`. -/
structure TraversalEntry where
  physAddr : Nat
  blockSize : Nat
  deriving DecidableEq, Repr

/-- `TraversalContext`. -/
structure TraversalContext where
  nextPage : Nat
  nextOffset : Nat
  deriving DecidableEq, Repr

variable (t : PageTable)

/-- `ContinueTraversal`: whether the page is mapped, its entry, and the context advanced to the next
page. -/
def continueTraversal (context : TraversalContext) : Bool × TraversalEntry × TraversalContext :=
  let next := ⟨context.nextPage + 1, context.nextOffset + pageSize⟩
  if context.nextPage ≥ t.numEntries then (false, ⟨0, pageSize⟩, next)
  else
    let physAddr := t.backingAddr context.nextPage
    if physAddr = 0#64 then (false, ⟨0, pageSize⟩, next)
    else (true, ⟨(physAddr + BitVec.ofNat 64 context.nextOffset).toNat, pageSize⟩, next)

/-- `BeginTraversal`. -/
def beginTraversal (address : Nat) : Bool × TraversalEntry × TraversalContext :=
  t.continueTraversal ⟨address / pageSize, address⟩

/-- The address that `GetPhysicalAddress` stores. -/
def translate (address : Nat) : Nat :=
  (t.backingAddr (address / pageSize) + BitVec.ofNat 64 address).toNat

/-- The table has an entry for the page, other than zero. -/
def Mapped (address : Nat) : Prop :=
  address / pageSize < t.numEntries ∧ t.backingAddr (address / pageSize) ≠ 0#64

instance (t : PageTable) (address : Nat) : Decidable (t.Mapped address) :=
  inferInstanceAs (Decidable (_ ∧ _))

variable {t : PageTable} {address : Nat}

/-- A traversal that has come to an address visits the page of it. -/
theorem beginTraversal_eq (address : Nat) : t.beginTraversal address =
      (decide (t.Mapped address), ⟨if t.Mapped address then t.translate address else 0, pageSize⟩,
        ⟨(address + pageSize) / pageSize, address + pageSize⟩) := by
  have next : (address + pageSize) / pageSize = address / pageSize + 1 :=
    add_div_right address (by decide)
  rw [beginTraversal, continueTraversal, next]
  dsimp only
  split
  · next outside =>
    have unmapped : ¬ t.Mapped address := fun mapped => absurd mapped.1 (not_lt.mpr outside)
    rw [decide_eq_false unmapped, if_neg unmapped]
  · next inside =>
    split
    · next zero =>
      have unmapped : ¬ t.Mapped address := fun mapped => mapped.2 zero
      rw [decide_eq_false unmapped, if_neg unmapped]
    · next entry =>
      have mapped : t.Mapped address := ⟨Nat.lt_of_not_le inside, entry⟩
      rw [decide_eq_true mapped, if_pos mapped, translate]

/-! ## The pages of a range -/

/-- The physical address of a page, counted from the page of an address on. -/
def page (address k : Nat) : Nat :=
  t.translate ((address / pageSize + k) * pageSize)

/-- The page with the given number is touched by a range. -/
def Touches (address size k : Nat) : Prop := k * pageSize < address % pageSize + size

/-- Every page of a range has an entry in the table and is mapped to a page of memory of which all
bytes satisfy a predicate. -/
structure MapsTo (t : PageTable) (good : Nat → Bool) (address size : Nat) : Prop where
  inside : ∀ k, Touches address size k → address / pageSize + k < t.numEntries
  aligned : ∀ k, Touches address size k → t.page address k % pageSize = 0
  backed : ∀ k, Touches address size k → ∀ o < pageSize, good (t.page address k + o)

/-- No page of a range is mapped to the physical address that is its own virtual address. -/
def NowhereIdentity (address size : Nat) : Prop :=
  ∀ k, Touches address size k → t.page address k ≠ (address / pageSize + k) * pageSize

/-- Translations within one page are consecutive. -/
theorem translate_add {start o : Nat} (first : start % pageSize = 0) (below : o < pageSize)
    (aligned : t.translate start % pageSize = 0) :
    t.translate (start + o) = t.translate start + o := by
  have same : (start + o) / pageSize = start / pageSize := by
    rw [pageSize_eq] at *
    omega
  rw [translate, translate, same] at *
  rw [toNat_add, toNat_add, toNat_ofNat, toNat_ofNat] at *
  rw [pageSize_eq] at *
  omega

/-- The translation of a place in the range, by its page. -/
theorem translate_eq {i : Nat}
    (aligned : t.page address ((address % pageSize + i) / pageSize) % pageSize = 0) :
    t.translate (address + i) =
      t.page address ((address % pageSize + i) / pageSize) +
      (address % pageSize + i) % pageSize := by
  have split : address + i = (address / pageSize + (address % pageSize + i) / pageSize) * pageSize +
      (address % pageSize + i) % pageSize := by
    have whole := div_add_mod address pageSize
    have rest := div_add_mod (address % pageSize + i) pageSize
    rw [pageSize_eq] at *
    omega
  rw [split]
  exact translate_add (mul_mod_left ..) (mod_lt _ (by decide)) aligned

/-- A page is mapped to its own address exactly when its entry is zero. -/
theorem page_eq_iff {k : Nat} (inside : address / pageSize + k < t.numEntries) :
    t.page address k = (address / pageSize + k) * pageSize ↔
      t.backingAddr (address / pageSize + k) = 0#64 := by
  have small : (address / pageSize + k) * pageSize < 2 ^ 64 :=
    Nat.lt_of_lt_of_le (Nat.mul_lt_mul_of_pos_right inside (by decide : 0 < pageSize)) t.bounded
  rw [page, translate, Nat.mul_div_cancel _ (by decide)]
  constructor
  · intro same
    apply eq_of_toNat_eq
    rw [toNat_add, toNat_ofNat] at same
    have := (t.backingAddr (address / pageSize + k)).isLt
    rw [toNat_ofNat]
    omega
  · intro zero
    rw [zero, BitVec.zero_add, BitVec.toNat_ofNat, mod_eq_of_lt small]

/-- On the pages of a range, the place that a traversal from its start comes to. -/
theorem mapped_iff {good : Nat → Bool} {size k : Nat} (maps : t.MapsTo good address size)
    (touched : Touches address size k) :
    t.Mapped (address + k * pageSize) ↔ t.page address k ≠ (address / pageSize + k) * pageSize := by
  have number : (address + k * pageSize) / pageSize = address / pageSize + k :=
    add_mul_div_right _ _ (by decide)
  rw [Mapped, number]
  exact (and_iff_right (maps.inside k touched)).trans
    (not_congr (page_eq_iff (maps.inside k touched))).symm

/-- It has the offset of the first address. -/
theorem translate_page {k : Nat} (aligned : t.page address k % pageSize = 0) :
    t.translate (address + k * pageSize) = t.page address k + address % pageSize := by
  have number : (address % pageSize + k * pageSize) / pageSize = k := by
    rw [add_mul_div_right _ _ (by decide), div_eq_of_lt (mod_lt _ (by decide)), zero_add]
  have offset : (address % pageSize + k * pageSize) % pageSize = address % pageSize := by
    rw [add_mul_mod_self_right, mod_mod]
  have place : t.translate (address + k * pageSize) = _ :=
    translate_eq (by rw [number]; exact aligned)
  rwa [number, offset] at place

/-! ## Where a traversal goes -/

/-- The place that a traversal finds for a place of the range, if the places behind the one it has
come to are taken as one block: on all pages but the first it is off by the offset of the start. -/
def visited (address i : Nat) : Nat :=
  let k := (address % pageSize + i) / pageSize
  t.page address k + (address % pageSize + i) % pageSize + if k = 0 then 0 else address % pageSize

theorem visited_first {i : Nat} (below : address % pageSize + i < pageSize) :
    t.visited address i = t.page address 0 + address % pageSize + i := by
  rw [visited, div_eq_of_lt below, mod_eq_of_lt below, if_pos rfl, add_zero, add_assoc]

theorem visited_later {i k j : Nat} (number : address % pageSize + i = (k + 1) * pageSize + j)
    (below : j < pageSize) :
    t.visited address i = t.page address (k + 1) + address % pageSize + j := by
  have page : ((k + 1) * pageSize + j) / pageSize = k + 1 := by
    rw [add_comm, add_mul_div_right _ _ (by decide), div_eq_of_lt below, zero_add]
  have rest : ((k + 1) * pageSize + j) % pageSize = j := by
    rw [add_comm, add_mul_mod_self_right, mod_eq_of_lt below]
  rw [visited, number, page, rest, if_neg (succ_ne_zero k)]
  omega

/-- The traversal finds the translation if the range starts at a page border, or on its first
page. -/
theorem visited_eq_translate {i : Nat}
    (aligned : t.page address ((address % pageSize + i) / pageSize) % pageSize = 0)
    (straight : address % pageSize = 0 ∨ address % pageSize + i < pageSize) :
    t.visited address i = t.translate (address + i) := by
  rw [translate_eq aligned, visited]
  rcases straight with first | first
  · rw [first, ite_self, add_zero]
  · rw [div_eq_of_lt first, if_pos rfl, add_zero]

end PageTable

end SumiEmu.Common
