/-
# The page tables over a run

Setting an entry is seen at its page only. Over every sequence of calls, a mapped page
of either table stands for device pages with physical memory behind them, and a big
page that is marked continuous stands for physical pages that follow each other.
-/

import SumiEmu.Foundations.Packing
import SumiEmu.VideoCore.MemoryManager

namespace SumiEmu.VideoCore

open PackedFields Function Nat List

namespace DeviceMemory

/-- Physical memory stands behind a device page. -/
def Backed (device : DeviceMemory) (page : Nat) : Prop := device.compressedPhysicalPtr page ≠ 0

/-- A device page is followed by others whose physical pages follow its own. -/
def Follows (device : DeviceMemory) (page count : Nat) : Prop :=
  ∀ j < count, (device.compressedPhysicalPtr (page + j)).toNat =
    (device.compressedPhysicalPtr page).toNat + j

/-- The tables of the device memory agree with each other: pages have numbers of 32 bits,
and the tracked run of a page with memory is not empty and consists of physical pages
that follow each other. -/
structure Tracked (device : DeviceMemory) : Prop where
  page_lt : ∀ page, device.Backed page → page < 2 ^ 32
  run_pos : ∀ page, device.Backed page → 0 < (device.continuityTracker page).toNat
  run_follows : ∀ page, device.Backed page →
    device.Follows page (device.continuityTracker page).toNat

variable {device : DeviceMemory} {page count : Nat}

theorem Backed.pos (backed : device.Backed page) :
    0 < (device.compressedPhysicalPtr page).toNat := by
  apply pos_of_ne_zero
  intro zero
  exact backed (BitVec.eq_of_toNat_eq zero)

/-- The pointer of an address in a page with memory. -/
theorem Backed.getPointer_eq (backed : device.Backed page) {offset : Nat}
    (inside : offset < 2 ^ pageBits) : device.getPointer (page * 2 ^ pageBits + offset) =
      some (((device.compressedPhysicalPtr page).toNat - 1) * 2 ^ pageBits + offset) := by
  have number : (page * 2 ^ pageBits + offset) / 2 ^ pageBits = page := by
    rw [Nat.mul_comm, Nat.mul_add_div (Nat.two_pow_pos _), Nat.div_eq_of_lt inside, Nat.add_zero]
  have low : (page * 2 ^ pageBits + offset) % 2 ^ pageBits = offset :=
    mul_add_mod_of_lt inside
  rw [getPointer, number, low]
  exact if_neg backed

/-- Along pages that follow each other the pointers are consecutive. -/
theorem Follows.getPointer_add (backed : device.Backed page) (follows : device.Follows page count)
    {offset : Nat} (inside : offset < count * 2 ^ pageBits) :
    device.getPointer (page * 2 ^ pageBits + offset) =
      some (((device.compressedPhysicalPtr page).toNat - 1) * 2 ^ pageBits + offset) := by
  have inRun : offset / 2 ^ pageBits < count := Nat.div_lt_of_lt_mul (by rwa [Nat.mul_comm])
  have number := follows _ inRun
  have pos := backed.pos
  have low := Nat.mod_lt offset (Nat.two_pow_pos pageBits)
  have parts := div_add_mod' offset (2 ^ pageBits)
  generalize offset / 2 ^ pageBits = block at *
  have backedThere : device.Backed (page + block) := by
    intro zero
    rw [zero, show (0 : BitVec 32).toNat = 0 from rfl] at number
    exact absurd number (by omega)
  have there := backedThere.getPointer_eq low
  rw [add_mul, add_assoc, parts, number] at there
  rw [there, Nat.sub_add_comm pos, Nat.add_mul, Nat.add_assoc, parts]

end DeviceMemory

namespace MemoryManager

variable {g : Geometry} {m : MemoryManager} {device : DeviceMemory}

/-! ## Entries by page number -/

/-- The entry of a page. -/
def entryAt (m : MemoryManager) (isBigPage : Bool) (page : Nat) : EntryType :=
  .ofCode (field 2 ((if isBigPage then m.bigEntries else m.entries) (page / 32)) (page % 32))

theorem getEntry_eq (isBigPage : Bool) (position : Nat) :
    m.getEntry g isBigPage position =
      m.entryAt isBigPage (position / 2 ^ usedPageBits g isBigPage) := rfl

theorem ofCode_code (entry : EntryType) : EntryType.ofCode entry.code = entry := by
  cases entry <;> rfl

private theorem code_small (entry : EntryType) : entry.code &&& ones 2 = entry.code := by
  cases entry <;> rfl

private theorem field_update {b : Nat} (k : Nat) (fits : b * (k % (64 / b)) + b ≤ 64)
    (words : Nat → BitVec 64) {v : BitVec 64} (small : v &&& ones b = v) (i : Nat) :
    field b (update words (k / (64 / b)) (setField b (words (k / (64 / b))) (k % (64 / b)) v)
      (i / (64 / b))) (i % (64 / b)) =
      if i = k then v else field b (words (i / (64 / b))) (i % (64 / b)) := by
  by_cases same : i = k
  · rw [if_pos same, same, update_self, field_setField_same fits small]
  · rw [if_neg same]
    by_cases word : i / (64 / b) = k / (64 / b)
    · have place : i % (64 / b) ≠ k % (64 / b) := by
        intro equal
        exact same (by rw [← div_add_mod i (64 / b), ← div_add_mod k (64 / b), word, equal])
      rw [word, update_self, field_setField_other place small]
    · rw [update_of_ne word]

/-- Setting an entry is seen at its page only. -/
theorem entryAt_setEntry (isBigPage other : Bool) (position page : Nat) (entry : EntryType) :
    (m.setEntry g isBigPage position entry).entryAt other page =
      if other = isBigPage ∧ page = position / 2 ^ usedPageBits g isBigPage then entry
      else m.entryAt other page := by
  have changed (words : Nat → BitVec 64) := field_update (b := 2)
    (position / 2 ^ usedPageBits g isBigPage) (by omega) words (code_small entry) page
  have single (words : Nat → BitVec 64) : EntryType.ofCode (field 2 (update words
      (position / 2 ^ usedPageBits g isBigPage / 32)
      (setField 2 (words (position / 2 ^ usedPageBits g isBigPage / 32))
        (position / 2 ^ usedPageBits g isBigPage % 32) entry.code) (page / 32)) (page % 32)) =
      if page = position / 2 ^ usedPageBits g isBigPage then entry
      else .ofCode (field 2 (words (page / 32)) (page % 32)) := by
    rw [changed words, apply_ite EntryType.ofCode, ofCode_code]
  cases isBigPage <;> cases other
  · simpa [setEntry, entryAt, setField, ones] using single m.entries
  · simp [setEntry, entryAt]
  · simp [setEntry, entryAt]
  · simpa [setEntry, entryAt, setField, ones] using single m.bigEntries

theorem isBigPageContinuous_set (index i : Nat) (value : Bool) :
    (m.setBigPageContinuous index value).isBigPageContinuous i =
      if i = index then value else m.isBigPageContinuous i := by
  have small : (if value then 1 else 0 : BitVec 64) &&& ones 1 = if value then 1 else 0 := by
    cases value <;> rfl
  have changed := field_update (b := 1) index (by omega) m.bigPageContinuous small i
  have shifted (k : Nat) : (if value then 1#64 <<< k else 0) =
      (if value then 1 else 0 : BitVec 64) <<< k := by
    cases value <;> simp
  have read : (m.setBigPageContinuous index value).isBigPageContinuous i =
      ((if i = index then (if value then 1 else 0 : BitVec 64)
        else field 1 (m.bigPageContinuous (i / 64)) (i % 64)) != 0) := by
    rw [← changed, isBigPageContinuous, setBigPageContinuous]
    simp only [continuousBits, setField, field, ones, one_mul, shifted]
    rfl
  rw [read]
  by_cases same : i = index
  · rw [if_pos same, if_pos same]
    cases value <;> rfl
  · rw [if_neg same, if_neg same, isBigPageContinuous]
    simp only [continuousBits, field, ones, one_mul]
    rfl

/-! ## The invariant -/

/-- Mapped pages stand for device pages with memory, and big pages that are marked
continuous for physical pages that follow each other. -/
structure Consistent (g : Geometry) (device : DeviceMemory) (m : MemoryManager) : Prop where
  small_backed : ∀ page < 2 ^ (g.addressSpaceBits - pageBits), m.entryAt false page = .mapped →
    device.Backed (m.pageTable page).toNat
  big_backed : ∀ page < 2 ^ (g.addressSpaceBits - g.bigPageBits), m.entryAt true page = .mapped →
    ∀ j < 2 ^ (g.bigPageBits - pageBits), device.Backed ((m.bigPageTableDev page).toNat + j)
  big_follows : ∀ page < 2 ^ (g.addressSpaceBits - g.bigPageBits), m.entryAt true page = .mapped →
    m.isBigPageContinuous page = true →
    device.Follows (m.bigPageTableDev page).toNat (2 ^ (g.bigPageBits - pageBits))

theorem entryAt_initial (isBigPage : Bool) (page : Nat) :
    ({} : MemoryManager).entryAt isBigPage page = .free := by
  cases isBigPage <;> simp [entryAt, field, EntryType.ofCode]

theorem Consistent.initial : Consistent g device {} where
  small_backed page _ mapped := by
    rw [entryAt_initial] at mapped
    cases mapped
  big_backed page _ mapped := by
    rw [entryAt_initial] at mapped
    cases mapped
  big_follows page _ mapped := by
    rw [entryAt_initial] at mapped
    cases mapped

/-! ## Single pages -/

section Steps

variable {entryType : EntryType} {gpuAddr devAddr i : Nat}

theorem pageTableStep_entryAt (other : Bool) (page : Nat) :
    (pageTableStep g entryType gpuAddr devAddr m i).entryAt other page =
      if other = false ∧ page = (gpuAddr + i * 2 ^ pageBits) / 2 ^ pageBits then entryType
      else m.entryAt other page := by
  have set := entryAt_setEntry (g := g) (m := m) false other (gpuAddr + i * 2 ^ pageBits) page
    entryType
  rw [show usedPageBits g false = pageBits from rfl] at set
  rw [← set, pageTableStep]
  by_cases mapped : entryType = .mapped
  · rw [if_pos mapped]
    rfl
  · rw [if_neg mapped]

theorem setEntry_tables (isBigPage : Bool) (position : Nat) (entry : EntryType) :
    (m.setEntry g isBigPage position entry).pageTable = m.pageTable ∧
      (m.setEntry g isBigPage position entry).bigPageTableDev = m.bigPageTableDev ∧
      (m.setEntry g isBigPage position entry).bigPageContinuous = m.bigPageContinuous := by
  cases isBigPage <;> exact ⟨rfl, rfl, rfl⟩

theorem pageTableStep_bigTables (g : Geometry) (m : MemoryManager) (entryType : EntryType)
    (gpuAddr devAddr i : Nat) :
    (pageTableStep g entryType gpuAddr devAddr m i).bigPageTableDev = m.bigPageTableDev ∧
      (pageTableStep g entryType gpuAddr devAddr m i).bigPageContinuous = m.bigPageContinuous := by
  rw [pageTableStep]
  by_cases mapped : entryType = .mapped
  · rw [if_pos mapped]
    exact (setEntry_tables ..).2
  · rw [if_neg mapped]
    exact (setEntry_tables ..).2

/-- A page of an address space stands at its own index of the table. -/
theorem pageEntryIndex_eq (isBigPage : Bool) {address : Nat}
    (inside : address < 2 ^ g.addressSpaceBits)
    (fits : usedPageBits g isBigPage ≤ g.addressSpaceBits) :
    pageEntryIndex g isBigPage address = address / 2 ^ usedPageBits g isBigPage ∧
      address / 2 ^ usedPageBits g isBigPage <
        2 ^ (g.addressSpaceBits - usedPageBits g isBigPage) := by
  have below : address / 2 ^ usedPageBits g isBigPage <
      2 ^ (g.addressSpaceBits - usedPageBits g isBigPage) := by
    apply Nat.div_lt_of_lt_mul
    rwa [← Nat.pow_add, Nat.add_sub_cancel' fits]
  exact ⟨mod_eq_of_lt below, below⟩

/-- The number of a device page with memory is stored whole. -/
theorem toNat_page (tracked : device.Tracked) {page : Nat} (backed : device.Backed page) :
    (BitVec.ofNat 32 page).toNat = page := by
  rw [BitVec.toNat_ofNat, mod_eq_of_lt (tracked.page_lt page backed)]

theorem Consistent.pageTableStep (tracked : device.Tracked) (consistent : Consistent g device m)
    (inside : gpuAddr + i * 2 ^ pageBits < 2 ^ g.addressSpaceBits)
    (backed : entryType = .mapped → device.Backed (devAddr / 2 ^ pageBits + i)) :
    Consistent g device (pageTableStep g entryType gpuAddr devAddr m i) := by
  obtain ⟨index, _⟩ := pageEntryIndex_eq false inside (g.page_le.trans g.big_le)
  obtain ⟨devs, flags⟩ := pageTableStep_bigTables g m entryType gpuAddr devAddr i
  refine ⟨fun page below mapped => ?_, fun page below mapped => ?_,
    fun page below mapped continuous => ?_⟩
  · rw [pageTableStep_entryAt] at mapped
    by_cases here : page = (gpuAddr + i * 2 ^ pageBits) / 2 ^ pageBits
    · rw [if_pos ⟨rfl, here⟩] at mapped
      have number : (devAddr + i * 2 ^ pageBits) / 2 ^ cpuPageBits = devAddr / 2 ^ pageBits + i :=
        Nat.add_mul_div_right _ _ (Nat.two_pow_pos _)
      rw [MemoryManager.pageTableStep, if_pos mapped]
      simp only
      rw [index, number, here, show usedPageBits g false = pageBits from rfl, update_self,
        toNat_page tracked (backed mapped)]
      exact backed mapped
    · rw [if_neg fun both => here both.2] at mapped
      have kept := consistent.small_backed page below mapped
      have same : (MemoryManager.pageTableStep g entryType gpuAddr devAddr m i).pageTable page =
          m.pageTable page := by
        rw [MemoryManager.pageTableStep]
        split_ifs
        · simp only
          rw [index, show usedPageBits g false = pageBits from rfl, update_of_ne here,
            (setEntry_tables ..).1]
        · rw [(setEntry_tables ..).1]
      rwa [same]
  · rw [pageTableStep_entryAt, if_neg fun both => nomatch both.1] at mapped
    rw [devs]
    exact consistent.big_backed page below mapped
  · rw [pageTableStep_entryAt, if_neg fun both => nomatch both.1] at mapped
    rw [isBigPageContinuous, flags] at continuous
    rw [devs]
    exact consistent.big_follows page below mapped continuous

/-- The loop over the small pages of a big page finds that they follow each other. -/
theorem follows_of_isContinuous {devAddr : Nat} (continuous : isContinuous g device devAddr = true)
    (backed : ∀ j < 2 ^ (g.bigPageBits - pageBits), device.Backed (devAddr / 2 ^ pageBits + j)) :
    device.Follows (devAddr / 2 ^ pageBits) (2 ^ (g.bigPageBits - pageBits)) := by
  have first := backed 0 (Nat.two_pow_pos _)
  rw [add_zero] at first
  have pointer {j : Nat} (inside : j < 2 ^ (g.bigPageBits - pageBits)) :
      device.getPointer (devAddr + j * 2 ^ pageBits) =
        some (((device.compressedPhysicalPtr (devAddr / 2 ^ pageBits + j)).toNat - 1) *
          2 ^ pageBits + devAddr % 2 ^ pageBits) := by
    have there := (backed j inside).getPointer_eq (Nat.mod_lt devAddr (Nat.two_pow_pos pageBits))
    refine Eq.trans (congrArg device.getPointer ?_) there
    have parts := div_add_mod' devAddr (2 ^ pageBits)
    rw [add_mul, add_right_comm]
    exact congrArg (· + j * 2 ^ pageBits) parts.symm
  have start := pointer (Nat.two_pow_pos (g.bigPageBits - pageBits))
  rw [zero_mul, add_zero, add_zero] at start
  rw [isContinuous, start] at continuous
  simp only [all_eq_true, mem_range, beq_iff_eq] at continuous
  intro j inside
  rcases j with _ | j
  · rfl
  · have next := continuous j (by omega)
    rw [pointer inside] at next
    have sum := Option.some.inj next
    have firstPos := first.pos
    have nextPos := (backed (j + 1) inside).pos
    have quotient : ((device.compressedPhysicalPtr (devAddr / 2 ^ pageBits + (j + 1))).toNat - 1) *
        2 ^ pageBits = ((device.compressedPhysicalPtr (devAddr / 2 ^ pageBits)).toNat - 1 + (j + 1))
        * 2 ^ pageBits := by
      rw [add_mul]
      omega
    have equal := Nat.eq_of_mul_eq_mul_right (Nat.two_pow_pos _) quotient
    omega

theorem bigPageTableStep_entryAt (other : Bool) (page : Nat) :
    (bigPageTableStep g device entryType gpuAddr devAddr m i).entryAt other page =
      if other = true ∧ page = (gpuAddr + i * 2 ^ g.bigPageBits) / 2 ^ g.bigPageBits then entryType
      else m.entryAt other page := by
  have set := entryAt_setEntry (g := g) (m := m) true other (gpuAddr + i * 2 ^ g.bigPageBits) page
    entryType
  rw [show usedPageBits g true = g.bigPageBits from rfl] at set
  rw [← set, bigPageTableStep]
  by_cases mapped : entryType = .mapped
  · rw [if_pos mapped]
    rfl
  · rw [if_neg mapped]

theorem Consistent.bigPageTableStep (tracked : device.Tracked) (consistent : Consistent g device m)
    (inside : gpuAddr + i * 2 ^ g.bigPageBits < 2 ^ g.addressSpaceBits)
    (backed : entryType = .mapped → ∀ j < 2 ^ (g.bigPageBits - pageBits),
      device.Backed ((devAddr + i * 2 ^ g.bigPageBits) / 2 ^ pageBits + j)) :
    Consistent g device (bigPageTableStep g device entryType gpuAddr devAddr m i) := by
  obtain ⟨index, _⟩ := pageEntryIndex_eq true inside g.big_le
  rw [show usedPageBits g true = g.bigPageBits from rfl] at index
  have kept {page : Nat} (elsewhere : page ≠
    (gpuAddr + i * 2 ^ g.bigPageBits) / 2 ^ g.bigPageBits) :
    (MemoryManager.bigPageTableStep g device entryType gpuAddr devAddr m i).bigPageTableDev page =
    m.bigPageTableDev page ∧
      (MemoryManager.bigPageTableStep g device entryType gpuAddr devAddr m i).isBigPageContinuous
      page = m.isBigPageContinuous page := by
    obtain ⟨_, devs, flags⟩ := setEntry_tables (g := g) (m := m) true
      (gpuAddr + i * 2 ^ g.bigPageBits) entryType
    rw [MemoryManager.bigPageTableStep]
    split_ifs
    · simp only
      rw [isBigPageContinuous_set, index, if_neg elsewhere]
      refine ⟨?_, ?_⟩
      · exact (update_of_ne elsewhere ..).trans (congrFun devs page)
      · simp only [isBigPageContinuous, flags]
    · exact ⟨congrFun devs page, by simp only [isBigPageContinuous, flags]⟩
  have written (mapped : entryType = .mapped) :
      ((MemoryManager.bigPageTableStep g device entryType gpuAddr devAddr m i).bigPageTableDev
        ((gpuAddr + i * 2 ^ g.bigPageBits) / 2 ^ g.bigPageBits)).toNat =
        (devAddr + i * 2 ^ g.bigPageBits) / 2 ^ pageBits ∧
      (MemoryManager.bigPageTableStep g device entryType gpuAddr devAddr m i).isBigPageContinuous
        ((gpuAddr + i * 2 ^ g.bigPageBits) / 2 ^ g.bigPageBits) =
        isContinuous g device (devAddr + i * 2 ^ g.bigPageBits) := by
    have first := backed mapped 0 (Nat.two_pow_pos _)
    rw [add_zero] at first
    rw [MemoryManager.bigPageTableStep, if_pos mapped]
    simp only
    rw [isBigPageContinuous_set, index, if_pos rfl]
    refine ⟨?_, rfl⟩
    simp only [setBigPageContinuous, update_self]
    exact toNat_page tracked first
  refine ⟨fun page below mapped => ?_, fun page below mapped => ?_,
    fun page below mapped continuous => ?_⟩
  · rw [bigPageTableStep_entryAt, if_neg fun both => nomatch both.1] at mapped
    have same : (MemoryManager.bigPageTableStep g device entryType gpuAddr devAddr m i).pageTable =
        m.pageTable := by
      rw [MemoryManager.bigPageTableStep]
      split_ifs <;> rfl
    rw [same]
    exact consistent.small_backed page below mapped
  · rw [bigPageTableStep_entryAt] at mapped
    by_cases here : page = (gpuAddr + i * 2 ^ g.bigPageBits) / 2 ^ g.bigPageBits
    · rw [if_pos ⟨rfl, here⟩] at mapped
      rw [here, (written mapped).1]
      exact backed mapped
    · rw [if_neg fun both => here both.2] at mapped
      rw [(kept here).1]
      exact consistent.big_backed page below mapped
  · rw [bigPageTableStep_entryAt] at mapped
    by_cases here : page = (gpuAddr + i * 2 ^ g.bigPageBits) / 2 ^ g.bigPageBits
    · rw [if_pos ⟨rfl, here⟩] at mapped
      rw [here, (written mapped).2] at continuous
      rw [here, (written mapped).1]
      exact follows_of_isContinuous continuous (backed mapped)
    · rw [if_neg fun both => here both.2] at mapped
      rw [(kept here).2] at continuous
      rw [(kept here).1]
      exact consistent.big_follows page below mapped continuous

end Steps

/-! ## Ranges of pages -/

section Ranges

variable {entryType : EntryType} {gpuAddr devAddr size : Nat}

/-- A change of a range of addresses reaches a page. -/
def Spans (g : Geometry) (isBigPage : Bool) (gpuAddr size page : Nat) : Prop :=
  gpuAddr / 2 ^ usedPageBits g isBigPage ≤ page ∧
    page < gpuAddr / 2 ^ usedPageBits g isBigPage + size ⌈/⌉ 2 ^ usedPageBits g isBigPage

instance (g : Geometry) (isBigPage : Bool) (gpuAddr size page : Nat) :
    Decidable (Spans g isBigPage gpuAddr size page) := inferInstanceAs (Decidable (_ ∧ _))

/-- Every round of a loop over pages starts inside the range. -/
private theorem round_lt {b i : Nat} (below : i < size ⌈/⌉ 2 ^ b) : i * 2 ^ b < size := by
  by_contra past
  have all : size ⌈/⌉ 2 ^ b ≤ i := by
    apply (ceilDiv_le_iff_le_mul (Nat.two_pow_pos b)).mpr
    rw [mul_comm]
    omega
  omega

/-- A page that is reached has an address of the range. -/
theorem Spans.exists_address {isBigPage : Bool} {page : Nat}
    (spans : Spans g isBigPage gpuAddr size page) :
    ∃ address, gpuAddr ≤ address ∧ address < gpuAddr + size ∧
      address / 2 ^ usedPageBits g isBigPage = page := by
  obtain ⟨lower, upper⟩ := spans
  have inside : (page - gpuAddr / 2 ^ usedPageBits g isBigPage) * 2 ^ usedPageBits g isBigPage <
    size :=
    round_lt (by omega)
  refine ⟨gpuAddr + (page - gpuAddr / 2 ^ usedPageBits g isBigPage) * 2 ^ usedPageBits g isBigPage,
    le_add_right _ _, by omega, ?_⟩
  rw [Nat.add_mul_div_right _ _ (Nat.two_pow_pos _)]
  omega

theorem not_spans_zero (isBigPage : Bool) (page : Nat) : ¬ Spans g isBigPage gpuAddr 0 page := by
  rintro ⟨lower, upper⟩
  rw [zero_ceilDiv] at upper
  omega

/-- A loop that sets one page after the other sets all of them. -/
private theorem foldl_entryAt {step : MemoryManager → Nat → MemoryManager} {isBigPage : Bool}
    {first : Nat}
    (sets : ∀ (m : MemoryManager) (i : Nat) (other : Bool) (page : Nat),
    (step m i).entryAt other page =
      if other = isBigPage ∧ page = first + i then entryType else m.entryAt other page)
    (count : Nat) (other : Bool) (page : Nat) :
    ((List.range count).foldl step m).entryAt other page =
      if other = isBigPage ∧ first ≤ page ∧
      page < first + count then entryType else m.entryAt other page := by
  induction count with
  | zero => rw [if_neg (by omega), range_zero, foldl_nil]
  | succ count ih =>
    rw [range_succ, foldl_append, foldl_cons, foldl_nil, sets, ih]
    by_cases table : other = isBigPage
    · by_cases last : page = first + count
      · rw [if_pos ⟨table, last⟩, if_pos ⟨table, by omega⟩]
      · rw [if_neg fun both => last both.2]
        have earlier : first ≤ page ∧ page < first + count ↔ first ≤ page ∧
          page < first + (count + 1) := by omega
        exact if_congr (and_congr_right fun _ => earlier) rfl rfl
    · rw [if_neg fun both => table both.1, if_neg fun both => table both.1,
        if_neg fun both => table both.1]

theorem pageTableOp_entryAt (other : Bool) (page : Nat) :
    (m.pageTableOp g entryType gpuAddr devAddr size).entryAt other page =
      if other = false ∧ Spans g false gpuAddr size page then entryType
      else m.entryAt other page := by
  refine foldl_entryAt (fun m i other page => ?_) _ other page
  rw [pageTableStep_entryAt, Nat.add_mul_div_right _ _ (Nat.two_pow_pos _)]
  rfl

theorem bigPageTableOp_entryAt (other : Bool) (page : Nat) :
    (m.bigPageTableOp g device entryType gpuAddr devAddr size).entryAt other page =
      if other = true ∧ Spans g true gpuAddr size page then entryType
      else m.entryAt other page := by
  refine foldl_entryAt (fun m i other page => ?_) _ other page
  rw [bigPageTableStep_entryAt, Nat.add_mul_div_right _ _ (Nat.two_pow_pos _)]
  rfl

theorem map_entryAt (isBigPages other : Bool) (page : Nat) :
    (m.map g device gpuAddr devAddr size isBigPages).entryAt other page =
      if other = isBigPages ∧ Spans g isBigPages gpuAddr size page then .mapped
      else m.entryAt other page := by
  cases isBigPages
  · exact pageTableOp_entryAt other page
  · exact bigPageTableOp_entryAt other page

theorem mapSparse_entryAt (isBigPages other : Bool) (page : Nat) :
    (m.mapSparse g device gpuAddr size isBigPages).entryAt other page =
      if other = isBigPages ∧ Spans g isBigPages gpuAddr size page then .reserved
      else m.entryAt other page := by
  cases isBigPages
  · exact pageTableOp_entryAt other page
  · exact bigPageTableOp_entryAt other page

/-- Pages of both tables are unmapped. -/
theorem unmap_entryAt (other : Bool) (page : Nat) :
    (m.unmap g device gpuAddr size).entryAt other page =
      if Spans g other gpuAddr size page then .free else m.entryAt other page := by
  rw [unmap]
  by_cases nothing : size = 0
  · rw [if_pos nothing, nothing, if_neg (not_spans_zero other page)]
  · rw [if_neg nothing, pageTableOp_entryAt, bigPageTableOp_entryAt]
    cases other <;> simp

end Ranges

/-! ## Runs -/

/-- The calls that change the tables. -/
inductive Op
  | map (gpuAddr devAddr size : Nat) (isBigPages : Bool)
  | mapSparse (gpuAddr size : Nat) (isBigPages : Bool)
  | unmap (gpuAddr size : Nat)
  deriving DecidableEq, Repr

/-- Make a call. -/
def Op.apply (g : Geometry) (device : DeviceMemory) (m : MemoryManager) : Op → MemoryManager
  | .map gpuAddr devAddr size isBigPages => m.map g device gpuAddr devAddr size isBigPages
  | .mapSparse gpuAddr size isBigPages => m.mapSparse g device gpuAddr size isBigPages
  | .unmap gpuAddr size => m.unmap g device gpuAddr size

/-- The range of a call lies in the address space, and memory stands behind the device pages
that it maps. -/
def Op.Valid (g : Geometry) (device : DeviceMemory) : Op → Prop
  | .map gpuAddr devAddr size isBigPages => gpuAddr + size ≤ 2 ^ g.addressSpaceBits ∧
      ∀ k < size ⌈/⌉ 2 ^ usedPageBits g isBigPages * 2 ^ (usedPageBits g isBigPages - pageBits),
        device.Backed (devAddr / 2 ^ pageBits + k)
  | .mapSparse gpuAddr size _ => gpuAddr + size ≤ 2 ^ g.addressSpaceBits
  | .unmap gpuAddr size => gpuAddr + size ≤ 2 ^ g.addressSpaceBits

/-- The manager after a sequence of calls. -/
def run (g : Geometry) (device : DeviceMemory) (ops : List Op) : MemoryManager :=
  ops.foldl (Op.apply g device) {}

section Runs

variable {entryType : EntryType} {gpuAddr devAddr size : Nat}

private theorem foldl_keeps {step : MemoryManager → Nat → MemoryManager} {count : Nat}
    (keeps : ∀ m, ∀ i < count, Consistent g device m → Consistent g device (step m i))
    (consistent : Consistent g device m) :
    Consistent g device ((List.range count).foldl step m) := by
  induction count with
  | zero => exact consistent
  | succ count ih =>
    rw [range_succ, foldl_append]
    exact keeps _ count (lt_succ_self _)
      (ih fun m i below => keeps m i (lt_succ_of_lt below))

section

variable (tracked : device.Tracked)

include tracked

theorem Consistent.pageTableOp (consistent : Consistent g device m)
    (inside : gpuAddr + size ≤ 2 ^ g.addressSpaceBits)
    (backed : entryType = .mapped → ∀ k < size ⌈/⌉ 2 ^ pageBits,
      device.Backed (devAddr / 2 ^ pageBits + k)) :
    Consistent g device (m.pageTableOp g entryType gpuAddr devAddr size) := by
  refine foldl_keeps (fun m i below consistent => ?_) consistent
  have start := round_lt below
  exact consistent.pageTableStep tracked (by omega) fun mapped => backed mapped i below

theorem Consistent.bigPageTableOp (consistent : Consistent g device m)
    (inside : gpuAddr + size ≤ 2 ^ g.addressSpaceBits) (backed : entryType = .mapped →
      ∀ k < size ⌈/⌉ 2 ^ g.bigPageBits * 2 ^ (g.bigPageBits - pageBits),
        device.Backed (devAddr / 2 ^ pageBits + k)) :
    Consistent g device (m.bigPageTableOp g device entryType gpuAddr devAddr size) := by
  refine foldl_keeps (fun m i below consistent => ?_) consistent
  have start := round_lt below
  refine consistent.bigPageTableStep tracked (by omega) fun mapped j small => ?_
  have pages : 2 ^ g.bigPageBits = 2 ^ (g.bigPageBits - pageBits) * 2 ^ pageBits := by
    rw [← Nat.pow_add, Nat.sub_add_cancel (show pageBits ≤ g.bigPageBits from g.page_le)]
  rw [pages, ← Nat.mul_assoc, Nat.add_mul_div_right _ _ (Nat.two_pow_pos _), Nat.add_assoc]
  apply backed mapped
  calc i * 2 ^ (g.bigPageBits - pageBits) + j
      < i * 2 ^ (g.bigPageBits - pageBits) + 2 ^ (g.bigPageBits - pageBits) :=
        Nat.add_lt_add_left small _
    _ = (i + 1) * 2 ^ (g.bigPageBits - pageBits) := (succ_mul ..).symm
    _ ≤ _ := mul_le_mul_right _ below

/-- A call keeps the tables consistent. -/
theorem Consistent.apply (consistent : Consistent g device m) {op : Op}
    (valid : op.Valid g device) : Consistent g device (op.apply g device m) := by
  cases op with
  | map gpuAddr devAddr size isBigPages =>
    obtain ⟨inside, backed⟩ := valid
    cases isBigPages
    · rw [show usedPageBits g false = pageBits from rfl, Nat.sub_self, Nat.pow_zero,
        mul_one] at backed
      exact consistent.pageTableOp tracked inside fun _ => backed
    · exact consistent.bigPageTableOp tracked inside fun _ => backed
  | mapSparse gpuAddr size isBigPages =>
    cases isBigPages
    · exact consistent.pageTableOp tracked valid fun wrong => nomatch wrong
    · exact consistent.bigPageTableOp tracked valid fun wrong => nomatch wrong
  | unmap gpuAddr size =>
    rw [Op.apply, unmap]
    split_ifs
    · exact consistent
    · have freed : Consistent g device (m.bigPageTableOp g device .free gpuAddr 0 size) :=
        consistent.bigPageTableOp tracked valid fun wrong => nomatch wrong
      exact freed.pageTableOp tracked valid fun wrong => nomatch wrong

/-- Every sequence of calls keeps the tables consistent. -/
theorem run_consistent {ops : List Op}
    (valid : ∀ op ∈ ops, op.Valid g device) : Consistent g device (run g device ops) := by
  rw [run]
  induction ops using List.reverseRecOn with
  | nil => exact .initial
  | append_singleton ops op ih =>
    rw [foldl_append]
    exact (ih fun other member => valid other (mem_append_left _ member)).apply tracked
      (valid op (mem_append_right _ (mem_singleton_self op)))

end

end Runs

end MemoryManager

end SumiEmu.VideoCore
