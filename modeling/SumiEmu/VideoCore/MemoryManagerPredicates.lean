/-
# The fast-path predicates of the GPU's page tables

`IsFullyMappedRange` lets a reserved small page pass, and does not look below a reserved big page.
`IsGranularRange` masks the number of a big page in place of the address, and so it may accept a
range that leaves its big page. Both are sound exactly where neither makes a difference.
-/

import SumiEmu.VideoCore.MemoryManagerContiguity

namespace SumiEmu.VideoCore.MemoryManager

open Nat

variable {g : Geometry} {m : MemoryManager}

/-! ## Fully mapped ranges -/

/-- The bytes that `IsFullyMappedRange` lets pass. -/
def Passes (g : Geometry) (m : MemoryManager) (a : Nat) : Prop :=
  m.getEntry g true a = .mapped ∨ m.getEntry g true a = .free ∧ m.getEntry g false a ≠ .free

/-- A reserved small page below a free big page. -/
def ReservedBelowFree (g : Geometry) (m : MemoryManager) (a : Nat) : Prop :=
  m.getEntry g true a = .free ∧ m.getEntry g false a = .reserved

/-- Some byte of a range is of a kind. -/
def SomeByte (kind : Nat → Prop) (address size : Nat) : Prop :=
  ∃ a, address ≤ a ∧ a < address + size ∧ kind a

def EveryByte (kind : Nat → Prop) (address size : Nat) : Prop :=
  ∀ a, address ≤ a → a < address + size → kind a

variable {address size : Nat}

theorem not_everyByte_iff {kind : Nat → Prop} :
    ¬ EveryByte kind address size ↔ SomeByte (fun a => ¬ kind a) address size := by
  simp [EveryByte, SomeByte]

/-- What `IsFullyMappedRange` knows at an address. -/
def FullyMappedUpTo (g : Geometry) (m : MemoryManager) (address a : Nat) (result : Bool) : Prop :=
  result = true ∧ ∀ x, address ≤ x → x < a → Passes g m x

def NotFullyMapped (g : Geometry) (m : MemoryManager) (address size : Nat) (result : Bool) :
    Prop :=
  result = false ∧ ¬ EveryByte (Passes g m) address size

theorem FullyMappedUpTo.pass {address a n : Nat} {result : Bool}
    (upTo : FullyMappedUpTo g m address a result) (passes : ∀ i < n, Passes g m (a + i)) :
    FullyMappedUpTo g m address (a + n) result := by
  refine ⟨upTo.1, fun x lower upper => ?_⟩
  by_cases old : x < a
  · exact upTo.2 x lower old
  · have new := passes (x - a) (by omega)
    rwa [show a + (x - a) = x by omega] at new

theorem notFullyMapped_of {address size a : Nat} (lower : address ≤ a)
    (upper : a < address + size) (fails : ¬ Passes g m a) : NotFullyMapped g m address size false :=
  ⟨rfl, fun every => fails (every a lower upper)⟩

/-- Below a free big page, the walk lets all small pages pass that are not free. -/
theorem FullyMappedUpTo.shortPages {address size a n : Nat} {result : Bool}
    (upTo : FullyMappedUpTo g m address a result) (later : address ≤ a)
    (inside : a + n ≤ address + size) (free : ∀ i < n, m.getEntry g true (a + i) = .free) :
    FullyMappedUpTo g m address (a + n) (m.queryOperation g false a n
        (fun _ _ _ => .ok) (fun _ _ _ => .ok) (fun _ _ _ _ => .error false) result) ∨
      NotFullyMapped g m address size (m.queryOperation g false a n
        (fun _ _ _ => .ok) (fun _ _ _ => .ok) (fun _ _ _ _ => .error false) result) := by
  refine queryOperation_rule (fun b k result upTo positive later' inside' within => ?_) upTo
  rw [show usedPageBits g false = pageBits from rfl] at within
  have above {i : Nat} (small : i < k) : m.getEntry g true (b + i) = .free := by
    have there := free (b - a + i) (by omega)
    rwa [show a + (b - a + i) = b + i by omega] at there
  have passes (other : m.getEntry g false b ≠ .free) :
      FullyMappedUpTo g m address (b + k) result :=
    upTo.pass fun i small => .inr ⟨above small, by rwa [getEntry_add false within small]⟩
  cases kind : m.getEntry g false b with
  | mapped => exact passes (by rw [kind]; decide)
  | reserved => exact passes (by rw [kind]; decide)
  | free =>
    refine notFullyMapped_of (by omega : address ≤ b) (by omega) ?_
    rintro (mapped | ⟨-, other⟩)
    · have free := above positive
      rw [add_zero, mapped] at free
      cases free
    · exact other kind

theorem isFullyMappedRange_iff (g : Geometry) (m : MemoryManager) (address size : Nat) :
    m.isFullyMappedRange g address size = true ↔ EveryByte (Passes g m) address size := by
  have start : FullyMappedUpTo g m address address true := by
    refine ⟨rfl, fun x lower upper => ?_⟩
    omega
  have walked : FullyMappedUpTo g m address (address + size) (m.isFullyMappedRange g address size) ∨
      NotFullyMapped g m address size (m.isFullyMappedRange g address size) := by
    refine queryOperation_rule (fun a n result upTo positive later inside within => ?_) start
    rw [show usedPageBits g true = g.bigPageBits from rfl] at within ⊢
    cases kind : m.getEntry g true a with
    | mapped =>
      exact upTo.pass fun i small => .inl ((getEntry_add true within small).trans kind)
    | reserved =>
      refine notFullyMapped_of later (by omega) ?_
      rintro (mapped | ⟨free, -⟩)
      · exact absurd (kind.symm.trans mapped) (by decide)
      · exact absurd (kind.symm.trans free) (by decide)
    | free =>
      have short := upTo.shortPages later inside fun i small =>
        (getEntry_add true within small).trans kind
      simp only [div_add_mod']
      rcases short with ⟨answer, passes⟩ | ⟨answer, fails⟩
      · rw [answer]
        exact ⟨rfl, passes⟩
      · rw [answer]
        exact ⟨rfl, fails⟩
  rcases walked with ⟨answer, passes⟩ | ⟨answer, fails⟩
  · exact iff_of_true answer fun a lower upper => passes a lower upper
  · exact iff_of_false (fun other => Bool.noConfusion (answer.symm.trans other)) fails

/-- The bytes that are translated are those of mapped pages of either size. -/
theorem gpuToCpuAddress_isSome_iff {a : Nat} (inside : a < 2 ^ g.addressSpaceBits) :
    (m.gpuToCpuAddress g a).isSome = true ↔
      m.getEntry g true a = .mapped ∨ m.getEntry g false a = .mapped := by
  rw [gpuToCpuAddress, if_neg (not_not.2 inside)]
  by_cases big : m.getEntry g true a = .mapped
  · simp [big]
  · by_cases small : m.getEntry g false a = .mapped
    · simp [big, small]
    · simp [big, small]

/-- A byte that is neither translated nor let pass. -/
def IsHole (g : Geometry) (m : MemoryManager) (a : Nat) : Prop :=
  m.getEntry g true a ≠ .mapped ∧ m.getEntry g false a ≠ .mapped ∧ ¬ ReservedBelowFree g m a

/-- What is let pass is translated, except for reserved pages below free ones, and what is
translated is let pass, except for shadowed pages. -/
theorem not_passes_iff {a : Nat} : ¬ Passes g m a ↔ IsHole g m a ∨ Shadowed g m a := by
  unfold Passes IsHole Shadowed ReservedBelowFree
  cases m.getEntry g true a <;> cases m.getEntry g false a <;> simp

theorem not_isSome_iff {a : Nat} (inside : a < 2 ^ g.addressSpaceBits) :
    ¬ (m.gpuToCpuAddress g a).isSome = true ↔ IsHole g m a ∨ ReservedBelowFree g m a := by
  rw [gpuToCpuAddress_isSome_iff inside]
  unfold IsHole ReservedBelowFree
  cases m.getEntry g true a <;> cases m.getEntry g false a <;> simp

theorem someByte_or {kind kind' : Nat → Prop} :
    SomeByte (fun a => kind a ∨ kind' a) address size ↔
      SomeByte kind address size ∨ SomeByte kind' address size := by
  simp only [SomeByte, and_or_left, exists_or]

/-- `IsFullyMappedRange` is exact when a byte keeps the range from being mapped and from passing, or
when the two kinds of pages that it misjudges occur both or not at all. -/
theorem fullyMapped_exact_iff (inside : address + size ≤ 2 ^ g.addressSpaceBits) :
    (m.isFullyMappedRange g address size = true ↔
        EveryByte (fun a => (m.gpuToCpuAddress g a).isSome = true) address size) ↔
      SomeByte (IsHole g m) address size ∨ (SomeByte (Shadowed g m) address size ↔
          SomeByte (ReservedBelowFree g m) address size) := by
  have fails : ¬ EveryByte (Passes g m) address size ↔
      SomeByte (IsHole g m) address size ∨ SomeByte (Shadowed g m) address size := by
    simp only [not_everyByte_iff, not_passes_iff, someByte_or]
  have unmapped : ¬ EveryByte (fun a => (m.gpuToCpuAddress g a).isSome = true) address size ↔
      SomeByte (IsHole g m) address size ∨ SomeByte (ReservedBelowFree g m) address size := by
    rw [not_everyByte_iff, ← someByte_or]
    refine exists_congr fun a => and_congr_right fun lower => and_congr_right fun upper => ?_
    exact not_isSome_iff (by omega)
  rw [isFullyMappedRange_iff, ← @not_iff_not (EveryByte (Passes g m) address size), fails, unmapped]
  tauto

/-! ## Granular ranges -/

/-- A range that leaves a big page, and that `IsGranularRange` accepts by the number of the page. -/
structure LeavesBigPage (g : Geometry) (m : MemoryManager) (address size : Nat) : Prop where
  mapped : m.getEntry g true address = .mapped
  continuous : m.isBigPageContinuous (address / 2 ^ g.bigPageBits) = true
  accepted : address / 2 ^ g.bigPageBits % 2 ^ g.bigPageBits + size ≤ 2 ^ g.bigPageBits
  leaves : 2 ^ g.bigPageBits < address % 2 ^ g.bigPageBits + size

/-- The bytes beyond the big page of an address go on in device memory where it ends. -/
def ContinuesBeyond (g : Geometry) (m : MemoryManager) (address size : Nat) : Prop :=
  ∀ i < size, 2 ^ g.bigPageBits ≤ address % 2 ^ g.bigPageBits + i →
    m.gpuToCpuAddress g (address + i) = (m.gpuToCpuAddress g address).map (· + i)

variable {address i : Nat}

/-- The translation along a part of a mapped big page. -/
theorem gpuToCpuAddress_big (inside : address + i < 2 ^ g.addressSpaceBits)
    (mapped : m.getEntry g true address = .mapped)
    (within : address % 2 ^ g.bigPageBits + i < 2 ^ g.bigPageBits) :
    m.gpuToCpuAddress g (address + i) =
      some (m.bigBase (address / 2 ^ g.bigPageBits) (address % 2 ^ g.bigPageBits) + i) := by
  have there : m.getEntry g true (address + i) = .mapped :=
    (getEntry_add true within (lt_succ_self i)).trans mapped
  rw [gpuToCpuAddress_eq inside (fun shadowed => by
    rw [shadowed.1] at there
    cases there)]
  exact blockAddress_big within mapped (lt_succ_self i)

/-- A part of a small page is a part of a big page. -/
theorem within_big (within : address % 2 ^ pageBits + i < 2 ^ pageBits) :
    address % 2 ^ g.bigPageBits + i < 2 ^ g.bigPageBits := by
  have size : 2 ^ g.bigPageBits = 2 ^ pageBits * 2 ^ (g.bigPageBits - pageBits) := by
    rw [← Nat.pow_add, Nat.add_sub_cancel' (show pageBits ≤ g.bigPageBits from g.page_le)]
  have low : address % 2 ^ g.bigPageBits % 2 ^ pageBits = address % 2 ^ pageBits :=
    mod_mod_of_dvd _ ⟨_, size⟩
  have below := Nat.mod_lt address (Nat.two_pow_pos g.bigPageBits)
  have parts := div_add_mod (address % 2 ^ g.bigPageBits) (2 ^ pageBits)
  have page : address % 2 ^ g.bigPageBits / 2 ^ pageBits + 1 ≤ 2 ^ (g.bigPageBits - pageBits) :=
    Nat.div_lt_of_lt_mul (size ▸ below)
  have fits := mul_le_mul_left (2 ^ pageBits) page
  rw [← size, mul_succ] at fits
  omega

/-- The translation along a part of a mapped small page that no big page covers. -/
theorem gpuToCpuAddress_short (inside : address + i < 2 ^ g.addressSpaceBits)
    (other : m.getEntry g true address ≠ .mapped) (mapped : m.getEntry g false address = .mapped)
    (within : address % 2 ^ pageBits + i < 2 ^ pageBits) :
    m.gpuToCpuAddress g (address + i) =
      some (m.shortBase (address / 2 ^ pageBits) (address % 2 ^ pageBits) + i) := by
  have big : m.getEntry g true (address + i) ≠ .mapped := by
    rwa [getEntry_add true (within_big within) (lt_succ_self i)]
  have small : m.getEntry g false (address + i) = .mapped :=
    (getEntry_add false within (lt_succ_self i)).trans mapped
  have index := (pageEntryIndex_eq false inside (g.page_le.trans g.big_le)).1
  obtain ⟨page, offset⟩ := page_add within (lt_succ_self i)
  rw [gpuToCpuAddress, if_neg (not_not.2 inside), if_pos big, if_neg (not_not.2 small), index,
    shortBase, add_assoc, ← offset]
  exact congrArg (fun page => some ((m.pageTable page).toNat * 2 ^ cpuPageBits + _)) page

/-- `IsGranularRange` is sound but for ranges that leave a big page and do not go on beyond it. -/
theorem granular_sound_iff (inside : address + size ≤ 2 ^ g.addressSpaceBits) :
    (m.isGranularRange g address size = true →
        ContiguousOn (m.gpuToCpuAddress g) address size) ↔
      (LeavesBigPage g m address size → ContinuesBeyond g m address size) := by
  constructor
  · intro sound leaves i below beyond
    have accepted : m.isGranularRange g address size = true := by
      rw [isGranularRange, if_pos leaves.mapped]
      simp only [leaves.continuous, if_true]
      exact decide_eq_true leaves.accepted
    obtain ⟨d, first, there⟩ := sound accepted i below
    rw [there, first]
    rfl
  · intro continues accepted
    unfold isGranularRange at accepted
    by_cases mapped : m.getEntry g true address = .mapped
    · rw [if_pos mapped] at accepted
      intro i below
      have first := gpuToCpuAddress_big (show address + 0 < 2 ^ g.addressSpaceBits by omega) mapped
        (Nat.mod_lt address (Nat.two_pow_pos _))
      rw [add_zero, add_zero] at first
      refine ⟨_, first, ?_⟩
      by_cases within : address % 2 ^ g.bigPageBits + i < 2 ^ g.bigPageBits
      · exact gpuToCpuAddress_big (by omega) mapped within
      · by_cases continuous : m.isBigPageContinuous (address / 2 ^ g.bigPageBits) = true
        · simp only [continuous, if_true] at accepted
          have beyond := continues ⟨mapped, continuous, of_decide_eq_true accepted, by omega⟩ i
            below (by omega)
          rw [beyond, first]
          rfl
        · -- A device page does not reach beyond the big page that it is in.
          simp only [continuous] at accepted
          have small : address % 2 ^ pageBits + size ≤ 2 ^ pageBits := of_decide_eq_true accepted
          exact absurd (within_big (show address % 2 ^ pageBits + i < 2 ^ pageBits by omega)) within
    · rw [if_neg mapped] at accepted
      by_cases short : m.getEntry g false address = .mapped
      · rw [if_neg (not_not.2 short)] at accepted
        have small : address % 2 ^ pageBits + size ≤ 2 ^ pageBits := of_decide_eq_true accepted
        intro i below
        have first := gpuToCpuAddress_short (show address + 0 < 2 ^ g.addressSpaceBits by omega)
          mapped short (Nat.mod_lt address (Nat.two_pow_pos _))
        rw [add_zero, add_zero] at first
        exact ⟨_, first, gpuToCpuAddress_short (by omega) mapped short (by omega)⟩
      · rw [if_pos short] at accepted
        cases accepted

/-! ## Both predicates -/

/-- What the fast paths rely on. -/
structure PredicatesSound (g : Geometry) (m : MemoryManager) (address size : Nat) : Prop where
  fullyMapped : m.isFullyMappedRange g address size = true ↔
    EveryByte (fun a => (m.gpuToCpuAddress g a).isSome = true) address size
  granular : m.isGranularRange g address size = true →
    ContiguousOn (m.gpuToCpuAddress g) address size

theorem predicatesSound_iff (inside : address + size ≤ 2 ^ g.addressSpaceBits) :
    PredicatesSound g m address size ↔ (SomeByte (IsHole g m) address size ∨
        (SomeByte (Shadowed g m) address size ↔
          SomeByte (ReservedBelowFree g m) address size)) ∧
      (LeavesBigPage g m address size → ContinuesBeyond g m address size) := by
  rw [← fullyMapped_exact_iff inside, ← granular_sound_iff inside]
  exact ⟨fun sound => ⟨sound.fullyMapped, sound.granular⟩, fun sound => ⟨sound.1, sound.2⟩⟩

/-- Two big pages that go on in device memory. -/
def twoBigPages : MemoryManager := run smallGeometry flatDevice [.map 0 0 131072 true]

theorem twoBigPages_getEntry {a : Nat} (upper : a < 131072) :
    twoBigPages.getEntry smallGeometry true a = .mapped := by
  have page : a / 2 ^ 16 = 0 ∨ a / 2 ^ 16 = 1 := by omega
  rw [getEntry_eq, show usedPageBits smallGeometry true = 16 from rfl]
  rcases page with first | second
  · rw [first]
    decide
  · rw [second]
    decide

theorem gpuToCpuAddress_twoBigPages {a : Nat} (upper : a < 131072) :
    twoBigPages.gpuToCpuAddress smallGeometry a = some a := by
  have place {start i : Nat} (aligned : start % 65536 = 0) (inside : start + i < 131072)
    (within : i < 65536) : twoBigPages.gpuToCpuAddress smallGeometry (start + i) =
    some (twoBigPages.bigBase (start / 65536) 0 + i) := by
    have within' : start % 2 ^ smallGeometry.bigPageBits + i < 2 ^ smallGeometry.bigPageBits := by
      rwa [show start % 2 ^ smallGeometry.bigPageBits = 0 from aligned, zero_add]
    rw [gpuToCpuAddress_big (lt_trans inside (by decide)) (twoBigPages_getEntry (by omega)) within',
      show start % 2 ^ smallGeometry.bigPageBits = 0 from aligned]
    rfl
  rcases lt_or_ge a 65536 with first | second
  · have found : twoBigPages.gpuToCpuAddress smallGeometry (0 + a) = some (0 + a) :=
      place rfl (by omega) first
    rwa [zero_add] at found
  · obtain ⟨i, rfl⟩ := Nat.exists_eq_add_of_le second
    exact place rfl upper (by omega)

/-- The predicates of a range that goes from one of them to the other. -/
theorem predicatesSound_big : PredicatesSound smallGeometry twoBigPages 65500 100 := by
  refine (predicatesSound_iff (by decide)).2 ⟨.inr (iff_of_false ?_ ?_), fun _ i inside _ => ?_⟩
  · rintro ⟨a, -, upper, reserved, -⟩
    exact absurd ((twoBigPages_getEntry (by omega)).symm.trans reserved) (by decide)
  · rintro ⟨a, -, upper, free, -⟩
    exact absurd ((twoBigPages_getEntry (by omega)).symm.trans free) (by decide)
  · rw [gpuToCpuAddress_twoBigPages (by omega), gpuToCpuAddress_twoBigPages (by decide),
      Option.map_some]

/-- A reserved small page passes for mapped, and a range that leaves a big page for granular. -/
theorem not_predicatesSound :
    ¬ PredicatesSound smallGeometry (run smallGeometry flatDevice [.mapSparse 0 4096 false]) 0 1 ∧
      ¬ PredicatesSound smallGeometry (run smallGeometry flatDevice [.map 0 0 65536 true])
        65535 2 := by
  constructor
  · intro sound
    have passes : EveryByte (Passes smallGeometry
        (run smallGeometry flatDevice [.mapSparse 0 4096 false])) 0 1 := by
      intro a _ upper
      obtain rfl : a = 0 := by omega
      exact .inr ⟨by decide, by decide⟩
    have every := sound.fullyMapped.1 ((isFullyMappedRange_iff _ _ 0 1).2 passes)
    exact absurd (every 0 le_rfl (by decide)) (by decide)
  · intro sound
    obtain ⟨d, -, beyond⟩ := sound.granular (by decide) 1 (by decide)
    have unmapped : (run smallGeometry flatDevice [.map 0 0 65536 true]).gpuToCpuAddress
        smallGeometry 65536 = none := by decide
    cases unmapped.symm.trans beyond

end SumiEmu.VideoCore.MemoryManager
