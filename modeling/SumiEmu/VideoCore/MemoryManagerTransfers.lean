/-
# Block transfers byte by byte

A port is one direction of a transfer: it passes over bytes or transfers them at a
pointer, and both may be cut anywhere. With a port, a walk over the device memory and
a walk over the page tables are each the same as visiting one address after the other.

The address that a block transfer visits is not always the translated one: below a
reserved big page the transfer passes over small pages that the translation follows.
Block transfers agree with the translation exactly on ranges without such a page.
-/

import SumiEmu.VideoCore.MemoryManagerTables

namespace SumiEmu.VideoCore

open List Nat

namespace DeviceMemory

/-! ## Ports -/

/-- One direction of a transfer, with what it has passed over and transferred so far. -/
structure Port (σ : Type) where
  advance : Nat → σ → Option σ
  transfer : Nat → Nat → σ → Option σ
  advance_zero : ∀ state, advance 0 state = some state
  advance_add : ∀ n k state, advance (n + k) state = advance n state >>= advance k
  transfer_zero : ∀ pointer state, transfer 0 pointer state = some state
  transfer_add : ∀ n k pointer state,
    transfer (n + k) pointer state = transfer n pointer state >>= transfer k (pointer + n)

/-- Reading appends to the destination. -/
def readPort (memory : PhysicalMemory) : Port (List UInt8) where
  advance copyAmount dest := some (dest ++ replicate copyAmount 0)
  transfer copyAmount pointer dest := some (dest ++ memory.load pointer copyAmount)
  advance_zero dest := by rw [replicate_zero, append_nil]
  advance_add n k dest := by
    rw [replicate_add, ← append_assoc]
    rfl
  transfer_zero pointer dest := by
    rw [PhysicalMemory.load, range_zero, map_nil, append_nil]
  transfer_add n k pointer dest := by
    have shift : (fun i => memory (pointer + i)) ∘ (n + ·) = fun i => memory (pointer + n + i) := by
      funext i
      exact congrArg memory (add_assoc ..).symm
    simp only [PhysicalMemory.load, Option.bind_eq_bind, Option.bind_some, append_assoc,
      range_add, map_append, map_map, shift]

theorem store_append (memory : PhysicalMemory) (pointer : Nat) (first second : List UInt8) :
    memory.store pointer (first ++ second) =
      (memory.store pointer first).store (pointer + first.length) second := by
  funext address
  simp only [PhysicalMemory.store]
  by_cases later : pointer + first.length ≤ address
  · rw [if_pos (by omega), if_pos later, if_pos (by omega),
      getElem?_append_right (by omega), Nat.sub_sub,
      show first[address - pointer]? = none from getElem?_eq_none (by omega), Option.getD_none]
  · rw [if_neg later]
    by_cases inside : pointer ≤ address
    · rw [if_pos inside, if_pos inside, getElem?_append_left (by omega)]
    · rw [if_neg inside, if_neg inside]

/-- Writing takes from the source. -/
def writePort : Port Writing where
  advance := skip
  transfer := copy
  advance_zero writing := rfl
  advance_add n k writing := by
    simp only [skip]
    by_cases short : writing.1.length < n
    · rw [if_pos short, if_pos (by omega)]
      rfl
    · rw [if_neg short, Option.bind_eq_bind, Option.bind_some, skip, length_drop, drop_drop]
      by_cases rest : writing.1.length < n + k
      · rw [if_pos rest, if_pos (by omega)]
      · rw [if_neg rest, if_neg (by omega)]
  transfer_zero pointer writing := by
    have nothing : writing.2.store pointer [] = writing.2 := by
      funext address
      simp [PhysicalMemory.store]
    simp [copy, nothing]
  transfer_add n k pointer writing := by
    simp only [copy]
    by_cases short : writing.1.length < n
    · rw [if_pos short, if_pos (by omega)]
      rfl
    · rw [if_neg short, Option.bind_eq_bind, Option.bind_some, copy, length_drop, drop_drop]
      by_cases rest : writing.1.length < n + k
      · rw [if_pos rest, if_pos (by omega)]
      · have first : (writing.1.take n).length = n := by
          rw [length_take]
          omega
        rw [if_neg rest, if_neg (by omega), take_add, store_append, first]

section Walks

variable {σ : Type} {device : DeviceMemory} (port : Port σ)

/-- Transfer the byte at a device address. -/
def touch (device : DeviceMemory) (state : σ) (address : Nat) : Option σ :=
  (device.getPointer address).bind fun pointer => port.transfer 1 pointer state

variable {port}

/-- Where pointers are consecutive, one transfer touches the bytes in order. -/
theorem transfer_eq_touch (port : Port σ) {n d pointer : Nat}
    (consecutive : ∀ i < n, device.getPointer (d + i) = some (pointer + i)) (state : σ) :
    port.transfer n pointer state = (range' d n).foldlM (device.touch port) state := by
  induction n generalizing d pointer state with
  | zero => exact port.transfer_zero pointer state
  | succ n ih =>
    have first := consecutive 0 (succ_pos n)
    rw [add_zero, add_zero] at first
    have cut := port.transfer_add 1 n pointer state
    rw [add_comm 1 n] at cut
    rw [cut, range'_succ, foldlM_cons, touch, first]
    apply bind_congr
    intro between
    refine ih (fun i below => ?_) between
    have next := consecutive (i + 1) (by omega)
    rwa [add_comm i, ← add_assoc, ← add_assoc] at next

/-- Passing over bytes passes over one after the other. -/
theorem advance_eq_fold (n d : Nat) (state : σ) :
    port.advance n state = (range' d n).foldlM (fun state _ => port.advance 1 state) state := by
  induction n generalizing d state with
  | zero => exact port.advance_zero state
  | succ n ih =>
    have cut := port.advance_add 1 n state
    rw [add_comm 1 n] at cut
    rw [cut, range'_succ, foldlM_cons]
    apply bind_congr
    intro between
    exact ih (d + 1) between

/-- A walk over device pages with memory touches the bytes in order. -/
theorem walkLoop_eq (tracked : device.Tracked) {rounds pageIndex pageOffset remainingSize : Nat}
    (inPage : pageOffset < 2 ^ pageBits) (enough : remainingSize ≤ rounds)
    (backed : ∀ i < remainingSize, device.Backed (pageIndex + (pageOffset + i) / 2 ^ pageBits))
    (state : σ) :
    device.walkLoop port.advance port.transfer rounds pageIndex pageOffset remainingSize state =
      (range' (pageIndex * 2 ^ pageBits + pageOffset) remainingSize).foldlM
        (device.touch port) state := by
  induction rounds generalizing pageIndex pageOffset remainingSize state with
  | zero =>
    obtain rfl := le_zero.mp enough
    rfl
  | succ rounds ih =>
    by_cases done : remainingSize = 0
    · rw [walkLoop, if_pos done, done]
      rfl
    have first : device.Backed pageIndex := by
      have start := backed 0 (pos_of_ne_zero done)
      rwa [add_zero, div_eq_of_lt inPage, add_zero] at start
    have runPos := tracked.run_pos pageIndex first
    have follows := tracked.run_follows pageIndex first
    have small := (device.continuityTracker pageIndex).isLt
    rw [walkLoop, if_neg done]
    simp only
    rw [if_neg (show device.compressedPhysicalPtr pageIndex ≠ 0 from first)]
    generalize (device.continuityTracker pageIndex).toNat = nextPages at *
    have room : pageOffset < nextPages * 2 ^ pageBits := by
      refine lt_of_lt_of_le inPage ?_
      exact Nat.le_mul_of_pos_left _ runPos
    have difference : (nextPages * 2 ^ pageBits + 2 ^ 64 - pageOffset) % 2 ^ 64 =
        nextPages * 2 ^ pageBits - pageOffset := by
      have below : nextPages * 2 ^ pageBits < 2 ^ 32 * 2 ^ 12 :=
        Nat.mul_lt_mul_of_pos_right small (Nat.two_pow_pos pageBits)
      generalize nextPages * 2 ^ pageBits = run at *
      omega
    rw [difference]
    -- this round transfers the rest of the run or all that remains
    have copied : min (nextPages * 2 ^ pageBits - pageOffset) remainingSize +
        (remainingSize - min (nextPages * 2 ^ pageBits - pageOffset) remainingSize) =
        remainingSize := by omega
    generalize amountEq :
      min (nextPages * 2 ^ pageBits - pageOffset) remainingSize = copyAmount at *
    have consecutive : ∀ i < copyAmount,
        device.getPointer (pageIndex * 2 ^ pageBits + pageOffset + i) =
          some (((device.compressedPhysicalPtr pageIndex).toNat - 1) * 2 ^ pageBits +
            pageOffset + i) := by
      intro i below
      rw [add_assoc, add_assoc]
      exact follows.getPointer_add first (by omega)
    rw [transfer_eq_touch port consecutive state, ← copied, ← range'_append_1, foldlM_append]
    rw [copied]
    apply bind_congr
    intro between
    by_cases last : remainingSize - copyAmount = 0
    · rw [last]
      cases rounds <;> rfl
    · have wholeRun : copyAmount = nextPages * 2 ^ pageBits - pageOffset := by omega
      have next : pageIndex * 2 ^ pageBits + pageOffset + copyAmount =
          (pageIndex + nextPages) * 2 ^ pageBits + 0 := by
        rw [add_mul]
        omega
      rw [next]
      refine ih (Nat.two_pow_pos _) (by omega) (fun i below => ?_) between
      have later := backed (copyAmount + i) (by omega)
      have split : pageOffset + (copyAmount + i) = i + nextPages * 2 ^ pageBits := by omega
      rwa [split, Nat.add_mul_div_right _ _ (Nat.two_pow_pos _), Nat.add_comm (i / _),
        ← add_assoc, ← zero_add i] at later

/-- `WalkBlock` over device pages with memory touches the bytes in order. -/
theorem walkBlock_eq (tracked : device.Tracked) {d n : Nat}
    (backed : ∀ i < n, device.Backed ((d + i) / 2 ^ pageBits)) (state : σ) :
    device.walkBlock port.advance port.transfer d n state =
      (range' d n).foldlM (device.touch port) state := by
  have parts := div_add_mod' d (2 ^ pageBits)
  rw [walkBlock, walkLoop_eq tracked (Nat.mod_lt _ (Nat.two_pow_pos _)) le_rfl, parts]
  intro i below
  have there := backed i below
  rwa [← parts, Nat.add_assoc, Nat.add_comm, Nat.add_mul_div_right _ _ (Nat.two_pow_pos _),
    add_comm] at there

end Walks

end DeviceMemory

namespace MemoryManager

open DeviceMemory (Port readPort writePort Writing)

variable {g : Geometry} {m : MemoryManager} {device : DeviceMemory} {σ : Type} {port : Port σ}

/-! ## Walks over the page tables -/

theorem foldlM_range'_shift {f f' : σ → Nat → Option σ} {a d n : Nat}
    (same : ∀ state, ∀ i < n, f state (a + i) = f' state (d + i)) (state : σ) :
    (range' a n).foldlM f state = (range' d n).foldlM f' state := by
  induction n generalizing a d state with
  | zero => rfl
  | succ n ih =>
    have first := same state 0 (succ_pos n)
    rw [add_zero, add_zero] at first
    rw [range'_succ, range'_succ, foldlM_cons, foldlM_cons, first]
    apply bind_congr
    intro between
    refine ih (fun state i below => ?_) between
    have next := same state (i + 1) (by omega)
    rwa [add_comm i, ← add_assoc, ← add_assoc] at next

/-- A step that is not the last one has reached the end of its page. -/
theorem place_next {page address remaining amount : Nat} (positive : 0 < page)
    (amountEq : min (page - address % page) remaining = amount) :
    remaining - amount = 0 ∨
      address / page + 1 = (address + amount) / page ∧ 0 = (address + amount) % page := by
  have offsetLt := Nat.mod_lt address positive
  have parts := div_add_mod address page
  by_cases last : remaining - amount = 0
  · exact .inl last
  · have wholePage : address + amount = page * (address / page + 1) := by
      rw [mul_succ]
      omega
    right
    rw [wholePage, Nat.mul_div_cancel_left _ positive, Nat.mul_mod_right]
    exact ⟨rfl, rfl⟩

/-- A walk is a visit of one address after the other, when each of its steps is one on the
bytes of its page. -/
theorem memoryLoop_eq {isBigPages : Bool} {funcMapped funcReserved funcUnmapped :
    Nat → Nat → Nat → σ → Option σ} {byte : σ → Nat → Option σ} {start limit : Nat}
    (chunk : ∀ a n state, 0 < n → start ≤ a → a + n ≤ limit →
      a % 2 ^ usedPageBits g isBigPages + n ≤ 2 ^ usedPageBits g isBigPages →
      (match m.getEntry g isBigPages a with
        | .mapped => funcMapped (a / 2 ^ usedPageBits g isBigPages)
            (a % 2 ^ usedPageBits g isBigPages) n state
        | .reserved => funcReserved (a / 2 ^ usedPageBits g isBigPages)
            (a % 2 ^ usedPageBits g isBigPages) n state
        | .free => funcUnmapped (a / 2 ^ usedPageBits g isBigPages)
            (a % 2 ^ usedPageBits g isBigPages) n state) = (range' a n).foldlM byte state)
    {remainingSize currentAddress pageIndex : Nat}
    {pageOffset : Fin (2 ^ usedPageBits g isBigPages)} (later : start ≤ currentAddress)
    (inside : currentAddress + remainingSize ≤ limit)
    (place : remainingSize = 0 ∨ pageIndex = currentAddress / 2 ^ usedPageBits g isBigPages ∧
      pageOffset.val = currentAddress % 2 ^ usedPageBits g isBigPages) (state : σ) :
    m.memoryLoop g isBigPages funcMapped funcReserved funcUnmapped pageIndex pageOffset
      remainingSize currentAddress state =
    (range' currentAddress remainingSize).foldlM byte state := by
  induction remainingSize using Nat.strongRecOn
    generalizing currentAddress pageIndex pageOffset state with
  | ind remainingSize ih =>
    rw [memoryLoop]
    by_cases done : remainingSize = 0
    · rw [if_pos done, done]
      rfl
    obtain ⟨pageEq, offsetEq⟩ := place.resolve_left done
    have offsetLt := pageOffset.isLt
    rw [if_neg done]
    simp only
    rw [offsetEq] at offsetLt ⊢
    rw [pageEq]
    generalize amountEq : min (2 ^ usedPageBits g isBigPages -
      currentAddress % 2 ^ usedPageBits g isBigPages) remainingSize = copyAmount at *
    have split : copyAmount + (remainingSize - copyAmount) = remainingSize := by omega
    have range : range' currentAddress remainingSize =
        range' currentAddress copyAmount ++
          range' (currentAddress + copyAmount) (remainingSize - copyAmount) := by
      rw [range'_append_1, split]
    rw [range, foldlM_append, ← chunk currentAddress copyAmount state (by omega) later
      (by omega) (by omega)]
    apply bind_congr
    intro between
    exact ih _ (by omega) (by omega) (by omega) (place_next (Nat.two_pow_pos _) amountEq) between

/-! ## The address that a transfer visits -/

/-- Where a block transfer finds the byte of an address. -/
def blockAddress (g : Geometry) (m : MemoryManager) (address : Nat) : Option Nat :=
  match m.getEntry g true address with
  | .mapped => some ((m.bigPageTableDev (address / 2 ^ g.bigPageBits)).toNat * 2 ^ cpuPageBits +
      address % 2 ^ g.bigPageBits)
  | .reserved => none
  | .free =>
    if m.getEntry g false address = .mapped then
      some ((m.pageTable (address / 2 ^ pageBits)).toNat * 2 ^ cpuPageBits + address % 2 ^ pageBits)
    else
      none

/-- Transfer the byte of an address, or pass over it. -/
def visit (device : DeviceMemory) (port : Port σ) (target : Nat → Option Nat) (state : σ)
    (address : Nat) : Option σ :=
  match target address with
  | none => port.advance 1 state
  | some d => device.touch port state d

/-- The walk of both block transfers, for either port. -/
def transferBlock (g : Geometry) (m : MemoryManager) (device : DeviceMemory) (port : Port σ)
    (address size : Nat) (state : σ) : Option σ :=
  let justAdvance (_ _ copyAmount : Nat) (state : σ) := port.advance copyAmount state
  let mappedNormal (pageIndex offset copyAmount : Nat) (state : σ) := do
    let devAddrBase := (m.pageTable pageIndex).toNat * 2 ^ cpuPageBits + offset
    let physical ← device.getPointer devAddrBase
    port.transfer copyAmount physical state
  let mappedBig (pageIndex offset copyAmount : Nat) (state : σ) := do
    let devAddrBase := (m.bigPageTableDev pageIndex).toNat * 2 ^ cpuPageBits + offset
    if ¬ m.isBigPageContinuous pageIndex then
      device.walkBlock port.advance port.transfer devAddrBase copyAmount state
    else
      let physical ← device.getPointer devAddrBase
      port.transfer copyAmount physical state
  let shortPages (pageIndex offset copyAmount : Nat) (state : σ) :=
    let base := pageIndex * 2 ^ g.bigPageBits + offset
    m.memoryOperation g false base copyAmount mappedNormal justAdvance justAdvance state
  m.memoryOperation g true address size mappedBig justAdvance shortPages state

theorem readBlockUnsafe_eq (memory : PhysicalMemory) (address size : Nat) :
    m.readBlockUnsafe g device memory address size =
      transferBlock g m device (readPort memory) address size [] := rfl

theorem writeBlockUnsafe_eq (memory : PhysicalMemory) (address : Nat) (buffer : List UInt8)
    (size : Nat) : m.writeBlockUnsafe g device memory address buffer size =
      (transferBlock g m device writePort address size (buffer, memory)).map Prod.snd := by
  rw [Option.map_eq_bind]
  rfl

/-- Addresses of one page. -/
theorem page_add {size b i k : Nat} (within : b % size + k ≤ size) (small : i < k) :
    (b + i) / size = b / size ∧ (b + i) % size = b % size + i := by
  have parts := div_add_mod b size
  have low : b % size + i < size := by omega
  rw [show b + i = size * (b / size) + (b % size + i) by omega]
  rw [mul_add_div (by omega), div_eq_of_lt low, add_zero, mul_add_mod,
    mod_eq_of_lt low]
  exact ⟨rfl, rfl⟩

section Pieces

variable {b k : Nat}
variable {i : Nat}

theorem getEntry_add (isBigPages : Bool)
    (within : b % 2 ^ usedPageBits g isBigPages + k ≤ 2 ^ usedPageBits g isBigPages)
    (small : i < k) : m.getEntry g isBigPages (b + i) = m.getEntry g isBigPages b := by
  rw [getEntry_eq, getEntry_eq, (page_add within small).1]

/-- The addresses of a piece of a mapped big page. -/
theorem blockAddress_big (within : b % 2 ^ g.bigPageBits + k ≤ 2 ^ g.bigPageBits)
    (mapped : m.getEntry g true b = .mapped) (small : i < k) :
    blockAddress g m (b + i) =
      some ((m.bigPageTableDev (b / 2 ^ g.bigPageBits)).toNat * 2 ^ cpuPageBits +
        b % 2 ^ g.bigPageBits + i) := by
  rw [blockAddress, getEntry_add true within small, mapped,
    (page_add within small).1, (page_add within small).2, ← add_assoc]

theorem blockAddress_reserved (within : b % 2 ^ g.bigPageBits + k ≤ 2 ^ g.bigPageBits)
    (reserved : m.getEntry g true b = .reserved) (small : i < k) :
    blockAddress g m (b + i) = none := by
  rw [blockAddress, getEntry_add true within small, reserved]

/-- The addresses of a piece of a mapped small page, below a free big page. -/
theorem blockAddress_short (within : b % 2 ^ pageBits + k ≤ 2 ^ pageBits)
    (above : m.getEntry g true (b + i) = .free) (mapped : m.getEntry g false b = .mapped)
    (small : i < k) :
    blockAddress g m (b + i) =
      some ((m.pageTable (b / 2 ^ pageBits)).toNat * 2 ^ cpuPageBits + b % 2 ^ pageBits + i) := by
  rw [blockAddress, above, getEntry_add false within small, mapped,
    (page_add within small).1, (page_add within small).2, ← add_assoc]
  rfl

theorem blockAddress_unmapped (within : b % 2 ^ pageBits + k ≤ 2 ^ pageBits)
    (above : m.getEntry g true (b + i) = .free) (other : m.getEntry g false b ≠ .mapped)
    (small : i < k) : blockAddress g m (b + i) = none := by
  rw [blockAddress, above, getEntry_add false within small]
  exact if_neg other

end Pieces

/-- Passing over a range visits each of its addresses when none has a target. -/
theorem advance_eq_visit {target : Nat → Option Nat} {a n : Nat}
    (unmapped : ∀ i < n, target (a + i) = none) (state : σ) :
    port.advance n state = (range' a n).foldlM (visit device port target) state := by
  rw [DeviceMemory.advance_eq_fold n a]
  apply foldlM_range'_shift
  intro state i below
  rw [visit, unmapped i below]

/-- A transfer at consecutive pointers visits each address of its range. -/
theorem transfer_eq_visit {target : Nat → Option Nat} {a d n pointer : Nat}
    (first : device.getPointer d = some pointer)
    (consecutive : ∀ i < n, device.getPointer (d + i) = some (pointer + i))
    (mapped : ∀ i < n, target (a + i) = some (d + i)) (state : σ) :
    (device.getPointer d >>= fun physical => port.transfer n physical state) =
      (range' a n).foldlM (visit device port target) state := by
  have touched := DeviceMemory.transfer_eq_touch port consecutive state
  rw [first]
  refine touched.trans (foldlM_range'_shift (fun state i below => ?_) state)
  rw [visit, mapped i below]

section Blocks

variable (consistent : Consistent g device m)
include consistent

/-- Below a free big page the walk over the small pages visits each address. -/
theorem shortPages_eq {a n : Nat} (inside : a + n ≤ 2 ^ g.addressSpaceBits)
    (free : ∀ i < n, m.getEntry g true (a + i) = .free) (state : σ) :
    m.memoryOperation g false a n
      (fun pageIndex offset copyAmount state => do
        let devAddrBase := (m.pageTable pageIndex).toNat * 2 ^ cpuPageBits + offset
        let physical ← device.getPointer devAddrBase
        port.transfer copyAmount physical state)
      (fun _ _ copyAmount state => port.advance copyAmount state)
      (fun _ _ copyAmount state => port.advance copyAmount state) state =
    (range' a n).foldlM (visit device port (blockAddress g m)) state := by
  refine memoryLoop_eq (fun b k state positive later below within => ?_) le_rfl le_rfl
    (.inr ⟨rfl, rfl⟩) state
  rw [show usedPageBits g false = pageBits from rfl] at within ⊢
  have above {i : Nat} (small : i < k) : m.getEntry g true (b + i) = .free := by
    have there := free (b - a + i) (by omega)
    rwa [show a + (b - a + i) = b + i by omega] at there
  have unmapped (other : m.getEntry g false b ≠ .mapped) :
      ∀ i < k, blockAddress g m (b + i) = none :=
    fun i small => blockAddress_unmapped within (above small) other small
  cases kind : m.getEntry g false b with
  | mapped =>
    have page : b / 2 ^ pageBits < 2 ^ (g.addressSpaceBits - pageBits) :=
      (pageEntryIndex_eq false (show b < 2 ^ g.addressSpaceBits by omega)
        (g.page_le.trans g.big_le)).2
    have backed := consistent.small_backed _ page kind
    have pointer {offset : Nat} (low : offset < 2 ^ pageBits) := backed.getPointer_eq low
    refine transfer_eq_visit (pointer (Nat.mod_lt _ (Nat.two_pow_pos _))) (fun i small => ?_)
      (fun i small => ?_) state
    · rw [add_assoc, add_assoc]
      exact pointer (by omega)
    · exact blockAddress_short within (above small) kind small
  | reserved => exact advance_eq_visit (unmapped (by rw [kind]; decide)) state
  | free => exact advance_eq_visit (unmapped (by rw [kind]; decide)) state

/-- A block transfer visits one address after the other. -/
theorem transferBlock_eq (tracked : device.Tracked) {address size : Nat}
    (inside : address + size ≤ 2 ^ g.addressSpaceBits) (state : σ) :
    transferBlock g m device port address size state =
      (range' address size).foldlM (visit device port (blockAddress g m)) state := by
  refine memoryLoop_eq (fun b k state positive later below within => ?_) le_rfl le_rfl
    (.inr ⟨rfl, rfl⟩) state
  rw [show usedPageBits g true = g.bigPageBits from rfl] at within ⊢
  cases kind : m.getEntry g true b with
  | mapped =>
    have page : b / 2 ^ g.bigPageBits < 2 ^ (g.addressSpaceBits - g.bigPageBits) :=
      (pageEntryIndex_eq true (show b < 2 ^ g.addressSpaceBits by omega) g.big_le).2
    have backed := consistent.big_backed _ page kind
    have first := backed 0 (Nat.two_pow_pos _)
    rw [add_zero] at first
    have size : 2 ^ g.bigPageBits = 2 ^ (g.bigPageBits - pageBits) * 2 ^ pageBits := by
      rw [← Nat.pow_add, Nat.sub_add_cancel (show pageBits ≤ g.bigPageBits from g.page_le)]
    have mapped : ∀ i < k, blockAddress g m (b + i) = some
        ((m.bigPageTableDev (b / 2 ^ g.bigPageBits)).toNat * 2 ^ cpuPageBits +
          b % 2 ^ g.bigPageBits + i) := fun i small => blockAddress_big within kind small
    by_cases continuous : m.isBigPageContinuous (b / 2 ^ g.bigPageBits) = true
    · have follows := consistent.big_follows _ page kind continuous
      have pointer {offset : Nat} (low : offset < 2 ^ (g.bigPageBits - pageBits) * 2 ^ pageBits) :=
        follows.getPointer_add first low
      simp only [continuous, not_true_eq_false, if_false]
      refine transfer_eq_visit (pointer ?_) (fun i small => ?_) mapped state
      · rw [← size]
        exact Nat.mod_lt _ (Nat.two_pow_pos _)
      · rw [add_assoc, add_assoc]
        exact pointer (by omega)
    · simp only [continuous]
      rw [DeviceMemory.walkBlock_eq tracked]
      · refine foldlM_range'_shift (fun state i small => ?_) state
        rw [visit, mapped i small]
      · intro i small
        rw [add_assoc, add_comm, show 2 ^ DeviceMemory.pageBits = 2 ^ cpuPageBits from rfl,
          Nat.add_mul_div_right _ _ (Nat.two_pow_pos _), Nat.add_comm]
        apply backed
        apply Nat.div_lt_of_lt_mul
        rw [Nat.mul_comm]
        exact lt_of_lt_of_eq (show b % 2 ^ g.bigPageBits + i < 2 ^ g.bigPageBits by omega) size
  | reserved =>
    exact advance_eq_visit (fun i small => blockAddress_reserved within kind small) state
  | free =>
    simp only
    rw [div_add_mod']
    exact shortPages_eq consistent (by omega)
      (fun i small => (getEntry_add true within small).trans kind) state

end Blocks

/-! ## Against the translation -/

/-- The bytes of a range by physical address, zero where there is none. -/
def bytesAt (target : Nat → Option Nat) (memory : PhysicalMemory) (address size : Nat) :
    List UInt8 :=
  (range' address size).map fun a => (target a).elim 0 memory

/-- Write bytes one address after the other, each to its physical address. -/
def writeAt (target : Nat → Option Nat) : Nat → List UInt8 → PhysicalMemory → PhysicalMemory
  | _, [], memory => memory
  | address, byte :: rest, memory =>
    writeAt target (address + 1) rest
      ((target address).elim memory fun pointer => Function.update memory pointer byte)

/-- The physical address of the byte that `GpuToCpuAddress` translates to. -/
def translated (g : Geometry) (m : MemoryManager) (device : DeviceMemory) (address : Nat) :
    Option Nat := (m.gpuToCpuAddress g address).bind device.getPointer

/-- Both block transfers of a range agree with the translation of its addresses. -/
def TransfersTranslate (g : Geometry) (m : MemoryManager) (device : DeviceMemory)
    (address size : Nat) : Prop :=
  (∀ memory, m.readBlockUnsafe g device memory address size =
    some (bytesAt (translated g m device) memory address size)) ∧
  ∀ memory buffer, buffer.length = size →
    m.writeBlockUnsafe g device memory address buffer size =
      some (writeAt (translated g m device) address buffer memory)

/-- A mapped small page below a reserved big page. -/
def Shadowed (g : Geometry) (m : MemoryManager) (address : Nat) : Prop :=
  m.getEntry g true address = .reserved ∧ m.getEntry g false address = .mapped

/-- Outside shadowed pages a block transfer visits the translated address. -/
theorem gpuToCpuAddress_eq {address : Nat} (inside : address < 2 ^ g.addressSpaceBits)
    (clear : ¬ Shadowed g m address) : m.gpuToCpuAddress g address = blockAddress g m address := by
  have small := (pageEntryIndex_eq false inside (g.page_le.trans g.big_le)).1
  have big := (pageEntryIndex_eq true inside g.big_le).1
  rw [gpuToCpuAddress, if_neg (not_not.mpr inside), blockAddress, small, big]
  cases kind : m.getEntry g true address with
  | mapped => rfl
  | free =>
    by_cases mapped : m.getEntry g false address = .mapped
    · rw [if_pos (by decide), if_neg (not_not.mpr mapped), if_pos mapped]
      rfl
    · rw [if_pos (by decide), if_pos mapped, if_neg mapped]
  | reserved =>
    have unmapped : m.getEntry g false address ≠ .mapped := fun mapped => clear ⟨kind, mapped⟩
    rw [if_pos (by decide), if_pos unmapped]

/-- A shadowed page is translated to a byte of memory and passed over by a block transfer. -/
theorem Shadowed.split (consistent : Consistent g device m) {address : Nat}
    (inside : address < 2 ^ g.addressSpaceBits) (shadowed : Shadowed g m address) :
    blockAddress g m address = none ∧ ∃ pointer, translated g m device address = some pointer := by
  obtain ⟨reserved, mapped⟩ := shadowed
  obtain ⟨index, below⟩ :=
    pageEntryIndex_eq false inside (g.page_le.trans g.big_le)
  have backed := consistent.small_backed _ below mapped
  have pointer := backed.getPointer_eq (Nat.mod_lt address (Nat.two_pow_pos pageBits))
  refine ⟨by rw [blockAddress, reserved], _, Eq.trans ?_ pointer⟩
  rw [translated, gpuToCpuAddress, if_neg (not_not.mpr inside), if_pos (by rw [reserved]; decide),
    if_neg (not_not.mpr mapped), index]
  rfl

/-- Every address that a block transfer visits has a pointer. -/
theorem blockAddress_pointer (consistent : Consistent g device m) {address d : Nat}
    (inside : address < 2 ^ g.addressSpaceBits) (visited : blockAddress g m address = some d) :
    ∃ pointer, device.getPointer d = some pointer := by
  have smallPage := (pageEntryIndex_eq false inside (g.page_le.trans g.big_le)).2
  have bigPage := (pageEntryIndex_eq true inside g.big_le).2
  rw [blockAddress] at visited
  cases kind : m.getEntry g true address with
  | mapped =>
    rw [kind] at visited
    obtain rfl := Option.some.inj visited
    have size : 2 ^ g.bigPageBits = 2 ^ pageBits * 2 ^ (g.bigPageBits - pageBits) := by
      rw [← Nat.pow_add, Nat.add_sub_cancel' (show pageBits ≤ g.bigPageBits from g.page_le)]
    have offset : address % 2 ^ g.bigPageBits / 2 ^ pageBits < 2 ^ (g.bigPageBits - pageBits) := by
      apply Nat.div_lt_of_lt_mul
      rw [← size]
      exact Nat.mod_lt _ (Nat.two_pow_pos _)
    have backed := consistent.big_backed _ bigPage kind _ offset
    have pointer := backed.getPointer_eq
      (Nat.mod_lt (address % 2 ^ g.bigPageBits) (Nat.two_pow_pos pageBits))
    rw [add_mul, add_assoc] at pointer
    refine ⟨_, Eq.trans (congrArg device.getPointer ?_) pointer⟩
    exact congrArg _ (div_add_mod' (address % 2 ^ g.bigPageBits) (2 ^ pageBits)).symm
  | free =>
    rw [kind] at visited
    simp only at visited
    split_ifs at visited with mapped
    obtain rfl := Option.some.inj visited
    have backed := consistent.small_backed _ smallPage mapped
    exact ⟨_, backed.getPointer_eq (Nat.mod_lt _ (Nat.two_pow_pos _))⟩
  | reserved =>
    rw [kind] at visited
    cases visited

/-- The pointer that a block transfer visits. -/
def blockPointer (g : Geometry) (m : MemoryManager) (device : DeviceMemory) (address : Nat) :
    Option Nat := (blockAddress g m address).bind device.getPointer

section Bytes

variable {address size : Nat} (consistent : Consistent g device m)
  (inside : address + size ≤ 2 ^ g.addressSpaceBits)
include consistent inside

private theorem visit_read (memory : PhysicalMemory) (dest : List UInt8) :
    (range' address size).foldlM (visit device (readPort memory) (blockAddress g m)) dest =
      some (dest ++ bytesAt (blockPointer g m device) memory address size) := by
  induction size generalizing address dest with
  | zero => exact congrArg some (append_nil dest).symm
  | succ size ih =>
    have first : visit device (readPort memory) (blockAddress g m) dest address =
        some (dest ++ [(blockPointer g m device address).elim 0 memory]) := by
      cases visited : blockAddress g m address with
      | none => simp [visit, visited, blockPointer, readPort]
      | some d =>
        obtain ⟨pointer, found⟩ := blockAddress_pointer consistent (by omega) visited
        simp [visit, visited, blockPointer, found, readPort, DeviceMemory.touch,
          PhysicalMemory.load]
    rw [range'_succ, foldlM_cons, first, Option.bind_eq_bind, Option.bind_some,
      ih (by omega), bytesAt, bytesAt, range'_succ, map_cons, append_assoc]
    rfl

private theorem visit_write (buffer : List UInt8) (long : buffer.length = size)
    (memory : PhysicalMemory) :
    (range' address size).foldlM (visit device writePort (blockAddress g m)) (buffer, memory) =
      some ([], writeAt (blockPointer g m device) address buffer memory) := by
  induction buffer generalizing address size memory with
  | nil =>
    subst long
    rfl
  | cons byte rest ih =>
    subst long
    have first : visit device writePort (blockAddress g m) (byte :: rest, memory) address =
        some (rest, (blockPointer g m device address).elim memory fun pointer =>
          Function.update memory pointer byte) := by
      cases visited : blockAddress g m address with
      | none => simp [visit, visited, blockPointer, writePort, DeviceMemory.skip]
      | some d =>
        obtain ⟨pointer, found⟩ := blockAddress_pointer consistent
          (by rw [length_cons] at inside; omega) visited
        have stored : memory.store pointer [byte] = Function.update memory pointer byte := by
          funext a
          by_cases here : a = pointer
          · simp [PhysicalMemory.store, here]
          · by_cases later : pointer ≤ a
            · have past : a - pointer ≠ 0 := by omega
              simp [PhysicalMemory.store, here, later, past]
            · simp [PhysicalMemory.store, here, later]
        simp [visit, visited, blockPointer, found, writePort, DeviceMemory.touch,
          DeviceMemory.copy, stored]
    rw [length_cons, range'_succ, foldlM_cons, first, Option.bind_eq_bind,
      Option.bind_some, ih (by rw [length_cons] at inside; omega) rfl]
    rfl

end Bytes

/-- On a consistent manager the block transfers of a range agree with the translation exactly
when no address of the range is shadowed. -/
theorem transfersTranslate_iff (tracked : device.Tracked) (consistent : Consistent g device m)
    {address size : Nat} (inside : address + size ≤ 2 ^ g.addressSpaceBits) :
    TransfersTranslate g m device address size ↔
      ∀ a, address ≤ a → a < address + size → ¬ Shadowed g m a := by
  have read (memory : PhysicalMemory) : m.readBlockUnsafe g device memory address size =
      some (bytesAt (blockPointer g m device) memory address size) := by
    rw [readBlockUnsafe_eq, transferBlock_eq consistent tracked inside,
      visit_read consistent inside, nil_append]
  have write (memory : PhysicalMemory) (buffer : List UInt8) (long : buffer.length = size) :
      m.writeBlockUnsafe g device memory address buffer size =
        some (writeAt (blockPointer g m device) address buffer memory) := by
    rw [writeBlockUnsafe_eq, transferBlock_eq consistent tracked inside,
      visit_write consistent inside buffer long]
    rfl
  constructor
  · rintro ⟨reads, _⟩ a lower upper shadowed
    obtain ⟨passed, pointer, found⟩ := shadowed.split consistent (by omega)
    -- a memory full of ones is read as zero at the shadowed address
    have bytes := Option.some.inj ((read fun _ => 1).symm.trans (reads fun _ => 1))
    have byte := congrArg (fun l : List UInt8 => l[a - address]?) bytes
    have place : address + (a - address) = a := by omega
    simp only [bytesAt, getElem?_map, getElem?_range' (show a - address < size by omega),
      one_mul, place, Option.map_some, blockPointer, passed, found, Option.bind_none,
      Option.elim_none, Option.elim_some] at byte
    exact absurd (Option.some.inj byte) (by decide)
  · intro clear
    have same (a : Nat) (lower : address ≤ a) (upper : a < address + size) :
        translated g m device a = blockPointer g m device a := by
      rw [translated, gpuToCpuAddress_eq (by omega) (clear a lower upper), blockPointer]
    have bytes (memory : PhysicalMemory) : bytesAt (blockPointer g m device) memory address size =
        bytesAt (translated g m device) memory address size := by
      apply map_congr_left
      intro a member
      obtain ⟨lower, upper⟩ := mem_range'_1.mp member
      rw [same a lower upper]
    have written (buffer : List UInt8) : ∀ (start : Nat) (memory : PhysicalMemory),
        address ≤ start → start + buffer.length ≤ address + size →
        writeAt (blockPointer g m device) start buffer memory =
          writeAt (translated g m device) start buffer memory := by
      induction buffer with
      | nil => exact fun _ _ _ _ => rfl
      | cons byte rest ih =>
        intro start memory lower upper
        rw [length_cons] at upper
        rw [writeAt, writeAt, same start lower (by omega)]
        exact ih _ _ (by omega) (by omega)
    refine ⟨fun memory => ?_, fun memory buffer long => ?_⟩
    · rw [read, bytes]
    · rw [write memory buffer long, written buffer address memory le_rfl (by omega)]

/-- An address space of 40 bits with big pages of 64 KiB. -/
def smallGeometry : Geometry := ⟨40, 16, by decide, by decide⟩

/-- A device memory of 2^20 pages, each in the physical page of its number. -/
def flatDevice : DeviceMemory where
  compressedPhysicalPtr page := if page < 2 ^ 20 then BitVec.ofNat 32 (page + 1) else 0
  continuityTracker _ := 1

theorem flatDevice_ptr (page : Nat) : flatDevice.compressedPhysicalPtr page =
    if page < 2 ^ 20 then BitVec.ofNat 32 (page + 1) else 0 := rfl

theorem flatDevice_backed {page : Nat} (below : page < 2 ^ 20) : flatDevice.Backed page := by
  rw [DeviceMemory.Backed, flatDevice_ptr, if_pos below]
  intro zero
  have number := congrArg BitVec.toNat zero
  rw [BitVec.toNat_ofNat, show (0 : BitVec 32).toNat = 0 from rfl] at number
  omega

theorem flatDevice_tracked : flatDevice.Tracked where
  page_lt page backed := by
    by_contra past
    apply backed
    rw [flatDevice_ptr, if_neg (by omega)]
  run_pos _ _ := one_pos
  run_follows page _ j below := by
    have zero : j = 0 := lt_one_iff.mp below
    rw [zero, add_zero, add_zero]

end MemoryManager

end SumiEmu.VideoCore
