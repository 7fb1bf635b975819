/-
# Queries of the GPU's page tables

A query walks over the pages of a range as a block transfer does, with functions that may stop the
walk. What they find out is in variables that they share. The rule for such a walk is that of a
loop: what holds at the first address and is carried over every piece of a page holds at the end,
unless the walk has been stopped.
-/

import SumiEmu.VideoCore.MemoryManagerTransfers

namespace SumiEmu.VideoCore.MemoryManager

variable (g : Geometry) (m : MemoryManager) {σ : Type}

/-! ## Walks that may be stopped -/

/-- The loop of `MemoryOperation`, for functions that may stop it. The state of a walk that is
stopped is an error. -/
def queryLoop (isBigPages : Bool) (funcMapped funcReserved funcUnmapped :
    Nat → Nat → Nat → σ → Except σ σ) (pageIndex : Nat)
    (pageOffset : Fin (2 ^ usedPageBits g isBigPages)) (remainingSize currentAddress : Nat)
    (state : σ) : Except σ σ :=
  if remainingSize = 0 then
    .ok state
  else
    let copyAmount := min (2 ^ usedPageBits g isBigPages - pageOffset.val) remainingSize
    let step :=
      match m.getEntry g isBigPages currentAddress with
      | .mapped => funcMapped pageIndex pageOffset copyAmount state
      | .reserved => funcReserved pageIndex pageOffset copyAmount state
      | .free => funcUnmapped pageIndex pageOffset copyAmount state
    match step with
    | .error state => .error state
    | .ok state =>
      queryLoop isBigPages funcMapped funcReserved funcUnmapped (pageIndex + 1)
        ⟨0, Nat.two_pow_pos _⟩ (remainingSize - copyAmount) (currentAddress + copyAmount) state
termination_by remainingSize
decreasing_by
  have := pageOffset.isLt
  omega

theorem usedPageOffset_lt (isBigPages : Bool) (address : Nat) :
    address % 2 ^ usedPageBits g isBigPages < 2 ^ usedPageBits g isBigPages :=
  Nat.mod_lt _ (Nat.two_pow_pos _)

/-- `MemoryOperation`, for functions that may stop the walk. It returns nothing, so that the caller
sees the variables only. -/
def queryOperation (isBigPages : Bool) (gpuSrcAddr size : Nat) (funcMapped funcReserved
    funcUnmapped : Nat → Nat → Nat → σ → Except σ σ) (state : σ) : σ :=
  (m.queryLoop g isBigPages funcMapped funcReserved funcUnmapped
    (gpuSrcAddr / 2 ^ usedPageBits g isBigPages)
    ⟨gpuSrcAddr % 2 ^ usedPageBits g isBigPages, usedPageOffset_lt g isBigPages gpuSrcAddr⟩ size
        gpuSrcAddr
    state).casesOn (fun stopped => stopped) (fun done => done)

/-! ## The queries -/

/-- The device address of a part of a small page. -/
def shortBase (pageIndex offset : Nat) : Nat :=
  (m.pageTable pageIndex).toNat * 2 ^ cpuPageBits + offset

/-- The device address of a part of a big page. -/
def bigBase (pageIndex offset : Nat) : Nat :=
  (m.bigPageTableDev pageIndex).toNat * 2 ^ cpuPageBits + offset

/-- The variables of `IsContinuousRange`. -/
structure Continuity where
  oldPageAddr : Option Nat
  result : Bool

/-- There is an old page, and it does not end where the new one begins. -/
def breaksOff (oldPageAddr : Option Nat) (devAddrBase : Nat) : Prop :=
  oldPageAddr ≠ none ∧ oldPageAddr ≠ some devAddrBase

instance (oldPageAddr : Option Nat) (devAddrBase : Nat) :
    Decidable (breaksOff oldPageAddr devAddrBase) := inferInstanceAs (Decidable (_ ∧ _))

/-- The lambda `fail`. -/
def Continuity.fail (_ _ _ : Nat) (state : Continuity) : Except Continuity Continuity :=
  .error { state with result := false }

/-- What both `short_check` and `big_check` do, at their device address. -/
def Continuity.check (devAddrBase copyAmount : Nat) (state : Continuity) :
    Except Continuity Continuity :=
  if breaksOff state.oldPageAddr devAddrBase then .error { state with result := false }
  else .ok { state with oldPageAddr := some (devAddrBase + copyAmount) }

/-- What `check_short_pages` returns after its walk. -/
def Continuity.settle (state : Continuity) : Except Continuity Continuity :=
  if !state.result then .error state else .ok state

/-- `IsContinuousRange`. -/
def isContinuousRange (gpuAddr size : Nat) : Bool :=
  let shortCheck (pageIndex offset copyAmount : Nat) :=
    Continuity.check (m.shortBase pageIndex offset) copyAmount
  let bigCheck (pageIndex offset copyAmount : Nat) :=
    Continuity.check (m.bigBase pageIndex offset) copyAmount
  let checkShortPages (pageIndex offset copyAmount : Nat) (state : Continuity) :=
    let base := pageIndex * 2 ^ g.bigPageBits + offset
    (m.queryOperation g false base copyAmount shortCheck Continuity.fail Continuity.fail
      state).settle
  (m.queryOperation g true gpuAddr size bigCheck Continuity.fail checkShortPages
    ⟨none, true⟩).result

/-- The variables of `MaxContinuousRange`. Here `result` tells that the walk is to stop. -/
structure Extent where
  oldPageAddr : Option Nat
  rangeSoFar : Nat
  result : Bool

/-- The lambda `fail`. -/
def Extent.fail (_ _ _ : Nat) (state : Extent) : Except Extent Extent :=
  .error { state with result := true }

/-- The run grows by a piece. -/
def Extent.extend (devAddrBase copyAmount : Nat) (state : Extent) : Extent :=
  { state with
    rangeSoFar := state.rangeSoFar + copyAmount
    oldPageAddr := some (devAddrBase + copyAmount) }

/-- The lambda `short_check`, at its device address. -/
def Extent.shortCheck (devAddrBase copyAmount : Nat) (state : Extent) : Except Extent Extent :=
  if breaksOff state.oldPageAddr devAddrBase then .error { state with result := true }
  else .ok (state.extend devAddrBase copyAmount)

/-- The lambda `big_check`, at its device address. It stops the walk without a note. -/
def Extent.bigCheck (devAddrBase copyAmount : Nat) (state : Extent) : Except Extent Extent :=
  if breaksOff state.oldPageAddr devAddrBase then .error state
  else .ok (state.extend devAddrBase copyAmount)

/-- What `check_short_pages` returns after its walk. -/
def Extent.settle (state : Extent) : Except Extent Extent :=
  if state.result then .error state else .ok state

/-- `MaxContinuousRange`. -/
def maxContinuousRange (gpuAddr size : Nat) : Nat :=
  let shortCheck (pageIndex offset copyAmount : Nat) :=
    Extent.shortCheck (m.shortBase pageIndex offset) copyAmount
  let bigCheck (pageIndex offset copyAmount : Nat) :=
    Extent.bigCheck (m.bigBase pageIndex offset) copyAmount
  let checkShortPages (pageIndex offset copyAmount : Nat) (state : Extent) :=
    let base := pageIndex * 2 ^ g.bigPageBits + offset
    (m.queryOperation g false base copyAmount shortCheck Extent.fail Extent.fail state).settle
  (m.queryOperation g true gpuAddr size bigCheck Extent.fail checkShortPages
    ⟨none, 0, false⟩).rangeSoFar

/-- The variables of `GetSubmappedRangeImpl`: a segment is its base address with its size. -/
structure Submapping where
  lastSegment : Option (Nat × Nat)
  oldPageAddr : Option Nat
  result : List (Nat × Nat)

/-- The lambda `split`. -/
def Submapping.split (state : Submapping) : Submapping :=
  match state.lastSegment with
  | none => state
  | some segment => { state with result := state.result ++ [segment], lastSegment := none }

/-- What both `extend_size_big` and `extend_size_short` do, at their base addresses. -/
def Submapping.extend (newBaseAddr devAddrBase copyAmount : Nat) (state : Submapping) :
    Submapping :=
  let state := if breaksOff state.oldPageAddr devAddrBase then state.split else state
  let state := { state with oldPageAddr := some (devAddrBase + copyAmount) }
  match state.lastSegment with
  | none => { state with lastSegment := some (newBaseAddr, copyAmount) }
  | some (base, size) => { state with lastSegment := some (base, size + copyAmount) }

/-- `GetSubmappedRangeImpl`, for an empty list of results. -/
def getSubmappedRangeImpl (isGpuAddress : Bool) (gpuAddr size : Nat) : List (Nat × Nat) :=
  let split (_ _ _ : Nat) (state : Submapping) : Except Submapping Submapping := .ok state.split
  let extendSizeBig (pageIndex offset copyAmount : Nat) (state : Submapping) :
      Except Submapping Submapping :=
    let devAddrBase := m.bigBase pageIndex offset
    let newBaseAddr := if isGpuAddress then pageIndex * 2 ^ g.bigPageBits + offset else devAddrBase
    .ok (state.extend newBaseAddr devAddrBase copyAmount)
  let extendSizeShort (pageIndex offset copyAmount : Nat) (state : Submapping) :
      Except Submapping Submapping :=
    let devAddrBase := m.shortBase pageIndex offset
    let newBaseAddr := if isGpuAddress then pageIndex * 2 ^ pageBits + offset else devAddrBase
    .ok (state.extend newBaseAddr devAddrBase copyAmount)
  let doShortPages (pageIndex offset copyAmount : Nat) (state : Submapping) :
      Except Submapping Submapping :=
    let base := pageIndex * 2 ^ g.bigPageBits + offset
    .ok (m.queryOperation g false base copyAmount extendSizeShort split split state)
  (m.queryOperation g true gpuAddr size extendSizeBig split doShortPages
    ⟨none, none, []⟩).split.result

/-- `GetSubmappedRange`. -/
def getSubmappedRange (gpuAddr size : Nat) : List (Nat × Nat) :=
  m.getSubmappedRangeImpl g true gpuAddr size

/-- `IsFullyMappedRange`, whose only variable is its result. -/
def isFullyMappedRange (gpuAddr size : Nat) : Bool :=
  let fail (_ _ _ : Nat) (_ : Bool) : Except Bool Bool := .error false
  let pass (_ _ _ : Nat) (result : Bool) : Except Bool Bool := .ok result
  let checkShortPages (pageIndex offset copyAmount : Nat) (result : Bool) : Except Bool Bool :=
    let base := pageIndex * 2 ^ g.bigPageBits + offset
    let result := m.queryOperation g false base copyAmount pass pass fail result
    if !result then .error result else .ok result
  m.queryOperation g true gpuAddr size pass fail checkShortPages true

/-- `IsGranularRange`. -/
def isGranularRange (gpuAddr size : Nat) : Bool :=
  if m.getEntry g true gpuAddr = .mapped then
    let pageIndex := gpuAddr / 2 ^ g.bigPageBits
    if m.isBigPageContinuous pageIndex then
      -- the index of the page is masked, not the address
      decide (pageIndex % 2 ^ g.bigPageBits + size ≤ 2 ^ g.bigPageBits)
    else
      decide (gpuAddr % 2 ^ DeviceMemory.pageBits + size ≤ 2 ^ DeviceMemory.pageBits)
  else if m.getEntry g false gpuAddr ≠ .mapped then
    false
  else
    decide (gpuAddr % 2 ^ DeviceMemory.pageBits + size ≤ 2 ^ DeviceMemory.pageBits)

/-! ## The rule for walks -/

/-- What holds when a walk comes to its end, and what holds when it is stopped. -/
def Ends (done stopped : σ → Prop) : Except σ σ → Prop
  | .ok state => done state
  | .error state => stopped state

variable {g m}

/-- What each piece of a page carries on, or stops with, the walk does. -/
theorem queryLoop_rule {isBigPages : Bool} {funcMapped funcReserved funcUnmapped :
    Nat → Nat → Nat → σ → Except σ σ} {inv : Nat → σ → Prop} {stopped : σ → Prop}
    {start limit : Nat}
    (piece : ∀ a n state, inv a state → 0 < n → start ≤ a → a + n ≤ limit →
      a % 2 ^ usedPageBits g isBigPages + n ≤ 2 ^ usedPageBits g isBigPages →
      Ends (inv (a + n)) stopped
        (match m.getEntry g isBigPages a with
        | .mapped => funcMapped (a / 2 ^ usedPageBits g isBigPages)
            (a % 2 ^ usedPageBits g isBigPages) n state
        | .reserved => funcReserved (a / 2 ^ usedPageBits g isBigPages)
            (a % 2 ^ usedPageBits g isBigPages) n state
        | .free => funcUnmapped (a / 2 ^ usedPageBits g isBigPages)
            (a % 2 ^ usedPageBits g isBigPages) n state))
    {remainingSize currentAddress pageIndex : Nat}
    {pageOffset : Fin (2 ^ usedPageBits g isBigPages)} (later : start ≤ currentAddress)
    (inside : currentAddress + remainingSize ≤ limit)
    (place : remainingSize = 0 ∨ pageIndex = currentAddress / 2 ^ usedPageBits g isBigPages ∧
      pageOffset.val = currentAddress % 2 ^ usedPageBits g isBigPages) {state : σ}
    (holds : inv currentAddress state) :
    Ends (inv (currentAddress + remainingSize)) stopped
      (m.queryLoop g isBigPages funcMapped funcReserved funcUnmapped pageIndex pageOffset
        remainingSize currentAddress state) := by
  induction remainingSize using Nat.strongRecOn
    generalizing currentAddress pageIndex pageOffset state with
  | ind remainingSize ih =>
    rw [queryLoop]
    by_cases done : remainingSize = 0
    · rw [if_pos done, done]
      exact holds
    obtain ⟨pageEq, offsetEq⟩ := place.resolve_left done
    have offsetLt := pageOffset.isLt
    rw [if_neg done]
    simp only
    rw [offsetEq] at offsetLt ⊢
    rw [pageEq]
    generalize amountEq : min (2 ^ usedPageBits g isBigPages -
      currentAddress % 2 ^ usedPageBits g isBigPages) remainingSize = copyAmount at *
    have carried := piece currentAddress copyAmount state holds (by omega) later (by omega)
      (by omega)
    split
    · next stop =>
      rw [stop] at carried
      exact carried
    · next go =>
      rw [go] at carried
      have total : currentAddress + remainingSize =
          currentAddress + copyAmount + (remainingSize - copyAmount) := by omega
      rw [total]
      exact ih _ (by omega) (by omega) (by omega) (place_next (Nat.two_pow_pos _) amountEq) carried

/-- The rule for a whole walk. -/
theorem queryOperation_rule {isBigPages : Bool} {funcMapped funcReserved funcUnmapped :
    Nat → Nat → Nat → σ → Except σ σ} {inv : Nat → σ → Prop} {stopped : σ → Prop}
    {address size : Nat}
    (piece : ∀ a n state, inv a state → 0 < n → address ≤ a → a + n ≤ address + size →
      a % 2 ^ usedPageBits g isBigPages + n ≤ 2 ^ usedPageBits g isBigPages →
      Ends (inv (a + n)) stopped
        (match m.getEntry g isBigPages a with
        | .mapped => funcMapped (a / 2 ^ usedPageBits g isBigPages)
            (a % 2 ^ usedPageBits g isBigPages) n state
        | .reserved => funcReserved (a / 2 ^ usedPageBits g isBigPages)
            (a % 2 ^ usedPageBits g isBigPages) n state
        | .free => funcUnmapped (a / 2 ^ usedPageBits g isBigPages)
            (a % 2 ^ usedPageBits g isBigPages) n state))
    {state : σ} (holds : inv address state) :
    inv (address + size) (m.queryOperation g isBigPages address size funcMapped funcReserved
        funcUnmapped state) ∨
      stopped (m.queryOperation g isBigPages address size funcMapped funcReserved
        funcUnmapped state) := by
  have ends : Ends (inv (address + size)) stopped
      (m.queryLoop g isBigPages funcMapped funcReserved funcUnmapped
        (address / 2 ^ usedPageBits g isBigPages)
        ⟨address % 2 ^ usedPageBits g isBigPages, Nat.mod_lt _ (Nat.two_pow_pos _)⟩ size address
        state) :=
    queryLoop_rule piece le_rfl le_rfl (.inr ⟨rfl, rfl⟩) holds
  unfold queryOperation
  cases walk : m.queryLoop g isBigPages funcMapped funcReserved funcUnmapped
      (address / 2 ^ usedPageBits g isBigPages)
      ⟨address % 2 ^ usedPageBits g isBigPages, Nat.mod_lt _ (Nat.two_pow_pos _)⟩ size address
      state with
  | ok state =>
    rw [walk] at ends
    exact .inl ends
  | error state =>
    rw [walk] at ends
    exact .inr ends

/-- A piece of a range whose addresses are where a block transfer finds them from a device address
on, or nowhere. -/
structure PieceOf (g : Geometry) (m : MemoryManager) (address size a n : Nat)
    (target : Nat → Option Nat) : Prop where
  positive : 0 < n
  later : address ≤ a
  inside : a + n ≤ address + size
  found : ∀ i < n, blockAddress g m (a + i) = target i

/-- The rule for the walk over the big pages with one over the small pages below those that are
free. What has stopped the latter is `noted`, for the former to stop as well. -/
theorem query_rule {bigMapped shortMapped bigReserved shortReserved shortFree :
    Nat → Nat → Nat → σ → Except σ σ} {settle : σ → Except σ σ} {address size : Nat}
    (inv : Nat → σ → Prop) (noted stopped : σ → Prop)
    (big : ∀ {a n d state}, inv a state → PieceOf g m address size a n (fun i => some (d + i)) →
      Ends (inv (a + n)) stopped (bigMapped a d n state))
    (short : ∀ {a n d state}, inv a state → PieceOf g m address size a n (fun i => some (d + i)) →
      Ends (inv (a + n)) noted (shortMapped a d n state))
    (bigGap : ∀ {a n state}, inv a state → PieceOf g m address size a n (fun _ => none) →
      ∀ pageIndex offset, Ends (inv (a + n)) stopped (bigReserved pageIndex offset n state))
    (shortGap : ∀ {a n state}, inv a state → PieceOf g m address size a n (fun _ => none) →
      ∀ pageIndex offset, Ends (inv (a + n)) noted (shortReserved pageIndex offset n state) ∧
        Ends (inv (a + n)) noted (shortFree pageIndex offset n state))
    (settles : ∀ {a state}, inv a state ∨ noted state → Ends (inv a) stopped (settle state))
    {state : σ} (holds : inv address state) {last : σ}
    (ran : m.queryOperation g true address size
      (fun pageIndex offset =>
        bigMapped (pageIndex * 2 ^ g.bigPageBits + offset) (m.bigBase pageIndex offset))
      bigReserved
      (fun pageIndex offset n state => settle (m.queryOperation g false
        (pageIndex * 2 ^ g.bigPageBits + offset) n
        (fun pageIndex offset =>
          shortMapped (pageIndex * 2 ^ pageBits + offset) (m.shortBase pageIndex offset))
        shortReserved shortFree state))
      state = last) :
    inv (address + size) last ∨ stopped last := by
  rw [← ran]
  refine queryOperation_rule (fun a n state carried positive later inside within => ?_) holds
  rw [show usedPageBits g true = g.bigPageBits from rfl] at within ⊢
  cases kind : m.getEntry g true a with
  | mapped =>
    simp only [Nat.div_add_mod']
    exact big carried ⟨positive, later, inside, fun i => blockAddress_big within kind⟩
  | reserved =>
    exact bigGap carried ⟨positive, later, inside, fun i => blockAddress_reserved within kind⟩ _ _
  | free =>
    simp only [Nat.div_add_mod']
    apply settles
    refine queryOperation_rule (fun b k state carried positive later' inside' within' => ?_) carried
    rw [show usedPageBits g false = pageBits from rfl] at within' ⊢
    have above {i : Nat} (small : i < k) : m.getEntry g true (b + i) = .free := by
      have there := getEntry_add (m := m) true within (show b - a + i < n by omega)
      rwa [show a + (b - a + i) = b + i by omega, kind] at there
    have gap (other : m.getEntry g false b ≠ .mapped) :
        PieceOf g m address size b k (fun _ => none) :=
      ⟨positive, by omega, by omega, fun i small =>
        blockAddress_unmapped within' (above small) other small⟩
    cases small : m.getEntry g false b with
    | mapped =>
      simp only [Nat.div_add_mod']
      exact short carried ⟨positive, by omega, by omega, fun i inside =>
        blockAddress_short within' (above inside) small inside⟩
    | reserved => exact (shortGap carried (gap (by rw [small]; decide)) _ _).1
    | free => exact (shortGap carried (gap (by rw [small]; decide)) _ _).2

end SumiEmu.VideoCore.MemoryManager
