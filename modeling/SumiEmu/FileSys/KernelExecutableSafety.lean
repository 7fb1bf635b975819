/-
# When the decompression keeps to the vector

The sizes at the end of the vector and the bytes of the stream tell what the loops do, before
anything is decompressed. The stream is scanned backwards, and of each item only the number of bytes
that it writes is looked at. It is complete when all bytes of the output are written, and it is
refused at a reference that is cut off or points behind what has been written.

Nothing keeps a stream from ending before another item, or from being written over while it is read.
-/

import SumiEmu.FileSys.KernelExecutable

namespace SumiEmu.FileSys

open Fallible Nat List

/-! ## Well-formed vectors -/

variable (data : List Byte)

/-- The 32-bit number at a place. -/
def blzWord (i : Nat) : BitVec 32 :=
  data.getD (i + 3) 0 ++ data.getD (i + 2) 0 ++ data.getD (i + 1) 0 ++ data.getD i 0

/-- The sizes in the last twelve bytes. -/
structure BlzFooter where
  compressedSize : Nat
  initIndex : Nat
  additionalSize : Nat
  deriving DecidableEq, Repr

/-- The footer of some data. -/
def blzFooter : BlzFooter where
  compressedSize := (blzWord data (data.length - 0xC)).toNat
  initIndex := (blzWord data (data.length - 0xC + 0x4)).toNat
  additionalSize := (blzWord data (data.length - 0xC + 0x8)).toNat

/-- The stream lies in the compressed part and this in the vector, and there can be a vector for
what it is decompressed to. -/
structure BlzFooter.Fits (f : BlzFooter) (size : Nat) : Prop where
  stream : f.initIndex ≤ f.compressedSize
  compressed : f.compressedSize ≤ size
  output : f.compressedSize + f.additionalSize < 2 ^ 32
  vector : size + f.additionalSize < 2 ^ 63

/-- How the scan of a stream ends. -/
inductive BlzVerdict
  | complete
  | refused
  | exhausted
  | overtaken
  deriving DecidableEq, Repr

/-- The two bytes of a reference. -/
def blzSegment (byte : Nat → Byte) (unread : Nat) : BitVec 16 := byte (unread + 1) ++ byte unread

/-- Scan a stream backwards, with so many bytes unread, the bits left of a control byte, and so many
of all bytes of the output left to write. -/
def blzScan (byte : Nat → Byte) (total unread : Nat) (bits : Option (Byte × Nat)) (left : Nat) :
    BlzVerdict :=
  if left = 0 then .complete
  else
    match unread, bits with
    | 0, none => .exhausted
    | unread + 1, none => blzScan byte total unread (some (byte unread, 0)) left
    | 0, some (control, i) => if Blz.IsReference control i then .refused else .exhausted
    | unread + 1, some (control, i) =>
      let bits := if i < 7 then some (control, i + 1) else none
      if Blz.IsReference control i then
        match unread with
        | 0 => .refused
        | unread + 1 =>
          let segment := blzSegment byte unread
          if total < left + ((segment &&& 0xFFF).toNat + 3) then .refused
          else
            let left := left - (((segment >>> 12) &&& 0xF).toNat + 3)
            if left ≠ 0 ∧ left < unread then .overtaken else blzScan byte total unread bits left
      else if left - 1 ≠ 0 ∧ left - 1 < unread then .overtaken
      else blzScan byte total unread bits (left - 1)

/-- The scan of the stream that the sizes tell. -/
def blzVerdict : BlzVerdict :=
  let f := blzFooter data
  blzScan (fun i => data.getD (data.length - f.compressedSize + i) 0)
    (f.compressedSize + f.additionalSize) (f.compressedSize - f.initIndex) none
    (f.compressedSize + f.additionalSize)

/-- There are sizes that fit, and the stream gives all bytes of the output. -/
def BlzWellFormed : Prop :=
  0xC ≤ data.length ∧ (blzFooter data).Fits data.length ∧ blzVerdict data = .complete

/-- Every access is in the vector and the call returns, with failure if the vector is malformed. -/
def BlzSafe : Prop :=
  ∃ complete out, decompressBLZ data = .ok (complete, out) ∧
    (¬ BlzWellFormed data → complete = false)

/-- The sizes fit, and the stream neither ends before an item that is no reference nor is written
over while it is read. -/
def BlzCovered : Prop :=
  data.length < 0xC ∨
    (blzFooter data).Fits data.length ∧ (blzVerdict data = .complete ∨ blzVerdict data = .refused)

namespace Blz

variable {s s' : Blz} {data : List Byte} {control : Byte} {i n : Nat}

/-! ## Termination -/

/-- There is output left while there are bits left. -/
def Lively (s : Blz) : Prop := ∀ control i, s.point = .bit control i → i < 8 → s.outIndex ≠ 0

theorem at?_ne_unfinished : at? data i ≠ .error .unfinished := by
  rw [at?]
  split <;> simp

theorem set?_ne_unfinished {byte : Byte} : set? data i byte ≠ .error .unfinished := by
  rw [set?]
  split <;> simp

theorem bind_ne_unfinished {α β : Type} {x : Except BlzFault α} {f : α → Except BlzFault β}
    (first : x ≠ .error .unfinished) (second : ∀ a, f a ≠ .error .unfinished) :
    x >>= f ≠ .error .unfinished := by
  cases x with
  | ok a => exact second a
  | error fault =>
    rw [error_bind]
    exact fun same => first (congrArg Except.error (Except.error.inj same))

theorem copySegment_ne_unfinished (startOffset outIndex segmentOffset : Size) (n : Nat) (j : Size)
    (data : List Byte) :
    copySegment startOffset outIndex segmentOffset n j data ≠ .error .unfinished := by
  induction n generalizing j data with
  | zero => simp [copySegment]
  | succ n ih =>
    rw [copySegment]
    split
    · simp
    · exact bind_ne_unfinished at?_ne_unfinished fun _ =>
        bind_ne_unfinished set?_ne_unfinished fun _ => ih _ _

theorem step_ne_unfinished (s : Blz) : s.step ≠ .error .unfinished := by
  rw [step]
  split
  · split
    · simp
    · exact bind_ne_unfinished at?_ne_unfinished fun _ => by simp
  · split
    · split
      · rw [reference]
        split
        · simp
        · refine bind_ne_unfinished at?_ne_unfinished fun _ =>
            bind_ne_unfinished at?_ne_unfinished fun _ => ?_
          refine bind_ne_unfinished (copySegment_ne_unfinished _ _ _ _ _ _) fun ⟨complete, data⟩ =>
            ?_
          cases complete <;> simp [next]
      · rw [literal]
        split
        · simp
        · exact bind_ne_unfinished at?_ne_unfinished fun _ =>
            bind_ne_unfinished set?_ne_unfinished fun _ => by simp [next]
    · simp

theorem segmentSize_eq (segment : BitVec 16) (outIndex : Size) :
    (segmentSize segment outIndex).toNat =
    min (((segment >>> 12) &&& 0xF).toNat + 3) outIndex.toNat := by
  have nibble : ((segment >>> 12) &&& 0xF).toNat ≤ 15 := by
    rw [BitVec.toNat_and]
    exact and_le_right
  rw [segmentSize]
  generalize (segment >>> 12) &&& 0xF = size at nibble
  have wide : (size.setWidth 64 + 3 : Size).toNat = size.toNat + 3 := by bv_omega
  split_ifs with less
  · bv_omega
  · bv_omega

theorem segmentOffset_eq (segment : BitVec 16) :
    (segmentOffset segment).toNat = (segment &&& 0xFFF).toNat + 3 ∧
    (segment &&& 0xFFF).toNat ≤ 4095 := by
  have twelve : (segment &&& 0xFFF).toNat ≤ 4095 := by
    rw [BitVec.toNat_and]
    exact and_le_right
  rw [segmentOffset]
  generalize segment &&& 0xFFF = offset at twelve
  exact ⟨by bv_omega, twelve⟩

/-- The next bit, or the next control byte, after some output. -/
theorem next_less (point : s.point = .bit control i) (below : i < 8) {data : List Byte}
    {index outIndex : Size}
    (less : outIndex.toNat < s.outIndex.toNat)
    (goesOn : Blz.next { s with data, index, outIndex } control i = .ok (.inl s')) :
    s'.Lively ∧ s'.roundsLeft < s.roundsLeft := by
  cases goesOn
  constructor
  · intro control' i' same _
    dsimp only at same ⊢
    split_ifs at same with done
    exact done
  · rw [roundsLeft, roundsLeft, point]
    dsimp only
    rw [if_pos below]
    split_ifs with done
    · dsimp only
      omega
    · dsimp only
      split_ifs <;> omega

/-- A step after which the loops go on brings them nearer to their end. -/
theorem Lively.step (lively : s.Lively) (goesOn : s.step = .ok (.inl s')) :
    s'.Lively ∧ s'.roundsLeft < s.roundsLeft := by
  match point : s.point with
  | .control =>
    rw [Blz.step, point] at goesOn
    dsimp only at goesOn
    split_ifs at goesOn with done
    · cases goesOn
    · obtain ⟨control, -, same⟩ := bind_eq_ok.mp goesOn
      cases same
      refine ⟨fun _ _ _ _ => done, ?_⟩
      rw [roundsLeft, roundsLeft, point]
      dsimp only
      rw [if_pos (by decide)]
      omega
  | .bit control i =>
    rw [Blz.step, point] at goesOn
    dsimp only at goesOn
    by_cases below : i < 8
    · have left := lively control i point below
      rw [if_pos below] at goesOn
      split_ifs at goesOn with set
      · rw [reference] at goesOn
        split_ifs at goesOn with few
        · cases goesOn
        obtain ⟨low, -, goesOn⟩ := bind_eq_ok.mp goesOn
        obtain ⟨high, -, goesOn⟩ := bind_eq_ok.mp goesOn
        obtain ⟨⟨complete, data⟩, -, goesOn⟩ := bind_eq_ok.mp goesOn
        dsimp only at goesOn
        split_ifs at goesOn with whole
        · have size := segmentSize_eq (high ++ low) s.outIndex
          generalize segmentSize (high ++ low) s.outIndex = bytes at size goesOn
          exact next_less point below (by bv_omega) goesOn
        · cases goesOn
      · rw [literal] at goesOn
        split_ifs at goesOn with none
        · cases goesOn
        obtain ⟨byte, -, goesOn⟩ := bind_eq_ok.mp goesOn
        obtain ⟨data, -, goesOn⟩ := bind_eq_ok.mp goesOn
        exact next_less point below (by bv_omega) goesOn
    · rw [if_neg below] at goesOn
      cases goesOn
      refine ⟨fun _ _ same => (by cases same), ?_⟩
      rw [roundsLeft, roundsLeft, point]
      dsimp only
      rw [if_neg below]
      omega

theorem Lively.run_ne_unfinished (lively : s.Lively) {rounds : Nat}
    (enough : s.roundsLeft < rounds) : s.run rounds ≠ .error .unfinished := by
  induction rounds generalizing s with
  | zero => exact absurd enough (not_lt_zero _)
  | succ rounds ih =>
    rw [run]
    match step : s.step with
    | .error fault => exact fun same =>
        s.step_ne_unfinished (step.trans (congrArg _ (Except.error.inj same)))
    | .ok (.inr result) => exact fun same => by cases same
    | .ok (.inl s') =>
      obtain ⟨lively', less⟩ := lively.step step
      exact ih lively' (by omega)

/-! ## The scan tells what the loops do -/

theorem at?_eq_ok (inside : i < data.length) : at? data i = .ok data[i] := by
  rw [at?, List.getElem?_eq_getElem inside]

theorem at?_eq {byte : Byte} (there : data[i]? = some byte) : at? data i = .ok byte := by
  rw [at?, there]

theorem set?_eq_ok {byte : Byte} (inside : i < data.length) :
    set? data i byte = .ok (data.set i byte) :=
  if_pos inside

/-- The copy stays in the vector and keeps what lies in front of it. It is cut off when its source
passes the end of the vector. -/
theorem copySegment_spec {startOffset outIndex j : Size} {place : Nat} (segmentOffset : Size)
    (n : Nat)
    (data : List Byte) (first : (outIndex + j + startOffset).toNat = place)
    (fits : place + n ≤ data.length)
    (small : data.length < 2 ^ 63) (near : segmentOffset.toNat < 2 ^ 16) :
    ∃ complete data', copySegment startOffset outIndex segmentOffset n j data =
      .ok (complete, data') ∧ data'.length = data.length ∧ (∀ k < place, data'[k]? = data[k]?) ∧
      (complete = true ↔ n = 0 ∨ place + n + segmentOffset.toNat ≤ data.length) := by
  induction n generalizing j place data with
  | zero => exact ⟨true, data, rfl, rfl, fun _ _ => rfl, iff_of_true rfl (.inl rfl)⟩
  | succ n ih =>
    have source : (outIndex + j + segmentOffset + startOffset).toNat =
      place + segmentOffset.toNat := by bv_omega
    have following : (outIndex + (j + 1) + startOffset).toNat = place + 1 := by bv_omega
    rw [copySegment, source, first]
    by_cases behind : data.length ≤ place + segmentOffset.toNat
    · rw [if_pos behind]
      refine ⟨false, data, rfl, rfl, fun _ _ => rfl, iff_of_false Bool.false_ne_true ?_⟩
      omega
    · rw [if_neg behind, at?_eq_ok (not_le.mp behind), ok_bind, set?_eq_ok (by omega), ok_bind]
      generalize data[place + segmentOffset.toNat] = byte
      obtain ⟨complete, data', run, length, kept, whole⟩ := ih (data.set place byte) following
        (by rw [length_set]; omega) (by rwa [length_set])
      rw [length_set] at length whole
      refine ⟨complete, data', run, length, fun k before => ?_, whole.trans ?_⟩
      · rw [kept k (lt_succ_of_lt before), List.getElem?_set_ne before.ne']
      · omega

/-- The bits that are left of a control byte. -/
def pending : BlzPoint → Option (Byte × Nat)
  | .control => none
  | .bit control i => if i < 8 then some (control, i) else none

/-- The loops are where a scan is, and what is unread is as it was. -/
structure Follows (byte : Nat → Byte) (base total unread : Nat) (bits : Option (Byte × Nat))
    (left : Nat)
    (s : Blz) : Prop where
  startOffset : s.startOffset.toNat = base
  index : s.index.toNat = unread
  outIndex : s.outIndex.toNat = left
  length : s.data.length = base + total
  small : base + total < 2 ^ 63
  room : left ≤ total
  behind : left ≠ 0 → unread ≤ left
  bytes : left ≠ 0 → ∀ k < unread, s.data[base + k]? = some (byte k)
  point : if left = 0 then s.point = .control else pending s.point = bits

/-- What the scan tells of a step. -/
inductive Agrees (byte : Nat → Byte) (base total : Nat) : BlzVerdict → Outcome → Prop
  | goesOn {s' : Blz} {unread left : Nat} {bits : Option (Byte × Nat)}
      (follows : Follows byte base total unread bits left s') :
      Agrees byte base total (blzScan byte total unread bits left) (.ok (.inl s'))
  | complete (data : List Byte) : Agrees byte base total .complete (.ok (.inr (true, data)))
  | refused (data : List Byte) : Agrees byte base total .refused (.ok (.inr (false, data)))
  | exhausted (outcome : Outcome) : Agrees byte base total .exhausted outcome
  | overtaken (outcome : Outcome) : Agrees byte base total .overtaken outcome

section Follows

variable {byte : Nat → Byte} {base total unread left : Nat} {bits : Option (Byte × Nat)}

section

variable (follows : Follows byte base total unread bits left s)

include follows

theorem Follows.lively : s.Lively := by
  intro control i point _ none
  have at_end := follows.point
  rw [if_pos (by rw [← follows.outIndex, none]; rfl), point] at at_end
  cases at_end

/-- The next bit, or the next control byte, after an item that writes nothing over what is
unread. -/
theorem Follows.next (nonzero : left ≠ 0)
    (data : List Byte) (index outIndex : Size) (fewer : index.toNat ≤ unread)
    (less : outIndex.toNat ≤ left)
    (length : data.length = base + total)
    (kept : ∀ k < base + outIndex.toNat, data[k]? = s.data[k]?)
    (apart : ¬ (outIndex.toNat ≠ 0 ∧ outIndex.toNat < index.toNat)) :
    Agrees byte base total
      (blzScan byte total index.toNat (if i < 7 then some (control, i + 1) else none)
        outIndex.toNat)
      (Blz.next { s with data, index, outIndex } control i) := by
  refine .goesOn ⟨follows.startOffset, rfl, rfl, length, follows.small, less.trans follows.room,
    fun _ => by omega, fun more k before => ?_, ?_⟩
  · dsimp only
    rw [kept _ (by omega)]
    exact follows.bytes nonzero k (by omega)
  · have zero_iff : outIndex = 0 ↔ outIndex.toNat = 0 := by bv_omega
    dsimp only
    by_cases none : outIndex = 0
    · rw [if_pos (zero_iff.mp none), if_pos none]
    · rw [if_neg (zero_iff.not.mp none), if_neg none, pending]
      exact if_congr (by omega) rfl rfl

theorem Follows.step :
    Agrees byte base total (blzScan byte total unread bits left) s.step := by
  obtain ⟨start, index, out, length, small, room, behind, bytes, at_point⟩ := id follows
  by_cases done : left = 0
  · rw [if_pos done] at at_point
    have zero : s.outIndex = 0 := by bv_omega
    rw [blzScan.eq_def, if_pos done, Blz.step, at_point]
    dsimp only
    rw [if_pos zero]
    exact .complete _
  have some_left : s.outIndex ≠ 0 := by bv_omega
  have behind := behind done
  have bytes := bytes done
  rw [if_neg done] at at_point
  -- the byte that is fetched is one of the stream
  have fetch {place : Size} {k : Nat} (there : place.toNat = base + k) (before : k < unread) :
      at? s.data place.toNat = .ok (byte k) := at?_eq (there ▸ bytes k before)
  match point : s.point with
  | .control =>
    rw [point, pending] at at_point
    subst at_point
    rw [Blz.step, point]
    dsimp only
    rw [if_neg some_left, blzScan.eq_def, if_neg done]
    cases unread with
    | zero => exact .exhausted _
    | succ unread =>
      dsimp only
      rw [fetch (k := unread) (by bv_omega) (lt_succ_self _), ok_bind]
      refine .goesOn ⟨start, ?_, out, length, small, room, fun _ => by omega,
        fun _ k before => bytes k (by omega), ?_⟩
      · dsimp only
        bv_omega
      · rw [if_neg done]
        rfl
  | .bit control i =>
    rw [point, pending] at at_point
    rw [Blz.step, point]
    dsimp only
    by_cases below : i < 8
    swap
    · rw [if_neg below] at at_point ⊢
      refine .goesOn { follows with point := ?_ }
      rw [if_neg done, ← at_point]
      rfl
    rw [if_pos below] at at_point ⊢
    subst at_point
    rw [blzScan.eq_def, if_neg done]
    by_cases set : IsReference control i
    · rw [if_pos set, Blz.reference]
      rcases lt_or_ge unread 2 with short | long
      · rw [if_pos (by bv_omega)]
        obtain rfl | rfl : unread = 0 ∨ unread = 1 := by omega
        · dsimp only
          rw [if_pos set]
          exact .refused _
        · dsimp only
          rw [if_pos set]
          exact .refused _
      · obtain ⟨unread, rfl⟩ := Nat.exists_eq_add_of_le' long
        have low : (s.index - 2 + s.startOffset).toNat = base + unread := by bv_omega
        have high : (s.index - 2 + s.startOffset + 1).toNat = base + (unread + 1) := by bv_omega
        have size := segmentSize_eq (blzSegment byte unread) s.outIndex
        obtain ⟨offset, near⟩ := segmentOffset_eq (blzSegment byte unread)
        rw [if_neg (by bv_omega)]
        dsimp only
        rw [if_pos set, fetch low (by omega), fetch high (by omega), ok_bind, ok_bind]
        rw [show byte (unread + 1) ++ byte unread = blzSegment byte unread from rfl]
        generalize blzSegment byte unread = segment at *
        generalize segmentSize segment s.outIndex = bytes at *
        generalize segmentOffset segment = distance at *
        have first : (s.outIndex - bytes + 0 + s.startOffset).toNat =
        base + (left - bytes.toNat) := by bv_omega
        obtain ⟨complete, data, run, length', kept, whole⟩ :=
          copySegment_spec distance bytes.toNat s.data first (by omega) (by omega) (by omega)
        rw [run, ok_bind]
        dsimp only
        have out' : (s.outIndex - bytes).toNat = left - (((segment >>> 12) &&& 0xF).toNat + 3) := by
          bv_omega
        have index' : (s.index - 2).toNat = unread := by bv_omega
        rw [← offset]
        by_cases refused : total < left + distance.toNat
        · rw [if_pos refused, if_neg (whole.not.mpr (by omega))]
          exact .refused _
        rw [if_neg refused, if_pos (whole.mpr (by omega))]
        by_cases overtakes : left - (((segment >>> 12) &&& 0xF).toNat + 3) ≠ 0 ∧
            left - (((segment >>> 12) &&& 0xF).toNat + 3) < unread
        · rw [if_pos overtakes]
          exact .overtaken _
        · rw [if_neg overtakes, ← out', ← index']
          refine follows.next done data (s.index - 2) (s.outIndex - bytes) (by omega) (by omega)
            (length'.trans length) (fun k before => kept k ?_) (by rwa [out', index'])
          omega
    · rw [if_neg set, Blz.literal, if_neg (by bv_omega)]
      cases unread with
      | zero =>
        dsimp only
        rw [if_neg set]
        exact .exhausted _
      | succ unread =>
        dsimp only
        have place : (s.outIndex - 1 + s.startOffset).toNat = base + (left - 1) := by bv_omega
        rw [if_neg set, fetch (k := unread) (by bv_omega) (lt_succ_self _), ok_bind, place,
          set?_eq_ok (by omega), ok_bind]
        have out' : (s.outIndex - 1).toNat = left - 1 := by bv_omega
        have index' : (s.index - 1).toNat = unread := by bv_omega
        by_cases overtakes : left - 1 ≠ 0 ∧ left - 1 < unread
        · rw [if_pos overtakes]
          exact .overtaken _
        · rw [if_neg overtakes, ← out', ← index']
          exact follows.next done _ _ _ (by omega) (by omega) (by rw [length_set]; exact length)
            (fun k before => List.getElem?_set_ne (by omega)) (by rwa [out', index'])

theorem Follows.run {rounds : Nat} (enough : s.roundsLeft < rounds)
    (covered : blzScan byte total unread bits left = .complete ∨
    blzScan byte total unread bits left = .refused) :
    ∃ out, s.run rounds = .ok (decide (blzScan byte total unread bits left = .complete), out) := by
  induction rounds generalizing s unread bits left with
  | zero => exact absurd enough (not_lt_zero _)
  | succ rounds ih =>
    have agrees := follows.step
    rw [Blz.run]
    generalize blzScan byte total unread bits left = verdict at agrees covered
    generalize step : s.step = outcome at agrees
    cases agrees with
    | goesOn follows' =>
      obtain ⟨-, less⟩ := follows.lively.step step
      exact ih follows' (by omega) covered
    | complete data => exact ⟨data, rfl⟩
    | refused data => exact ⟨data, rfl⟩
    | exhausted => rcases covered with absurdity | absurdity <;> cases absurdity
    | overtaken => rcases covered with absurdity | absurdity <;> cases absurdity

end

end Follows

/-! ## The whole call -/

theorem readU32_eq (data : List Byte) (i : Nat) (inside : i + 3 < data.length) :
    readU32 data i = .ok (blzWord data i) := by
  have read (k : Nat) (below : k < data.length) : at? data k = .ok (data.getD k 0) := by
    rw [at?_eq_ok below, getD_eq_getElem?_getD, List.getElem?_eq_getElem below, Option.getD_some]
  rw [readU32, read _ (by omega), read _ (by omega), read _ (by omega), read _ (by omega)]
  rfl

/-- The loops start as lively ones, unless no vector can be so long. -/
theorem start_lively (long : 0xC ≤ data.length) :
    start data = .error .lengthError ∨ ∃ s, start data = .ok s ∧ s.Lively := by
  rw [start, readU32_eq data _ (by omega), readU32_eq data _ (by omega),
    readU32_eq data _ (by omega), ok_bind, ok_bind, ok_bind]
  dsimp only
  rw [resize]
  split_ifs with large
  · exact .inl rfl
  · exact .inr ⟨_, rfl, fun _ _ same => (by cases same)⟩

/-- When the sizes fit, the loops start where the scan does. -/
theorem start_follows (long : 0xC ≤ data.length) (fits : (blzFooter data).Fits data.length) :
    ∃ s, start data = .ok s ∧
      Follows (fun i => data.getD (data.length - (blzFooter data).compressedSize + i) 0)
        (data.length - (blzFooter data).compressedSize)
        ((blzFooter data).compressedSize + (blzFooter data).additionalSize)
        ((blzFooter data).compressedSize - (blzFooter data).initIndex) none
        ((blzFooter data).compressedSize + (blzFooter data).additionalSize) s := by
  obtain ⟨stream, compressed, output, vector⟩ := fits
  rw [start, readU32_eq data _ (by omega), readU32_eq data _ (by omega),
    readU32_eq data _ (by omega), ok_bind, ok_bind, ok_bind]
  rw [blzFooter] at *
  dsimp only at *
  generalize blzWord data (data.length - 0xC) = cs at *
  generalize blzWord data (data.length - 0xC + 0x4) = ii at *
  generalize blzWord data (data.length - 0xC + 0x8) = as at *
  have base :
      (BitVec.ofNat 64 data.length - cs.setWidth 64).toNat = data.length - cs.toNat := by bv_omega
  have size : ((cs + as).setWidth 64 + (BitVec.ofNat 64 data.length - cs.setWidth 64)).toNat =
      data.length + as.toNat := by bv_omega
  rw [resize, size, if_neg (by omega), ok_bind]
  refine ⟨_, rfl, base, ?_, ?_, ?_, ?_, le_rfl, fun _ => by omega, fun _ k before => ?_, ?_⟩
  · dsimp only
    bv_omega
  · dsimp only
    bv_omega
  · dsimp only
    rw [length_append, length_take, length_replicate]
    omega
  · omega
  · dsimp only
    rw [List.getElem?_append_left (by rw [length_take]; omega),
      List.getElem?_take_of_lt (by omega), List.getElem?_eq_getElem (by omega),
      getD_eq_getElem?_getD, List.getElem?_eq_getElem (by omega), Option.getD_some]
  · dsimp only
    split_ifs <;> rfl

end Blz

/-- The loops come to an end for every vector. Where it is covered, every access is in the vector,
and the call fails if the vector is malformed. -/
theorem decompressBLZ_safe :
    decompressBLZ data ≠ .error .unfinished ∧ (BlzCovered data → BlzSafe data) := by
  by_cases short : data.length < 0xC
  · have result : decompressBLZ data = .ok (false, data) := if_pos short
    exact ⟨fun same => (by rw [result] at same; cases same),
      fun _ => ⟨false, data, result, fun _ => rfl⟩⟩
  have long : 0xC ≤ data.length := not_lt.mp short
  rw [BlzSafe, decompressBLZ, if_neg short]
  constructor
  · obtain fails | ⟨s, started, lively⟩ := Blz.start_lively long
    · rw [fails, error_bind]
      exact fun same => by cases same
    · rw [started, ok_bind]
      exact lively.run_ne_unfinished (lt_succ_self _)
  · intro covered
    obtain ⟨fits, verdict⟩ := covered.resolve_left short
    obtain ⟨s, started, follows⟩ := Blz.start_follows long fits
    obtain ⟨out, run⟩ := follows.run (lt_succ_self s.roundsLeft) verdict
    rw [started, ok_bind]
    refine ⟨_, out, run, fun malformed => decide_eq_false fun complete => malformed ?_⟩
    exact ⟨long, fits, complete⟩

/-- Three bytes that stand for themselves, and a reference to them for the fifteen others. -/
theorem decompressBLZ_safe_reference :
    decompressBLZ [0, 0xC0, 3, 2, 1, 0x10, 18, 0, 0, 0, 12, 0, 0, 0, 0, 0, 0, 0] ≠
      .error .unfinished ∧ BlzSafe [0, 0xC0, 3, 2, 1, 0x10, 18, 0, 0, 0, 12, 0, 0, 0, 0, 0, 0, 0] :=
  (decompressBLZ_safe _).imp_right fun safe =>
    safe (.inr ⟨⟨by decide, by decide, by decide, by decide⟩, .inl (by decide)⟩)

/-- The sizes alone, with nothing in front of them to decompress and an output of twelve bytes. -/
theorem not_blzSafe_sizes : ¬ BlzSafe [12, 0, 0, 0, 12, 0, 0, 0, 0, 0, 0, 0] := by
  have run : decompressBLZ [12, 0, 0, 0, 12, 0, 0, 0, 0, 0, 0, 0] = .error .outOfRange := by decide
  rintro ⟨complete, out, absurdity, -⟩
  rw [run] at absurdity
  cases absurdity

end SumiEmu.FileSys
