/-
# The instruction decoder of Maxwell shaders

An encoding is a string of `0`, `1` and `-`, read from the topmost bit of an instruction down. The
encodings are sorted by the number of bits they fix and folded into a table of rows of two entries,
one row for each value of the bits that any encoding fixes. An entry that no encoding has filled is
zero. Decoding an instruction looks up its row and takes the first entry whose mask and value fit.
-/

import Mathlib.Data.BitVec
import SumiEmu.Foundations.Fallible

namespace SumiEmu.ShaderRecompiler.Decode

open List

/-- The number of an opcode in its enumeration. -/
abbrev Opcode := Nat

/-- How a decoding may end. -/
inductive Fault
  | logicError (message : String)
  | notImplementedException (insn : BitVec 64)
  /-- What `at` throws beyond the end of an array. -/
  | outOfRange
  /-- An array read beyond its end without a check. -/
  | outOfBounds
  /-- A shift by the whole width, which no constant expression may contain. -/
  | shiftTooLarge
  deriving DecidableEq

/-! ## Encodings -/

/-- `MaskValue`. -/
structure MaskValue where
  mask : BitVec 64
  value : BitVec 64
  deriving DecidableEq

/-- What one character of an encoding adds at its bit. -/
def readCharacter (parsed : MaskValue) (bit : BitVec 64) : Char → Except Fault MaskValue
  | '0' => .ok { parsed with mask := parsed.mask ||| bit }
  | '1' => .ok { mask := parsed.mask ||| bit, value := parsed.value ||| bit }
  | '-' => .ok parsed
  | ' ' => .ok parsed
  | c => .error (.logicError ("Invalid encoding character '" ++ c.toString ++ "'"))

/-- The loop of `maskValueFromEncoding`, at the bit of the first character that is left. -/
def maskValueLoop : List Char → MaskValue → BitVec 64 → Except Fault MaskValue
  | [], parsed, _ => .ok parsed
  | c :: rest, parsed, bit => do
    let parsed ← readCharacter parsed bit c
    -- The bit moves on unless the next character is a blank, and the end of the string is none.
    maskValueLoop rest parsed (if rest.head? = some ' ' then bit else bit >>> 1)

/-- `MaskValueFromEncoding`. -/
def maskValueFromEncoding (encoding : List Char) : Except Fault MaskValue :=
  maskValueLoop encoding ⟨0, 0⟩ (1#64 <<< 63)

/-- `InstEncoding`. -/
structure InstEncoding where
  maskValue : MaskValue
  opcode : Opcode
  deriving DecidableEq

/-- The table as it is written: a list of encodings with their opcodes. -/
def unorderedEncodings (table : List (Opcode × List Char)) : Except Fault (List InstEncoding) :=
  table.mapM (fun line => do
    let maskValue ← maskValueFromEncoding line.2
    pure ⟨maskValue, line.1⟩)

/-- The number of bits that an encoding fixes. -/
def InstEncoding.popcount (encoding : InstEncoding) : Nat := encoding.maskValue.mask.cpop.toNat

/-- What sorting leaves: the encodings in some order in which the number of fixed bits does not
grow. The sort is not stable, so it may leave any such order. -/
structure SortedEncodings (unordered encodings : List InstEncoding) : Prop where
  perm : encodings.Perm unordered
  sorted : encodings.Pairwise (fun lhs rhs => rhs.popcount ≤ lhs.popcount)

/-! ## The lookup table -/

variable (encodings : List InstEncoding)

/-- `WidestLeftBits`. -/
def widestLeftBits : Nat :=
  64 - encodings.foldl (fun bits encoding => min bits encoding.maskValue.mask.ctz.toNat) 64

/-- `MASK_SHIFT`. -/
def maskShift : Nat := 64 - widestLeftBits encodings

/-- `ToFastLookupIndex`. -/
def toFastLookupIndex (shift : Nat) (value : BitVec 64) : BitVec 64 := value >>> shift

/-- One more than the widest mask, as a number of 64 bits. -/
def fastLookupSize (shift : Nat) : Nat :=
  let maxWidth := encodings.foldl
    (fun maxWidth encoding =>
      max maxWidth (toFastLookupIndex shift encoding.maskValue.mask).toNat) 0
  (maxWidth + 1) % 2 ^ 64

/-- `InstInfo`. -/
structure InstInfo where
  highMask : BitVec 16
  highValue : BitVec 16
  opcode : Opcode
  deriving DecidableEq

/-- `Mask`. -/
def InstInfo.mask (info : InstInfo) (shift : Nat) : BitVec 64 := info.highMask.setWidth 64 <<< shift

/-- `Value`. -/
def InstInfo.value (info : InstInfo) (shift : Nat) : BitVec 64 :=
  info.highValue.setWidth 64 <<< shift

/-- An entry that no encoding has filled. -/
def InstInfo.empty : InstInfo := ⟨0, 0, 0⟩

/-- The row entry of an encoding. -/
def InstEncoding.info (shift : Nat) (encoding : InstEncoding) : InstInfo :=
  { highMask := (encoding.maskValue.mask >>> shift).setWidth 16
    highValue := (encoding.maskValue.value >>> shift).setWidth 16
    opcode := encoding.opcode }

/-- The encoding has the bits of the index that the table looks at. -/
def InstEncoding.MatchesIndex (shift : Nat) (index : BitVec 64) (encoding : InstEncoding) : Prop :=
  index &&& toFastLookupIndex shift encoding.maskValue.mask =
    toFastLookupIndex shift encoding.maskValue.value

instance (shift : Nat) (index : BitVec 64) (encoding : InstEncoding) :
    Decidable (encoding.MatchesIndex shift index) :=
  inferInstanceAs (Decidable (_ = _))

/-- The loop of `makeFastLookupTableIndex`, with the row and the element to fill next. -/
def fillRow (shift : Nat) (index : BitVec 64) :
    List InstEncoding → List InstInfo → Nat → Except Fault (List InstInfo)
  | [], row, _ => .ok row
  | encoding :: rest, row, element =>
    if encoding.MatchesIndex shift index then
      if element < row.length then
        fillRow shift index rest (row.set element (encoding.info shift)) (element + 1)
      else
        .error .outOfRange
    else
      fillRow shift index rest row element

/-- `MakeFastLookupTableIndex`. -/
def makeFastLookupTableIndex (shift : Nat) (index : Nat) : Except Fault (List InstInfo) :=
  fillRow shift (BitVec.ofNat 64 index) encodings [.empty, .empty] 0

/-- The table that decoding reads. -/
structure FastLookupTable where
  shift : Nat
  rows : List (List InstInfo)
  deriving DecidableEq

/-- `MakeFastLookupTable`. -/
def makeFastLookupTable : Except Fault FastLookupTable :=
  let shift := maskShift encodings
  if shift < 64 then do
    let rows ← (range (fastLookupSize encodings shift)).mapM
      (makeFastLookupTableIndex encodings shift)
    pure ⟨shift, rows⟩
  else
    .error .shiftTooLarge

/-! ## Decoding -/

/-- The entry fits an instruction. -/
def InstInfo.Matches (shift : Nat) (insn : BitVec 64) (info : InstInfo) : Prop :=
  insn &&& info.mask shift = info.value shift

instance (shift : Nat) (insn : BitVec 64) (info : InstInfo) :
    Decidable (info.Matches shift insn) :=
  inferInstanceAs (Decidable (_ = _))

/-- `Decode`. -/
def decode (table : FastLookupTable) (insn : BitVec 64) : Except Fault Opcode :=
  match table.rows[(toFastLookupIndex table.shift insn).toNat]? with
  | none => .error .outOfBounds
  | some row =>
    match row.find? (fun info => decide (info.Matches table.shift insn)) with
    | some info => .ok info.opcode
    | none => .error (.notImplementedException insn)

end SumiEmu.ShaderRecompiler.Decode

/-!
## When decoding agrees with the encodings

A row holds the encodings that match its index, the one with the most fixed bits first, and zero
entries after them. A zero entry fits every instruction. So an instruction whose row exists is
decoded to the first matching encoding, and where there is none, to the opcode with the number zero.
-/

namespace SumiEmu.ShaderRecompiler.Decode

open SumiEmu.Fallible List Nat

variable {table : List (Opcode × List Char)} {unordered encodings : List InstEncoding}
  {encoding : InstEncoding} {parsed : MaskValue} {shift : Nat} {insn index : BitVec 64}

/-! ## What encodings demand -/

/-- The bits that the encoding fixes have their values in the instruction. -/
def InstEncoding.Matches (insn : BitVec 64) (encoding : InstEncoding) : Prop :=
  insn &&& encoding.maskValue.mask = encoding.maskValue.value

instance (insn : BitVec 64) (encoding : InstEncoding) : Decidable (encoding.Matches insn) :=
  inferInstanceAs (Decidable (_ = _))

/-- A value has no bits outside of its mask. -/
def MaskValue.Within (parsed : MaskValue) : Prop :=
  ∀ i, parsed.value.getLsbD i = true → parsed.mask.getLsbD i = true

theorem within_of_maskValueLoop {chars : List Char} {start : MaskValue} {bit : BitVec 64}
    (within : start.Within) (done : maskValueLoop chars start bit = .ok parsed) :
    parsed.Within := by
  induction chars generalizing start bit with
  | nil =>
    obtain rfl := Except.ok.inj done
    exact within
  | cons c rest ih =>
    rw [maskValueLoop] at done
    obtain ⟨next, read, more⟩ := bind_eq_ok.1 done
    refine ih ?_ more
    intro i set
    unfold readCharacter at read
    split at read
    · obtain rfl := Except.ok.inj read
      rw [BitVec.getLsbD_or, within i set, Bool.true_or]
    · obtain rfl := Except.ok.inj read
      rw [BitVec.getLsbD_or, Bool.or_eq_true] at set ⊢
      exact set.imp (within i) id
    · obtain rfl := Except.ok.inj read
      exact within i set
    · obtain rfl := Except.ok.inj read
      exact within i set
    · contradiction

theorem within_of_maskValueFromEncoding {chars : List Char}
    (done : maskValueFromEncoding chars = .ok parsed) : parsed.Within :=
  within_of_maskValueLoop (fun i set => by simp at set) done

theorem within_of_unorderedEncodings (done : unorderedEncodings table = .ok unordered)
    (member : encoding ∈ unordered) : encoding.maskValue.Within := by
  obtain ⟨line, _, read⟩ := exists_of_mem_mapM done member
  obtain ⟨maskValue, parsedOk, same⟩ := bind_eq_ok.1 read
  obtain rfl := Except.ok.inj same
  exact within_of_maskValueFromEncoding parsedOk

/-! ## The bits that the table looks at -/

/-- No encoding looks below the shift. -/
def Above (shift : Nat) (encoding : InstEncoding) : Prop :=
  ∀ i, i < shift → encoding.maskValue.mask.getLsbD i = false

theorem foldl_min_le (start : Nat) : encodings.foldl
    (fun bits encoding => min bits encoding.maskValue.mask.ctz.toNat) start ≤ start := by
  induction encodings generalizing start with
  | nil => exact le_refl start
  | cons first rest ih => exact le_trans (ih _) (min_le_left start _)

theorem foldl_min_le_of_mem (start : Nat) (member : encoding ∈ encodings) : encodings.foldl
    (fun bits encoding => min bits encoding.maskValue.mask.ctz.toNat) start ≤
      encoding.maskValue.mask.ctz.toNat := by
  induction encodings generalizing start with
  | nil => contradiction
  | cons first rest ih =>
    rcases mem_cons.1 member with rfl | later
    · rw [foldl_cons]
      exact le_trans (foldl_min_le _) (min_le_right start _)
    · exact ih _ later

theorem above_maskShift (member : encoding ∈ encodings) :
    Above (maskShift encodings) encoding := by
  intro i below
  have bound := foldl_min_le_of_mem 64 member
  rw [maskShift, widestLeftBits, Nat.sub_sub_self (foldl_min_le 64)] at below
  exact BitVec.getLsbD_false_of_lt_ctz (lt_of_lt_of_le below bound)

/-- Two words without bits below the shift are the same when they are above it. -/
theorem eq_iff_ushiftRight {x y : BitVec 64} (lowX : ∀ i, i < shift → x.getLsbD i = false)
    (lowY : ∀ i, i < shift → y.getLsbD i = false) : x >>> shift = y >>> shift ↔ x = y := by
  refine ⟨fun same => ?_, fun same => by rw [same]⟩
  apply BitVec.eq_of_getLsbD_eq
  intro i inside
  by_cases below : i < shift
  · rw [lowX i below, lowY i below]
  · have high : (x >>> shift).getLsbD (i - shift) = (y >>> shift).getLsbD (i - shift) := by
      rw [same]
    rwa [BitVec.getLsbD_ushiftRight, BitVec.getLsbD_ushiftRight,
      Nat.add_sub_of_le (Nat.le_of_not_lt below)] at high

theorem value_above (within : encoding.maskValue.Within) (above : Above shift encoding) {i : Nat}
    (below : i < shift) : encoding.maskValue.value.getLsbD i = false := by
  by_contra set
  rw [Bool.not_eq_false] at set
  have fixed := within i set
  rw [above i below] at fixed
  contradiction

/-- The bits in the row's index decide. -/
theorem matchesIndex_iff (within : encoding.maskValue.Within) (above : Above shift encoding) :
    encoding.MatchesIndex shift (toFastLookupIndex shift insn) ↔ encoding.Matches insn := by
  rw [InstEncoding.MatchesIndex, toFastLookupIndex, toFastLookupIndex, toFastLookupIndex,
    ← BitVec.ushiftRight_and_distrib, eq_iff_ushiftRight, InstEncoding.Matches]
  · intro i below
    rw [BitVec.getLsbD_and, above i below, Bool.and_false]
  · exact fun i below => value_above within above below

/-- An entry keeps only sixteen of the bits, and demands no more than its encoding. -/
theorem info_matches (fits : encoding.Matches insn) : (encoding.info shift).Matches shift insn := by
  apply BitVec.eq_of_getLsbD_eq
  intro i inside
  have bit : (insn &&& encoding.maskValue.mask).getLsbD i = encoding.maskValue.value.getLsbD i := by
    rw [fits]
  rw [BitVec.getLsbD_and] at bit
  simp only [InstInfo.mask, InstInfo.value, InstEncoding.info, BitVec.getLsbD_and,
    BitVec.getLsbD_shiftLeft, BitVec.getLsbD_setWidth, BitVec.getLsbD_ushiftRight, inside]
  by_cases below : i < shift
  · simp [below]
  · rw [Nat.add_sub_of_le (Nat.le_of_not_lt below), ← bit]
    cases insn.getLsbD i <;> simp

theorem empty_matches (shift : Nat) (insn : BitVec 64) : InstInfo.empty.Matches shift insn := by
  rw [InstInfo.Matches, InstInfo.mask, InstInfo.value, InstInfo.empty]
  simp

/-! ## Rows -/

/-- The encodings that match the instruction, in the order of the sorted ones. -/
def matching (encodings : List InstEncoding) (insn : BitVec 64) : List InstEncoding :=
  encodings.filter (fun encoding => encoding.Matches insn)

/-- What filling a row leaves: the entries before the place, the matching encodings from there on,
and the entries behind them. -/
theorem fillRow_spec {row result : List InstInfo} {element : Nat}
    (done : fillRow shift index encodings row element = .ok result) (room : element ≤ row.length) :
    let found := encodings.filter (fun encoding => encoding.MatchesIndex shift index)
    element + found.length ≤ row.length ∧
      result = row.take element ++ found.map (InstEncoding.info shift) ++
        row.drop (element + found.length) := by
  induction encodings generalizing row element with
  | nil =>
    obtain rfl := Except.ok.inj done
    exact ⟨room, by simp⟩
  | cons encoding rest ih =>
    dsimp only at ih ⊢
    rw [fillRow] at done
    by_cases fits : encoding.MatchesIndex shift index
    · rw [if_pos fits] at done
      by_cases free : element < row.length
      · rw [if_pos free] at done
        obtain ⟨enough, filled⟩ := ih done (by rw [length_set]; exact free)
        rw [length_set] at enough
        rw [filter_cons, if_pos (decide_eq_true fits), length_cons, map_cons]
        refine ⟨by omega, ?_⟩
        rw [filled, take_add_one, take_set_of_le (le_refl element),
          getElem?_set_self free, Option.toList_some, drop_set_of_lt (by omega),
          add_right_comm, append_assoc (row.take element)]
        rfl
      · rw [if_neg free] at done
        contradiction
    · rw [if_neg fits] at done
      rw [filter_cons, if_neg (by simpa using fits)]
      exact ih done room


/-! ## Decoding -/

/-- The encodings have been parsed, and the shift is that of the table. -/
structure Laid (shift : Nat) (encodings : List InstEncoding) : Prop where
  within : ∀ encoding ∈ encodings, encoding.maskValue.Within
  above : ∀ encoding ∈ encodings, Above shift encoding

theorem filter_matchesIndex (laid : Laid shift encodings) :
    encodings.filter (fun encoding => encoding.MatchesIndex shift (toFastLookupIndex shift insn)) =
      matching encodings insn := by
  apply filter_congr
  intro encoding member
  rw [decide_eq_decide]
  exact matchesIndex_iff (laid.within encoding member) (laid.above encoding member)

/-- The first entry of the row of an instruction. -/
theorem head_row {row : List InstInfo} (laid : Laid shift encodings)
    (made : makeFastLookupTableIndex encodings shift (toFastLookupIndex shift insn).toNat =
      .ok row) :
    row.head? = some (((matching encodings insn).head?.map (InstEncoding.info shift)).getD
      .empty) := by
  rw [makeFastLookupTableIndex, BitVec.ofNat_toNat, BitVec.setWidth_eq] at made
  obtain ⟨_, filled⟩ := fillRow_spec made (zero_le _)
  rw [filter_matchesIndex laid, take_zero, nil_append] at filled
  rw [filled]
  cases matching encodings insn <;> rfl

/-- A looked-up instruction is decoded to its first matching encoding, or to zero. -/
theorem find_row {row : List InstInfo} (laid : Laid shift encodings)
    (made : makeFastLookupTableIndex encodings shift (toFastLookupIndex shift insn).toNat =
      .ok row) :
    ∃ info, row.find? (fun info => decide (info.Matches shift insn)) = some info ∧
      info.opcode = ((matching encodings insn).head?.map InstEncoding.opcode).getD 0 := by
  have head := head_row laid made
  cases row with
  | nil => contradiction
  | cons first rest =>
    rw [head?_cons] at head
    obtain rfl := Option.some.inj head
    cases found : matching encodings insn with
    | nil =>
      refine ⟨.empty, ?_, rfl⟩
      exact find?_cons_of_pos (decide_eq_true (empty_matches shift insn))
    | cons encoding others =>
      have member : encoding ∈ matching encodings insn := by
        rw [found]
        exact mem_cons_self
      have fits := of_decide_eq_true (mem_filter.1 member).2
      refine ⟨encoding.info shift, ?_, rfl⟩
      exact find?_cons_of_pos (decide_eq_true (info_matches fits))

variable {fast : FastLookupTable}

/-- The rows of a table that could be built. -/
theorem row_of_index (built : makeFastLookupTable encodings = .ok fast) {i : Nat} :
    fast.shift = maskShift encodings ∧
      fast.rows.length = fastLookupSize encodings (maskShift encodings) ∧
      ∀ row, fast.rows[i]? = some row →
        makeFastLookupTableIndex encodings (maskShift encodings) i = .ok row := by
  rw [makeFastLookupTable] at built
  split at built
  · obtain ⟨rows, made, same⟩ := bind_eq_ok.1 built
    obtain rfl := Except.ok.inj same
    have pairs := mapM_eq_ok made
    refine ⟨rfl, by rw [← pairs.length_eq, length_range], ?_⟩
    intro row found
    obtain ⟨inside, rfl⟩ := List.getElem?_eq_some_iff.1 found
    have inRange : i < (range (fastLookupSize encodings (maskShift encodings))).length := by
      rwa [pairs.length_eq]
    have call := pairs.get inRange inside
    rwa [get_eq_getElem, getElem_range] at call
  · contradiction

/-- Decoding a word: its row is outside of the table, or its first matching encoding is taken, or
zero. -/
theorem decode_eq (within : ∀ encoding ∈ encodings, encoding.maskValue.Within)
    (built : makeFastLookupTable encodings = .ok fast) (insn : BitVec 64) :
    decode fast insn =
      if (toFastLookupIndex (maskShift encodings) insn).toNat <
          fastLookupSize encodings (maskShift encodings) then
        .ok (((matching encodings insn).head?.map InstEncoding.opcode).getD 0)
      else
        .error .outOfBounds := by
  obtain ⟨shift, length, rows⟩ := row_of_index
    (i := (toFastLookupIndex (maskShift encodings) insn).toNat) built
  have laid : Laid (maskShift encodings) encodings := ⟨within, fun _ => above_maskShift⟩
  rw [decode, shift]
  by_cases inside : (toFastLookupIndex (maskShift encodings) insn).toNat <
      fastLookupSize encodings (maskShift encodings)
  · have found := getElem?_eq_getElem (length ▸ inside)
    obtain ⟨info, first, opcode⟩ := find_row laid (rows _ found)
    rw [if_pos inside, found]
    dsimp only
    rw [first, ← opcode]
  · rw [if_neg inside, getElem?_eq_none (by rw [length]; exact Nat.le_of_not_lt inside)]

/-- The decoder returns the opcode of a matching encoding that fixes as many bits as any, and throws
where no encoding matches. -/
def Agrees (unordered : List InstEncoding) (insn : BitVec 64) (outcome : Except Fault Opcode) :
    Prop :=
  ((∃ encoding ∈ unordered, encoding.Matches insn) →
    ∃ encoding ∈ unordered, encoding.Matches insn ∧
      (∀ other ∈ unordered, other.Matches insn → other.popcount ≤ encoding.popcount) ∧
      outcome = .ok encoding.opcode) ∧
  ((¬ ∃ encoding ∈ unordered, encoding.Matches insn) →
    outcome = .error (.notImplementedException insn))

theorem mem_matching {encoding : InstEncoding} :
    encoding ∈ matching encodings insn ↔ encoding ∈ encodings ∧ encoding.Matches insn := by
  rw [matching, mem_filter, decide_eq_true_iff]

/-- The first matching encoding fixes the most bits. -/
theorem head_matching {others : List InstEncoding} (order : SortedEncodings unordered encodings)
    (found : matching encodings insn = encoding :: others) :
    encoding ∈ unordered ∧ encoding.Matches insn ∧
      ∀ other ∈ unordered, other.Matches insn → other.popcount ≤ encoding.popcount := by
  have member : encoding ∈ matching encodings insn := by
    rw [found]
    exact mem_cons_self
  obtain ⟨inEncodings, fits⟩ := mem_matching.1 member
  refine ⟨order.perm.mem_iff.1 inEncodings, fits, ?_⟩
  intro other inTable otherFits
  have later : other ∈ matching encodings insn :=
    mem_matching.2 ⟨order.perm.mem_iff.2 inTable, otherFits⟩
  have sorted := order.sorted.filter (fun encoding => encoding.Matches insn)
  rw [show encodings.filter _ = encoding :: others from found, pairwise_cons] at sorted
  rw [found] at later
  rcases mem_cons.1 later with rfl | behind
  · exact le_refl _
  · exact sorted.1 other behind

/-- Decoding agrees with the encodings exactly on the words that some encoding matches and whose row
is in the table. -/
theorem decode_agrees_iff (parsed : unorderedEncodings table = .ok unordered)
    (order : SortedEncodings unordered encodings)
    (built : makeFastLookupTable encodings = .ok fast) (insn : BitVec 64) :
    Agrees unordered insn (decode fast insn) ↔
      (∃ encoding ∈ unordered, encoding.Matches insn) ∧
        (toFastLookupIndex (maskShift encodings) insn).toNat <
          fastLookupSize encodings (maskShift encodings) := by
  have within : ∀ encoding ∈ encodings, encoding.maskValue.Within := fun encoding member =>
    within_of_unorderedEncodings parsed (order.perm.mem_iff.1 member)
  rw [decode_eq within built]
  constructor
  · rintro ⟨whenMatched, whenNot⟩
    by_cases matched : ∃ encoding ∈ unordered, encoding.Matches insn
    · refine ⟨matched, ?_⟩
      by_contra outside
      obtain ⟨encoding, _, _, _, same⟩ := whenMatched matched
      rw [if_neg outside] at same
      contradiction
    · have same := whenNot matched
      split at same
      · cases same
      · cases same
  · rintro ⟨matched, inside⟩
    rw [if_pos inside]
    refine ⟨fun _ => ?_, fun none => absurd matched none⟩
    cases found : matching encodings insn with
    | nil =>
      obtain ⟨encoding, inTable, fits⟩ := matched
      have member := mem_matching.2 ⟨order.perm.mem_iff.2 inTable, fits⟩
      rw [found] at member
      contradiction
    | cons encoding others =>
      obtain ⟨inTable, fits, most⟩ := head_matching order found
      exact ⟨encoding, inTable, fits, most, rfl⟩

theorem decode_agrees_iff_one_bit : ∃ unordered fast,
    unorderedEncodings [(3, ['1'])] = .ok unordered ∧ makeFastLookupTable unordered = .ok fast ∧
    (Agrees unordered 0xa000000000000000 (decode fast 0xa000000000000000) ↔
      (∃ encoding ∈ unordered, encoding.Matches 0xa000000000000000) ∧
        (toFastLookupIndex (maskShift unordered) 0xa000000000000000).toNat <
          fastLookupSize unordered (maskShift unordered)) := by
  have parsed : unorderedEncodings [(3, ['1'])] =
      .ok [⟨⟨0x8000000000000000, 0x8000000000000000⟩, 3⟩] := by
    decide
  have built : makeFastLookupTable [⟨⟨0x8000000000000000, 0x8000000000000000⟩, 3⟩] =
      .ok ⟨63, [[.empty, .empty], [⟨1, 1, 3⟩, .empty]]⟩ := by decide +kernel
  exact ⟨_, _, parsed, built,
    decode_agrees_iff parsed ⟨.refl _, pairwise_singleton ..⟩ built 0xa000000000000000⟩

/-- With the encodings of `ATOM` and `ATOMS`, the zero word matches neither and is decoded to the
opcode with the number zero. -/
theorem decode_unknown : ∃ unordered fast,
    unorderedEncodings [(4, "1110 1101 ---- ----".toList), (6, "1110 1100 ---- ----".toList)] =
      .ok unordered ∧
    SortedEncodings unordered unordered ∧ makeFastLookupTable unordered = .ok fast ∧
    decode fast 0 = .ok 0 ∧ ¬ Agrees unordered 0 (decode fast 0) := by
  have parsed : unorderedEncodings
      [(4, "1110 1101 ---- ----".toList), (6, "1110 1100 ---- ----".toList)] =
        .ok [⟨⟨0xff00000000000000, 0xed00000000000000⟩, 4⟩,
          ⟨⟨0xff00000000000000, 0xec00000000000000⟩, 6⟩] := by
    decide
  have builds : (makeFastLookupTable
      [⟨⟨0xff00000000000000, 0xed00000000000000⟩, 4⟩,
        ⟨⟨0xff00000000000000, 0xec00000000000000⟩, 6⟩]).toOption.isSome = true := by
    decide +kernel
  cases built : makeFastLookupTable
      [⟨⟨0xff00000000000000, 0xed00000000000000⟩, 4⟩,
        ⟨⟨0xff00000000000000, 0xec00000000000000⟩, 6⟩] with
  | error fault =>
    rw [built] at builds
    contradiction
  | ok fast =>
    have zero : decode fast 0 = .ok 0 := by
      rw [decode_eq (fun _ => within_of_unorderedEncodings parsed) built]
      decide +kernel
    refine ⟨_, fast, parsed, ⟨.refl _, by decide +kernel⟩, built, zero, ?_⟩
    rintro ⟨_, whenNot⟩
    have throws := whenNot (by decide +kernel)
    rw [zero] at throws
    exact Except.noConfusion rfl rfl (heq_of_eq throws)

end SumiEmu.ShaderRecompiler.Decode
