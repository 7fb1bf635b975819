/-
# Files put one behind the other

A concatenated file is a map from offsets to member files. Where the members leave a gap, a file of
filler bytes stands in it, so that the map has no holes. A read looks for the last member that
starts at its offset or before it, and goes on from member to member. Offsets are naturals, so the
end of every member is one, also where 64 bits would not hold it.

The content of the concatenation is told by the list of members alone. Reading is shown to bring
the slice of that content that lies inside the file.
-/

import SumiEmu.FileSys.VirtualFile
import SumiEmu.Foundations.Bisection

namespace SumiEmu.FileSys

open Nat

/-- A file with its offset. -/
structure ConcatenationEntry where
  offset : Nat
  file : VirtualFile

/-- A file of one byte all over. -/
def staticVfsFile (value : Byte) (size : Nat) : VirtualFile := ⟨size, fun _ => value⟩

/-- `ConcatenatedVfsFile`. -/
structure ConcatenatedVfsFile where
  concatenationMap : List ConcatenationEntry

namespace ConcatenatedVfsFile

open List

/-- What is made of a list of files: nothing of none, and of a single one itself. -/
inductive Made
  | null
  | single (file : VirtualFile)
  | concatenated (file : ConcatenatedVfsFile)

/-- The loop over the files, behind the ones that end at `lastOffset`. -/
def makeMap (fillerByte : Byte) : Nat → List (Nat × VirtualFile) → List ConcatenationEntry
  | _, [] => []
  | lastOffset, (offset, file) :: files =>
    (if lastOffset < offset then [⟨lastOffset, staticVfsFile fillerByte (offset - lastOffset)⟩]
      else []) ++ ⟨offset, file⟩ :: makeMap fillerByte (offset + file.size) files

def makeConcatenatedFile (fillerByte : Byte) : List (Nat × VirtualFile) → Made
  | [] => .null
  | [(_, file)] => .single file
  | files => .concatenated ⟨makeMap fillerByte 0 files⟩

/-- The map has no holes, which `VerifyContinuity` goes through it for. -/
def verifyContinuity : Nat → List ConcatenationEntry → Bool
  | _, [] => true
  | lastOffset, entry :: entries =>
    entry.offset = lastOffset && verifyContinuity (entry.offset + entry.file.size) entries

/-- `GetSize`. -/
def getSize (concatenated : ConcatenatedVfsFile) : Nat :=
  match concatenated.concatenationMap.getLast? with
  | none => 0
  | some entry => entry.offset + entry.file.size

/-- The loop of `Read`, from a member on. -/
def readLoop (offset : Nat) : List ConcatenationEntry → Memory → Nat → Nat → Nat × Memory
  | [], data, _, curOffset => (curOffset - offset, data)
  | entry :: entries, data, curLength, curOffset =>
    if curLength = 0 then (curOffset - offset, data)
    else if entry.offset + entry.file.size < curOffset then (curOffset - offset, data)
    else
      let fileSeek := curOffset - entry.offset
      let intendedReadSize := min curLength (entry.file.size - fileSeek)
      let actualReadSize := entry.file.available intendedReadSize fileSeek
      let data := entry.file.readTo data (curOffset - offset) intendedReadSize fileSeek
      if actualReadSize < intendedReadSize then (curOffset + actualReadSize - offset, data)
      else readLoop offset entries data (curLength - actualReadSize) (curOffset + actualReadSize)

/-- The first entry behind an offset, as `std::upper_bound` finds it. -/
def upperBound (map : List ConcatenationEntry) (offset : Nat) : Nat :=
  Bisection.upperBound (fun i => map[i]?.any (·.offset ≤ offset)) 0 map.length

/-- The number of bytes read and the buffer, unless the entry before the first one is asked for. -/
def read (concatenated : ConcatenatedVfsFile) (data : Memory) (length offset : Nat) :
    Option (Nat × Memory) :=
  let map := concatenated.concatenationMap
  if map.isEmpty then some (0, data)
  else
    match upperBound map offset with
    | 0 => none
    | it + 1 => some (readLoop offset (map.drop it) data length offset)

/-! ## The content of a concatenation -/

/-- Each file starts where the one before it ends, or later. -/
def Ascending : Nat → List (Nat × VirtualFile) → Prop
  | _, [] => True
  | last, (offset, file) :: files => last ≤ offset ∧ Ascending (offset + file.size) files

instance decidableAscending : ∀ last files, Decidable (Ascending last files)
  | _, [] => inferInstanceAs (Decidable True)
  | last, (offset, file) :: files =>
    have := decidableAscending (offset + file.size) files
    inferInstanceAs (Decidable (last ≤ offset ∧ Ascending (offset + file.size) files))

/-- Where the last file ends. -/
def layoutEnd : Nat → List (Nat × VirtualFile) → Nat
  | last, [] => last
  | _, (offset, file) :: files => layoutEnd (offset + file.size) files

/-- The byte of the file at a place, or the filler byte in a gap before a file. -/
def contentAt (fillerByte : Byte) : List (Nat × VirtualFile) → Nat → Byte
  | [], _ => fillerByte
  | (offset, file) :: files, p =>
    if p < offset then fillerByte
    else if p < offset + file.size then file.byte (p - offset)
    else contentAt fillerByte files p

/-! ## The map of a concatenation -/

/-- The entries fill an interval in their order, without a hole. -/
def Fills : Nat → List ConcatenationEntry → Nat → Prop
  | start, [], stop => start = stop
  | start, entry :: entries, stop => entry.offset = start ∧
      Fills (start + entry.file.size) entries stop

/-- The byte of the first entry that ends behind a place. -/
def byteAt : List ConcatenationEntry → Nat → Byte
  | [], _ => 0
  | entry :: entries, p =>
    if p < entry.offset + entry.file.size then entry.file.byte (p - entry.offset)
    else byteAt entries p

variable {fillerByte : Byte} {files : List (Nat × VirtualFile)} {map : List ConcatenationEntry}
  {last start stop : Nat}

theorem fills_makeMap (ascending : Ascending last files) :
    Fills last (makeMap fillerByte last files) (layoutEnd last files) := by
  induction files generalizing last with
  | nil => rfl
  | cons head files ih =>
    obtain ⟨offset, file⟩ := head
    obtain ⟨before, later⟩ := ascending
    rw [makeMap, layoutEnd]
    split
    · refine ⟨rfl, ?_, ?_⟩
      · exact (add_sub_of_le before).symm
      · rw [staticVfsFile, add_sub_of_le before]
        exact ih later
    · obtain rfl : last = offset := by omega
      exact ⟨rfl, ih later⟩

theorem byteAt_makeMap (ascending : Ascending last files) {p : Nat} (low : last ≤ p)
    (high : p < layoutEnd last files) :
    byteAt (makeMap fillerByte last files) p = contentAt fillerByte files p := by
  induction files generalizing last with
  | nil => exact absurd high (not_lt.2 low)
  | cons head files ih =>
    obtain ⟨offset, file⟩ := head
    obtain ⟨before, later⟩ := ascending
    have behind : byteAt (⟨offset, file⟩ :: makeMap fillerByte (offset + file.size) files) p =
        if p < offset + file.size then file.byte (p - offset)
        else contentAt fillerByte files p := by
      rw [byteAt]
      split
      · rfl
      · next past => exact ih later (not_lt.1 past) high
    rw [makeMap, contentAt]
    by_cases gap : last < offset
    · rw [if_pos gap, singleton_append, byteAt, staticVfsFile, add_sub_of_le before, behind]
    · rw [if_neg gap, nil_append, behind, if_neg (show ¬ p < offset by omega)]

theorem verifyContinuity_iff : verifyContinuity start map = true ↔
    ∃ stop, Fills start map stop := by
  induction map generalizing start with
  | nil => exact iff_of_true rfl ⟨start, rfl⟩
  | cons entry map ih =>
    rw [verifyContinuity, Bool.and_eq_true, decide_eq_true_iff, ih]
    constructor
    · rintro ⟨rfl, stop, fills⟩
      exact ⟨stop, rfl, fills⟩
    · rintro ⟨stop, rfl, fills⟩
      exact ⟨rfl, stop, fills⟩

section

variable (fills : Fills start map stop)

include fills

theorem Fills.le : start ≤ stop := by
  induction map generalizing start with
  | nil => exact le_of_eq fills
  | cons entry map ih => exact (le_add_right _ _).trans (ih fills.2)

theorem Fills.drop {i : Nat} {entry : ConcatenationEntry}
    (here : map[i]? = some entry) : start ≤ entry.offset ∧
    Fills entry.offset (map.drop i) stop := by
  induction map generalizing start i with
  | nil => cases here
  | cons first map ih =>
    cases i with
    | zero =>
      obtain rfl := Option.some.inj here
      exact ⟨le_of_eq fills.1.symm, rfl, fills.1 ▸ fills.2⟩
    | succ i =>
      obtain ⟨low, rest⟩ := ih fills.2 here
      exact ⟨(le_add_right _ _).trans low, rest⟩

/-- The entries before the one of an offset end there or earlier. -/
theorem Fills.byteAt_drop {i : Nat} {entry : ConcatenationEntry}
    (here : map[i]? = some entry) {p : Nat} (behind : entry.offset ≤ p) :
    byteAt (map.drop i) p = byteAt map p := by
  induction map generalizing start i with
  | nil => cases here
  | cons first map ih =>
    cases i with
    | zero => rfl
    | succ i =>
      have before := (fills.2.drop here).1
      rw [drop_succ_cons, ih fills.2 here, byteAt, if_neg]
      rw [fills.1]
      omega

/-- The offsets do not descend. -/
theorem Fills.offset_le {i j : Nat} (le : i ≤ j)
    {entry entry' : ConcatenationEntry} (first : map[i]? = some entry)
    (second : map[j]? = some entry') : entry.offset ≤ entry'.offset := by
  obtain ⟨-, rest⟩ := fills.drop first
  refine (rest.drop (i := j - i) ?_).1
  rw [List.getElem?_drop, add_sub_of_le le, second]

end

/-- The search ends behind the last entry that starts at the offset or before it. -/
theorem Fills.upperBound_eq (fills : Fills 0 map stop) (some : map ≠ []) (offset : Nat) :
    ∃ it entry, upperBound map offset = it + 1 ∧ map[it]? = .some entry ∧ entry.offset ≤ offset ∧
      ∀ next, map[it + 1]? = .some next → offset < next.offset := by
  have border : Bisection.Border (fun i => map[i]?.any (·.offset ≤ offset)) 0 map.length
      (upperBound map offset) := by
    refine Bisection.upperBound_border fun i j _ le _ holds => ?_
    obtain ⟨second, there, low⟩ := (Option.any_eq_true _ _).1 holds
    have inside : i < map.length :=
      le.trans_lt (List.getElem?_eq_some_iff.1 there).1
    have here : map[i]? = .some map[i] := List.getElem?_eq_getElem inside
    have descends := fills.offset_le le here there
    rw [here, Option.any_some]
    simp only [decide_eq_true_eq] at low ⊢
    exact descends.trans low
  obtain ⟨first, entries, rfl⟩ := exists_cons_of_ne_nil some
  cases found : upperBound (first :: entries) offset with
  | zero =>
    have fails := border.behind 0 (le_of_eq found) (by simp)
    have start : first.offset = 0 := fills.1
    simp [start] at fails
  | succ it =>
    rw [found] at border
    have before := border.before it (zero_le _) (lt_succ_self _)
    obtain ⟨entry, here, low⟩ := (Option.any_eq_true _ _).1 before
    refine ⟨it, entry, rfl, here, by simpa using low, fun next there => ?_⟩
    have inside := (List.getElem?_eq_some_iff.1 there).1
    have behind := border.behind (it + 1) (le_refl _) (by omega)
    simpa [there] using behind

/-! ## Reading -/

theorem readLoop_zero (offset : Nat) (data : Memory) (cur : Nat) :
    readLoop offset map data 0 cur = (cur - offset, data) := by
  cases map with
  | nil => rfl
  | cons entry map => rw [readLoop, if_pos rfl]

/-- From inside a member on, the loop brings what is left of the slice. The induction is on the
members; a member is left behind when it has nothing more, or the slice is complete. -/
theorem readLoop_eq (fills : Fills start map stop) {offset length cur : Nat} (data : Memory)
    (begun : offset ≤ cur) (low : start ≤ cur)
    (near : ∀ entry ∈ map.head?, cur ≤ stop → cur ≤ start + entry.file.size) :
    readLoop offset map data length cur =
      (cur - offset + min length (stop - cur),
        Scatter.writeBlock data (cur - offset) (min length (stop - cur))
          fun j => byteAt map (cur + j)) := by
  induction map generalizing start data length cur with
  | nil =>
    obtain rfl : start = stop := fills
    rw [readLoop, Nat.sub_eq_zero_of_le low, Nat.min_zero, Scatter.writeBlock_zero, Nat.add_zero]
  | cons entry map ih =>
    obtain ⟨rfl, later⟩ := fills
    rcases Nat.eq_zero_or_pos length with rfl | positive
    · rw [readLoop_zero, zero_min, Scatter.writeBlock_zero, add_zero]
    · have ends := later.le
      rw [readLoop, if_neg (ne_of_gt positive)]
      by_cases past : entry.offset + entry.file.size < cur
      · -- Only behind the last member.
        have passed : stop < cur := by
          by_contra inside
          have reached := near entry rfl (not_lt.1 inside)
          omega
        rw [if_pos past, Nat.sub_eq_zero_of_le (Nat.le_of_lt passed), Nat.min_zero,
          Scatter.writeBlock_zero, add_zero]
      · rw [if_neg past]
        obtain ⟨count, intended⟩ :
            ∃ count, min length (entry.file.size - (cur - entry.offset)) = count := ⟨_, rfl⟩
        have whole : entry.file.available count (cur - entry.offset) = count :=
          VirtualFile.available_eq (by omega)
        have here : ∀ j < count, entry.file.byte (cur - entry.offset + j) =
            byteAt (entry :: map) (cur + j) := by
          intro j below
          rw [byteAt, if_pos (by omega)]
          congr 1
          omega
        simp only [intended, whole, lt_irrefl, if_false, VirtualFile.readTo_eq_writeBlock]
        rw [Scatter.writeBlock_congr here]
        by_cases complete : length ≤ entry.file.size - (cur - entry.offset)
        · obtain rfl : length = count := by omega
          rw [Nat.sub_self, readLoop_zero, Nat.min_eq_left (by omega)]
          congr 1
          omega
        · have next : cur + count = entry.offset + entry.file.size := by omega
          rw [ih later _ (by omega) (le_of_eq next.symm) fun other _ _ => by omega]
          have split : min length (stop - cur) =
              count + min (length - count) (stop - (cur + count)) := by
            omega
          rw [show cur + count - offset = cur - offset + count by omega,
            Scatter.writeBlock_writeBlock, split, add_assoc]
          congr 1
          refine Scatter.writeBlock_congr fun j below => ?_
          split
          · rfl
          · rw [byteAt, if_neg (by omega)]
            congr 1
            omega

theorem Fills.getSize_eq (fills : Fills 0 map stop) : getSize ⟨map⟩ = stop := by
  rcases eq_nil_or_concat map with rfl | ⟨front, entry, rfl⟩
  · exact fills
  · rw [concat_eq_append] at fills ⊢
    have here : (front ++ [entry])[front.length]? = some entry := by simp
    have last := (fills.drop here).2
    rw [drop_left] at last
    rw [getSize, List.getLast?_append, List.getLast?_singleton]
    exact last.2

theorem makeMap_ne_nil {head : Nat × VirtualFile} :
    makeMap fillerByte last (head :: files) ≠ [] := by
  rw [makeMap]
  exact append_ne_nil_of_right_ne_nil _ (cons_ne_nil _ _)

theorem Fills.read_eq (fills : Fills 0 map stop) (some : map ≠ []) (data : Memory)
    (length offset : Nat) :
    ConcatenatedVfsFile.read ⟨map⟩ data length offset =
      .some (min length (stop - offset), Scatter.writeBlock data 0 (min length (stop - offset))
        fun j => byteAt map (offset + j)) := by
  obtain ⟨it, entry, found, here, low, behind⟩ := fills.upperBound_eq some offset
  have rest := (fills.drop here).2
  have split : map.drop it = entry :: map.drop (it + 1) := by
    obtain ⟨inside, rfl⟩ := List.getElem?_eq_some_iff.1 here
    exact drop_eq_getElem_cons inside
  have near : ∀ first ∈ (map.drop it).head?, offset ≤ stop →
      offset ≤ entry.offset + first.file.size := by
    intro first isFirst inside
    rw [split] at isFirst rest
    obtain rfl : entry = first := Option.some.inj isFirst
    cases later : map.drop (it + 1) with
    | nil =>
      rw [later] at rest
      exact inside.trans (le_of_eq rest.2.symm)
    | cons next entries =>
      -- The next member starts where this one ends, and behind the offset.
      have there : map[it + 1]? = .some next := by
        rw [← List.head?_drop, later, List.head?_cons]
      rw [later] at rest
      exact le_of_lt ((behind next there).trans_eq rest.2.1)
  rw [ConcatenatedVfsFile.read]
  dsimp only
  rw [if_neg (by simpa using some), found]
  dsimp only
  rw [readLoop_eq rest data (Nat.le_refl _) low near, Nat.sub_self, Nat.zero_add]
  congr 2
  exact Scatter.writeBlock_congr fun j _ =>
    fills.byteAt_drop here (low.trans (le_add_right _ _))

/-- The size is the end of the last file. Every read returns how many bytes of its range lie inside
the size; it writes these bytes of the content, and no others. -/
structure ReadsSlice (concatenated : ConcatenatedVfsFile) (fillerByte : Byte)
    (files : List (Nat × VirtualFile)) : Prop where
  continuous : verifyContinuity 0 concatenated.concatenationMap = true
  size : concatenated.getSize = layoutEnd 0 files
  read (data : Memory) (length offset : Nat) : ∃ data',
    concatenated.read data length offset =
    some (min length (concatenated.getSize - offset), data') ∧
    (∀ i < min length (concatenated.getSize - offset),
    data' i = contentAt fillerByte files (offset + i)) ∧
    ∀ i, min length (concatenated.getSize - offset) ≤ i → data' i = data i

theorem readsSlice_makeMap {head : Nat × VirtualFile} (ascending : Ascending 0 (head :: files)) :
    ReadsSlice ⟨makeMap fillerByte 0 (head :: files)⟩ fillerByte (head :: files) := by
  have fills : Fills 0 (makeMap fillerByte 0 (head :: files)) _ := fills_makeMap ascending
  refine ⟨verifyContinuity_iff.2 ⟨_, fills⟩, fills.getSize_eq, fun data length offset => ?_⟩
  rw [fills.getSize_eq]
  refine ⟨_, fills.read_eq makeMap_ne_nil data length offset, fun i below => ?_, fun i above => ?_⟩
  · rw [← zero_add i, Scatter.writeBlock_add below, zero_add]
    exact byteAt_makeMap ascending (zero_le _) (by omega)
  · exact Scatter.writeBlock_of_ne fun j below same => by omega

/-- Files in ascending order without overlap, of which there are two or more, are concatenated, and
every read of the result brings its slice of their content. -/
theorem makeConcatenatedFile_readsSlice (fillerByte : Byte) (files : List (Nat × VirtualFile))
    (several : 2 ≤ files.length) (ascending : Ascending 0 files) :
    ∃ concatenated, makeConcatenatedFile fillerByte files = .concatenated concatenated ∧
      ReadsSlice concatenated fillerByte files := by
  match files, several with
  | first :: second :: files, _ =>
    exact ⟨_, rfl, readsSlice_makeMap ascending⟩

/-- An empty file, and a file of three bytes behind a gap of two. -/
theorem makeConcatenatedFile_readsSlice_gap :
    ∃ concatenated,
      makeConcatenatedFile 7 [(0, ⟨0, fun _ => 1⟩), (2, ⟨3, fun _ => 2⟩)] =
        .concatenated concatenated ∧
      ReadsSlice concatenated 7 [(0, ⟨0, fun _ => 1⟩), (2, ⟨3, fun _ => 2⟩)] :=
  makeConcatenatedFile_readsSlice 7 _ (by decide) (by decide)

end ConcatenatedVfsFile

end SumiEmu.FileSys
