/-
# The replacement of a path

A path that spells a parent directory with a backslash is copied to a buffer of its own, where some
separators become slashes and all else is as before. The buffer has a fixed size, and the copy goes
beyond it when the path is longer.
-/

import Mathlib.Data.List.GetD
import SumiEmu.FileSys.PathNormalizerExact

namespace SumiEmu.FileSys.PathNormalizer

open Fallible Nat

/-- A character of a path, and what stands for it in the replacement. -/
def Respells (c d : UInt8) : Prop :=
  d = c ∨ c = alternateDirectorySeparator ∧ d = directorySeparator

theorem respells_separator {c : UInt8}
    (separator : c = directorySeparator ∨ c = alternateDirectorySeparator) :
    Respells c directorySeparator :=
  separator.imp Eq.symm fun alternate => ⟨alternate, rfl⟩

/-- The buffer, where the characters up to a position have been replaced. -/
structure Respelled (src : List UInt8) (size i : Nat) (dst : List UInt8) : Prop where
  length : dst.length = size
  first : charAt dst 0 = directorySeparator
  chars : ∀ j < i, Respells (charAt src j) (charAt dst j)

/-- The replacement fits and stands in the buffer, or it does not and is written beyond it. -/
def Replaces (src : List UInt8) (size : Nat) (result : Except Fault (List UInt8)) : Prop :=
  (src.length < size ∧ ∃ dst, result = .ok dst ∧ Respelled src size src.length dst ∧
    charAt dst src.length = nullTerminator) ∨
  (size ≤ src.length ∧ result = .error .outOfBuffer)

section Replacement

variable {src dst : List UInt8} {size i j : Nat} {c : UInt8}

theorem charAt_set (inside : i < dst.length) (j : Nat) :
    charAt (dst.set i c) j = if i = j then c else charAt dst j := by
  rw [charAt, charAt, List.getD_eq_getElem?_getD, List.getD_eq_getElem?_getD, List.getElem?_set]
  by_cases same : i = j
  · rw [if_pos same, if_pos same, if_pos inside, Option.getD_some]
  · rw [if_neg same, if_neg same]

theorem charAt_of_length_le (beyond : src.length ≤ i) : charAt src i = nullTerminator :=
  List.getD_eq_default _ _ beyond

theorem lt_length_of_charAt (other : charAt src i ≠ nullTerminator) : i < src.length := by
  by_contra beyond
  exact other (charAt_of_length_le (by omega))

theorem charAt_ne_terminator (unterminated : nullTerminator ∉ src) (inside : i < src.length) :
    charAt src i ≠ nullTerminator := by
  rw [charAt, List.getD_eq_getElem _ _ inside]
  exact fun equal => unterminated (equal ▸ List.getElem_mem inside)

/-- One more character, or an earlier one again. -/
theorem Respelled.set (before : Respelled src size i dst) (inside : j < size) (reached : j ≤ i)
    (respells : Respells (charAt src j) c) (first : j = 0 → c = directorySeparator) :
    Respelled src size (max i (j + 1)) (dst.set j c) := by
  have inBuffer : j < dst.length := inside.trans_eq before.length.symm
  refine ⟨(List.length_set ..).trans before.length, ?_, fun k bound => ?_⟩
  · rw [charAt_set inBuffer]
    split
    · exact first ‹_›
    · exact before.first
  · rw [charAt_set inBuffer]
    split
    · next same => exact same ▸ respells
    · exact before.chars k (by omega)

variable {next : List UInt8 → Except Fault (List UInt8)}

/-- A character of the path is replaced, if there is room for it. -/
theorem Respelled.store_bind (before : Respelled src size i dst) (within : j < src.length)
    (reached : j ≤ i)
    (respells : Respells (charAt src j) c) (first : j = 0 → c = directorySeparator)
    (onwards : ∀ dst, Respelled src size (max i (j + 1)) dst → Replaces src size (next dst)) :
    Replaces src size (store dst j c >>= next) := by
  rw [store]
  by_cases inside : j < dst.length
  · rw [if_pos inside, ok_bind]
    exact onwards _ (before.set (inside.trans_eq before.length) reached respells first)
  · rw [if_neg inside, error_bind]
    exact .inr ⟨by rw [← before.length]; omega, rfl⟩

/-- Two dots and the separator in front of them. -/
theorem Respelled.dots (before : Respelled src size i dst)
    (respells : Respells (charAt src (i - 1)) directorySeparator) (started : 0 < i)
    (dot₁ : charAt src i = dot) (dot₂ : charAt src (i + 1) = dot) (within : i + 1 < src.length)
    (onwards : ∀ dst, Respelled src size (i + 2) dst → Replaces src size (next dst)) :
    Replaces src size (do
      let dst ← store dst (i - 1) directorySeparator
      let dst ← store dst i dot
      let dst ← store dst (i + 1) dot
      next dst) := by
  refine before.store_bind (by omega) (by omega) respells (fun _ => rfl) fun dst after => ?_
  rw [Nat.sub_add_cancel started, Nat.max_self] at after
  refine after.store_bind (by omega) (le_refl _) (.inl dot₁.symm) (by omega) fun dst after => ?_
  rw [max_eq_right (le_succ _)] at after
  refine after.store_bind within (le_refl _) (.inl dot₂.symm) (by omega) fun dst after => ?_
  rw [max_eq_right (le_succ _)] at after
  exact onwards dst after

/-- The end of the path. -/
theorem Respelled.terminate (before : Respelled src size src.length dst) (positive : src ≠ []) :
    Replaces src size (store dst src.length nullTerminator) := by
  rw [store]
  by_cases inside : src.length < dst.length
  · have nonempty := List.length_pos_iff.2 positive
    refine .inl ⟨inside.trans_eq before.length, _, if_pos inside,
      ⟨(List.length_set ..).trans before.length, ?_, fun j bound => ?_⟩, ?_⟩
    · rw [charAt_set inside, if_neg (by omega)]
      exact before.first
    · rw [charAt_set inside, if_neg (by omega)]
      exact before.chars j bound
    · rw [charAt_set inside, if_pos rfl]
  · rw [if_neg inside]
    exact .inr ⟨by rw [← before.length]; omega, rfl⟩

/-- The induction is on the rounds: each one takes a character at least. -/
theorem replaceLoop_replaces (unterminated : nullTerminator ∉ src) (fuel : Nat)
    (before : Respelled src size i dst) (started : 0 < i) (within : i ≤ src.length)
    (enough : src.length < fuel + i) : Replaces src size (replaceLoop src fuel dst i) := by
  induction fuel generalizing dst i with
  | zero => omega
  | succ fuel ih =>
    have positive : src ≠ [] := List.length_pos_iff.1 (started.trans_le within)
    rw [replaceLoop]
    dsimp only
    split
    · next ended =>
      have reached : i = src.length :=
        within.antisymm (not_lt.1 fun inside => charAt_ne_terminator unterminated inside ended)
      subst reached
      exact before.terminate positive
    · next more =>
      have inside := lt_length_of_charAt more
      split
      · next parent =>
        obtain ⟨front, dot₁, dot₂, back⟩ := parent
        have inside' : i + 2 < src.length := lt_length_of_charAt fun ended => by
          rw [ended] at back
          exact absurd back (by decide)
        refine before.dots (respells_separator front) started dot₁ dot₂ (by omega) fun dst after =>
          ?_
        refine after.store_bind inside' (le_refl _) (respells_separator back) (by omega)
          fun dst after => ?_
        rw [max_eq_right (le_succ _)] at after
        exact ih after (by omega) (by omega) (by omega)
      · split
        · next last =>
          obtain ⟨front, dot₁, dot₂, ended⟩ := last
          have inside' : i + 1 < src.length := lt_length_of_charAt fun ended => by
            rw [ended] at dot₂
            exact absurd dot₂ (by decide)
          have reached : i + 2 = src.length := by
            by_contra other
            exact charAt_ne_terminator unterminated (by omega) ended
          refine before.dots (respells_separator (.inr front)) started dot₁ dot₂ inside'
            fun dst after => ?_
          rw [reached] at after ⊢
          exact after.terminate positive
        · refine before.store_bind inside (le_refl i) (.inl rfl) (by omega) fun dst after => ?_
          rw [max_eq_right (le_succ i)] at after
          exact ih after (by omega) (by omega) (by omega)

theorem replaceParentDirectoryPath_replaces (unterminated : nullTerminator ∉ src)
    (separator : charAt src 0 = directorySeparator ∨ charAt src 0 = alternateDirectorySeparator)
    (nonempty : src ≠ []) (some : dst ≠ []) :
    Replaces src dst.length (replaceParentDirectoryPath dst src) := by
  have inside := List.length_pos_iff.2 some
  rw [replaceParentDirectoryPath, store, if_pos inside, ok_bind]
  refine replaceLoop_replaces unterminated _ ⟨List.length_set .., ?_, fun j bound => ?_⟩ Nat.one_pos
    (List.length_pos_iff.2 nonempty) (by omega)
  · rw [charAt_set inside, if_pos rfl]
  · obtain rfl : j = 0 := by omega
    rw [charAt_set inside, if_pos rfl]
    exact respells_separator separator

/-- The string in the buffer is as long as the path. -/
theorem Respelled.ofBuffer (after : Respelled src size src.length dst)
    (unterminated : nullTerminator ∉ src)
    (ended : charAt dst src.length = nullTerminator) (fits : src.length < size) :
    (CString.ofBuffer dst).chars = dst.take src.length := by
  have inside : src.length < dst.length := fits.trans_eq after.length.symm
  have last : dst[src.length] = nullTerminator := by
    rwa [charAt, List.getD_eq_getElem _ _ inside] at ended
  change dst.takeWhile (· != nullTerminator) = _
  conv_lhs => rw [← List.take_append_drop src.length dst, List.drop_eq_getElem_cons inside, last]
  rw [List.takeWhile_append_of_pos, List.takeWhile_cons_of_neg (by simp), List.append_nil]
  intro c member
  obtain ⟨j, bound, rfl⟩ := List.getElem_of_mem member
  rw [List.length_take] at bound
  have respells := after.chars j (by omega)
  have other := charAt_ne_terminator unterminated (show j < src.length by omega)
  have here : charAt dst j = (dst.take src.length)[j] := by
    rw [charAt, List.getD_eq_getElem _ _ (by omega), List.getElem_take]
  rw [← here]
  obtain same | ⟨-, slash⟩ := respells
  · simpa [same] using other
  · rw [slash]
    decide

end Replacement

/-- A path that begins with a slash and spells other characters as another path does, save for
backslashes. -/
structure Respelling (path other : CString) : Prop where
  rooted : charAt other.chars 0 = directorySeparator
  chars (j : Nat) : Respells (charAt path.chars j) (charAt other.chars j)

theorem separator_of_needed {path : CString}
    (needed : isParentDirectoryPathReplacementNeeded path = true) :
    (charAt path.chars 0 = directorySeparator ∨ charAt path.chars 0 = alternateDirectorySeparator) ∧
      SpellsParentWithBackslash path.chars := by
  refine ⟨?_, by_contra fun spelled => Bool.false_ne_true
    ((replacement_unneeded spelled).symm.trans needed)⟩
  rw [isParentDirectoryPathReplacementNeeded] at needed
  split at needed
  · cases needed
  · next c rest split =>
    rw [split]
    show c = directorySeparator ∨ c = alternateDirectorySeparator
    by_contra other
    rw [if_pos (not_or.1 other)] at needed
    cases needed

/-- The replacement is written beyond its buffer exactly when the path is longer than a name may
be. -/
theorem replaced_of_needed {path : CString} (allocated : Vector UInt8 (entryNameLengthMax + 1))
    (needed : isParentDirectoryPathReplacementNeeded path = true) :
    (path.chars.length ≤ entryNameLengthMax ∧
      ∃ other, replaced path allocated = .ok other ∧ Respelling path other) ∨
    (entryNameLengthMax < path.chars.length ∧ replaced path allocated = .error .outOfBuffer) := by
  obtain ⟨separator, front, c0, back, split, -⟩ := separator_of_needed needed
  have nonempty : path.chars ≠ [] := by
    rw [split]
    simp
  have size : allocated.toList.length = entryNameLengthMax + 1 := Vector.length_toList
  have some : allocated.toList ≠ [] := List.length_pos_iff.1 (by rw [size]; exact succ_pos _)
  have replaces := replaceParentDirectoryPath_replaces path.unterminated separator nonempty some
  rw [replaced, if_pos needed]
  rw [size] at replaces
  obtain ⟨fits, dst, isOk, respelled, ended⟩ | ⟨long, failed⟩ := replaces
  · have chars := respelled.ofBuffer path.unterminated ended fits
    have positive := List.length_pos_iff.2 nonempty
    have inside : path.chars.length < dst.length := fits.trans_eq respelled.length.symm
    have same {j : Nat} (bound : j < path.chars.length) :
        charAt (CString.ofBuffer dst).chars j = charAt dst j := by
      rw [chars, charAt, charAt, List.getD_eq_getElem?_getD, List.getD_eq_getElem?_getD,
        List.getElem?_take_of_lt bound]
    refine .inl ⟨Nat.lt_succ_iff.1 fits, CString.ofBuffer dst, by rw [isOk]; rfl, ?_, fun j => ?_⟩
    · rw [same positive]
      exact respelled.first
    · by_cases bound : j < path.chars.length
      · rw [same bound]
        exact respelled.chars j bound
      · have short : (CString.ofBuffer dst).chars.length ≤ j := by
          rw [chars, List.length_take]
          omega
        rw [charAt_of_length_le short, charAt_of_length_le (not_lt.1 bound)]
        exact .inl rfl
  · exact .inr ⟨long, by rw [failed]; rfl⟩

/-- The dots of a parent directory are no separators in the replacement either. -/
theorem Respelling.exists_other {path other : CString} (respelling : Respelling path other)
    (needed : isParentDirectoryPathReplacementNeeded path = true) :
    ∃ c ∈ other.chars, c ≠ directorySeparator := by
  obtain ⟨-, front, c0, back, split, -⟩ := separator_of_needed needed
  have isDot : charAt path.chars (front.length + 1) = dot := by
    rw [split, charAt, List.getD_append_right _ _ _ _ (by omega), Nat.add_sub_cancel_left]
    rfl
  have respells := respelling.chars (front.length + 1)
  rw [isDot] at respells
  have stays : charAt other.chars (front.length + 1) = dot :=
    respells.resolve_right fun alternate => absurd alternate.1 (by decide)
  have inside := lt_length_of_charAt (stays ▸ (by decide : dot ≠ nullTerminator))
  rw [charAt, List.getD_eq_getElem _ _ inside] at stays
  exact ⟨_, List.getElem_mem inside, stays ▸ (by decide : dot ≠ directorySeparator)⟩

end SumiEmu.FileSys.PathNormalizer
