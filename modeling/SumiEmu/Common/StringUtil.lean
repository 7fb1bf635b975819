/-
# Splitting and replacing in strings

A string is the list of its characters. It is split by reading it as a stream of lines: a last
line that is empty is not read. All occurrences of a text are replaced from the left to the right,
and what has been put in is not searched again.
-/

import Mathlib.Data.List.Infix
import Mathlib.Data.List.TakeWhile

namespace SumiEmu.Common

open List

/-- A string. -/
abbrev Text : Type := List Char

/-- `std::getline`, with what it leaves of the stream. It fails when there is nothing left. -/
def getline (rest : Text) (delim : Char) : Option (Text × Text) :=
  if rest = [] then none
  else some (rest.takeWhile (· ≠ delim), (rest.dropWhile (· ≠ delim)).drop 1)

/-- The loop of `SplitString`. -/
def splitLoop (delim : Char) : Nat → Text → List Text
  | 0, _ => []
  | rounds + 1, rest =>
    match getline rest delim with
    | none => []
    | some (line, rest) => line :: splitLoop delim rounds rest

/-- `SplitString`. Each line that is read takes a character, which bounds the rounds. -/
def splitString (str : Text) (delim : Char) : List Text := splitLoop delim str.length str

/-- `std::string::find`. -/
def find (s src : Text) (pos : Nat) : Option Nat :=
  (range' pos (s.length + 1 - pos)).find? fun i => src.isPrefixOf (s.drop i)

/-- The loop of `ReplaceAll`. -/
def replaceLoop (src dest : Text) : Nat → Text → Nat → Text
  | 0, result, _ => result
  | rounds + 1, result, pos =>
    match find result src pos with
    | none => result
    | some i => replaceLoop src dest rounds (result.take i ++ dest ++ result.drop (i + src.length))
        (i + dest.length)

/-- `ReplaceAll` of a text that is not empty: each replacement takes some of the characters. -/
def replaceAll (result src dest : Text) : Text :=
  if src = dest then result else replaceLoop src dest (result.length + 1) result 0

variable {delim : Char} {line rest : Text}

/-! ## Splitting -/

theorem splitLoop_nil (rounds : Nat) : splitLoop delim rounds [] = [] := by
  cases rounds <;> rfl

theorem getline_delim (clean : delim ∉ line) :
    getline (line ++ delim :: rest) delim = some (line, rest) := by
  have different : ∀ c ∈ line, decide (c ≠ delim) = true := fun c member =>
    decide_eq_true fun same => clean (same ▸ member)
  rw [getline, if_neg (by simp), takeWhile_append_of_pos different,
    dropWhile_append_of_pos different, takeWhile_cons_of_neg (by simp),
    dropWhile_cons_of_neg (by simp), append_nil]
  rfl

theorem getline_last (clean : delim ∉ line) (filled : line ≠ []) :
    getline line delim = some (line, []) := by
  have different : ∀ c ∈ line, decide (c ≠ delim) = true := fun c member =>
    decide_eq_true fun same => clean (same ▸ member)
  rw [getline, if_neg filled, takeWhile_eq_self_iff.mpr different,
    dropWhile_eq_nil_iff.mpr different]
  rfl

/-- Lines that end with the delimiter, but for the last one, which is not empty. -/
theorem splitString_lines {lines : List Text} (clean : ∀ line ∈ lines, delim ∉ line) (last : Text)
    (clean' : delim ∉ last) :
    splitString (lines.flatMap (· ++ [delim]) ++ last) delim = lines ++ if last = [] then []
      else [last] := by
  have split : ∀ rounds, (lines.flatMap (· ++ [delim]) ++ last).length ≤ rounds →
      splitLoop delim rounds (lines.flatMap (· ++ [delim]) ++ last) = lines ++ if last = [] then []
      else [last] := by
    induction lines with
    | nil =>
      intro rounds enough
      split_ifs with empty
      · rw [empty]
        exact splitLoop_nil rounds
      · obtain ⟨rounds, rfl⟩ : ∃ n, rounds = n + 1 := by
          refine Nat.exists_eq_succ_of_ne_zero fun zero => empty ?_
          exact eq_nil_of_length_eq_zero (by simpa [zero] using enough)
        rw [flatMap_nil, nil_append, splitLoop, getline_last clean' empty]
        dsimp only
        rw [splitLoop_nil]
        rfl
    | cons line lines ih =>
      intro rounds enough
      simp only [flatMap_cons, append_assoc, cons_append, nil_append, length_append,
        length_cons] at enough ⊢
      obtain ⟨rounds, rfl⟩ : ∃ n, rounds = n + 1 := Nat.exists_eq_succ_of_ne_zero (by omega)
      rw [splitLoop, getline_delim (clean line mem_cons_self)]
      dsimp only
      rw [ih (fun line member => clean line (mem_cons_of_mem _ member)) rounds
        (by rw [length_append]; omega)]
  exact split _ le_rfl

/-! ## Replacing -/

/-- What replacing makes of a text, from its front on. -/
inductive Replaces (src dest : Text) : Text → Text → Prop
  | done : Replaces src dest [] []
  | hit {rest result : Text} : Replaces src dest rest result →
      Replaces src dest (src ++ rest) (dest ++ result)
  | skip {c : Char} {rest result : Text} : ¬ src <+: c :: rest → Replaces src dest rest result →
      Replaces src dest (c :: rest) (c :: result)

section Replacing

variable {src dest front result : Text} {c : Char}

theorem find_step (s src : Text) {pos : Nat} (inside : pos ≤ s.length) :
    find s src pos = if src <+: s.drop pos then some pos else find s src (pos + 1) := by
  rw [find, show s.length + 1 - pos = s.length - pos + 1 by omega, range'_succ, find?_cons]
  by_cases here : src <+: s.drop pos
  · rw [List.isPrefixOf_iff_prefix.mpr here, if_pos here]
  · rw [Bool.eq_false_iff.mpr fun found => here (List.isPrefixOf_iff_prefix.mp found), if_neg here,
      find, show s.length + 1 - (pos + 1) = s.length - pos by omega]

theorem find_end (filled : src ≠ []) : find front src front.length = none := by
  have last : ¬ src <+: front.drop front.length := by
    rw [drop_length, prefix_nil]
    exact filled
  rw [find_step front src le_rfl, if_neg last, find, Nat.sub_self]
  rfl

/-- The loop replaces in what is behind its position, when there are rounds for its characters. -/
theorem Replaces.replaceLoop (filled : src ≠ []) {tail : Text}
    (replaces : Replaces src dest tail result)
    (front : Text) {rounds : Nat} (enough : tail.length < rounds) :
    replaceLoop src dest rounds (front ++ tail) front.length = front ++ result := by
  induction replaces generalizing front rounds with
  | done =>
    obtain ⟨rounds, rfl⟩ : ∃ n, rounds = n + 1 := Nat.exists_eq_succ_of_ne_zero (by omega)
    rw [append_nil, Common.replaceLoop, find_end filled]
  | @hit rest result _ ih =>
    have positive := length_pos_of_ne_nil filled
    rw [length_append] at enough
    obtain ⟨rounds, rfl⟩ : ∃ n, rounds = n + 1 := Nat.exists_eq_succ_of_ne_zero (by omega)
    have found : find (front ++ (src ++ rest)) src front.length = some front.length := by
      rw [find_step _ _ (by simp), drop_left, if_pos (prefix_append ..)]
    have replaced := ih (front ++ dest) (show rest.length < rounds by omega)
    rw [length_append] at replaced
    rw [Common.replaceLoop, found]
    dsimp only
    rw [take_left, drop_append, drop_eq_nil_of_le (by omega), Nat.add_sub_cancel_left, drop_left,
      nil_append, replaced, append_assoc]
  | @skip c rest result missing _ ih =>
    rw [length_cons] at enough
    obtain ⟨rounds, rfl⟩ : ∃ n, rounds = n + 1 := Nat.exists_eq_succ_of_ne_zero (by omega)
    have skipped : find (front ++ c :: rest) src front.length =
        find (front ++ c :: rest) src (front.length + 1) := by
      rw [find_step _ _ (by simp), drop_left, if_neg missing]
    have replaced := ih (front ++ [c]) (show rest.length < rounds + 1 by omega)
    rw [append_assoc, singleton_append, length_append, length_singleton, Common.replaceLoop,
      ← skipped] at replaced
    rw [Common.replaceLoop, replaced, append_assoc, singleton_append]

theorem Replaces.replaceAll (filled : src ≠ []) (other : src ≠ dest) {s : Text}
    (replaces : Replaces src dest s result) : replaceAll s src dest = result := by
  rw [Common.replaceAll, if_neg other]
  exact replaces.replaceLoop filled [] (Nat.lt_succ_self _)

/-- What is searched for does not begin with a character that is not its first one. -/
theorem Replaces.char {a x : Char} {more rest : Text} (other : x ≠ a)
    (replaces : Replaces (a :: more) dest rest result) :
    Replaces (a :: more) dest (x :: rest) (x :: result) :=
  .skip (fun found => other (cons_prefix_cons.mp found).1.symm) replaces

/-- A text is replaced in pieces, when what is searched for does not begin in one and end in
another. -/
theorem Replaces.flatMap {α : Type*} {pieces pieces' : α → Text} {l : List α}
    (each : ∀ a ∈ l, ∀ rest result, Replaces src dest rest result →
      Replaces src dest (pieces a ++ rest) (pieces' a ++ result)) :
    Replaces src dest (l.flatMap pieces) (l.flatMap pieces') := by
  induction l with
  | nil => exact .done
  | cons a l ih =>
    rw [flatMap_cons, flatMap_cons]
    exact each a mem_cons_self _ _ (ih fun a member => each a (mem_cons_of_mem _ member))

/-- All occurrences of a character are replaced. -/
theorem replaceAll_char (s : Text) (other : [c] ≠ dest) :
    replaceAll s [c] dest = s.flatMap fun x => if x = c then dest else [x] := by
  have replaces : Replaces [c] dest (s.flatMap fun x => [x])
      (s.flatMap fun x => if x = c then dest else [x]) := by
    refine Replaces.flatMap fun x _ rest result replaces => ?_
    split_ifs with same
    · subst same
      exact replaces.hit
    · exact replaces.char same
  rw [flatMap_singleton'] at replaces
  exact replaces.replaceAll (cons_ne_nil _ _) other

end Replacing

end SumiEmu.Common
