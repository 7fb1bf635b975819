/-
# Packages of parameters

A package maps keys to values. It is written as one string, with a separator in each pair and one
between the pairs; the separators that occur in keys and values are escaped. The order of the pairs
is that of a hash table, which is any order.
-/

import Mathlib.Data.List.Nodup
import SumiEmu.Common.StringUtil

namespace SumiEmu.Common

open List

/-- `KEY_VALUE_SEPARATOR`. -/
def keyValueSeparator : Char := ':'
/-- `PARAM_SEPARATOR`. -/
def paramSeparator : Char := ','
/-- `ESCAPE_CHARACTER`. -/
def escapeCharacter : Char := '$'
/-- `KEY_VALUE_SEPARATOR_ESCAPE`. -/
def keyValueSeparatorEscape : Text := ['$', '0']
/-- `PARAM_SEPARATOR_ESCAPE`. -/
def paramSeparatorEscape : Text := ['$', '1']
/-- `ESCAPE_CHARACTER_ESCAPE`. -/
def escapeCharacterEscape : Text := ['$', '2']

/-- `EMPTY_PLACEHOLDER`. -/
def emptyPlaceholder : Text := "[empty]".toList

/-- The entries of the hash table in the order in which it lists them. -/
structure ParamPackage where
  data : List (Text × Text)
  nodup : (data.map Prod.fst).Nodup

namespace ParamPackage

/-- The package without entries. -/
def empty : ParamPackage := ⟨[], nodup_nil⟩

variable (p : ParamPackage)

/-- The value of a key. -/
def get? (key : Text) : Option Text :=
  (p.data.find? fun entry => entry.1 = key).map Prod.snd

/-- `Set` of a string. -/
def set (key value : Text) : ParamPackage where
  data := p.data.filter (fun entry => entry.1 ≠ key) ++ [(key, value)]
  nodup := by
    rw [map_append, map_singleton, nodup_append]
    refine ⟨(p.nodup.sublist (filter_sublist.map _)), nodup_singleton _,
      fun k member k' member' => ?_⟩
    obtain ⟨entry, kept, rfl⟩ := mem_map.mp member
    rw [mem_singleton.mp member']
    exact of_decide_eq_true (mem_filter.mp kept).2

/-- The escapes that `Serialize` makes in a key or a value: that of `$` first. -/
def escape (part : Text) : Text :=
  let part := replaceAll part [escapeCharacter] escapeCharacterEscape
  let part := replaceAll part [paramSeparator] paramSeparatorEscape
  replaceAll part [keyValueSeparator] keyValueSeparatorEscape

/-- The escapes that the constructor takes back, in the other order. -/
def unescape (part : Text) : Text :=
  let part := replaceAll part keyValueSeparatorEscape [keyValueSeparator]
  let part := replaceAll part paramSeparatorEscape [paramSeparator]
  replaceAll part escapeCharacterEscape [escapeCharacter]

/-- The text of a pair, without the separator behind it. -/
def serializePair (pair : Text × Text) : Text :=
  escape pair.1 ++ [keyValueSeparator] ++ escape pair.2

/-- `Serialize`. -/
def serialize : Text :=
  if p.data = [] then emptyPlaceholder
  else (p.data.flatMap fun pair => serializePair pair ++ [paramSeparator]).dropLast

/-- One pair of a string that is read. A pair that has not two parts is logged and left out. -/
def readPair (pair : Text) : ParamPackage :=
  match splitString pair keyValueSeparator with
  | [key, value] => p.set (unescape key) (unescape value)
  | _ => p

/-- The constructor from a string. -/
def deserialize (serialized : Text) : ParamPackage :=
  if serialized = emptyPlaceholder then empty
  else (splitString serialized paramSeparator).foldl readPair empty

/-! ## Escaping -/

/-- What a character is escaped to. -/
def escaped (c : Char) : Text :=
  if c = escapeCharacter then escapeCharacterEscape
  else if c = paramSeparator then paramSeparatorEscape
  else if c = keyValueSeparator then keyValueSeparatorEscape
  else [c]

theorem escape_eq (part : Text) : escape part = part.flatMap escaped := by
  rw [escape, replaceAll_char _ (by decide), replaceAll_char _ (by decide),
    replaceAll_char _ (by decide), flatMap_assoc, flatMap_assoc]
  congr 1
  funext c
  rw [escaped]
  split_ifs with escape param keyValue
  · rfl
  · subst param
    rfl
  · subst keyValue
    rfl
  · simp [param, keyValue]

/-- One of the codes is replaced where characters have become codes or stayed as they are. -/
theorem replaceAll_code {part : Text} {codes codes' : Char → Text} {d r : Char}
    (each : ∀ c, codes c = [escapeCharacter, d] ∧ codes' c = [r] ∨ codes' c = codes c ∧
      ((∃ x, codes c = [x] ∧ x ≠ escapeCharacter) ∨
        ∃ x, codes c = [escapeCharacter, x] ∧ x ≠ d ∧ x ≠ escapeCharacter)) :
    replaceAll (part.flatMap codes) [escapeCharacter, d] [r] = part.flatMap codes' := by
  refine Replaces.replaceAll (cons_ne_nil _ _) (by simp)
    (Replaces.flatMap fun c _ rest result replaces => ?_)
  rcases each c with ⟨code, code'⟩ | ⟨same, ⟨x, code, other⟩ | ⟨x, code, other, notEscape⟩⟩
  · rw [code, code']
    exact replaces.hit
  · rw [same, code]
    exact replaces.char other
  · rw [same, code]
    refine .skip (fun found => other ?_) (replaces.char notEscape)
    exact (cons_prefix_cons.mp (cons_prefix_cons.mp found).2).1.symm

theorem unescape_escape (part : Text) : unescape (escape part) = part := by
  have first : replaceAll (part.flatMap escaped) keyValueSeparatorEscape [keyValueSeparator] =
      part.flatMap fun c => if c = escapeCharacter then escapeCharacterEscape
        else if c = paramSeparator then paramSeparatorEscape else [c] := by
    refine replaceAll_code fun c => ?_
    rw [escaped]
    split_ifs with escape param keyValue
    · exact .inr ⟨rfl, .inr ⟨'2', rfl, by decide⟩⟩
    · exact .inr ⟨rfl, .inr ⟨'1', rfl, by decide⟩⟩
    · exact .inl ⟨rfl, congrArg (fun x => [x]) keyValue⟩
    · exact .inr ⟨rfl, .inl ⟨c, rfl, escape⟩⟩
  have second : replaceAll (part.flatMap fun c => if c = escapeCharacter then escapeCharacterEscape
        else if c = paramSeparator then paramSeparatorEscape else [c]) paramSeparatorEscape
        [paramSeparator] =
      part.flatMap fun c => if c = escapeCharacter then escapeCharacterEscape else [c] := by
    refine replaceAll_code fun c => ?_
    split_ifs with escape param
    · exact .inr ⟨rfl, .inr ⟨'2', rfl, by decide⟩⟩
    · exact .inl ⟨rfl, congrArg (fun x => [x]) param⟩
    · exact .inr ⟨rfl, .inl ⟨c, rfl, escape⟩⟩
  have third : replaceAll (part.flatMap fun c => if c = escapeCharacter then escapeCharacterEscape
    else [c]) escapeCharacterEscape [escapeCharacter] = part.flatMap fun c => [c] := by
    refine replaceAll_code fun c => ?_
    split_ifs with escape
    · exact .inl ⟨rfl, congrArg (fun x => [x]) escape⟩
    · exact .inr ⟨rfl, .inl ⟨c, rfl, escape⟩⟩
  rw [unescape, escape_eq, first, second, third, flatMap_singleton']

/-- No separator is left in what is escaped. -/
theorem not_mem_escape (part : Text) : keyValueSeparator ∉ escape part ∧
    paramSeparator ∉ escape part := by
  have code : ∀ c, keyValueSeparator ∉ escaped c ∧ paramSeparator ∉ escaped c := by
    intro c
    rw [escaped]
    split_ifs with _ param keyValue
    · decide
    · decide
    · decide
    · exact ⟨fun member => keyValue (mem_singleton.mp member).symm,
        fun member => param (mem_singleton.mp member).symm⟩
  rw [escape_eq]
  constructor <;> intro member <;> obtain ⟨c, -, inside⟩ := mem_flatMap.mp member
  · exact (code c).1 inside
  · exact (code c).2 inside

theorem escape_eq_nil {part : Text} : escape part = [] ↔ part = [] := by
  constructor
  · intro empty
    have back := unescape_escape part
    rw [empty] at back
    exact back.symm
  · rintro rfl
    rfl

/-! ## Reading what has been written -/

/-- A pair with an empty value is read as a key alone. -/
theorem split_serializePair (pair : Text × Text) :
    splitString (serializePair pair) keyValueSeparator =
    escape pair.1 :: if pair.2 = [] then [] else [escape pair.2] := by
  have clean : ∀ line ∈ [escape pair.1], keyValueSeparator ∉ line := fun line member =>
    mem_singleton.mp member ▸ (not_mem_escape pair.1).1
  have split := splitString_lines clean (escape pair.2) (not_mem_escape pair.2).1
  rw [flatMap_singleton] at split
  rw [serializePair, split]
  simp only [escape_eq_nil]
  rfl

theorem readPair_serializePair (pair : Text × Text) :
    p.readPair (serializePair pair) = if pair.2 = [] then p else p.set pair.1 pair.2 := by
  rw [readPair, split_serializePair]
  split_ifs with empty
  · rfl
  · dsimp only
    rw [unescape_escape, unescape_escape]

theorem not_mem_serializePair (pair : Text × Text) : paramSeparator ∉ serializePair pair := by
  rw [serializePair, mem_append, mem_append, mem_singleton]
  rintro ((inKey | same) | inValue)
  · exact (not_mem_escape pair.1).2 inKey
  · exact absurd same (by decide)
  · exact (not_mem_escape pair.2).2 inValue

/-- Each pair is read back, unless its value is empty. -/
theorem deserialize_serialize : deserialize p.serialize =
    p.data.foldl (fun q pair => if pair.2 = [] then q else q.set pair.1 pair.2) empty := by
  rcases eq_nil_or_concat p.data with none | ⟨init, last, whole⟩
  · rw [deserialize, serialize, if_pos none, if_pos rfl, none]
    rfl
  · have filled : p.data ≠ [] := by
      rw [whole, concat_eq_append]
      exact append_ne_nil_of_right_ne_nil _ (cons_ne_nil _ _)
    have written : p.serialize =
        (init.map serializePair).flatMap (· ++ [paramSeparator]) ++ serializePair last := by
      rw [serialize, if_neg filled, whole, concat_eq_append, flatMap_append, flatMap_singleton,
        ← append_assoc, dropLast_concat, flatMap_map]
    have separated : keyValueSeparator ∈ serializePair last :=
      mem_append_left _ (mem_append_right _ (mem_singleton_self _))
    have notEmpty : p.serialize ≠ emptyPlaceholder := by
      intro same
      have member : keyValueSeparator ∈ p.serialize := written ▸ mem_append_right _ separated
      rw [same] at member
      exact absurd member (by decide)
    have clean : ∀ line ∈ init.map serializePair, paramSeparator ∉ line := by
      intro line member
      obtain ⟨pair, -, rfl⟩ := mem_map.mp member
      exact not_mem_serializePair pair
    have pairs : splitString p.serialize paramSeparator = p.data.map serializePair := by
      rw [written, splitString_lines clean _ (not_mem_serializePair last),
        if_neg (ne_nil_of_mem separated), whole, concat_eq_append, map_append, map_singleton]
    rw [deserialize, if_neg notEmpty, pairs, foldl_map]
    simp only [readPair_serializePair]

theorem get?_set (key value key' : Text) :
    (p.set key value).get? key' = if key' = key then some value else p.get? key' := by
  rw [get?, set, find?_append]
  split_ifs with same
  · subst same
    have none : ((p.data.filter fun entry => entry.1 ≠ key').find? fun entry => entry.1 = key') =
        none := by
      rw [find?_eq_none]
      intro entry member
      simpa using (mem_filter.mp member).2
    rw [none]
    simp
  · have kept : ((p.data.filter fun entry => entry.1 ≠ key).find? fun entry => entry.1 = key') =
        p.data.find? fun entry => entry.1 = key' := by
      rw [find?_filter]
      congr 1
      funext entry
      by_cases here : entry.1 = key'
      · simp [here, same]
      · simp [here]
    rw [kept, find?_singleton, if_neg (by simpa using Ne.symm same), Option.or_none, get?]

theorem find?_of_mem {entry : Text × Text} (member : entry ∈ p.data) :
    p.data.find? (fun other => other.1 = entry.1) = some entry := by
  have some : (p.data.find? fun other => other.1 = entry.1).isSome :=
    find?_isSome.mpr ⟨entry, member, decide_eq_true rfl⟩
  obtain ⟨other, found⟩ := Option.isSome_iff_exists.mp some
  have same : other.1 = entry.1 := by simpa using find?_some found
  rw [found, inj_on_of_nodup_map p.nodup (mem_of_find?_eq_some found) member same]

/-- The same keys have the same values. -/
def Same (p q : ParamPackage) : Prop := ∀ key, p.get? key = q.get? key

theorem get?_foldl {l : List (Text × Text)} (nodup : (l.map Prod.fst).Nodup) (q : ParamPackage)
    (key : Text) :
    (l.foldl (fun q pair => if pair.2 = [] then q else q.set pair.1 pair.2) q).get? key =
      match l.find? fun entry => entry.1 = key with
      | none => q.get? key
      | some entry => if entry.2 = [] then q.get? key else some entry.2 := by
  induction l generalizing q with
  | nil => rfl
  | cons entry l ih =>
    obtain ⟨fresh, nodup⟩ := nodup_cons.mp nodup
    rw [foldl_cons, ih nodup]
    by_cases here : entry.1 = key
    · have none : (l.find? fun entry => entry.1 = key) = none := by
        rw [find?_eq_none]
        intro other member same
        refine fresh (mem_map.mpr ⟨other, member, ?_⟩)
        rw [of_decide_eq_true same, here]
      rw [none, find?_cons, decide_eq_true here]
      dsimp only
      split_ifs with blank
      · rfl
      · rw [get?_set, if_pos here.symm]
    · have skipped : (if entry.2 = [] then q else q.set entry.1 entry.2).get? key = q.get? key := by
        split_ifs with blank
        · rfl
        · rw [get?_set, if_neg (Ne.symm here)]
      rw [find?_cons, decide_eq_false here, skipped]

/-- Writing and reading keeps a package exactly when none of its values is empty. -/
theorem roundTrip_iff : (deserialize p.serialize).Same p ↔ ∀ entry ∈ p.data, entry.2 ≠ [] := by
  constructor
  · intro same entry member blank
    have lost : (deserialize p.serialize).get? entry.1 = none := by
      rw [deserialize_serialize, get?_foldl p.nodup, p.find?_of_mem member]
      exact if_pos blank
    have there : p.get? entry.1 = some entry.2 := by
      rw [get?, p.find?_of_mem member]
      rfl
    rw [same, there] at lost
    cases lost
  · intro filled key
    rw [deserialize_serialize, get?_foldl p.nodup]
    change _ = (p.data.find? fun entry => entry.1 = key).map Prod.snd
    cases found : p.data.find? fun entry => entry.1 = key with
    | none => rfl
    | some entry => exact if_neg (filled entry (mem_of_find?_eq_some found))

/-- A key with an empty value. -/
theorem not_roundTrip_empty :
    ¬ (deserialize (serialize ⟨[(['a'], [])], by decide⟩)).Same ⟨[(['a'], [])], by decide⟩ := by
  intro same
  have lost := same ['a']
  cases lost

end ParamPackage

end SumiEmu.Common
