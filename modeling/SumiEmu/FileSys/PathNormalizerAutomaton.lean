/-
# The automaton that recognises normalised paths

It is read as a scan of the components, which accepts names and stops at the first one that is none.
Invalid characters are told apart by masks of four words, which is enough for characters from zero
to 255. A target with a signed `char` extends the sign of a character above 127 and reads far beyond
them.
-/

import SumiEmu.FileSys.PathNormalizerRun

namespace SumiEmu.FileSys.PathNormalizer

open Fallible List

/-! ## Characters -/

/-- The masks are read at the right place unless the sign of a character is extended. -/
theorem isInvalidCharacter_eq (charIsSigned : Bool) (c : UInt8) :
    isInvalidCharacter charIsSigned c =
      if charIsSigned ∧ 128 ≤ c then .error .outOfBounds
      else .ok (decide (c ∈ invalidCharacters)) := by
  have all : ∀ signed : Bool, ∀ n : Fin 256, isInvalidCharacter signed (UInt8.ofFin n) =
      if signed ∧ 128 ≤ UInt8.ofFin n then .error .outOfBounds
      else .ok (decide (UInt8.ofFin n ∈ invalidCharacters)) := by
    decide +kernel
  exact all charIsSigned c.toFin

variable (checks : Checks)

/-- A character whose place in the masks is beyond them. -/
def BeyondMasks (c : UInt8) : Prop :=
  checks.allowAllCharacters = false ∧ checks.charIsSigned = true ∧ 128 ≤ c

instance (checks : Checks) (c : UInt8) : Decidable (BeyondMasks checks c) :=
  inferInstanceAs (Decidable (_ ∧ _ ∧ _))

theorem checkCharacter_eq {checks : Checks} {c : UInt8}
    (valid : checks.allowAllCharacters = true ∨ c ∉ invalidCharacters) :
    checkCharacter checks c = if BeyondMasks checks c then .error .outOfBounds else .ok () := by
  rw [checkCharacter, isInvalidCharacter_eq]
  by_cases allowed : checks.allowAllCharacters = true
  · simp [BeyondMasks, allowed]
  · have notInvalid := valid.resolve_left allowed
    rw [if_neg allowed]
    by_cases beyond : checks.charIsSigned ∧ 128 ≤ c
    · rw [if_pos beyond, if_pos ⟨by simpa using allowed, beyond⟩]
      rfl
    · rw [if_neg beyond, if_neg (fun reads => beyond reads.2)]
      simp [notInvalid]

theorem checkCharacter_separator : checkCharacter checks directorySeparator = .ok () := by
  rw [checkCharacter_eq (.inr (by decide)), if_neg]
  exact fun beyond => absurd beyond.2.2 (by decide)

theorem checkComponent_eq {checks : Checks} {component : Component}
    (valid : checks.allowAllCharacters = true ∨ ∀ c ∈ component, c ∉ invalidCharacters) :
    checkComponent checks component =
      if ∃ c ∈ component, BeyondMasks checks c then .error .outOfBounds else .ok () := by
  induction component with
  | nil => simp [checkComponent]
  | cons c component ih =>
    have head := checkCharacter_eq (valid.imp_right fun valid => valid c mem_cons_self)
    have tail := ih (valid.imp_right fun valid d inside => valid d (mem_cons_of_mem _ inside))
    rw [checkComponent_cons, head, tail]
    by_cases beyond : BeyondMasks checks c
    · simp [beyond]
    · simp [beyond]

/-! ## The automaton -/

/-- Where the automaton stands when it has read the beginning of a component. -/
def stateIn (outset : PathState) (done : Component) : PathState :=
  if done = [] then outset
  else if done = currentDirectory then .currentDir
  else if done = parentDirectory then .parentDir
  else .normal

/-- The automaton stands where a component begins. -/
def IsOutset (state : PathState) : Prop := state = .firstSeparator ∨ state = .separator

section

variable {outset : PathState} (begins : IsOutset outset)

include begins

theorem nextState_stateIn {done : Component} {c : UInt8} (other : c ≠ directorySeparator) :
    nextState c (stateIn outset done) = .ok (some (stateIn outset (done ++ [c]))) := by
  by_cases empty : done = []
  · subst empty
    rcases begins with rfl | rfl <;>
      simp [stateIn, nextState, other, currentDirectory, parentDirectory]
  · by_cases current : done = currentDirectory
    · subst current
      simp [stateIn, nextState, other, currentDirectory, parentDirectory]
    · have longer : done ++ [c] ≠ currentDirectory ∧ done ++ [c] ≠ parentDirectory := by
        constructor
        · intro equal
          exact empty (by simpa [currentDirectory] using congrArg List.dropLast equal)
        · intro equal
          have front := congrArg List.dropLast equal
          exact current (by simpa [parentDirectory, currentDirectory] using front)
      by_cases parent : done = parentDirectory
      · subst parent
        simp [stateIn, nextState, other, currentDirectory, parentDirectory]
      · simp [stateIn, nextState, other, empty, current, parent, longer]

theorem nextState_separator (done : Component) :
    nextState directorySeparator (stateIn outset done) =
      .ok (if IsName done then some .separator else none) := by
  by_cases name : IsName done
  · simp [stateIn, nextState, name, name.nonempty, name.notCurrent, name.notParent]
  · rw [if_neg name]
    unfold stateIn
    split
    · rcases begins with rfl | rfl <;> rfl
    · next nonempty =>
      split
      · rfl
      · next notCurrent =>
        split
        · rfl
        · next notParent => exact absurd ⟨nonempty, notCurrent, notParent⟩ name

theorem finalVerdict_stateIn (done : Component) (len : Nat) :
    finalVerdict len (stateIn outset done) =
      .ok ⟨decide (IsName done ∨ done = [] ∧ outset = .firstSeparator), some len⟩ := by
  by_cases name : IsName done
  · simp [stateIn, finalVerdict, name, name.nonempty, name.notCurrent, name.notParent]
  · unfold stateIn
    split
    · next empty =>
      subst empty
      rcases begins with rfl | rfl <;> simp [finalVerdict, name]
    · next nonempty =>
      split
      · simp [finalVerdict, name, nonempty]
      · next notCurrent =>
        split
        · simp [finalVerdict, name, nonempty]
        · next notParent => exact absurd ⟨nonempty, notCurrent, notParent⟩ name

theorem stateIn_ne_start (done : Component) :
    stateIn outset done ≠ .start := by
  intro stands
  have moved := nextState_separator begins done
  rw [stands] at moved
  split at moved <;> cases moved

end

/-- The automaton goes through the characters of a component. -/
theorem isNormalizedLoop_append {outset : PathState} (begins : IsOutset outset)
    {component : Component} (separate : directorySeparator ∉ component) (done : Component)
    (len : Nat) (tail : List UInt8) :
    isNormalizedLoop checks (stateIn outset done) len (component ++ tail) =
      (checkComponent checks component >>= fun _ =>
        isNormalizedLoop checks (stateIn outset (done ++ component)) (len + component.length)
          tail) := by
  induction component generalizing done len with
  | nil => simp [checkComponent]
  | cons c component ih =>
    obtain ⟨other, separate⟩ := ne_and_not_mem_of_not_mem_cons separate
    have later := ih separate (done ++ [c]) (len + 1)
    rw [append_assoc, singleton_append] at later
    rw [cons_append, isNormalizedLoop, if_pos (stateIn_ne_start begins done),
      nextState_stateIn begins other.symm, checkComponent_cons, bind_assoc]
    simp only [ok_bind]
    rw [later, length_cons, Nat.add_right_comm, Nat.add_assoc]

/-- Goes through the components up to the first one that is no name. -/
def scan (checks : Checks) : Bool → List Component → Except Fault Bool
  | _, [] => .ok true
  | atStart, component :: later => do
    checkComponent checks component
    if later = [] then .ok (decide (IsName component ∨ component = [] ∧ atStart = true))
    else if IsName component then scan checks false later
    else .ok false

/-- The automaton answers as the scan of the components does. -/
theorem isNormalizedLoop_scan (checks : Checks) {outset : PathState} (begins : IsOutset outset)
    (len : Nat) (rest : List UInt8) :
    Agree (fun good verdict => verdict.out = good ∧
        (good = true → verdict.outLen = some (len + rest.length)))
      (scan checks (decide (outset = .firstSeparator)) (components rest))
      (isNormalizedLoop checks outset len rest) := by
  obtain ⟨component, tail, split, separate, ends⟩ := exists_component rest
  have through := isNormalizedLoop_append checks begins separate [] len tail
  rw [nil_append] at through
  subst split
  change isNormalizedLoop checks outset _ _ = _ at through
  rw [through]
  rcases ends with rfl | ⟨more, rfl⟩
  · rw [append_nil, components_single separate, scan]
    refine (Agree.refl _).bind fun _ _ _ _ => ?_
    rw [if_pos rfl, isNormalizedLoop, finalVerdict_stateIn begins]
    exact .ok ⟨by simp, fun _ => rfl⟩
  · rw [components_append separate, scan]
    refine (Agree.refl _).bind fun _ _ _ _ => ?_
    rw [if_neg (components_ne_nil more), isNormalizedLoop, if_pos (stateIn_ne_start begins _),
      checkCharacter_separator, nextState_separator begins]
    by_cases name : IsName component
    · simp only [ok_bind, if_pos name]
      have later := isNormalizedLoop_scan checks (.inr rfl : IsOutset .separator)
        (len + component.length + 1) more
      refine later.mono fun good verdict ⟨same, ended⟩ => ⟨same, fun accepted => ?_⟩
      rw [ended accepted, length_append, length_cons]
      congr 1
      omega
    · simp only [ok_bind, if_neg name]
      exact .ok ⟨rfl, fun accepted => by cases accepted⟩
termination_by rest.length

/-- The scan accepts names, and nothing at all where the path begins. -/
theorem scan_eq_ok {checks : Checks} {atStart good : Bool} {path : List Component}
    (some : path ≠ []) (scanned : scan checks atStart path = .ok good) :
    good = true ↔ (path = [[]] ∧ atStart = true) ∨ ∀ component ∈ path, IsName component := by
  induction path generalizing atStart with
  | nil => exact absurd rfl some
  | cons component later ih =>
    rw [scan] at scanned
    obtain ⟨_, -, answered⟩ := bind_eq_ok.1 scanned
    by_cases last : later = []
    · subst last
      rw [if_pos rfl] at answered
      rw [← Except.ok.inj answered]
      simp [or_comm]
    · have notOne : component :: later ≠ [[]] := by simp [last]
      rw [if_neg last] at answered
      by_cases name : IsName component
      · rw [if_pos name] at answered
        rw [ih last answered]
        simp [name, notOne]
      · rw [if_neg name] at answered
        rw [← Except.ok.inj answered]
        simp [name, notOne]

/-- Names whose characters may be read are accepted. -/
theorem scan_names {checks : Checks} {path : List Component} (atStart : Bool)
    (names : ∀ component ∈ path, IsName component)
    (readable : ∀ component ∈ path, checkComponent checks component = .ok ()) :
    scan checks atStart path = .ok true := by
  induction path generalizing atStart with
  | nil => rfl
  | cons component later ih =>
    have name := names component mem_cons_self
    have rest := ih false (fun _ inside => names _ (mem_cons_of_mem _ inside))
      (fun _ inside => readable _ (mem_cons_of_mem _ inside))
    rw [scan, readable component mem_cons_self, ok_bind, rest]
    simp [name]

/-- A path that begins with a separator is judged by its components. -/
theorem isNormalized_scan {path : CString} {rest : List UInt8}
    (begins : path.chars = directorySeparator :: rest) :
    Agree (fun good verdict => verdict.out = good ∧
        (good = true → verdict.outLen = some path.chars.length))
      (scan checks true (components rest)) (isNormalized checks path) := by
  have onwards := isNormalizedLoop_scan checks (.inl rfl : IsOutset .firstSeparator) 1 rest
  rw [begins, length_cons, Nat.add_comm, isNormalized, begins]
  exact onwards

end SumiEmu.FileSys.PathNormalizer
