/-
# Normalising the paths of a file system

A path is a C string of bytes. Normalising writes it to a buffer component by component: empty
components and `.` are left out, and `..` backs up over the buffer to the separator before the last
component. Whether a path is normalised already is decided by an automaton on its characters.
-/

import Mathlib.Data.List.TakeWhile
import SumiEmu.Foundations.Fallible

namespace SumiEmu.FileSys.PathNormalizer

open Fallible

/-! ## Characters and strings -/

def directorySeparator : UInt8 := 47

def alternateDirectorySeparator : UInt8 := 92

def dot : UInt8 := 46

def nullTerminator : UInt8 := 0

/-- The characters `:`, `*`, `?`, `<`, `>` and `|`. -/
def invalidCharacters : List UInt8 := [58, 42, 63, 60, 62, 124]

def entryNameLengthMax : Nat := 0x300

/-- A string as C has it: the characters before its terminator, none of which is one. -/
structure CString where
  chars : List UInt8
  unterminated : nullTerminator ∉ chars

inductive ResultCode
  | tooLongPath
  | invalidCharacter
  | invalidPathFormat
  | directoryUnobtainable
  deriving DecidableEq

inductive Fault
  | thrown (result : ResultCode)
  /-- `ResultTooLongPath` with the part of the path that fits written to the buffer. -/
  | truncated (dst : List UInt8) (outLen : Nat)
  | assertion
  /-- A lookup beyond the masks of characters, which the code does not check for. -/
  | outOfBounds
  /-- An access beyond one of the buffers. -/
  | outOfBuffer
  | outOfFuel
  deriving DecidableEq

/-- `ASSERT`. -/
def assertThat (condition : Prop) [Decidable condition] : Except Fault Unit :=
  if condition then .ok () else .error .assertion

/-- What decides whether a character may occur. Whether `char` is signed is up to the target. -/
structure Checks where
  charIsSigned : Bool
  allowAllCharacters : Bool

/-- The cast of a character to 64 bits extends its sign when it has one. -/
def toU64 (charIsSigned : Bool) (c : UInt8) : BitVec 64 :=
  if charIsSigned then c.toBitVec.signExtend 64 else c.toBitVec.setWidth 64

def makeInvalidCharacterMask (charIsSigned : Bool) (n : Nat) : BitVec 64 :=
  invalidCharacters.foldl (fun mask c =>
    if (toU64 charIsSigned c >>> 6).toNat = n then
      mask ||| (1#64 <<< (toU64 charIsSigned c &&& 0x3F#64).toNat)
    else mask) 0#64

def isInvalidCharacter (charIsSigned : Bool) (c : UInt8) : Except Fault Bool :=
  let masks := (List.range 4).map (makeInvalidCharacterMask charIsSigned)
  match masks[(toU64 charIsSigned c >>> 6).toNat]? with
  | none => .error .outOfBounds
  | some mask =>
    .ok (decide (mask &&& (1#64 <<< (toU64 charIsSigned c &&& 0x3F#64).toNat) ≠ 0#64))

/-- The check of a character wherever invalid ones are refused. -/
def checkCharacter (checks : Checks) (c : UInt8) : Except Fault Unit :=
  if checks.allowAllCharacters then .ok ()
  else do
    let invalid ← isInvalidCharacter checks.charIsSigned c
    if invalid then .error (.thrown .invalidCharacter) else .ok ()

/-! ## Is a path normalised? -/

/-- `PathState`. -/
inductive PathState
  | start
  | normal
  | firstSeparator
  | separator
  | currentDir
  | parentDir
  deriving DecidableEq

/-- One round of the automaton; `none` where it returns early with `false`. -/
def nextState (c : UInt8) : PathState → Except Fault (Option PathState)
  | .start =>
    if c = directorySeparator then .ok (some .firstSeparator)
    else .error (.thrown .invalidPathFormat)
  | .normal => .ok (some (if c = directorySeparator then .separator else .normal))
  | .firstSeparator | .separator =>
    .ok (if c = directorySeparator then none else some (if c = dot then .currentDir else .normal))
  | .currentDir =>
    .ok (if c = directorySeparator then none else some (if c = dot then .parentDir else .normal))
  | .parentDir => .ok (if c = directorySeparator then none else some .normal)

/-- What `IsNormalized` stores; it returns early without a length. -/
structure Verdict where
  out : Bool
  outLen : Option Nat
  deriving DecidableEq

def finalVerdict (len : Nat) : PathState → Except Fault Verdict
  | .start => .error (.thrown .invalidPathFormat)
  | .normal | .firstSeparator => .ok ⟨true, some len⟩
  | .separator | .currentDir | .parentDir => .ok ⟨false, some len⟩

/-- The loop of `isNormalized`, at the part of the path from `len` on. -/
def isNormalizedLoop (checks : Checks) :
    PathState → Nat → List UInt8 → Except Fault Verdict
  | state, len, [] => finalVerdict len state
  | state, len, c :: rest => do
    if state ≠ .start then checkCharacter checks c
    match ← nextState c state with
    | none => .ok ⟨false, none⟩
    | some next => isNormalizedLoop checks next (len + 1) rest

/-- `IsNormalized`. -/
def isNormalized (checks : Checks) (path : CString) : Except Fault Verdict :=
  isNormalizedLoop checks .start 0 path.chars

/-! ## Parent references spelled with backslashes -/

/-- The loop that looks at four characters at a time, and the check of the last three. -/
def parentReferenceLoop : List UInt8 → Bool
  | c0 :: c1 :: c2 :: c3 :: rest =>
    if c1 ≠ dot ∨ c2 ≠ dot then parentReferenceLoop (c1 :: c2 :: c3 :: rest)
    else if c0 = alternateDirectorySeparator ∧
        (c3 = directorySeparator ∨ c3 = alternateDirectorySeparator ∨ c3 = nullTerminator) then
      true
    else if c3 = alternateDirectorySeparator ∧
        (c0 = directorySeparator ∨ c0 = alternateDirectorySeparator) then
      true
    else parentReferenceLoop (c1 :: c2 :: c3 :: rest)
  | [c0, c1, c2] => c0 = alternateDirectorySeparator ∧ c1 = dot ∧ c2 = dot
  | _ => false

def isParentDirectoryPathReplacementNeeded (path : CString) : Bool :=
  match path.chars with
  | [] => false
  | c :: rest =>
    if c ≠ directorySeparator ∧ c ≠ alternateDirectorySeparator then false
    else parentReferenceLoop (c :: rest)

/-- The character at an index, the terminator at the end of the string. -/
def charAt (path : List UInt8) (i : Nat) : UInt8 := path.getD i nullTerminator

def store (dst : List UInt8) (i : Nat) (c : UInt8) : Except Fault (List UInt8) :=
  if i < dst.length then .ok (dst.set i c) else .error .outOfBuffer

/-- The loop of `replaceParentDirectoryPath`; `fuel` bounds its rounds. -/
def replaceLoop (src : List UInt8) : Nat → List UInt8 → Nat → Except Fault (List UInt8)
  | 0, _, _ => .error .outOfFuel
  | fuel + 1, dst, i =>
    let isSeparator (c : UInt8) := c = directorySeparator ∨ c = alternateDirectorySeparator
    if charAt src i = nullTerminator then store dst i nullTerminator
    else if isSeparator (charAt src (i - 1)) ∧ charAt src i = dot ∧ charAt src (i + 1) = dot ∧
        isSeparator (charAt src (i + 2)) then do
      let dst ← store dst (i - 1) directorySeparator
      let dst ← store dst i dot
      let dst ← store dst (i + 1) dot
      let dst ← store dst (i + 2) directorySeparator
      replaceLoop src fuel dst (i + 3)
    else if charAt src (i - 1) = alternateDirectorySeparator ∧ charAt src i = dot ∧
        charAt src (i + 1) = dot ∧ charAt src (i + 2) = nullTerminator then do
      let dst ← store dst (i - 1) directorySeparator
      let dst ← store dst i dot
      let dst ← store dst (i + 1) dot
      store dst (i + 2) nullTerminator
    else do
      let dst ← store dst i (charAt src i)
      replaceLoop src fuel dst (i + 1)

/-- `ReplaceParentDirectoryPath`. -/
def replaceParentDirectoryPath (dst src : List UInt8) : Except Fault (List UInt8) := do
  let dst ← store dst 0 directorySeparator
  replaceLoop src (src.length + 1) dst 1

/-- The string that a buffer holds. -/
def CString.ofBuffer (dst : List UInt8) : CString where
  chars := dst.takeWhile (· != nullTerminator)
  unterminated inside := by simpa using List.mem_takeWhile_imp inside

/-! ## Normalising -/

/-- The buffer, how much of it is written, and whether the next separator is written already. -/
structure Writer where
  dst : List UInt8
  totalLen : Nat
  skipNextSep : Bool
  deriving DecidableEq

/-- The parameters of a call, and of the target it runs on. -/
structure Call extends Checks where
  maxOutSize : Nat
  isWindowsPath : Bool
  isDriveRelativePath : Bool

/-- One character is put out. -/
def Writer.put (w : Writer) (c : UInt8) : Except Fault Writer := do
  let dst ← store w.dst w.totalLen c
  .ok { w with dst := dst, totalLen := w.totalLen + 1 }

/-- Several characters are put out. -/
def Writer.putAll (w : Writer) (chars : List UInt8) : Except Fault Writer :=
  chars.foldlM Writer.put w

/-- The path written so far is terminated and handed back with `ResultTooLongPath`. -/
def throwTruncated {α : Type} (w : Writer) : Except Fault α := do
  let dst ← store w.dst w.totalLen nullTerminator
  .error (.truncated dst w.totalLen)

/-- A character of a buffer. -/
def read (dst : List UInt8) (i : Nat) : Except Fault UInt8 :=
  match dst[i]? with
  | none => .error .outOfBuffer
  | some c => .ok c

variable (call : Call)

/-- The separator before a component, unless the last one still stands. -/
def putSeparator (w : Writer) : Except Fault Writer := do
  let w ←
    if w.skipNextSep then .ok w
    else if w.totalLen + 1 = call.maxOutSize then throwTruncated w
    else w.put directorySeparator
  .ok { w with skipNextSep := false }

/-- The length of the component at the start of the rest of the path. -/
def componentLength (checks : Checks) : List UInt8 → Except Fault Nat
  | [] => .ok 0
  | c :: rest =>
    if c = directorySeparator then .ok 0
    else do
      checkCharacter checks c
      let dirLen ← componentLength checks rest
      .ok (dirLen + 1)

/-- The entry ends here. -/
def atEnd (path : List UInt8) : Bool :=
  charAt path 0 = nullTerminator ∨ charAt path 0 = directorySeparator

/-- The path begins with `.`. -/
def isCurrentDirectory (path : List UInt8) : Bool :=
  charAt path 0 = dot ∧ atEnd (path.drop 1)

/-- The path begins with `..`. -/
def isParentDirectory (path : List UInt8) : Bool :=
  charAt path 0 = dot ∧ charAt path 1 = dot ∧ atEnd (path.drop 2)

/-- The search for the separator before the last component, downwards from a position. -/
def backUp (dst : List UInt8) : Nat → Except Fault Nat
  | 0 => do
    let c ← read dst 0
    -- Counting down from zero would wrap.
    if c = directorySeparator then .ok 0 else .error .outOfBuffer
  | i + 1 => do
    let c ← read dst (i + 1)
    if c = directorySeparator then .ok (i + 1)
    else if i = 0 then .ok 0
    else backUp dst i

/-- A `..` removes the component before it. -/
def removeComponent (w : Writer) : Except Fault Writer := do
  if w.totalLen = 0 then .error .outOfBuffer
  let last ← read w.dst (w.totalLen - 1)
  assertThat (last = directorySeparator)
  if !call.isWindowsPath then
    let first ← read w.dst 0
    assertThat (first = directorySeparator)
  let totalLen ←
    if w.totalLen = 1 then
      if call.isWindowsPath then .ok 0 else .error (.thrown .directoryUnobtainable)
    else backUp w.dst (w.totalLen - 2)
  if !call.isWindowsPath then
    let last ← read w.dst totalLen
    assertThat (last = directorySeparator)
  assertThat (totalLen < call.maxOutSize)
  .ok { w with totalLen := totalLen }

/-- Any other component is copied, or as much of it as fits. -/
def copyComponent (w : Writer) (component : List UInt8) : Except Fault Writer :=
  if w.totalLen + component.length + 1 > call.maxOutSize then
    -- The number of characters that still fit would wrap when nothing does.
    if call.maxOutSize < w.totalLen + 1 then .error .outOfBuffer
    else do
      let w ← w.putAll (component.take (call.maxOutSize - (w.totalLen + 1)))
      throwTruncated w
  else w.putAll component

/-- Handles the component at the start of the rest of the path, and advances past it. -/
def handleComponent (rest : List UInt8) (w : Writer) : Except Fault (List UInt8 × Writer) := do
  let dirLen ← componentLength call.toChecks rest
  let w ←
    if isCurrentDirectory rest then .ok { w with skipNextSep := true }
    else if isParentDirectory rest then removeComponent call w
    else copyComponent call w (rest.take dirLen)
  .ok (rest.drop dirLen, w)

/-- One round of the loop, at the rest of the path from `i` on. At its end it leaves nothing. -/
def normalizeRound (rest : List UInt8) (w : Writer) : Except Fault (List UInt8 × Writer) :=
  if charAt rest 0 = directorySeparator then
    match rest.dropWhile (· = directorySeparator) with
    | [] => .ok ([], w)
    | c :: rest => do
      let w ← putSeparator call w
      handleComponent call (c :: rest) w
  else handleComponent call rest w

/-- The loop; `fuel` bounds its rounds. -/
def normalizeLoop (call : Call) : Nat → List UInt8 → Writer → Except Fault Writer
  | _, [], w => .ok w
  | 0, _ :: _, _ => .error .outOfFuel
  | fuel + 1, c :: rest, w => do
    let (rest, w) ← normalizeRound call (c :: rest) w
    normalizeLoop call fuel rest w

/-- What a successful call leaves: the buffer and the length of the path in it. -/
structure Output where
  dst : List UInt8
  outLen : Nat
  deriving DecidableEq

/-- The path in the buffer is terminated, and has to be normalised by now. -/
def deliver (dst : List UInt8) (totalLen : Nat) : Except Fault Output := do
  let dst ← store dst totalLen nullTerminator
  let verdict ← isNormalized call.toChecks (.ofBuffer dst)
  assertThat (verdict.out = true)
  .ok ⟨dst, totalLen⟩

/-- What `normalize` does after its loop. -/
def finish (w : Writer) : Except Fault Output := do
  if w.skipNextSep ∧ w.totalLen = 0 then .error .outOfBuffer
  let totalLen := if w.skipNextSep then w.totalLen - 1 else w.totalLen
  let (dst, totalLen) ←
    if totalLen = 0 ∧ call.maxOutSize ≠ 0 then do
      let dst ← store w.dst 0 directorySeparator
      .ok (dst, 1)
    else .ok (w.dst, totalLen)
  -- The predecessor of zero is the greatest size.
  if totalLen = 0 ∨ call.maxOutSize < totalLen - 1 then .error (.thrown .tooLongPath)
  deliver call dst totalLen

/-- The path that is gone through: the given one, or its replacement. -/
def replaced (path : CString) (allocated : Vector UInt8 (entryNameLengthMax + 1)) :
    Except Fault CString :=
  if isParentDirectoryPathReplacementNeeded path then do
    let buffer ← replaceParentDirectoryPath allocated.toList path.chars
    .ok (.ofBuffer buffer)
  else .ok path

/-- Before the call, `dst` and the `allocated` buffer for a replacement hold anything. -/
def normalize (dst : List UInt8) (allocated : Vector UInt8 (entryNameLengthMax + 1))
    (path : CString) : Except Fault Output := do
  let w ←
    if charAt path.chars 0 ≠ directorySeparator then
      if call.isDriveRelativePath then Writer.put ⟨dst, 0, false⟩ directorySeparator
      else .error (.thrown .invalidPathFormat)
    else .ok ⟨dst, 0, false⟩
  let path ← replaced path allocated
  let w ← normalizeLoop call path.chars.length path.chars w
  finish call w

end SumiEmu.FileSys.PathNormalizer

/-!
## Canonical paths

The components of a path are what stands between its separators. Resolving them drops empty ones
and `.`, and lets `..` remove the last one that is left; there is none at the root, where a windows
path stays and another has no canonical form. A canonical path is one that resolving leaves alone.
-/

namespace SumiEmu.FileSys.PathNormalizer

open List

/-- A component of a path. -/
abbrev Component := List UInt8

def currentDirectory : Component := [dot]

def parentDirectory : Component := [dot, dot]

def components (path : List UInt8) : List Component := path.splitOn directorySeparator

/-- Resolves one more component after those that are left of the ones before. -/
def resolveNext (isWindowsPath : Bool) (kept : List Component) (component : Component) :
    Option (List Component) :=
  if component = [] ∨ component = currentDirectory then some kept
  else if component = parentDirectory then
    if kept = [] then if isWindowsPath then some [] else none
    else some kept.dropLast
  else some (kept ++ [component])

def resolve (isWindowsPath : Bool) (path : List Component) : Option (List Component) :=
  path.foldlM (resolveNext isWindowsPath) []

/-- The path of the components: a separator, and the components joined by separators. -/
def pathOf (kept : List Component) : List UInt8 :=
  directorySeparator :: [directorySeparator].intercalate kept

def canonicalForm (isWindowsPath : Bool) (path : List UInt8) : Option (List UInt8) :=
  (resolve isWindowsPath (components path)).map pathOf

/-! ## Components of a path -/

theorem components_separator (rest : List UInt8) :
    components (directorySeparator :: rest) = [] :: components rest :=
  splitOn_append_cons_self_of_not_mem
    (not_mem_nil : directorySeparator ∉ ([] : List UInt8)) rest

variable {component : Component}

theorem components_single (inside : directorySeparator ∉ component) :
    components component = [component] :=
  splitOn_eq_singleton inside

theorem components_append (inside : directorySeparator ∉ component) (rest : List UInt8) :
    components (component ++ directorySeparator :: rest) = component :: components rest :=
  splitOn_append_cons_self_of_not_mem inside rest

theorem components_ne_nil (path : List UInt8) : components path ≠ [] := splitOn_ne_nil _ path

variable {path : List UInt8}

/-- A component has characters of the path, and no separator among them. -/
theorem of_mem_components (member : component ∈ components path) :
    directorySeparator ∉ component ∧ component ⊆ path := by
  induction path generalizing component with
  | nil =>
    obtain rfl : component = [] := by simpa [components] using member
    exact ⟨not_mem_nil, nil_subset _⟩
  | cons c path ih =>
    by_cases separator : c = directorySeparator
    · subst separator
      rw [components_separator] at member
      rcases mem_cons.1 member with rfl | later
      · exact ⟨not_mem_nil, nil_subset _⟩
      · exact ⟨(ih later).1, subset_cons_of_subset _ (ih later).2⟩
    · -- Another character goes to the front of the first component.
      rw [components, splitOn_cons_eq_if_modifyHead,
        if_neg (by simpa using separator)] at member
      obtain ⟨first, others, split⟩ :=
        exists_cons_of_ne_nil (splitOn_ne_nil directorySeparator path)
      rw [split, modifyHead_cons] at member
      obtain ⟨separate, inside⟩ := ih (by simp [components, split] : first ∈ components path)
      rcases mem_cons.1 member with rfl | later
      · exact ⟨by simpa [Ne.symm separator] using separate, cons_subset_cons _ inside⟩
      · obtain ⟨separate, inside⟩ := ih (show component ∈ components path by
          simp [components, split, later])
        exact ⟨separate, subset_cons_of_subset _ inside⟩

/-! ## Names -/

/-- A component that names an entry of a directory. -/
structure IsName (component : Component) : Prop where
  nonempty : component ≠ []
  notCurrent : component ≠ currentDirectory
  notParent : component ≠ parentDirectory

instance (component : Component) : Decidable (IsName component) :=
  decidable_of_iff (component ≠ [] ∧ component ≠ currentDirectory ∧ component ≠ parentDirectory)
    ⟨fun ⟨a, b, c⟩ => ⟨a, b, c⟩, fun ⟨a, b, c⟩ => ⟨a, b, c⟩⟩

variable {isWindowsPath : Bool}
variable {kept : List Component}

theorem resolveNext_name (name : IsName component) :
    resolveNext isWindowsPath kept component = some (kept ++ [component]) := by
  simp [resolveNext, name.nonempty, name.notCurrent, name.notParent]

/-- Names resolve to themselves. -/
theorem foldlM_names {path : List Component}
    (names : ∀ component ∈ path, IsName component) (kept : List Component) :
    path.foldlM (resolveNext isWindowsPath) kept = some (kept ++ path) := by
  induction path generalizing kept with
  | nil => simp
  | cons component path ih =>
    rw [foldlM_cons, resolveNext_name (names _ mem_cons_self)]
    have later := ih (fun other member => names other (mem_cons_of_mem _ member))
      (kept ++ [component])
    simpa using later

section

variable {kept next : List Component}
  (resolved : resolveNext isWindowsPath kept component = some next)

include resolved

/-- A component is skipped, removes the last one, or is added, and only names are added. -/
theorem resolveNext_cases :
    next = kept ∨ next = kept.dropLast ∨ next = kept ++ [component] ∧ IsName component := by
  unfold resolveNext at resolved
  split at resolved
  · exact .inl (Option.some.inj resolved).symm
  · rename_i skipped
    obtain ⟨nonempty, notCurrent⟩ := not_or.1 skipped
    split at resolved
    · split at resolved
      · rename_i root
        split at resolved
        · exact .inl ((Option.some.inj resolved).symm.trans root.symm)
        · cases resolved
      · exact .inr (.inl (Option.some.inj resolved).symm)
    · rename_i notParent
      exact .inr (.inr ⟨(Option.some.inj resolved).symm, nonempty, notCurrent, notParent⟩)

theorem resolveNext_kept {other : Component} (member : other ∈ next) :
    other ∈ kept ∨ other = component ∧ IsName component := by
  rcases resolveNext_cases resolved with rfl | rfl | ⟨rfl, name⟩
  · exact .inl member
  · exact .inl (dropLast_subset _ member)
  · rcases mem_append.1 member with old | new
    · exact .inl old
    · exact .inr ⟨mem_singleton.1 new, name⟩

end

/-- The components that are left were components of the path, and they are names. -/
theorem foldlM_kept {path kept left : List Component}
    (resolved : path.foldlM (resolveNext isWindowsPath) kept = some left)
    (member : component ∈ left) :
    component ∈ kept ∨ component ∈ path ∧ IsName component := by
  induction path generalizing kept with
  | nil =>
    obtain rfl := Option.some.inj resolved
    exact .inl member
  | cons first path ih =>
    rw [foldlM_cons] at resolved
    obtain ⟨next, here, later⟩ := Option.bind_eq_some_iff.1 resolved
    rcases ih later with fromNext | ⟨inside, name⟩
    · rcases resolveNext_kept here fromNext with old | ⟨rfl, name⟩
      · exact .inl old
      · exact .inr ⟨mem_cons_self, name⟩
    · exact .inr ⟨mem_cons_of_mem _ inside, name⟩

theorem isName_of_resolve {path left : List Component}
    (resolved : resolve isWindowsPath path = some left)
    (member : component ∈ left) : component ∈ path ∧ IsName component :=
  (foldlM_kept resolved member).resolve_left not_mem_nil

/-- A `..` stands where none of the components before it is left. -/
def ClimbsAboveRoot (kept path : List Component) : Prop :=
  ∃ front back, path = front ++ parentDirectory :: back ∧
    front.foldlM (resolveNext false) kept = some []

theorem resolveNext_eq_none_iff
  :
    resolveNext isWindowsPath kept component = none ↔
      isWindowsPath = false ∧ component = parentDirectory ∧ kept = [] := by
  constructor
  · intro failed
    unfold resolveNext at failed
    split at failed
    · cases failed
    · split at failed
      · next parent =>
        split at failed
        · next root =>
          split at failed
          · cases failed
          · next other => exact ⟨by simpa using other, parent, root⟩
        · cases failed
      · cases failed
  · rintro ⟨rfl, rfl, rfl⟩
    decide

/-- Resolving fails at a `..` at the root of a path that is no windows path, and only there. -/
theorem foldlM_eq_none_iff {kept path : List Component} :
    path.foldlM (resolveNext isWindowsPath) kept = none ↔
      isWindowsPath = false ∧ ClimbsAboveRoot kept path := by
  induction path generalizing kept with
  | nil =>
    constructor
    · intro failed
      cases failed
    · rintro ⟨-, front, back, split, -⟩
      cases front <;> cases split
  | cons component path ih =>
    rw [foldlM_cons]
    cases here : resolveNext isWindowsPath kept component with
    | none =>
      obtain ⟨rfl, rfl, rfl⟩ := resolveNext_eq_none_iff.1 here
      exact iff_of_true rfl ⟨rfl, [], path, rfl, rfl⟩
    | some next =>
      refine Iff.trans ih (and_congr_right ?_)
      rintro rfl
      constructor
      · rintro ⟨front, back, rfl, resolved⟩
        refine ⟨component :: front, back, rfl, ?_⟩
        rw [foldlM_cons, here]
        exact resolved
      · rintro ⟨front, back, split, resolved⟩
        cases front with
        | nil =>
          obtain ⟨rfl, rfl⟩ := List.cons.inj split
          obtain rfl : kept = [] := Option.some.inj resolved
          cases here
        | cons first front =>
          obtain ⟨rfl, rfl⟩ := List.cons.inj split
          rw [foldlM_cons, here] at resolved
          exact ⟨front, back, rfl, resolved⟩

/-! ## Canonical paths -/

/-- What a canonical path looks like. -/
def IsCanonical (path : List UInt8) : Prop :=
  ∃ rest, path = directorySeparator :: rest ∧
    (rest = [] ∨ ∀ component ∈ components rest, IsName component)

theorem isCanonical_pathOf (names : ∀ component ∈ kept, IsName component)
    (separate : ∀ component ∈ kept, directorySeparator ∉ component) :
    IsCanonical (pathOf kept) := by
  refine ⟨_, rfl, ?_⟩
  rcases eq_or_ne kept [] with rfl | some
  · exact .inl rfl
  · right
    rw [components, splitOn_intercalate _ separate some]
    exact names

theorem IsCanonical.canonicalForm (canonical : IsCanonical path)
    (isWindowsPath : Bool) : canonicalForm isWindowsPath path = some path := by
  obtain ⟨rest, rfl, rfl | names⟩ := canonical
  · rfl
  · have resolved : resolve isWindowsPath (components (directorySeparator :: rest)) =
        some (components rest) := by
      rw [components_separator, resolve, foldlM_cons]
      exact foldlM_names names []
    rw [PathNormalizer.canonicalForm, resolved]
    simp [pathOf, components]

theorem isCanonical_of_canonicalForm {path form : List UInt8}
    (formed : canonicalForm isWindowsPath path = some form) : IsCanonical form := by
  obtain ⟨left, resolved, rfl⟩ := Option.map_eq_some_iff.1 formed
  have fromPath {component} (member : component ∈ left) := isName_of_resolve resolved member
  exact isCanonical_pathOf (fun _ member => (fromPath member).2)
    (fun _ member => (of_mem_components (fromPath member).1).1)

/-- A path is its own canonical form when it looks like one. -/
theorem canonicalForm_eq_self_iff :
    canonicalForm isWindowsPath path = some path ↔ IsCanonical path :=
  ⟨isCanonical_of_canonicalForm, fun canonical => canonical.canonicalForm isWindowsPath⟩

end SumiEmu.FileSys.PathNormalizer
