/-
# When the canonical path is computed

Normalising a path gives its canonical form, and the automaton accepts a path when it is its own
canonical form, unless a character is looked up beyond the masks of invalid characters.
-/

import SumiEmu.FileSys.PathNormalizerAutomaton

namespace SumiEmu.FileSys.PathNormalizer

open Fallible

/-! ## The walk and the scan -/

variable {call : Call}

/-- Where the scan fails, the walk fails in the same way. -/
theorem walk_of_scan_error {atStart : Bool} {path : List Component} {fault : Fault}
    (failed : scan call.toChecks atStart path = .error fault) (kept : List Component) :
    walk call kept path = .error fault := by
  induction path generalizing atStart kept with
  | nil => cases failed
  | cons component later ih =>
    rw [scan] at failed
    rw [walk, List.foldlM_cons, walkNext]
    cases checked : checkComponent call.toChecks component with
    | error other =>
      rw [checked, error_bind] at failed
      obtain rfl := Except.error.inj failed
      rfl
    | ok _ =>
      rw [checked, ok_bind] at failed
      split at failed
      · cases failed
      · split at failed
        · next name =>
          rw [ok_bind, resolveNext_name name]
          exact ih failed _
        · cases failed

/-! ## The end of the call -/

theorem walk_eq_ok {kept left path : List Component} (walked : walk call kept path = .ok left) :
    path.foldlM (resolveNext call.isWindowsPath) kept = some left ∧
      ∀ component ∈ path, checkComponent call.toChecks component = .ok () := by
  induction path generalizing kept with
  | nil =>
    rw [← Except.ok.inj walked]
    exact ⟨rfl, by simp⟩
  | cons component path ih =>
    rw [walk, List.foldlM_cons] at walked
    obtain ⟨next, here, later⟩ := bind_eq_ok.1 walked
    obtain ⟨checked, resolved⟩ := resolveNext_of_walkNext here
    obtain ⟨rest, readable⟩ := ih later
    rw [List.foldlM_cons, resolved]
    exact ⟨rest, List.forall_mem_cons.2 ⟨checked, readable⟩⟩

/-- What is left are names without separators. -/
def Tidy (kept : List Component) : Prop :=
  ∀ component ∈ kept, IsName component ∧ directorySeparator ∉ component

variable {path : CString} {kept : List Component}

/-- The path of names whose characters may be read is normalised. -/
theorem isNormalized_pathOf {checks : Checks}
    (holds : path.chars = pathOf kept) (tidy : Tidy kept)
    (readable : ∀ component ∈ kept, checkComponent checks component = .ok ()) :
    ∃ verdict, isNormalized checks path = .ok verdict ∧ verdict.out = true := by
  have judged := isNormalized_scan checks holds
  have accepted : scan checks true (components ([directorySeparator].intercalate kept)) =
      .ok true := by
    rcases eq_or_ne kept [] with rfl | some
    · rfl
    · rw [components, List.splitOn_intercalate _ (fun _ inside => (tidy _ inside).2) some]
      exact scan_names true (fun _ inside => (tidy _ inside).1) readable
  rw [accepted] at judged
  generalize isNormalized checks path = answer at judged
  cases judged with
  | ok both => exact ⟨_, rfl, both.1⟩

/-- A buffer is read up to its terminator. -/
theorem ofBuffer_chars {dst chars : List UInt8} (text : dst.take chars.length = chars)
    (unterminated : nullTerminator ∉ chars) (inside : chars.length < dst.length) :
    (CString.ofBuffer (dst.set chars.length nullTerminator)).chars = chars := by
  change (dst.set chars.length nullTerminator).takeWhile (· != nullTerminator) = chars
  rw [List.set_eq_take_append_cons_drop, if_pos inside, text,
    List.takeWhile_append_of_pos, List.takeWhile_cons_of_neg (by simp), List.append_nil]
  intro c member
  have other : c ≠ nullTerminator := fun equal => unterminated (equal ▸ member)
  simpa using other

/-- The output is the path of the components, terminated. -/
structure Delivers (kept : List Component) (output : Output) : Prop where
  text : output.dst.take output.outLen = pathOf kept
  outLen : output.outLen = (pathOf kept).length
  terminated : output.dst[output.outLen]? = some nullTerminator

variable {dst : List UInt8}

theorem deliver_pathOf (call : Call) (text : dst.take (pathOf kept).length = pathOf kept)
    (inside : (pathOf kept).length < dst.length) (tidy : Tidy kept)
    (readable : ∀ component ∈ kept, checkComponent call.toChecks component = .ok ())
    (unterminated : ∀ component ∈ kept, nullTerminator ∉ component) :
    ∃ output, deliver call dst (pathOf kept).length = .ok output ∧ Delivers kept output := by
  have whole : nullTerminator ∉ pathOf kept := by
    intro member
    rcases mem_pathOf member with separator | ⟨component, kept, here⟩
    · exact absurd separator (by decide)
    · exact unterminated component kept here
  obtain ⟨verdict, judged, good⟩ :=
    isNormalized_pathOf (ofBuffer_chars text whole inside) tidy readable
  refine ⟨⟨dst.set (pathOf kept).length nullTerminator, (pathOf kept).length⟩, ?_, ⟨?_, rfl, ?_⟩⟩
  · rw [deliver, store, if_pos inside, ok_bind, judged, ok_bind, assertThat_eq_ok good]
    rfl
  · rw [List.take_set_of_le (Nat.le_refl _)]
    exact text
  · simp [inside]

/-- What the loop leaves is handed out without the separator that was to be skipped. -/
theorem Leaves.finish {size : Nat} {w : Writer}
    (leaves : Leaves call size kept w) (tidy : Tidy kept) (fits : call.maxOutSize ≤ size)
    (two : 2 ≤ call.maxOutSize)
    (readable : ∀ component ∈ kept, checkComponent call.toChecks component = .ok ())
    (unterminated : ∀ component ∈ kept, nullTerminator ∉ component) :
    ∃ output, finish call w = .ok output ∧ Delivers kept output := by
  have cut := Holds.cut leaves.boundary.holds
  have total := leaves.boundary.holds.totalLen
  have room : (written kept).length < call.maxOutSize := by
    have within := leaves.room
    rw [total, List.length_append] at within
    omega
  have ended : (if w.skipNextSep then w.totalLen - 1 else w.totalLen) = (written kept).length := by
    rw [total]
    cases w.skipNextSep <;> simp
  have stands : ¬ (w.skipNextSep = true ∧ w.totalLen = 0) := by
    rintro ⟨skip, none⟩
    simp [total, skip] at none
  unfold PathNormalizer.finish
  rw [if_neg stands, ended]
  rcases eq_or_ne kept [] with rfl | some
  · have inside : 0 < w.dst.length := by
      rw [leaves.boundary.holds.size]
      omega
    have positive : call.maxOutSize ≠ 0 := by omega
    have rooted : (w.dst.set 0 directorySeparator).take (pathOf []).length = pathOf [] := by
      obtain ⟨c, dst, split⟩ := List.exists_cons_of_length_pos inside
      rw [split]
      rfl
    have terminable : (pathOf []).length < (w.dst.set 0 directorySeparator).length := by
      rw [List.length_set, leaves.boundary.holds.size]
      exact two.trans fits
    obtain ⟨output, delivered, delivers⟩ := deliver_pathOf call rooted terminable
      tidy readable unterminated
    refine ⟨output, ?_, delivers⟩
    simpa [written, positive, store, inside, pathOf] using delivered
  · have text := cut.text
    rw [← pathOf_eq_written some] at text room ⊢
    have positive : (pathOf kept).length ≠ 0 := by simp [pathOf]
    obtain ⟨output, delivered, delivers⟩ := deliver_pathOf call text
      (by rw [leaves.boundary.holds.size]; omega) tidy readable unterminated
    refine ⟨output, ?_, delivers⟩
    have short : ¬ call.maxOutSize < (pathOf kept).length - 1 := by omega
    simpa [positive, short] using delivered

/-- A path that is accepted at its beginning. -/
def Accepts (call : Call) (path : CString) : Prop :=
  path.chars.head? = some directorySeparator ∨ call.isDriveRelativePath = true

theorem Leaves.finish_agrees {size : Nat} (fits : call.maxOutSize ≤ size)
    (room : path.chars.length + 2 ≤ call.maxOutSize)
    {w : Writer} (walked : walk call [] (components path.chars) = .ok kept)
    (leaves : Leaves call size kept w) :
    Agree Delivers (.ok kept) (PathNormalizer.finish call w) := by
  obtain ⟨resolved, readable⟩ := walk_eq_ok walked
  have inPath {component} (inside : component ∈ kept) : component ∈ components path.chars :=
    (isName_of_resolve resolved inside).1
  have tidy : Tidy kept := fun component inside =>
    ⟨(isName_of_resolve resolved inside).2, leaves.separate component inside⟩
  obtain ⟨output, finished, delivers⟩ := leaves.finish tidy fits (by omega)
    (fun component inside => readable component (inPath inside))
    (fun component inside member =>
      path.unterminated ((of_mem_components (inPath inside)).2 member))
  rw [finished]
  exact .ok delivers

/-- The buffer of an empty path that is relative to a drive. -/
theorem finish_root {w : Writer} (holds : Holds w w.dst.length [directorySeparator])
    (skip : w.skipNextSep = false) (two : 2 ≤ call.maxOutSize)
    (fits : call.maxOutSize ≤ w.dst.length) :
    ∃ output, finish call w = .ok output ∧ Delivers [] output := by
  have total : w.totalLen = 1 := holds.totalLen
  have text := holds.text
  rw [total] at text
  have rooted : w.dst.take (pathOf []).length = pathOf [] := text
  obtain ⟨output, delivered, delivers⟩ := deliver_pathOf call rooted (two.trans fits)
    (by simp [Tidy]) (by simp) (by simp)
  refine ⟨output, ?_, delivers⟩
  simpa [finish, skip, total, pathOf] using delivered

variable (allocated : Vector UInt8 (entryNameLengthMax + 1))

/-- A call delivers what the walk leaves, or fails as the walk does. -/
theorem normalize_agrees
    (fits : call.maxOutSize ≤ dst.length) (room : path.chars.length + 2 ≤ call.maxOutSize)
    (unneeded : isParentDirectoryPathReplacementNeeded path = false)
    (accepts : Accepts call path) :
    Agree Delivers (walk call [] (components path.chars)) (normalize call dst allocated path) := by
  have separate : Separate [] := fun _ inside => absurd inside List.not_mem_nil
  have blank : Holds ⟨dst, 0, false⟩ dst.length (written []) := ⟨rfl, rfl, rfl⟩
  have goesOn := normalizeLoop_goesOn fits
  have unterminated := path.unterminated
  have ends {kept : List Component} {w : Writer}
      (walked : walk call [] (components path.chars) = .ok kept)
      (leaves : Leaves call dst.length kept w) : Agree Delivers (.ok kept) (finish call w) :=
    Leaves.finish_agrees fits room walked leaves
  unfold normalize
  simp only [replaced, unneeded, Bool.false_eq_true, if_false, ok_bind]
  by_cases rooted : path.chars.head? = some directorySeparator
  · -- The first separator is written when a component follows.
    obtain ⟨rest, split⟩ := List.head?_eq_some_iff.1 rooted
    have first : charAt path.chars 0 = directorySeparator := by rw [split]; rfl
    rw [if_neg (not_not.2 first)]
    have agree := (goesOn path.chars.length ⟨⟨blank⟩, by simp; omega⟩ separate unterminated
      (.inr ⟨rest, split⟩) (Nat.le_refl _)).agree (by simp [written]; omega)
    exact agree.bind_right fun _ _ walked leaves => ends walked leaves
  · have other : charAt path.chars 0 ≠ directorySeparator := by
      cases split : path.chars with
      | nil => exact (by decide : nullTerminator ≠ directorySeparator)
      | cons c rest => simpa [split, charAt] using rooted
    rw [if_pos other, if_pos (accepts.resolve_left rooted)]
    obtain ⟨w, put, holds, skip⟩ := blank.put directorySeparator (by simp [written]; omega)
    rw [put, ok_bind]
    cases split : path.chars with
    | nil =>
      rw [walk_nil, normalizeLoop, ok_bind]
      have size := holds.size
      rw [← size] at holds fits
      obtain ⟨output, finished, delivers⟩ := finish_root holds skip (by omega) fits
      rw [finished]
      exact .ok delivers
    | cons c rest =>
      rw [split] at other unterminated ends room
      rw [List.length_cons, normalizeLoop, normalizeRound, if_neg other]
      have component : AtComponent dst.length [] w := ⟨holds, skip⟩
      rw [List.length_cons] at room
      have onwards := (component.handleRest fits (goesOn rest.length) separate other unterminated
        (Nat.le_refl _) (by simp [written]; omega)).agree (by simp [written]; omega)
      exact onwards.bind_right fun _ _ walked leaves => ends walked leaves

/-! ## Parent references spelled with backslashes -/

/-- One of the two separators. -/
def IsSeparator (c : UInt8) : Prop := c = directorySeparator ∨ c = alternateDirectorySeparator

/-- Two dots between separators of either kind, or behind one at the end of the path, where a
separator is a backslash. -/
def SpellsParentWithBackslash (path : List UInt8) : Prop :=
  ∃ front c0 back, path = front ++ c0 :: dot :: dot :: back ∧ IsSeparator c0 ∧
    (∀ c3 ∈ back.head?, IsSeparator c3) ∧
    (c0 = alternateDirectorySeparator ∨ back.head? = some alternateDirectorySeparator)

theorem SpellsParentWithBackslash.cons {path : List UInt8}
    (spells : SpellsParentWithBackslash path) (c : UInt8) :
    SpellsParentWithBackslash (c :: path) := by
  obtain ⟨front, c0, back, rfl, facts⟩ := spells
  exact ⟨c :: front, c0, back, rfl, facts⟩

theorem spells_of_parentReferenceLoop {path : List UInt8} (unterminated : nullTerminator ∉ path)
    (found : parentReferenceLoop path = true) : SpellsParentWithBackslash path := by
  induction path using parentReferenceLoop.induct with
  | case1 c0 c1 c2 c3 rest noDots ih =>
    rw [parentReferenceLoop, if_pos noDots] at found
    exact (ih (fun inside => unterminated (List.mem_cons_of_mem _ inside)) found).cons c0
  | case2 c0 c1 c2 c3 rest dots backslash =>
    simp only [not_or, not_not] at dots
    obtain ⟨rfl, rfl⟩ := dots
    obtain ⟨first, last⟩ := backslash
    refine ⟨[], c0, c3 :: rest, rfl, .inr first, ?_, .inl first⟩
    rintro _ ⟨⟩
    rcases last with separator | alternate | terminator
    · exact .inl separator
    · exact .inr alternate
    · exact absurd (by simp [terminator]) unterminated
  | case3 c0 c1 c2 c3 rest dots _ backslash =>
    simp only [not_or, not_not] at dots
    obtain ⟨rfl, rfl⟩ := dots
    refine ⟨[], c0, c3 :: rest, rfl, backslash.2, ?_, .inr (by simp [backslash.1])⟩
    rintro _ ⟨⟩
    exact .inr backslash.1
  | case4 c0 c1 c2 c3 rest dots first last ih =>
    rw [parentReferenceLoop, if_neg dots, if_neg first, if_neg last] at found
    exact (ih (fun inside => unterminated (List.mem_cons_of_mem _ inside)) found).cons c0
  | case5 c0 c1 c2 =>
    obtain ⟨first, rfl, rfl⟩ : c0 = alternateDirectorySeparator ∧ c1 = dot ∧ c2 = dot := by
      simpa [parentReferenceLoop] using found
    exact ⟨[], c0, [], rfl, .inr first, by simp, .inl first⟩
  | case6 path long last =>
    rw [parentReferenceLoop] at found
    · cases found
    · exact long
    · exact last

theorem replacement_unneeded (spelled : ¬ SpellsParentWithBackslash path.chars) :
    isParentDirectoryPathReplacementNeeded path = false := by
  have searched : parentReferenceLoop path.chars = false :=
    Bool.eq_false_iff.2 fun found =>
      spelled (spells_of_parentReferenceLoop path.unterminated found)
  unfold isParentDirectoryPathReplacementNeeded
  split
  · rfl
  · next split =>
    rw [← split, searched, ite_self]

/-! ## Characters beyond the masks -/

/-- A component with a character beyond the masks is reached before the walk fails. -/
def ReachesBeyond (call : Call) (kept path : List Component) : Prop :=
  ∃ front component back, path = front ++ component :: back ∧
    (∃ c ∈ component, BeyondMasks call.toChecks c) ∧
    (front.foldlM (resolveNext call.isWindowsPath) kept).isSome = true

theorem reachesBeyond_cons {component : Component} {path : List Component} :
    ReachesBeyond call kept (component :: path) ↔ (∃ c ∈ component, BeyondMasks call.toChecks c) ∨
        ∃ next, resolveNext call.isWindowsPath kept component = some next ∧
          ReachesBeyond call next path := by
  constructor
  · rintro ⟨front, found, back, split, beyond, resolved⟩
    cases front with
    | nil =>
      obtain ⟨rfl, rfl⟩ := List.cons.inj split
      exact .inl beyond
    | cons first front =>
      obtain ⟨rfl, rfl⟩ := List.cons.inj split
      rw [List.foldlM_cons] at resolved
      cases here : resolveNext call.isWindowsPath kept component with
      | none => simp [here] at resolved
      | some next =>
        rw [here] at resolved
        exact .inr ⟨next, rfl, front, found, back, rfl, beyond, resolved⟩
  · rintro (beyond | ⟨next, here, front, found, back, rfl, beyond, resolved⟩)
    · exact ⟨[], component, path, rfl, beyond, rfl⟩
    · refine ⟨component :: front, found, back, rfl, beyond, ?_⟩
      rw [List.foldlM_cons, here]
      exact resolved

/-- No character of the path is refused. -/
def Clean (checks : Checks) (path : List Component) : Prop :=
  checks.allowAllCharacters = true ∨ ∀ component ∈ path, ∀ c ∈ component, c ∉ invalidCharacters

theorem walk_cons {call : Call} {kept : List Component} {component : Component}
    {path : List Component} (clean : Clean call.toChecks (component :: path)) :
    walk call kept (component :: path) =
      if ∃ c ∈ component, BeyondMasks call.toChecks c then .error .outOfBounds
      else match resolveNext call.isWindowsPath kept component with
        | none => .error (.thrown .directoryUnobtainable)
        | some next => walk call next path := by
  rw [walk, List.foldlM_cons, walkNext,
    checkComponent_eq (clean.imp_right fun clean => clean component List.mem_cons_self)]
  by_cases beyond : ∃ c ∈ component, BeyondMasks call.toChecks c
  · rw [if_pos beyond, if_pos beyond]
    rfl
  · rw [if_neg beyond, if_neg beyond]
    cases resolveNext call.isWindowsPath kept component <;> rfl

/-- The walk reads beyond the masks when it reaches such a character. -/
theorem walk_of_reachesBeyond {kept path : List Component}
    (clean : Clean call.toChecks path) (reaches : ReachesBeyond call kept path) :
    walk call kept path = .error .outOfBounds := by
  induction path generalizing kept with
  | nil =>
    obtain ⟨front, _, _, split, -⟩ := reaches
    cases front <;> cases split
  | cons component path ih =>
    rw [walk_cons clean]
    split
    · rfl
    · next inside =>
      obtain ⟨next, here, later⟩ := (reachesBeyond_cons.1 reaches).resolve_left inside
      rw [here]
      exact ih (clean.imp_right fun clean other member =>
        clean other (List.mem_cons_of_mem _ member)) later

/-- Otherwise it resolves the components. -/
theorem walk_of_not_reachesBeyond {call : Call} {kept path : List Component}
    (clean : Clean call.toChecks path) (inside : ¬ ReachesBeyond call kept path) :
    walk call kept path =
      match path.foldlM (resolveNext call.isWindowsPath) kept with
      | none => .error (.thrown .directoryUnobtainable)
      | some left => .ok left := by
  induction path generalizing kept with
  | nil => rfl
  | cons component path ih =>
    rw [reachesBeyond_cons, not_or] at inside
    rw [walk_cons clean, if_neg inside.1, List.foldlM_cons]
    cases here : resolveNext call.isWindowsPath kept component with
    | none => rfl
    | some next =>
      exact ih (clean.imp_right fun clean other member =>
        clean other (List.mem_cons_of_mem _ member)) fun later => inside.2 ⟨next, here, later⟩

/-! ## The exact condition -/

/-- What the calls for a path are meant to do. No fault but a thrown result may occur. -/
structure ComputesCanonicalForm (call : Call) (dst : List UInt8)
    (allocated : Vector UInt8 (entryNameLengthMax + 1)) (path : CString) : Prop where
  succeeds : (∃ output, normalize call dst allocated path = .ok output) ↔
    Accepts call path ∧
      (call.isWindowsPath = false → ¬ ClimbsAboveRoot [] (components path.chars))
  output {output : Output} : normalize call dst allocated path = .ok output →
    canonicalForm call.isWindowsPath path.chars = some (output.dst.take output.outLen) ∧
      output.outLen ≤ output.dst.length ∧ output.dst[output.outLen]? = some nullTerminator
  throws {fault : Fault} : normalize call dst allocated path = .error fault →
    ∃ result, fault = .thrown result
  judges : (∃ verdict, isNormalized call.toChecks path = .ok verdict ∧ verdict.out = true) ↔
    canonicalForm call.isWindowsPath path.chars = some path.chars
  judgesThrow {fault : Fault} : isNormalized call.toChecks path = .error fault →
    ∃ result, fault = .thrown result

/-- A component with a character beyond the masks is reached. -/
def ReadsBeyondMasks (call : Call) (path : CString) : Prop :=
  Accepts call path ∧ ReachesBeyond call [] (components path.chars)

/-- What the caller of both functions guarantees. -/
structure Admitted (call : Call) (dst : List UInt8) (path : CString) : Prop where
  fits : call.maxOutSize ≤ dst.length
  room : path.chars.length + 2 ≤ call.maxOutSize
  valid : call.allowAllCharacters = true ∨ ∀ c ∈ path.chars, c ∉ invalidCharacters
  spelled : ¬ SpellsParentWithBackslash path.chars

theorem Admitted.clean
    (admitted : Admitted call dst path) : Clean call.toChecks (components path.chars) :=
  admitted.valid.imp_right fun valid _ member c inside =>
    valid c ((of_mem_components member).2 inside)

theorem walk_of_not_reads {call : Call} {dst : List UInt8} {path : CString}
    (admitted : Admitted call dst path) (inside : ¬ ReadsBeyondMasks call path)
    (accepts : Accepts call path) :
    walk call [] (components path.chars) =
      match resolve call.isWindowsPath (components path.chars) with
      | none => .error (.thrown .directoryUnobtainable)
      | some left => .ok left :=
  walk_of_not_reachesBeyond admitted.clean fun reaches => inside ⟨accepts, reaches⟩

theorem isCanonical_separator_iff {rest : List UInt8} :
    IsCanonical (directorySeparator :: rest) ↔
      rest = [] ∨ ∀ component ∈ components rest, IsName component :=
  ⟨fun ⟨_, split, facts⟩ => (List.cons.inj split).2 ▸ facts, fun facts => ⟨rest, rfl, facts⟩⟩

theorem components_eq_empty_iff {path : List UInt8} : components path = [[]] ↔ path = [] := by
  constructor
  · intro only
    have joined : [directorySeparator].intercalate (components path) = path :=
      List.intercalate_splitOn directorySeparator
    rw [← joined, only]
    rfl
  · rintro rfl
    exact components_single List.not_mem_nil

/-- A path without a separator at its beginning is no path to the automaton. -/
theorem isNormalized_refused {checks : Checks}
    (other : path.chars.head? ≠ some directorySeparator) :
    isNormalized checks path = .error (.thrown .invalidPathFormat) := by
  unfold isNormalized
  cases split : path.chars with
  | nil => rfl
  | cons c rest =>
    have differs : c ≠ directorySeparator := by simpa [split] using other
    simp [isNormalizedLoop, nextState, differs]

/-- The automaton fails only where the walk does, and otherwise tells canonical paths. -/
theorem judges_of_not_reads
    (admitted : Admitted call dst path) (inside : ¬ ReadsBeyondMasks call path) :
    ((∃ verdict, isNormalized call.toChecks path = .ok verdict ∧ verdict.out = true) ↔
      canonicalForm call.isWindowsPath path.chars = some path.chars) ∧
    ∀ fault, isNormalized call.toChecks path = .error fault → ∃ result, fault = .thrown result := by
  rw [canonicalForm_eq_self_iff]
  by_cases rooted : path.chars.head? = some directorySeparator
  · obtain ⟨rest, split⟩ := List.head?_eq_some_iff.1 rooted
    have agree := isNormalized_scan call.toChecks split
    have walked := walk_of_not_reads admitted inside (.inl rooted)
    constructor
    · have accepted {good} (scanned : scan call.toChecks true (components rest) = .ok good) :
          good = true ↔ IsCanonical path.chars := by
        rw [scan_eq_ok (components_ne_nil rest) scanned, split, isCanonical_separator_iff,
          components_eq_empty_iff, and_iff_left rfl]
      constructor
      · rintro ⟨verdict, judged, out⟩
        obtain ⟨good, scanned, same, -⟩ := agree.of_right_ok judged
        exact (accepted scanned).1 (same ▸ out)
      · intro canonical
        cases scanned : scan call.toChecks true (components rest) with
        | ok good =>
          obtain ⟨verdict, judged, same, -⟩ := agree.of_left_ok scanned
          exact ⟨verdict, judged, same.trans ((accepted scanned).2 canonical)⟩
        | error fault =>
          -- The walk does not fail on a canonical path, and the scan no earlier than it.
          obtain ⟨left, resolved, -⟩ :=
            Option.map_eq_some_iff.1 (canonical.canonicalForm call.isWindowsPath)
          rw [resolved, split, walk_separator, walk_of_scan_error scanned] at walked
          cases walked
    · intro fault failed
      have failed := walk_of_scan_error (agree.eq_error_iff.2 failed) []
      rw [split, walk_separator, failed] at walked
      split at walked
      · exact ⟨_, Except.error.inj walked⟩
      · cases walked
  · rw [isNormalized_refused rooted]
    refine ⟨iff_of_false ?_ ?_, fun fault failed => ⟨_, (Except.error.inj failed).symm⟩⟩
    · rintro ⟨verdict, judged, -⟩
      cases judged
    · rintro ⟨rest, split, -⟩
      exact rooted (by rw [split]; rfl)

theorem normalize_refused (dst : List UInt8) (allocated : Vector UInt8 (entryNameLengthMax + 1))
    (refused : ¬ Accepts call path) :
    normalize call dst allocated path = .error (.thrown .invalidPathFormat) := by
  obtain ⟨notRooted, notRelative⟩ := not_or.1 refused
  have other : charAt path.chars 0 ≠ directorySeparator := by
    cases split : path.chars with
    | nil => exact (by decide : nullTerminator ≠ directorySeparator)
    | cons c rest => simpa [split, charAt] using notRooted
  rw [normalize, if_pos other, if_neg notRelative]
  rfl

/-- An accepted path is resolved, or refused at a `..` at its root. -/
theorem normalize_of_not_reads
    (admitted : Admitted call dst path) (inside : ¬ ReadsBeyondMasks call path)
    (accepts : Accepts call path) :
    (resolve call.isWindowsPath (components path.chars) = none ∧
        normalize call dst allocated path = .error (.thrown .directoryUnobtainable)) ∨
      ∃ left output, resolve call.isWindowsPath (components path.chars) = some left ∧
        normalize call dst allocated path = .ok output ∧ Delivers left output := by
  have agree := normalize_agrees allocated admitted.fits admitted.room
    (replacement_unneeded admitted.spelled) accepts
  rw [walk_of_not_reads admitted inside accepts] at agree
  cases resolved : resolve call.isWindowsPath (components path.chars) with
  | none =>
    rw [resolved] at agree
    exact .inl ⟨rfl, agree.eq_error_iff.1 rfl⟩
  | some left =>
    rw [resolved] at agree
    obtain ⟨output, done, delivers⟩ := agree.of_left_ok rfl
    exact .inr ⟨left, output, rfl, done, delivers⟩

/-- The calls compute the canonical form unless a character beyond the masks is reached. -/
theorem computesCanonicalForm_iff (admitted : Admitted call dst path) :
    ComputesCanonicalForm call dst allocated path ↔ ¬ ReadsBeyondMasks call path := by
  constructor
  · rintro computes ⟨accepts, reaches⟩
    have agree := normalize_agrees allocated admitted.fits admitted.room
      (replacement_unneeded admitted.spelled) accepts
    have failed := agree.eq_error_iff.1 (walk_of_reachesBeyond admitted.clean reaches)
    obtain ⟨result, thrown⟩ := computes.throws failed
    cases thrown
  · intro inside
    obtain ⟨judges, judgesThrow⟩ := judges_of_not_reads admitted inside
    by_cases accepts : Accepts call path
    · rcases normalize_of_not_reads allocated admitted inside accepts with
        ⟨stuck, failed⟩ | ⟨left, output, resolved, done, delivers⟩
      · obtain ⟨notWindows, climbs⟩ := foldlM_eq_none_iff.1 stuck
        refine ⟨iff_of_false ?_ ?_, ?_, ?_, judges, judgesThrow _⟩
        · rintro ⟨output, done⟩
          cases failed.symm.trans done
        · exact fun ⟨_, stays⟩ => stays notWindows climbs
        · intro output done
          cases failed.symm.trans done
        · intro fault other
          exact ⟨_, Except.error.inj (other.symm.trans failed)⟩
      · refine ⟨iff_of_true ⟨output, done⟩ ⟨accepts, fun notWindows climbs => ?_⟩, ?_, ?_, judges,
          judgesThrow _⟩
        · cases resolved.symm.trans (foldlM_eq_none_iff.2 ⟨notWindows, climbs⟩)
        · intro other done'
          obtain rfl := Except.ok.inj (done.symm.trans done')
          have shorter : output.outLen ≤ output.dst.length := by
            have ended := congrArg List.length delivers.text
            rw [List.length_take, ← delivers.outLen] at ended
            omega
          exact ⟨by rw [canonicalForm, resolved, delivers.text]; rfl, shorter,
            delivers.terminated⟩
        · intro fault failed
          cases done.symm.trans failed
    · have failed := normalize_refused dst allocated accepts
      refine ⟨iff_of_false ?_ (fun answers => accepts answers.1), ?_, ?_, judges, judgesThrow _⟩
      · rintro ⟨output, done⟩
        cases failed.symm.trans done
      · intro output done
        cases failed.symm.trans done
      · intro fault other
        exact ⟨_, Except.error.inj (other.symm.trans failed)⟩

/-! ## Paths of ASCII characters -/

theorem not_spells_of_not_mem {path : List UInt8} (none : alternateDirectorySeparator ∉ path) :
    ¬ SpellsParentWithBackslash path := by
  rintro ⟨front, c0, back, rfl, -, -, rfl | last⟩
  · exact none (by simp)
  · obtain ⟨more, rfl⟩ := List.head?_eq_some_iff.1 last
    exact none (by simp)

/-- No target reads beyond the masks for a path of ASCII characters. -/
theorem not_reads_of_ascii (ascii : ∀ c ∈ path.chars, c < 128) :
    ¬ ReadsBeyondMasks call path := by
  rintro ⟨-, front, component, back, split, ⟨c, inside, beyond⟩, -⟩
  have member : component ∈ components path.chars := by simp [split]
  exact absurd beyond.2.2 (UInt8.not_le.2 (ascii c ((of_mem_components member).2 inside)))

/-- The path `/a//../b/.` on a target with a signed `char`. -/
theorem computesCanonicalForm_signed :
    ComputesCanonicalForm ⟨⟨true, false⟩, 12, false, false⟩ (List.replicate 12 0xCC)
      (Vector.replicate _ 0xCC) ⟨[47, 97, 47, 47, 46, 46, 47, 98, 47, 46], by decide⟩ :=
  (computesCanonicalForm_iff _
    ⟨by decide, by decide, .inr (by decide +kernel), not_spells_of_not_mem (by decide +kernel)⟩).2
    (not_reads_of_ascii (by decide +kernel))

/-- The path of one component, which is an accented letter in UTF-8. -/
def accentedPath : CString where
  chars := [47, 0xC3, 0xA9]
  unterminated := by decide +kernel

/-- It is not normalised on such a target. -/
theorem computesCanonicalForm_fails :
    Admitted ⟨⟨true, false⟩, 5, false, false⟩ (List.replicate 5 0) accentedPath ∧
      normalize ⟨⟨true, false⟩, 5, false, false⟩ (List.replicate 5 0) (Vector.replicate _ 0)
        accentedPath = .error .outOfBounds ∧
      ¬ ComputesCanonicalForm ⟨⟨true, false⟩, 5, false, false⟩ (List.replicate 5 0)
        (Vector.replicate _ 0) accentedPath := by
  have failed : normalize ⟨⟨true, false⟩, 5, false, false⟩ (List.replicate 5 0)
      (Vector.replicate _ 0) accentedPath = .error .outOfBounds := by
    decide +kernel
  have noBackslash : alternateDirectorySeparator ∉ accentedPath.chars := by decide +kernel
  have valid : ∀ c ∈ accentedPath.chars, c ∉ invalidCharacters := by decide +kernel
  refine ⟨⟨by decide, by decide, .inr valid, not_spells_of_not_mem noBackslash⟩, failed,
    fun computes => ?_⟩
  obtain ⟨result, thrown⟩ := computes.throws failed
  cases thrown

end SumiEmu.FileSys.PathNormalizer
