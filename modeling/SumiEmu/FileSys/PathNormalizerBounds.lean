/-
# When normalising stays in its buffers

The loop leaves room for the end of the path once there is some, and reports the paths that it
cannot write as a whole. There is none when the buffer has one byte and a separator is written to it
that no one has asked room for. The buffer for a replacement is not looked at either.
-/

import SumiEmu.FileSys.PathNormalizerReplacement

namespace SumiEmu.FileSys.PathNormalizer

open Fallible

/-! ## Results without a fault -/

/-- Nothing is written or read beyond a buffer. -/
def InBuffers {α : Type} (result : Except Fault α) : Prop := result ≠ .error .outOfBuffer

section InBuffers

variable {α β : Type}

theorem inBuffers_ok (a : α) : InBuffers (.ok a : Except Fault α) := by
  rintro ⟨⟩

theorem InBuffers.bind {x : Except Fault α} {f : α → Except Fault β} (first : InBuffers x)
    (second : ∀ a, x = .ok a → InBuffers (f a)) : InBuffers (x >>= f) := by
  cases x with
  | ok a => exact second a rfl
  | error fault =>
    rintro same
    exact first (congrArg Except.error (Except.error.inj same))

theorem Reported.inBuffers {result : Except Fault α} (reported : Reported result) :
    InBuffers result := by
  obtain ⟨dst, outLen, rfl, -⟩ := reported
  rintro ⟨⟩

theorem inBuffers_checkCharacter (checks : Checks) (c : UInt8) :
    InBuffers (checkCharacter checks c) := by
  rw [checkCharacter]
  split
  · exact inBuffers_ok _
  · refine InBuffers.bind ?_ fun invalid _ => ?_
    · simp only [isInvalidCharacter]
      split <;> rintro ⟨⟩
    · split <;> rintro ⟨⟩

theorem inBuffers_checkComponent (checks : Checks) (component : Component) :
    InBuffers (checkComponent checks component) := by
  induction component with
  | nil => exact inBuffers_ok _
  | cons c component ih =>
    rw [checkComponent_cons]
    exact (inBuffers_checkCharacter checks c).bind fun _ _ => ih

theorem inBuffers_walk (call : Call) (kept path : List Component) :
    InBuffers (walk call kept path) := by
  induction path generalizing kept with
  | nil => exact inBuffers_ok _
  | cons component path ih =>
    rw [walk, List.foldlM_cons]
    refine InBuffers.bind ?_ fun next _ => ih next
    refine (inBuffers_checkComponent call.toChecks component).bind fun _ _ => ?_
    split <;> rintro ⟨⟩

theorem inBuffers_nextState (c : UInt8) (state : PathState) : InBuffers (nextState c state) := by
  cases state with
  | start =>
    rw [nextState]
    split <;> rintro ⟨⟩
  | _ => rintro ⟨⟩

theorem inBuffers_isNormalizedLoop (checks : Checks) (state : PathState) (len : Nat)
    (path : List UInt8) : InBuffers (isNormalizedLoop checks state len path) := by
  induction path generalizing state len with
  | nil => cases state <;> rintro ⟨⟩
  | cons c rest ih =>
    rw [isNormalizedLoop]
    split
    on_goal 1 => refine (inBuffers_checkCharacter checks c).bind fun _ _ => ?_
    all_goals
      refine (inBuffers_nextState c state).bind fun answer _ => ?_
      cases answer with
      | none => exact inBuffers_ok _
      | some next => exact ih next (len + 1)

theorem inBuffers_deliver (call : Call) {dst : List UInt8} {totalLen : Nat}
    (inside : totalLen < dst.length) : InBuffers (deliver call dst totalLen) := by
  rw [deliver, store, if_pos inside, ok_bind]
  refine (inBuffers_isNormalizedLoop call.toChecks .start 0 _).bind fun verdict _ => ?_
  rw [assertThat]
  split <;> rintro ⟨⟩

end InBuffers

/-! ## What is to hold -/

/-- A path, as it is gone through, whose characters may be read and whose canonical form is longer
than the buffer. -/
structure DoesNotFit (call : Call) (path : CString) : Prop where
  readable : ∀ c ∈ path.chars, checkCharacter call.toChecks c = .ok ()
  long : ∃ form, canonicalForm call.isWindowsPath path.chars = some form ∧
    call.maxOutSize < form.length + 1

/-- Nothing goes beyond the buffers, and a path that does not fit is reported. -/
structure StaysInBuffers (call : Call) (dst : List UInt8)
    (allocated : Vector UInt8 (entryNameLengthMax + 1))
    (path : CString) : Prop where
  inBuffers : InBuffers (normalize call dst allocated path)
  reports (other : CString) : Accepts call path → replaced path allocated = .ok other →
    DoesNotFit call other → Reported (normalize call dst allocated path)

/-- What begins at the end of a buffer of one byte, which holds a separator, goes beyond it. -/
def FillsUp (call : Call) : List Component → Prop
  | [] => True
  | component :: path =>
    if component = [] ∨ component = currentDirectory then FillsUp call path
    else checkComponent call.toChecks component = .ok () ∧
      (component = parentDirectory → call.isWindowsPath = true ∧ ∀ later ∈ path, later = [])

/-- The path is accepted, and too long for the buffer of a replacement that it needs, or the buffer
has one byte and is full before room is asked for. -/
def Overruns (call : Call) (path : CString) : Prop :=
  Accepts call path ∧
    (isParentDirectoryPathReplacementNeeded path = true ∧ entryNameLengthMax < path.chars.length ∨
      call.maxOutSize = 1 ∧
        if path.chars.head? = some directorySeparator then ∀ c ∈ path.chars, c = directorySeparator
        else isParentDirectoryPathReplacementNeeded path = true ∨
          FillsUp call (components path.chars))

/-! ## With room for a separator -/

section Room

variable {call : Call} {size : Nat} {kept : List Component} {w : Writer}

theorem Leaves.inBuffers_finish (leaves : Leaves call size kept w) (fits : call.maxOutSize ≤ size)
    (two : 2 ≤ call.maxOutSize) : InBuffers (PathNormalizer.finish call w) := by
  have total := leaves.boundary.holds.totalLen
  have room := leaves.room
  have length := leaves.boundary.holds.size
  have stands : ¬ (w.skipNextSep = true ∧ w.totalLen = 0) := by
    rintro ⟨skip, none⟩
    simp [total, skip] at none
  rw [PathNormalizer.finish, if_neg stands]
  dsimp only
  have bound : (if w.skipNextSep then w.totalLen - 1 else w.totalLen) < call.maxOutSize := by
    split <;> omega
  generalize (if w.skipNextSep then w.totalLen - 1 else w.totalLen) = totalLen at bound
  by_cases empty : totalLen = 0 ∧ call.maxOutSize ≠ 0
  · rw [if_pos empty, store, if_pos (by omega), ok_bind, ok_bind]
    dsimp only
    split
    · rintro ⟨⟩
    · exact inBuffers_deliver call (by rw [List.length_set]; omega)
  · rw [if_neg empty, ok_bind]
    dsimp only
    split
    · rintro ⟨⟩
    · exact inBuffers_deliver call (by omega)

/-- The walk of a path whose characters may be read. -/
theorem walk_of_readable {path left : List Component}
    (readable : ∀ component ∈ path, checkComponent call.toChecks component = .ok ())
    (resolved : path.foldlM (resolveNext call.isWindowsPath) kept = some left) :
    walk call kept path = .ok left := by
  induction path generalizing kept with
  | nil => exact congrArg Except.ok (Option.some.inj resolved)
  | cons component path ih =>
    rw [List.foldlM_cons] at resolved
    obtain ⟨next, here, later⟩ := Option.bind_eq_some_iff.1 resolved
    rw [walk, List.foldlM_cons, walkNext, readable component List.mem_cons_self, ok_bind, here]
    exact ih (fun other member => readable other (List.mem_cons_of_mem _ member)) later

theorem checkComponent_of_readable {checks : Checks} {component : Component}
    (readable : ∀ c ∈ component, checkCharacter checks c = .ok ()) :
    checkComponent checks component = .ok () := by
  induction component with
  | nil => rfl
  | cons c component ih =>
    rw [checkComponent_cons, readable c List.mem_cons_self, ok_bind]
    exact ih fun d member => readable d (List.mem_cons_of_mem c member)

theorem DoesNotFit.checked {path : CString} (long : DoesNotFit call path) {component : Component}
    (member : component ∈ components path.chars) :
    checkComponent call.toChecks component = .ok () :=
  checkComponent_of_readable fun c inside => long.readable c ((of_mem_components member).2 inside)

/-- A separator at the front stays there or is removed, and what is behind it is resolved alike. -/
theorem foldlM_leading {isWindowsPath : Bool} {path left : List Component}
    (resolved : path.foldlM (resolveNext isWindowsPath) kept = some left) :
    ∃ left', path.foldlM (resolveNext isWindowsPath) ([] :: kept) = some left' ∧
      (left' = left ∨ left' = [] :: left) := by
  induction path generalizing kept with
  | nil =>
    obtain rfl := Option.some.inj resolved
    exact ⟨[] :: kept, rfl, .inr rfl⟩
  | cons component path ih =>
    rw [List.foldlM_cons] at resolved ⊢
    obtain ⟨next, here, later⟩ := Option.bind_eq_some_iff.1 resolved
    have alike : resolveNext isWindowsPath ([] :: kept) component = some ([] :: next) ∨
        resolveNext isWindowsPath ([] :: kept) component = some next := by
      rw [resolveNext] at here ⊢
      split at here
      · next skipped =>
        rw [if_pos skipped, Option.some.inj here]
        exact .inl rfl
      · next other =>
        rw [if_neg other]
        split at here
        · next parent =>
          rw [if_pos parent, if_neg (List.cons_ne_nil _ _)]
          split at here
          · next root =>
            rw [root]
            split at here
            · exact .inr here
            · cases here
          · next more =>
            rw [List.dropLast_cons_of_ne_nil more, ← Option.some.inj here]
            exact .inl rfl
        · next name =>
          rw [if_neg name, ← Option.some.inj here]
          exact .inl rfl
    obtain stays | removed := alike
    · rw [stays]
      exact ih later
    · rw [removed]
      exact ⟨left, later, .inl rfl⟩

theorem length_pathOf_le (left : List Component) :
    (pathOf left).length ≤ max 1 (written left).length := by
  rcases eq_or_ne left [] with rfl | some
  · exact Nat.le_max_left ..
  · rw [pathOf_eq_written some]
    exact Nat.le_max_right ..

theorem separate_leading (leading : kept = [] ∨ kept = [[]]) : Separate kept := by
  rintro component member
  rcases leading with rfl | rfl
  · cases member
  · exact List.mem_singleton.1 member ▸ List.not_mem_nil

/-- Where the loop starts: between components or at one, with what is written already. -/
inductive Starts (call : Call) (size : Nat) (w : Writer) (path : List UInt8)
    (kept : List Component) : Prop
  | between : Between call size kept w → (path = [] ∨ ∃ more, path = directorySeparator :: more) →
      Starts call size w path kept
  | component {c : UInt8} {rest : List UInt8} : AtComponent size kept w →
      (written kept).length + 1 < call.maxOutSize → path = c :: rest → c ≠ directorySeparator →
      Starts call size w path kept

theorem Starts.agreeOrCut {path : List UInt8} (starts : Starts call size w path kept)
    (fits : call.maxOutSize ≤ size) (separate : Separate kept)
    (unterminated : nullTerminator ∉ path) :
    ∃ needed, AgreeOrCut call needed (Leaves call size) (walk call kept (components path))
      (normalizeLoop call path.length path w) := by
  cases starts with
  | between before separated =>
    exact ⟨_, normalizeLoop_goesOn fits path.length before separate unterminated separated
      (Nat.le_refl _)⟩
  | @component c rest before room split other =>
    subst split
    rw [List.length_cons, normalizeLoop, normalizeRound,
      if_neg (show ¬ charAt (c :: rest) 0 = directorySeparator from other)]
    exact ⟨_, before.handleRest fits (normalizeLoop_goesOn fits rest.length) separate other
      unterminated (Nat.le_refl _) room⟩

/-- The loop and what follows stay in the buffer. -/
theorem Starts.inBuffers {path : List UInt8} (starts : Starts call size w path kept)
    (fits : call.maxOutSize ≤ size) (two : 2 ≤ call.maxOutSize) (separate : Separate kept)
    (unterminated : nullTerminator ∉ path) :
    InBuffers (normalizeLoop call path.length path w >>= finish call) := by
  obtain ⟨needed, cut | agree⟩ := starts.agreeOrCut fits separate unterminated
  · exact (cut.2.bind _).inBuffers
  · have walked := inBuffers_walk call kept (components path)
    generalize walk call kept (components path) = answer at agree walked
    generalize normalizeLoop call path.length path w = result at agree
    cases agree with
    | ok leaves => exact leaves.inBuffers_finish fits two
    | error fault => exact fun same => walked (congrArg Except.error (Except.error.inj same))

/-- A path that does not fit is reported. -/
theorem Starts.reports {path : CString} (starts : Starts call size w path.chars kept)
    (fits : call.maxOutSize ≤ size) (two : 2 ≤ call.maxOutSize) (leading : kept = [] ∨ kept = [[]])
    (long : DoesNotFit call path) :
    Reported (normalizeLoop call path.chars.length path.chars w >>= finish call) := by
  obtain ⟨needed, cut | agree⟩ :=
    starts.agreeOrCut fits (separate_leading leading) path.unterminated
  · exact cut.2.bind _
  · exfalso
    obtain ⟨form, formed, tooLong⟩ := long.long
    obtain ⟨left, resolved, rfl⟩ := Option.map_eq_some_iff.1 formed
    obtain ⟨left', resolved', alike⟩ : ∃ left', (components path.chars).foldlM
        (resolveNext call.isWindowsPath) kept = some left' ∧
          (left' = left ∨ left' = [] :: left) := by
      rcases leading with rfl | rfl
      · exact ⟨left, resolved, .inl rfl⟩
      · exact foldlM_leading resolved
    rw [walk_of_readable (fun _ => long.checked) resolved'] at agree
    obtain ⟨w', -, leaves⟩ := agree.of_left_ok rfl
    have total := leaves.boundary.holds.totalLen
    have room := leaves.room
    have shorter : (written left).length ≤ (written left').length := by
      rcases alike with rfl | rfl
      · exact Nat.le_refl _
      · exact Nat.le_succ _
    have bound := length_pathOf_le left
    rw [List.length_append] at total
    omega

end Room

/-! ## The start of a call -/

section Start

variable {call : Call} {dst : List UInt8} {allocated : Vector UInt8 (entryNameLengthMax + 1)}
    {path : CString}

theorem charAt_zero_iff {path : List UInt8} :
    charAt path 0 = directorySeparator ↔ path.head? = some directorySeparator := by
  cases path with
  | nil => exact iff_of_false (by decide) (by simp)
  | cons c rest => simp [charAt]

/-- What is gone through is a replacement that fits, or the path itself. -/
theorem replaced_cases (path : CString) (allocated : Vector UInt8 (entryNameLengthMax + 1)) :
    (isParentDirectoryPathReplacementNeeded path = true ∧ entryNameLengthMax < path.chars.length ∧
      replaced path allocated = .error .outOfBuffer) ∨
    (¬ (isParentDirectoryPathReplacementNeeded path = true ∧
      entryNameLengthMax < path.chars.length) ∧ ∃ other, replaced path allocated = .ok other ∧
        (isParentDirectoryPathReplacementNeeded path = true ∧ Respelling path other ∨
          isParentDirectoryPathReplacementNeeded path = false ∧ other = path)) := by
  cases needed : isParentDirectoryPathReplacementNeeded path with
  | true =>
    obtain ⟨short, other, isOk, respelling⟩ | ⟨long, failed⟩ := replaced_of_needed allocated needed
    · exact .inr ⟨fun both => both.2.not_ge short, other, isOk, .inl ⟨rfl, respelling⟩⟩
    · exact .inl ⟨rfl, long, failed⟩
  | false => exact .inr ⟨fun both => Bool.false_ne_true both.1,
      path, by simp [replaced, needed], .inr ⟨rfl, rfl⟩⟩

theorem normalize_rooted (rooted : path.chars.head? = some directorySeparator) :
    normalize call dst allocated path = replaced path allocated >>= fun other =>
      normalizeLoop call other.chars.length other.chars ⟨dst, 0, false⟩ >>= finish call := by
  rw [normalize, if_neg (not_not.2 (charAt_zero_iff.2 rooted))]
  rfl

theorem normalize_relative (notRooted : path.chars.head? ≠ some directorySeparator)
    (relative : call.isDriveRelativePath = true) (inside : 0 < dst.length) :
    normalize call dst allocated path = replaced path allocated >>= fun other =>
      normalizeLoop call other.chars.length other.chars ⟨dst.set 0 directorySeparator, 1, false⟩ >>=
        finish call := by
  rw [normalize, if_pos (mt charAt_zero_iff.1 notRooted), if_pos relative, Writer.put, store,
    if_pos inside]
  rfl

theorem holds_leading (inside : 0 < dst.length) :
    Holds ⟨dst.set 0 directorySeparator, 1, false⟩ dst.length [directorySeparator] := by
  obtain ⟨c, rest, rfl⟩ := List.exists_cons_of_length_pos inside
  exact ⟨rfl, rfl, rfl⟩

/-- With room for a separator the loop starts at its place. -/
theorem exists_starts (accepts : Accepts call path) (two : 2 ≤ call.maxOutSize)
    (fits : call.maxOutSize ≤ dst.length) {other : CString}
    (isReplaced : replaced path allocated = .ok other)
    (spelled : isParentDirectoryPathReplacementNeeded path = true ∧ Respelling path other ∨
      isParentDirectoryPathReplacementNeeded path = false ∧ other = path) :
    ∃ w kept, (kept = [] ∨ kept = [[]]) ∧ Starts call dst.length w other.chars kept ∧
      normalize call dst allocated path = normalizeLoop call other.chars.length other.chars w >>=
      finish call := by
  have leading : Holds ⟨dst.set 0 directorySeparator, 1, false⟩ dst.length [directorySeparator] :=
    holds_leading (by omega)
  have rooted_other (rooted : path.chars.head? = some directorySeparator ∨
      isParentDirectoryPathReplacementNeeded path = true) :
      ∃ more, other.chars = directorySeparator :: more := by
    apply List.head?_eq_some_iff.1
    obtain ⟨-, respelling⟩ | ⟨unneeded, rfl⟩ := spelled
    · exact charAt_zero_iff.1 respelling.rooted
    · exact rooted.resolve_right fun needed => Bool.false_ne_true (unneeded.symm.trans needed)
  by_cases rooted : path.chars.head? = some directorySeparator
  · refine ⟨⟨dst, 0, false⟩, [], .inl rfl, .between ⟨⟨⟨rfl, rfl, rfl⟩⟩, by simp; omega⟩
      (.inr (rooted_other (.inl rooted))), ?_⟩
    rw [normalize_rooted rooted, isReplaced]
    rfl
  · refine ⟨⟨dst.set 0 directorySeparator, 1, false⟩, ?_⟩
    have unfolded : normalize call dst allocated path =
      normalizeLoop call other.chars.length other.chars ⟨dst.set 0 directorySeparator, 1, false⟩ >>=
      finish call := by
      rw [normalize_relative rooted (accepts.resolve_left rooted) (by omega), isReplaced]
      rfl
    by_cases begins : other.chars = [] ∨ ∃ more, other.chars = directorySeparator :: more
    · exact ⟨[[]], .inr rfl, .between ⟨⟨leading⟩, two⟩ begins, unfolded⟩
    · obtain ⟨notEmpty, notRooted⟩ := not_or.1 begins
      obtain ⟨c, rest, split⟩ := List.exists_cons_of_ne_nil notEmpty
      refine ⟨[], .inl rfl, .component ⟨leading, rfl⟩ two split ?_, unfolded⟩
      rintro rfl
      exact notRooted ⟨rest, split⟩

/-- With room for a separator nothing but a long replacement goes beyond a buffer. -/
theorem staysInBuffers_of_two (two : 2 ≤ call.maxOutSize) (fits : call.maxOutSize ≤ dst.length)
    (short : ¬ (Accepts call path ∧ isParentDirectoryPathReplacementNeeded path = true ∧
      entryNameLengthMax < path.chars.length)) :
    StaysInBuffers call dst allocated path := by
  by_cases accepts : Accepts call path
  · obtain ⟨needed, long, -⟩ | ⟨-, other, isReplaced, spelled⟩ := replaced_cases path allocated
    · exact absurd ⟨accepts, needed, long⟩ short
    · obtain ⟨w, kept, leading, starts, unfolded⟩ :=
        exists_starts accepts two fits isReplaced spelled
      constructor
      · rw [unfolded]
        exact starts.inBuffers fits two (separate_leading leading) other.unterminated
      · intro other' _ isReplaced' long
        obtain rfl := Except.ok.inj (isReplaced.symm.trans isReplaced')
        rw [unfolded]
        exact starts.reports fits two leading long
  · refine ⟨?_, fun _ isAccepted => absurd isAccepted accepts⟩
    rw [normalize_refused dst allocated accepts]
    rintro ⟨⟩

end Start

/-! ## A buffer of one byte -/

section One

variable {call : Call} {dst : List UInt8}

theorem finish_blank (one : call.maxOutSize = 1) (size : dst.length = 1) :
    finish call ⟨dst, 0, false⟩ = .error .outOfBuffer := by
  simp [finish, deliver, store, one, size]

theorem finish_full (one : call.maxOutSize = 1) (size : dst.length = 1) (skip : Bool) :
    finish call ⟨dst, 1, skip⟩ = .error .outOfBuffer := by
  cases skip <;> simp [finish, deliver, store, one, size]

variable {path : List UInt8}

/-- With nothing written, the first component is reported. -/
theorem normalizeLoop_blank (one : call.maxOutSize = 1) (size : dst.length = 1)
    (separated : path = [] ∨ ∃ more, path = directorySeparator :: more) {fuel : Nat}
    (enough : path.length ≤ fuel) :
    ((∀ c ∈ path, c = directorySeparator) ∧
      normalizeLoop call fuel path ⟨dst, 0, false⟩ = .ok ⟨dst, 0, false⟩) ∨
    ((∃ c ∈ path, c ≠ directorySeparator) ∧
      Reported (normalizeLoop call fuel path ⟨dst, 0, false⟩)) := by
  rcases separated with rfl | ⟨more, rfl⟩
  · refine .inl ⟨fun c member => absurd member List.not_mem_nil, ?_⟩
    cases fuel <;> rfl
  · obtain ⟨fuel, rfl⟩ : ∃ n, fuel = n + 1 := Nat.exists_eq_succ_of_ne_zero (by
      rw [List.length_cons] at enough
      omega)
    rw [normalizeLoop, normalizeRound,
      if_pos (by rfl : charAt (directorySeparator :: more) 0 = directorySeparator)]
    cases after : (directorySeparator :: more).dropWhile (· = directorySeparator) with
    | nil =>
      refine .inl ⟨fun c member => by simpa using List.dropWhile_eq_nil_iff.1 after c member, ?_⟩
      cases fuel <;> rfl
    | cons c rest =>
      have stopped := List.head_dropWhile_not (· = directorySeparator)
        (by rw [after]; exact List.cons_ne_nil _ _)
      have inside : c ∈ directorySeparator :: more :=
        List.dropWhile_subset _ (after ▸ List.mem_cons_self)
      have put : Reported (putSeparator call ⟨dst, 0, false⟩) := by
        refine ⟨dst.set 0 nullTerminator, 0, ?_, by simp [size]⟩
        simp [putSeparator, throwTruncated, store, one, size]
      exact .inr ⟨⟨c, inside, by simpa [after] using stopped⟩, (put.bind _).bind _⟩

theorem fillsUp_append (call : Call) {component tail : List UInt8}
    (separate : directorySeparator ∉ component)
    (ends : tail = [] ∨ ∃ more, tail = directorySeparator :: more) :
    FillsUp call (components (component ++ tail)) ↔
      FillsUp call (component :: components tail) := by
  rcases ends with rfl | ⟨more, rfl⟩
  · rw [List.append_nil, components_single separate, components_single List.not_mem_nil]
    simp [FillsUp]
  · rw [components_append separate, components_separator]
    simp [FillsUp]

theorem fillsUp_dropWhile (call : Call) (path : List UInt8) :
    FillsUp call (components (path.dropWhile (· = directorySeparator))) ↔
      FillsUp call (components path) := by
  induction path with
  | nil => exact Iff.rfl
  | cons c path ih =>
    by_cases separator : c = directorySeparator
    · rw [List.dropWhile_cons_of_pos (by simpa using separator), ih, separator,
        components_separator, FillsUp, if_pos (.inl rfl)]
    · rw [List.dropWhile_cons_of_neg (by simpa using separator)]

theorem components_eq_empty_forall :
    (∀ component ∈ components path, component = []) ↔ ∀ c ∈ path, c = directorySeparator := by
  constructor
  · intro empty c member
    by_contra other
    have joined : [directorySeparator].intercalate (components path) = path :=
      List.intercalate_splitOn directorySeparator
    rw [← joined] at member
    obtain separator | ⟨component, inside, here⟩ := mem_pathOf (List.mem_cons_of_mem _ member)
    · exact other separator
    · rw [empty component inside] at here
      exact List.not_mem_nil here
  · intro separators component member
    obtain ⟨separate, inside⟩ := of_mem_components member
    exact List.eq_nil_iff_forall_not_mem.2 fun c here =>
      separate (separators c (inside here) ▸ here)

theorem checkComponent_dots (checks : Checks) :
    checkComponent checks currentDirectory = .ok () ∧
      checkComponent checks parentDirectory = .ok () := by
  have valid : dot ∉ invalidCharacters := by decide
  have within : ¬ BeyondMasks checks dot := fun beyond => absurd beyond.2.2 (by decide)
  constructor
  · rw [checkComponent_eq (.inr (by simpa [currentDirectory] using valid)), if_neg]
    simpa [currentDirectory] using within
  · rw [checkComponent_eq (.inr (by simpa [parentDirectory] using valid)), if_neg]
    simpa [parentDirectory] using within

/-- What comes of a path that begins where the buffer is full. -/
structure Answers (call : Call) (path : List UInt8) (result : Except Fault Output) : Prop where
  full : FillsUp call (components path) → result = .error .outOfBuffer
  inBuffers : ¬ FillsUp call (components path) → InBuffers result
  reports : ¬ FillsUp call (components path) →
    ∀ left, walk call [] (components path) = .ok left → Reported result

section

variable (one : call.maxOutSize = 1)

include one

theorem removeComponent_full :
    removeComponent call ⟨[directorySeparator], 1, false⟩ =
      if call.isWindowsPath then .ok ⟨[directorySeparator], 0, false⟩
      else .error (.thrown .directoryUnobtainable) := by
  cases windows : call.isWindowsPath <;> simp [removeComponent, read, assertThat, windows, one]

theorem copyComponent_full (component : List UInt8) :
    copyComponent call ⟨[directorySeparator], 1, false⟩ component = .error .outOfBuffer := by
  have long : call.maxOutSize < 1 + component.length + 1 := by omega
  rw [copyComponent, if_pos long, if_pos (one.trans_lt (by decide))]

/-- A component where the buffer is full, for what comes of the path behind a `.`. -/
theorem handleComponent_answers {component tail : List UInt8}
    (begins : Begins component tail) {fuel : Nat} (enough : tail.length ≤ fuel)
    (onwards : Answers call tail
      (normalizeLoop call fuel tail ⟨[directorySeparator], 1, true⟩ >>= finish call)) :
    Answers call (component ++ tail)
      ((handleComponent call (component ++ tail) ⟨[directorySeparator], 1, false⟩ >>= fun left =>
        normalizeLoop call fuel left.1 left.2) >>= finish call) := by
  have fills := fillsUp_append call begins.separate begins.ends
  have walked := walk_append call [] begins.separate begins.ends
  have length := componentLength_append call.toChecks begins.separate begins.ends
  rw [FillsUp] at fills
  by_cases current : component = currentDirectory
  · have result : handleComponent call (component ++ tail) ⟨[directorySeparator], 1, false⟩ =
        .ok (tail, ⟨[directorySeparator], 1, true⟩) := by
      rw [handleComponent, length, current, (checkComponent_dots _).1, ← current]
      simp [(isCurrentDirectory_append begins).2 current]
    have same : walk call [] (components (component ++ tail)) = walk call [] (components tail) := by
      rw [walked, walkNext, current, (checkComponent_dots _).1]
      rfl
    rw [if_pos (.inr current)] at fills
    rw [result]
    exact ⟨fun full => onwards.full (fills.1 full), fun safe => onwards.inBuffers (mt fills.2 safe),
      fun safe left isOk => onwards.reports (mt fills.2 safe) left (same ▸ isOk)⟩
  · rw [if_neg (not_or.2 ⟨begins.nonempty, current⟩)] at fills
    have handled : handleComponent call (component ++ tail) ⟨[directorySeparator], 1, false⟩ =
        checkComponent call.toChecks component >>= fun _ =>
          (if component = parentDirectory then removeComponent call ⟨[directorySeparator], 1, false⟩
            else copyComponent call ⟨[directorySeparator], 1, false⟩ component) >>= fun w =>
            .ok (tail, w) := by
      rw [handleComponent, length, bind_assoc]
      simp only [ok_bind, List.take_left, List.drop_left,
        if_neg (mt (isCurrentDirectory_append begins).1 current), isParentDirectory_append begins]
      split <;> rfl
    rw [handled]
    cases checked : checkComponent call.toChecks component with
    | error fault =>
      have safe := inBuffers_checkComponent call.toChecks component
      rw [checked] at safe
      refine ⟨fun full => ?_, fun _ same => safe (congrArg Except.error (Except.error.inj same)),
        fun _ left isOk => ?_⟩
      · rw [(fills.1 full).1] at checked
        cases checked
      · rw [walked, walkNext, checked] at isOk
        cases isOk
    | ok _ =>
      rw [ok_bind]
      by_cases parent : component = parentDirectory
      · rw [if_pos parent, removeComponent_full one]
        cases windows : call.isWindowsPath with
        | false =>
          refine ⟨fun full => ?_, fun _ => by rintro ⟨⟩, fun _ left isOk => ?_⟩
          · rw [windows] at fills
            cases ((fills.1 full).2 parent).1
          · rw [walked, walkNext, checked, parent, windows] at isOk
            cases isOk
        | true =>
          rw [windows, components_eq_empty_forall] at fills
          rw [if_pos rfl, ok_bind, ok_bind]
          obtain ⟨empty, isOk⟩ | ⟨more, reported⟩ := normalizeLoop_blank one
            (show [directorySeparator].length = 1 from rfl) begins.ends enough
          · have full := fills.2 ⟨checked, fun _ => ⟨rfl, empty⟩⟩
            refine ⟨fun _ => ?_, absurd full, absurd full⟩
            rw [isOk, ok_bind, finish_blank one rfl]
          · refine ⟨fun full => ?_, fun _ => (reported.bind _).inBuffers,
              fun _ _ _ => reported.bind _⟩
            obtain ⟨c, inside, other⟩ := more
            exact absurd (((fills.1 full).2 parent).2 c inside) other
      · rw [if_neg parent, copyComponent_full one]
        have full := fills.2 ⟨checked, fun isParent => absurd isParent parent⟩
        exact ⟨fun _ => rfl, absurd full, absurd full⟩

/-- The loop where the buffer is full and the next separator is written already. -/
theorem normalizeLoop_answers (fuel : Nat)
    (separated : path = [] ∨ ∃ more, path = directorySeparator :: more)
    (unterminated : nullTerminator ∉ path)
    (enough : path.length ≤ fuel) :
    Answers call path (normalizeLoop call fuel path ⟨[directorySeparator], 1, true⟩ >>=
      finish call) := by
  have ended {path : List UInt8} (empty : FillsUp call (components path)) :
      Answers call path (.error .outOfBuffer) := ⟨fun _ => rfl, absurd empty, absurd empty⟩
  induction fuel generalizing path with
  | zero =>
    obtain rfl := List.length_eq_zero_iff.1 (Nat.le_zero.1 enough)
    rw [normalizeLoop, ok_bind, finish_full one rfl]
    exact ended (by simp [components_single, FillsUp])
  | succ fuel ih =>
    rcases separated with rfl | ⟨more, rfl⟩
    · rw [normalizeLoop, ok_bind, finish_full one rfl]
      exact ended (by simp [components_single, FillsUp])
    · have shorter := List.length_dropWhile_le (· = directorySeparator) more
      have skipped : (directorySeparator :: more).dropWhile (· = directorySeparator) =
          more.dropWhile (· = directorySeparator) := List.dropWhile_cons_of_pos (by simp)
      rw [List.length_cons] at enough
      have fills := fillsUp_dropWhile call (directorySeparator :: more)
      have walked := walk_dropWhile call [] (directorySeparator :: more)
      rw [normalizeLoop, normalizeRound,
        if_pos (by rfl : charAt (directorySeparator :: more) 0 = directorySeparator)]
      rw [skipped] at fills walked ⊢
      cases after : more.dropWhile (· = directorySeparator) with
      | nil =>
        rw [after] at fills
        have finished : normalizeLoop call fuel [] ⟨[directorySeparator], 1, true⟩ =
            .ok ⟨[directorySeparator], 1, true⟩ := by
          cases fuel <;> rfl
        have result : finish call ⟨[directorySeparator], 1, true⟩ = .error .outOfBuffer :=
          finish_full one rfl true
        have full := fills.1 (by simp [components_single, FillsUp])
        simp only [ok_bind, finished, result]
        exact ended full
      | cons c rest =>
        rw [after] at fills walked shorter
        rw [List.length_cons] at shorter
        have other : c ≠ directorySeparator := by
          have stopped := List.head_dropWhile_not (· = directorySeparator)
            (by rw [after]; exact List.cons_ne_nil _ _)
          simpa [after] using stopped
        have inside : c :: rest ⊆ directorySeparator :: more := by
          rw [← after]
          exact fun _ member => List.mem_cons_of_mem _ (List.dropWhile_subset _ member)
        obtain ⟨component, tail, split, begins⟩ :=
          exists_begins other fun member => unterminated (inside member)
        have lengths : rest.length + 1 = component.length + tail.length := by
          simpa using congrArg List.length split
        have positive := List.length_pos_iff.2 begins.nonempty
        have answers := handleComponent_answers one begins (by omega : tail.length ≤ fuel)
          (ih begins.ends (fun member =>
            unterminated (inside (split ▸ List.mem_append_right _ member))) (by omega))
        rw [← split] at answers
        exact ⟨fun full => answers.full (fills.2 full),
          fun safe => answers.inBuffers (mt fills.1 safe),
          fun safe left isOk => answers.reports (mt fills.1 safe) left (walked.trans isOk)⟩

/-- A second separator goes beyond the buffer. -/
theorem normalizeLoop_leading
    (rooted : charAt path 0 = directorySeparator) (more : ∃ c ∈ path, c ≠ directorySeparator) :
    normalizeLoop call path.length path ⟨[directorySeparator], 1, false⟩ = .error .outOfBuffer := by
  obtain ⟨c, inside, other⟩ := more
  obtain ⟨first, rest, rfl⟩ := List.exists_cons_of_ne_nil (List.ne_nil_of_mem inside)
  rw [List.length_cons, normalizeLoop, normalizeRound, if_pos rooted]
  cases after : (first :: rest).dropWhile (· = directorySeparator) with
  | nil => exact absurd (by simpa using List.dropWhile_eq_nil_iff.1 after c inside) other
  | cons d rest => simp [putSeparator, Writer.put, store, one]

/-- A path that is relative to a drive, where the buffer is full after its first separator. -/
theorem normalizeLoop_relative
    (notRooted : path.head? ≠ some directorySeparator) (unterminated : nullTerminator ∉ path) :
    Answers call path
      (normalizeLoop call path.length path ⟨[directorySeparator], 1, false⟩ >>= finish call) := by
  cases split : path with
  | nil =>
    have empty : FillsUp call (components []) := by simp [components_single, FillsUp]
    rw [List.length_nil, normalizeLoop, ok_bind, finish_full one rfl]
    exact ⟨fun _ => rfl, absurd empty, absurd empty⟩
  | cons c rest =>
    rw [split] at notRooted unterminated
    have other : c ≠ directorySeparator := fun same => notRooted (congrArg some same)
    obtain ⟨component, tail, parts, begins⟩ := exists_begins other unterminated
    have lengths : rest.length + 1 = component.length + tail.length := by
      simpa using congrArg List.length parts
    have positive := List.length_pos_iff.2 begins.nonempty
    have answers := handleComponent_answers one begins (by omega : tail.length ≤ rest.length)
      (normalizeLoop_answers one rest.length begins.ends
        (fun member => unterminated (parts ▸ List.mem_append_right _ member)) (by omega))
    rw [List.length_cons, normalizeLoop, normalizeRound,
      if_neg (show ¬ charAt (c :: rest) 0 = directorySeparator from other), parts]
    exact answers

end

end One

/-! ## The exact condition -/

section Exact

variable {call : Call} {dst : List UInt8} {allocated : Vector UInt8 (entryNameLengthMax + 1)}
    {path : CString}

/-- A path that needs a replacement has dots. -/
theorem exists_other_of_needed (needed : isParentDirectoryPathReplacementNeeded path = true) :
    ∃ c ∈ path.chars, c ≠ directorySeparator := by
  obtain ⟨-, front, c0, back, split, -⟩ := separator_of_needed needed
  exact ⟨dot, by simp [split], by decide⟩

theorem normalize_of_long (accepts : Accepts call path) (inside : 0 < dst.length)
    (failed : replaced path allocated = .error .outOfBuffer) :
    normalize call dst allocated path = .error .outOfBuffer := by
  by_cases rooted : path.chars.head? = some directorySeparator
  · rw [normalize_rooted rooted, failed]
    rfl
  · rw [normalize_relative rooted (accepts.resolve_left rooted) inside, failed]
    rfl

/-- What comes of a call with a buffer of one byte. -/
theorem normalize_one (one : call.maxOutSize = 1) (size : dst.length = 1)
    (accepts : Accepts call path)
    (short : ¬ (isParentDirectoryPathReplacementNeeded path = true ∧
    entryNameLengthMax < path.chars.length))
    {other : CString} (isReplaced : replaced path allocated = .ok other)
    (spelled : isParentDirectoryPathReplacementNeeded path = true ∧ Respelling path other ∨
      isParentDirectoryPathReplacementNeeded path = false ∧ other = path) :
    (Overruns call path ∧ normalize call dst allocated path = .error .outOfBuffer) ∨
    (¬ Overruns call path ∧ InBuffers (normalize call dst allocated path) ∧
      ∀ left, walk call [] (components other.chars) = .ok left →
        Reported (normalize call dst allocated path)) := by
  have overruns : Overruns call path ↔ if path.chars.head? = some directorySeparator
      then ∀ c ∈ path.chars, c = directorySeparator
      else isParentDirectoryPathReplacementNeeded path = true ∨
        FillsUp call (components path.chars) := by
    rw [Overruns, and_iff_right accepts, or_iff_right short, and_iff_right one]
  rw [overruns]
  by_cases rooted : path.chars.head? = some directorySeparator
  · rw [if_pos rooted, normalize_rooted rooted, isReplaced, ok_bind]
    have rooted' : charAt other.chars 0 = directorySeparator := by
      obtain ⟨-, respelling⟩ | ⟨-, rfl⟩ := spelled
      · exact respelling.rooted
      · exact charAt_zero_iff.2 rooted
    have alike : (∀ c ∈ other.chars, c = directorySeparator) ↔
        ∀ c ∈ path.chars, c = directorySeparator := by
      obtain ⟨needed, respelling⟩ | ⟨-, rfl⟩ := spelled
      · obtain ⟨c, inside, differs⟩ := respelling.exists_other needed
        obtain ⟨d, inside', differs'⟩ := exists_other_of_needed needed
        exact iff_of_false (fun all => differs (all c inside)) fun all => differs' (all d inside')
      · exact Iff.rfl
    rw [← alike]
    obtain ⟨empty, isOk⟩ | ⟨⟨c, inside, differs⟩, reported⟩ := normalizeLoop_blank one size
      (.inr (List.head?_eq_some_iff.1 (charAt_zero_iff.1 rooted'))) (Nat.le_refl other.chars.length)
    · rw [isOk, ok_bind, finish_blank one size]
      exact .inl ⟨empty, rfl⟩
    · exact .inr ⟨fun all => differs (all c inside), (reported.bind _).inBuffers,
        fun _ _ => reported.bind _⟩
  · have full : dst.set 0 directorySeparator = [directorySeparator] := by
      obtain ⟨c, rfl⟩ := List.length_eq_one_iff.1 size
      rfl
    rw [if_neg rooted, normalize_relative rooted (accepts.resolve_left rooted) (by omega),
      isReplaced, ok_bind, full]
    obtain ⟨needed, respelling⟩ | ⟨unneeded, rfl⟩ := spelled
    · rw [normalizeLoop_leading one respelling.rooted (respelling.exists_other needed)]
      exact .inl ⟨.inl needed, rfl⟩
    · have answers := normalizeLoop_relative one rooted other.unterminated
      have fillsUp : (isParentDirectoryPathReplacementNeeded other = true ∨
          FillsUp call (components other.chars)) ↔ FillsUp call (components other.chars) :=
        or_iff_right fun needed => Bool.false_ne_true (unneeded.symm.trans needed)
      rw [fillsUp]
      by_cases fills : FillsUp call (components other.chars)
      · exact .inl ⟨fills, answers.full fills⟩
      · exact .inr ⟨fills, answers.inBuffers fills, answers.reports fills⟩

/-- A call stays in its buffers and reports what does not fit, unless it overruns one of them. -/
theorem staysInBuffers_iff (call : Call) (allocated : Vector UInt8 (entryNameLengthMax + 1))
    (path : CString)
    (size : dst.length = call.maxOutSize) (positive : 1 ≤ call.maxOutSize) :
    StaysInBuffers call dst allocated path ↔ ¬ Overruns call path := by
  by_cases accepts : Accepts call path
  · obtain ⟨needed, long, failed⟩ | ⟨short, other, isReplaced, spelled⟩ :=
      replaced_cases path allocated
    · have overruns : Overruns call path := ⟨accepts, .inl ⟨needed, long⟩⟩
      exact iff_of_false (fun stays => stays.inBuffers
        (normalize_of_long accepts (by omega) failed)) (not_not.2 overruns)
    · by_cases one : call.maxOutSize = 1
      · obtain ⟨overruns, failed⟩ | ⟨within, inBuffers, reports⟩ :=
          normalize_one one (size.trans one) accepts short isReplaced spelled
        · exact iff_of_false (fun stays => stays.inBuffers failed) (not_not.2 overruns)
        · refine iff_of_true ⟨inBuffers, fun other' _ isReplaced' long => ?_⟩ within
          obtain rfl := Except.ok.inj (isReplaced.symm.trans isReplaced')
          obtain ⟨form, formed, -⟩ := long.long
          obtain ⟨left, resolved, -⟩ := Option.map_eq_some_iff.1 formed
          exact reports left (walk_of_readable (fun _ => long.checked) resolved)
      · refine iff_of_true (staysInBuffers_of_two (by omega) size.ge fun both => short both.2) ?_
        rintro ⟨-, both | both⟩
        · exact short both
        · exact one both.1
  · refine iff_of_true ⟨?_, fun _ isAccepted => absurd isAccepted accepts⟩ fun overruns =>
      accepts overruns.1
    rw [normalize_refused dst allocated accepts]
    rintro ⟨⟩

/-- The path `/a/b` and room for three bytes. -/
theorem staysInBuffers_iff_three :
    StaysInBuffers ⟨⟨true, false⟩, 3, false, false⟩ [1, 1, 1] (Vector.replicate _ 0)
        ⟨[47, 97, 47, 98], by decide⟩ ↔
      ¬ Overruns ⟨⟨true, false⟩, 3, false, false⟩ ⟨[47, 97, 47, 98], by decide⟩ :=
  staysInBuffers_iff _ _ _ rfl (by decide)

/-- The path `/` and room for one byte, behind which its end is written. -/
theorem not_staysInBuffers_of_separator :
    ¬ ∀ (call : Call) (dst : List UInt8) (allocated : Vector UInt8
      (entryNameLengthMax + 1)) (path : CString), dst.length = call.maxOutSize →
      1 ≤ call.maxOutSize → StaysInBuffers call dst allocated path := by
  intro all
  have stays := all ⟨⟨true, false⟩, 1, false, false⟩ [0] (Vector.replicate _ 0) ⟨[47], by decide⟩
    rfl (by decide)
  exact stays.inBuffers (by decide +kernel)

end Exact

end SumiEmu.FileSys.PathNormalizer
