/-
# What the loop writes

Between components the buffer holds the path of the components that are left, and a separator more
when the next one is to be skipped. Each component is handled as the walk handles it, which resolves
a list of components and checks their characters on the way, or the path is cut off for lack of
room.
-/

import SumiEmu.FileSys.PathNormalizer

namespace SumiEmu.FileSys.PathNormalizer

open Fallible List Nat

/-! ## The walk -/

def checkComponent (checks : Checks) (component : Component) : Except Fault Unit :=
  forM component (checkCharacter checks)

theorem checkComponent_cons (checks : Checks) (c : UInt8) (component : Component) :
    checkComponent checks (c :: component) =
      (checkCharacter checks c >>= fun _ => checkComponent checks component) :=
  forM_cons

/-- Checks one more component and resolves it. -/
def walkNext (call : Call) (kept : List Component) (component : Component) :
    Except Fault (List Component) := do
  checkComponent call.toChecks component
  match resolveNext call.isWindowsPath kept component with
  | none => .error (.thrown .directoryUnobtainable)
  | some next => .ok next

def walk (call : Call) (kept path : List Component) : Except Fault (List Component) :=
  path.foldlM (walkNext call) kept

/-! ## The buffer -/

/-- The characters of the components, each behind a separator. -/
def written (kept : List Component) : List UInt8 := kept.flatMap (directorySeparator :: ·)

theorem written_append (kept : List Component) (component : Component) :
    written (kept ++ [component]) = written kept ++ directorySeparator :: component := by
  simp [written]

variable {kept : List Component}

/-- Only the path of no components at all is more than they are. -/
theorem pathOf_eq_written (some : kept ≠ []) :
    pathOf kept = written kept := by
  induction kept with
  | nil => exact absurd rfl some
  | cons component kept ih =>
    cases kept with
    | nil => simp [pathOf, written]
    | cons other kept =>
      have tail := ih (cons_ne_nil _ _)
      rw [pathOf, intercalate_cons_cons, written, flatMap_cons]
      rw [pathOf, written] at tail
      rw [← tail]
      simp

theorem mem_pathOf {c : UInt8} (member : c ∈ pathOf kept) :
    c = directorySeparator ∨ ∃ component ∈ kept, c ∈ component := by
  rcases eq_or_ne kept [] with rfl | some
  · exact .inl (mem_singleton.1 member)
  · rw [pathOf_eq_written some, written, mem_flatMap] at member
    obtain ⟨component, inside, here⟩ := member
    exact (mem_cons.1 here).imp_right fun later => ⟨component, inside, later⟩

/-- What is written to the buffer so far, and its size. -/
structure Holds (w : Writer) (size : Nat) (chars : List UInt8) : Prop where
  text : w.dst.take w.totalLen = chars
  totalLen : w.totalLen = chars.length
  size : w.dst.length = size

variable {w : Writer} {size : Nat}

section

variable {chars : List UInt8} (holds : Holds w size chars)

include holds

theorem Holds.put (c : UInt8) (room : chars.length < size) :
    ∃ w', w.put c = .ok w' ∧ Holds w' size (chars ++ [c]) ∧ w'.skipNextSep = w.skipNextSep := by
  have inside : w.totalLen < w.dst.length := by
    rw [holds.totalLen, holds.size]
    exact room
  refine ⟨{ w with dst := w.dst.set w.totalLen c, totalLen := w.totalLen + 1 }, ?_, ⟨?_, ?_, ?_⟩,
    rfl⟩
  · simp [Writer.put, store, inside]
  · rw [take_succ_eq_append_getElem (by simpa using inside), getElem_set_self,
      take_set_of_le (le_refl _), holds.text]
  · simp [holds.totalLen]
  · simp [holds.size]

theorem Holds.putAll (more : List UInt8) (room : chars.length + more.length ≤ size) :
    ∃ w', w.putAll more = .ok w' ∧ Holds w' size (chars ++ more) ∧
      w'.skipNextSep = w.skipNextSep := by
  induction more generalizing w chars with
  | nil => exact ⟨w, rfl, by simpa using holds, rfl⟩
  | cons c more ih =>
    rw [length_cons] at room
    obtain ⟨next, put, holds, skip⟩ := holds.put c (by omega)
    obtain ⟨w', putAll, holds', skip'⟩ := ih holds (by simp; omega)
    refine ⟨w', ?_, by simpa using holds', skip'.trans skip⟩
    rw [Writer.putAll, foldlM_cons, put]
    exact putAll

theorem Holds.read {i : Nat} (inside : i < chars.length) : read w.dst i = .ok chars[i] := by
  have stored : w.dst[i]? = some chars[i] := by
    rw [← getElem?_take_of_lt (holds.totalLen ▸ inside), holds.text,
      getElem?_eq_getElem inside]
  rw [PathNormalizer.read, stored]

end

/-- The written part may be cut. -/
theorem Holds.cut {chars more : List UInt8} (holds : Holds w size (chars ++ more)) :
    Holds { w with totalLen := chars.length } size chars := by
  refine ⟨?_, rfl, holds.size⟩
  have shorter := congrArg (take chars.length) holds.text
  rw [take_take, take_left, min_eq_left] at shorter
  · exact shorter
  · rw [holds.totalLen, length_append]
    exact le_add_right _ _

/-- Between components. -/
structure AtBoundary (size : Nat) (kept : List Component) (w : Writer) : Prop where
  holds : Holds w size (written kept ++ if w.skipNextSep then [directorySeparator] else [])

/-- Where a component begins. -/
structure AtComponent (size : Nat) (kept : List Component) (w : Writer) : Prop where
  holds : Holds w size (written kept ++ [directorySeparator])
  unskipped : w.skipNextSep = false

/-- What is left has no separators. -/
def Separate (kept : List Component) : Prop := ∀ component ∈ kept, directorySeparator ∉ component

/-! ## Lack of room -/

/-- `ResultTooLongPath` is reported, and the part of the path that fits is terminated. -/
def Reported {α : Type} (result : Except Fault α) : Prop :=
  ∃ dst outLen, result = .error (.truncated dst outLen) ∧ dst[outLen]? = some nullTerminator

/-- The call is cut off, since there is not as much room as is needed. -/
def IsCut {α : Type} (call : Call) (needed : Nat) (result : Except Fault α) : Prop :=
  call.maxOutSize ≤ needed ∧ Reported result

/-- A call does what the walk does, or it is cut off. -/
def AgreeOrCut {α β : Type} (call : Call) (needed : Nat) (related : α → β → Prop)
    (walked : Except Fault α)
    (result : Except Fault β) : Prop :=
  IsCut call needed result ∨ Agree related walked result

section LackOfRoom

variable {call : Call} {α β : Type} {needed needed' : Nat}

theorem Reported.bind {result : Except Fault α} (reported : Reported result)
    (f : α → Except Fault β) : Reported (result >>= f) := by
  obtain ⟨dst, outLen, rfl, terminated⟩ := reported
  exact ⟨dst, outLen, rfl, terminated⟩

theorem IsCut.bind {result : Except Fault α} (cut : IsCut call needed result)
    (f : α → Except Fault β) :
    IsCut call needed (result >>= f) := cut.imp_right fun reported => reported.bind f

theorem IsCut.mono {result : Except Fault α} (cut : IsCut call needed result)
    (le : needed ≤ needed') :
    IsCut call needed' result := cut.imp_left fun enough => enough.trans le

variable {related : α → β → Prop}

section

variable {walked : Except Fault α} {result : Except Fault β}
  (either : AgreeOrCut call needed related walked result)

include either

theorem AgreeOrCut.mono (le : needed ≤ needed') :
    AgreeOrCut call needed' related walked result := either.imp_left fun cut => cut.mono le

/-- With enough room nothing is cut off. -/
theorem AgreeOrCut.agree (room : needed < call.maxOutSize) :
    Agree related walked result := either.resolve_left fun cut => cut.1.not_gt room

end

theorem AgreeOrCut.bind {α' β' : Type} {related' : α' → β' → Prop}
    {walked : Except Fault α} {result : Except Fault β} {f : α → Except Fault α'}
    {g : β → Except Fault β'}
    (first : AgreeOrCut call needed related walked result)
    (second : ∀ a b, walked = .ok a → related a b → AgreeOrCut call needed related' (f a) (g b)) :
    AgreeOrCut call needed related' (walked >>= f) (result >>= g) := by
  obtain cut | agree := first
  · exact .inl (cut.bind g)
  · cases agree with
    | ok both => exact second _ _ rfl both
    | error fault => exact .inr (.error fault)

theorem Holds.throwTruncated {w : Writer} {size : Nat} {chars : List UInt8}
    (holds : Holds w size chars)
    (room : chars.length < size) (enough : call.maxOutSize ≤ needed) :
    IsCut call needed (throwTruncated w : Except Fault α) := by
  have inside : w.totalLen < w.dst.length := by
    rw [holds.totalLen, holds.size]
    exact room
  refine ⟨enough, w.dst.set w.totalLen nullTerminator, w.totalLen, ?_, by simp [inside]⟩
  rw [PathNormalizer.throwTruncated, store, if_pos inside]
  rfl

end LackOfRoom

theorem AtBoundary.totalLen_le
    (before : AtBoundary size kept w) : w.totalLen ≤ (written kept).length + 1 := by
  rw [before.holds.totalLen, length_append]
  split <;> simp

variable {call : Call}

theorem AtBoundary.putSeparator
    (before : AtBoundary size kept w) (fits : call.maxOutSize ≤ size)
    (room : w.totalLen < call.maxOutSize) :
    IsCut call ((written kept).length + 1) (putSeparator call w) ∨
      (written kept).length + 1 < call.maxOutSize ∧
        ∃ w', putSeparator call w = .ok w' ∧ AtComponent size kept w' := by
  unfold PathNormalizer.putSeparator
  cases skip : w.skipNextSep with
  | true =>
    have stands := before.holds
    rw [skip] at stands
    have total : w.totalLen = (written kept).length + 1 := by simpa using stands.totalLen
    have holds : Holds { w with skipNextSep := false } size
      (written kept ++ [directorySeparator]) :=
      ⟨stands.text, stands.totalLen, stands.size⟩
    exact .inr ⟨by omega, _, by simp, holds, rfl⟩
  | false =>
    have holds : Holds w size (written kept) := by simpa [skip] using before.holds
    have total := holds.totalLen
    by_cases last : w.totalLen + 1 = call.maxOutSize
    · rw [if_neg Bool.false_ne_true, if_pos last]
      exact .inl ((holds.throwTruncated (by omega) (by omega)).bind _)
    · obtain ⟨w', put, holds', -⟩ := holds.put directorySeparator (by omega)
      refine .inr ⟨by omega, { w' with skipNextSep := false }, ?_,
        ⟨holds'.text, holds'.totalLen, holds'.size⟩, rfl⟩
      simp [last, put]

/-! ## Backing up -/

/-- Backing up from within a component ends at the separator before it. -/
theorem backUp_eq {front component after : List UInt8}
    (holds : Holds w size (front ++ directorySeparator :: (component ++ after)))
    (separate : directorySeparator ∉ component) {k : Nat} (inside : k ≤ component.length) :
    backUp w.dst (front.length + k) = .ok front.length := by
  induction k with
  | zero =>
    have here := holds.read (i := front.length) (by simp)
    rw [getElem_append_right (le_refl _)] at here
    cases empty : front.length with
    | zero => simp_all [backUp]
    | succ n => simp_all [backUp]
  | succ k ih =>
    have bound : front.length + k + 1 <
        (front ++ directorySeparator :: (component ++ after)).length := by
      simp
      omega
    have here := holds.read bound
    have character :
        (front ++ directorySeparator :: (component ++ after))[front.length + k + 1] =
          component[k] := by
      rw [getElem_append_right (by omega)]
      simp only [show front.length + k + 1 - front.length = k + 1 by omega, getElem_cons_succ]
      exact getElem_append_left inside
    have other : component[k] ≠ directorySeparator := fun equal =>
      separate (equal ▸ getElem_mem inside)
    rw [← Nat.add_assoc, backUp, here, character, ok_bind, if_neg other]
    split
    · next zero => rw [Nat.eq_zero_of_add_eq_zero_right zero]
    · exact ih (le_of_succ_le inside)

theorem assertThat_eq_ok {condition : Prop} [Decidable condition] (holds : condition) :
    assertThat condition = .ok () := if_pos holds

/-- The separator just written stands at the end, and the first one at the front. -/
theorem AtComponent.separators (before : AtComponent size kept w) :
    w.totalLen = (written kept).length + 1 ∧
      read w.dst (w.totalLen - 1) = .ok directorySeparator ∧
      read w.dst 0 = .ok directorySeparator := by
  have total : w.totalLen = (written kept).length + 1 := by simpa using before.holds.totalLen
  refine ⟨total, ?_, ?_⟩
  · have here := before.holds.read (i := (written kept).length) (by simp)
    simpa [total] using here
  · have here := before.holds.read (i := 0) (by simp)
    cases kept <;> simpa [written] using here

/-- A `..` at the root. -/
theorem AtComponent.removeComponent_root (call : Call)
    (before : AtComponent size [] w) (room : 0 < call.maxOutSize) :
    Agree (AtBoundary size)
      (if call.isWindowsPath then .ok [] else .error (.thrown .directoryUnobtainable))
      (removeComponent call w) := by
  obtain ⟨total, -, first⟩ := before.separators
  replace total : w.totalLen = 1 := total
  unfold removeComponent
  rw [total]
  cases windows : call.isWindowsPath with
  | true =>
    have empty : Holds { w with totalLen := 0 } size (written []) :=
      (show Holds w size (written [] ++ [directorySeparator]) from before.holds).cut
    have boundary : AtBoundary size [] { w with totalLen := 0 } := ⟨by
      simpa [before.unskipped] using empty⟩
    simpa [first, assertThat, room] using Agree.ok boundary
  | false =>
    simpa [first, assertThat] using Agree.error (Fault.thrown .directoryUnobtainable)

/-- A `..` behind a component. -/
theorem AtComponent.removeComponent_append (call : Call) {component : Component}
    (before : AtComponent size (kept ++ [component]) w) (separate : directorySeparator ∉ component)
    (room : (written kept).length < call.maxOutSize) :
    ∃ w', removeComponent call w = .ok w' ∧ AtBoundary size kept w' := by
  obtain ⟨total, last, first⟩ := before.separators
  have layout : Holds w size
      (written kept ++ directorySeparator :: (component ++ [directorySeparator])) := by
    simpa [written_append] using before.holds
  rw [written_append, length_append, length_cons] at total
  have found : read w.dst (written kept).length = .ok directorySeparator := by
    have here := layout.read (i := (written kept).length) (by simp)
    simpa using here
  have back : backUp w.dst (w.totalLen - 2) = .ok (written kept).length := by
    rw [show w.totalLen - 2 = (written kept).length + component.length by omega]
    exact backUp_eq layout separate (le_refl _)
  refine ⟨{ w with totalLen := (written kept).length }, ?_, ⟨?_⟩⟩
  · unfold removeComponent
    rw [if_neg (by omega : ¬ w.totalLen = 0), if_neg (by omega : ¬ w.totalLen = 1)]
    cases windows : call.isWindowsPath <;> simp [last, first, found, back, assertThat, room]
  · simpa [before.unskipped] using Holds.cut layout

/-- A `..` leaves what resolving it leaves, or has nothing to remove. -/
theorem AtComponent.removeComponent (call : Call) {w : Writer} {size : Nat}
    {kept : List Component} (before : AtComponent size kept w) (separate : Separate kept)
    (room : (written kept).length < call.maxOutSize) :
    Agree (AtBoundary size)
      (match resolveNext call.isWindowsPath kept parentDirectory with
        | none => .error (.thrown .directoryUnobtainable)
        | some next => .ok next)
      (removeComponent call w) := by
  have special : ¬ (parentDirectory = [] ∨ parentDirectory = currentDirectory) := by decide
  rcases eq_nil_or_concat kept with rfl | ⟨front, component, rfl⟩
  · have root := before.removeComponent_root call room
    rw [resolveNext, if_neg special, if_pos rfl, if_pos rfl]
    cases windows : call.isWindowsPath <;> simpa [windows] using root
  · rw [concat_eq_append] at before separate room ⊢
    rw [written_append, length_append] at room
    obtain ⟨w', removed, boundary⟩ :=
      before.removeComponent_append call (separate component (by simp)) (by omega)
    rw [resolveNext, if_neg special, if_pos rfl, if_neg (by simp), removed]
    simpa using Agree.ok boundary

/-! ## One component -/

theorem length_written_dropLast (kept : List Component) :
    (written kept.dropLast).length ≤ (written kept).length := by
  rcases eq_nil_or_concat kept with rfl | ⟨front, last, rfl⟩
  · exact zero_le _
  · rw [concat_eq_append, dropLast_concat, written_append, length_append]
    exact le_add_right _ _

/-- Resolving a component adds no more than itself and its separator. -/
theorem length_written_next {isWindowsPath : Bool} {kept next : List Component}
    {component : Component} (resolved : resolveNext isWindowsPath kept component = some next) :
    (written next).length ≤ (written kept).length + component.length + 1 := by
  have shorter := length_written_dropLast kept
  rcases resolveNext_cases resolved with rfl | rfl | ⟨rfl, -⟩
  · omega
  · omega
  · rw [written_append, length_append, length_cons]
    omega

theorem length_written_parent {isWindowsPath : Bool} {kept next : List Component}
    (resolved : resolveNext isWindowsPath kept parentDirectory = some next) :
    (written next).length ≤ (written kept).length := by
  rcases resolveNext_cases resolved with rfl | rfl | ⟨-, name⟩
  · exact le_refl _
  · exact length_written_dropLast kept
  · exact absurd rfl name.notParent

/-- The rest of a path begins with a component, and ends or goes on with a separator after it. -/
structure Begins (component tail : List UInt8) : Prop where
  nonempty : component ≠ []
  separate : directorySeparator ∉ component
  unterminated : nullTerminator ∉ component
  ends : tail = [] ∨ ∃ more, tail = directorySeparator :: more

variable {component tail : List UInt8}

theorem componentLength_append (checks : Checks) (separate : directorySeparator ∉ component)
    (ends : tail = [] ∨ ∃ more, tail = directorySeparator :: more) :
    componentLength checks (component ++ tail) =
      (checkComponent checks component >>= fun _ => .ok component.length) := by
  induction component with
  | nil => rcases ends with rfl | ⟨more, rfl⟩ <;> rfl
  | cons c component ih =>
    obtain ⟨head, rest⟩ := ne_and_not_mem_of_not_mem_cons separate
    rw [cons_append, componentLength, if_neg head.symm, ih rest, checkComponent_cons,
      bind_assoc]
    simp only [bind_assoc]
    rfl

theorem resolveNext_of_match {isWindowsPath : Bool} {kept next : List Component}
    {component : Component}
    {fault : Fault} (resolved : (match resolveNext isWindowsPath kept component with
      | none => .error fault
      | some next => .ok next : Except Fault (List Component)) = .ok next) :
    resolveNext isWindowsPath kept component = some next := by
  split at resolved
  · cases resolved
  · next found => rw [found, Except.ok.inj resolved]

theorem atEnd_append (separate : directorySeparator ∉ component)
    (unterminated : nullTerminator ∉ component)
    (ends : tail = [] ∨ ∃ more, tail = directorySeparator :: more) :
    atEnd (component ++ tail) = true ↔ component = [] := by
  cases component with
  | nil => rcases ends with rfl | ⟨more, rfl⟩ <;> simp [atEnd, charAt]
  | cons c component =>
    have notSeparator := (ne_and_not_mem_of_not_mem_cons separate).1
    have notTerminator := (ne_and_not_mem_of_not_mem_cons unterminated).1
    simp [atEnd, charAt, notSeparator.symm, notTerminator.symm]

theorem isCurrentDirectory_append (begins : Begins component tail) :
    isCurrentDirectory (component ++ tail) = true ↔ component = currentDirectory := by
  obtain ⟨c, more, rfl⟩ := exists_cons_of_ne_nil begins.nonempty
  have ended := atEnd_append (fun inside => begins.separate (mem_cons_of_mem c inside))
    (fun inside => begins.unterminated (mem_cons_of_mem c inside)) begins.ends
  simp [isCurrentDirectory, charAt, currentDirectory, ended]

theorem isParentDirectory_append (begins : Begins component tail) :
    isParentDirectory (component ++ tail) = true ↔ component = parentDirectory := by
  obtain ⟨c, more, rfl⟩ := exists_cons_of_ne_nil begins.nonempty
  cases more with
  | nil =>
    -- What follows a single character is no dot.
    have noDot : charAt tail 0 ≠ dot := by
      rcases begins.ends with rfl | ⟨more, rfl⟩
      · exact (by decide : nullTerminator ≠ dot)
      · exact (by decide : directorySeparator ≠ dot)
    simp [isParentDirectory, charAt, parentDirectory] at noDot ⊢
    exact fun _ second => absurd second noDot
  | cons d more =>
    have ended := atEnd_append
      (fun inside => begins.separate (mem_cons_of_mem c (mem_cons_of_mem d inside)))
      (fun inside => begins.unterminated (mem_cons_of_mem c (mem_cons_of_mem d inside)))
      begins.ends
    simp [isParentDirectory, charAt, parentDirectory, ended]

/-- A component is copied whole, or as much of it as fits. -/
theorem AtComponent.copyComponent
    (before : AtComponent size kept w) (component : Component) (fits : call.maxOutSize ≤ size)
    (room : (written kept).length + 1 < call.maxOutSize) :
    IsCut call ((written kept).length + component.length + 1) (copyComponent call w component) ∨
      ∃ w', copyComponent call w component = .ok w' ∧ AtBoundary size (kept ++ [component]) w' ∧
        w'.totalLen < call.maxOutSize := by
  have total := before.separators.1
  rw [PathNormalizer.copyComponent]
  by_cases long : w.totalLen + component.length + 1 > call.maxOutSize
  · left
    rw [if_pos long, if_neg (by omega)]
    obtain ⟨w', put, holds, -⟩ := before.holds.putAll
      (component.take (call.maxOutSize - (w.totalLen + 1))) (by simp; omega)
    rw [put, ok_bind]
    exact holds.throwTruncated (by simp; omega) (by omega)
  · right
    obtain ⟨w', put, holds, skip⟩ := before.holds.putAll component (by simp; omega)
    refine ⟨w', by rw [if_neg long, put], ⟨?_⟩, ?_⟩
    · rw [skip, before.unskipped, written_append]
      simpa using holds
    · have total' := holds.totalLen
      simp only [length_append, length_singleton] at total'
      omega

/-- What a round leaves: a place between components, with room for the end of the path. -/
structure Between (call : Call) (size : Nat) (kept : List Component) (w : Writer) : Prop where
  boundary : AtBoundary size kept w
  room : w.totalLen < call.maxOutSize

/-- A component is handled as the walk handles it, or the path is cut off there. -/
theorem AtComponent.handleComponent (before : AtComponent size kept w) (separate : Separate kept)
    (begins : Begins component tail)
    (fits : call.maxOutSize ≤ size) (room : (written kept).length + 1 < call.maxOutSize) :
    AgreeOrCut call ((written kept).length + component.length + 1)
      (fun next left => left.1 = tail ∧ Between call size next left.2)
      (walkNext call kept component) (handleComponent call (component ++ tail) w) := by
  unfold PathNormalizer.handleComponent walkNext
  rw [componentLength_append _ begins.separate begins.ends, bind_assoc]
  cases checked : checkComponent call.toChecks component with
  | error fault => exact .inr (.error fault)
  | ok _ =>
    simp only [ok_bind]
    rw [take_left, drop_left]
    by_cases current : component = currentDirectory
    · rw [if_pos ((isCurrentDirectory_append begins).2 current), resolveNext,
        if_pos (Or.inr current)]
      refine .inr (.ok ⟨rfl, ⟨⟨before.holds.text, before.holds.totalLen, before.holds.size⟩⟩, ?_⟩)
      exact before.separators.1.trans_lt room
    · rw [if_neg (mt (isCurrentDirectory_append begins).1 current)]
      by_cases parent : component = parentDirectory
      · rw [if_pos ((isParentDirectory_append begins).2 parent), parent]
        have removed := before.removeComponent call separate (by omega)
        refine .inr (removed.bind_right fun next w' resolved boundary => .ok ⟨rfl, boundary, ?_⟩)
        have shorter := length_written_parent (resolveNext_of_match resolved)
        have total := boundary.totalLen_le
        show w'.totalLen < call.maxOutSize
        omega
      · rw [if_neg (mt (isParentDirectory_append begins).1 parent)]
        rw [resolveNext_name ⟨begins.nonempty, current, parent⟩]
        obtain cut | ⟨w', copied, boundary, room'⟩ := before.copyComponent component fits room
        · exact .inl (cut.bind _)
        · rw [copied]
          exact .inr (.ok ⟨rfl, boundary, room'⟩)

/-! ## The loop -/

theorem walkNext_empty (call : Call) (kept : List Component) :
    walkNext call kept [] = .ok kept := by
  simp [walkNext, checkComponent, resolveNext]

theorem walk_nil (call : Call) (kept : List Component) :
    walk call kept (components []) = .ok kept := by
  rw [components_single not_mem_nil, walk, foldlM_cons, walkNext_empty]
  rfl

theorem walk_separator (call : Call) (kept : List Component) (rest : List UInt8) :
    walk call kept (components (directorySeparator :: rest)) =
      walk call kept (components rest) := by
  rw [components_separator, walk, foldlM_cons, walkNext_empty]
  rfl

theorem walk_dropWhile (call : Call) (kept : List Component) (rest : List UInt8) :
    walk call kept (components (rest.dropWhile (· = directorySeparator))) =
      walk call kept (components rest) := by
  induction rest with
  | nil => rfl
  | cons c rest ih =>
    by_cases separator : c = directorySeparator
    · rw [dropWhile_cons_of_pos (by simpa using separator), ih, separator, walk_separator]
    · rw [dropWhile_cons_of_neg (by simpa using separator)]

theorem walk_append (call : Call) (kept : List Component)
    (separate : directorySeparator ∉ component)
    (ends : tail = [] ∨ ∃ more, tail = directorySeparator :: more) :
    walk call kept (components (component ++ tail)) =
      (walkNext call kept component >>= fun next => walk call next (components tail)) := by
  rcases ends with rfl | ⟨more, rfl⟩
  · rw [append_nil, components_single separate]
    simp only [walk_nil]
    rw [walk, foldlM_cons]
    rfl
  · rw [components_append separate]
    simp only [walk_separator]
    rw [walk, foldlM_cons]
    rfl

/-- The rest of a path up to its next separator. -/
theorem exists_component (rest : List UInt8) :
    ∃ component tail, rest = component ++ tail ∧ directorySeparator ∉ component ∧
      (tail = [] ∨ ∃ more, tail = directorySeparator :: more) := by
  refine ⟨rest.takeWhile (· ≠ directorySeparator), rest.dropWhile (· ≠ directorySeparator),
    takeWhile_append_dropWhile.symm, ?_, ?_⟩
  · intro inside
    simpa using mem_takeWhile_imp inside
  · cases after : rest.dropWhile (· ≠ directorySeparator) with
    | nil => exact .inl rfl
    | cons d more =>
      have stopped := head_dropWhile_not (· ≠ directorySeparator)
        (by rw [after]; exact cons_ne_nil _ _)
      simp only [after, head_cons] at stopped
      exact .inr ⟨more, by simpa using stopped⟩

/-- What does not begin with a separator begins with a component. -/
theorem exists_begins {c : UInt8} {rest : List UInt8} (other : c ≠ directorySeparator)
    (unterminated : nullTerminator ∉ c :: rest) :
    ∃ component tail, c :: rest = component ++ tail ∧ Begins component tail := by
  obtain ⟨component, tail, split, separate, ends⟩ := exists_component (c :: rest)
  refine ⟨component, tail, split, ?_, separate, ?_, ends⟩
  · rintro rfl
    rcases ends with rfl | ⟨more, rfl⟩
    · cases split
    · exact other (cons.inj split).1
  · exact fun inside => unterminated (split ▸ mem_append_left _ inside)

theorem Separate.next {isWindowsPath : Bool} {kept next : List Component} {component : Component}
    (before : Separate kept) (separate : directorySeparator ∉ component)
    (resolved : resolveNext isWindowsPath kept component = some next) : Separate next := by
  intro other member
  rcases resolveNext_kept resolved member with old | ⟨rfl, -⟩
  · exact before other old
  · exact separate

theorem resolveNext_of_walkNext {kept next : List Component} {component : Component}
    (walked : walkNext call kept component = .ok next) :
    checkComponent call.toChecks component = .ok () ∧
      resolveNext call.isWindowsPath kept component = some next := by
  obtain ⟨_, checked, rest⟩ := bind_eq_ok.1 walked
  exact ⟨checked, resolveNext_of_match rest⟩

/-- What the loop leaves, for what the walk leaves. -/
structure Leaves (call : Call) (size : Nat) (next : List Component) (w : Writer) : Prop
    extends Between call size next w where
  separate : Separate next

/-- From between two components on, `fuel` rounds of the loop leave what the walk does, or the path
is cut off. -/
def GoesOn (call : Call) (size fuel : Nat) : Prop :=
  ∀ {kept : List Component} {w : Writer} {rest : List UInt8}, Between call size kept w →
    Separate kept → nullTerminator ∉ rest →
    (rest = [] ∨ ∃ more, rest = directorySeparator :: more) → rest.length ≤ fuel →
    AgreeOrCut call ((written kept).length + rest.length) (Leaves call size)
    (walk call kept (components rest)) (normalizeLoop call fuel rest w)

/-- A round that starts with a component goes on as the walk does. -/
theorem AtComponent.handleRest {size fuel : Nat} (fits : call.maxOutSize ≤ size)
    (onwards : GoesOn call size fuel)
    (before : AtComponent size kept w) (separate : Separate kept) {c : UInt8} {rest : List UInt8}
    (other : c ≠ directorySeparator) (unterminated : nullTerminator ∉ c :: rest)
    (enough : rest.length ≤ fuel) (room : (written kept).length + 1 < call.maxOutSize) :
    AgreeOrCut call ((written kept).length + (c :: rest).length + 1) (Leaves call size)
      (walk call kept (components (c :: rest)))
      (PathNormalizer.handleComponent call (c :: rest) w >>= fun left =>
        normalizeLoop call fuel left.1 left.2) := by
  obtain ⟨component, tail, split, begins⟩ := exists_begins other unterminated
  have lengths : rest.length + 1 = component.length + tail.length := by
    simpa using congrArg length split
  have positive := length_pos_iff.2 begins.nonempty
  rw [length_cons, lengths]
  rw [split] at unterminated ⊢
  rw [walk_append call kept begins.separate begins.ends]
  refine ((before.handleComponent separate begins fits room).mono (by omega)).bind ?_
  rintro next ⟨left, w'⟩ walked ⟨same, between⟩
  obtain rfl : left = tail := same
  have resolved := (resolveNext_of_walkNext walked).2
  have longer := length_written_next resolved
  exact (onwards between (separate.next begins.separate resolved)
    (fun inside => unterminated (mem_append_right _ inside)) begins.ends
    (by omega)).mono (by omega)

/-- The induction is on the rounds: each one takes a character at least. -/
theorem normalizeLoop_goesOn (fits : call.maxOutSize ≤ size)
    (fuel : Nat) : GoesOn call size fuel := by
  induction fuel with
  | zero =>
    intro kept w rest before separate unterminated separated enough
    obtain rfl := length_eq_zero_iff.1 (le_zero.1 enough)
    rw [walk_nil]
    exact .inr (.ok ⟨before, separate⟩)
  | succ fuel ih =>
    intro kept w rest before separate unterminated separated enough
    rcases separated with rfl | ⟨more, rfl⟩
    · rw [walk_nil]
      exact .inr (.ok ⟨before, separate⟩)
    · have skipped : (directorySeparator :: more).dropWhile (· = directorySeparator) =
          more.dropWhile (· = directorySeparator) := dropWhile_cons_of_pos (by simp)
      have shorter := length_dropWhile_le (· = directorySeparator) more
      rw [length_cons] at enough ⊢
      rw [← walk_dropWhile, normalizeLoop, normalizeRound, skipped,
        if_pos (by rfl : charAt (directorySeparator :: more) 0 = directorySeparator)]
      cases after : more.dropWhile (· = directorySeparator) with
      | nil =>
        rw [walk_nil]
        cases fuel <;> exact .inr (.ok ⟨before, separate⟩)
      | cons c rest =>
        rw [after, length_cons] at shorter
        have other : c ≠ directorySeparator := by
          have stopped := head_dropWhile_not (· = directorySeparator)
            (by rw [after]; exact cons_ne_nil _ _)
          simpa [after] using stopped
        have inside : c :: rest ⊆ directorySeparator :: more := by
          rw [← after]
          exact fun _ member => mem_cons_of_mem _ (dropWhile_subset _ member)
        obtain cut | ⟨room, w', put, component⟩ := before.boundary.putSeparator fits before.room
        · exact .inl (((cut.bind _).bind _).mono (by omega))
        · simp only [put, ok_bind]
          exact (component.handleRest fits ih separate other
            (fun member => unterminated (inside member)) (by omega) room).mono (by simp; omega)

end SumiEmu.FileSys.PathNormalizer
