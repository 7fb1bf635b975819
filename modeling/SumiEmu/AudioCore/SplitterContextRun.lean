/-
# The lists of the splitters

An update checks neither the ids of the destinations nor whether they are in a list already, and
of the ids of splitters and destinations it lets one too many through. Where the guest keeps to
what the checks leave out, each splitter has the list that its last header announces.
-/

import Mathlib.Data.List.Perm.Subperm
import SumiEmu.AudioCore.SplitterContext
import SumiEmu.Foundations.Linked

namespace SumiEmu.AudioCore

open Fallible Linking Function

namespace SplitterContext

variable {context context' shape : SplitterContext} {lists : Nat → List Nat} {ids l : List Nat}
  {next : Nat → Option Nat} {id d s : Nat} {head : Option Nat} {input : Input}

/-! ## Links -/

/-- The links. -/
def nexts (context : SplitterContext) (d : Nat) : Option Nat :=
  (context.splitterDestinations d).next

/-- All links are replaced. -/
def withNext (context : SplitterContext) (next : Nat → Option Nat) : SplitterContext :=
  { context with splitterDestinations := fun d =>
      { context.splitterDestinations d with next := next d } }

@[simp] theorem nexts_withNext : (context.withNext next).nexts = next := rfl

theorem data_of (inside : d < context.destinationsCount) :
    context.data d = .ok (context.splitterDestinations d) :=
  if_pos inside

theorem info_of (inside : s < context.infoCount) : context.info s = .ok (context.splitterInfos s) :=
  if_pos inside

theorem setNext_of (inside : d < context.destinationsCount) (value : Option Nat) :
    context.setNext d value = .ok (context.withNext (Function.update context.nexts d value)) := by
  rw [setNext, data_of inside, ok_bind]
  refine congrArg Except.ok ?_
  rw [setData, withNext]
  congr 1
  funext e
  by_cases same : e = d
  · rw [same, update_self, update_self]
  · rw [update_of_ne same, update_of_ne same]
    rfl

/-- A list is taken apart, and nothing else is. -/
theorem clearLoop_eq (linked : Linked context.nexts head l none)
    (inside : ∀ d ∈ l, d < context.destinationsCount)
    {rounds : Nat} (enough : l.length ≤ rounds) :
    clearLoop rounds head context =
      .ok (context.withNext fun d => if d ∈ l then none else context.nexts d) := by
  induction l generalizing context head rounds with
  | nil =>
    obtain rfl : head = none := linked
    have same : (fun d => if d ∈ [] then none else context.nexts d) = context.nexts := by
      funext d
      exact if_neg List.not_mem_nil
    rw [same, clearLoop]
    rfl
  | cons a l ih =>
    obtain ⟨rfl, rest⟩ := linked
    have fresh := (List.nodup_cons.mp (Linked.nodup ⟨rfl, rest⟩)).1
    have here := inside a List.mem_cons_self
    obtain ⟨rounds, rfl⟩ := Nat.exists_eq_succ_of_ne_zero
      (Nat.ne_of_gt (Nat.lt_of_lt_of_le (Nat.succ_pos _) enough))
    have rest' : Linked (context.withNext (Function.update context.nexts a none)).nexts
        (context.nexts a) l none := by
      refine rest.congr fun b mem => ?_
      have other : b ≠ a := fun same => fresh (same ▸ mem)
      exact update_of_ne other _ _
    rw [clearLoop, data_of here, ok_bind, setNext_of here, ok_bind]
    refine (ih rest' (fun d mem => inside d (List.mem_cons_of_mem a mem))
      (Nat.le_of_succ_le_succ enough)).trans ?_
    refine congrArg (fun next => Except.ok (context.withNext next)) (funext fun d => ?_)
    rw [nexts_withNext]
    by_cases same : d = a
    · rw [same, if_neg fresh, update_self, if_pos List.mem_cons_self]
    · simp only [update_of_ne same, List.mem_cons, same, false_or]

/-- Destinations that nothing follows are linked in order. -/
theorem linkLoop_eq (unique : (d :: ids).Nodup)
    (inside : ∀ e ∈ d :: ids, e < context.destinationsCount)
    (free : ∀ e ∈ d :: ids, context.nexts e = none) :
    ∃ next, linkLoop d ids context = .ok (context.withNext next) ∧
      Linked next (some d) (d :: ids) none ∧ ∀ e, e ∉ d :: ids → next e = context.nexts e := by
  induction ids generalizing context d with
  | nil => exact ⟨context.nexts, rfl, ⟨rfl, free d List.mem_cons_self⟩, fun _ _ => rfl⟩
  | cons a ids ih =>
    obtain ⟨fresh, unique'⟩ := List.nodup_cons.mp unique
    have here := inside d List.mem_cons_self
    have free' : ∀ e ∈ a :: ids,
        (context.withNext (Function.update context.nexts d (some a))).nexts e = none := by
      intro e mem
      have other : e ≠ d := fun same => fresh (same ▸ mem)
      rw [nexts_withNext, update_of_ne other]
      exact free e (List.mem_cons_of_mem d mem)
    have inside' : ∀ e ∈ a :: ids,
        e < (context.withNext (Function.update context.nexts d (some a))).destinationsCount :=
      fun e mem => inside e (List.mem_cons_of_mem d mem)
    obtain ⟨next, run, linked, same⟩ := ih unique' inside' free'
    have first : next d = some a := by
      rw [same d fresh, nexts_withNext, update_self]
    refine ⟨next, ?_, ⟨rfl, first.symm ▸ linked⟩, fun e outside => ?_⟩
    · rw [linkLoop, setNext_of here, ok_bind]
      exact run
    · rw [List.mem_cons, not_or] at outside
      exact (same e outside.2).trans (update_of_ne outside.1 _ _)

/-! ## Lists -/

/-- Each splitter has a list, no two have a destination in common, and what is in no list is linked
to nothing. -/
structure Holds (context : SplitterContext) (lists : Nat → List Nat) : Prop where
  linked : ∀ s, s < context.infoCount →
    Linked context.nexts (context.splitterInfos s).destinations (lists s) none
  inside : ∀ s, s < context.infoCount → ∀ d ∈ lists s, d < context.destinationsCount
  apart : ∀ s, s < context.infoCount → ∀ s', s' < context.infoCount → s ≠ s' →
    ∀ d ∈ lists s, d ∉ lists s'
  free : ∀ d, (∀ s, s < context.infoCount → d ∉ lists s) → context.nexts d = none
  count : ∀ s, s < context.infoCount → (lists s).length ≤ (context.splitterInfos s).destinationCount
  id : ∀ s, s < context.infoCount → (context.splitterInfos s).id = s

/-- What an update never changes. -/
structure SameShape (context shape : SplitterContext) : Prop where
  infoCount : context.infoCount = shape.infoCount
  destinationsCount : context.destinationsCount = shape.destinationsCount
  splitterBugFixed : context.splitterBugFixed = shape.splitterBugFixed

/-- A list that a splitter may be given: its destinations are there, each once, and in no other
list. -/
structure Fits (context : SplitterContext) (lists : Nat → List Nat) (s : Nat) (ids : List Nat) :
    Prop where
  splitter : s < context.infoCount
  nodup : ids.Nodup
  inside : ∀ d ∈ ids, d < context.destinationsCount
  apart : ∀ s', s' < context.infoCount → s' ≠ s → ∀ d ∈ ids, d ∉ lists s'

theorem Holds.length_le (holds : context.Holds lists) (inside : s < context.infoCount) :
    (lists s).length ≤ context.destinationsCount := by
  have unique := (holds.linked s inside).nodup
  have within : lists s ⊆ List.range context.destinationsCount :=
    fun d mem => List.mem_range.mpr (holds.inside s inside d mem)
  have le := (unique.subperm within).length_le
  rwa [List.length_range] at le

/-- A splitter gets another list, when its old one has been taken apart. -/
theorem Holds.replace (holds : context.Holds lists) (fits : context.Fits lists s ids)
    {info : SplitterInfo}
    (linked : Linked next info.destinations ids none)
    (same : ∀ d, d ∉ ids → next d = if d ∈ lists s then none else context.nexts d)
    (count : ids.length ≤ info.destinationCount) (id : info.id = s) :
    ((context.withNext next).setInfo s info).Holds (Function.update lists s ids) where
  linked := by
    intro t inside
    change Linked next (Function.update context.splitterInfos s info t).destinations _ none
    by_cases here : t = s
    · subst here
      rwa [update_self, update_self]
    · rw [update_of_ne here, update_of_ne here]
      refine (holds.linked t inside).congr fun d mem => ?_
      rw [same d fun mem' => fits.apart t inside here d mem' mem,
        if_neg (holds.apart t inside s fits.splitter here d mem)]
  inside := by
    intro t inside
    by_cases here : t = s
    · subst here
      rw [update_self]
      exact fits.inside
    · rw [update_of_ne here]
      exact holds.inside t inside
  apart := by
    intro t inside t' inside' other d
    by_cases here : t = s
    · subst here
      rw [update_self, update_of_ne other.symm]
      exact fits.apart t' inside' other.symm d
    · rw [update_of_ne here]
      by_cases here' : t' = s
      · subst here'
        rw [update_self]
        exact fun mem mem' => fits.apart t inside here d mem' mem
      · rw [update_of_ne here']
        exact holds.apart t inside t' inside' other d
  free := by
    intro d none
    have outside : d ∉ ids := by
      have := none s fits.splitter
      rwa [update_self] at this
    change next d = Option.none
    rw [same d outside]
    split_ifs with old
    · rfl
    · refine holds.free d fun t inside mem => ?_
      by_cases here : t = s
      · exact old (here ▸ mem)
      · have := none t inside
        rw [update_of_ne here] at this
        exact this mem
  count := by
    intro t inside
    change _ ≤ (Function.update context.splitterInfos s info t).destinationCount
    by_cases here : t = s
    · subst here
      rwa [update_self, update_self]
    · rw [update_of_ne here, update_of_ne here]
      exact holds.count t inside
  id := by
    intro t inside
    change (Function.update context.splitterInfos s info t).id = t
    by_cases here : t = s
    · subst here
      rwa [update_self]
    · rw [update_of_ne here]
      exact holds.id t inside

/-- The old list is taken apart and the new one linked. -/
theorem Holds.recompose (holds : context.Holds lists) (fits : context.Fits lists s ids) :
    ∃ context', context.recomposeDestination s ids = .ok context' ∧
      context'.Holds (Function.update lists s ids) ∧ context'.SameShape context := by
  have splitter := fits.splitter
  have cleared := clearLoop_eq (holds.linked s splitter) (holds.inside s splitter)
    (Nat.le_succ_of_le (holds.length_le splitter))
  rw [recomposeDestination, info_of splitter, ok_bind, cleared, ok_bind]
  generalize now : (fun d => if d ∈ lists s then none else context.nexts d) = old
  have gone (d : Nat) : old d = if d ∈ lists s then none else context.nexts d := by rw [← now]
  cases ids with
  | nil =>
    exact ⟨_, rfl, holds.replace fits rfl (fun d _ => gone d) (Nat.zero_le _) (holds.id s splitter),
      rfl, rfl, rfl⟩
  | cons head ids =>
    have free : ∀ d ∈ head :: ids, old d = none := by
      intro d mem
      rw [gone]
      split_ifs with before
      · rfl
      · refine holds.free d fun t inside mem' => ?_
        by_cases here : t = s
        · exact before (here ▸ mem')
        · exact fits.apart t inside here d mem mem'
    obtain ⟨next, run, linked, same⟩ : ∃ next, linkLoop head ids
          ((context.withNext old).setInfo s { context.splitterInfos s with destinations := none }) =
            .ok _ ∧
        Linked next (some head) (head :: ids) none ∧ ∀ d, d ∉ head :: ids → next d = old d :=
      linkLoop_eq fits.nodup fits.inside free
    refine ⟨(context.withNext next).setInfo s
      { context.splitterInfos s with
        destinations := some head, destinationCount := ids.length + 1 }, ?_,
      holds.replace fits linked (fun d outside => (same d outside).trans (gone d)) (Nat.le_refl _)
        (holds.id s splitter), rfl, rfl, rfl⟩
    dsimp only
    rw [run, ok_bind]
    -- the last write to the splitter hides the one before
    have hidden (i i' : SplitterInfo) : ((context.setInfo s i).setInfo s i') =
        context.setInfo s i' := by
      rw [setInfo, setInfo, setInfo, update_idem]
    exact congrArg (fun c : SplitterContext => Except.ok (c.withNext next)) (hidden _ _)

/-! ## Headers -/

/-- The splitters with headers in the input, each with the ids it is given, and where the headers
end. -/
def infoHeaders (shape : SplitterContext) (input : Input) : Nat → Nat → List (Nat × List Nat) × Nat
  | 0, offset => ([], offset)
  | splitters + 1, offset =>
    let header := SplitterInfo.InParameter.read input offset
    if header.magic ≠ splitterInfoMagic then infoHeaders shape input splitters offset
    else if header.id < 0 ∨ (shape.infoCount : Int) < header.id then ([], offset)
    else
      let rest := infoHeaders shape input splitters
        (u32 (offset + u32 (SplitterInfo.InParameter.size + 3 * 4 + header.destinationCount * 4)))
      ((header.id.toNat, destinationIds input offset (shape.destCount header)) :: rest.1, rest.2)

/-- The destinations with headers in the input. -/
def dataHeaders (shape : SplitterContext) (input : Input) : Nat → Nat → List Nat
  | 0, _ => []
  | count + 1, offset =>
    let header := SplitterDestinationData.InParameter.read input offset
    if header.magic ≠ splitterSendDataMagic then dataHeaders shape input count offset
    else if header.id < 0 ∨ (shape.destinationsCount : Int) < header.id
      then dataHeaders shape input count offset
    else header.id.toNat :: dataHeaders shape input count
      (u32 (offset + SplitterDestinationData.InParameter.size))

/-- Each splitter has the ids of its last header, and without one the ids it had. -/
def assign : (Nat → List Nat) → List (Nat × List Nat) → Nat → List Nat
  | lists, [] => lists
  | lists, (s, ids) :: headers => assign (Function.update lists s ids) headers

/-- Each header gives its splitter a list that fits beside those of the others at that point. -/
def AllFit (shape : SplitterContext) : (Nat → List Nat) → List (Nat × List Nat) → Prop
  | _, [] => True
  | lists, (s, ids) :: headers => shape.Fits lists s ids ∧
      shape.AllFit (Function.update lists s ids) headers

theorem SameShape.refl : context.SameShape context := ⟨rfl, rfl, rfl⟩

theorem SameShape.trans (first : context'.SameShape context) (second : context.SameShape shape) :
    context'.SameShape shape :=
  ⟨first.infoCount.trans second.infoCount, first.destinationsCount.trans second.destinationsCount,
    first.splitterBugFixed.trans second.splitterBugFixed⟩

theorem sameShape_setInfo (info : SplitterInfo) : (context.setInfo s info).SameShape context :=
  ⟨rfl, rfl, rfl⟩

theorem sameShape_setData (data : SplitterDestinationData) :
    (context.setData d data).SameShape context := ⟨rfl, rfl, rfl⟩

theorem SameShape.fits (same : context.SameShape shape) (fits : shape.Fits lists s ids) :
    context.Fits lists s ids where
  splitter := same.infoCount ▸ fits.splitter
  nodup := fits.nodup
  inside := same.destinationsCount ▸ fits.inside
  apart := same.infoCount ▸ fits.apart

theorem SameShape.destCount (same : context.SameShape shape) (header : SplitterInfo.InParameter) :
    context.destCount header = shape.destCount header := by
  rw [SplitterContext.destCount, SplitterContext.destCount, getDestCountPerInfoForCompat,
    getDestCountPerInfoForCompat, same.infoCount, same.destinationsCount, same.splitterBugFixed]

/-- What an update of a splitter or a destination keeps of a context. -/
theorem Holds.of_same (holds : context.Holds lists) (shape : context'.SameShape context)
    (nexts : context'.nexts = context.nexts)
    (infos : ∀ s, (context'.splitterInfos s).destinations = (context.splitterInfos s).destinations ∧
      (context'.splitterInfos s).destinationCount = (context.splitterInfos s).destinationCount ∧
      (context'.splitterInfos s).id = (context.splitterInfos s).id) : context'.Holds lists where
  linked := by
    intro s inside
    rw [nexts, (infos s).1]
    exact holds.linked s (shape.infoCount ▸ inside)
  inside := by
    rw [shape.infoCount, shape.destinationsCount]
    exact holds.inside
  apart := by
    rw [shape.infoCount]
    exact holds.apart
  free := by
    rw [shape.infoCount, nexts]
    exact holds.free
  count := by
    intro s inside
    rw [(infos s).2.1]
    exact holds.count s (shape.infoCount ▸ inside)
  id := by
    intro s inside
    rw [(infos s).2.2]
    exact holds.id s (shape.infoCount ▸ inside)

theorem Holds.clearNewConnectionFlags (holds : context.Holds lists) :
    context.clearNewConnectionFlags.Holds lists :=
  holds.of_same ⟨rfl, rfl, rfl⟩ rfl fun _ => ⟨rfl, rfl, rfl⟩

/-- A header leaves to its splitter what the lists are made of. -/
theorem Holds.setUpdated (holds : context.Holds lists) (header : SplitterInfo.InParameter) :
    (context.setInfo s ((context.splitterInfos s).update header).1).Holds lists := by
  refine holds.of_same ⟨rfl, rfl, rfl⟩ rfl fun t => ?_
  change (Function.update context.splitterInfos s _ t).destinations = _ ∧
    (Function.update context.splitterInfos s _ t).destinationCount = _ ∧
    (Function.update context.splitterInfos s _ t).id = _
  by_cases here : t = s
  · subst here
    rw [update_self, SplitterInfo.update]
    split_ifs
    · exact ⟨rfl, rfl, rfl⟩
    · exact ⟨rfl, rfl, rfl⟩
  · rw [update_of_ne here]
    exact ⟨rfl, rfl, rfl⟩

theorem update_next (data : SplitterDestinationData)
    (params : SplitterDestinationData.InParameter) : (data.update params).next = data.next := by
  rw [SplitterDestinationData.update]
  split_ifs
  · rfl
  · dsimp only
    split_ifs
    · rfl
    · rfl

theorem Holds.setUpdatedData (holds : context.Holds lists)
    (header : SplitterDestinationData.InParameter) :
    (context.setData d ((context.splitterDestinations d).update header)).Holds lists := by
  refine holds.of_same ⟨rfl, rfl, rfl⟩ (funext fun e => ?_) fun _ => ⟨rfl, rfl, rfl⟩
  change (Function.update context.splitterDestinations d _ e).next = _
  by_cases here : e = d
  · rw [here, update_self]
    exact update_next _ header
  · rw [update_of_ne here]
    rfl

/-- One header after the other, each splitter gets its list. -/
theorem updateInfo_eq (splitters offset : Nat) (holds : context.Holds lists)
    (same : context.SameShape shape)
    (fit : shape.AllFit lists (shape.infoHeaders input splitters offset).1) :
    ∃ context', updateInfo input splitters offset context =
        .ok (context', (shape.infoHeaders input splitters offset).2) ∧
      context'.Holds (assign lists (shape.infoHeaders input splitters offset).1) ∧
        context'.SameShape shape := by
  induction splitters generalizing offset context lists with
  | zero => exact ⟨context, rfl, holds, same⟩
  | succ splitters ih =>
    rw [infoHeaders] at fit ⊢
    rw [updateInfo, same.infoCount, same.destCount]
    dsimp only at fit ⊢
    split_ifs at fit ⊢ with magic outside
    · exact ih offset holds same fit
    · exact ⟨context, rfl, holds, same⟩
    · obtain ⟨fits, fit⟩ := fit
      obtain ⟨context₁, run, holds₁, same₁⟩ := holds.recompose (same.fits fits)
      have inside : (SplitterInfo.InParameter.read input offset).id.toNat < context₁.infoCount :=
        (same₁.trans same).fits fits |>.splitter
      have named : ((SplitterInfo.InParameter.read input offset).id.toNat : Int) =
          (SplitterInfo.InParameter.read input offset).id :=
        Int.toNat_of_nonneg (Int.not_lt.mp (not_or.mp outside).1)
      have size : ((context₁.splitterInfos
        (SplitterInfo.InParameter.read input offset).id.toNat).update
        (SplitterInfo.InParameter.read input offset)).2 =
          u32 (SplitterInfo.InParameter.size + 3 * 4 +
            (SplitterInfo.InParameter.read input offset).destinationCount * 4) := by
        rw [SplitterInfo.update, holds₁.id _ inside, named, if_neg (fun other => other rfl)]
      rw [run, ok_bind, info_of inside, ok_bind, size]
      exact ih _ (holds₁.setUpdated _) ((sameShape_setInfo _).trans (same₁.trans same)) fit

/-- Headers of destinations keep all lists. -/
theorem updateData_eq (count offset : Nat) (holds : context.Holds lists)
    (same : context.SameShape shape)
    (fit : ∀ d ∈ shape.dataHeaders input count offset, d < shape.destinationsCount) :
    ∃ result, updateData input count offset context = .ok result ∧ result.1.Holds lists ∧
      result.1.SameShape shape := by
  induction count generalizing offset context with
  | zero => exact ⟨_, rfl, holds, same⟩
  | succ count ih =>
    rw [dataHeaders] at fit
    rw [updateData, same.destinationsCount]
    dsimp only at fit ⊢
    split_ifs at fit ⊢ with magic outside
    · exact ih offset holds same fit
    · exact ih offset holds same fit
    · have inside := fit _ List.mem_cons_self
      rw [data_of (same.destinationsCount ▸ inside), ok_bind]
      exact ih _ (holds.setUpdatedData _) ((sameShape_setData _).trans same)
        fun d mem => fit d (List.mem_cons_of_mem _ mem)

/-! ## Updates -/

/-- Whether an update reads headers at all. -/
def Reads (context : SplitterContext) (input : Input) : Prop :=
  ¬(context.destinationsCount = 0 ∨ context.infoCount = 0) ∧
    (InParameterHeader.read input 0).magic = splitterInParamHeaderMagic

instance (context : SplitterContext) (input : Input) : Decidable (context.Reads input) :=
  inferInstanceAs (Decidable (_ ∧ _))

def inputInfos (context : SplitterContext) (input : Input) : List (Nat × List Nat) × Nat :=
  context.infoHeaders input (InParameterHeader.read input 0).infoCount InParameterHeader.size

def inputData (context : SplitterContext) (input : Input) : List Nat :=
  context.dataHeaders input (InParameterHeader.read input 0).destinationCount
    (context.inputInfos input).2

/-- The lists after an update. -/
def listsAfter (context : SplitterContext) (lists : Nat → List Nat) (input : Input) :
    Nat → List Nat :=
  if context.Reads input then assign lists (context.inputInfos input).1 else lists

/-- What the checks leave to the guest: no header is one of a splitter or of a destination that is
not there, and each list fits beside the others. -/
structure Admits (context : SplitterContext) (lists : Nat → List Nat) (input : Input) : Prop where
  infos : context.AllFit lists (context.inputInfos input).1
  data : ∀ d ∈ context.inputData input, d < context.destinationsCount

/-- The contexts that updates of such input lead to, with the lists of the splitters. -/
inductive Reached : SplitterContext → (Nat → List Nat) → Prop
  | start (infoCount destinationsCount : Nat) (splitterBugFixed : Bool) :
    Reached (initializeContext infoCount destinationsCount splitterBugFixed) fun _ => []
  | step {context : SplitterContext} {lists : Nat → List Nat} {input : Input} {updated : Updated}
    (before : Reached context lists) (admits : context.Reads input → context.Admits lists input)
    (run : context.update input = .ok updated) :
    Reached updated.context (context.listsAfter lists input)

theorem holds_initializeContext (infoCount destinationsCount : Nat) (splitterBugFixed : Bool) :
    (initializeContext infoCount destinationsCount splitterBugFixed).Holds fun _ => [] where
  linked := fun _ _ => rfl
  inside := fun _ _ _ mem => absurd mem List.not_mem_nil
  apart := fun _ _ _ _ _ _ mem => absurd mem List.not_mem_nil
  free := fun _ _ => rfl
  count := fun _ _ => Nat.zero_le _
  id := fun _ _ => rfl

theorem Holds.update (holds : context.Holds lists)
    (admits : context.Reads input → context.Admits lists input) :
    ∃ updated, context.update input = .ok updated ∧
      updated.context.Holds (context.listsAfter lists input) ∧
      updated.context.SameShape context := by
  rw [SplitterContext.update, listsAfter]
  dsimp only
  by_cases empty : context.destinationsCount = 0 ∨ context.infoCount = 0
  · rw [if_pos empty, if_neg fun reads => reads.1 empty]
    exact ⟨_, rfl, holds, SameShape.refl⟩
  · rw [if_neg empty]
    by_cases magic : (InParameterHeader.read input 0).magic = splitterInParamHeaderMagic
    · have reads : context.Reads input := ⟨empty, magic⟩
      have admits := admits reads
      have cleared : context.clearNewConnectionFlags.SameShape context := ⟨rfl, rfl, rfl⟩
      obtain ⟨context₁, run₁, holds₁, same₁⟩ :=
        updateInfo_eq (InParameterHeader.read input 0).infoCount InParameterHeader.size
        holds.clearNewConnectionFlags cleared admits.infos
      obtain ⟨result, run₂, holds₂, same₂⟩ :=
        updateData_eq (InParameterHeader.read input 0).destinationCount (context.inputInfos input).2
        holds₁ same₁ admits.data
      rw [if_neg (not_not_intro magic), if_pos reads, run₁, ok_bind]
      refine ⟨⟨result.1, true, u32 (alignUp result.2 0x10)⟩, ?_, holds₂, same₂⟩
      exact congrArg (· >>= _) run₂
    · rw [if_pos magic, if_neg fun reads => magic reads.2]
      exact ⟨_, rfl, holds, SameShape.refl⟩

theorem Reached.holds (reached : Reached context lists) : context.Holds lists := by
  induction reached with
  | start infoCount destinationsCount splitterBugFixed =>
    exact holds_initializeContext infoCount destinationsCount splitterBugFixed
  | step before admits run ih =>
    obtain ⟨updated, run', holds, -⟩ := ih.update admits
    cases run.symm.trans run'
    exact holds

/-- Where the guest keeps to what the checks leave out, an update reads and writes only splitters
and destinations that are there, and each splitter then has the list of its last header, linked in
order, as long at most as its count, and with no destination of another splitter. -/
theorem Reached.update_lists (reached : Reached context lists)
    (admits : context.Reads input → context.Admits lists input) :
    ∃ updated, context.update input = .ok updated ∧ updated.context.SameShape context ∧
      ∀ s, s < context.infoCount →
        Linked updated.context.nexts (updated.context.splitterInfos s).destinations
        (context.listsAfter lists input s) none ∧ (context.listsAfter lists input s).length ≤
        (updated.context.splitterInfos s).destinationCount ∧
        (∀ d ∈ context.listsAfter lists input s, d < context.destinationsCount) ∧
        ∀ s', s' < context.infoCount → s ≠ s' →
        ∀ d ∈ context.listsAfter lists input s, d ∉ context.listsAfter lists input s' := by
  obtain ⟨updated, run, holds, same⟩ := reached.holds.update admits
  refine ⟨updated, run, same, fun s inside => ?_⟩
  have inside' : s < updated.context.infoCount := same.infoCount ▸ inside
  refine ⟨holds.linked s inside', holds.count s inside', ?_, fun s' there other => ?_⟩
  · rw [← same.destinationsCount]
    exact holds.inside s inside'
  · exact holds.apart s inside' s' (same.infoCount ▸ there) other

/-! ## Inputs -/

/-- Memory that holds words of 32 bits. -/
def ofWords (words : List Nat) : Input :=
  fun i => BitVec.ofNat 8 (words.getD (i / 4) 0 / 0x100 ^ (i % 4))

/-- The words of a header. -/
def inputHeader (infoCount destinationCount : Nat) : List Nat :=
  [splitterInParamHeaderMagic, infoCount, destinationCount, 0, 0, 0, 0, 0]

/-- The words of a splitter. -/
def infoHeader (id : Nat) (ids : List Nat) : List Nat :=
  [splitterInfoMagic, id, 48000, ids.length] ++ ids ++ [0, 0, 0]

/-- The words of a destination. -/
def dataHeader (id : Nat) : List Nat := [splitterSendDataMagic, id] ++ List.replicate 26 0

def twoSplitters : Input :=
  ofWords (inputHeader 2 1 ++ infoHeader 0 [2, 0] ++ infoHeader 1 [1] ++ dataHeader 2)

theorem inputInfos_twoSplitters :
    ((initializeContext 2 3 true).inputInfos twoSplitters).1 = [(0, [2, 0]), (1, [1])] := by
  decide +kernel

theorem inputData_twoSplitters : (initializeContext 2 3 true).inputData twoSplitters = [2] := by
  decide +kernel

theorem admits_twoSplitters : (initializeContext 2 3 true).Admits (fun _ => []) twoSplitters where
  infos := by
    rw [inputInfos_twoSplitters]
    refine ⟨⟨by decide, by decide, by decide, fun _ _ _ _ _ => List.not_mem_nil⟩,
      ⟨by decide, by decide, by decide, ?_⟩, trivial⟩
    intro s inside other d mem mem'
    obtain rfl : s = 0 := by
      change s < 2 at inside
      omega
    rw [update_self] at mem'
    obtain rfl := List.mem_singleton.mp mem
    exact absurd mem' (by decide)
  data := by
    rw [inputData_twoSplitters]
    decide

theorem Reached.update_lists_twoSplitters :
    ∃ updated, (initializeContext 2 3 true).update twoSplitters = .ok updated ∧
      Linked updated.context.nexts (updated.context.splitterInfos 0).destinations [2, 0] none ∧
      Linked updated.context.nexts (updated.context.splitterInfos 1).destinations [1] none := by
  obtain ⟨updated, run, -, lists⟩ := Reached.update_lists (Reached.start 2 3 true) fun _ =>
    admits_twoSplitters
  have reads : (initializeContext 2 3 true).Reads twoSplitters := by decide +kernel
  rw [listsAfter, if_pos reads, inputInfos_twoSplitters] at lists
  exact ⟨updated, run, (lists 0 (by decide)).1, (lists 1 (by decide)).1⟩

/-- An id too many is let through for the splitters and for the destinations, a destination that
is not there is written to, and one that is named twice is linked to itself. -/
theorem update_breaks :
    (initializeContext 1 1 true).update (ofWords (inputHeader 1 0 ++ infoHeader 1 [])) =
    .error .outOfRange ∧
      (initializeContext 1 1 true).update (ofWords (inputHeader 0 1 ++ dataHeader 1)) =
      .error .outOfRange ∧ (initializeContext 1 1 true).update
      (ofWords (inputHeader 1 0 ++ infoHeader 0 [1, 0])) = .error .outOfRange ∧
      ∃ updated, (initializeContext 1 1 true).update
      (ofWords (inputHeader 1 0 ++ infoHeader 0 [0, 0])) = .ok updated ∧ ∀ l,
      ¬Linked updated.context.nexts (updated.context.splitterInfos 0).destinations l none := by
  refine ⟨rfl, rfl, rfl, _, rfl, fun l linked => ?_⟩
  have start : Linked _ (some 0) l none := linked
  refine not_linked_of_loop ?_ start
  rfl

end SplitterContext

end SumiEmu.AudioCore
