/-
# The state of a page

What the memory tracker knows of a page is one bit of each type. An operation changes the
bits of the pages that it reaches and of no others. The device tracker counts a page while
its untracked bit is clear: it is told one for a page that becomes tracked and minus one
for a page that stops being tracked.
-/

import SumiEmu.VideoCore.WordManager

namespace SumiEmu.VideoCore

/-- The five bits of a page. -/
@[ext]
structure PageState where
  cpu : Bool
  gpu : Bool
  cachedCpu : Bool
  untracked : Bool
  preflushable : Bool
deriving DecidableEq

namespace PageState

/-- A page that no operation has reached is modified by the CPU and not tracked. -/
def initial : PageState := ⟨true, false, false, true, false⟩

variable (s : PageState)

/-- Whether the page counts as modified: by the GPU only as long as it is tracked. -/
def modified : PageType → Bool
  | .cpu => s.cpu
  | .gpu => s.gpu && !s.untracked
  | .cachedCpu => s.cachedCpu
  | .untracked => s.untracked
  | .preflushable => s.preflushable

/-- A write of the CPU. -/
def markCpu : PageState := { s with cpu := true, untracked := true, cachedCpu := false }

/-- A cached write of a page that is modified anyway is forgotten with the modification. -/
def unmarkCpu : PageState :=
  { s with cpu := false, untracked := false, cachedCpu := s.cachedCpu && !s.cpu }

/-- A cached write of the CPU. -/
def writeCached : PageState := { s with cachedCpu := true, untracked := true }

/-- The cached write becomes a modification. -/
def flush : PageState :=
  { s with
    cpu := s.cpu || s.cachedCpu, untracked := s.untracked || s.cachedCpu, cachedCpu := false }

/-- Set or clear the bit of a type. -/
def change : PageType → Bool → PageState
  | .cpu, true => s.markCpu
  | .cpu, false => s.unmarkCpu
  | .gpu, enable => { s with gpu := enable }
  | .cachedCpu, true => s.writeCached
  | .cachedCpu, false => { s with cachedCpu := false, untracked := false }
  | .untracked, enable => { s with untracked := enable }
  | .preflushable, enable => { s with preflushable := enable }

/-- Turn off what counts as modified. -/
def clear : PageType → PageState
  | .gpu => { s with gpu := s.gpu && s.untracked }
  | type => s.change type false

theorem untracked_change {type : PageType} (writable : type ≠ .untracked) (enable : Bool) :
    (s.change type enable).untracked = if type.Tracks then enable else s.untracked := by
  cases type <;> cases enable <;> first | rfl | exact absurd rfl writable

theorem untracked_clear {type : PageType} (writable : type ≠ .untracked) :
    (s.clear type).untracked = if type.Tracks then false else s.untracked := by
  cases type <;> first | rfl | exact absurd rfl writable

end PageState

/-- The page is one of those that are counted up or down. -/
def Update.Covers (u : Update) (page : Nat) : Prop :=
  u.addr / bytesPerPage ≤ page ∧ page < (u.addr + u.size + bytesPerPage - 1) / bytesPerPage

instance (u : Update) (page : Nat) : Decidable (u.Covers page) :=
  inferInstanceAs (Decidable (_ ∧ _))

/-- The deltas that the device tracker is told for a page. -/
def deltas (log : List Update) (page : Nat) : List Int :=
  (log.filter fun u => u.Covers page).map Update.delta

/-- What is told when the untracked bit of a page changes. -/
def transition (before after : Bool) : List Int :=
  if before = after then [] else if after then [-1] else [1]

/-- A change of a page together with what is told about it. -/
def notified (G : PageState → PageState) (v : PageState × List Int) : PageState × List Int :=
  (G v.1, v.2 ++ transition v.1.untracked (G v.1).untracked)

theorem deltas_append (log : List Update) (u : Update) (page : Nat) :
    deltas (log ++ [u]) page = deltas log page ++ if u.Covers page then [u.delta] else [] := by
  rw [deltas, List.filter_append, List.map_append]
  congr 1
  by_cases covers : u.Covers page
  · simp [covers]
  · simp [covers]

theorem transition_self (tracking : Bool) : transition tracking tracking = [] := if_pos rfl

theorem notified_of_eq {G : PageState → PageState} {v : PageState × List Int} (same : G v.1 = v.1) :
    notified G v = v := by
  rw [notified, same, transition_self, List.append_nil]

/-- A flushed page has nothing left to flush. -/
theorem notified_flush_flush (v : PageState × List Int) :
    notified PageState.flush (notified PageState.flush v) = notified PageState.flush v := by
  apply notified_of_eq
  simp [notified, PageState.flush]

end SumiEmu.VideoCore
