/-
# Runs of the syncpoint manager

In every reachable state each registered action is in exactly one place: with the
thread that registers it, among the stored actions, or among those that were run.
An action that is stored although the counter has reached its value is covered: a
thread that incremented the counter at least that far has not finished its call.
-/

import SumiEmu.VideoCore.SyncpointManager

namespace SumiEmu.VideoCore.SyncpointManager

open Function List

variable {τ α : Type*} [DecidableEq τ] {s s' : SyncpointManager τ α}

section Lock

variable {guard : Option τ} {pcs : τ → Pc α} {t : τ} {pc : Pc α}

/-- The lock belongs to the thread that is in a section that it protects. -/
def Guarded (guard : Option τ) (pcs : τ → Pc α) : Prop := ∀ t, guard = some t ↔ (pcs t).Locked

theorem Guarded.move (guarded : Guarded guard pcs) (same : pc.Locked ↔ (pcs t).Locked) :
    Guarded guard (update pcs t pc) := by
  intro t'
  by_cases here : t' = t
  · rw [here, update_self, same]
    exact guarded t
  · rw [update_of_ne here]
    exact guarded t'

theorem Guarded.lock (guarded : Guarded none pcs) (locked : pc.Locked) :
    Guarded (some t) (update pcs t pc) := by
  intro t'
  by_cases here : t' = t
  · rw [here, update_self]
    exact iff_of_true rfl locked
  · rw [update_of_ne here]
    refine iff_of_false (fun same => here (Option.some.inj same).symm) fun locked' => ?_
    cases (guarded t').mpr locked'

theorem Guarded.unlock (guarded : Guarded guard pcs) (held : (pcs t).Locked)
    (unlocked : ¬ pc.Locked) : Guarded none (update pcs t pc) := by
  have owner : guard = some t := (guarded t).mpr held
  intro t'
  by_cases here : t' = t
  · rw [here, update_self]
    exact iff_of_false (by simp) unlocked
  · rw [update_of_ne here, ← guarded t', owner]
    exact iff_of_false (by simp) fun same => here (Option.some.inj same).symm

end Lock

section Ledger

variable {registered : α → Option Nat} {waiting : τ → Option (RegisteredAction α)}
  {done done' : List α} {t : τ} {r : RegisteredAction α}

/-- Each registered action is with one thread or done, once. -/
structure Ledger (registered : α → Option Nat) (waiting : τ → Option (RegisteredAction α))
    (done : List α) : Prop where
  nodup : done.Nodup
  known : ∀ a ∈ done, registered a ≠ none
  held : ∀ t r, waiting t = some r →
    registered r.action = some r.expectedValue ∧ r.action ∉ done
  once : ∀ t t' r r', waiting t = some r → waiting t' = some r' → r.action = r'.action → t = t'
  complete : ∀ a, registered a ≠ none → a ∈ done ∨ ∃ t r, waiting t = some r ∧ r.action = a

omit [DecidableEq τ] in
theorem Ledger.perm (ledger : Ledger registered waiting done) (perm : done.Perm done') :
    Ledger registered waiting done' where
  nodup := perm.nodup_iff.mp ledger.nodup
  known a member := ledger.known a (perm.mem_iff.mpr member)
  held t r here := by
    rw [← perm.mem_iff]
    exact ledger.held t r here
  once := ledger.once
  complete a known := by
    rw [← perm.mem_iff]
    exact ledger.complete a known

/-- A thread begins to register a new action. -/
theorem Ledger.register [DecidableEq α] (ledger : Ledger registered waiting done)
    (fresh : registered r.action = none) (idle : waiting t = none) :
    Ledger (update registered r.action (some r.expectedValue))
      (update waiting t (some r)) done := by
  have kept : ∀ a, registered a ≠ none →
      update registered r.action (some r.expectedValue) a = registered a := by
    intro a known
    refine update_of_ne ?_ ..
    rintro rfl
    exact known fresh
  have other : ∀ t' r', waiting t' = some r' → r'.action ≠ r.action := by
    rintro t' r' here same
    rw [← same, (ledger.held t' r' here).1] at fresh
    cases fresh
  refine ⟨ledger.nodup, fun a member => ?_, fun t' r' here => ?_,
    fun t₁ t₂ r₁ r₂ first second same => ?_, fun a known => ?_⟩
  · rw [kept a (ledger.known a member)]
    exact ledger.known a member
  · by_cases this : t' = t
    · rw [this, update_self] at here
      cases here
      rw [update_self]
      exact ⟨rfl, fun member => ledger.known _ member fresh⟩
    · rw [update_of_ne this] at here
      obtain ⟨known, away⟩ := ledger.held t' r' here
      rw [update_of_ne (other t' r' here)]
      exact ⟨known, away⟩
  · by_cases this₁ : t₁ = t <;> by_cases this₂ : t₂ = t
    · rw [this₁, this₂]
    · rw [this₁, update_self] at first
      rw [update_of_ne this₂] at second
      cases first
      exact absurd same.symm (other t₂ r₂ second)
    · rw [update_of_ne this₁] at first
      rw [this₂, update_self] at second
      cases second
      exact absurd same (other t₁ r₁ first)
    · rw [update_of_ne this₁] at first
      rw [update_of_ne this₂] at second
      exact ledger.once t₁ t₂ r₁ r₂ first second same
  · by_cases this : a = r.action
    · exact .inr ⟨t, r, update_self .., this.symm⟩
    · rw [update_of_ne this] at known
      rcases ledger.complete a known with member | ⟨t', r', here, same⟩
      · exact .inl member
      · refine .inr ⟨t', r', ?_, same⟩
        rw [update_of_ne, here]
        rintro rfl
        cases idle.symm.trans here

/-- A thread is done with its action. -/
theorem Ledger.finish (ledger : Ledger registered waiting done) (here : waiting t = some r) :
    Ledger registered (update waiting t none) (r.action :: done) := by
  obtain ⟨known, fresh⟩ := ledger.held t r here
  refine ⟨nodup_cons.mpr ⟨fresh, ledger.nodup⟩, fun a member => ?_, fun t' r' there => ?_,
    fun t₁ t₂ r₁ r₂ first second same => ?_, fun a known' => ?_⟩
  · rcases mem_cons.mp member with rfl | older
    · rw [known]
      simp
    · exact ledger.known a older
  · by_cases this : t' = t
    · rw [this, update_self] at there
      cases there
    · rw [update_of_ne this] at there
      obtain ⟨known', away⟩ := ledger.held t' r' there
      refine ⟨known', fun member => ?_⟩
      rcases mem_cons.mp member with same | older
      · exact this (ledger.once t' t r' r there here same)
      · exact away older
  · have this₁ : t₁ ≠ t := by
      rintro rfl
      rw [update_self] at first
      cases first
    have this₂ : t₂ ≠ t := by
      rintro rfl
      rw [update_self] at second
      cases second
    rw [update_of_ne this₁] at first
    rw [update_of_ne this₂] at second
    exact ledger.once t₁ t₂ r₁ r₂ first second same
  · rcases ledger.complete a known' with member | ⟨t', r', there, same⟩
    · exact .inl (mem_cons_of_mem _ member)
    · by_cases this : t' = t
      · rw [this, here] at there
        cases there
        exact .inl (same ▸ mem_cons_self)
      · exact .inr ⟨t', r', by rw [update_of_ne this, there], same⟩

end Ledger

section Coverage

variable {pcs : τ → Pc α} {storage : List (RegisteredAction α)} {value n : Nat} {t : τ} {pc : Pc α}

/-- A thread has incremented the counter to a value and not yet finished its call. -/
def Covers (pcs : τ → Pc α) (value : Nat) : Prop :=
  ∃ t n, (pcs t).newValue = some n ∧ value ≤ n

/-- What is due but still stored, or about to be stored, is covered. -/
structure Covered (pcs : τ → Pc α) (storage : List (RegisteredAction α)) (value : Nat) : Prop where
  stored : ∀ r ∈ storage, r.expectedValue ≤ value → Covers pcs r.expectedValue
  storing : ∀ t e a, pcs t = .registerStoring e a → e ≤ value → Covers pcs e
  bounded : ∀ t n, (pcs t).newValue = some n → n ≤ value

/-- A thread that keeps its value, or has none, moves. -/
theorem Covers.move (covers : Covers pcs n)
    (same : (pcs t).newValue = none ∨ pc.newValue = (pcs t).newValue) :
    Covers (update pcs t pc) n := by
  obtain ⟨t', m, here, large⟩ := covers
  refine ⟨t', m, ?_, large⟩
  by_cases this : t' = t
  · subst this
    rw [update_self]
    rcases same with none | same
    · cases none.symm.trans here
    · rw [same, here]
  · rw [update_of_ne this, here]

section

variable (covered : Covered pcs storage value)

include covered

/-- A thread that has no value of its own to finish moves. -/
theorem Covered.move (same : pc.newValue = (pcs t).newValue)
    (storing : ∀ e a, pc = .registerStoring e a → value < e) :
    Covered (update pcs t pc) storage value := by
  refine ⟨fun r member due => (covered.stored r member due).move (.inr same),
    fun t' e a here due => ?_, fun t' n here => ?_⟩
  · by_cases this : t' = t
    · rw [this, update_self] at here
      exact absurd due (not_le.mpr (storing e a here))
    · rw [update_of_ne this] at here
      exact (covered.storing t' e a here due).move (.inr same)
  · by_cases this : t' = t
    · rw [this, update_self, same] at here
      exact covered.bounded t n here
    · rw [update_of_ne this] at here
      exact covered.bounded t' n here

/-- The thread that increments the counter covers the value it has reached. -/
theorem Covered.fetchAdd (before : (pcs t).newValue = none) :
    Covered (update pcs t (.incrementLocking (value + 1))) storage (value + 1) := by
  have here : Covers (update pcs t (.incrementLocking (value + 1))) (value + 1) :=
    ⟨t, value + 1, by rw [update_self]; rfl, le_rfl⟩
  have due : ∀ n, n ≤ value + 1 → (n ≤ value → Covers pcs n) →
      Covers (update pcs t (.incrementLocking (value + 1))) n := by
    intro n small earlier
    rcases Nat.le_succ_iff.mp small with older | rfl
    · exact (earlier older).move (.inl before)
    · exact here
  refine ⟨fun r member small => due _ small (covered.stored r member), fun t' e a there small => ?_,
    fun t' n there => ?_⟩
  · by_cases this : t' = t
    · rw [this, update_self] at there
      cases there
    · rw [update_of_ne this] at there
      exact due e small (covered.storing t' e a there)
  · by_cases this : t' = t
    · rw [this, update_self] at there
      cases there
      exact le_rfl
    · rw [update_of_ne this] at there
      exact (covered.bounded t' n there).trans (Nat.le_succ value)

/-- Storing an action that is covered. -/
theorem Covered.store {e : Nat} {a : α} (here : pcs t = .registerStoring e a) :
    Covered (update pcs t .idle) (emplace storage ⟨e, a⟩) value := by
  have moved : Covered (update pcs t .idle) storage value :=
    covered.move (by rw [here]; rfl) (fun _ _ absurdity => by cases absurdity)
  refine ⟨fun r member due => ?_, moved.storing, moved.bounded⟩
  rcases (mem_orderedInsert _).mp member with rfl | older
  · exact (covered.storing t e a here due).move (.inl (by rw [here]; rfl))
  · exact moved.stored r older due

/-- A thread finishes when nothing that it covers is left. -/
theorem Covered.unlock (here : (pcs t).newValue = some n)
    (later : ∀ r ∈ storage, n < r.expectedValue)
    (alone : ∀ t' e a, pcs t' ≠ .registerStoring e a) :
    Covered (update pcs t .idle) storage value := by
  refine ⟨fun r member due => ?_, fun t' e a there => ?_, fun t' m there => ?_⟩
  · obtain ⟨t', m, there, large⟩ := covered.stored r member due
    refine ⟨t', m, ?_, large⟩
    rw [update_of_ne, there]
    rintro rfl
    cases here.symm.trans there
    exact absurd large (not_le.mpr (later r member))
  · by_cases this : t' = t
    · rw [this, update_self] at there
      cases there
    · rw [update_of_ne this] at there
      exact absurd there (alone t' e a)
  · by_cases this : t' = t
    · rw [this, update_self] at there
      cases there
    · rw [update_of_ne this] at there
      exact covered.bounded t' m there

end

end Coverage

section Consistency

variable [DecidableEq α]

instance : Std.Total (RegisteredAction.Earlier (α := α)) :=
  ⟨fun x y => le_total x.expectedValue y.expectedValue⟩

instance : IsTrans (RegisteredAction α) RegisteredAction.Earlier := ⟨fun _ _ _ => le_trans⟩

/-- The actions that no thread has to take care of any more. -/
def settled (s : SyncpointManager τ α) : List α :=
  s.executed.map Prod.fst ++ s.actionStorage.map RegisteredAction.action

/-- What holds between any two steps of any threads. -/
structure Consistent (s : SyncpointManager τ α) : Prop where
  guarded : Guarded s.guard s.pcs
  sorted : s.actionStorage.Pairwise RegisteredAction.Earlier
  ledger : Ledger s.registered (fun t => (s.pcs t).registers) s.settled
  stored : ∀ r ∈ s.actionStorage, s.registered r.action = some r.expectedValue
  executed : ∀ a v, (a, v) ∈ s.executed → v ≤ s.syncpoint ∧ ∃ e ≤ v, s.registered a = some e
  covered : Covered s.pcs s.actionStorage s.syncpoint

variable {t : τ} {pc : Pc α}

omit [DecidableEq α] in
theorem registers_goto : (fun t' => (update s.pcs t pc t').registers) =
    update (fun t' => (s.pcs t').registers) t pc.registers := by
  funext t'
  exact apply_update (fun _ => Pc.registers) ..

omit [DecidableEq α] in
/-- A thread moves that registers the same action as before. -/
theorem Consistent.ledger_move (consistent : s.Consistent)
    (same : pc.registers = (s.pcs t).registers) :
    Ledger s.registered (fun t' => (update s.pcs t pc t').registers) s.settled := by
  rw [registers_goto, same, update_eq_self]
  exact consistent.ledger

/-- A thread begins to register a new action. -/
theorem Consistent.ledger_register {e : Nat} {a : α} (pc : Pc α) (consistent : s.Consistent)
    (idle : (s.pcs t).registers = none) (fresh : s.registered a = none)
    (starts : pc.registers = some ⟨e, a⟩) :
    Ledger (update s.registered a (some e))
      (fun t' => (update s.pcs t pc t').registers) s.settled := by
  rw [registers_goto, starts]
  exact consistent.ledger.register (r := ⟨e, a⟩) fresh idle

omit [DecidableEq α] in
/-- A thread is done with the action that it registers. -/
theorem Consistent.ledger_finish {e : Nat} {a : α} (consistent : s.Consistent)
    (here : (s.pcs t).registers = some ⟨e, a⟩) (finished : pc.registers = none) :
    Ledger s.registered (fun t' => (update s.pcs t pc t').registers) (a :: s.settled) := by
  rw [registers_goto, finished]
  exact consistent.ledger.finish here

omit [DecidableEq τ] [DecidableEq α] in
/-- An action that is due is run. -/
theorem Consistent.executed_execute {e : Nat} {a : α} (consistent : s.Consistent)
    (known : s.registered a = some e) (reached : e ≤ s.syncpoint) :
    ∀ b v, (b, v) ∈ (s.execute a).executed → v ≤ s.syncpoint ∧
      ∃ e ≤ v, s.registered b = some e := by
  intro b v member
  rcases mem_cons.mp member with same | older
  · cases same
    exact ⟨le_rfl, e, reached, known⟩
  · exact consistent.executed b v older

omit [DecidableEq τ] [DecidableEq α] in
/-- The thread at the lock is the only one that could store an action. -/
theorem Consistent.alone (consistent : s.Consistent) (locked : (s.pcs t).Locked)
    (away : ∀ e a, s.pcs t ≠ .registerStoring e a) : ∀ t' e a, s.pcs t' ≠ .registerStoring e a := by
  intro t' e a storing
  have owner : s.guard = some t' := (consistent.guarded t').mpr (by rw [storing]; trivial)
  have same : some t' = some t := owner.symm.trans ((consistent.guarded t).mpr locked)
  cases same
  exact away e a storing

omit [DecidableEq α] in
/-- A thread moves that keeps its action and its value. -/
theorem Consistent.goto (consistent : s.Consistent) {guard : Option τ}
    (guarded : Guarded guard (update s.pcs t pc)) (registers : pc.registers = (s.pcs t).registers)
    (value : pc.newValue = (s.pcs t).newValue)
    (storing : ∀ e a, pc = .registerStoring e a → s.syncpoint < e) :
    Consistent { s.goto t pc with guard } where
  guarded := guarded
  sorted := consistent.sorted
  ledger := consistent.ledger_move registers
  stored := consistent.stored
  executed := consistent.executed
  covered := consistent.covered.move value storing

/-- Every step of every thread keeps the state consistent. -/
theorem Consistent.step (consistent : s.Consistent) (step : Step s s') : s'.Consistent := by
  cases step with
  | register t e a at' fresh =>
    refine ⟨?_, consistent.sorted, ?_, fun r member => ?_, fun b v member => ?_, ?_⟩
    · exact consistent.guarded.move (by rw [at']; rfl)
    · exact consistent.ledger_register (.registering e a) (by rw [at']; rfl) fresh rfl
    · have known := consistent.stored r member
      show update s.registered a (some e) r.action = _
      rw [update_of_ne, known]
      intro same
      cases (same ▸ fresh).symm.trans known
    · obtain ⟨bound, e', small, known⟩ := consistent.executed b v member
      refine ⟨bound, e', small, ?_⟩
      show update s.registered a (some e) b = _
      rw [update_of_ne, known]
      rintro rfl
      cases fresh.symm.trans known
    · exact consistent.covered.move (by rw [at']; rfl) (fun _ _ absurdity => by cases absurdity)
  | registerReached t e a at' reached =>
    have here : (s.pcs t).registers = some ⟨e, a⟩ := by rw [at']; rfl
    exact {
      guarded := consistent.guarded.move (by rw [at']; rfl)
      sorted := consistent.sorted
      ledger := consistent.ledger_finish here rfl
      stored := consistent.stored
      executed := consistent.executed_execute (consistent.ledger.held t _ here).1 reached
      covered := consistent.covered.move (by rw [at']; rfl)
        (fun _ _ absurdity => by cases absurdity) }
  | registerNotReached t e a at' early =>
    exact consistent.goto (consistent.guarded.move (by rw [at']; rfl)) (by rw [at']; rfl)
      (by rw [at']; rfl) fun _ _ absurdity => by cases absurdity
  | registerLock t e a at' free =>
    exact consistent.goto ((free ▸ consistent.guarded).lock trivial) (by rw [at']; rfl)
      (by rw [at']; rfl) fun _ _ absurdity => by cases absurdity
  | registerLockedReached t e a at' reached =>
    have here : (s.pcs t).registers = some ⟨e, a⟩ := by rw [at']; rfl
    exact {
      guarded := consistent.guarded.unlock (by rw [at']; trivial) id
      sorted := consistent.sorted
      ledger := consistent.ledger_finish here rfl
      stored := consistent.stored
      executed := consistent.executed_execute (consistent.ledger.held t _ here).1 reached
      covered := consistent.covered.move (by rw [at']; rfl)
        (fun _ _ absurdity => by cases absurdity) }
  | registerLockedNotReached t e a at' early =>
    refine consistent.goto (consistent.guarded.move (by rw [at']; rfl)) (by rw [at']; rfl)
      (by rw [at']; rfl) fun e' a' same => ?_
    cases same
    exact early
  | registerStore t e a at' =>
    have here : (s.pcs t).registers = some ⟨e, a⟩ := by rw [at']; rfl
    have known : s.registered a = some e := (consistent.ledger.held t _ here).1
    have inserted : (a :: s.actionStorage.map RegisteredAction.action).Perm
        ((emplace s.actionStorage ⟨e, a⟩).map RegisteredAction.action) :=
      ((perm_orderedInsert RegisteredAction.Earlier ⟨e, a⟩ s.actionStorage).map
        RegisteredAction.action).symm
    have perm : (a :: s.settled).Perm (s.executed.map Prod.fst ++
        (emplace s.actionStorage ⟨e, a⟩).map RegisteredAction.action) :=
      perm_middle.symm.trans (inserted.append_left _)
    refine {
      guarded := consistent.guarded.unlock (by rw [at']; trivial) id
      sorted := consistent.sorted.orderedInsert _ _
      ledger := (consistent.ledger_finish here rfl).perm perm
      stored := fun r member => ?_
      executed := consistent.executed
      covered := consistent.covered.store at' }
    rcases (mem_orderedInsert _).mp member with rfl | older
    · exact known
    · exact consistent.stored r older
  | increment t at' =>
    exact consistent.goto (consistent.guarded.move (by rw [at']; rfl)) (by rw [at']; rfl)
      (by rw [at']; rfl) fun _ _ absurdity => by cases absurdity
  | incrementFetchAdd t at' =>
    refine {
      guarded := consistent.guarded.move (by rw [at']; rfl)
      sorted := consistent.sorted
      ledger := consistent.ledger_move (by rw [at']; rfl)
      stored := consistent.stored
      executed := fun a v member => ?_
      covered := consistent.covered.fetchAdd (by rw [at']; rfl) }
    obtain ⟨bound, e, small, known⟩ := consistent.executed a v member
    exact ⟨bound.trans (Nat.le_succ _), e, small, known⟩
  | incrementLock t n at' free =>
    exact consistent.goto ((free ▸ consistent.guarded).lock trivial) (by rw [at']; rfl)
      (by rw [at']; rfl) fun _ _ absurdity => by cases absurdity
  | incrementRun t n r rest at' first due =>
    have kept : ∀ r' ∈ rest, r' ∈ s.actionStorage :=
      fun r' member => first ▸ mem_cons_of_mem r member
    have small : n ≤ s.syncpoint := consistent.covered.bounded t n (by rw [at']; rfl)
    have known := consistent.stored r (first ▸ mem_cons_self)
    have settled : s.settled = s.executed.map Prod.fst ++ r.action ::
        rest.map RegisteredAction.action := by
      rw [SyncpointManager.settled, first, map_cons]
    exact {
      guarded := consistent.guarded
      sorted := (pairwise_cons.mp (first ▸ consistent.sorted)).2
      ledger := consistent.ledger.perm (settled ▸ perm_middle)
      stored := fun r' member => consistent.stored r' (kept r' member)
      executed := consistent.executed_execute known (due.trans small)
      covered := ⟨fun r' member => consistent.covered.stored r' (kept r' member),
        consistent.covered.storing, consistent.covered.bounded⟩ }
  | incrementUnlock t n at' none' =>
    have locked : (s.pcs t).Locked := by rw [at']; trivial
    refine {
      guarded := consistent.guarded.unlock locked id
      sorted := consistent.sorted
      ledger := consistent.ledger_move (by rw [at']; rfl)
      stored := consistent.stored
      executed := consistent.executed
      covered := consistent.covered.unlock (n := n) (by rw [at']; rfl) (fun r member => ?_)
        (consistent.alone locked fun e a absurdity => by cases at'.symm.trans absurdity) }
    -- the stored actions are sorted, so the first one is due first
    cases first : s.actionStorage with
    | nil => rw [first] at member; cases member
    | cons r' rest =>
      have later := none' r' rest first
      rw [first] at member
      rcases mem_cons.mp member with rfl | member
      · exact later
      · exact later.trans_le ((pairwise_cons.mp (first ▸ consistent.sorted)).1 r member)

omit [DecidableEq τ] [DecidableEq α] in
/-- A syncpoint that nobody has used is consistent. -/
theorem consistent_start (start : Nat) : Consistent (τ := τ) (α := α) { syncpoint := start } where
  guarded t := iff_of_false (by simp) id
  sorted := .nil
  ledger := ⟨.nil, fun _ member => (by cases member), fun _ _ here => (by cases here),
    fun _ _ _ _ here => (by cases here), fun _ known => absurd rfl known⟩
  stored r member := by cases member
  executed a v member := by cases member
  covered := ⟨fun _ member => (by cases member), fun _ _ _ here => (by cases here),
    fun _ _ here => (by cases here)⟩

theorem Consistent.run (consistent : s.Consistent) (run : Relation.ReflTransGen Step s s') :
    s'.Consistent := by
  induction run with
  | refl => exact consistent
  | tail _ step ih => exact ih.step step

theorem Reachable.consistent (reachable : s.Reachable) : s.Consistent := by
  obtain ⟨start, run⟩ := reachable
  exact (consistent_start start).run run

/-- What was run stays run. -/
theorem Step.executed_subset (step : Step s s') : s.executed ⊆ s'.executed := by
  cases step with
  | registerReached | registerLockedReached | incrementRun => exact subset_cons_self ..
  | _ => exact List.Subset.refl _

theorem executed_subset (run : Relation.ReflTransGen Step s s') : s.executed ⊆ s'.executed := by
  induction run with
  | refl => exact List.Subset.refl _
  | tail _ step ih => exact List.Subset.trans ih step.executed_subset

/-- A thread in the loop of an increment stays in it until no action that is due is left. -/
theorem Step.incrementing {t : τ} {n : Nat} {r : RegisteredAction α} (consistent : s.Consistent)
    (step : Step s s') (here : (s.pcs t).newValue = some n) (stored : r ∈ s.actionStorage)
    (due : r.expectedValue ≤ n) :
    (r ∈ s'.actionStorage ∧ (s'.pcs t).newValue = some n) ∨ ∃ v, (r.action, v) ∈ s'.executed := by
  have away : ∀ {t' : τ} {pc : Pc α}, (s.pcs t').newValue = none →
      (update s.pcs t' pc t).newValue = some n := by
    intro t' pc none
    rw [update_of_ne, here]
    rintro rfl
    cases none.symm.trans here
  have kept : ∀ {t' : τ} {pc : Pc α}, pc.newValue = (s.pcs t').newValue →
      (update s.pcs t' pc t).newValue = some n := by
    intro t' pc same
    by_cases this : t = t'
    · subst this
      rw [update_self, same, here]
    · rw [update_of_ne this, here]
  cases step with
  | registerStore t' e a at' =>
    exact .inl ⟨(mem_orderedInsert _).mpr (.inr stored), away (by rw [at']; rfl)⟩
  | incrementLock t' m at' free => exact .inl ⟨stored, kept (by rw [at']; rfl)⟩
  | incrementRun t' m r' rest at' first due' =>
    rw [first] at stored
    rcases mem_cons.mp stored with rfl | later
    · exact .inr ⟨s.syncpoint, mem_cons_self⟩
    · exact .inl ⟨later, here⟩
  | incrementUnlock t' m at' none' =>
    by_cases this : t = t'
    · subst this
      rw [at'] at here
      cases here
      cases first : s.actionStorage with
      | nil => rw [first] at stored; cases stored
      | cons r' rest =>
        have later := none' r' rest first
        rw [first] at stored
        rcases mem_cons.mp stored with rfl | member
        · exact absurd due (not_le.mpr later)
        · exact absurd due (not_le.mpr
            (later.trans_le ((pairwise_cons.mp (first ▸ consistent.sorted)).1 r member)))
    · refine .inl ⟨stored, ?_⟩
      show (update s.pcs t' .idle t).newValue = _
      rw [update_of_ne this, here]
  | register t' e a at' | registerReached t' e a at' | registerNotReached t' e a at'
  | registerLock t' e a at' | registerLockedReached t' e a at' | registerLockedNotReached t' e a at'
  | increment t' at' | incrementFetchAdd t' at' => exact .inl ⟨stored, away (by rw [at']; rfl)⟩

/-- Once the increment is finished, the action that it covers was run. -/
theorem Consistent.executed_of_finished {t : τ} {n : Nat} {r : RegisteredAction α}
    (consistent : s.Consistent) (run : Relation.ReflTransGen Step s s')
    (here : (s.pcs t).newValue = some n) (stored : r ∈ s.actionStorage)
    (due : r.expectedValue ≤ n) :
    (r ∈ s'.actionStorage ∧ (s'.pcs t).newValue = some n) ∨ ∃ v, (r.action, v) ∈ s'.executed := by
  induction run with
  | refl => exact .inl ⟨stored, here⟩
  | tail before step ih =>
    rcases ih with ⟨stored', here'⟩ | ⟨v, run⟩
    · exact step.incrementing (consistent.run before) here' stored' due
    · exact .inr ⟨v, step.executed_subset run⟩

omit [DecidableEq τ] [DecidableEq α] in
/-- A registered action that no thread has in its hands is run or stored. -/
theorem Consistent.executed_or_stored {a : α} {e : Nat} (consistent : s.Consistent)
    (known : s.registered a = some e)
    (complete : ∀ t r, (s.pcs t).registers = some r → r.action ≠ a) :
    (∃ v, (a, v) ∈ s.executed) ∨ (⟨e, a⟩ : RegisteredAction α) ∈ s.actionStorage := by
  rcases consistent.ledger.complete a (by simp [known]) with member | ⟨t, r, here, same⟩
  · rcases mem_append.mp member with ran | kept
    · obtain ⟨⟨b, v⟩, there, rfl⟩ := mem_map.mp ran
      exact .inl ⟨v, there⟩
    · obtain ⟨r, stored, rfl⟩ := mem_map.mp kept
      cases (consistent.stored r stored).symm.trans known
      exact .inr stored
  · exact absurd same (complete t r here)

/-- Every action is run at most once, and only when the counter has reached its value. An action
whose registration has returned is still stored when the counter has not reached its value, and
was run when it has and all the increments that had started by then are finished. -/
theorem executed_once (reachable : s.Reachable) (run : Relation.ReflTransGen Step s s') :
    s.actionStorage.Pairwise RegisteredAction.Earlier ∧
    (s.executed.map Prod.fst ++ s.actionStorage.map RegisteredAction.action).Nodup ∧
    (∀ a v, (a, v) ∈ s.executed → ∃ e ≤ v, s.registered a = some e) ∧
    ∀ a e, s.registered a = some e → (∀ t r, (s.pcs t).registers = some r → r.action ≠ a) →
      (s.syncpoint < e → (⟨e, a⟩ : RegisteredAction α) ∈ s.actionStorage) ∧
      (e ≤ s.syncpoint →
        (∀ t n, (s.pcs t).newValue = some n → (s'.pcs t).newValue ≠ some n) →
        ∃ v, (a, v) ∈ s'.executed) := by
  have consistent := reachable.consistent
  refine ⟨consistent.sorted, consistent.ledger.nodup,
    fun a v member => (consistent.executed a v member).2,
    fun a e known complete => ⟨fun early => ?_, fun reached finished => ?_⟩⟩
  · rcases consistent.executed_or_stored known complete with ⟨v, run⟩ | stored
    · obtain ⟨bound, e', small, known'⟩ := consistent.executed a v run
      cases known.symm.trans known'
      exact absurd (small.trans bound) (not_le.mpr early)
    · exact stored
  · rcases consistent.executed_or_stored known complete with ⟨v, before⟩ | stored
    · exact ⟨v, executed_subset run before⟩
    · obtain ⟨t, n, here, due⟩ := consistent.covered.stored _ stored reached
      rcases consistent.executed_of_finished run here stored due with ⟨-, still⟩ | done
      · exact absurd still (finished t n here)
      · exact done

/-- A thread registers an action for the next value, and increments the counter. When it has
acquired the lock again, the action is stored though the counter has reached its value. -/
theorem executed_once_next : ∃ s s' : SyncpointManager Unit Unit,
    s.Reachable ∧ (⟨1, ()⟩ : RegisteredAction Unit) ∈ s.actionStorage ∧ s.syncpoint = 1 ∧
    Relation.ReflTransGen Step s s' ∧ ∃ v, ((), v) ∈ s'.executed := by
  have registered := Step.register ({} : SyncpointManager Unit Unit) () 1 () rfl rfl
  have stored := (((Relation.ReflTransGen.single registered).tail
    (.registerNotReached _ () 1 () rfl Nat.zero_lt_one)).tail
    (.registerLock _ () 1 () rfl rfl)).tail
    (.registerLockedNotReached _ () 1 () rfl Nat.zero_lt_one) |>.tail
    (.registerStore _ () 1 () rfl)
  have incremented : ∃ s : SyncpointManager Unit Unit, s.Reachable ∧ s.pcs () = .incrementLocked 1 ∧
      s.actionStorage = [⟨1, ()⟩] ∧ s.syncpoint = 1 ∧ s.registered () = some 1 :=
    ⟨_, ⟨0, ((stored.tail (.increment _ () rfl)).tail (.incrementFetchAdd _ () rfl)).tail
      (.incrementLock _ () 1 rfl rfl)⟩, rfl, rfl, rfl, rfl⟩
  obtain ⟨s, reachable, at', first, value, known⟩ := incremented
  have ran := Step.incrementRun s () 1 ⟨1, ()⟩ [] at' first le_rfl
  have finished := (Relation.ReflTransGen.single ran).tail
    (.incrementUnlock _ () 1 at' fun _ _ more => by cases more)
  obtain ⟨v, member⟩ := ((executed_once reachable finished).2.2.2 () 1 known fun _ _ here => by
    rw [at'] at here; cases here).2 value.ge fun _ _ _ absurdity => by cases absurdity
  exact ⟨s, _, reachable, first ▸ mem_singleton_self _, value, finished, v, member⟩

end Consistency

end SumiEmu.VideoCore.SyncpointManager
