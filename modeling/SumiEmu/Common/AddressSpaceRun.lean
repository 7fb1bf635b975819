/-
# Runs of the flat address space map

An operation sets or clears the addresses of its range and leaves all others as
they were, in every run that keeps clear of the defects of `UnmapLocked` and of
physical addresses that look unmapped.
-/

import SumiEmu.Common.AddressSpaceDenotation

namespace SumiEmu.Common

open Fallible Breakpoints AddressSpace List

namespace FlatAddressSpaceMap

variable {π ε : Type} [DecidableEq π] [AddAction ℕ π] {p : Params π} {m : FlatAddressSpaceMap π ε}
  {virt virtEnd size va : Nat} {before inside after tail hole rest : List (Block π ε)}
  {predecessor last : Block π ε}

/-- The blocks are sorted, begin at `UnmappedVa` and end with an unmapped one. -/
structure Consistent (p : Params π) (m : FlatAddressSpaceMap π ε) : Prop where
  sorted : Ascending Block.virt m.blocks
  first : m.blocks.head?.map Block.virt = some p.unmappedVa
  terminated : ∀ b ∈ m.blocks.getLast?, p.Unmapped b

section Shape

/-- The parts into which a range cuts the blocks. -/
structure Cut (p : Params π) (blocks : List (Block π ε)) (virt virtEnd : Nat)
    (before : List (Block π ε)) (predecessor : Block π ε) (inside after : List (Block π ε))
    (last : Block π ε) : Prop where
  whole : blocks = before ++ predecessor :: (inside ++ after)
  below : ∀ b ∈ before ++ [predecessor], b.virt < virt
  within : ∀ b ∈ inside, virt ≤ b.virt ∧ b.virt < virtEnd
  above : ∀ b ∈ after, virtEnd ≤ b.virt
  sortedBefore : Ascending Block.virt (before ++ [predecessor])
  sortedBehind : Ascending Block.virt (inside ++ after)
  isLast : (predecessor :: inside).getLast? = some last
  ended : after = [] → p.Unmapped last
  terminated : ∀ b ∈ after.getLast?, p.Unmapped b
  first : (before ++ [predecessor]).head?.map Block.virt = some p.unmappedVa

omit [DecidableEq π] [AddAction ℕ π] in
/-- The first block starts before the range. -/
theorem Consistent.cut (consistent : m.Consistent p) (start : p.unmappedVa < virt) (virtEnd : Nat) :
    ∃ before predecessor inside after last,
      Cut p m.blocks virt virtEnd before predecessor inside after last := by
  obtain ⟨sorted, first, terminated⟩ := consistent
  obtain ⟨lower, upper, whole, below, above⟩ := sorted.split virt
  rw [whole] at sorted first terminated
  obtain ⟨sortedBefore, sortedBehind, -⟩ := pairwise_append.mp sorted
  obtain ⟨inside, after, rfl, within, above'⟩ := Ascending.split sortedBehind virtEnd
  rcases eq_nil_or_concat lower with rfl | ⟨before, predecessor, rfl⟩
  · obtain ⟨b, head, start'⟩ := Option.map_eq_some_iff.mp first
    have late := above b (mem_of_mem_head? head)
    omega
  · rw [concat_eq_append] at *
    obtain ⟨last, isLast⟩ : ∃ last, (predecessor :: inside).getLast? = some last :=
      ⟨_, getLast?_eq_some_getLast (cons_ne_nil _ _)⟩
    refine ⟨before, predecessor, inside, after, last, {
      whole := by simpa using whole
      below, within := fun b member => ⟨above b (mem_append_left _ member), within b member⟩
      above := above', sortedBefore, sortedBehind, isLast
      ended := ?_
      terminated := fun b member => terminated b ?_
      first := ?_ }⟩
    · rintro rfl
      refine terminated last ?_
      simpa [getLast?_append, getLast?_cons] using isLast
    · rw [getLast?_append, getLast?_append, member]
      rfl
    · rwa [head?_append_of_ne_nil _ (concat_ne_nil _ _)] at first

omit [DecidableEq π] [AddAction ℕ π] in
/-- There is only one way to cut. -/
theorem Cut.parts {blocks : List (Block π ε)}
    (cut : Cut p blocks virt virtEnd before predecessor inside after last)
    (order : virt ≤ virtEnd) : blocks.filter (·.virt < virt) = before ++ [predecessor] ∧
    blocks.filter (fun b => virt ≤ b.virt ∧ b.virt < virtEnd) = inside ∧
    blocks.filter (virtEnd ≤ ·.virt) = after := by
  obtain ⟨rfl, below, within, above, -⟩ := cut
  rw [append_cons]
  generalize before ++ [predecessor] = front at below
  refine ⟨?_, ?_, ?_⟩
  · rw [filter_append, filter_eq_self.mpr, filter_eq_nil_iff.mpr, append_nil]
    · intro b member
      rcases mem_append.mp member with member | member
      · simpa using (within b member).1
      · simpa using order.trans (above b member)
    · intro b member
      simpa using below b member
  · rw [filter_append, filter_append, filter_eq_nil_iff.mpr, filter_eq_self.mpr,
      filter_eq_nil_iff.mpr, nil_append, append_nil]
    · intro b member
      have := above b member
      simp only [decide_eq_true_eq]
      omega
    · intro b member
      simpa using within b member
    · intro b member
      have := below b member
      simp only [decide_eq_true_eq]
      omega
  · rw [filter_append, filter_append, filter_eq_nil_iff.mpr, filter_eq_nil_iff.mpr,
      filter_eq_self.mpr, nil_append, nil_append]
    · intro b member
      simpa using above b member
    · intro b member
      simpa using (within b member).2
    · intro b member
      simpa using (below b member).trans_le order

omit [DecidableEq π] in
theorem ascending_tail (after' : Tail p last virtEnd after tail)
    (sorted : Ascending Block.virt after) : Ascending Block.virt (tail ++ after) := by
  cases after' with
  | none => exact sorted
  | cut _ t later here =>
    exact pairwise_cons.mpr ⟨fun b member => here.trans_lt (later b member), sorted⟩

omit [DecidableEq π] in
theorem ascending_rest (after' : Rest p virtEnd last after rest)
    (sorted : Ascending Block.virt after) : Ascending Block.virt rest := by
  cases after' with
  | unmapped => exact sorted
  | merged u rest => exact (pairwise_cons.mp sorted).2
  | tail _ tail tail' => exact ascending_tail tail' sorted

omit [DecidableEq π] in
/-- The last block is still unmapped when a tail follows the range. -/
theorem terminated_tail (xs : List (Block π ε)) (after' : Tail p last virtEnd after tail)
    (terminated : ∀ b ∈ after.getLast?, p.Unmapped b) (ended : after = [] → p.Unmapped last) :
    ∀ b ∈ (xs ++ (tail ++ after)).getLast?, p.Unmapped b := by
  cases after' with
  | none h rest => simpa using terminated
  | cut _ t later here unmapped =>
    intro b member
    cases after with
    | nil =>
      obtain rfl : t = b := by simpa using member
      exact unmapped (ended rfl)
    | cons h rest => exact terminated b (by simpa using member)

omit [DecidableEq π] in
theorem terminated_rest {xs : List (Block π ε)}
    (hole' : Hole p virt virtEnd predecessor inside hole)
    (after' : Rest p virtEnd last after rest) (terminated : ∀ b ∈ after.getLast?, p.Unmapped b)
    (ended : after = [] → p.Unmapped last) :
    ∀ b ∈ (xs ++ predecessor :: (hole ++ rest)).getLast?, p.Unmapped b := by
  have cleared : ∀ b ∈ (xs ++ predecessor :: hole).getLast?, p.Unmapped b := by
    cases hole' with
    | none unmapped => simpa using unmapped
    | one u unmapped => simpa using unmapped
  have kept : (∀ b ∈ rest.getLast?, p.Unmapped b) →
      ∀ b ∈ (xs ++ predecessor :: (hole ++ rest)).getLast?, p.Unmapped b := by
    intro unmapped b member
    rw [← cons_append, ← append_assoc, getLast?_append] at member
    rcases rest.eq_nil_or_concat with rfl | ⟨init, b', rfl⟩
    · exact cleared b (by simpa using member)
    · exact unmapped b (by simpa using member)
  cases after' with
  | unmapped => exact kept terminated
  | merged u rest =>
    refine kept fun b member => terminated b ?_
    cases rest with
    | nil => cases member
    | cons c rest => simpa using member
  | tail _ tail tail' =>
    have := terminated_tail (xs ++ predecessor :: hole) tail' terminated ended
    simpa using this

end Shape

section Operations

variable [Inhabited ε]

/-- A mapped block that has to be cut at an address does not look unmapped there. -/
def CutsReal (p : Params π) (blocks : List (Block π ε)) (va : Nat) : Prop :=
  ∀ b, lastAt Block.virt blocks va = some b → ¬ p.Unmapped b → p.physAt b va ≠ p.unmappedPa

omit [DecidableEq π] [AddAction ℕ π] [Inhabited ε] in
/-- The end of a range does not wrap. -/
theorem add_eq (limit : m.vaLimit ≤ p.vaMaximum) (fits : virt + size ≤ m.vaLimit) :
    p.add virt size = virt + size := by
  refine Nat.mod_eq_of_lt ?_
  have positive : 0 < 2 ^ p.addressSpaceBits := Nat.two_pow_pos _
  have wide : 2 ^ p.addressSpaceBits ≤ 2 ^ p.vaBits := Nat.pow_le_pow_right (by omega) p.valid
  have maximum : p.vaMaximum = 2 ^ p.addressSpaceBits - 1 := rfl
  omega

omit [DecidableEq π] [Inhabited ε] in
/-- What a cut needs to know of the block that it cuts. -/
theorem CutsReal.notUnmapped {blocks : List (Block π ε)} (cuts : CutsReal p blocks virtEnd)
    (cut : Cut p blocks virt virtEnd before predecessor inside after last) (proper : virt < virtEnd)
    (mapped : ¬ p.Unmapped last) (later : ∀ b ∈ after, virtEnd < b.virt) :
    p.physAt last virtEnd ≠ p.unmappedPa := by
  refine cuts last ?_ mapped
  have earlier : ∀ b ∈ before ++ predecessor :: inside, b.virt ≤ virtEnd := by
    intro b member
    rw [append_cons] at member
    rcases mem_append.mp member with member | member
    · exact ((cut.below b member).trans proper).le
    · exact (cut.within b member).2.le
  rw [cut.whole, ← cons_append, ← append_assoc, lastAt_append, lastAt_eq_none later,
    lastAt_eq_getLast? earlier, getLast?_append, cut.isLast]
  rfl

/-- The blocks that `MapLocked` leaves. -/
theorem mapLocked_of_cut (phys : π) (extraInfo : ε)
    (cut : Cut p m.blocks virt (virt + size) before predecessor inside after last)
    (limit : m.vaLimit ≤ p.vaMaximum) (proper : 0 < size) (fits : virt + size ≤ m.vaLimit) :
    ∃ tail, Tail p last (virt + size) after tail ∧
      mapLocked p m virt phys size extraInfo = .ok { m with
        blocks := (before ++ [predecessor]) ++ ⟨virt, phys, extraInfo⟩ :: (tail ++ after)
        unmapCallbacks := (virt, size) :: m.unmapCallbacks } := by
  have isLast : ((before ++ [predecessor]) ++ inside).getLast? = some last := by
    rw [append_assoc, getLast?_append, singleton_append, cut.isLast]
    rfl
  obtain ⟨tail, after', mapped⟩ := mapBlocks_eq phys extraInfo
    (concat_ne_nil _ _) cut.below cut.within cut.above
    (pairwise_append.mp cut.sortedBehind).2.1 (add_eq limit fits) (by omega) fits isLast cut.ended
  refine ⟨tail, after', ?_⟩
  rw [mapLocked, cut.whole, append_cons, mapped]
  rfl

/-- `MapLocked` sets its range. -/
theorem Consistent.mapLocked (phys : π) (extraInfo : ε) (consistent : m.Consistent p)
    (limit : m.vaLimit ≤ p.vaMaximum)
    (start : p.unmappedVa < virt) (proper : 0 < size) (fits : virt + size ≤ m.vaLimit)
    (real : phys ≠ p.unmappedPa) (cuts : CutsReal p m.blocks (virt + size)) :
    ∃ m', mapLocked p m virt phys size extraInfo = .ok m' ∧ m'.Consistent p ∧
      m'.vaLimit = m.vaLimit ∧ ∀ va, p.denote m'.blocks va = if virt ≤ va ∧ va < virt + size then
        some (p.physAt ⟨virt, phys, extraInfo⟩ va, extraInfo) else p.denote m.blocks va := by
  obtain ⟨before, predecessor, inside, after, last, cut⟩ := consistent.cut start (virt + size)
  obtain ⟨tail, after', mapped⟩ := mapLocked_of_cut phys extraInfo cut limit
    proper fits
  have proper' : virt < virt + size := by omega
  have later := after'.later cut.above
  have sorted : Ascending Block.virt (⟨virt, phys, extraInfo⟩ :: (tail ++ after)) :=
    pairwise_cons.mpr ⟨fun b member => proper'.trans_le (later b member),
      ascending_tail after' (pairwise_append.mp cut.sortedBehind).2.1⟩
  refine ⟨_, mapped, ⟨?_, ?_, ?_⟩, rfl, ?_⟩
  · refine cut.sortedBefore.append sorted cut.below fun b member => ?_
    rcases mem_cons.mp member with rfl | member
    · exact le_rfl
    · exact proper'.le.trans (later b member)
  · exact (congrArg _ (head?_append_of_ne_nil _ (concat_ne_nil _ _))).trans cut.first
  · have := terminated_tail (before ++ [predecessor] ++ [⟨virt, phys, extraInfo⟩]) after'
      cut.terminated cut.ended
    simpa using this
  · intro va
    have isLast : ((before ++ [predecessor]) ++ inside).getLast? = some last := by
      rw [append_assoc, getLast?_append, singleton_append, cut.isLast]
      rfl
    rw [cut.whole, append_cons before predecessor (inside ++ after)]
    exact denote_map cut.below cut.within cut.above proper' isLast after' real
      (cuts.notUnmapped cut proper') va

/-- The blocks that `UnmapLocked` leaves. -/
theorem unmapLocked_of_cut
    (cut : Cut p m.blocks virt (virt + size) before predecessor inside after last)
    (limit : m.vaLimit ≤ p.vaMaximum) (proper : 0 < size) (fits : virt + size ≤ m.vaLimit)
    (regular : ¬ UnmapMisses p virt (virt + size) predecessor inside after) :
    ∃ hole rest, Hole p virt (virt + size) predecessor inside hole ∧
      Rest p (virt + size) last after rest ∧
      unmapLocked p m virt size = .ok { m with
        blocks := before ++ predecessor :: (hole ++ rest)
        unmapCallbacks := (virt, size) :: m.unmapCallbacks } := by
  obtain ⟨hole, rest, hole', after', unmapped⟩ := unmapBlocks_eq cut.below cut.within cut.above
    cut.sortedBehind (add_eq limit fits) (by omega) fits cut.isLast cut.ended regular
  refine ⟨hole, rest, hole', after', ?_⟩
  rw [unmapLocked, cut.whole, unmapped]
  rfl

/-- `UnmapLocked` clears its range. -/
theorem Consistent.unmapLocked (consistent : m.Consistent p) (limit : m.vaLimit ≤ p.vaMaximum)
    (start : p.unmappedVa < virt) (proper : 0 < size) (fits : virt + size ≤ m.vaLimit)
    (cuts : CutsReal p m.blocks (virt + size))
    (regular : ∀ before predecessor inside after last,
      Cut p m.blocks virt (virt + size) before predecessor inside after last →
      ¬ UnmapMisses p virt (virt + size) predecessor inside after) :
    ∃ m', unmapLocked p m virt size = .ok m' ∧ m'.Consistent p ∧ m'.vaLimit = m.vaLimit ∧
      ∀ va, p.denote m'.blocks va =
        if virt ≤ va ∧ va < virt + size then none else p.denote m.blocks va := by
  obtain ⟨before, predecessor, inside, after, last, cut⟩ := consistent.cut start (virt + size)
  obtain ⟨hole, rest, hole', after', unmapped⟩ := unmapLocked_of_cut cut limit proper fits
    (regular before predecessor inside after last cut)
  have proper' : virt < virt + size := by omega
  have later := after'.later cut.above
  refine ⟨_, unmapped, ⟨?_, ?_, ?_⟩, rfl, ?_⟩
  · show Ascending Block.virt (before ++ predecessor :: (hole ++ rest))
    have sortedAfter := (pairwise_append.mp cut.sortedBehind).2.1
    have sorted := hole'.sorted.append (ascending_rest after' sortedAfter) hole'.upper later
    rw [append_cons]
    refine cut.sortedBefore.append sorted cut.below fun b member => ?_
    rcases mem_append.mp member with member | member
    · exact hole'.lower b member
    · exact proper'.le.trans (later b member)
  · show (before ++ predecessor :: (hole ++ rest)).head?.map _ = _
    rw [append_cons, head?_append_of_ne_nil _ (concat_ne_nil _ _)]
    exact cut.first
  · exact terminated_rest hole' after' cut.terminated cut.ended
  · intro va
    rw [cut.whole]
    exact denote_unmap cut.below cut.within cut.above proper' cut.isLast hole' after'
      (cuts.notUnmapped cut proper') va

end Operations

section Runs

/-- One call. -/
inductive Op (π ε : Type)
  | map (virt : Nat) (phys : π) (size : Nat) (extraInfo : ε)
  | unmap (virt size : Nat)

variable [Inhabited ε]

/-- `Map` and `Unmap`. -/
def step (p : Params π) (m : FlatAddressSpaceMap π ε) :
    Op π ε → Except Fault (FlatAddressSpaceMap π ε)
  | .map virt phys size extraInfo => m.mapLocked p virt phys size extraInfo
  | .unmap virt size => m.unmapLocked p virt size

/-- A sequence of calls. -/
def run (p : Params π) (m : FlatAddressSpaceMap π ε) (ops : List (Op π ε)) :
    Except Fault (FlatAddressSpaceMap π ε) :=
  ops.foldlM (step p) m

namespace Op

/-- The range is not empty and lies below the limit, and what is mapped is not `UnmappedPa`. -/
def Valid (p : Params π) (vaLimit : Nat) : Op π ε → Prop
  | map virt phys size _ => 0 < virt ∧ 0 < size ∧ virt + size ≤ vaLimit ∧ phys ≠ p.unmappedPa
  | unmap virt size => 0 < virt ∧ 0 < size ∧ virt + size ≤ vaLimit

/-- What the call is meant to do to the map. -/
def apply (p : Params π) (f : Nat → Option (π × ε)) : Op π ε → Nat → Option (π × ε)
  | map virt phys size extraInfo => fun va =>
    if virt ≤ va ∧ va < virt + size then
      some (if p.paContigSplit then (va - virt) +ᵥ phys else phys, extraInfo)
    else f va
  | unmap virt size => fun va => if virt ≤ va ∧ va < virt + size then none else f va

/-- The call keeps clear of the defects: the range starts behind `UnmappedVa`, no mapped block is
cut where it looks unmapped, and `UnmapLocked` does not miss. -/
def Regular (p : Params π) (m : FlatAddressSpaceMap π ε) : Op π ε → Prop
  | map virt _ size _ => p.unmappedVa < virt ∧ CutsReal p m.blocks (virt + size)
  | unmap virt size => p.unmappedVa < virt ∧ CutsReal p m.blocks (virt + size) ∧
    ∀ before predecessor inside after last,
      Cut p m.blocks virt (virt + size) before predecessor inside after last →
      ¬ UnmapMisses p virt (virt + size) predecessor inside after

end Op

/-- A regular call does to the map what it is meant to. -/
theorem Consistent.step (consistent : m.Consistent p) (limit : m.vaLimit ≤ p.vaMaximum)
    {op : Op π ε}
    (valid : op.Valid p m.vaLimit) (regular : op.Regular p m) :
    ∃ m', FlatAddressSpaceMap.step p m op = .ok m' ∧ m'.Consistent p ∧ m'.vaLimit = m.vaLimit ∧
      p.denote m'.blocks = op.apply p (p.denote m.blocks) := by
  cases op with
  | map virt phys size extraInfo =>
    obtain ⟨-, proper, fits, real⟩ := valid
    obtain ⟨start, cuts⟩ := regular
    obtain ⟨m', mapped, consistent', limit', denotes⟩ :=
      consistent.mapLocked phys extraInfo limit start proper fits real cuts
    exact ⟨m', mapped, consistent', limit', funext denotes⟩
  | unmap virt size =>
    obtain ⟨-, proper, fits⟩ := valid
    obtain ⟨start, cuts, regular⟩ := regular
    obtain ⟨m', unmapped, consistent', limit', denotes⟩ :=
      consistent.unmapLocked limit start proper fits cuts regular
    exact ⟨m', unmapped, consistent', limit', funext denotes⟩

/-- The map before the first call. -/
theorem consistent_new {vaLimit : Nat} (new' : new p vaLimit = .ok m) :
    m.Consistent p ∧ m.vaLimit = vaLimit ∧ vaLimit ≤ p.vaMaximum ∧ p.denote m.blocks = fun _ =>
      none := by
  obtain ⟨_, limit, made⟩ := bind_eq_ok.mp new'
  cases made
  refine ⟨⟨pairwise_singleton .., rfl, ?_⟩, rfl, ?_, ?_⟩
  · rintro b same
    cases same
    rfl
  · by_contra beyond
    rw [AddressSpace.assert, if_neg beyond] at limit
    cases limit
  · funext va
    by_cases before : p.unmappedVa ≤ va <;>
      simp [Params.denote, lastAt, before, Params.translate, Params.Unmapped]

theorem Consistent.run {m₀ : FlatAddressSpaceMap π ε} (consistent : m₀.Consistent p)
    (limit : m₀.vaLimit ≤ p.vaMaximum) {ops : List (Op π ε)}
    (valid : ∀ op ∈ ops, op.Valid p m₀.vaLimit)
    (regular : ∀ done op more, ops = done ++ op :: more →
      ∀ m', FlatAddressSpaceMap.run p m₀ done = .ok m' → op.Regular p m') :
    ∃ m', FlatAddressSpaceMap.run p m₀ ops = .ok m' ∧ m'.Consistent p ∧ m'.vaLimit = m₀.vaLimit ∧
      p.denote m'.blocks = ops.foldl (Op.apply p) (p.denote m₀.blocks) := by
  induction ops using reverseRecOn with
  | nil => exact ⟨m₀, rfl, consistent, rfl, rfl⟩
  | append_singleton ops op ih =>
    obtain ⟨m, ran, consistent', limit', denotes⟩ := ih
      (fun op member => valid op (mem_append_left _ member))
      fun done op' more split => regular done op' (more ++ [op]) (by simp [split])
    obtain ⟨m', stepped, consistent'', limit'', denotes'⟩ :=
      consistent'.step (limit'.le.trans limit) (limit' ▸ valid op (by simp))
      (regular ops op [] rfl m ran)
    refine ⟨m', ?_, consistent'', limit''.trans limit', ?_⟩
    · rw [FlatAddressSpaceMap.run, foldlM_append]
      change (FlatAddressSpaceMap.run p m₀ ops >>= _) = _
      rw [ran, ok_bind, foldlM_cons, stepped]
      rfl
    · rw [denotes', denotes, foldl_append]
      rfl

/-- Along a run of regular calls no assertion fires, the blocks stay sorted between `UnmappedVa` and
an unmapped last one, and they denote what the calls are meant to set and clear. -/
theorem run_denotes {vaLimit : Nat} {ops : List (Op π ε)} (new' : new p vaLimit = .ok m)
    (valid : ∀ op ∈ ops, op.Valid p vaLimit)
    (regular : ∀ done op more, ops = done ++ op :: more →
      ∀ m', run p m done = .ok m' → op.Regular p m') :
    ∃ m', run p m ops = .ok m' ∧
      m'.blocks.Pairwise (fun b c => b.virt < c.virt) ∧
      m'.blocks.head?.map Block.virt = some p.unmappedVa ∧
      (∃ b, m'.blocks.getLast? = some b ∧ p.Unmapped b) ∧
      p.denote m'.blocks = ops.foldl (Op.apply p) fun _ => none := by
  obtain ⟨consistent, rfl, limit, empty⟩ := consistent_new new'
  obtain ⟨m', ran, ⟨sorted, first, terminated⟩, -, denotes⟩ := consistent.run limit valid regular
  refine ⟨m', ran, sorted, first, ?_, empty ▸ denotes⟩
  cases last : m'.blocks.getLast? with
  | none =>
    rw [getLast?_eq_none_iff.mp last] at first
    cases first
  | some b => exact ⟨b, rfl, terminated b last⟩

/-- The parameters of a 32 bit space with contiguous blocks. -/
def contiguous32 : Params ℕ := ⟨32, 0, 0, true, 32, le_rfl⟩

/-- A mapping is made and taken away again. -/
theorem run_denotes_unmap : ∃ m', run contiguous32 ⟨[⟨0, 0, ()⟩], 100, []⟩
    [.map 1 10 2 (), .unmap 1 2] = .ok m' ∧ contiguous32.denote m'.blocks 1 = none := by
  have regular : ∀ done op more, [.map 1 10 2 (), .unmap 1 2] = done ++ op :: more →
      ∀ m', run contiguous32 ⟨[⟨0, 0, ()⟩], 100, []⟩ done = .ok m' →
      op.Regular contiguous32 m' := by
    intro done op more split m' ran
    rcases done with _ | ⟨first, _ | ⟨second, done⟩⟩
    · cases split
      cases ran
      refine ⟨Nat.zero_lt_one, fun b covers mapped => ?_⟩
      cases covers
      exact absurd rfl mapped
    · cases split
      cases ran
      refine ⟨Nat.zero_lt_one, fun b covers mapped => ?_,
        fun before predecessor inside after last cut misses => ?_⟩
      · cases covers
        exact absurd rfl mapped
      · obtain ⟨front, rfl, rfl⟩ := cut.parts (by omega)
        have same : [⟨0, 0, ()⟩] = before ++ [predecessor] := front
        obtain ⟨-, same⟩ := append_inj' (nil_append _ |>.trans same) rfl
        cases same
        generalize inner : filter _ _ = inside at misses
        generalize outer : filter _ _ = after at misses
        have inner' : [⟨1, 10, ()⟩] = inside := inner
        have outer' : [⟨3, 0, ()⟩] = after := outer
        cases misses with
        | «end» u after mapped => exact absurd rfl mapped
        | endAtEnd u rest mapped => exact absurd rfl mapped
        | kept _ next init rest _ _ here follows =>
          cases outer'
          exact absurd rfl follows
        | keptFront front last init =>
          have short := congrArg length inner'
          simp at short
        | contiguous u next init rest _ _ behind =>
          cases (append_inj' (nil_append _ |>.trans inner') rfl).2
          exact absurd behind (lt_irrefl 1)
        | contiguousAtEnd => cases outer'
    · simp at split
  have new' : new contiguous32 100 = .ok ⟨[⟨0, 0, ()⟩], 100, []⟩ := rfl
  have valid : ∀ op ∈ ([.map 1 10 2 (), .unmap 1 2] : List (Op ℕ Unit)),
      op.Valid contiguous32 100 := by
    simp [Op.Valid, contiguous32]
  obtain ⟨m', ran, -, -, -, denotes⟩ := run_denotes new' valid regular
  exact ⟨m', ran, by rw [denotes]; rfl⟩

/-- A mapping at once before another one is not taken away, and taking away the end of a mapping
fires an assertion. -/
theorem run_misses :
    (∃ m', run contiguous32 ⟨[⟨0, 0, ()⟩], 100, []⟩
      [.map 1 10 1 (), .map 2 20 1 (), .unmap 1 1] = .ok m' ∧
      contiguous32.denote m'.blocks 1 = some (10, ()) ∧
      [.map 1 10 1 (), .map 2 20 1 (), .unmap 1 1].foldl (Op.apply contiguous32) (fun _ => none) 1 =
        none) ∧
    run contiguous32 ⟨[⟨0, 0, ()⟩], 100, []⟩ [.map 1 10 2 (), .unmap 2 1] = .error .assertion :=
  ⟨⟨_, rfl, rfl, rfl⟩, rfl⟩

end Runs

end FlatAddressSpaceMap

end SumiEmu.Common
