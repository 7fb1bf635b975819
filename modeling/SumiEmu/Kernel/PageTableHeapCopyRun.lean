/-
# Runs of the copy between heap pages

Each round copies, lets the run of the source grow by a page, or is stuck for ever. It is stuck
exactly where a page of the destination ends and both ranges go on directly behind. So the copy ends
if there is no such place, and then it has copied the places that the two traversals visit.
-/

import SumiEmu.Kernel.PageTableHeapCopy

namespace SumiEmu.Kernel.KPageTableBase

open Common Common.PageTable Fallible Scatter Nat

variable {p dstPageTable : KPageTableBase} {srcAddr dstAddr size done k l : Nat} {s s' : HeapCursor}
  {good good' : Nat → Bool}

section

variable (atRound : AtRound p dstPageTable srcAddr dstAddr size done k l s)

include atRound

/-- A round that puts its copy off is stuck at a border of the destination, and otherwise lets the
run of the source grow. -/
theorem AtRound.skip
    (mapsSrc : p.impl.MapsTo good srcAddr size)
    (mapsDst : dstPageTable.impl.MapsTo good' dstAddr size)
    (more : done + s.curMinSize < size) {x y : HeapSide}
    (resultSrc : continueIf (s.src.addr + s.curMinSize = s.src.blockAddr + s.src.size) p.impl s.src
      (s.src.addr + s.curMinSize) = .ok (x, false))
    (resultDst : continueIf (s.dst.addr + s.curMinSize = s.dst.blockAddr + s.dst.size)
    dstPageTable.impl s.dst
      (s.dst.addr + s.curMinSize) = .ok (y, false))
    (joined : BothJoined p dstPageTable srcAddr dstAddr (done + s.curMinSize)) :
    Round p dstPageTable srcAddr dstAddr size done k l s (updateMinSize
      { s with src := { x with blockAddr := x.nextEntry.physAddr }, dst := y }) := by
  have positive := atRound.minSize_pos
  have restSrc := atRound.src.rest
  have restDst := atRound.dst.rest
  have minSize := atRound.minSize
  have touchedSrc : srcAddr % pageSize + done + s.curMinSize = (k + 1) * pageSize →
      Touches srcAddr size (k + 1) := fun atEnd => by
    rw [Touches, ← atEnd]
    omega
  have touchedDst : dstAddr % pageSize + done + s.curMinSize = (l + 1) * pageSize →
      Touches dstAddr size (l + 1) := fun atEnd => by
    rw [Touches, ← atEnd]
    omega
  -- what the source looks like, on its page or at the end of it
  have source : srcAddr % pageSize + done + s.curMinSize = (k + 1) * pageSize ∧
        p.impl.Mapped (srcAddr + (k + 1) * pageSize) ∧
        x = { s.src with
          context := contextAt (srcAddr + (k + 1 + 1) * pageSize)
          nextEntry := ⟨p.impl.page srcAddr (k + 1) + srcAddr % pageSize, pageSize⟩ } ∧
        s.src.addr + s.curMinSize = p.impl.page srcAddr (k + 1) + srcAddr % pageSize ∨
      srcAddr % pageSize + done + s.curMinSize < (k + 1) * pageSize ∧ x = s.src := by
    rcases lt_or_ge (srcAddr % pageSize + done + s.curMinSize) ((k + 1) * pageSize)
      with inside | atEnd
    · have apart : ¬ s.src.addr + s.curMinSize = s.src.blockAddr + s.src.size := fun same =>
        absurd (atRound.src.atEnd_iff.mp same) inside.ne
      rw [continueIf, if_neg apart] at resultSrc
      cases resultSrc
      exact .inr ⟨inside, rfl⟩
    · have atEnd : srcAddr % pageSize + done + s.curMinSize = (k + 1) * pageSize := by omega
      obtain ⟨mapped, same, -⟩ := atRound.src.continueIf_ok (mapsSrc.aligned _ (touchedSrc atEnd))
        (atRound.src.atEnd_iff.mpr atEnd) resultSrc
      exact .inl ⟨atEnd, mapped, same, (atRound.src.joined_iff positive atEnd).mp joined.1⟩
  by_cases border : dstAddr % pageSize + done + s.curMinSize = (l + 1) * pageSize
  · obtain ⟨-, same, -⟩ := atRound.dst.continueIf_ok (mapsDst.aligned _ (touchedDst border))
      (atRound.dst.atEnd_iff.mpr border) resultDst
    refine .stuck more ?_ (by rw [← add_assoc]; exact border) joined
    refine atRound.stuck mapsDst more border same
      ((atRound.dst.joined_iff positive border).mp joined.2) ?_ ?_
    · rcases source with ⟨atEnd, -, rfl, behind⟩ | ⟨inside, rfl⟩
      · rw [behind]
        exact Nat.lt_add_of_pos_right (by decide : 0 < pageSize)
      · rw [atRound.src.physAddr, atRound.src.blockSize]
        have := atRound.src.stop
        omega
    · rcases source with ⟨-, -, rfl, -⟩ | ⟨-, rfl⟩
      · rfl
      · rfl
  · -- the page of the destination goes on, so it is the source that is at the end of its page
    have apart : ¬ s.dst.addr + s.curMinSize = s.dst.blockAddr + s.dst.size := fun same =>
      border (atRound.dst.atEnd_iff.mp same)
    rw [continueIf, if_neg apart] at resultDst
    cases resultDst
    obtain ⟨atEnd, mapped, rfl, behind⟩ | ⟨inside, -⟩ := source
    · refine .grown ⟨?_, atRound.dst.resize, atRound.ofs, rfl, atRound.below⟩ (touchedSrc atEnd)
        mapped rfl
      exact OnPage.next rfl rfl rfl atEnd behind fun j below => atRound.src.straight j (by omega)
    · omega

/-- A round that completes is one of the four kinds. -/
theorem heapRound_cases
    (mapsSrc : p.impl.MapsTo good srcAddr size)
    (mapsDst : dstPageTable.impl.MapsTo good' dstAddr size)
    (result : heapRound p dstPageTable.impl size s = .ok s') :
    Round p dstPageTable srcAddr dstAddr size done k l s s' := by
  have positive := atRound.minSize_pos
  have ofs := atRound.ofs
  have below := atRound.below
  have restSrc := atRound.src.rest
  have restDst := atRound.dst.rest
  have minSize := atRound.minSize
  rw [heapRound] at result
  dsimp only at result
  by_cases more : done + s.curMinSize < size
  · have full : min s.curMinSize (size - s.ofs) = s.curMinSize := by omega
    rw [full, if_pos (by omega), atRound.dst.physAddr, atRound.dst.blockSize] at result
    obtain ⟨⟨x, updatedSrc⟩, resultSrc, result⟩ := bind_eq_ok.mp result
    obtain ⟨⟨y, updatedDst⟩, resultDst, result⟩ := bind_eq_ok.mp result
    obtain ⟨k', passesSrc, nextSrc, joinedSrc⟩ := atRound.src.pass positive (by omega)
      (fun atEnd => mapsSrc.aligned _ (by rw [Touches, ← atEnd]; omega)) resultSrc
    obtain ⟨l', passesDst, nextDst, joinedDst⟩ := atRound.dst.pass positive (by omega)
      (fun atEnd => mapsDst.aligned _ (by rw [Touches, ← atEnd]; omega)) resultDst
    dsimp only at result
    by_cases skipped : updatedSrc = false ∧ updatedDst = false
    · obtain ⟨rfl, rfl⟩ := skipped
      rw [if_pos (show (!false && !false) = true from rfl)] at result
      cases result
      exact atRound.skip mapsSrc mapsDst more resultSrc resultDst
        ⟨joinedSrc.mp rfl, joinedDst.mp rfl⟩
    · have copies : ¬ (!updatedSrc && !updatedDst) = true := by
        rwa [Bool.and_eq_true, Bool.not_eq_true', Bool.not_eq_true']
      rw [if_neg copies] at result
      obtain ⟨s₁, copied, result⟩ := bind_eq_ok.mp result
      cases result
      rw [copyHeapBlock_eq_ok copied]
      refine .copied k' l' more ⟨nextSrc, nextDst, ?_, rfl, more⟩ passesSrc passesDst
        (fun joined => skipped ⟨joinedSrc.mpr joined.1, joinedDst.mpr joined.2⟩) ?_
      · exact congrArg (· + s.curMinSize) ofs
      · exact congrArg₂ (fun origin target => writeBlock s.memory target s.curMinSize fun j =>
          s.memory (origin + j)) (continueIf_addr resultSrc) (continueIf_addr resultDst)
  · have rest : min s.curMinSize (size - s.ofs) = size - done := by omega
    rw [rest, if_neg (by omega)] at result
    obtain ⟨s₁, copied, result⟩ := bind_eq_ok.mp result
    cases result
    rw [copyHeapBlock_eq_ok copied]
    refine .last (by omega) ?_ rfl
    change s.ofs + (size - done) = size
    omega

/-- A round completes on mapped pages and at heap addresses. -/
theorem heapRound_ok
    (mappedSrc : ∀ k, Touches srcAddr size k → p.impl.Mapped (srcAddr + k * pageSize))
    (mappedDst : ∀ l, Touches dstAddr size l → dstPageTable.impl.Mapped (dstAddr + l * pageSize))
    (heapSrc : p.isHeapPhysicalAddress s.src.addr = true)
    (heapDst : p.isHeapPhysicalAddress s.dst.addr = true) :
    ∃ s', heapRound p dstPageTable.impl size s = .ok s' := by
  have copies : ∀ (count : Nat) (updatedSrc updatedDst : Bool) (s₁ : HeapCursor),
    s₁.src.addr = s.src.addr → s₁.dst.addr = s.dst.addr →
    ∃ s', (copyHeapBlock p count updatedSrc updatedDst s₁ >>= fun s =>
        (return updateMinSize s : Except Fault HeapCursor)) = .ok s' := by
    intro count updatedSrc updatedDst s₁ src dst
    rw [copyHeapBlock, src, dst, heapSrc, heapDst]
    exact ⟨_, rfl⟩
  rw [heapRound]
  dsimp only
  split
  · next more =>
    have ofs := atRound.ofs
    have below := atRound.below
    obtain ⟨⟨x, updatedSrc⟩, resultSrc⟩ := atRound.src.continueIf_mapped
      (s.src.addr + s.curMinSize = s.src.blockAddr + s.src.size) (s.src.addr + s.curMinSize)
      fun atEnd => mappedSrc _ (by
        have := atRound.src.atEnd_iff.mp atEnd
        rw [Touches]
        omega)
    obtain ⟨⟨y, updatedDst⟩, resultDst⟩ := atRound.dst.continueIf_mapped
      (s.dst.addr + s.curMinSize = s.dst.nextEntry.physAddr + s.dst.nextEntry.blockSize)
      (s.dst.addr + s.curMinSize) fun atEnd => mappedDst _ (by
        rw [atRound.dst.physAddr, atRound.dst.blockSize] at atEnd
        have := atRound.dst.atEnd_iff.mp atEnd
        rw [Touches]
        omega)
    rw [resultSrc, ok_bind, resultDst, ok_bind]
    dsimp only
    split
    · exact ⟨_, rfl⟩
    · exact copies _ _ _ _ (continueIf_addr resultSrc) (continueIf_addr resultDst)
  · exact copies _ _ _ _ rfl rfl

end

/-! ## Runs -/

theorem heapRounds_end {rounds : Nat} (stop : ¬ s.ofs < size) :
    heapRounds p dstPageTable.impl size rounds s = some (.ok s) := by
  cases rounds with
  | zero =>
    rw [heapRounds]
    exact if_neg stop
  | succ rounds =>
    rw [heapRounds]
    exact if_neg stop

theorem Stuck.heapRound (stuck : Stuck size s) : heapRound p dstPageTable.impl size s = .ok s := by
  have more := stuck.more
  have full : min s.curMinSize (size - s.ofs) = s.curMinSize := by omega
  rw [KPageTableBase.heapRound]
  dsimp only
  rw [full, if_pos (by omega), continueIf, if_neg stuck.src, ok_bind, continueIf, if_neg stuck.dst,
    ok_bind]
  exact congrArg Except.ok stuck.stable

/-- A run that is stuck does not end. -/
theorem Stuck.heapRounds (stuck : Stuck size s) (rounds : Nat) :
    heapRounds p dstPageTable.impl size rounds s = none := by
  have more := stuck.more
  induction rounds with
  | zero =>
    rw [KPageTableBase.heapRounds]
    exact if_pos (by omega)
  | succ rounds ih =>
    rw [KPageTableBase.heapRounds, if_pos (by omega), stuck.heapRound]
    exact ih

/-- Copying any part of the range of which both sides are visited in order brings an invariant
forward. -/
def HeapAdvances (p dstPageTable : KPageTableBase) (srcAddr dstAddr size : Nat)
    (Inv : (Nat → UInt8) → Nat → Prop) : Prop :=
  ∀ m done count src dst, Inv m done → done + count ≤ size →
    Straight p.impl srcAddr done count src → Straight dstPageTable.impl dstAddr done count dst →
    Inv (writeBlock m dst count fun j => m (src + j)) (done + count)

variable {Inv : (Nat → UInt8) → Nat → Prop}

/-- One part of the range, as a round copies it. -/
theorem AtRound.copiedPart (atRound : AtRound p dstPageTable srcAddr dstAddr size done k l s)
    (advances : HeapAdvances p dstPageTable srcAddr dstAddr size Inv) (inv : Inv s.memory done)
    {count : Nat}
    (part : count ≤ s.curMinSize) (fits : done + count ≤ size) :
    Inv (KPageTableBase.copiedPart s count) (done + count) := by
  have restSrc := atRound.src.rest
  have restDst := atRound.dst.rest
  have minSize := atRound.minSize
  exact advances s.memory done count _ _ inv fits (fun j below => atRound.src.straight j (by omega))
    fun j below => atRound.dst.straight j (by omega)

/-- What a run that ends says about the rest of the ranges: the invariant has been brought forward
to the end, all pages were mapped, and nowhere was the end of a page of the destination joined on
both sides. -/
theorem heapRounds_inv (mapsSrc : p.impl.MapsTo good srcAddr size)
    (mapsDst : dstPageTable.impl.MapsTo good' dstAddr size)
    (advances : HeapAdvances p dstPageTable srcAddr dstAddr size Inv) {rounds : Nat}
    (result : heapRounds p dstPageTable.impl size rounds s = some (.ok s'))
    (atRound : AtRound p dstPageTable srcAddr dstAddr size done k l s) (inv : Inv s.memory done) :
    Inv s'.memory size ∧
      (∀ k', k < k' → Touches srcAddr size k' → p.impl.Mapped (srcAddr + k' * pageSize)) ∧
      (∀ l', l < l' → Touches dstAddr size l' →
        dstPageTable.impl.Mapped (dstAddr + l' * pageSize)) ∧ ∀ l', l ≤ l' →
        ∀ i < size, dstAddr % pageSize + i = (l' + 1) * pageSize →
        ¬ BothJoined p dstPageTable srcAddr dstAddr i := by
  have ofs := atRound.ofs
  have below := atRound.below
  induction rounds generalizing s done k l with
  | zero =>
    rw [heapRounds, if_pos (by omega)] at result
    cases result
  | succ rounds ih =>
    rw [heapRounds, if_pos (by omega)] at result
    cases round : heapRound p dstPageTable.impl size s with
    | error fault =>
      rw [round] at result
      cases result
    | ok s₁ =>
      rw [round] at result
      dsimp only at result
      cases heapRound_cases atRound mapsSrc mapsDst round with
      | last enough atSize memory =>
        have restSrc := atRound.src.rest
        have restDst := atRound.dst.rest
        have minSize := atRound.minSize
        have final : Inv (KPageTableBase.copiedPart s (size - done)) (done + (size - done)) :=
          atRound.copiedPart advances inv (by omega) (by omega)
        rw [Nat.add_sub_cancel' below.le, ← memory] at final
        rw [heapRounds_end (by omega)] at result
        cases result
        refine ⟨final, fun k' later touched => ?_, fun l' later touched => ?_,
          fun l' later i inside border => ?_⟩
        · have : (k + 1) * pageSize ≤ k' * pageSize := mul_le_mul_right pageSize later
          rw [Touches] at touched
          omega
        · have : (l + 1) * pageSize ≤ l' * pageSize := mul_le_mul_right pageSize later
          rw [Touches] at touched
          omega
        · have : (l + 1) * pageSize ≤ (l' + 1) * pageSize :=
            mul_le_mul_right pageSize (succ_le_succ later)
          omega
      | copied k₁ l₁ more next src dst apart memory =>
        have inv₁ := atRound.copiedPart advances inv le_rfl more.le
        rw [← memory] at inv₁
        obtain ⟨final, mappedSrc, mappedDst, notJoined⟩ := ih result next inv₁ next.ofs more
        refine ⟨final, fun k' later touched => ?_, fun l' later touched => ?_,
          fun l' later i inside border => ?_⟩
        · rcases src with ⟨rfl, -⟩ | ⟨rfl, -, mapped⟩
          · exact mappedSrc k' later touched
          · rcases Nat.lt_or_eq_of_le later with further | rfl
            · exact mappedSrc k' further touched
            · exact mapped
        · rcases dst with ⟨rfl, -⟩ | ⟨rfl, -, mapped⟩
          · exact mappedDst l' later touched
          · rcases Nat.lt_or_eq_of_le later with further | rfl
            · exact mappedDst l' further touched
            · exact mapped
        · rcases dst with ⟨rfl, -⟩ | ⟨rfl, atEnd, -⟩
          · exact notJoined l' later i inside border
          · rcases lt_or_eq_of_le later with further | rfl
            · exact notJoined l' further i inside border
            · have same : i = done + s.curMinSize := by omega
              exact same ▸ apart
      | grown next touched mapped memory =>
        obtain ⟨final, mappedSrc, rest⟩ := ih result next (memory ▸ inv) next.ofs below
        refine ⟨final, fun k' later touched' => ?_, rest⟩
        rcases Nat.lt_or_eq_of_le later with further | rfl
        · exact mappedSrc k' further touched'
        · exact mapped
      | stuck more stuck border joined =>
        rw [stuck.heapRounds] at result
        cases result

/-- A run ends if all pages are mapped, all places are in the heap, and no end of a page of the
destination is joined on both sides. -/
theorem heapRounds_ends {done k l : Nat} {s : HeapCursor}
    (mapsSrc : p.impl.MapsTo good srcAddr size)
    (mapsDst : dstPageTable.impl.MapsTo good' dstAddr size)
    (mappedSrc : ∀ k, Touches srcAddr size k → p.impl.Mapped (srcAddr + k * pageSize))
    (mappedDst : ∀ l, Touches dstAddr size l → dstPageTable.impl.Mapped (dstAddr + l * pageSize))
    (heapSrc : ∀ i < size, p.isHeapPhysicalAddress (p.impl.visited srcAddr i) = true)
    (heapDst : ∀ i < size, p.isHeapPhysicalAddress (dstPageTable.impl.visited dstAddr i) = true)
    (notJoined : ∀ l, ∀ i < size, dstAddr % pageSize + i = (l + 1) * pageSize →
      ¬ BothJoined p dstPageTable srcAddr dstAddr i)
    (atRound : AtRound p dstPageTable srcAddr dstAddr size done k l s) :
    ∃ rounds s', heapRounds p dstPageTable.impl size rounds s = some (.ok s') := by
  have ofs := atRound.ofs
  have below := atRound.below
  have positive := atRound.minSize_pos
  have src := atRound.src.straight 0 atRound.src.before
  have dst := atRound.dst.straight 0 atRound.dst.before
  rw [add_zero, add_zero] at src dst
  obtain ⟨s₁, round⟩ := heapRound_ok atRound mappedSrc mappedDst (src ▸ heapSrc done below)
    (dst ▸ heapDst done below)
  -- one round more than the rest of the run
  have further : (∃ rounds s', heapRounds p dstPageTable.impl size rounds s₁ = some (.ok s')) →
      ∃ rounds s', heapRounds p dstPageTable.impl size rounds s = some (.ok s') := by
    rintro ⟨rounds, s', rest⟩
    refine ⟨rounds + 1, s', ?_⟩
    rw [heapRounds, if_pos (by omega), round]
    exact rest
  refine further ?_
  cases heapRound_cases atRound mapsSrc mapsDst round with
  | last enough atSize memory =>
    exact ⟨0, s₁, heapRounds_end (by omega)⟩
  | copied k₁ l₁ more next =>
    exact heapRounds_ends mapsSrc mapsDst mappedSrc mappedDst heapSrc heapDst notJoined next
  | grown next touched =>
    have : k + 1 < srcAddr % pageSize + size :=
      (Nat.le_mul_of_pos_right (k + 1) (by decide)).trans_lt touched
    exact heapRounds_ends mapsSrc mapsDst mappedSrc mappedDst heapSrc heapDst notJoined next
  | stuck more stuck border joined => exact absurd joined (notJoined l _ more border)
termination_by (size - done, srcAddr % pageSize + size - k)

end SumiEmu.Kernel.KPageTableBase
