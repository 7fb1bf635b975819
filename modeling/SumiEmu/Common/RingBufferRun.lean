/-
# The ring buffer is a queue

Let the indices be counted without wrapping around. Then the slots between the read and
the write count are those that are waiting, each at its number modulo the capacity, and
the thread that pushes writes behind them and less than a capacity away from the first.
-/

import Mathlib.Order.Basic
import SumiEmu.Common.RingBuffer
import SumiEmu.Foundations.Circle

namespace SumiEmu.Common

open Function List Nat

/-! ## Indices -/

theorem Capacity.lt (c : Capacity) : c.slots < 2 ^ 63 := by
  have := c.sensible
  omega

/-- The capacity divides the range of the indices. -/
theorem Capacity.dvd (c : Capacity) : c.slots ∣ 2 ^ 64 := by
  have nonzero : c.slots ≠ 0 := c.positive.ne'
  have power : c.slots = 2 ^ c.slots.log2 := by
    refine le_antisymm ?_ (log2_self_le nonzero)
    by_contra above
    -- the highest bit of the number would also be in the one before it
    have lower : 2 ^ c.slots.log2 ≤ c.slots - 1 := by omega
    have upper := lt_log2_self (n := c.slots)
    have bit : (c.slots &&& (c.slots - 1)).testBit c.slots.log2 = true := by
      rw [testBit_and, testBit_log2 nonzero,
        testBit_of_two_pow_le_and_two_pow_add_one_gt lower (by omega)]
      rfl
    rw [c.powerOfTwo, zero_testBit] at bit
    cases bit
  have small : c.slots.log2 < 64 := (log2_lt nonzero).mpr (c.lt.trans (by decide))
  rw [power]
  exact Nat.pow_dvd_pow 2 small.le

namespace RingBuffer

open SumiEmu.Circle

/-- The two parts of a copy are one copy modulo the capacity. -/
theorem position_eq (c : Capacity) {n count i : Nat} (fits : count ≤ c.slots) (inside : i < count) :
    position c.slots (BitVec.ofNat 64 n) count i = (n + i) % c.slots := by
  have pos : (BitVec.ofNat 64 n).toNat % c.slots = n % c.slots := by
    rw [BitVec.toNat_ofNat, mod_mod_of_dvd _ c.dvd]
  have low := mod_lt n c.positive
  rw [position, pos, add_mod, mod_eq_of_lt (inside.trans_le fits)]
  generalize n % c.slots = pos at low
  split
  · rw [mod_eq_of_lt (by omega)]
  · rw [mod_eq_sub_mod (by omega), mod_eq_of_lt (by omega)]
    omega

theorem toNat_slotsFree (c : Capacity) {read write : Nat} (ordered : read ≤ write)
    (bounded : write ≤ read + c.slots) :
    (BitVec.ofNat 64 c.slots + BitVec.ofNat 64 read - BitVec.ofNat 64 write).toNat =
      c.slots - (write - read) := by
  have := c.lt
  rw [BitVec.toNat_sub, BitVec.toNat_add, BitVec.toNat_ofNat, BitVec.toNat_ofNat,
    BitVec.toNat_ofNat]
  omega

/-! ## The invariant -/

variable {T : Type*} {c : Capacity} {s s' : State T}

/-- What the thread that pushes relies on, with the counts of slots pushed and popped. -/
def Producer.Sound (c : Capacity) (p : Producer T) (writeIndex : BitVec 64) (data : Nat → T)
    (written read : Nat) : Prop :=
  match p with
  | .idle => True
  | .loaded _ index => index = writeIndex
  | .copying newSlots index pushCount free left => index = writeIndex ∧
    pushCount = min newSlots.length free ∧ written + pushCount ≤ read + c.slots ∧
    (∀ i ∈ left, i < pushCount) ∧
    ∀ i < pushCount, i ∉ left → newSlots[i]? = some (data ((written + i) % c.slots))
  | .sizing (.write index) => index = writeIndex
  | .sizing (.read index) => ∃ earlier ≤ read, index = BitVec.ofNat 64 earlier ∧
    written ≤ earlier + c.slots

/-- What the thread that pops relies on. -/
def Consumer.Sound (r : Consumer T) (readIndex : BitVec 64) (pushed : List T) (read : Nat) : Prop :=
  match r with
  | .idle => True
  | .loaded _ index => index = readIndex
  | .copying maxSlots index popCount filled output left => index = readIndex ∧
    popCount = min filled maxSlots ∧ read + popCount ≤ pushed.length ∧ (∀ i ∈ left, i < popCount) ∧
    ∀ i < popCount, i ∉ left → output i = pushed[read + i]?
  | .sizing (.read index) => index = readIndex
  | .sizing (.write index) => ∃ earlier ≤ pushed.length, index = BitVec.ofNat 64 earlier ∧
    read ≤ earlier

variable {writeIndex : BitVec 64}

/-- The other thread pops slots. -/
theorem Producer.Sound.popped {p : Producer T} {data : Nat → T}
    {written read read' : Nat} (sound : p.Sound c writeIndex data written read)
    (more : read ≤ read') : p.Sound c writeIndex data written read' := by
  match p with
  | .idle => trivial
  | .loaded .. => exact sound
  | .copying .. =>
    obtain ⟨index, count, room, rest⟩ := sound
    exact ⟨index, count, by omega, rest⟩
  | .sizing (.write _) => exact sound
  | .sizing (.read _) =>
    obtain ⟨earlier, before, rest⟩ := sound
    exact ⟨earlier, before.trans more, rest⟩

variable {readIndex : BitVec 64}

/-- The other thread pushes slots. -/
theorem Consumer.Sound.pushed {r : Consumer T} {pushed : List T} {read : Nat}
    (sound : r.Sound readIndex pushed read) (more : List T) :
    r.Sound readIndex (pushed ++ more) read := by
  match r with
  | .idle => trivial
  | .loaded .. => exact sound
  | .copying .. =>
    obtain ⟨index, count, filled, left, copied⟩ := sound
    refine ⟨index, count, ?_, left, fun i inside done => ?_⟩
    · rw [length_append]
      omega
    · rw [getElem?_append_left (by omega)]
      exact copied i inside done
  | .sizing (.read _) => exact sound
  | .sizing (.write _) =>
    obtain ⟨earlier, before, rest⟩ := sound
    exact ⟨earlier, before.trans (by simp), rest⟩

/-- What holds in every interleaving. -/
structure Sound (c : Capacity) (s : State T) : Prop where
  writeIndex : s.writeIndex = BitVec.ofNat 64 s.history.pushed.length
  readIndex : s.readIndex = BitVec.ofNat 64 s.history.popped.length
  fifo : s.history.popped <+: s.history.pushed
  bounded : s.history.pushed.length ≤ s.history.popped.length + c.slots
  intact : ∀ j, s.history.popped.length ≤ j → j < s.history.pushed.length →
    s.history.pushed[j]? = some (s.data (j % c.slots))
  producer : s.producer.Sound c s.writeIndex s.data s.history.pushed.length s.history.popped.length
  consumer : s.consumer.Sound s.readIndex s.history.pushed s.history.popped.length
  pushes : ∀ call ∈ s.history.pushes, call.pushCount = min call.newSlots.length call.free
  pops : ∀ call ∈ s.history.pops, call.popCount = min call.filled call.maxSlots ∧
    call.output.length = call.popCount
  sizes : ∀ size ∈ s.history.sizes, size ≤ c.slots

section

variable (sound : Sound c s)

include sound

theorem Sound.ordered : s.history.popped.length ≤ s.history.pushed.length :=
  sound.fifo.length_le

/-- A thread goes on to another place in its program. -/
theorem Sound.withProducer {p : Producer T}
    (next : p.Sound c s.writeIndex s.data s.history.pushed.length s.history.popped.length) :
    Sound c { s with producer := p } :=
  ⟨sound.writeIndex, sound.readIndex, sound.fifo, sound.bounded, sound.intact, next, sound.consumer,
    sound.pushes, sound.pops, sound.sizes⟩

theorem Sound.withConsumer {r : Consumer T}
    (next : r.Sound s.readIndex s.history.pushed s.history.popped.length) :
    Sound c { s with consumer := r } :=
  ⟨sound.writeIndex, sound.readIndex, sound.fifo, sound.bounded, sound.intact, sound.producer, next,
    sound.pushes, sound.pops, sound.sizes⟩

/-- The second load of `Size` finds no more slots than there can be. -/
theorem Sound.size_le {earlier : Nat} (small : s.history.pushed.length ≤ earlier + c.slots)
    (before : earlier ≤ s.history.popped.length) :
    (s.writeIndex - BitVec.ofNat 64 earlier).toNat ≤ c.slots := by
  have := c.lt
  have := sound.ordered
  rw [sound.writeIndex, toNat_sub (by omega) (by omega)]
  omega

/-- In every state the difference of the indices is within the capacity. -/
theorem Sound.toNat_sub_le : (s.writeIndex - s.readIndex).toNat ≤ c.slots := by
  rw [sound.readIndex]
  exact sound.size_le sound.bounded (le_refl _)

end

/-! ## The thread that pushes -/

variable {newSlots : List T}

section

variable (sound : Sound c s)

include sound

theorem Sound.pushLoad (here : s.producer = .loaded newSlots writeIndex) :
    let pushCount := min newSlots.length (BitVec.ofNat 64 c.slots + s.readIndex - writeIndex).toNat
    let free := c.slots - (s.history.pushed.length - s.history.popped.length)
    Sound c { s with producer := .copying newSlots writeIndex pushCount free (range pushCount)
      } := by
  have index : writeIndex = s.writeIndex := by
    have known := sound.producer
    rwa [here] at known
  have ordered := sound.ordered
  have bounded := sound.bounded
  intro pushCount free
  have count : pushCount = min newSlots.length free := by
    change min newSlots.length (BitVec.ofNat 64 c.slots + s.readIndex - writeIndex).toNat = _
    rw [index, sound.writeIndex, sound.readIndex, toNat_slotsFree c ordered bounded]
  refine sound.withProducer ⟨index, count, by omega, fun i => mem_range.mp, fun i inside done => ?_⟩
  exact absurd (mem_range.mpr inside) done

section

variable {pushCount free : Nat} {left : List Nat}
  (here : s.producer = .copying newSlots writeIndex pushCount free left)

include here

/-- A slot is written to a place where no slot is waiting. -/
theorem Sound.apart {i j : Nat}
    (inside : i < pushCount) (waiting : s.history.popped.length ≤ j)
    (pushed : j < s.history.pushed.length) :
    j % c.slots ≠ position c.slots writeIndex pushCount i := by
  have known := sound.producer
  rw [here] at known
  obtain ⟨rfl, _, room, _⟩ := known
  have := sound.ordered
  rw [sound.writeIndex, position_eq c (by omega) inside]
  exact mod_ne (by omega) (by omega)

theorem Sound.pushCopy {i : Nat} {slot : T}
    (found : newSlots[i]? = some slot) (member : i ∈ left) :
    Sound c { s with
      data := update s.data (position c.slots writeIndex pushCount i) slot
      producer := .copying newSlots writeIndex pushCount free (left.erase i) } := by
  have known := sound.producer
  rw [here] at known
  obtain ⟨rfl, count, room, bound, copied⟩ := known
  have inside := bound i member
  have ordered := sound.ordered
  refine ⟨sound.writeIndex, sound.readIndex, sound.fifo, sound.bounded, fun j waiting pushed => ?_,
    ⟨rfl, count, room, fun i' later => bound i' (mem_of_mem_erase later),
      fun i' inside' done => ?_⟩, sound.consumer, sound.pushes, sound.pops, sound.sizes⟩
  · have kept := update_of_ne (sound.apart here inside waiting pushed) slot s.data
    exact (sound.intact j waiting pushed).trans (congrArg some kept.symm)
  · change newSlots[i']? = some (update s.data (position c.slots s.writeIndex pushCount i) slot
      ((s.history.pushed.length + i') % c.slots))
    rw [sound.writeIndex, position_eq c (by omega) inside]
    by_cases same : i' = i
    · rw [same, update_self, found]
    · -- two slots of one call have different places
      rw [update_of_ne, copied i' inside' fun earlier => done ((mem_erase_of_ne same).mpr earlier)]
      rcases lt_or_gt_of_ne same with before | behind
      · exact mod_ne (by omega) (by omega)
      · exact (mod_ne (by omega) (by omega)).symm

end

theorem Sound.pushStore
    {pushCount free : Nat} (here : s.producer = .copying newSlots writeIndex pushCount free []) :
    Sound c { s with
      writeIndex := writeIndex + BitVec.ofNat 64 pushCount
      producer := .idle
      history := { s.history with pushes := s.history.pushes ++ [⟨newSlots, free, pushCount⟩] }
        } := by
  have known := sound.producer
  rw [here] at known
  obtain ⟨rfl, count, room, _, copied⟩ := known
  have pushed : History.pushed
    { s.history with pushes := s.history.pushes ++ [⟨newSlots, free, pushCount⟩] } =
    s.history.pushed ++ newSlots.take pushCount := by
    simp [History.pushed]
  have taken : (newSlots.take pushCount).length = pushCount := by
    rw [length_take]
    omega
  refine ⟨?_, sound.readIndex, ?_, ?_, fun j waiting inside => ?_, trivial, ?_,
    fun call member => ?_, sound.pops, sound.sizes⟩
  · rw [pushed, length_append, taken, sound.writeIndex, ← BitVec.ofNat_add]
  · rw [pushed]
    exact sound.fifo.trans (prefix_append ..)
  · rw [pushed, length_append, taken]
    exact room
  · rw [pushed, length_append, taken] at inside
    rw [pushed]
    rcases lt_or_ge j s.history.pushed.length with old | new
    · rw [getElem?_append_left old]
      exact sound.intact j waiting old
    · have copied := copied (j - s.history.pushed.length) (by omega) not_mem_nil
      rw [Nat.add_sub_cancel' new] at copied
      rw [getElem?_append_right new, getElem?_take_of_lt (by omega), copied]
  · rw [pushed]
    exact sound.consumer.pushed _
  · rcases mem_append.mp member with member | member
    · exact sound.pushes call member
    · rw [mem_singleton.mp member]
      exact count

/-! ## The thread that pops -/

theorem Sound.popLoad {maxSlots : Nat} (here : s.consumer = .loaded maxSlots readIndex) :
    let popCount := min (s.writeIndex - readIndex).toNat maxSlots
    let filled := s.history.pushed.length - s.history.popped.length
    Sound c { s with
      consumer := .copying maxSlots readIndex popCount filled (fun _ => none) (range popCount)
        } := by
  have index : readIndex = s.readIndex := by
    have known := sound.consumer
    rwa [here] at known
  have ordered := sound.ordered
  have bounded := sound.bounded
  have := c.lt
  intro popCount filled
  have count : popCount = min filled maxSlots := by
    change min (s.writeIndex - readIndex).toNat maxSlots = _
    rw [index, sound.writeIndex, sound.readIndex, toNat_sub ordered (by omega)]
  refine sound.withConsumer ⟨index, count, by omega, fun i => mem_range.mp, fun i inside done => ?_⟩
  exact absurd (mem_range.mpr inside) done

theorem Sound.popCopy {maxSlots : Nat} {popCount filled : Nat}
    {output : Nat → Option T} {left : List Nat}
    (here : s.consumer = .copying maxSlots readIndex popCount filled output left) {i : Nat}
    (member : i ∈ left) :
    Sound c { s with
      consumer := .copying maxSlots readIndex popCount filled
        (update output i (some (s.data (position c.slots readIndex popCount i)))) (left.erase i)
          } := by
  have known := sound.consumer
  rw [here] at known
  obtain ⟨rfl, count, waiting, bound, copied⟩ := known
  have inside := bound i member
  have bounded := sound.bounded
  refine sound.withConsumer ⟨rfl, count, waiting, fun i' later => bound i' (mem_of_mem_erase later),
    fun i' inside' done => ?_⟩
  by_cases same : i' = i
  · rw [same, update_self, sound.readIndex, position_eq c (by omega) inside]
    exact (sound.intact _ (Nat.le_add_right ..) (by omega)).symm
  · rw [update_of_ne same]
    exact copied i' inside' fun earlier => done ((mem_erase_of_ne same).mpr earlier)

end

/-- The slots that are copied out of a part of a list. -/
theorem filterMap_range (l : List T) (output : Nat → Option T) (start count : Nat)
    (inside : start + count ≤ l.length) (copied : ∀ i < count, output i = l[start + i]?) :
    (range count).filterMap output = (l.drop start).take count := by
  induction count with
  | zero => rfl
  | succ count ih =>
    have last : (l.drop start)[count]? = some l[start + count] := by
      rw [getElem?_drop]
      exact getElem?_eq_getElem (by omega)
    rw [range_succ, filterMap_append, ih (by omega) fun i small => copied i (by omega),
      take_add_one, last]
    simp [copied count (lt_succ_self count),
      getElem?_eq_getElem (show start + count < l.length by omega)]

section

variable (sound : Sound c s)

include sound

theorem Sound.popStore {maxSlots : Nat} {popCount filled : Nat}
    {output : Nat → Option T}
    (here : s.consumer = .copying maxSlots readIndex popCount filled output []) : Sound c { s with
      readIndex := readIndex + BitVec.ofNat 64 popCount
      consumer := .idle
      history := { s.history with pops := s.history.pops ++
        [⟨maxSlots, filled, popCount, (range popCount).filterMap output⟩] } } := by
  have known := sound.consumer
  rw [here] at known
  obtain ⟨rfl, count, waiting, _, copied⟩ := known
  have taken := filterMap_range s.history.pushed output s.history.popped.length popCount waiting
    fun i inside => copied i inside not_mem_nil
  have length : ((s.history.pushed.drop s.history.popped.length).take popCount).length =
      popCount := by
    rw [length_take, length_drop]
    omega
  rw [taken]
  have popped : History.popped
    { s.history with pops := s.history.pops ++ [⟨maxSlots, filled, popCount,
      (s.history.pushed.drop s.history.popped.length).take popCount⟩] } =
      s.history.popped ++ (s.history.pushed.drop s.history.popped.length).take popCount := by
    simp [History.popped]
  have more : s.history.popped.length ≤
      (s.history.popped ++ (s.history.pushed.drop s.history.popped.length).take
        popCount).length := by simp
  refine ⟨sound.writeIndex, ?_, ?_, ?_, fun j waiting inside => ?_, ?_, trivial, sound.pushes,
    fun call member => ?_, sound.sizes⟩
  · rw [popped, length_append, length, sound.readIndex, ← BitVec.ofNat_add]
  · rw [popped]
    obtain ⟨rest, whole⟩ := sound.fifo
    have behind : s.history.pushed.drop s.history.popped.length = rest := by rw [← whole, drop_left]
    rw [behind]
    exact whole ▸ (prefix_append_right_inj _).mpr (List.take_prefix ..)
  · rw [popped]
    exact sound.bounded.trans (Nat.add_le_add_right more _)
  · rw [popped] at waiting
    exact sound.intact j (more.trans waiting) inside
  · rw [popped]
    exact sound.producer.popped more
  · rcases mem_append.mp member with member | member
    · exact sound.pops call member
    · rw [mem_singleton.mp member]
      exact ⟨count, length⟩

/-! ## Sizes -/

theorem Sound.endSize {first : Sizing} (small : RingBuffer.endSize s first ≤ c.slots) :
    Sound c { s with history :=
      { s.history with sizes := s.history.sizes ++ [RingBuffer.endSize s first] } } := by
  refine ⟨sound.writeIndex, sound.readIndex, sound.fifo, sound.bounded, sound.intact,
    sound.producer, sound.consumer, sound.pushes, sound.pops, fun size member => ?_⟩
  rcases mem_append.mp member with member | member
  · exact sound.sizes size member
  · rwa [mem_singleton.mp member]

theorem Sound.producerSize_le {first : Sizing} (here : s.producer = .sizing first) :
    RingBuffer.endSize s first ≤ c.slots := by
  have known := sound.producer
  rw [here] at known
  cases first with
  | write index =>
    cases known
    exact sound.toNat_sub_le
  | read index =>
    obtain ⟨earlier, before, rfl, small⟩ := known
    exact sound.size_le small before

theorem Sound.consumerSize_le {first : Sizing} (here : s.consumer = .sizing first) :
    RingBuffer.endSize s first ≤ c.slots := by
  have known := sound.consumer
  rw [here] at known
  cases first with
  | write index =>
    obtain ⟨earlier, before, rfl, after⟩ := known
    have bounded := sound.bounded
    have := c.lt
    rw [RingBuffer.endSize, sound.readIndex, toNat_sub after (by omega)]
    omega
  | read index =>
    cases known
    exact sound.toNat_sub_le

/-! ## Runs -/

/-- Every step keeps the invariant. -/
theorem Sound.step {a : Action T} (taken : step c.slots s a = some s') : Sound c s' := by
  cases a with
  | push newSlots =>
    cases here : s.producer with
    | idle =>
      simp only [RingBuffer.step, here] at taken
      split at taken
      · cases taken
        exact sound.withProducer rfl
      · cases taken
    | _ => simp [RingBuffer.step, here] at taken
  | pushLoad =>
    cases here : s.producer with
    | loaded newSlots writeIndex =>
      simp only [RingBuffer.step, here] at taken
      cases taken
      exact sound.pushLoad here
    | _ => simp [RingBuffer.step, here] at taken
  | pushCopy i =>
    cases here : s.producer with
    | copying newSlots writeIndex pushCount free left =>
      cases found : newSlots[i]? with
      | none => simp [RingBuffer.step, here, found] at taken
      | some slot =>
        simp only [RingBuffer.step, here, found] at taken
        split at taken
        · cases taken
          exact sound.pushCopy here found ‹_›
        · cases taken
    | _ => simp [RingBuffer.step, here] at taken
  | pushStore =>
    cases here : s.producer with
    | copying newSlots writeIndex pushCount free left =>
      cases left with
      | nil =>
        simp only [RingBuffer.step, here] at taken
        cases taken
        exact sound.pushStore here
      | cons i left => simp [RingBuffer.step, here] at taken
    | _ => simp [RingBuffer.step, here] at taken
  | pop maxSlots =>
    cases here : s.consumer with
    | idle =>
      simp only [RingBuffer.step, here] at taken
      split at taken
      · cases taken
        exact sound.withConsumer rfl
      · cases taken
    | _ => simp [RingBuffer.step, here] at taken
  | popLoad =>
    cases here : s.consumer with
    | loaded maxSlots readIndex =>
      simp only [RingBuffer.step, here] at taken
      cases taken
      exact sound.popLoad here
    | _ => simp [RingBuffer.step, here] at taken
  | popCopy i =>
    cases here : s.consumer with
    | copying maxSlots readIndex popCount filled output left =>
      simp only [RingBuffer.step, here] at taken
      split at taken
      · cases taken
        exact sound.popCopy here ‹_›
      · cases taken
    | _ => simp [RingBuffer.step, here] at taken
  | popStore =>
    cases here : s.consumer with
    | copying maxSlots readIndex popCount filled output left =>
      cases left with
      | nil =>
        simp only [RingBuffer.step, here] at taken
        cases taken
        exact sound.popStore here
      | cons i left => simp [RingBuffer.step, here] at taken
    | _ => simp [RingBuffer.step, here] at taken
  | producerSize writeFirst =>
    cases here : s.producer with
    | idle =>
      simp only [RingBuffer.step, here] at taken
      cases taken
      refine sound.withProducer ?_
      cases writeFirst
      · exact ⟨_, le_refl _, sound.readIndex, sound.bounded⟩
      · rfl
    | _ => simp [RingBuffer.step, here] at taken
  | producerSizeLoad =>
    cases here : s.producer with
    | sizing first =>
      simp only [RingBuffer.step, here] at taken
      cases taken
      exact (sound.endSize (sound.producerSize_le here)).withProducer trivial
    | _ => simp [RingBuffer.step, here] at taken
  | consumerSize writeFirst =>
    cases here : s.consumer with
    | idle =>
      simp only [RingBuffer.step, here] at taken
      cases taken
      refine sound.withConsumer ?_
      cases writeFirst
      · rfl
      · exact ⟨_, le_refl _, sound.writeIndex, sound.ordered⟩
    | _ => simp [RingBuffer.step, here] at taken
  | consumerSizeLoad =>
    cases here : s.consumer with
    | sizing first =>
      simp only [RingBuffer.step, here] at taken
      cases taken
      exact (sound.endSize (sound.consumerSize_le here)).withConsumer trivial
    | _ => simp [RingBuffer.step, here] at taken

end

theorem sound_start (c : Capacity) (data : Nat → T) : Sound c { data } where
  writeIndex := rfl
  readIndex := rfl
  fifo := prefix_refl _
  bounded := zero_le _
  intact j _ inside := absurd inside (not_lt_zero j)
  producer := trivial
  consumer := trivial
  pushes _ absurdity := by cases absurdity
  pops _ absurdity := by cases absurdity
  sizes _ absurdity := by cases absurdity

theorem Sound.foldlM (sound : Sound c s) {actions : List (Action T)}
    (taken : actions.foldlM (RingBuffer.step c.slots) s = some s') : Sound c s' := by
  induction actions generalizing s with
  | nil =>
    cases taken
    exact sound
  | cons a actions ih =>
    obtain ⟨s'', first, rest⟩ := Option.bind_eq_some_iff.mp taken
    exact ih (sound.step first) rest

theorem sound_run {data : Nat → T} {actions : List (Action T)}
    (taken : run c.slots data actions = some s) : Sound c s :=
  (sound_start c data).foldlM taken

/-- Any interleaving of the steps of a thread that pushes and a thread that pops: the slots
come out in the order in which they went in, none is overwritten while it waits, and the
calls accept and return as many as they can. -/
theorem run_fifo (c : Capacity) (data : Nat → T) (actions : List (Action T))
    (taken : run c.slots data actions = some s) :
    s.history.popped <+: s.history.pushed ∧
    (∀ j, s.history.popped.length ≤ j → j < s.history.pushed.length →
      s.history.pushed[j]? = some (s.data (j % c.slots)) ∧
      ∀ newSlots writeIndex pushCount free left,
        s.producer = .copying newSlots writeIndex pushCount free left →
        ∀ i < pushCount, j % c.slots ≠ position c.slots writeIndex pushCount i) ∧
    (∀ call ∈ s.history.pushes, call.pushCount = min call.newSlots.length call.free) ∧
    (∀ call ∈ s.history.pops,
      call.popCount = min call.maxSlots call.filled ∧ call.output.length = call.popCount) ∧
    (s.writeIndex - s.readIndex).toNat ≤ c.slots ∧ ∀ size ∈ s.history.sizes, size ≤ c.slots := by
  have sound := sound_run taken
  refine ⟨sound.fifo, fun j waiting pushed => ⟨sound.intact j waiting pushed, ?_⟩, sound.pushes,
    fun call member => ?_, sound.toNat_sub_le, sound.sizes⟩
  · intro newSlots writeIndex pushCount free left here i inside
    exact sound.apart here inside waiting pushed
  · rw [min_comm]
    exact sound.pops call member

/-- Two slots are pushed while the one before them is popped, around the end of the array. -/
theorem run_fifo_around : ∃ s : State Char,
    run 2 (fun _ => 'x') [.push ['a'], .pushLoad, .pushCopy 0, .pushStore, .pop 5, .popLoad,
      .push ['b', 'c'], .popCopy 0, .popStore, .pushLoad, .pushCopy 1, .pushCopy 0, .pushStore,
      .pop 1, .popLoad, .popCopy 0, .popStore] = some s ∧ s.history.pushed = ['a', 'b', 'c'] ∧
      s.history.popped <+: s.history.pushed := by
  have taken : (run 2 (fun _ => 'x') [.push ['a'], .pushLoad, .pushCopy 0, .pushStore, .pop 5,
    .popLoad, .push ['b', 'c'], .popCopy 0, .popStore, .pushLoad, .pushCopy 1, .pushCopy 0,
    .pushStore, .pop 1, .popLoad, .popCopy 0, .popStore]).map (fun s => s.history.pushed) =
    some ['a', 'b', 'c'] := by decide
  obtain ⟨s, reached, pushed⟩ := Option.map_eq_some_iff.mp taken
  exact ⟨s, reached, pushed, (run_fifo ⟨2, by decide, by decide, by decide⟩ _ _ reached).1⟩

end RingBuffer

end SumiEmu.Common
