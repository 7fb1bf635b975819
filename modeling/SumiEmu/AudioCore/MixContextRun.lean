/-
# The distances from the final mix

The mixes are measured in the order of their indices. When the chain of a mix comes to one that is
measured already, the code takes the distance of that one and adds a single hop, whatever the number
of hops so far. The distance is right when the measured mix is the destination, or when there is
none on the chain before the final mix, and it is too small otherwise.
-/

import SumiEmu.AudioCore.MixContext

namespace SumiEmu.AudioCore.MixContext

open Fallible Foundations.Chains Function List Nat

variable {mixes : List MixInfo} {f : Nat → Int} {i j k m n rounds : Nat} {d : Int}

/-! ## Mixes with distances of their own -/

/-- The mixes with other distances. -/
def withDistances (mixes : List MixInfo) (f : Nat → Int) : List MixInfo :=
  mixes.mapIdx fun i mix => { mix with distanceFromFinalMix := f i }

@[simp] theorem length_withDistances : (withDistances mixes f).length = mixes.length :=
  length_mapIdx

@[simp] theorem getElem?_withDistances :
    (withDistances mixes f)[i]? = mixes[i]?.map fun mix =>
    { mix with distanceFromFinalMix := f i } := by
  rw [withDistances, getElem?_mapIdx]

theorem distance_withDistances (inside : i < mixes.length) :
    distance (withDistances mixes f) i = f i := by
  rw [distance, getElem?_withDistances, getElem?_eq_getElem inside, Option.map_some]

theorem distance_outside {mixes : List MixInfo} (outside : mixes.length ≤ i) :
    distance mixes i = InvalidDistanceFromFinalMix := by
  rw [distance, getElem?_eq_none outside]

theorem infoAt_withDistances (inside : i < mixes.length) :
    infoAt (withDistances mixes f) i = .ok { mixes[i] with distanceFromFinalMix := f i } := by
  rw [infoAt, if_neg (by omega), Int.toNat_natCast, getElem?_withDistances,
    getElem?_eq_getElem inside, Option.map_some]

theorem set_withDistances (inside : i < mixes.length) :
    (withDistances mixes f).set i { mixes[i] with distanceFromFinalMix := d } =
      withDistances mixes (update f i d) := by
  apply ext_getElem?
  intro j
  rw [getElem?_set, length_withDistances, if_pos inside, getElem?_withDistances,
    getElem?_withDistances]
  split_ifs with here
  · subst here
    simp [inside]
  · rw [update_of_ne (Ne.symm here)]

theorem withDistances_eq_map :
    (mixes.map fun mix => { mix with distanceFromFinalMix := d }) = withDistances mixes fun _ =>
    d := by
  apply ext_getElem?
  intro i
  simp

/-! ## Following the destinations -/

/-- The destinations of the mixes are unused or mixes. -/
def Led (mixes : List MixInfo) : Prop :=
  mixes.length < 2 ^ 31 ∧ ∀ mix ∈ mixes, mix.dstMixId = UnusedMixId ∨
    0 ≤ mix.dstMixId ∧ mix.dstMixId < mixes.length

theorem Led.destination (led : Led mixes) (inside : i < mixes.length) :
    mixes[i].dstMixId = UnusedMixId ∧ destination mixes i = none ∨
      ∃ j : Nat, j < mixes.length ∧ mixes[i].dstMixId = j ∧ destination mixes i = some j := by
  obtain ⟨counted, leads⟩ := led
  obtain unused | ⟨nonneg, below⟩ := leads mixes[i] (getElem_mem inside)
  · exact .inl ⟨unused, by simp [MixContext.destination, inside, unused]⟩
  · obtain ⟨j, same⟩ := Int.eq_ofNat_of_zero_le nonneg
    have named : (j : Int) ≠ UnusedMixId := by
      rw [UnusedMixId]
      omega
    exact .inr ⟨j, by omega, same, by simp [MixContext.destination, inside, named, same]⟩

theorem Led.closed (led : Led mixes) :
    ∀ i ∈ Finset.range mixes.length, ∀ j, MixContext.destination mixes i = some j →
      j ∈ Finset.range mixes.length := by
  intro i member j follows
  obtain ⟨-, none⟩ | ⟨j', inside, -, some⟩ := led.destination (Finset.mem_range.mp member)
  · rw [none] at follows
    cases follows
  · rw [some] at follows
    obtain rfl := Option.some.inj follows
    exact Finset.mem_range.mpr inside

theorem Led.hops_lt (led : Led mixes) (inside : i < mixes.length) (hops : HopsTo mixes n i 0) :
    n < mixes.length := by
  simpa using hops.lt_card led.closed (by simpa using inside)

theorem Led.inside (led : Led mixes) (inside : i < mixes.length) (hops : HopsTo mixes n i j) :
    j < mixes.length := by
  simpa using hops.mem led.closed (by simpa using inside)

theorem follow_final : followDestinations mixes (rounds + 1) (0 : Nat) d = .ok d := by
  simp [followDestinations, FinalMixId]

theorem follow_succ (led : Led mixes) (inside : i < mixes.length) (behind : i ≠ 0) :
    followDestinations (withDistances mixes f) (rounds + 1) i d =
      if f i ≠ InvalidDistanceFromFinalMix then .ok (f i + 1)
      else followDestinations (withDistances mixes f) rounds mixes[i].dstMixId (d + 1) := by
  have counted := led.1
  have used : (i : Int) ≠ UnusedMixId := by
    rw [UnusedMixId]
    omega
  have first : (i : Int) ≠ FinalMixId := by
    rw [FinalMixId]
    omega
  rw [followDestinations, if_neg first, if_neg used, infoAt_withDistances inside, ok_bind]

theorem follow_unused (mixes : List MixInfo) (rounds : Nat) (d : Int) :
    followDestinations mixes rounds UnusedMixId d = .ok d ∧ rounds = 0 ∨
      followDestinations mixes rounds UnusedMixId d = .ok InvalidDistanceFromFinalMix := by
  cases rounds with
  | zero => exact .inl ⟨rfl, rfl⟩
  | succ rounds =>
    right
    rw [followDestinations, if_neg (by decide), if_pos rfl]

/-- The first mix of the chain that has a distance gives it away. -/
theorem follow_known (led : Led mixes) (inside : i < mixes.length) (hops : HopsTo mixes m i j)
    (behind : j ≠ 0)
    (known : f j ≠ InvalidDistanceFromFinalMix)
    (unknown : ∀ m' < m, ∀ j', HopsTo mixes m' i j' → f j' = InvalidDistanceFromFinalMix)
    (room : m < rounds) :
    followDestinations (withDistances mixes f) rounds i d = .ok (f j + 1) := by
  induction hops generalizing rounds d with
  | here i =>
    obtain ⟨rounds, rfl⟩ := exists_eq_succ_of_ne_zero (ne_of_gt room)
    rw [follow_succ led inside behind, if_pos known]
  | @hop m i i' j before follows rest hyp =>
    obtain ⟨rounds, rfl⟩ := exists_eq_succ_of_ne_zero (show rounds ≠ 0 by omega)
    have here := unknown 0 (succ_pos _) i (.here i)
    obtain ⟨-, none⟩ | ⟨j', inside', same, some⟩ := led.destination inside
    · rw [none] at follows
      cases follows
    rw [some] at follows
    obtain rfl := Option.some.inj follows
    rw [follow_succ led inside before, if_neg (not_not.mpr here), same]
    exact hyp inside' behind known
      (fun m' below j' hops => unknown (m' + 1) (succ_lt_succ below) j' (.hop before some hops))
        (by omega)

/-- A chain without distances is followed up to the final mix. -/
theorem follow_reaching (led : Led mixes) (inside : i < mixes.length) (hops : HopsTo mixes n i 0)
    (unknown : ∀ m j, HopsTo mixes m i j → j ≠ 0 → f j = InvalidDistanceFromFinalMix)
    (room : n < rounds) : followDestinations (withDistances mixes f) rounds i d = .ok (d + n) := by
  induction n generalizing i rounds d with
  | zero =>
    obtain ⟨rounds, rfl⟩ := exists_eq_succ_of_ne_zero (ne_of_gt room)
    obtain rfl := Hops.zero_iff.mp hops
    rw [follow_final, Int.natCast_zero, add_zero]
  | succ n hyp =>
    obtain ⟨rounds, rfl⟩ := exists_eq_succ_of_ne_zero (show rounds ≠ 0 by omega)
    obtain ⟨before, i', follows, rest⟩ := Hops.succ_iff.mp hops
    have here := unknown 0 i (.here i) before
    obtain ⟨-, none⟩ | ⟨j', inside', same, some⟩ := led.destination inside
    · rw [none] at follows
      cases follows
    rw [some] at follows
    obtain rfl := Option.some.inj follows
    have found := hyp (d := d + 1) inside' rest
      (fun m j hops behind => unknown (m + 1) j (.hop before some hops) behind)
        (show n < rounds by omega)
    rw [follow_succ led inside before, if_neg (not_not.mpr here), same, found]
    congr 1
    push_cast
    omega

/-- A chain that misses the final mix is cut off or followed until the rounds are over. -/
theorem follow_lost (rounds : Nat) (d : Int) (led : Led mixes) (inside : i < mixes.length)
    (lost : ¬ ReachesFinal mixes i)
    (unknown : ∀ m j, HopsTo mixes m i j → f j = InvalidDistanceFromFinalMix) :
    followDestinations (withDistances mixes f) rounds i d = .ok (d + rounds) ∨
      followDestinations (withDistances mixes f) rounds i d = .ok InvalidDistanceFromFinalMix := by
  induction rounds generalizing i d with
  | zero =>
    left
    rw [followDestinations, Int.natCast_zero, add_zero]
  | succ rounds hyp =>
    have before : i ≠ 0 := by
      rintro rfl
      exact lost ⟨0, .here 0⟩
    have here := unknown 0 i (.here i)
    rw [follow_succ led inside before, if_neg (not_not.mpr here)]
    have sum : d + 1 + rounds = d + ((rounds + 1 : Nat) : Int) := by
      push_cast
      omega
    obtain ⟨unused, -⟩ | ⟨j, inside', same, follows⟩ := led.destination inside
    · rw [unused]
      obtain ⟨found, rfl⟩ | found := follow_unused (withDistances mixes f) rounds (d + 1)
      · exact .inl (by rw [found]; simp)
      · exact .inr found
    · rw [same]
      have lost' : ¬ ReachesFinal mixes j := by
        rintro ⟨n, hops⟩
        exact lost ⟨n + 1, .hop before follows hops⟩
      have found := hyp (d + 1) inside' lost' fun m j' hops =>
        unknown (m + 1) j' (.hop before follows hops)
      rwa [sum] at found

/-! ## Measuring the mixes one after the other -/

/-- What the distances of the first `k` mixes are. -/
structure Measured (mixes : List MixInfo) (k : Nat) (f : Nat → Int) : Prop where
  known : ∀ j, f j ≠ InvalidDistanceFromFinalMix ↔ j < k ∧ InUse mixes j ∧ ReachesFinal mixes j
  bounds : ∀ j n, j < k → InUse mixes j → HopsTo mixes n j 0 → 0 ≤ f j ∧ f j ≤ n
  exact : (∀ j < k, Heeds mixes j) → ∀ j n, j < k → InUse mixes j → HopsTo mixes n j 0 → f j = n
  short : ∀ j < k, ¬ Heeds mixes j → ∀ n, HopsTo mixes n j 0 → f j < n

theorem InUse.inside (used : InUse mixes i) : i < mixes.length := by
  obtain ⟨mix, found, -⟩ := used
  exact (List.getElem?_eq_some_iff.mp found).1

theorem invalid_lt (n : Nat) : InvalidDistanceFromFinalMix < n := by
  rw [InvalidDistanceFromFinalMix]
  omega

theorem Measured.start : Measured mixes 0 fun _ => InvalidDistanceFromFinalMix where
  known := by simp
  bounds := by simp
  exact := by simp
  short := by simp

/-- What the loop finds for a mix from the distances of the ones before it. -/
structure Finds (mixes : List MixInfo) (f : Nat → Int) (k : Nat) (v : Int) : Prop where
  lost : ¬ ReachesFinal mixes k → v = InvalidDistanceFromFinalMix
  bounds : ∀ n, HopsTo mixes n k 0 → 0 ≤ v ∧ v ≤ n
  exact : Heeds mixes k → (∀ j n, j < k → InUse mixes j → HopsTo mixes n j 0 → f j = n) →
    ∀ n, HopsTo mixes n k 0 → v = n
  short : ¬ Heeds mixes k → ∀ n, HopsTo mixes n k 0 → v < n

/-- A loop that ends below the count keeps its distance. -/
theorem distanceToFinalMix_eq {found : Int}
    (follow : followDestinations mixes mixes.length j 0 = .ok found) : distanceToFinalMix mixes j =
      .ok (if (mixes.length : Int) ≤ found then InvalidDistanceFromFinalMix else found) := by
  rw [distanceToFinalMix, FinalMixId, follow, ok_bind]
  rfl

section

variable (measured : Measured mixes k f)

include measured

/-- The first mix of the chain that is measured, its place on the chain, and its distance. -/
theorem Measured.exists_first
    (known : ∃ m j, HopsTo mixes m k j ∧ j ≠ 0 ∧ f j ≠ InvalidDistanceFromFinalMix) :
    ∃ m j, HopsTo mixes (m + 1) k j ∧ j ≠ 0 ∧ f j ≠ InvalidDistanceFromFinalMix ∧
      ∀ m' < m + 1, ∀ j', HopsTo mixes m' k j' → f j' = InvalidDistanceFromFinalMix := by
  classical
  obtain ⟨j, part, behind, knownHere⟩ := Nat.find_spec known
  have first : ∀ m' < Nat.find known, ∀ j', HopsTo mixes m' k j' →
      f j' = InvalidDistanceFromFinalMix := by
    intro m' below j' part'
    by_contra knownThere
    obtain rfl : j' = 0 := by
      by_contra behind'
      exact Nat.find_min known below ⟨j', part', behind', knownThere⟩
    -- The chain would have stopped at the final mix.
    exact absurd (part'.rest part).1 (not_le.mpr below)
  generalize Nat.find known = place at part first
  cases place with
  | zero =>
    obtain rfl := Hops.zero_iff.mp part
    exact absurd ((measured.known k).mp knownHere).1 (lt_irrefl k)
  | succ m => exact ⟨m, j, part, behind, knownHere, first⟩

theorem Measured.finds_known (led : Led mixes) (used : InUse mixes k) (hops : HopsTo mixes n k 0)
    (known : ∃ m j, HopsTo mixes m k j ∧ j ≠ 0 ∧ f j ≠ InvalidDistanceFromFinalMix) :
    ∃ v, followDestinations (withDistances mixes f) mixes.length k 0 = .ok v ∧ v ≤ n ∧
      Finds mixes f k v := by
  obtain ⟨m, j, part, behind, knownHere, first⟩ := measured.exists_first known
  obtain ⟨le, rest⟩ := hops.rest part
  obtain ⟨earlier, usedHere, -⟩ := (measured.known j).mp knownHere
  obtain ⟨nonneg, atMost⟩ := measured.bounds j _ earlier usedHere rest
  obtain ⟨before, i, follows, part'⟩ := Hops.succ_iff.mp part
  have few := led.hops_lt used.inside hops
  refine ⟨f j + 1, follow_known led used.inside part behind knownHere first
    (by omega), by omega, ?_, ?_, ?_, ?_⟩
  · exact fun lost => absurd ⟨n, hops⟩ lost
  · intro n' hops'
    obtain rfl := hops.length_eq hops'
    omega
  · intro heeds exact n' hops'
    obtain rfl := hops.length_eq hops'
    obtain ⟨i', follows', earlier', usedThere⟩ | none := heeds used ⟨n, hops⟩
    swap
    · exact absurd ⟨earlier, usedHere⟩ (none _ j (succ_pos m) part behind)
    rw [follows] at follows'
    obtain rfl := Option.some.inj follows'
    -- The destination has a distance, so that the first mix with one is the destination.
    have next : HopsTo mixes 1 k i := .hop before follows (.here i)
    have knownThere := (measured.known i).mpr ⟨earlier', usedThere, _, (hops.rest next).2⟩
    obtain rfl : m = 0 := by
      by_contra far
      exact knownThere (first 1 (by omega) i next)
    rw [exact j _ earlier usedHere rest]
    omega
  · intro heedless n' hops'
    obtain rfl := hops.length_eq hops'
    have far : m ≠ 0 := by
      rintro rfl
      obtain rfl := Hops.zero_iff.mp part'
      exact heedless fun _ _ => .inl ⟨i, follows, earlier, usedHere⟩
    omega

theorem Measured.finds (led : Led mixes) (used : InUse mixes k) :
    ∃ v, distanceToFinalMix (withDistances mixes f) k = .ok v ∧ Finds mixes f k v := by
  have inside := used.inside
  have unmeasured : f k = InvalidDistanceFromFinalMix := by
    by_contra known
    exact absurd ((measured.known k).mp known).1 (lt_irrefl k)
  have unknown_iff (j : Nat) (reaches : ReachesFinal mixes j) :
      f j = InvalidDistanceFromFinalMix ↔ ¬ (j < k ∧ InUse mixes j) := by
    have := measured.known j
    tauto
  by_cases reaches : ReachesFinal mixes k
  swap
  · -- No mix of the chain has a distance, since one with a distance reaches the final mix.
    have unknown (m j : Nat) (hops : HopsTo mixes m k j) : f j = InvalidDistanceFromFinalMix := by
      by_contra known
      exact reaches ((hops.reaches_iff).mp ((measured.known j).mp known).2.2)
    refine ⟨InvalidDistanceFromFinalMix, ?_, fun _ => rfl, fun n hops => absurd ⟨n, hops⟩ reaches,
      fun _ _ n hops => absurd ⟨n, hops⟩ reaches, fun _ n hops => absurd ⟨n, hops⟩ reaches⟩
    obtain found | found := follow_lost mixes.length 0 led inside reaches unknown
    · rw [distanceToFinalMix_eq (by simpa using found)]
      simp
    · rw [distanceToFinalMix_eq (by simpa using found), ite_self]
  obtain ⟨n, hops⟩ := reaches
  have few := led.hops_lt inside hops
  by_cases first : ∃ m, ∃ j, HopsTo mixes m k j ∧ j ≠ 0 ∧ f j ≠ InvalidDistanceFromFinalMix
  · obtain ⟨v, found, le, finds⟩ := measured.finds_known led used hops first
    refine ⟨v, ?_, finds⟩
    rw [distanceToFinalMix_eq (by simpa using found), length_withDistances, if_neg (by omega)]
  · push Not at first
    have found := follow_reaching (d := 0) led inside hops
      (fun m j part behind => first m j part behind) few
    refine ⟨n, ?_, fun lost => absurd ⟨n, hops⟩ lost, ?_, ?_, ?_⟩
    · rw [distanceToFinalMix_eq (by simpa using found), length_withDistances, if_neg (by omega)]
    · intro n' hops'
      rw [hops.length_eq hops']
      omega
    · intro _ _ n' hops'
      rw [hops.length_eq hops']
    · intro heedless
      refine absurd (fun _ _ => .inr fun m j _ part behind => ?_) heedless
      exact (unknown_iff j ⟨_, (hops.rest part).2⟩).mp (first m j part behind)

theorem Measured.skip (unused : ¬ InUse mixes k) : Measured mixes (k + 1) f := by
  have earlier {j : Nat} (below : j < k + 1) (used : InUse mixes j) : j < k := by
    have : j ≠ k := by
      rintro rfl
      exact unused used
    omega
  refine ⟨fun j => (measured.known j).trans ⟨?_, ?_⟩, ?_, ?_, ?_⟩
  · rintro ⟨below, rest⟩
    exact ⟨lt_succ_of_lt below, rest⟩
  · rintro ⟨below, used, reaches⟩
    exact ⟨earlier below used, used, reaches⟩
  · exact fun j n below used => measured.bounds j n (earlier below used) used
  · exact fun heeds j n below used =>
      measured.exact (fun j' below' => heeds j' (lt_succ_of_lt below')) j n (earlier below used)
        used
  · intro j below heedless
    refine measured.short j (earlier below ?_) heedless
    by_contra unusedHere
    exact heedless fun used => absurd used unusedHere

theorem Measured.extend {v : Int} (used : InUse mixes k) (finds : Finds mixes f k v) :
    Measured mixes (k + 1) (update f k v) := by
  have cases_of_lt {j : Nat} (below : j < k + 1) : j = k ∨ j < k ∧ j ≠ k := by omega
  refine ⟨?_, ?_, ?_, ?_⟩
  · intro j
    by_cases here : j = k
    · subst here
      rw [update_self]
      constructor
      · intro found
        exact ⟨lt_succ_self j, used, by_contra fun lost => found (finds.lost lost)⟩
      · rintro ⟨-, -, n, hops⟩
        have := (finds.bounds n hops).1
        rw [InvalidDistanceFromFinalMix]
        omega
    · rw [update_of_ne here, measured.known j]
      have : j < k ↔ j < k + 1 := by omega
      rw [this]
  · intro j n below usedHere hops
    obtain rfl | ⟨below, other⟩ := cases_of_lt below
    · rw [update_self]
      exact finds.bounds n hops
    · rw [update_of_ne other]
      exact measured.bounds j n below usedHere hops
  · intro heeds j n below usedHere hops
    have earlier := measured.exact fun j' below' => heeds j' (lt_succ_of_lt below')
    obtain rfl | ⟨below, other⟩ := cases_of_lt below
    · rw [update_self]
      exact finds.exact (heeds j below) earlier n hops
    · rw [update_of_ne other]
      exact earlier j n below usedHere hops
  · intro j below heedless n hops
    obtain rfl | ⟨below, other⟩ := cases_of_lt below
    · rw [update_self]
      exact finds.short heedless n hops
    · rw [update_of_ne other]
      exact measured.short j below heedless n hops

end

/-- One round of the outer loop. -/
theorem Measured.updateDistance (sorted : List Nat) (measured : Measured mixes k f)
    (led : Led mixes)
    (inside : k < mixes.length) (named : mixes[k].mixId = k) :
    ∃ f', updateDistance ⟨withDistances mixes f, sorted⟩ k =
      .ok ⟨withDistances mixes f', sorted.set k k⟩ ∧ Measured mixes (k + 1) f' := by
  rw [MixContext.updateDistance, infoAt_withDistances inside, ok_bind]
  by_cases used : mixes[k].inUse = true
  · have used' : InUse mixes k := ⟨mixes[k], getElem?_eq_getElem inside, used⟩
    obtain ⟨v, found, finds⟩ := measured.finds led used'
    rw [← named] at found
    refine ⟨update f k v, ?_, measured.extend used' finds⟩
    rw [← set_withDistances inside]
    simp only [if_pos used, found, ok_bind, pure_eq_ok]
  · have unused : ¬ InUse mixes k := by
      rintro ⟨mix, found, used'⟩
      obtain rfl := Option.some.inj ((getElem?_eq_getElem inside).symm.trans found)
      exact used used'
    exact ⟨f, by simp [used], measured.skip unused⟩

variable {sorted : List Nat}

theorem range_set (inside : n < sorted.length) :
    (range n ++ sorted.drop n).set n n = range (n + 1) ++ sorted.drop (n + 1) := by
  rw [drop_eq_getElem_cons inside, set_append_right n n (by simp),
    length_range, Nat.sub_self, set_cons_zero, range_succ, append_assoc, singleton_append]

theorem foldlM_updateDistance (led : Led mixes)
    (named : ∀ (i : Nat) (mix : MixInfo), mixes[i]? = some mix → mix.mixId = i)
    (long : sorted.length = mixes.length) (le : n ≤ mixes.length) :
    ∃ f, (range n).foldlM MixContext.updateDistance
        ⟨withDistances mixes fun _ => InvalidDistanceFromFinalMix, sorted⟩ =
          .ok ⟨withDistances mixes f, range n ++ sorted.drop n⟩ ∧ Measured mixes n f := by
  induction n with
  | zero => exact ⟨_, rfl, .start⟩
  | succ n hyp =>
    obtain ⟨f, run, measured⟩ := hyp (by omega)
    have inside : n < mixes.length := by omega
    obtain ⟨f', step, measured'⟩ := measured.updateDistance (range n ++ sorted.drop n) led inside
      (named n _ (getElem?_eq_getElem inside))
    refine ⟨f', ?_, measured'⟩
    rw [range_succ, foldlM_append, run, ok_bind, foldlM_cons, step, ok_bind, foldlM_nil,
      range_set (by omega), pure_eq_ok, range_succ]

/-- The distances after the loops, and the order before the sort. -/
theorem updateDistancesFromFinalMix_eq {context : MixContext} (formed : context.WellFormed) :
    ∃ f, context.updateDistancesFromFinalMix =
        .ok ⟨withDistances context.mixInfos f, range context.mixInfos.length⟩ ∧
      Measured context.mixInfos context.mixInfos.length f := by
  obtain ⟨f, run, measured⟩ :=
    foldlM_updateDistance ⟨formed.counted, formed.leads⟩ formed.named formed.sorted le_rfl
  refine ⟨f, ?_, measured⟩
  rw [updateDistancesFromFinalMix, withDistances_eq_map, run, drop_of_length_le formed.sorted.le,
    append_nil]

/-! ## The sorted mixes -/

theorem distance_set {mix : MixInfo} (found : mixes[i]? = some mix) {offset : BitVec 16} :
    distance (mixes.set i { mix with bufferOffset := offset }) j = distance mixes j := by
  obtain ⟨inside, rfl⟩ := List.getElem?_eq_some_iff.mp found
  rw [distance, distance, getElem?_set]
  split_ifs with here
  · subst here
    simp [inside]
  · rfl

/-- Placing the buffers changes no distance. -/
theorem placeBuffers_spec (offset : BitVec 16) (inside : ∀ i ∈ sorted, i < mixes.length) :
    ∃ mixes', placeBuffers sorted offset mixes = .ok mixes' ∧
      ∀ j, distance mixes' j = distance mixes j := by
  induction sorted generalizing offset mixes with
  | nil => exact ⟨mixes, rfl, fun _ => rfl⟩
  | cons i sorted hyp =>
    have here := inside i mem_cons_self
    have rest (j : Nat) (member : j ∈ sorted) : j < mixes.length :=
      inside j (mem_cons_of_mem _ member)
    have found := getElem?_eq_getElem here
    have read : infoAt mixes i = .ok mixes[i] := by
      rw [infoAt, if_neg (by omega), Int.toNat_natCast, found]
    rw [placeBuffers, read, ok_bind]
    split_ifs with used
    · obtain ⟨mixes', run, kept⟩ := hyp (offset + mixes[i].bufferCount)
        (show ∀ j ∈ sorted, j < (mixes.set i
          { mixes[i] with bufferOffset := offset }).length by simpa using rest)
      exact ⟨mixes', run, fun j => (kept j).trans (distance_set found)⟩
    · exact hyp offset rest

/-- Two different members of a list, one of which belongs in front. -/
theorem pair_sublist {R : Nat → Nat → Prop} {l : List Nat} (pairwise : l.Pairwise R)
    (memberI : i ∈ l)
    (memberJ : j ∈ l) (different : i ≠ j) (wrong : ¬ R j i) : [i, j].Sublist l := by
  obtain ⟨s, t, rfl⟩ := append_of_mem memberI
  have behind : j ∈ t := by
    obtain before | memberJ := mem_append.mp memberJ
    · exact absurd ((pairwise_append.mp pairwise).2.2 j before i mem_cons_self) wrong
    · exact (mem_cons.mp memberJ).resolve_left different.symm
  exact ((singleton_sublist.mpr behind).cons_cons i).trans (sublist_append_right s (i :: t))

theorem Measured.validOrder_iff (measured : Measured mixes mixes.length f) (led : Led mixes)
    (context : MixContext)
    (kept : ∀ j, distance context.mixInfos j = distance (withDistances mixes f) j)
    (permutation : context.sortedMixInfos.Perm (range mixes.length))
    (descending : context.sortedMixInfos.Pairwise fun i j =>
      distance (withDistances mixes f) j ≤ distance (withDistances mixes f) i) :
    ValidOrder mixes context ↔ ∀ i < mixes.length, Heeds mixes i := by
  constructor
  · intro valid i inside
    by_contra heedless
    obtain ⟨used, ⟨n, hops⟩, -⟩ : ∃ _ : InUse mixes i, ∃ _ : ReachesFinal mixes i, True := by
      simp only [Heeds] at heedless
      tauto
    have right : f i = n := by
      rw [← valid.hops i used n hops, kept, distance_withDistances inside]
    exact absurd right (ne_of_lt (measured.short i inside heedless n hops))
  · intro heeds
    have hops (i : Nat) (used : InUse mixes i) (n : Nat) (hops : HopsTo mixes n i 0) :
        distance (withDistances mixes f) i = n := by
      rw [distance_withDistances used.inside]
      exact measured.exact heeds i n used.inside used hops
    have others (i : Nat) (lost : ¬ (InUse mixes i ∧ ReachesFinal mixes i)) :
        distance (withDistances mixes f) i = InvalidDistanceFromFinalMix := by
      by_cases inside : i < mixes.length
      · rw [distance_withDistances inside]
        by_contra known
        exact lost ((measured.known i).mp known).2
      · exact distance_outside (by simpa using inside)
    refine ⟨fun i used n reach => (kept i).trans (hops i used n reach),
      fun i lost => (kept i).trans (others i lost), permutation, ?_⟩
    intro i j before used reaches follows
    obtain ⟨n, reach⟩ := reaches
    have next : HopsTo mixes 1 i j := .hop before follows (.here j)
    obtain ⟨le, rest⟩ := reach.rest next
    have nearer : distance (withDistances mixes f) j < distance (withDistances mixes f) i := by
      rw [hops i used n reach]
      by_cases usedThere : InUse mixes j
      · rw [hops j usedThere _ rest]
        omega
      · rw [others j fun both => usedThere both.1]
        exact invalid_lt n
    have different : i ≠ j := by
      rintro rfl
      exact lt_irrefl _ nearer
    exact pair_sublist descending (permutation.mem_iff.mpr (mem_range.mpr used.inside))
      (permutation.mem_iff.mpr (mem_range.mpr (led.inside used.inside next))) different
        (not_le.mpr nearer)

/-- Sorting gives a valid order of the mixes exactly when no chain passes a measured mix behind its
first hop and not at it. -/
theorem sortInfo_valid_iff (sort : (Nat → Nat → Bool) → List Nat → List Nat) (sorts : Sorts sort)
    (context : MixContext) (formed : context.WellFormed) :
    (∃ context', sortInfo sort context = .ok context' ∧ ValidOrder context.mixInfos context') ↔
      ∀ i < context.mixInfos.length, Heeds context.mixInfos i := by
  obtain ⟨f, updated, measured⟩ := updateDistancesFromFinalMix_eq formed
  have led : Led context.mixInfos := ⟨formed.counted, formed.leads⟩
  obtain ⟨permutation, descending⟩ := sorts (distance (withDistances context.mixInfos f))
    (range context.mixInfos.length)
  obtain ⟨sorted, sortedAs⟩ : ∃ sorted,
    sort (fun lhs rhs => distance (withDistances context.mixInfos f) rhs < distance
    (withDistances context.mixInfos f) lhs) (range context.mixInfos.length) = sorted := ⟨_, rfl⟩
  rw [sortedAs] at permutation descending
  have inside (i : Nat) (member : i ∈ sorted) : i < (withDistances context.mixInfos f).length := by
    rw [length_withDistances]
    exact mem_range.mp (permutation.mem_iff.mp member)
  obtain ⟨mixes', placed, kept⟩ := placeBuffers_spec 0 inside
  have run : sortInfo sort context = .ok ⟨mixes', sorted⟩ := by
    rw [sortInfo, updated, ok_bind]
    dsimp only
    rw [sortedAs, calcMixBufferOffset, placed, ok_bind, pure_eq_ok]
  rw [run, ← measured.validOrder_iff led ⟨mixes', sorted⟩ kept permutation descending]
  constructor
  · rintro ⟨context', same, valid⟩
    obtain rfl := Except.ok.inj same
    exact valid
  · exact fun valid => ⟨_, rfl, valid⟩

/-- A stable sort. -/
def insertionSort (lt : Nat → Nat → Bool) (indices : List Nat) : List Nat :=
  indices.insertionSort fun i j => lt j i = false

theorem sorts_insertionSort : Sorts insertionSort := by
  intro key indices
  have le_iff (i j : Nat) : decide (key i < key j) = false ↔ key j ≤ key i := by
    rw [decide_eq_false_iff_not, not_lt]
  simp only [insertionSort, le_iff]
  have total : Std.Total fun i j => key j ≤ key i := ⟨fun i j => le_total (key j) (key i)⟩
  have trans : IsTrans Nat fun i j => key j ≤ key i := ⟨fun i j k le le' => le_trans le' le⟩
  exact ⟨perm_insertionSort _ _, pairwise_insertionSort _ _⟩

/-- Mixes in use with these destinations. -/
def chained (destinations : List Int) : MixContext where
  mixInfos := destinations.mapIdx fun i dst => ⟨1, true, i, 0, 0, dst⟩
  sortedMixInfos := range destinations.length

theorem chained_wellFormed (destinations : List Int) (counted : destinations.length < 2 ^ 31)
    (leads : ∀ dst ∈ destinations, dst = UnusedMixId ∨ 0 ≤ dst ∧ dst < destinations.length) :
    (chained destinations).WellFormed where
  counted := by simpa [chained] using counted
  sorted := by simp [chained]
  named := by
    intro i mix found
    simp only [chained, getElem?_mapIdx, Option.map_eq_some_iff] at found
    obtain ⟨dst, -, rfl⟩ := found
    rfl
  leads := by
    intro mix member
    obtain ⟨i, inside, rfl⟩ := mem_mapIdx.mp member
    simpa [chained] using leads _ (getElem_mem inside)

/-- The chain of the mix 2 goes over 4, 3 and 1 to the final mix. -/
def interleaved : MixContext := chained [UnusedMixId, 0, 4, 1, 3]

theorem not_valid_interleaved : Sorts insertionSort ∧ interleaved.WellFormed ∧
    ¬ ∃ context', sortInfo insertionSort interleaved = .ok context' ∧
    ValidOrder interleaved.mixInfos context' := by
  refine ⟨sorts_insertionSort, chained_wellFormed _ (by decide) (by simp), ?_⟩
  rintro ⟨context', run, valid⟩
  have sorted : (sortInfo insertionSort interleaved).map sortedMixInfos = .ok [4, 2, 3, 1, 0] := by
    decide
  rw [run] at sorted
  have order := valid.order 2 4 (by decide) (by decide)
    ⟨4, .hop (by decide) rfl
        (.hop (by decide) rfl (.hop (by decide) rfl (.hop (by decide) rfl (.here 0))))⟩ rfl
  rw [Except.ok.inj sorted] at order
  revert order
  decide

theorem sortInfo_valid_iff_forward :
    (∃ context', sortInfo insertionSort (chained [UnusedMixId, 0, 1]) = .ok context' ∧
      ValidOrder (chained [UnusedMixId, 0, 1]).mixInfos context') ↔
      ∀ i < 3, Heeds (chained [UnusedMixId, 0, 1]).mixInfos i :=
  sortInfo_valid_iff insertionSort sorts_insertionSort
    _ (chained_wellFormed _ (by decide) (by simp))

end SumiEmu.AudioCore.MixContext
