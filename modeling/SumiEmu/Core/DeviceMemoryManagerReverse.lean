/-
# The pages behind a physical page

The reverse entry of a physical page denotes the list of the device pages that are mapped to it:
none for zero, one that stands in the entry itself, or the values of a list of the container.
Entering and removing a device page keep that, and the container does not outgrow the device.
-/

import SumiEmu.Core.DeviceMemoryManagerPool

namespace SumiEmu.Core

open Fallible Linking MultiAddressContainer Function List Nat

/-- The pages of the address space of the device. -/
def devicePages : Nat := 2 ^ 22

namespace DeviceMemoryManager

variable {manager manager' : DeviceMemoryManager} {container : MultiAddressContainer}
    {pages ids : Nat → List Nat}
  {p q d id start : Nat} {l k : List Nat}

/-! ## What an entry holds -/

theorem shift_inline (within : d < devicePages) : d >>> multiFlagBits = 0 := by
  rw [shiftRight_eq_div_pow]
  exact div_eq_of_lt (lt_trans within (by decide))

theorem flag_or (within : id < multiFlag) : multiFlag ||| id = multiFlag + id := by
  have or := two_pow_add_eq_or_of_lt (i := multiFlagBits) within 1
  rw [mul_one] at or
  exact or.symm

theorem shift_multi (within : id < multiFlag) : (multiFlag ||| id) >>> multiFlagBits ≠ 0 := by
  rw [flag_or within, shiftRight_eq_div_pow]
  exact Nat.ne_of_gt (Nat.div_pos (Nat.le_add_right _ _) (Nat.two_pow_pos _))

theorem mask_multi (within : id < multiFlag) : (multiFlag ||| id) &&& multiMask = id := by
  rw [flag_or within]
  change (2 ^ multiFlagBits + id) &&& (2 ^ multiFlagBits - 1) = id
  rw [and_two_pow_sub_one_eq_mod, add_mod_left]
  exact mod_eq_of_lt within

/-! ## The lists that the entries denote -/

/-- The device pages of each physical page are in its entry, or are the values of its list. -/
structure Reverse (manager : DeviceMemoryManager) (pages ids : Nat → List Nat) : Prop where
  nodup : ∀ p, (pages p).Nodup
  apart : ∀ p q, p ≠ q → ∀ d ∈ pages p, d ∉ pages q
  device : ∀ p, ∀ d ∈ pages p, 0 < d ∧ d < devicePages
  inline : ∀ p, (pages p).length ≤ 1 → ids p = [] ∧
    manager.compressedDeviceAddr p = (pages p).headD 0
  multi : ∀ p, 1 < (pages p).length →
    (∃ start, (ids p).head? = some start ∧ manager.compressedDeviceAddr p = multiFlag ||| start) ∧
      (ids p).map manager.multiDevAddress.value = pages p
  pool : Pool manager.multiDevAddress ids none
  size_le : manager.multiDevAddress.size ≤ devicePages

/-- Entries that are all in use hold values that are all distinct, so they are no more than the
values. -/
theorem size_le_of_full {bound : Nat} (pool : Pool container ids none)
    (full : container.freeEntries = [])
    (values : ∀ p, ((ids p).map container.value).Nodup)
    (within : ∀ p, ∀ id ∈ ids p, container.value id < bound)
    (apart : ∀ p q, p ≠ q → ∀ id ∈ ids p, ∀ id' ∈ ids q, container.value id ≠ container.value id') :
    container.size ≤ bound := by
  have used : ∀ id ∈ range' 1 container.size, ∃ p, id ∈ ids p := by
    intro id mem
    have inside := mem_range'_1.mp mem
    rcases pool.owned id inside.1 (by omega) with is_free | ⟨⟨⟩⟩ | used
    · rw [full] at is_free
      cases is_free
    · exact used
  have nodup : ((range' 1 container.size).map container.value).Nodup := by
    refine List.Nodup.map_on (fun id mem id' mem' same => ?_) nodup_range'
    obtain ⟨p, in_p⟩ := used id mem
    obtain ⟨q, in_q⟩ := used id' mem'
    by_cases here : p = q
    · rw [← here] at in_q
      exact inj_on_of_nodup_map (values p) in_p in_q same
    · exact absurd same (apart p q here id in_p id' in_q)
  have subset : (range' 1 container.size).map container.value ⊆ range bound := by
    intro v mem
    obtain ⟨id, in_range, rfl⟩ := mem_map.mp mem
    obtain ⟨p, in_p⟩ := used id in_range
    exact mem_range.mpr (within p id in_p)
  have le := (nodup.subperm subset).length_le
  rwa [length_map, length_range', length_range] at le

namespace Reverse

section

variable (reverse : Reverse manager pages ids)

include reverse

/-- One entry changes, to the pages it holds then. -/
theorem replace
    (others : ∀ r, r ≠ q → manager'.compressedDeviceAddr r = manager.compressedDeviceAddr r)
    (values : ∀ r, r ≠ q → ∀ id ∈ ids r,
    manager'.multiDevAddress.value id = manager.multiDevAddress.value id)
    (nodup : l.Nodup) (device : ∀ d ∈ l, 0 < d ∧ d < devicePages)
    (apart : ∀ r, r ≠ q → ∀ d ∈ l, d ∉ pages r)
    (inline : l.length ≤ 1 → k = [] ∧ manager'.compressedDeviceAddr q = l.headD 0)
    (multi : 1 < l.length →
      (∃ start, k.head? = some start ∧ manager'.compressedDeviceAddr q = multiFlag ||| start) ∧
        k.map manager'.multiDevAddress.value = l)
    (pool : Pool manager'.multiDevAddress (update ids q k) none)
    (size : manager'.multiDevAddress.size = manager.multiDevAddress.size ∨
    manager'.multiDevAddress.freeEntries = []) :
    Reverse manager' (update pages q l) (update ids q k) := by
  have pages_of (r : Nat) (other : r ≠ q) : update pages q l r = pages r := update_of_ne other _ _
  have ids_of (r : Nat) (other : r ≠ q) : update ids q k r = ids r := update_of_ne other _ _
  have pages_self : update pages q l q = l := update_self _ _ _
  have ids_self : update ids q k q = k := update_self _ _ _
  have nodup' : ∀ r, (update pages q l r).Nodup := by
    intro r
    by_cases here : r = q
    · rwa [here, pages_self]
    · rw [pages_of r here]
      exact reverse.nodup r
  have device' : ∀ r, ∀ d ∈ update pages q l r, 0 < d ∧ d < devicePages := by
    intro r
    by_cases here : r = q
    · rwa [here, pages_self]
    · rw [pages_of r here]
      exact reverse.device r
  have apart' : ∀ r s, r ≠ s → ∀ d ∈ update pages q l r, d ∉ update pages q l s := by
    intro r s other d mem
    by_cases here : r = q
    · rw [here, pages_self] at mem
      have there : s ≠ q := fun there => other (here.trans there.symm)
      rw [pages_of s there]
      exact apart s there d mem
    · rw [pages_of r here] at mem
      by_cases there : s = q
      · rw [there, pages_self]
        exact fun mem' => apart r here d mem' mem
      · rw [pages_of s there]
        exact reverse.apart r s other d mem
  have inline' : ∀ r, (update pages q l r).length ≤ 1 → update ids q k r = [] ∧
      manager'.compressedDeviceAddr r = (update pages q l r).headD 0 := by
    intro r
    by_cases here : r = q
    · rwa [here, pages_self, ids_self]
    · rw [pages_of r here, ids_of r here, others r here]
      exact reverse.inline r
  have multi' : ∀ r, 1 < (update pages q l r).length →
      (∃ start, (update ids q k r).head? = some start ∧
        manager'.compressedDeviceAddr r = multiFlag ||| start) ∧
      (update ids q k r).map manager'.multiDevAddress.value = update pages q l r := by
    intro r
    by_cases here : r = q
    · rwa [here, pages_self, ids_self]
    · rw [pages_of r here, ids_of r here, others r here]
      intro many
      obtain ⟨starts, held⟩ := reverse.multi r many
      refine ⟨starts, ?_⟩
      rw [← held]
      exact map_congr_left fun id mem => values r here id mem
  refine ⟨nodup', apart', device', inline', multi', pool, ?_⟩
  rcases size with size | full
  · rw [size]
    exact reverse.size_le
  · have held : ∀ r, (update ids q k r).map manager'.multiDevAddress.value = update pages q l r ∨
        update ids q k r = [] := by
      intro r
      by_cases single : (update pages q l r).length ≤ 1
      · exact Or.inr (inline' r single).1
      · exact Or.inl (multi' r (Nat.lt_of_not_le single)).2
    have page : ∀ r, ∀ id ∈ update ids q k r,
        manager'.multiDevAddress.value id ∈ update pages q l r := by
      intro r id mem
      rcases held r with is | none
      · rw [← is]
        exact mem_map_of_mem mem
      · rw [none] at mem
        cases mem
    refine size_le_of_full pool full (fun r => ?_) (fun r id mem => (device' r _ (page r id mem)).2)
      ?_
    · rcases held r with is | none
      · rw [is]
        exact nodup' r
      · rw [none]
        exact nodup_nil
    · intro r s other id mem id' mem' same
      exact apart' r s other _ (page r id mem) (same ▸ page s id' mem')

/-- A device page comes behind those of a physical page. -/
theorem insertReverse (fresh : ∀ p, d ∉ pages p) (device : 0 < d ∧ d < devicePages) (q : Nat) :
    ∃ manager' k, manager.insertReverse d q = .ok manager' ∧
      manager'.compressedPhysicalPtr = manager.compressedPhysicalPtr ∧
      Reverse manager' (update pages q (pages q ++ [d])) (update ids q k) := by
  have flag_large : devicePages + 1 < multiFlag := by decide
  have nodup : (pages q ++ [d]).Nodup :=
    nodup_append.mpr ⟨reverse.nodup q, pairwise_singleton _ d, by
      rintro e mem e' mem' rfl
      exact fresh q (mem_singleton.mp mem' ▸ mem)⟩
  have device' : ∀ e ∈ pages q ++ [d], 0 < e ∧ e < devicePages := by
    intro e mem
    rcases mem_append.mp mem with mem | mem
    · exact reverse.device q e mem
    · rwa [mem_singleton.mp mem]
  have apart' : ∀ r, r ≠ q → ∀ e ∈ pages q ++ [d], e ∉ pages r := by
    intro r other e mem
    rcases mem_append.mp mem with mem | mem
    · exact reverse.apart q r other.symm e mem
    · rw [mem_singleton.mp mem]
      exact fresh r
  -- the entry is empty, or holds one page, or starts a list
  match held : pages q with
  | [] =>
    obtain ⟨none, entry⟩ := reverse.inline q (by rw [held]; exact zero_le 1)
    rw [held] at nodup device' apart' entry
    have entry' : manager.compressedDeviceAddr q = 0 := entry
    refine ⟨manager.setDeviceAddr q d, [], ?_, rfl, ?_⟩
    · rw [DeviceMemoryManager.insertReverse, if_pos entry']
      rfl
    · refine reverse.replace (fun r other => update_of_ne other _ _) (fun _ _ _ _ => rfl) nodup
        device' apart' (fun _ => ⟨rfl, update_self _ _ _⟩) (fun many => absurd many (lt_irrefl 1))
        ?_ (Or.inl rfl)
      rw [← none, update_eq_self]
      exact reverse.pool
  | [b] =>
    obtain ⟨none, entry⟩ := reverse.inline q (by rw [held]; exact le_refl 1)
    rw [held] at nodup device' apart' entry
    have of_b := reverse.device q b (by rw [held]; exact mem_singleton_self b)
    have entry' : manager.compressedDeviceAddr q = b := entry
    have pool₁ := reverse.pool.registerNew none b
    obtain ⟨is_b, -, old⟩ := reverse.pool.registered b
    obtain ⟨container₂, id, run, pool₂, is_d, kept, size₂, free₂⟩ :=
      pool₁.register (v := d) (update_self q _ ids)
    rw [update_self, update_idem] at pool₂
    have within : (manager.multiDevAddress.registerImplementation b).1 < multiFlag := by
      have le := (pool₁.inside q _ (by rw [update_self]; exact mem_singleton_self _)).2
      have grown := Pool.size_registerImplementation manager.multiDevAddress b
      have small := reverse.size_le
      omega
    refine ⟨{ manager with multiDevAddress := container₂ }.setDeviceAddr q
      (multiFlag ||| (manager.multiDevAddress.registerImplementation b).1),
      [(manager.multiDevAddress.registerImplementation b).1] ++ [id], ?_, rfl, ?_⟩
    · rw [DeviceMemoryManager.insertReverse, if_neg (by rw [entry']; exact ne_of_gt of_b.1), entry',
        if_pos (shift_inline of_b.2)]
      dsimp only [setDeviceAddr]
      rw [run]
      rfl
    · refine reverse.replace (fun r other => update_of_ne other _ _) ?_ nodup device' apart'
        (fun single => absurd single (by simp only [cons_append, nil_append, length_cons]; omega))
          ?_ pool₂ ?_
      · intro r other e mem
        refine (kept r e (by rwa [update_of_ne other])).trans ?_
        rw [value, value, old r e mem]
      · refine fun _ => ⟨⟨_, rfl, update_self _ _ _⟩, ?_⟩
        have first := kept q (manager.multiDevAddress.registerImplementation b).1
          (by rw [update_self]; exact mem_singleton_self _)
        change [container₂.value _, container₂.value _] = [b, d]
        rw [first, is_b, is_d]
      · change container₂.size = _ ∨ container₂.freeEntries = []
        rw [size₂, free₂]
        rcases Pool.size_registerImplementation manager.multiDevAddress b with size₁ | ⟨-, free₁, -⟩
        · rcases Pool.size_registerImplementation
            (manager.multiDevAddress.registerImplementation b).2 d with size | ⟨-, free, -⟩
          · exact Or.inl (size.trans size₁)
          · exact Or.inr free
        · exact Or.inr (Pool.freeEntries_registerImplementation free₁ d)
  | b :: c :: more =>
    have many : 1 < (pages q).length := by
      rw [held]
      exact succ_lt_succ (succ_pos _)
    obtain ⟨⟨start, head, entry⟩, values⟩ := reverse.multi q many
    rw [held] at nodup device' apart' values
    obtain ⟨rest, here⟩ := head?_eq_some_iff.mp head
    have within : start < multiFlag := by
      have le := (reverse.pool.inside q start (mem_of_mem_head? head)).2
      have small := reverse.size_le
      omega
    obtain ⟨container', id, run, pool', is_d, kept, size', free'⟩ :=
      reverse.pool.register (v := d) here
    have some_entry : multiFlag ||| start ≠ 0 := by
      rw [flag_or within]
      exact Nat.ne_of_gt (Nat.lt_of_lt_of_le (Nat.two_pow_pos _) (Nat.le_add_right _ _))
    refine ⟨{ manager with multiDevAddress := container' }, ids q ++ [id], ?_, rfl, ?_⟩
    · rw [DeviceMemoryManager.insertReverse, entry, if_neg some_entry, if_neg (shift_multi within),
        mask_multi within]
      dsimp only
      rw [run]
      rfl
    · refine reverse.replace (fun _ _ => rfl) (fun r _ e mem => kept r e mem) nodup device' apart'
        (fun single => absurd single (by simp only [cons_append, length_cons]; omega)) ?_ pool' ?_
      · refine fun _ => ⟨⟨start, ?_, entry⟩, ?_⟩
        · rw [head?_append, head]
          rfl
        · rw [map_append, map_cons, map_nil, is_d, ← values]
          congr 1
          exact map_congr_left fun e mem => kept q e mem
      · change container'.size = _ ∨ container'.freeEntries = []
        rw [size', free']
        rcases Pool.size_registerImplementation manager.multiDevAddress d with size | ⟨-, free, -⟩
        · exact Or.inl size
        · exact Or.inr free

/-- A device page is taken from those of its physical page. -/
theorem removeReverse {before after : List Nat} (here : pages q = before ++ d :: after) :
    ∃ manager' k, manager.removeReverse d q = .ok manager' ∧
      manager'.compressedPhysicalPtr = manager.compressedPhysicalPtr ∧
      Reverse manager' (update pages q (before ++ after)) (update ids q k) := by
  have flag_large : devicePages < multiFlag := by decide
  have within (id : Nat) (mem : id ∈ ids q) : id < multiFlag :=
    lt_of_le_of_lt (le_trans (reverse.pool.inside q id mem).2 reverse.size_le) flag_large
  have kept : List.Sublist (before ++ after) (pages q) := by
    rw [here]
    exact List.Sublist.append_left (sublist_cons_self d after) before
  have nodup := (reverse.nodup q).sublist kept
  have device : ∀ e ∈ before ++ after, 0 < e ∧ e < devicePages :=
    fun e mem => reverse.device q e (kept.subset mem)
  have apart : ∀ r, r ≠ q → ∀ e ∈ before ++ after, e ∉ pages r :=
    fun r other e mem => reverse.apart q r other.symm e (kept.subset mem)
  have length : (pages q).length = (before ++ after).length + 1 := by
    rw [here, length_append, length_append, length_cons, add_assoc]
  by_cases single : (before ++ after).length = 0
  · -- the page stands in the entry
    obtain ⟨none, entry⟩ := reverse.inline q (le_of_eq (by rw [length, single]))
    have empty := append_eq_nil_iff.mp (length_eq_zero_iff.mp single)
    have entry' : manager.compressedDeviceAddr q = d := by
      rw [entry, here, empty.1]
      rfl
    have small : d < devicePages :=
      (reverse.device q d (by rw [here]; exact mem_append_right _ mem_cons_self)).2
    refine ⟨manager.setDeviceAddr q 0, [], ?_, rfl, ?_⟩
    · rw [DeviceMemoryManager.removeReverse, entry', if_pos (shift_inline small)]
      rfl
    · refine reverse.replace (fun r other => update_of_ne other _ _) (fun _ _ _ _ => rfl) nodup
        device apart (fun _ => ⟨rfl, ?_⟩) (fun many => absurd many (by omega)) ?_ (Or.inl rfl)
      · rw [length_eq_zero_iff.mp single]
        exact update_self _ _ _
      · rw [← none, update_eq_self]
        exact reverse.pool
  · obtain ⟨⟨start, head, entry⟩, values⟩ := reverse.multi q (by omega)
    have value_nodup : (pages q).Nodup := reverse.nodup q
    rw [here] at values value_nodup
    obtain ⟨before', tail, split, before_eq, tail_eq⟩ := map_eq_append_iff.mp values
    obtain ⟨id, after', rfl, is_d, after_eq⟩ := map_eq_cons_iff.mp tail_eq
    have others : ∀ e ∈ before', manager.multiDevAddress.value e ≠ d := by
      intro e mem is
      have mem_d : d ∈ before := by
        rw [← before_eq, ← is]
        exact mem_map_of_mem mem
      exact (nodup_append.mp value_nodup).2.2 d mem_d d mem_cons_self rfl
    obtain ⟨result, run, pool', same, size, more, start_eq⟩ :=
      reverse.pool.unregister split head others is_d
    have start_within := within start (mem_of_mem_head? head)
    have values' : (before' ++ after').map manager.multiDevAddress.value = before ++ after := by
      rw [map_append, before_eq, after_eq]
    have length' : (before' ++ after').length = (before ++ after).length := by
      rw [← values', length_map]
    by_cases many : 1 < (before ++ after).length
    · -- the list remains one
      have some_start : result.resultStart ≠ 0 := by
        intro zero
        rw [if_pos zero, head?_eq_none_iff] at start_eq
        rw [start_eq] at length'
        exact single length'.symm
      rw [if_neg some_start] at start_eq
      refine ⟨{ manager with multiDevAddress := result.container }.setDeviceAddr q
        (result.resultStart ||| multiFlag), before' ++ after', ?_, rfl, ?_⟩
      · rw [DeviceMemoryManager.removeReverse, entry, if_neg (shift_multi start_within),
          mask_multi start_within, run, ok_bind,
          if_pos (by rw [more, length']; exact decide_eq_true many)]
        rfl
      · refine reverse.replace (fun r other => update_of_ne other _ _) (fun r _ e _ => same e) nodup
          device apart (fun few => absurd many (not_lt.mpr few))
          (fun _ => ⟨⟨result.resultStart, start_eq, ?_⟩, ?_⟩) pool' (Or.inl size)
        · rw [Nat.or_comm]
          exact update_self _ _ _
        · rw [← values']
          exact map_congr_left fun e _ => same e
    · -- one page remains, and goes into the entry
      obtain ⟨z, only⟩ := length_eq_one_iff.mp (show (before' ++ after').length = 1 by omega)
      have some_start : result.resultStart ≠ 0 := by
        intro zero
        rw [if_pos zero, only] at start_eq
        cases start_eq
      rw [if_neg some_start, only] at start_eq
      have is_z : result.resultStart = z := (Option.some.inj start_eq).symm
      rw [only] at pool' values'
      obtain ⟨container', release, pool'', storage, size'⟩ := pool'.releaseEntry (update_self _ _ _)
      rw [update_idem] at pool''
      have value_z : result.container.value z = (before ++ after).headD 0 := by
        rw [same, ← values']
        rfl
      refine ⟨{ manager with multiDevAddress := container' }.setDeviceAddr q
        (result.container.value z), [], ?_, rfl, ?_⟩
      · rw [DeviceMemoryManager.removeReverse, entry, if_neg (shift_multi start_within),
          mask_multi start_within, run, ok_bind,
          if_neg (by rw [more, length', decide_eq_true_eq]; exact many), is_z, release, ok_bind]
        rfl
      · refine reverse.replace (fun r other => update_of_ne other _ _) (fun r _ e _ => ?_) nodup
          device apart (fun _ => ⟨rfl, ?_⟩) (fun many' => absurd many' many) pool''
          (Or.inl (size'.trans size))
        · change (container'.storage e).value = _
          rw [storage]
          exact same e
        · rw [← value_z]
          exact update_self _ _ _

end

end Reverse

end DeviceMemoryManager

end SumiEmu.Core
