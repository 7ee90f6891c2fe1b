import FastQ.Lib.Counter
import FastQ.Queue.Basic

/-!
# The capacities that the constructor accepts, and the slots

The bit test of the constructor accepts exactly the powers of two (`new_isOk_iff`). For these the
mask maps a counter to its remainder, also where the counter wraps, so any `capacity` consecutive
counters visit every slot once (`slot_map`).
-/

namespace FastQ

variable {α : Type}

/-- The constructor accepts exactly the powers of two. -/
theorem new_isOk_iff (capacity : BitVec 64) (memory : BitVec 64 → α) :
    (∃ q, SPSC.new capacity memory = .ok q) ↔ capacity.toNat.isPowerOfTwo := by
  rw [← Counter.and_eq_zero_iff]
  constructor
  · rintro ⟨q, hq⟩
    exact (SPSC.new_eq hq).2
  · rintro ⟨hne, hand⟩
    exact ⟨SPSC.fresh capacity memory, if_neg (not_or.mpr ⟨hne, not_not.mpr hand⟩)⟩

/-- What it does not accept, it rejects with the text of its exception. -/
theorem new_error_iff (capacity : BitVec 64) (memory : BitVec 64 → α) :
    SPSC.new capacity memory =
        .error (.invalidArgument "Capacity must be non-zero power of 2") ↔
      ¬ capacity.toNat.isPowerOfTwo := by
  rw [← new_isOk_iff capacity memory]
  unfold SPSC.new
  split
  · simp
  · simp

/-- **Capacity check and slot map.** The constructor throws exactly for the capacities that are not
powers of two. For the others, and whatever the value `i` of a counter: its slot is its remainder,
`capacity` steps further the slot is the same, less than `capacity` steps further it is another one,
also where the sum wraps, and each slot is visited exactly once by the `capacity` counters from
`i`. -/
theorem slot_map (capacity : BitVec 64) (memory : BitVec 64 → α) :
    (SPSC.new capacity memory =
        .error (.invalidArgument "Capacity must be non-zero power of 2") ↔
      ¬ capacity.toNat.isPowerOfTwo) ∧
    ∀ q, SPSC.new capacity memory = .ok q → q.mask = capacity - 1 ∧ ∀ i : BitVec 64,
      (i &&& q.mask).toNat = i.toNat % capacity.toNat ∧ i &&& q.mask < capacity ∧
      (i + capacity) &&& q.mask = i &&& q.mask ∧
      (∀ d, 0 < d → d < capacity → (i + d) &&& q.mask ≠ i &&& q.mask) ∧
      ∀ slot < capacity, ∃! d, d < capacity ∧ (i + d) &&& q.mask = slot := by
  refine ⟨new_error_iff capacity memory, fun q hq => ?_⟩
  have hpow := (new_isOk_iff capacity memory).mp ⟨q, hq⟩
  have hpos := Nat.pos_of_isPowerOfTwo hpow
  obtain ⟨rfl, -⟩ := SPSC.new_eq hq
  refine ⟨rfl, fun i => ?_⟩
  have hmod := Counter.toNat_and_pred hpow i
  refine ⟨hmod, ?_, ?_, fun d hd hlt he => ?_, fun slot hslot => ?_⟩
  · rw [BitVec.lt_def]
    exact hmod ▸ Nat.mod_lt _ hpos
  · exact (Counter.add_and_pred_self_iff hpow i capacity).mpr (Nat.mod_self _)
  · have h0 := (Counter.add_and_pred_self_iff hpow i d).mp he
    rw [Nat.mod_eq_of_lt (BitVec.lt_def.mp hlt)] at h0
    have hd : 0 < d.toNat := BitVec.lt_def.mp hd
    omega
  · obtain ⟨d, hd, he⟩ := Counter.exists_add_and_pred hpow i hslot
    refine ⟨d, ⟨hd, he⟩, ?_⟩
    rintro d' ⟨hd', he'⟩
    have hmodEq := (Counter.add_and_pred_eq_iff hpow i d' d).mp (he'.trans he.symm)
    exact BitVec.eq_of_toNat_eq
      (hmodEq.eq_of_lt_of_lt (BitVec.lt_def.mp hd') (BitVec.lt_def.mp hd))

/-- A ring of four slots at the wrap of the counters. -/
theorem slot_map_four :
    SPSC.new 3 (fun _ => ()) =
        .error (.invalidArgument "Capacity must be non-zero power of 2") ∧
      ((-1 : BitVec 64) + 4) &&& (SPSC.fresh 4 fun _ => ()).mask =
        (-1 : BitVec 64) &&& (SPSC.fresh 4 fun _ => ()).mask ∧
      ∃! d : BitVec 64, d < 4 ∧ ((-1 : BitVec 64) + d) &&& (SPSC.fresh 4 fun _ => ()).mask = 0 := by
  have h := (slot_map 4 fun _ => ()).2 _ rfl
  exact ⟨rfl, (h.2 (-1)).2.2.1, (h.2 (-1)).2.2.2.2 0 (by decide)⟩

end FastQ
