import Mathlib.Data.BitVec
import Mathlib.Data.Nat.ModEq

/-!
# Wrapping counters

A counter of `w` bits stands for an unbounded one, modulo `2^w`. Differences and comparisons of two
wrapping counters mean what they mean for the unbounded ones as long as the unbounded ones are less
than `2^w` apart. These are the facts a program with free-running counters rests on; each has the
distance bound as its hypothesis.

* `ofNat_sub`: the wrapped difference is the difference, wrapped (no bound needed).
* `ofNat_eq_iff`, `ofNat_sub_eq_iff`, `ofNat_le_sub_iff`: the tests `x = y`, `x - y = d` and
  `d ≤ x - y`.
* `land_pred`, `and_eq_zero_iff`: masks by a power of two less one.
* `add_and_pred_eq_iff`, `exists_add_and_pred`: such a mask does not see the wrap, and consecutive
  counters visit the slots in turn.
-/

namespace Counter

variable {w a b d : Nat}

/-- A difference of wrapped counters is the wrapped difference. -/
theorem ofNat_sub (h : b ≤ a) : BitVec.ofNat w a - BitVec.ofNat w b = BitVec.ofNat w (a - b) := by
  have hab : BitVec.ofNat w a = BitVec.ofNat w (a - b) + BitVec.ofNat w b := by
    rw [← BitVec.ofNat_add, Nat.sub_add_cancel h]
  rw [hab, BitVec.add_sub_cancel]

/-- Equality of wrapped numbers below the modulus. -/
theorem ofNat_inj_of_lt (ha : a < 2 ^ w) (hb : b < 2 ^ w) :
    BitVec.ofNat w a = BitVec.ofNat w b ↔ a = b := by
  rw [← BitVec.toNat_inj, BitVec.toNat_ofNat, BitVec.toNat_ofNat, Nat.mod_eq_of_lt ha,
    Nat.mod_eq_of_lt hb]

/-- The test `x - y = d` is exact when the counters are less than `2^w` apart. -/
theorem ofNat_sub_eq_iff (h : b ≤ a) (hab : a - b < 2 ^ w) (hd : d < 2 ^ w) :
    BitVec.ofNat w a - BitVec.ofNat w b = BitVec.ofNat w d ↔ a - b = d := by
  rw [ofNat_sub h, ofNat_inj_of_lt hab hd]

/-- The test `x = y` is exact when the counters are less than `2^w` apart. -/
theorem ofNat_eq_iff (h : a ≤ b) (hab : b - a < 2 ^ w) :
    BitVec.ofNat w a = BitVec.ofNat w b ↔ a = b := by
  constructor
  · intro he
    have h0 : BitVec.ofNat w b - BitVec.ofNat w a = BitVec.ofNat w 0 := by
      rw [he, BitVec.sub_self]
    have := (ofNat_sub_eq_iff h hab (Nat.two_pow_pos w)).mp h0
    omega
  · rintro rfl
    rfl

/-- The test `d ≤ x - y` is exact when the counters are less than `2^w` apart. -/
theorem ofNat_le_sub_iff (h : b ≤ a) (hab : a - b < 2 ^ w) (hd : d < 2 ^ w) :
    BitVec.ofNat w d ≤ BitVec.ofNat w a - BitVec.ofNat w b ↔ d ≤ a - b := by
  rw [ofNat_sub h, BitVec.le_def, BitVec.toNat_ofNat, BitVec.toNat_ofNat, Nat.mod_eq_of_lt hd,
    Nat.mod_eq_of_lt hab]

/-- The difference of two wrapped counters, read back. -/
theorem toNat_ofNat_sub (h : b ≤ a) (hab : a - b < 2 ^ w) :
    (BitVec.ofNat w a - BitVec.ofNat w b).toNat = a - b := by
  rw [ofNat_sub h, BitVec.toNat_ofNat, Nat.mod_eq_of_lt hab]

/-! ## Masks -/

/-- A mask of a power of two less one is the remainder. -/
theorem land_pred {n : Nat} (hn : n.isPowerOfTwo) (i : Nat) : i &&& (n - 1) = i % n := by
  obtain ⟨k, rfl⟩ := hn
  exact Nat.and_two_pow_sub_one_eq_mod i k

theorem toNat_pred {x : BitVec w} (hx : x.toNat ≠ 0) : (x - 1).toNat = x.toNat - 1 := by
  have hw : 0 < w := Nat.pos_of_ne_zero fun h => by subst h; omega
  have h1 : (1 : BitVec w).toNat = 1 := BitVec.toNat_one hw
  rw [BitVec.toNat_sub_of_le (by rw [BitVec.le_def, h1]; omega), h1]

/-- The bit test for a power of two, on `w` bits. -/
theorem and_eq_zero_iff (x : BitVec w) :
    (x ≠ 0 ∧ x &&& (x - 1) = 0) ↔ x.toNat.isPowerOfTwo := by
  rw [← Nat.ne_zero_and_sub_one_eq_zero_iff_isPowerOfTwo]
  have hne : x ≠ 0 ↔ x.toNat ≠ 0 := by
    rw [ne_eq, ← BitVec.toNat_inj]
    simp
  rw [hne]
  refine and_congr_right fun h0 => ?_
  rw [← BitVec.toNat_inj, BitVec.toNat_and, toNat_pred h0]
  simp

variable {c : BitVec w}

/-- The slot of a counter of `w` bits. -/
theorem toNat_and_pred (hc : c.toNat.isPowerOfTwo) (x : BitVec w) :
    (x &&& (c - 1)).toNat = x.toNat % c.toNat := by
  have hpos := Nat.pos_of_isPowerOfTwo hc
  rw [BitVec.toNat_and, toNat_pred (by omega), land_pred hc]

/-- A power of two of `w` bits divides the modulus of the counters. -/
theorem dvd_two_pow (hc : c.toNat.isPowerOfTwo) : c.toNat ∣ 2 ^ w := by
  have hlt := c.isLt
  obtain ⟨k, hk⟩ := hc
  rw [hk] at hlt ⊢
  exact Nat.pow_dvd_pow 2 (Nat.le_of_lt ((Nat.pow_lt_pow_iff_right (by decide)).mp hlt))

/-- A sum may wrap before the mask: the mask does not see it. -/
theorem toNat_add_and_pred (hc : c.toNat.isPowerOfTwo) (x y : BitVec w) :
    ((x + y) &&& (c - 1)).toNat = (x.toNat + y.toNat) % c.toNat := by
  rw [toNat_and_pred hc, BitVec.toNat_add, Nat.mod_mod_of_dvd _ (dvd_two_pow hc)]

/-- Two counters that start at `x` have the same slot exactly if their distances from `x` have the
same remainder. -/
theorem add_and_pred_eq_iff (hc : c.toNat.isPowerOfTwo) (x d d' : BitVec w) :
    (x + d) &&& (c - 1) = (x + d') &&& (c - 1) ↔ d.toNat ≡ d'.toNat [MOD c.toNat] := by
  rw [← BitVec.toNat_inj, toNat_add_and_pred hc, toNat_add_and_pred hc]
  exact ⟨Nat.ModEq.add_left_cancel' x.toNat, Nat.ModEq.add_left x.toNat⟩

/-- The slot at `x` comes again exactly after the multiples of `c`. -/
theorem add_and_pred_self_iff (hc : c.toNat.isPowerOfTwo) (x d : BitVec w) :
    (x + d) &&& (c - 1) = x &&& (c - 1) ↔ d.toNat % c.toNat = 0 := by
  have h := add_and_pred_eq_iff hc x d 0#w
  rwa [BitVec.add_zero, BitVec.toNat_zero, Nat.ModEq, Nat.zero_mod] at h

/-- Every slot is reached from `x` in less than `c` steps. -/
theorem exists_add_and_pred (hc : c.toNat.isPowerOfTwo) (x : BitVec w) {slot : BitVec w}
    (hs : slot < c) : ∃ d < c, (x + d) &&& (c - 1) = slot := by
  have hpos := Nat.pos_of_isPowerOfTwo hc
  have hs : slot.toNat < c.toNat := hs
  have hd := toNat_and_pred hc (slot - x)
  refine ⟨(slot - x) &&& (c - 1), ?_, ?_⟩
  · rw [BitVec.lt_def, hd]
    exact Nat.mod_lt _ hpos
  · have hsum : (x.toNat + (slot - x).toNat) % c.toNat = slot.toNat % c.toNat := by
      rw [← toNat_add_and_pred hc, BitVec.add_comm, BitVec.sub_add_cancel, toNat_and_pred hc]
    rw [← BitVec.toNat_inj, toNat_add_and_pred hc, hd, Nat.add_mod_mod, hsum, Nat.mod_eq_of_lt hs]

end Counter
