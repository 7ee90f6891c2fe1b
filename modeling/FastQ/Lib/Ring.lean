import Mathlib.Data.List.Basic
import Mathlib.Logic.Function.Basic
import Mathlib.Order.Interval.Finset.Nat

/-!
# Windows of a ring

A ring of `n` slots holds the elements number `lo, …, hi - 1` of a sequence, element `i` in slot
`i % n`. `window` is that list of elements. Appending is a write to slot `hi % n` (`window_update`,
`window_succ`), removing is a step of `lo` (`window_cons`); neither disturbs the other elements
while there are at most `n` of them, since two numbers less than `n` apart have different slots
(`mod_ne`).

`Holds` is a ring of objects: the slots of the elements number `lo, …, hi - 1` hold objects, the
others are raw memory.
-/

namespace Ring

variable {α : Type} {buf : Nat → α} {n lo hi : Nat}

/-- The elements number `lo, …, hi - 1` of a ring of `n` slots. -/
def window (buf : Nat → α) (n lo hi : Nat) : List α :=
  (List.range (hi - lo)).map fun i => buf ((lo + i) % n)

@[simp] theorem length_window : (window buf n lo hi).length = hi - lo := by
  simp [window]

@[simp] theorem window_self (buf : Nat → α) (n lo : Nat) : window buf n lo lo = [] := by
  simp [window]

/-- Two different numbers less than `n` apart have different slots. -/
theorem mod_ne (h : lo < hi) (hn : hi < lo + n) : lo % n ≠ hi % n := by
  intro he
  have hd : n ∣ hi - lo := Nat.dvd_of_mod_eq_zero (Nat.sub_mod_eq_zero_of_mod_eq he.symm)
  have := Nat.le_of_dvd (by omega) hd
  omega

/-- Numbers less than `n` apart have one slot only if they are equal. -/
theorem mod_eq_iff (h : lo ≤ hi) (hn : hi < lo + n) : lo % n = hi % n ↔ lo = hi := by
  refine ⟨fun he => ?_, fun he => he ▸ rfl⟩
  by_contra hne
  exact mod_ne (Nat.lt_of_le_of_ne h hne) hn he

/-- The distance of two numbers less than `n` apart, from their slots. -/
theorem dist_mod (h : lo ≤ hi) (hn : hi < lo + n) :
    hi - lo = if lo % n ≤ hi % n then hi % n - lo % n else n - (lo % n - hi % n) := by
  obtain ⟨d, rfl⟩ := Nat.exists_eq_add_of_le h
  have hd : d < n := by omega
  have hr := Nat.mod_lt lo (Nat.zero_lt_of_lt hd)
  have hsum : (lo + d) % n = (lo % n + d) % n := by
    rw [Nat.add_mod, Nat.mod_eq_of_lt hd]
  by_cases hw : lo % n + d < n
  · rw [hsum, Nat.mod_eq_of_lt hw, if_pos (Nat.le_add_right _ _)]
    omega
  · have hwrap : (lo % n + d) % n = lo % n + d - n := by
      rw [Nat.mod_eq_sub_mod (Nat.le_of_not_lt hw), Nat.mod_eq_of_lt (by omega)]
    rw [hsum, hwrap, if_neg (by omega)]
    omega

/-- The slot of the next number, by a test instead of a division. -/
theorem next_mod (hn : 0 < n) (i : Nat) :
    (if i % n + 1 = n then 0 else i % n + 1) = (i + 1) % n := by
  have hlt := Nat.mod_lt i hn
  rw [← Nat.mod_add_mod i n 1]
  split
  · rename_i he
    rw [he, Nat.mod_self]
  · exact (Nat.mod_eq_of_lt (by omega)).symm

/-- A write to the slot of the next element leaves the window as it is. -/
theorem window_update (h : hi < lo + n) (v : α) :
    window (Function.update buf (hi % n) v) n lo hi = window buf n lo hi := by
  refine List.map_congr_left fun i hi' => ?_
  rw [List.mem_range] at hi'
  rw [Function.update_of_ne (mod_ne (by omega) (by omega))]

/-- The window grows by the contents of the next slot. -/
theorem window_succ (h : lo ≤ hi) :
    window buf n lo (hi + 1) = window buf n lo hi ++ [buf (hi % n)] := by
  unfold window
  rw [Nat.succ_sub h, List.range_succ, List.map_append, List.map_singleton,
    Nat.add_sub_cancel' h]

/-- A write to the next slot, and a step of `hi`. -/
theorem window_append (h : lo ≤ hi) (hn : hi < lo + n) (v : α) :
    window (Function.update buf (hi % n) v) n lo (hi + 1) = window buf n lo hi ++ [v] := by
  rw [window_succ h, window_update hn, Function.update_self]

/-- The first element of a nonempty window. -/
theorem window_cons (h : lo < hi) :
    window buf n lo hi = buf (lo % n) :: window buf n (lo + 1) hi := by
  unfold window
  obtain ⟨k, rfl⟩ : ∃ k, hi = lo + 1 + k := ⟨hi - (lo + 1), by omega⟩
  rw [show lo + 1 + k - lo = k + 1 by omega, show lo + 1 + k - (lo + 1) = k by omega,
    List.range_succ_eq_map, List.map_cons, List.map_map]
  congr 1
  refine List.map_congr_left fun i _ => ?_
  simp only [Function.comp]
  congr 2
  omega

/-! ## Objects in a ring -/

/-- The elements number `lo, …, hi - 1` of `l` are in their slots, and the other slots are raw. -/
structure Holds (slots : Nat → Option α) (n lo hi : Nat) (l : List α) : Prop where
  length : l.length = hi
  le : lo ≤ hi
  bound : hi ≤ lo + n
  live : ∀ j, lo ≤ j → j < hi → slots (j % n) = l[j]?
  raw : ∀ i < n, (∀ j, lo ≤ j → j < hi → j % n ≠ i) → slots i = none

namespace Holds

variable {slots : Nat → Option α} {l : List α}

/-- All slots are raw. -/
theorem nil (n : Nat) : Holds (fun _ => none) n 0 0 ([] : List α) :=
  ⟨rfl, Nat.le_refl _, Nat.zero_le _, by simp, fun _ _ _ => rfl⟩

/-- The slot of the next element is raw. -/
theorem next_raw (h : Holds slots n lo hi l) (hn : hi < lo + n) : slots (hi % n) = none :=
  h.raw _ (Nat.mod_lt _ (Nat.pos_of_ne_zero fun h0 => by have := h.le; omega))
    fun _ hlo hhi => mod_ne hhi (by omega)

/-- The next element is constructed. -/
theorem construct (h : Holds slots n lo hi l) (hn : hi < lo + n) (v : α) :
    Holds (Function.update slots (hi % n) (some v)) n lo (hi + 1) (l ++ [v]) where
  length := by simp [h.length]
  le := Nat.le_succ_of_le h.le
  bound := hn
  live j hlo hhi := by
    by_cases hj : j = hi
    · subst hj
      rw [Function.update_self, ← h.length, List.getElem?_concat_length]
    · have hjlt : j < hi := by omega
      rw [Function.update_of_ne (mod_ne hjlt (by omega)), h.live j hlo hjlt,
        List.getElem?_append_left (h.length ▸ hjlt)]
  raw i hi' hne := by
    rw [Function.update_of_ne (hne hi h.le (Nat.lt_succ_self hi)).symm]
    exact h.raw i hi' fun j hlo hhi => hne j hlo (Nat.lt_succ_of_lt hhi)

/-- The first element is in its slot. -/
theorem first_live (h : Holds slots n lo hi l) (hlt : lo < hi) :
    ∃ v, l[lo]? = some v ∧ slots (lo % n) = some v := by
  have hlen : lo < l.length := h.length ▸ hlt
  exact ⟨l[lo], List.getElem?_eq_getElem hlen,
    (h.live lo (Nat.le_refl _) hlt).trans (List.getElem?_eq_getElem hlen)⟩

/-- The first element is destroyed. -/
theorem destroy (h : Holds slots n lo hi l) (hlt : lo < hi) :
    Holds (Function.update slots (lo % n) none) n (lo + 1) hi l where
  length := h.length
  le := hlt
  bound := Nat.le_trans h.bound (by omega)
  live j hlo hhi := by
    have := h.bound
    have hne : lo % n ≠ j % n := mod_ne hlo (by omega)
    rw [Function.update_of_ne hne.symm]
    exact h.live j (by omega) hhi
  raw i hi' hne := by
    by_cases hi : i = lo % n
    · rw [hi, Function.update_self]
    · rw [Function.update_of_ne hi]
      refine h.raw i hi' fun j hlo hhi => ?_
      by_cases hj : j = lo
      · rw [hj]
        exact Ne.symm hi
      · exact hne j (by omega) hhi

/-- As many slots hold objects as there are elements. -/
theorem card_live (h : Holds slots n lo hi l) :
    ((Finset.range n).filter fun i => (slots i).isSome).card = hi - lo := by
  have himage : (Finset.range n).filter (fun i => (slots i).isSome) =
      (Finset.Ico lo hi).image (· % n) := by
    ext i
    rw [Finset.mem_filter, Finset.mem_range, Finset.mem_image]
    constructor
    · rintro ⟨hi', hsome⟩
      by_contra hne
      have hraw := h.raw i hi' fun j hlo hhi he => hne ⟨j, Finset.mem_Ico.mpr ⟨hlo, hhi⟩, he⟩
      rw [hraw] at hsome
      cases hsome
    · rintro ⟨j, hj, rfl⟩
      obtain ⟨hlo, hhi⟩ := Finset.mem_Ico.mp hj
      have hb := h.bound
      refine ⟨Nat.mod_lt _ (by omega), ?_⟩
      rw [h.live j hlo hhi, List.getElem?_eq_getElem (h.length ▸ hhi)]
      rfl
  rw [himage, Finset.card_image_of_injOn, Nat.card_Ico]
  -- The numbers are less than `n` apart.
  intro i hi' j hj he
  have hb := h.bound
  obtain ⟨hi₁, hi₂⟩ := Finset.mem_Ico.mp hi'
  obtain ⟨hj₁, hj₂⟩ := Finset.mem_Ico.mp hj
  rcases Nat.lt_trichotomy i j with hlt | heq | hgt
  · exact absurd he (mod_ne hlt (by omega))
  · exact heq
  · exact absurd he.symm (mod_ne hgt (by omega))

end Holds

end Ring
