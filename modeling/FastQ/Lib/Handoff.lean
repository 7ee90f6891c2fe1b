import Mathlib.Data.List.Forall2
import FastQ.Lib.Races

/-!
# Handing over by a counter

One thread makes accesses of some kind `P`, and publishes by release stores how many it has made;
another thread reads the published number by acquire loads. The values that it may still see, newest
first, come with the positions of the stores that wrote them.

* `Handoff`: each of these values is the number of accesses `P` before its store, and the other
  thread knows the store that it read last.
* `Handoff.append`, `Handoff.store`, `Handoff.load`: how the two threads go on.
* `Handoff.knows`: the other thread knows each access whose number is below the value it read last.
* `Numbered`: the number of an access says where it goes.
* `Turns`: both together, also for accesses that are not counted themselves but placed by the count;
  what the other thread knows of a location follows from the numbers (`Turns.knows`).
-/

namespace Races

variable {τ ℓ : Type} {h h' : List (Access τ ℓ)}

/-! ## Numbered accesses -/

/-- The accesses `P` go to the locations `f 0`, `f 1`, ... in turn. -/
def Numbered (P : Access τ ℓ → Bool) (f : Nat → ℓ) (h : List (Access τ ℓ)) : Prop :=
  ∀ i a, h[i]? = some a → P a = true → a.loc = f ((h.take i).countP P)

section Numbered

variable {P : Access τ ℓ → Bool} {f : Nat → ℓ} {i : Nat} {a : Access τ ℓ}

/-- The number of an access is less than the number of all of them. -/
theorem number_lt (ha : h[i]? = some a) (hP : P a = true) : (h.take i).countP P < h.countP P := by
  have hi := getElem?_lt ha
  have hpos : 0 < (h.drop i).countP P := by
    rw [List.countP_pos_iff]
    refine ⟨a, List.mem_of_getElem? (i := 0) ?_, hP⟩
    rw [List.getElem?_drop, Nat.add_zero, ha]
  calc (h.take i).countP P < (h.take i).countP P + (h.drop i).countP P := by omega
    _ = h.countP P := by rw [← List.countP_append, List.take_append_drop]

end Numbered

/-! ## The store that a value comes from -/

/-- The value is the number of accesses `P` before the store that wrote it; a value without a store
is the initial one. -/
def Stored (P : Access τ ℓ → Bool) (p : τ) (loc : ℓ) (h : List (Access τ ℓ)) (v : Nat) :
    Option Nat → Prop
  | none => v = 0
  | some k => h[k]? = some ⟨p, loc, .release⟩ ∧ v = (h.take k).countP P

/-- A store is not older than another one. -/
def NotOlder (f g : Option Nat) : Prop := ∀ i, g = some i → ∃ k, f = some k ∧ i ≤ k

/-- Handing over (module doc): `p` makes the accesses `P` and stores to `loc`, `c` loads. `vis` are
the values that `c` may still see and `src` the stores that wrote them, newest first. -/
structure Handoff (P : Access τ ℓ → Bool) (p c : τ) (loc : ℓ) (h : List (Access τ ℓ))
    (vis : List Nat) (src : List (Option Nat)) : Prop where
  stored : List.Forall₂ (Stored P p loc h) vis src
  sorted : src.Pairwise NotOlder
  own : ∀ a ∈ h, P a = true → a.thread = p
  known : ∀ k, src.getLast? = some (some k) → Knows h c k
  acquired : ∀ i, ∀ b ∈ h, b.thread = c → b.kind = .acquire (some i) →
    ∀ f ∈ src, ∃ k, f = some k ∧ i ≤ k

section Handoff

variable {P : Access τ ℓ → Bool} {p c : τ} {loc : ℓ} {vis : List Nat} {src : List (Option Nat)}
  {v : Nat} {f : Option Nat}

theorem Stored.append (hs : Stored P p loc h v f) : Stored P p loc (h ++ h') v f := by
  cases f with
  | none => exact hs
  | some k =>
    obtain ⟨hk, hv⟩ := hs
    refine ⟨getElem?_append hk, ?_⟩
    rw [List.take_append_of_le_length (Nat.le_of_lt (getElem?_lt hk)), hv]

/-- A store comes from the history. -/
theorem Stored.lt {k : Nat} (hs : Stored P p loc h v (some k)) : k < h.length := getElem?_lt hs.1

namespace Handoff

/-- Before the first access. -/
theorem nil : Handoff P p c loc [] [0] [none] where
  stored := .cons rfl .nil
  sorted := List.pairwise_singleton _ _
  own := nofun
  known k hk := by simp at hk
  acquired := nofun

variable (hh : Handoff P p c loc h vis src)
include hh

theorem length_eq : vis.length = src.length := hh.stored.length_eq

/-- The store that a load reads. -/
theorem source {k : Nat} (hv : vis[k]? = some v) : ∃ f, src[k]? = some f := by
  have hlt := (List.getElem?_eq_some_iff.mp hv).1
  rw [hh.length_eq] at hlt
  exact ⟨_, List.getElem?_eq_getElem hlt⟩

theorem source_ne (hv : vis ≠ []) : src ≠ [] := by
  intro hnil
  have hlen := hh.length_eq
  rw [hnil] at hlen
  exact hv (List.length_eq_zero_iff.mp hlen)

/-- The sources are older than the next access. -/
theorem source_lt {k : Nat} (hk : some k ∈ src) : k < h.length := by
  obtain ⟨i, hi⟩ := List.getElem?_of_mem hk
  obtain ⟨hlt, hi⟩ := List.getElem?_eq_some_iff.mp hi
  have hs := hh.stored.get (by rw [hh.length_eq]; exact hlt) hlt
  simp only [List.get_eq_getElem, hi] at hs
  exact hs.lt

/-- Accesses that are not acquire loads of `c`, and no accesses `P` of another thread. -/
theorem append (hP : ∀ a ∈ h', P a = true → a.thread = p)
    (hc : ∀ a ∈ h', a.thread = c → ∀ i, a.kind ≠ .acquire (some i)) :
    Handoff P p c loc (h ++ h') vis src where
  stored := hh.stored.imp fun _ _ hs => hs.append
  sorted := hh.sorted
  own a ha := (List.mem_append.mp ha).elim (hh.own a) (hP a)
  known k hk := (hh.known k hk).append
  acquired i b hb hbc hi :=
    (List.mem_append.mp hb).elim (fun hb => hh.acquired i b hb hbc hi)
      fun hb => (hc b hb hbc i hi).elim

/-- The store of the number of accesses so far. -/
theorem store (hne : src ≠ []) (hP : P ⟨p, loc, .release⟩ = false) :
    Handoff P p c loc (h ++ [⟨p, loc, .release⟩]) (h.countP P :: vis) (some h.length :: src) := by
  have happ : Handoff P p c loc (h ++ [⟨p, loc, .release⟩]) vis src :=
    hh.append (by simp [hP]) (by simp)
  refine ⟨.cons ⟨getElem?_new, by simp⟩ happ.stored, ?_, happ.own, fun k hk => ?_, ?_⟩
  · refine List.pairwise_cons.mpr ⟨?_, hh.sorted⟩
    rintro g hg i rfl
    exact ⟨_, rfl, Nat.le_of_lt (hh.source_lt hg)⟩
  · rw [List.getLast?_cons_of_ne_nil hne] at hk
    exact happ.known k hk
  · intro i b hb hbc hi f hf
    rcases List.mem_cons.mp hf with rfl | hf
    · obtain ⟨g, hg⟩ := List.exists_mem_of_ne_nil src hne
      obtain ⟨k, rfl, hk⟩ := happ.acquired i b hb hbc hi g hg
      exact ⟨_, rfl, Nat.le_trans hk (Nat.le_of_lt (hh.source_lt hg))⟩
    · exact happ.acquired i b hb hbc hi f hf

/-- The load of the value `j` stores behind the newest. -/
theorem load {j : Nat} (hj : src[j]? = some f) (hP : P ⟨c, loc, .acquire f⟩ = false) :
    Handoff P p c loc (h ++ [⟨c, loc, .acquire f⟩]) (vis.take (j + 1)) (src.take (j + 1)) := by
  have hjlt := (List.getElem?_eq_some_iff.mp hj).1
  have hlast : (src.take (j + 1)).getLast? = some f := by
    rw [List.getLast?_take, if_neg (Nat.succ_ne_zero j), Nat.add_sub_cancel, hj]
    rfl
  have holder : ∀ g ∈ src.take (j + 1), ∀ i, f = some i → ∃ k, g = some k ∧ i ≤ k := by
    intro g hg i hi
    obtain ⟨m, hm, rfl⟩ := List.mem_take_iff_getElem.mp hg
    have hjf : src[j] = f := (List.getElem?_eq_some_iff.mp hj).2
    rcases Nat.lt_or_ge m j with hlt | hge
    · exact List.pairwise_iff_getElem.mp hh.sorted m j _ hjlt hlt i (hjf.trans hi)
    · obtain rfl : m = j := by omega
      exact ⟨i, hjf.trans hi, Nat.le_refl i⟩
  refine ⟨?_, hh.sorted.sublist (List.take_sublist _ _), ?_, fun k hk => ?_, ?_⟩
  · exact List.forall₂_take (j + 1) (hh.stored.imp fun _ _ hs => hs.append)
  · intro a ha
    rcases List.mem_append.mp ha with ha | ha
    · exact hh.own a ha
    · rw [List.mem_singleton.mp ha, hP]
      exact nofun
  · -- The new last source is the store that is read.
    rw [hlast] at hk
    obtain rfl := Option.some.inj hk
    have hs := hh.stored.get (by rw [hh.length_eq]; exact hjlt) hjlt
    simp only [List.get_eq_getElem, (List.getElem?_eq_some_iff.mp hj).2] at hs
    exact Knows.acquire hs.1 rfl getElem?_new rfl rfl
  · intro i b hb hbc hi g hg
    rcases List.mem_append.mp hb with hb | hb
    · exact hh.acquired i b hb hbc hi g (List.mem_of_mem_take hg)
    · rw [List.mem_singleton.mp hb] at hi
      exact holder g hg i (AccessKind.acquire.inj hi)

/-- **What is handed over.** An access of `p` with a number below the value read last is known. -/
theorem knows {i : Nat} {a : Access τ ℓ} (ha : h[i]? = some a) (hthread : a.thread = p)
    (hlast : vis.getLast? = some v) (hv : (h.take i).countP P < v) : Knows h c i := by
  obtain ⟨f, hf⟩ : ∃ f, src.getLast? = some f ∧ Stored P p loc h v f := by
    have hne : vis ≠ [] := by
      rintro rfl
      simp at hlast
    have hpos := List.length_pos_iff.mpr hne
    have hlen := hh.length_eq
    have hs := hh.stored.get (i := vis.length - 1) (by omega) (by omega)
    rw [List.getLast?_eq_getElem?] at hlast
    rw [List.getLast?_eq_getElem?]
    have hv := (List.getElem?_eq_some_iff.mp hlast).2
    rw [List.get_eq_getElem, List.get_eq_getElem, hv] at hs
    refine ⟨_, ?_, hs⟩
    rw [List.getElem?_eq_some_iff]
    exact ⟨by omega, by simp only [hlen]⟩
  cases f with
  | none => exact absurd hf.2 (by rintro rfl; omega)
  | some k =>
    obtain ⟨hsrc, hk, rfl⟩ := hf
    have hik : i < k := by
      by_contra hki
      have hle : (h.take k).Sublist (h.take i) :=
        (List.take_prefix_take_left (Nat.le_of_not_lt hki)).sublist
      have := hle.countP_le (p := P)
      omega
    exact (hh.known k hsrc).of_before (.program hik ha hk hthread)

end Handoff

/-! ## In turn -/

/-- `p` has made `m` accesses `P`; each access `Q` is one of `p`, at the location `f j` if `j`
accesses `P` come before it, and `j` is less than `bound`. The counter `loc` hands the numbers over
to `c`. -/
structure Turns (P Q : Access τ ℓ → Bool) (p c : τ) (loc : ℓ) (f : Nat → ℓ) (m bound : Nat)
    (h : List (Access τ ℓ)) (vis : List Nat) (src : List (Option Nat)) : Prop where
  handoff : Handoff P p c loc h vis src
  count : h.countP P = m
  place : ∀ i a, h[i]? = some a → Q a = true →
    a.thread = p ∧ a.loc = f ((h.take i).countP P) ∧ (h.take i).countP P < bound

namespace Turns

variable {Q : Access τ ℓ → Bool} {f₀ : Nat → ℓ} {m bound bound' : Nat} {a : Access τ ℓ}

theorem start : Turns P Q p c loc f₀ 0 bound [] [0] [none] :=
  ⟨.nil, rfl, fun i a ha => by simp at ha⟩

variable (ht : Turns P Q p c loc f₀ m bound h vis src)
include ht

theorem mono (hb : bound ≤ bound') : Turns P Q p c loc f₀ m bound' h vis src where
  handoff := ht.handoff
  count := ht.count
  place i a ha hQ :=
    have ⟨hp, hl, hlt⟩ := ht.place i a ha hQ
    ⟨hp, hl, Nat.lt_of_lt_of_le hlt hb⟩

/-- The places of a history that goes on. -/
theorem place_append
    (hnew : ∀ a ∈ h', Q a = true → h' = [a] ∧ a.thread = p ∧ a.loc = f₀ m ∧ m < bound)
    (i : Nat) (a : Access τ ℓ) (ha : (h ++ h')[i]? = some a) (hQ : Q a = true) :
    a.thread = p ∧ a.loc = f₀ (((h ++ h').take i).countP P) ∧
      ((h ++ h').take i).countP P < bound := by
  rcases Nat.lt_or_ge i h.length with hlt | hge
  · rw [List.getElem?_append_left hlt] at ha
    rw [List.take_append_of_le_length (Nat.le_of_lt hlt)]
    exact ht.place i a ha hQ
  · rw [List.getElem?_append_right hge] at ha
    obtain ⟨rfl, hp, hl, hlt⟩ := hnew a (List.mem_of_getElem? ha) hQ
    obtain rfl : i = h.length := by
      have := getElem?_lt ha
      rw [List.length_singleton] at this
      omega
    rw [List.take_left, ht.count]
    exact ⟨hp, hl, hlt⟩

/-- Accesses that are not counted, not placed, and no acquire loads of `c`. -/
theorem append (hP : ∀ a ∈ h', P a = false) (hQ : ∀ a ∈ h', Q a = false)
    (hc : ∀ a ∈ h', a.thread = c → ∀ i, a.kind ≠ .acquire (some i)) :
    Turns P Q p c loc f₀ m bound (h ++ h') vis src where
  handoff := ht.handoff.append (fun a ha hPa => by rw [hP a ha] at hPa; cases hPa) hc
  count := by rw [List.countP_append, ht.count, List.countP_eq_zero.mpr (by simpa using hP)]; rfl
  place := ht.place_append fun a ha hQa => by rw [hQ a ha] at hQa; cases hQa

/-- The next access in turn. -/
theorem use (a : Access τ ℓ) (hp : a.thread = p) (hpc : p ≠ c) (hl : a.loc = f₀ m)
    (hlt : m < bound) :
    Turns P Q p c loc f₀ (m + if P a then 1 else 0) bound (h ++ [a]) vis src where
  handoff := ht.handoff.append (by simp [hp]) (by simp [hp, hpc])
  count := by simp [List.countP_append, ht.count, List.countP_cons]
  place := ht.place_append fun b hb _ => by
    rw [List.mem_singleton.mp hb]
    exact ⟨rfl, hp, hl, hlt⟩

/-- The store of the number of accesses so far. -/
theorem store (hvis : vis ≠ []) (hP : P ⟨p, loc, .release⟩ = false)
    (hQ : Q ⟨p, loc, .release⟩ = false) :
    Turns P Q p c loc f₀ m bound (h ++ [⟨p, loc, .release⟩]) (m :: vis) (some h.length :: src) where
  handoff := by
    have := ht.handoff.store (ht.handoff.source_ne hvis) hP
    rwa [ht.count] at this
  count := by rw [List.countP_append, ht.count, List.countP_eq_zero.mpr (by simpa using hP)]; rfl
  place := ht.place_append fun a ha hQa => by
    rw [List.mem_singleton.mp ha, hQ] at hQa
    cases hQa

/-- The load of the value `j` stores behind the newest. -/
theorem load {j : Nat} (hj : src[j]? = some f) (hP : P ⟨c, loc, .acquire f⟩ = false)
    (hQ : Q ⟨c, loc, .acquire f⟩ = false) :
    Turns P Q p c loc f₀ m bound (h ++ [⟨c, loc, .acquire f⟩]) (vis.take (j + 1))
      (src.take (j + 1)) where
  handoff := ht.handoff.load hj hP
  count := by rw [List.countP_append, ht.count, List.countP_eq_zero.mpr (by simpa using hP)]; rfl
  place := ht.place_append fun a ha hQa => by
    rw [List.mem_singleton.mp ha, hQ] at hQa
    cases hQa

/-- **What `c` knows** of the accesses at a location: all of them, if their numbers are below every
value that it may still see. -/
theorem knows {i : Nat} (ha : h[i]? = some a) (hQ : Q a = true) (hvis : vis ≠ [])
    (hlt : ∀ j < bound, f₀ j = a.loc → ∀ v ∈ vis, j < v) : Knows h c i := by
  obtain ⟨hp, hl, hb⟩ := ht.place i a ha hQ
  exact ht.handoff.knows ha hp (List.getLast?_eq_some_getLast hvis)
    (hlt _ hb hl.symm _ (List.getLast_mem hvis))

end Turns

end Handoff

end Races
