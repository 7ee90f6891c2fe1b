import Mathlib.Data.List.Basic

/-!
# Happens-before and data races

A history of memory accesses by threads, in one total order, and the order that the language
guarantees between them. An access is a position of the history. What happens before what is given
by the program order of each thread, and by the acquire loads: an acquire load comes after the
release store whose value it reads, and after all that comes before that store. A data race is a
pair of conflicting accesses of two threads that are not in that order.

* `Before h i j`: the access at `i` happens before the one at `j`.
* `Knows h t i`: the access at `i` happens before everything that the thread `t` does from now on.
* `RaceFree.append`: a thread that goes on does not race, if it knows the accesses that conflict
  with its own.
* `not_before`: an access does not happen before those of a thread whose acquire loads all read
  older stores. The proof is by a set of positions that is closed under edges (`Before.closed`).
-/

/-- How a location is accessed. The source of an acquire load is the position of the store whose
value it reads, or `none` for the initial value. -/
inductive AccessKind where
  | read
  | write
  | relaxed
  | acquire (source : Option Nat)
  | release
  deriving DecidableEq, Repr

/-- An access of a thread to a location. -/
structure Access (τ ℓ : Type) where
  thread : τ
  loc : ℓ
  kind : AccessKind
  deriving DecidableEq, Repr

/-- Not atomic. -/
def AccessKind.plain : AccessKind → Bool
  | .read | .write => true
  | _ => false

/-- The access changes the location. -/
def AccessKind.writes : AccessKind → Bool
  | .write | .release => true
  | _ => false

namespace Races

variable {τ ℓ : Type}

/-- Two threads access one location, one of them changes it, and one of them is not atomic. -/
structure Conflict (a b : Access τ ℓ) : Prop where
  thread : a.thread ≠ b.thread
  loc : a.loc = b.loc
  writes : a.kind.writes = true ∨ b.kind.writes = true
  plain : a.kind.plain = true ∨ b.kind.plain = true

/-- The access at one position happens before the one at another. -/
inductive Before (h : List (Access τ ℓ)) : Nat → Nat → Prop
  /-- The thread makes one after the other. -/
  | program {i j : Nat} {a b : Access τ ℓ} : i < j → h[i]? = some a → h[j]? = some b →
      a.thread = b.thread → Before h i j
  /-- An acquire load reads what a release store wrote. -/
  | reads {i j : Nat} {a b : Access τ ℓ} : i < j → h[i]? = some a → h[j]? = some b →
      a.kind = .release → b.kind = .acquire (some i) → a.loc = b.loc → Before h i j
  | trans {i j k : Nat} : Before h i j → Before h j k → Before h i k

/-- All conflicting accesses are in the order. -/
def RaceFree (h : List (Access τ ℓ)) : Prop :=
  ∀ i j a b, i < j → h[i]? = some a → h[j]? = some b → Conflict a b → Before h i j

/-- The access happens before all that the thread does from now on. -/
def Knows (h : List (Access τ ℓ)) (t : τ) (i : Nat) : Prop :=
  ∃ j a, h[j]? = some a ∧ a.thread = t ∧ (i = j ∨ Before h i j)

variable {h h' : List (Access τ ℓ)} {i j k : Nat} {t : τ} {a b : Access τ ℓ}

/-! ## Histories that go on -/

/-- A position of a history is the same position when it goes on. -/
theorem getElem?_append (ha : h[i]? = some a) : (h ++ h')[i]? = some a := by
  rw [List.getElem?_append_left (List.getElem?_eq_some_iff.mp ha).1, ha]

theorem getElem?_lt (ha : h[i]? = some a) : i < h.length := (List.getElem?_eq_some_iff.mp ha).1

/-- A position of a longer history is one of the old ones, or one of the new ones. -/
theorem getElem?_cases (ha : (h ++ h')[i]? = some a) :
    h[i]? = some a ∨ h.length ≤ i ∧ a ∈ h' := by
  rcases Nat.lt_or_ge i h.length with hlt | hge
  · exact .inl (List.getElem?_append_left hlt ▸ ha)
  · rw [List.getElem?_append_right hge] at ha
    exact .inr ⟨hge, List.mem_of_getElem? ha⟩

theorem getElem?_new : (h ++ [a])[h.length]? = some a := by simp

theorem Before.append (hb : Before h i j) : Before (h ++ h') i j := by
  induction hb with
  | program hlt ha hb ht => exact .program hlt (getElem?_append ha) (getElem?_append hb) ht
  | reads hlt ha hb hr hacq hloc =>
    exact .reads hlt (getElem?_append ha) (getElem?_append hb) hr hacq hloc
  | trans _ _ ih₁ ih₂ => exact .trans ih₁ ih₂

theorem Before.lt (hb : Before h i j) : i < j := by
  induction hb with
  | program hlt => exact hlt
  | reads hlt => exact hlt
  | trans _ _ ih₁ ih₂ => exact Nat.lt_trans ih₁ ih₂

/-! ## What a thread knows -/

theorem Knows.append (hk : Knows h t i) : Knows (h ++ h') t i := by
  obtain ⟨j, a, ha, ht, hij⟩ := hk
  exact ⟨j, a, getElem?_append ha, ht, hij.imp_right Before.append⟩

/-- A thread knows its own accesses. -/
theorem Knows.own (ha : h[i]? = some a) : Knows h a.thread i := ⟨i, a, ha, rfl, .inl rfl⟩

/-- What happens before a known access is known. -/
theorem Knows.of_before (hb : Before h i j) (hk : Knows h t j) : Knows h t i := by
  obtain ⟨k, a, ha, ht, rfl | hjk⟩ := hk
  · exact ⟨j, a, ha, ht, .inr hb⟩
  · exact ⟨k, a, ha, ht, .inr (hb.trans hjk)⟩

/-- What a thread knows happens before its next access. -/
theorem Knows.before (hk : Knows h t i) (hj : h.length ≤ j) (hb : (h ++ h')[j]? = some b)
    (ht : b.thread = t) : Before (h ++ h') i j := by
  obtain ⟨k, a, ha, hat, hik⟩ := hk
  have hkj : Before (h ++ h') k j :=
    .program (Nat.lt_of_lt_of_le (getElem?_lt ha) hj) (getElem?_append ha) hb (hat.trans ht.symm)
  rcases hik with rfl | hik
  · exact hkj
  · exact hik.append.trans hkj

/-- An acquire load makes the store that it reads known. -/
theorem Knows.acquire {source : Nat} (hs : h[source]? = some a) (hr : a.kind = .release)
    (hb : (h ++ h')[h.length]? = some b) (hk : b.kind = .acquire (some source))
    (hloc : a.loc = b.loc) : Knows (h ++ h') b.thread source :=
  ⟨h.length, b, hb, rfl, .inr (.reads (getElem?_lt hs) (getElem?_append hs) hb hr hk hloc)⟩

/-! ## Race freedom -/

theorem RaceFree.nil : RaceFree ([] : List (Access τ ℓ)) := fun _ _ _ _ _ ha => by simp at ha

/-- **A thread that goes on.** If the new accesses are those of one thread, and it knows the earlier
accesses that conflict with them, no race comes with them. -/
theorem RaceFree.append (hf : RaceFree h) (ht : ∀ b ∈ h', b.thread = t)
    (hk : ∀ b ∈ h', ∀ i a, h[i]? = some a → Conflict a b → Knows h t i) : RaceFree (h ++ h') := by
  intro i j a b hij ha hb hc
  rcases getElem?_cases hb with hb' | ⟨hj, hb'⟩
  · have ha' : h[i]? = some a := by
      rw [← ha, List.getElem?_append_left (Nat.lt_trans hij (getElem?_lt hb'))]
    exact (hf i j a b hij ha' hb' hc).append
  · rcases getElem?_cases ha with ha' | ⟨-, ha'⟩
    · exact (hk b hb' i a ha' hc).before hj hb (ht b hb')
    · exact (hc.thread ((ht a ha').trans (ht b hb').symm)).elim

/-- What happens before a member of a set that is closed under edges is a member. -/
theorem Before.closed {S : Nat → Prop}
    (hprogram : ∀ i j a b, i < j → h[i]? = some a → h[j]? = some b → a.thread = b.thread →
      S j → S i)
    (hreads : ∀ i j b, i < j → h[j]? = some b → b.kind = .acquire (some i) → S j → S i)
    (hb : Before h i j) (hj : S j) : S i := by
  induction hb with
  | program hlt ha hb ht => exact hprogram _ _ _ _ hlt ha hb ht hj
  | reads hlt _ hb _ hacq _ => exact hreads _ _ _ hlt hb hacq hj
  | trans _ _ ih₁ ih₂ => exact ih₁ (ih₂ hj)

/-- **What no acquire load covers.** If all acquire loads of a thread read stores that come before
an access of another thread, this access happens before none of the thread's. -/
theorem not_before
    (hacq : ∀ b ∈ h, b.thread = t → ∀ k, b.kind = .acquire (some k) → k < i)
    (ha : h[i]? = some a) (hat : a.thread ≠ t) (hb : h[j]? = some b) (hbt : b.thread = t) :
    ¬ Before h i j := by
  intro hij
  have hS : (∃ a, h[i]? = some a ∧ a.thread = t) ∨ i < i := by
    refine Before.closed (S := fun j => (∃ a, h[j]? = some a ∧ a.thread = t) ∨ j < i) ?_ ?_ hij
      (.inl ⟨b, hb, hbt⟩)
    · rintro m n a b hlt ha hb hab (⟨b', hb', ht⟩ | hn)
      · obtain rfl : b = b' := by simpa [hb] using hb'
        exact .inl ⟨a, ha, hab.trans ht⟩
      · exact .inr (Nat.lt_trans hlt hn)
    · rintro m n b hlt hb hk (⟨b', hb', ht⟩ | hn)
      · obtain rfl : b = b' := by simpa [hb] using hb'
        exact .inr (hacq b (List.mem_of_getElem? hb) ht m hk)
      · exact .inr (Nat.lt_trans hlt hn)
  obtain ⟨a', ha', ht⟩ | hlt := hS
  · obtain rfl : a = a' := by simpa [ha] using ha'
    exact hat ht
  · exact Nat.lt_irrefl i hlt

end Races
