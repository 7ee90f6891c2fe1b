import FastQ.Lib.Monitor
import FastQ.Lib.Races

/-!
# A lock guards its object

The memory accesses of an object with a lock (`Monitor.machine`): to take the lock is an acquire
load that reads what the last unlock has written, to free it is a release store, and the accesses of
a call to the object are plain ones.

* `Guarded`: the owner of the lock knows all earlier accesses to the object; while nobody owns it,
  the last unlock comes after all of them.
* `raceFree`: there is no data race, whatever the calls access.
-/

namespace Monitor

/-- What the threads access. -/
inductive Loc where
  | lock
  | object
  deriving DecidableEq, Repr

/-- The object with its lock, the number of accesses so far, and the position of the last
unlock. -/
structure Traced (τ σ ι ρ π : Type) where
  m : State τ σ ι ρ π
  clock : Nat
  released : Option Nat

section Traced

variable {τ σ ι ρ π : Type} [DecidableEq τ]

/-- Before the first call. -/
def Traced.start (s : σ) : Traced τ σ ι ρ π := ⟨.start s, 0, none⟩

/-- The accesses of a step. To take the lock is to read what the last unlock has written. -/
def Traced.accesses (B : Body σ ι ρ π) (T : Traced τ σ ι ρ π) :
    Act τ ι → List (Access τ Loc)
  | .call _ _ => []
  | .step t =>
    match T.m.place t with
    | .idle => []
    | .lock _ => [⟨t, .lock, .acquire T.released⟩]
    | .inside _ p => [⟨t, .object, if B.writes p then .write else .read⟩]
    | .unlock _ _ => [⟨t, .lock, .release⟩]

/-- The last unlock after a step. -/
def Traced.unlocked (T : Traced τ σ ι ρ π) : Act τ ι → Option Nat
  | .call _ _ => T.released
  | .step t =>
    match T.m.place t with
    | .unlock _ _ => some T.clock
    | _ => T.released

/-- An object with a lock, with its accesses as events. -/
def traced (B : Body σ ι ρ π) : Machine (Traced τ σ ι ρ π) (Act τ ι) (Access τ Loc) where
  step T a :=
    (step B T.m a).map fun (m, _) =>
      (⟨m, T.clock + (T.accesses B a).length, T.unlocked a⟩, T.accesses B a)

open Races

/-- The invariant of the accesses: the owner of the lock, or else the last unlock, comes after all
that has accessed the object. -/
structure Guarded (T : Traced τ σ ι ρ π) (h : List (Access τ Loc)) : Prop where
  clock : T.clock = h.length
  exclusive : Exclusive T.m
  atomic : ∀ a ∈ h, a.loc = .lock → a.kind.plain = false
  released : ∀ k, T.released = some k → ∃ t, h[k]? = some ⟨t, .lock, .release⟩
  owned : ∀ t, T.m.owner = some t → ∀ i a, h[i]? = some a → a.loc = .object → Knows h t i
  free : T.m.owner = none → ∀ i a, h[i]? = some a → a.loc = .object →
    ∃ k, T.released = some k ∧ Before h i k
  raceFree : RaceFree h

variable {B : Body σ ι ρ π} {T T' : Traced τ σ ι ρ π} {h e : List (Access τ Loc)} {a : Act τ ι}

omit [DecidableEq τ] in
theorem start_guarded (s : σ) : Guarded (.start s : Traced τ σ ι ρ π) [] where
  clock := rfl
  exclusive t := by simp [Traced.start, State.start, Place.owns]
  atomic := nofun
  released := nofun
  owned := nofun
  free _ i a ha := by simp at ha
  raceFree := RaceFree.nil

section Accesses

variable {m' : State τ σ ι ρ π} {t : τ}

omit [DecidableEq τ] in
/-- The lock is only accessed by atomic accesses. -/
theorem Guarded.lock_free (hg : Guarded T h) {b : Access τ Loc} (hb : b.loc = .lock)
    (hp : b.kind.plain = false) (hf : RaceFree h) : RaceFree (h ++ [b]) := by
  refine hf.append (t := b.thread) (by simp) fun b' hb' i a ha hc => ?_
  obtain rfl := List.mem_singleton.mp hb'
  have hlock := hg.atomic a (List.mem_of_getElem? ha) (hc.loc.trans hb)
  rcases hc.plain with h | h
  · rw [hlock] at h
    cases h
  · rw [hp] at h
    cases h

omit [DecidableEq τ] in
/-- The owner of the lock accesses the object. -/
theorem Guarded.inside (hg : Guarded T h) (ho : T.m.owner = some t) (ho' : m'.owner = some t)
    (hm' : Exclusive m') (k : AccessKind) :
    Guarded ⟨m', T.clock + 1, T.released⟩ (h ++ [⟨t, .object, k⟩]) where
  clock := by simp [hg.clock]
  exclusive := hm'
  atomic a ha hl := by
    rcases List.mem_append.mp ha with ha | ha
    · exact hg.atomic a ha hl
    · rw [List.mem_singleton.mp ha] at hl
      cases hl
  released k hk := by
    obtain ⟨u, hu⟩ := hg.released k hk
    exact ⟨u, getElem?_append hu⟩
  owned u hu i a ha hl := by
    obtain rfl : t = u := Option.some.inj (ho'.symm.trans hu)
    rcases getElem?_cases ha with ha | ⟨-, ha'⟩
    · exact (hg.owned t ho i a ha hl).append
    · rw [List.mem_singleton.mp ha'] at ha
      exact Knows.own ha
  free hno := by
    rw [show m'.owner = none from hno] at ho'
    cases ho'
  raceFree := by
    refine hg.raceFree.append (t := t) (by simp) fun b hb i a ha hc => ?_
    rw [List.mem_singleton.mp hb] at hc
    exact hg.owned t ho i a ha hc.loc

omit [DecidableEq τ] in
/-- A thread takes the lock. -/
theorem Guarded.take (hg : Guarded T h) (ho : T.m.owner = none) (ho' : m'.owner = some t)
    (hm' : Exclusive m') :
    Guarded ⟨m', T.clock + 1, T.released⟩ (h ++ [⟨t, .lock, .acquire T.released⟩]) where
  clock := by simp [hg.clock]
  exclusive := hm'
  atomic a ha hl := by
    rcases List.mem_append.mp ha with ha | ha
    · exact hg.atomic a ha hl
    · rw [List.mem_singleton.mp ha]
      rfl
  released k hk := by
    obtain ⟨u, hu⟩ := hg.released k hk
    exact ⟨u, getElem?_append hu⟩
  owned u hu i a ha hl := by
    obtain rfl : t = u := Option.some.inj (ho'.symm.trans hu)
    rcases getElem?_cases ha with ha | ⟨-, ha'⟩
    · obtain ⟨k, hk, hik⟩ := hg.free ho i a ha hl
      obtain ⟨u, hu⟩ := hg.released k hk
      have hacquire : Knows (h ++ [⟨t, .lock, .acquire T.released⟩]) t k :=
        Knows.acquire hu rfl getElem?_new (congrArg _ hk) rfl
      exact hacquire.of_before hik.append
    · rw [List.mem_singleton.mp ha'] at hl
      cases hl
  free hno := by
    rw [show m'.owner = none from hno] at ho'
    cases ho'
  raceFree := hg.lock_free rfl rfl hg.raceFree

omit [DecidableEq τ] in
/-- The owner frees the lock. -/
theorem Guarded.free_lock (hg : Guarded T h) (ho : T.m.owner = some t) (ho' : m'.owner = none)
    (hm' : Exclusive m') :
    Guarded ⟨m', T.clock + 1, some T.clock⟩ (h ++ [⟨t, .lock, .release⟩]) where
  clock := by simp [hg.clock]
  exclusive := hm'
  atomic a ha hl := by
    rcases List.mem_append.mp ha with ha | ha
    · exact hg.atomic a ha hl
    · rw [List.mem_singleton.mp ha]
      rfl
  released k hk := by
    obtain rfl := Option.some.inj hk
    rw [hg.clock]
    exact ⟨t, getElem?_new⟩
  owned u hu := by
    rw [show m'.owner = some u from hu] at ho'
    cases ho'
  free _ i a ha hl := by
    refine ⟨T.clock, rfl, ?_⟩
    rw [hg.clock]
    rcases getElem?_cases ha with ha | ⟨-, ha'⟩
    · exact (hg.owned t ho i a ha hl).before (Nat.le_refl _) getElem?_new rfl
    · rw [List.mem_singleton.mp ha'] at hl
      cases hl
  raceFree := hg.lock_free rfl rfl hg.raceFree

end Accesses

/-- **The step lemma.** -/
theorem Guarded.step (hg : Guarded T h) (hst : (traced B).step T a = some (T', e)) :
    Guarded T' (h ++ e) := by
  obtain ⟨⟨m', es⟩, hm, hT⟩ := Option.map_eq_some_iff.mp hst
  cases hT
  have hm := step_move (B := B) hm
  have hexclusive := hm.exclusive hg.exclusive
  cases hm with
  | call hp =>
    simp only [Traced.accesses, Traced.unlocked, List.append_nil, List.length_nil, Nat.add_zero]
    exact ⟨hg.clock, hexclusive, hg.atomic, hg.released, hg.owned, hg.free, hg.raceFree⟩
  | lock hp ho =>
    simp only [Traced.accesses, Traced.unlocked, hp, List.length_singleton]
    exact hg.take ho rfl hexclusive
  | next hp hacc | done hp hacc =>
    have ho := (hg.exclusive _).mpr (by rw [hp]; rfl)
    simp only [Traced.accesses, Traced.unlocked, hp, List.length_singleton]
    refine hg.inside ho ?_ hexclusive _
    exact ho
  | unlock hp =>
    have ho := (hg.exclusive _).mpr (by rw [hp]; rfl)
    simp only [Traced.accesses, Traced.unlocked, hp, List.length_singleton]
    exact hg.free_lock ho rfl hexclusive

/-- **A lock guards its object.** Whatever the calls access, there is no data race. -/
theorem raceFree {ok : Traced τ σ ι ρ π → Act τ ι → Prop} {s : σ}
    (hr : (traced B).Reach ok (.start s) T h) : RaceFree h :=
  (hr.invariant (start_guarded s) fun _ _ _ _ _ hg _ hst => hg.step hst).raceFree

end Traced

end Monitor
