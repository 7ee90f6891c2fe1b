import Mathlib.Logic.Function.Basic
import FastQ.Lib.Machine

/-!
# An object and its lock

Any number of threads call the operations of an object. A call takes the lock of the object, makes
its accesses one by one, and frees the lock (`Body`). The threads interleave in any order, and a
thread that finds the lock taken waits.

* `Body.Implements N op`: run without interruption, each call makes `N` accesses at most, and does
  what `op` says.
* `Inv.owner`: only the owner of the lock is inside (mutual exclusion).
* `Inv.atomic`: the calls that have returned, in the order of their returns, are a run of the object
  with atomic calls (`sequential`), and a free object is where that run has ended. A call returns
  with its unlock: this is the order of the unlocks, in which the callers need not go on.
* `Inv.calls`: what a thread has called has returned, but for the call that it is in.
* `Inv.exists_return`: no deadlock. From every state each thread can be brought to its return, by so
  many steps of the owner of the lock and of its own.
-/

namespace Monitor

/-- The calls of an object, as accesses. `ι` are the calls, `ρ` what they return, `π` the places
inside a call. -/
structure Body (σ ι ρ π : Type) where
  /-- Where a call starts. -/
  enter : ι → π
  /-- An access: the next place, or the return. `none`: the access is not defined there. -/
  access : σ → π → Option (σ × (π ⊕ ρ))
  /-- The access changes the object. -/
  writes : π → Bool

/-- Where a thread is. -/
inductive Place (ι ρ π : Type) where
  | idle
  /-- At the lock. -/
  | lock (c : ι)
  | inside (c : ι) (p : π)
  /-- At the unlock, with the value to return. -/
  | unlock (c : ι) (r : ρ)
  deriving DecidableEq, Repr

/-- Who goes next. -/
inductive Act (τ ι : Type) where
  | call (t : τ) (c : ι)
  | step (t : τ)
  deriving DecidableEq, Repr

/-- A call starts, or frees the lock to return. -/
inductive Event (τ ι ρ : Type) where
  | call (t : τ) (c : ι)
  | ret (t : τ) (c : ι) (r : ρ)
  deriving DecidableEq, Repr

/-- The object, the owner of its lock, and the threads. -/
structure State (τ σ ι ρ π : Type) where
  object : σ
  owner : Option τ
  place : τ → Place ι ρ π

section Steps

variable {τ σ ι ρ π : Type} [DecidableEq τ]

/-- Before the first call. -/
def State.start (s : σ) : State τ σ ι ρ π := ⟨s, none, fun _ => .idle⟩

/-- A thread goes to a place. -/
def State.goTo (m : State τ σ ι ρ π) (t : τ) (p : Place ι ρ π) : State τ σ ι ρ π :=
  { m with place := Function.update m.place t p }

/-- One step. The unlock is the last access of a call, and shows its return. -/
def step (B : Body σ ι ρ π) (m : State τ σ ι ρ π) :
    Act τ ι → Option (State τ σ ι ρ π × List (Event τ ι ρ))
  | .call t c =>
    match m.place t with
    | .idle => some (m.goTo t (.lock c), [.call t c])
    | _ => none
  | .step t =>
    match m.place t with
    | .idle => none
    | .lock c =>
      match m.owner with
      | none => some ({ m.goTo t (.inside c (B.enter c)) with owner := some t }, [])
      | some _ => none
    | .inside c p =>
      (B.access m.object p).map fun (object, next) =>
        ({ m.goTo t (next.elim (.inside c) (.unlock c)) with object }, [])
    | .unlock c r => some ({ m.goTo t .idle with owner := none }, [.ret t c r])

/-- An object with a lock. -/
def machine (B : Body σ ι ρ π) : Machine (State τ σ ι ρ π) (Act τ ι) (Event τ ι ρ) := ⟨step B⟩

/-- The object with atomic calls. -/
def sequential (op : ι → σ → ρ × σ) : Machine σ (τ × ι) (τ × ι × ρ) :=
  ⟨fun s (t, c) => some ((op c s).2, [(t, c, (op c s).1)])⟩

end Steps

section Definitions

variable {τ σ ι ρ π : Type}

/-- The accesses from a place on, `n` of them without interruption, return `x.1` and leave `x.2`. -/
inductive Body.Runs (B : Body σ ι ρ π) : Nat → σ → π → ρ × σ → Prop
  | done {s s' : σ} {p : π} {r : ρ} : B.access s p = some (s', .inr r) → Runs B 1 s p (r, s')
  | next {n : Nat} {s s' : σ} {p p' : π} {x : ρ × σ} : B.access s p = some (s', .inl p') →
      Runs B n s' p' x → Runs B (n + 1) s p x

/-- Run without interruption, every call makes at most `N` accesses and does what `op` says. -/
def Body.Implements (B : Body σ ι ρ π) (N : Nat) (op : ι → σ → ρ × σ) : Prop :=
  ∀ c s, ∃ n ≤ N, B.Runs n s (B.enter c) (op c s)

/-- The thread owns the lock. -/
def Place.owns : Place ι ρ π → Bool
  | .inside _ _ | .unlock _ _ => true
  | _ => false

/-- The call that the thread is in. -/
def Place.call : Place ι ρ π → List ι
  | .idle => []
  | .lock c | .inside c _ | .unlock c _ => [c]

/-- The returns, in order. -/
def returns (es : List (Event τ ι ρ)) : List (τ × ι × ρ) :=
  es.filterMap fun
    | .ret t c r => some (t, c, r)
    | .call _ _ => none

/-- The calls that a thread has started, in order. -/
def callsOf [DecidableEq τ] (t : τ) (es : List (Event τ ι ρ)) : List ι :=
  es.filterMap fun
    | .call u c => if u = t then some c else none
    | .ret _ _ _ => none

/-- The calls of a thread that have returned, in order. -/
def returnsOf [DecidableEq τ] (t : τ) (es : List (Event τ ι ρ)) : List ι :=
  es.filterMap fun
    | .ret u c _ => if u = t then some c else none
    | .call _ _ => none

/-- What the holder of the lock has still to do leads to what the atomic call does from `a`. -/
def Holder (B : Body σ ι ρ π) (N : Nat) (op : ι → σ → ρ × σ) (s a : σ) : Place ι ρ π → Prop
  | .inside c p => ∃ n ≤ N, B.Runs n s p (op c a)
  | .unlock c r => op c a = (r, s)
  | _ => False

/-- Only the owner of the lock is inside. -/
def Exclusive (m : State τ σ ι ρ π) : Prop := ∀ t, m.owner = some t ↔ (m.place t).owns = true

/-- The invariant (module doc). `a` is the object as the atomic calls have left it. -/
structure Inv [DecidableEq τ] (B : Body σ ι ρ π) (N : Nat) (op : ι → σ → ρ × σ) (s₀ : σ)
    (m : State τ σ ι ρ π) (es : List (Event τ ι ρ)) : Prop where
  owner : Exclusive m
  atomic : ∃ a, (sequential op).run s₀ ((returns es).map fun x => (x.1, x.2.1)) =
      some (a, returns es) ∧
    (m.owner = none → m.object = a) ∧
    ∀ t, m.owner = some t → Holder B N op m.object a (m.place t)
  calls : ∀ t, callsOf t es = returnsOf t es ++ (m.place t).call

end Definitions

section Proofs

variable {τ σ ι ρ π : Type} [DecidableEq τ] {B : Body σ ι ρ π} {N : Nat} {op : ι → σ → ρ × σ}
  {s₀ : σ}
  {m m' : State τ σ ι ρ π} {es e : List (Event τ ι ρ)} {a : Act τ ι} {t u : τ} {c : ι}
  {p : Place ι ρ π}

theorem Body.Runs.of_next {n : Nat} {s s' : σ} {p p' : π} {x : ρ × σ} (h : B.Runs n s p x)
    (hacc : B.access s p = some (s', .inl p')) : ∃ k ≤ n, B.Runs k s' p' x := by
  cases h with
  | done hacc' => simp [hacc] at hacc'
  | next hacc' hruns =>
    rw [hacc] at hacc'
    cases hacc'
    exact ⟨_, Nat.le_succ _, hruns⟩

theorem Body.Runs.of_done {n : Nat} {s s' : σ} {p : π} {r : ρ} {x : ρ × σ} (h : B.Runs n s p x)
    (hacc : B.access s p = some (s', .inr r)) : x = (r, s') := by
  cases h with
  | done hacc' =>
    rw [hacc] at hacc'
    cases hacc'
    rfl
  | next hacc' => simp [hacc] at hacc'

theorem Body.Runs.defined {n : Nat} {s : σ} {p : π} {x : ρ × σ} (h : B.Runs n s p x) :
    B.access s p ≠ none := by
  cases h with
  | done hacc | next hacc => simp [hacc]

/-! ## What a step can do -/

/-- The steps of the threads. -/
inductive Move (B : Body σ ι ρ π) (m : State τ σ ι ρ π) :
    Act τ ι → State τ σ ι ρ π → List (Event τ ι ρ) → Prop
  | call {t : τ} {c : ι} : m.place t = .idle →
      Move B m (.call t c) (m.goTo t (.lock c)) [.call t c]
  | lock {t : τ} {c : ι} : m.place t = .lock c → m.owner = none →
      Move B m (.step t) { m.goTo t (.inside c (B.enter c)) with owner := some t } []
  | next {t : τ} {c : ι} {p p' : π} {object : σ} : m.place t = .inside c p →
      B.access m.object p = some (object, .inl p') →
      Move B m (.step t) { m.goTo t (.inside c p') with object } []
  | done {t : τ} {c : ι} {p : π} {r : ρ} {object : σ} : m.place t = .inside c p →
      B.access m.object p = some (object, .inr r) →
      Move B m (.step t) { m.goTo t (.unlock c r) with object } []
  | unlock {t : τ} {c : ι} {r : ρ} : m.place t = .unlock c r →
      Move B m (.step t) { m.goTo t .idle with owner := none } [.ret t c r]

theorem step_move (h : (machine B).step m a = some (m', e)) : Move B m a m' e := by
  have h : step B m a = some (m', e) := h
  unfold step at h
  split at h
  · split at h <;> rename_i hp <;> cases h
    exact .call hp
  · split at h <;> rename_i hp
    · cases h
    · split at h <;> rename_i ho <;> cases h
      exact .lock hp ho
    · obtain ⟨⟨object, next⟩, hacc, h⟩ := Option.map_eq_some_iff.mp h
      cases next <;> cases h
      · exact .next hp hacc
      · exact .done hp hacc
    · cases h
      exact .unlock hp

theorem step_of_move (h : Move B m a m' e) : (machine B).step m a = some (m', e) := by
  cases h with
  | call hp => simp [machine, step, hp]
  | lock hp ho => simp [machine, step, hp, ho]
  | next hp hacc | done hp hacc => simp [machine, step, hp, hacc]
  | unlock hp => simp [machine, step, hp]

@[simp] theorem goTo_same : (m.goTo t p).place t = p := Function.update_self _ _ _

@[simp] theorem goTo_owner : (m.goTo t p).owner = m.owner := rfl

@[simp] theorem goTo_object : (m.goTo t p).object = m.object := rfl

theorem goTo_other (h : u ≠ t) : (m.goTo t p).place u = m.place u := Function.update_of_ne h _ _

omit [DecidableEq τ] in
@[simp] theorem returns_append : returns (es ++ e) = returns es ++ returns e :=
  List.filterMap_append

@[simp] theorem callsOf_append : callsOf t (es ++ e) = callsOf t es ++ callsOf t e :=
  List.filterMap_append

@[simp] theorem returnsOf_append : returnsOf t (es ++ e) = returnsOf t es ++ returnsOf t e :=
  List.filterMap_append

/-! ## The invariant -/

theorem start_inv : Inv B N op s₀ (State.start s₀ : State τ σ ι ρ π) [] where
  owner t := by simp [State.start, Place.owns]
  atomic := ⟨s₀, rfl, fun _ => rfl, nofun⟩
  calls t := rfl

/-- The owner after a step of a thread. -/
theorem Exclusive.goTo (h : Exclusive m) {o : Option τ} (ht : o = some t ↔ p.owns = true)
    (hu : ∀ u, u ≠ t → (o = some u ↔ m.owner = some u)) (u : τ) :
    o = some u ↔ ((m.goTo t p).place u).owns = true := by
  by_cases hut : u = t
  · subst hut
    rw [goTo_same]
    exact ht
  · rw [goTo_other hut, ← h u]
    exact hu u hut

/-- **Mutual exclusion**, one step. -/
theorem Move.exclusive (hm : Move B m a m' e) (h : Exclusive m) : Exclusive m' := by
  cases hm with
  | @call t c hp =>
    have hfree : m.owner ≠ some t := fun ho => by simpa [hp, Place.owns] using (h t).mp ho
    exact h.goTo (by simpa [Place.owns] using hfree) fun _ _ => Iff.rfl
  | lock hp ho =>
    refine h.goTo (by simp [Place.owns]) fun u hu => ?_
    simp [ho, hu.symm]
  | next hp hacc | done hp hacc =>
    have ho := (h _).mpr (by rw [hp]; rfl)
    exact h.goTo (by simp [Place.owns, ho]) fun u hu => Iff.rfl
  | unlock hp =>
    have ho := (h _).mpr (by rw [hp]; rfl)
    refine h.goTo (by simp [Place.owns]) fun u hu => ?_
    simp [ho, hu.symm]

/-- The calls after a step of a thread. -/
theorem Inv.calls_goTo (h : Inv B N op s₀ m es)
    (ht : (m.place t).call ++ callsOf t e = returnsOf t e ++ p.call)
    (hu : ∀ u, u ≠ t → callsOf u e = [] ∧ returnsOf u e = []) (u : τ) :
    callsOf u (es ++ e) = returnsOf u (es ++ e) ++ ((m.goTo t p).place u).call := by
  rw [callsOf_append, returnsOf_append, h.calls u]
  by_cases hut : u = t
  · subst hut
    rw [goTo_same, List.append_assoc, ht, List.append_assoc]
  · obtain ⟨hc, hr⟩ := hu u hut
    rw [goTo_other hut, hc, hr, List.append_nil, List.append_nil]

/-- A thread inside is the owner, and goes on as the atomic call says. -/
theorem Inv.holder (h : Inv B N op s₀ m es) (ho : (m.place t).owns = true) :
    m.owner = some t ∧ ∃ a, (sequential op).run s₀ ((returns es).map fun x => (x.1, x.2.1)) =
      some (a, returns es) ∧ Holder B N op m.object a (m.place t) := by
  have howner := (h.owner t).mpr ho
  obtain ⟨a, hrun, -, hholder⟩ := h.atomic
  exact ⟨howner, a, hrun, hholder t howner⟩

/-- **The step lemma.** -/
theorem Move.inv (hm : Move B m a m' e) (hB : B.Implements N op) (h : Inv B N op s₀ m es) :
    Inv B N op s₀ m' (es ++ e) := by
  have hexclusive := hm.exclusive h.owner
  cases hm with
  | @call t c hp =>
    have hfree : m.owner ≠ some t := fun ho => by simpa [hp, Place.owns] using (h.owner t).mp ho
    refine ⟨hexclusive, ?_,
      h.calls_goTo (by simp [hp, Place.call, callsOf, returnsOf]) fun u hu => ?_⟩
    · obtain ⟨a, hrun, hobject, hholder⟩ := h.atomic
      have hreturns : returns (es ++ [.call t c]) = returns es := by simp [returns]
      refine ⟨a, by rw [hreturns, hrun], hobject, fun u hu => ?_⟩
      have hut : u ≠ t := fun hut => hfree (hut ▸ hu)
      have := hholder u hu
      rwa [goTo_other hut]
    · simp [callsOf, returnsOf, hu.symm]
  | @lock t c hp ho =>
    rw [List.append_nil]
    refine ⟨hexclusive, ?_, ?_⟩
    · obtain ⟨a, hrun, hobject, -⟩ := h.atomic
      refine ⟨a, hrun, nofun, fun u hu => ?_⟩
      obtain rfl : t = u := Option.some.inj hu
      have hruns := hB c m.object
      rw [← hobject ho]
      simpa [Holder] using hruns
    · simpa using h.calls_goTo (t := t) (p := .inside c (B.enter c)) (e := [])
        (by simp [hp, Place.call, callsOf, returnsOf]) fun u hu => ⟨rfl, rfl⟩
  | @next t c p p' object hp hacc =>
    rw [List.append_nil]
    obtain ⟨ho, a, hrun, hholder⟩ := h.holder (t := t) (by simp [hp, Place.owns])
    refine ⟨hexclusive, ?_, ?_⟩
    · refine ⟨a, hrun, fun hno => ?_, fun u hu => ?_⟩
      · simp [ho] at hno
      · obtain rfl : t = u := Option.some.inj (ho.symm.trans hu)
        rw [hp] at hholder
        simp only [goTo_same]
        obtain ⟨n, hn, hruns⟩ := hholder
        obtain ⟨k, hk, hruns⟩ := hruns.of_next hacc
        exact ⟨k, Nat.le_trans hk hn, hruns⟩
    · simpa using h.calls_goTo (t := t) (p := .inside c p') (e := [])
        (by simp [hp, Place.call, callsOf, returnsOf]) fun u hu => ⟨rfl, rfl⟩
  | @done t c p r object hp hacc =>
    rw [List.append_nil]
    obtain ⟨ho, a, hrun, hholder⟩ := h.holder (t := t) (by simp [hp, Place.owns])
    refine ⟨hexclusive, ?_, ?_⟩
    · refine ⟨a, hrun, fun hno => ?_, fun u hu => ?_⟩
      · simp [ho] at hno
      · obtain rfl : t = u := Option.some.inj (ho.symm.trans hu)
        rw [hp] at hholder
        simp only [goTo_same]
        obtain ⟨n, -, hruns⟩ := hholder
        exact hruns.of_done hacc
    · simpa using h.calls_goTo (t := t) (p := .unlock c r) (e := [])
        (by simp [hp, Place.call, callsOf, returnsOf]) fun u hu => ⟨rfl, rfl⟩
  | @unlock t c r hp =>
    obtain ⟨ho, a, hrun, hholder⟩ := h.holder (t := t) (by simp [hp, Place.owns])
    refine ⟨hexclusive, ?_,
      h.calls_goTo (by simp [hp, Place.call, callsOf, returnsOf]) fun u hu => ?_⟩
    · rw [hp] at hholder
      have hop : op c a = (r, m.object) := hholder
      refine ⟨m.object, ?_, fun _ => rfl, nofun⟩
      rw [returns_append, List.map_append]
      exact Machine.run_append hrun (by simp [returns, sequential, Machine.run_cons, hop])
    · simp [callsOf, returnsOf, hu.symm]

/-- **Every run.** -/
theorem reach_inv {ok : State τ σ ι ρ π → Act τ ι → Prop} (hB : B.Implements N op)
    (h : (machine B).Reach ok (.start s₀) m es) : Inv B N op s₀ m es :=
  h.invariant start_inv fun _ _ _ _ _ hi _ hst => (step_move hst).inv hB hi

omit [DecidableEq τ] in
/-- **Mutual exclusion.** -/
theorem Exclusive.unique (h : Exclusive m) (ht : (m.place t).owns = true)
    (hu : (m.place u).owns = true) : t = u :=
  Option.some.inj (((h t).mpr ht).symm.trans ((h u).mpr hu))

/-! ## No deadlock -/

/-- A thread inside goes on to its return. -/
theorem inside_returns {n : Nat} {s : σ} {q : π} {x : ρ × σ} (h : B.Runs n s q x)
    (hs : m.object = s) (hp : m.place t = .inside c q) :
    ∃ m', (machine B).run m (List.replicate (n + 1) (.step t)) = some (m', [.ret t c x.1]) ∧
      m'.owner = none ∧ m'.place = Function.update m.place t .idle := by
  induction h generalizing m with
  | @done s s' q r hacc =>
    subst hs
    have hfirst := step_of_move (.done hp hacc)
    have hsecond := step_of_move (B := B)
      (.unlock (m := { m.goTo t (.unlock c r) with object := s' }) (t := t) goTo_same)
    refine ⟨_, Machine.run_step hfirst (Machine.run_step hsecond rfl), rfl, ?_⟩
    exact Function.update_idem _ _ _
  | @next n s s' q q' x hacc _ ih =>
    subst hs
    have hfirst := step_of_move (.next hp hacc)
    obtain ⟨m', hrun, ho, hplace⟩ :=
      ih (m := { m.goTo t (.inside c q') with object := s' }) rfl goTo_same
    refine ⟨m', Machine.run_step hfirst hrun, ho, hplace.trans ?_⟩
    exact Function.update_idem _ _ _

/-- The owner goes on to its return. -/
theorem Inv.owner_returns (h : Inv B N op s₀ m es) (ho : m.owner = some t) :
    ∃ n ≤ N + 1, ∃ m' e, (machine B).run m (List.replicate n (.step t)) = some (m', e) ∧
      m'.owner = none ∧ m'.place = Function.update m.place t .idle := by
  obtain ⟨-, a, -, hholder⟩ := h.holder ((h.owner t).mp ho)
  cases hp : m.place t with
  | inside c q =>
    rw [hp] at hholder
    obtain ⟨n, hn, hruns⟩ := hholder
    obtain ⟨m', hrun, hfree, hplace⟩ := inside_returns hruns rfl hp
    exact ⟨n + 1, Nat.succ_le_succ hn, m', _, hrun, hfree, hplace⟩
  | unlock c r =>
    exact ⟨1, Nat.succ_pos N, _, _, Machine.run_step (step_of_move (.unlock hp)) rfl, rfl, rfl⟩
  | idle | lock =>
    rw [hp] at hholder
    exact hholder.elim

/-- A thread at a free lock takes it and goes on to its return. -/
theorem lock_returns (hB : B.Implements N op) (ho : m.owner = none) (hp : m.place t = .lock c) :
    ∃ k ≤ N + 2, ∃ m' e, (machine B).run m (List.replicate k (.step t)) = some (m', e) ∧
      m'.place t = .idle := by
  have hfirst := step_of_move (B := B) (.lock hp ho)
  obtain ⟨n, hn, hruns⟩ := hB c m.object
  obtain ⟨m', hrun, -, hplace⟩ := inside_returns (t := t) (c := c)
    (m := { m.goTo t (.inside c (B.enter c)) with owner := some t }) hruns rfl goTo_same
  refine ⟨n + 2, Nat.add_le_add_right hn 2, m', _, Machine.run_step hfirst hrun, ?_⟩
  rw [hplace, Function.update_self]

/-- **No deadlock.** A thread in a call can be brought to its return, by steps of the owner of the
lock and then its own. -/
theorem Inv.exists_return (h : Inv B N op s₀ m es) (hB : B.Implements N op)
    (hp : m.place t ≠ .idle) :
    ∃ (u : τ) (n k : Nat) (m' : State τ σ ι ρ π) (e : List (Event τ ι ρ)), n ≤ N + 1 ∧ k ≤ N + 2 ∧
      (machine B).run m (List.replicate n (.step u) ++ List.replicate k (.step t)) = some (m', e) ∧
        m'.place t = .idle := by
  cases ho : m.owner with
  | none =>
    cases hpt : m.place t with
    | idle => exact (hp hpt).elim
    | lock c =>
      obtain ⟨k, hk, m', e, hrun, hidle⟩ := lock_returns hB ho hpt
      exact ⟨t, 0, k, m', e, Nat.zero_le _, hk, hrun, hidle⟩
    | inside | unlock =>
      have := (h.owner t).mpr (by rw [hpt]; rfl)
      simp [ho] at this
  | some u =>
    obtain ⟨n, hn, m₁, e₁, hrun₁, hfree₁, hplace₁⟩ := h.owner_returns ho
    by_cases htu : t = u
    · subst htu
      refine ⟨t, n, 0, m₁, e₁, hn, Nat.zero_le _, by simpa using hrun₁, ?_⟩
      rw [hplace₁, Function.update_self]
    · have hpt₁ : m₁.place t = m.place t := by rw [hplace₁, Function.update_of_ne htu]
      cases hpt : m.place t with
      | idle => exact (hp hpt).elim
      | lock c =>
        obtain ⟨k, hk, m', e, hrun, hidle⟩ := lock_returns hB hfree₁ (hpt₁.trans hpt)
        exact ⟨u, n, k, m', e₁ ++ e, hn, hk, Machine.run_append hrun₁ hrun, hidle⟩
      | inside | unlock => exact (htu (h.owner.unique (by rw [hpt]; rfl) ((h.owner u).mp ho))).elim

/-- The next access of a thread inside is defined. -/
theorem Inv.access_defined {q : π} (h : Inv B N op s₀ m es) (hp : m.place t = .inside c q) :
    B.access m.object q ≠ none := by
  obtain ⟨-, a, -, hholder⟩ := h.holder (t := t) (by rw [hp]; rfl)
  rw [hp] at hholder
  obtain ⟨n, -, hruns⟩ := hholder
  exact hruns.defined

end Proofs

end Monitor
