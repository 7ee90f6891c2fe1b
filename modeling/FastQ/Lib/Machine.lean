import Mathlib.Data.List.Basic

/-!
# Executable machines and their runs

A concurrent system is a **machine**: one step takes an action (which thread goes, and what it is
offered) and gives the next state and the events that the step shows, or `none` if the action is
not enabled. A list of actions is a schedule, so a statement about every schedule is a statement
about every interleaving.

* `Machine.run`: the run of a schedule, with the events of its steps in order.
* `Machine.Along ok s sched`: every step of the run of a schedule satisfies `ok`, a condition on the
  state before the step and on the action.
* `Machine.Reach ok s₀ s es`: `s` is reached from `s₀` with the events `es` by steps that all
  satisfy `ok`. `Reach.of_along`, `Reach.of_run` and `Reach.run` connect it with schedules.
* `Reach.invariant`: the rule for invariants of states and event histories; `Reach.mono` and
  `Reach.trans` weaken the condition and put runs together; `Reach.project` looks at a part of the
  state.
* `Repeat`: a party that goes on alone.
* `Machine.run_map`: if the steps of one machine are the images of the steps of another wherever
  an invariant holds, then so are its runs (a functional simulation, in both directions).
  `Machine.along_image`: so is what holds along them.
-/

/-- A machine with states `σ`, actions `ι` and events `ε` (module doc). -/
structure Machine (σ ι ε : Type) where
  step : σ → ι → Option (σ × List ε)

namespace Machine

variable {σ ι ε : Type}

/-- The run of a schedule: the last state and the events of all steps, `none` if some action is
not enabled where it is taken. -/
def run (m : Machine σ ι ε) : σ → List ι → Option (σ × List ε)
  | s, [] => some (s, [])
  | s, a :: as =>
    (m.step s a).bind fun (s', e) => (run m s' as).map fun (s'', es) => (s'', e ++ es)

variable (m : Machine σ ι ε)

@[simp] theorem run_nil (s : σ) : m.run s [] = some (s, []) := rfl

theorem run_cons (s : σ) (a : ι) (as : List ι) :
    m.run s (a :: as) =
      (m.step s a).bind fun (s', e) => (m.run s' as).map fun (s'', es) => (s'', e ++ es) := rfl

variable {m} in
/-- A step, and the run of the rest of the schedule. -/
theorem run_step {s s₁ s' : σ} {a : ι} {as : List ι} {e es : List ε}
    (hst : m.step s a = some (s₁, e)) (h : m.run s₁ as = some (s', es)) :
    m.run s (a :: as) = some (s', e ++ es) := by
  simp [run_cons, hst, h]

/-- `s` is reached from `s₀` with the events `es`, by steps that satisfy `ok`. -/
inductive Reach (ok : σ → ι → Prop) (s₀ : σ) : σ → List ε → Prop
  | refl : Reach ok s₀ s₀ []
  | tail {s s' : σ} {es e : List ε} (a : ι) : Reach ok s₀ s es → ok s a →
      m.step s a = some (s', e) → Reach ok s₀ s' (es ++ e)

variable {m} {ok ok' : σ → ι → Prop} {s₀ s₁ s s' : σ} {es es' e : List ε} {a : ι}

namespace Reach

/-- **The invariant rule.** What holds at the start with no events, and is kept by every allowed
step, holds of every reachable state and its history. -/
theorem invariant {P : σ → List ε → Prop} (h : m.Reach ok s₀ s es) (h₀ : P s₀ [])
    (hstep : ∀ s es a s' e, P s es → ok s a → m.step s a = some (s', e) → P s' (es ++ e)) :
    P s es := by
  induction h with
  | refl => exact h₀
  | tail a _ hok hst ih => exact hstep _ _ a _ _ ih hok hst

theorem one (hok : ok s a) (hst : m.step s a = some (s', e)) : m.Reach ok s s' e := by
  have h : m.Reach ok s s' ([] ++ e) := .tail a .refl hok hst
  exact h

theorem trans (h : m.Reach ok s₀ s₁ es) (h' : m.Reach ok s₁ s es') :
    m.Reach ok s₀ s (es ++ es') := by
  induction h' with
  | refl => rwa [List.append_nil]
  | tail a _ hok hst ih => rw [← List.append_assoc]; exact .tail a ih hok hst

theorem mono (h : m.Reach ok s₀ s es) (hok : ∀ s a, ok s a → ok' s a) : m.Reach ok' s₀ s es := by
  induction h with
  | refl => exact .refl
  | tail a _ ha hst ih => exact .tail a ih (hok _ _ ha) hst

/-- The same run, with a condition on its steps that an invariant of the run gives. -/
theorem strengthen {I : σ → Prop} (h : m.Reach ok s₀ s es) (h₀ : I s₀)
    (hI : ∀ s a s' e, I s → ok s a → m.step s a = some (s', e) → I s')
    (hok : ∀ s a, I s → ok s a → ok' s a) : m.Reach ok' s₀ s es ∧ I s := by
  induction h with
  | refl => exact ⟨.refl, h₀⟩
  | tail a _ ha hst ih => exact ⟨.tail a ih.1 (hok _ _ ih.2 ha) hst, hI _ _ _ _ ih.2 ha hst⟩

/-- **Projection.** If every step of `m` is a step of `m'` in a part of the state, or leaves that
part and shows none of its events, then a run of `m` is a run of `m'` there. -/
theorem project {σ' ι' ε' : Type} {m' : Machine σ' ι' ε'} {ok' : σ' → ι' → Prop} (f : σ → σ')
    (g : ε → Option ε') (h : m.Reach ok s₀ s es)
    (hstep : ∀ s a s' e, ok s a → m.step s a = some (s', e) →
      (f s' = f s ∧ e.filterMap g = []) ∨
        ∃ a', ok' (f s) a' ∧ m'.step (f s) a' = some (f s', e.filterMap g)) :
    m'.Reach ok' (f s₀) (f s) (es.filterMap g) := by
  induction h with
  | refl => exact .refl
  | tail a _ ha hst ih =>
    rw [List.filterMap_append]
    obtain ⟨hs, he⟩ | ⟨a', ha', hst'⟩ := hstep _ _ _ _ ha hst
    · rw [hs, he, List.append_nil]
      exact ih
    · exact .tail a' ih ha' hst'

end Reach

/-- Every step of the run of a schedule satisfies `ok` (up to the first action that is not
enabled). -/
def Along (m : Machine σ ι ε) (ok : σ → ι → Prop) : σ → List ι → Prop
  | _, [] => True
  | s, a :: as => ok s a ∧ ∀ p ∈ m.step s a, Along m ok p.1 as

instance [∀ s a, Decidable (ok s a)] : ∀ (s : σ) (as : List ι), Decidable (m.Along ok s as)
  | _, [] => .isTrue trivial
  | s, a :: as =>
    have : ∀ s, Decidable (m.Along ok s as) := fun s => instDecidableAlong s as
    inferInstanceAs (Decidable (ok s a ∧ ∀ p ∈ m.step s a, m.Along ok p.1 as))

theorem along_cons {as : List ι} (hst : m.step s a = some (s', e)) :
    m.Along ok s (a :: as) ↔ ok s a ∧ m.Along ok s' as := by
  simp [Along, hst]

theorem Along.of_forall {as : List ι} (h : ∀ a ∈ as, ∀ s, ok s a) : m.Along ok s as := by
  induction as generalizing s with
  | nil => trivial
  | cons a as ih =>
    exact ⟨h a List.mem_cons_self s, fun p _ => ih fun b hb => h b (List.mem_cons_of_mem a hb)⟩

theorem Along.mono {as : List ι} (h : m.Along ok s as) (hok : ∀ s a, ok s a → ok' s a) :
    m.Along ok' s as := by
  induction as generalizing s with
  | nil => trivial
  | cons a as ih => exact ⟨hok s a h.1, fun p hp => ih (h.2 p hp)⟩

/-- A run whose steps are all allowed reaches its last state. -/
theorem Reach.of_along {as : List ι} (hok : m.Along ok s as) (h : m.run s as = some (s', es)) :
    m.Reach ok s s' es := by
  induction as generalizing s es with
  | nil => cases h; exact .refl
  | cons a as ih =>
    rw [run_cons] at h
    obtain ⟨⟨s₁, e⟩, hst, h⟩ := Option.bind_eq_some_iff.mp h
    obtain ⟨⟨s₂, es₂⟩, hrun, h⟩ := Option.map_eq_some_iff.mp h
    cases h
    exact (Reach.one hok.1 hst).trans (ih (hok.2 (s₁, e) hst) hrun)

theorem Reach.of_run {ok : ι → Prop} {as : List ι} (hok : ∀ a ∈ as, ok a)
    (h : m.run s as = some (s', es)) : m.Reach (fun _ => ok) s s' es :=
  .of_along (.of_forall fun a ha _ => hok a ha) h

theorem run_reach {as : List ι} (h : m.run s as = some (s', es)) :
    m.Reach (fun _ _ => True) s s' es :=
  .of_run (fun _ _ => trivial) h

theorem run_append {as bs : List ι} (h : m.run s as = some (s₁, es))
    (h' : m.run s₁ bs = some (s', es')) : m.run s (as ++ bs) = some (s', es ++ es') := by
  induction as generalizing s es with
  | nil => cases h; exact h'
  | cons a as ih =>
    rw [run_cons] at h
    obtain ⟨⟨s₂, e⟩, hst, h⟩ := Option.bind_eq_some_iff.mp h
    obtain ⟨⟨s₃, es₃⟩, hrun, h⟩ := Option.map_eq_some_iff.mp h
    cases h
    simp [run_cons, hst, ih hrun]

/-- The steps of two runs in a row. -/
theorem along_append {as bs : List ι} (h : m.run s as = some (s₁, es)) :
    m.Along ok s (as ++ bs) ↔ m.Along ok s as ∧ m.Along ok s₁ bs := by
  induction as generalizing s es with
  | nil => cases h; simp [Along]
  | cons a as ih =>
    rw [run_cons] at h
    obtain ⟨⟨s₂, e⟩, hst, h⟩ := Option.bind_eq_some_iff.mp h
    obtain ⟨⟨s₃, es₃⟩, hrun, h⟩ := Option.map_eq_some_iff.mp h
    cases h
    rw [List.cons_append, along_cons hst, along_cons hst, ih hrun, and_assoc]

/-- A reachable state is the last state of a schedule. -/
theorem Reach.run (h : m.Reach ok s₀ s es) : ∃ as, m.run s₀ as = some (s, es) := by
  induction h with
  | refl => exact ⟨[], rfl⟩
  | tail a _ _ hst ih =>
    obtain ⟨as, has⟩ := ih
    exact ⟨as ++ [a], run_append has (by simp [run_cons, hst])⟩

/-! ## One action, repeated -/

/-- `s'` is where some number of steps with one action lead from `s`. -/
def Repeat (m : Machine σ ι ε) (a : ι) (s s' : σ) : Prop :=
  ∃ n es, m.run s (List.replicate n a) = some (s', es)

theorem Repeat.of_run {n : Nat} (h : m.run s (List.replicate n a) = some (s', es)) :
    m.Repeat a s s' := ⟨n, es, h⟩

theorem Repeat.one (h : m.step s a = some (s', e)) : m.Repeat a s s' :=
  ⟨1, e, by simp [run_cons, h]⟩

theorem Repeat.trans (h : m.Repeat a s₀ s₁) (h' : m.Repeat a s₁ s) : m.Repeat a s₀ s := by
  obtain ⟨n, es, h⟩ := h
  obtain ⟨n', es', h'⟩ := h'
  exact ⟨n + n', es ++ es', by rw [List.replicate_add]; exact run_append h h'⟩

theorem Repeat.reach (h : m.Repeat a s s') : ∃ es, m.Reach (fun _ b => b = a) s s' es := by
  obtain ⟨n, es, h⟩ := h
  exact ⟨es, .of_run (fun b hb => List.eq_of_mem_replicate hb) h⟩

/-- A party that goes on alone in a part of a larger state. -/
theorem Repeat.lift {σ' ι' ε' : Type} {m' : Machine σ' ι' ε'} {a' : ι'} {t t' : σ'} (f : σ' → σ)
    (hstep : ∀ t t' e', m'.step t a' = some (t', e') → ∃ e, m.step (f t) a = some (f t', e))
    (h : m'.Repeat a' t t') : m.Repeat a (f t) (f t') := by
  obtain ⟨n, es, h⟩ := h
  induction n generalizing t es with
  | zero => cases h; exact ⟨0, [], rfl⟩
  | succ n ih =>
    rw [List.replicate_succ, run_cons] at h
    obtain ⟨⟨t₁, e'⟩, hst, h⟩ := Option.bind_eq_some_iff.mp h
    obtain ⟨⟨t₂, es₂⟩, hrun, h⟩ := Option.map_eq_some_iff.mp h
    cases h
    obtain ⟨e, he⟩ := hstep _ _ _ hst
    exact (Repeat.one he).trans (ih _ hrun)

/-- Where the repeated action comes to a stop is unique. -/
theorem Repeat.unique (h : m.Repeat a s s₁) (h' : m.Repeat a s s') (h₁ : m.step s₁ a = none)
    (h₂ : m.step s' a = none) : s₁ = s' := by
  obtain ⟨n, es, h⟩ := h
  obtain ⟨n', es', h'⟩ := h'
  induction n generalizing s es n' es' with
  | zero =>
    cases h
    cases n' with
    | zero => cases h'; rfl
    | succ n' => simp [List.replicate_succ, run_cons, h₁] at h'
  | succ n ih =>
    rw [List.replicate_succ, run_cons] at h
    obtain ⟨⟨s₂, e⟩, hst, h⟩ := Option.bind_eq_some_iff.mp h
    obtain ⟨⟨s₃, es₃⟩, hrun, h⟩ := Option.map_eq_some_iff.mp h
    cases h
    cases n' with
    | zero => cases h'; simp [h₂] at hst
    | succ n' =>
      rw [List.replicate_succ, run_cons, hst] at h'
      obtain ⟨⟨s₄, es₄⟩, hrun', h'⟩ := Option.map_eq_some_iff.mp h'
      cases h'
      exact ih _ hrun _ _ hrun'

/-! ## Functional simulations -/

variable {σ' ε' : Type} {m' : Machine σ' ι ε'} {f : σ → σ'} {g : ε → ε'} {I : σ → Prop}

/-- The image of a step's result. -/
def image (f : σ → σ') (g : ε → ε') (p : σ × List ε) : σ' × List ε' := (f p.1, p.2.map g)

/-- **Lockstep.** If, wherever the invariant `I` holds, a step of `m'` from the image of a state
is the image of `m`'s step, then every run of `m'` from an image is the image of `m`'s run. -/
theorem run_map (hstep : ∀ s a, I s → m'.step (f s) a = (m.step s a).map (image f g))
    (hI : ∀ s a s' e, I s → m.step s a = some (s', e) → I s') (as : List ι) :
    ∀ s, I s → m'.run (f s) as = (m.run s as).map (image f g) := by
  induction as with
  | nil => intro s _; rfl
  | cons a as ih =>
    intro s hs
    rw [run_cons, run_cons, hstep s a hs]
    cases hst : m.step s a with
    | none => rfl
    | some p =>
      obtain ⟨s', e⟩ := p
      simp only [Option.map_some, Option.bind_some, image, ih s' (hI s a s' e hs hst),
        Option.map_map]
      congr 1
      funext p
      simp [image]

/-- A condition holds along a run of the image machine if and only if what it means holds along the
run that it is the image of. -/
theorem along_image {ok' : σ' → ι → Prop} {as : List ι}
    (hstep : ∀ s a, I s → m'.step (f s) a = (m.step s a).map (image f g))
    (hI : ∀ s a s' e, I s → m.step s a = some (s', e) → I s')
    (hok : ∀ s a, I s → (ok' (f s) a ↔ ok s a)) (hs : I s) :
    m'.Along ok' (f s) as ↔ m.Along ok s as := by
  induction as generalizing s with
  | nil => exact Iff.rfl
  | cons a as ih =>
    refine and_congr (hok s a hs) ?_
    rw [hstep s a hs]
    constructor
    · intro h p hst
      exact (ih (hI s a p.1 p.2 hs hst)).mp (h (image f g p) (Option.mem_map_of_mem _ hst))
    · intro h p' hst'
      obtain ⟨p, hst, rfl⟩ := Option.map_eq_some_iff.mp hst'
      exact (ih (hI s a p.1 p.2 hs hst)).mpr (h p hst)

end Machine
