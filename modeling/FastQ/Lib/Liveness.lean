import Mathlib.Order.Lattice.Nat
import FastQ.Lib.Machine

/-!
# Infinite runs, and what happens in them at some time

* `Machine.Execution`: an infinite run. At each moment one action is taken, or none, so a run that
  comes to its end, or that stands still for a while, is an execution too.
* `Execution.Often P`: the actions `P` are taken again and again. `Execution.Fair P`: whenever one
  looks, an action of `P` is taken later, or none is enabled later.
* `Execution.Often.countdown`: the rule for what must happen. A relation says how many of the
  actions `P` the goal is away at most; the other actions do not raise the number, those of `P`
  lower it. `Execution.Often.eventually` is the rule with a number for each state.
* `exists_forall_eq`: a bounded number that only grows is constant in the end.
* `Execution.Often.descent`: what every action lowers is not lowered for ever.
* `Execution.exists_ghost`: an execution with a sequence of ghost states beside it.
* `Execution.ofSteps`: the execution through given states; `Execution.ofScheduler`: that of a
  scheduler whose choices are enabled; `Execution.trying`: that of given actions, where enabled.
  `Execution.exists_image`: an execution of the image of a machine is the image of an execution.
-/

/-- A bounded number that only grows is constant in the end. -/
theorem exists_forall_eq {f : Nat → Nat} {b : Nat} (hf : ∀ n, f n ≤ f (n + 1))
    (hb : ∀ n, f n ≤ b) : ∃ N, ∀ n, N ≤ n → f n = f N := by
  have hbdd : BddAbove (Set.range f) := ⟨b, by rintro _ ⟨n, rfl⟩; exact hb n⟩
  obtain ⟨N, hN⟩ := Nat.sSup_mem (Set.range_nonempty f) hbdd
  refine ⟨N, fun n hn => Nat.le_antisymm ?_ (monotone_nat_of_le_succ hf hn)⟩
  rw [hN]
  exact le_csSup hbdd (Set.mem_range_self n)

namespace Machine

variable {σ ι ε : Type}

/-- An infinite run (module doc). -/
structure Execution (m : Machine σ ι ε) where
  state : Nat → σ
  act : Nat → Option ι
  events : Nat → List ε
  wait : ∀ {n}, act n = none → state (n + 1) = state n ∧ events n = []
  next : ∀ {n a}, act n = some a → m.step (state n) a = some (state (n + 1), events n)

namespace Execution

variable {m : Machine σ ι ε} (x : m.Execution)

/-- The events of the first `n` moments. -/
def history (n : Nat) : List ε := (List.range n).flatMap x.events

@[simp] theorem history_zero : x.history 0 = [] := rfl

theorem history_succ (n : Nat) : x.history (n + 1) = x.history n ++ x.events n := by
  simp [history, List.range_succ]

/-- The events from one moment to another. -/
theorem history_mono {n k : Nat} (h : n ≤ k) : x.history n <+: x.history k := by
  induction k, h using Nat.le_induction with
  | base => exact List.prefix_rfl
  | succ k _ ih => exact ih.trans (x.history_succ k ▸ List.prefix_append _ _)

/-- What has been reached at a moment is reached by a finite run. -/
theorem reach {ok : σ → ι → Prop} (hok : ∀ n, ∀ a ∈ x.act n, ok (x.state n) a) (n : Nat) :
    m.Reach ok (x.state 0) (x.state n) (x.history n) := by
  induction n with
  | zero => exact .refl
  | succ n ih =>
    rw [history_succ]
    cases ha : x.act n with
    | none =>
      obtain ⟨hs, he⟩ := x.wait ha
      rw [hs, he, List.append_nil]
      exact ih
    | some a => exact .tail a ih (hok n a ha) (x.next ha)

theorem reach_any (n : Nat) : m.Reach (fun _ _ => True) (x.state 0) (x.state n) (x.history n) :=
  x.reach (fun _ _ _ => trivial) n

/-- What every step keeps holds from the moment on at which it holds. -/
theorem stays {P : Nat → Prop} (hwait : ∀ n, x.act n = none → P n → P (n + 1))
    (hstep : ∀ n a, x.act n = some a → P n → P (n + 1)) {n k : Nat} (h : P n) (hle : n ≤ k) :
    P k := by
  induction k, hle using Nat.le_induction with
  | base => exact h
  | succ k _ ih =>
    cases ha : x.act k with
    | none => exact hwait k ha ih
    | some a => exact hstep k a ha ih

/-! ## Fairness, and the rule for what must happen -/

/-- Actions `P` are taken again and again. -/
def Often (P : ι → Prop) : Prop := ∀ n, ∃ k, n ≤ k ∧ ∃ a ∈ x.act k, P a

/-- Whenever one looks, an action of `P` is taken later, or none of them is enabled later. -/
def Fair (P : ι → Prop) : Prop :=
  ∀ n, ∃ k, n ≤ k ∧ ((∃ a ∈ x.act k, P a) ∨ ∀ a, P a → m.step (x.state k) a = none)

variable {x} {P : ι → Prop}

/-- What is always enabled is taken again and again. -/
theorem Fair.often {N : Nat} (h : x.Fair P)
    (hen : ∀ n, N ≤ n → ∃ a, P a ∧ m.step (x.state n) a ≠ none) : x.Often P := by
  intro n
  obtain ⟨k, hk, hact | hnone⟩ := h (max n N)
  · exact ⟨k, le_trans (le_max_left _ _) hk, hact⟩
  · obtain ⟨a, ha, hs⟩ := hen k (le_trans (le_max_right _ _) hk)
    exact (hs (hnone a ha)).elim

/-- **The rule for what must happen.** `W r n` says that at the moment `n` the goal is at most
`r` of the actions `P` away. If no step raises `r`, and those of `P` lower it, the goal comes. -/
theorem Often.countdown (h : x.Often P) {W : Nat → Nat → Prop} {goal : Nat → Prop}
    (hkeep : ∀ r n, W r n → ¬ goal n → ∃ r' ≤ r, W r' (n + 1))
    (hturn : ∀ r n a, x.act n = some a → P a → W r n → ¬ goal n →
      ∃ r' < r, W r' (n + 1))
    {r n : Nat} (hn : W r n) : ∃ k, n ≤ k ∧ goal k := by
  induction r using Nat.strongRecOn generalizing n with
  | ind r ih =>
    by_contra hno
    have hgoal : ∀ k, n ≤ k → ¬ goal k := fun k hk hg => hno ⟨k, hk, hg⟩
    have hall : ∀ k, n ≤ k → ∃ r' ≤ r, W r' k := by
      intro k hk
      induction k, hk using Nat.le_induction with
      | base => exact ⟨r, Nat.le_refl r, hn⟩
      | succ k hk ihk =>
        obtain ⟨r₁, hr₁, hw⟩ := ihk
        obtain ⟨r₂, hr₂, hw⟩ := hkeep r₁ k hw (hgoal k hk)
        exact ⟨r₂, le_trans hr₂ hr₁, hw⟩
    obtain ⟨k, hk, a, ha, hP⟩ := h n
    obtain ⟨r₁, hr₁, hw⟩ := hall k hk
    obtain ⟨r₂, hr₂, hw⟩ := hturn r₁ k a ha hP hw (hgoal k hk)
    obtain ⟨j, hj, hg⟩ := ih r₂ (lt_of_lt_of_le hr₂ hr₁) hw
    exact hno ⟨j, by omega, hg⟩

/-- The rule with a number for each state: from the moment `N` on, the goal comes, or the actions
`P` lower the number and the others do not raise it. -/
theorem Often.eventually (h : x.Often P) (rank : σ → Nat) {goal : Nat → Prop} {N : Nat}
    (hturn : ∀ n a, N ≤ n → x.act n = some a → P a →
      goal n ∨ rank (x.state (n + 1)) < rank (x.state n))
    (hother : ∀ n a, N ≤ n → x.act n = some a → ¬ P a →
      goal n ∨ rank (x.state (n + 1)) ≤ rank (x.state n)) : ∃ k, N ≤ k ∧ goal k := by
  refine h.countdown (W := fun r n => N ≤ n ∧ rank (x.state n) = r) ?_ ?_ ⟨le_rfl, rfl⟩
  · rintro r n ⟨hn, rfl⟩ hg
    refine ⟨_, ?_, Nat.le_succ_of_le hn, rfl⟩
    cases ha : x.act n with
    | none => rw [(x.wait ha).1]
    | some a =>
      by_cases hP : P a
      · exact le_of_lt ((hturn n a hn ha hP).resolve_left hg)
      · exact (hother n a hn ha hP).resolve_left hg
  · rintro r n a ha hP ⟨hn, rfl⟩ hg
    exact ⟨_, (hturn n a hn ha hP).resolve_left hg, Nat.le_succ_of_le hn, rfl⟩

/-- **Descent.** Actions are not taken again and again where each of them lowers a number. -/
theorem Often.descent (h : x.Often P) {W : Nat → σ → Prop} {N r : Nat}
    (hnext : ∀ r n a, N ≤ n → x.act n = some a → W r (x.state n) →
      ∃ r' < r, W r' (x.state (n + 1)))
    (hr : W r (x.state N)) : False := by
  have hend : ∃ k, N ≤ k ∧ False := by
    refine h.countdown (W := fun r n => N ≤ n ∧ W r (x.state n)) ?_ ?_ ⟨le_rfl, hr⟩
    · rintro r n ⟨hn, hr⟩ -
      cases ha : x.act n with
      | none => exact ⟨r, le_rfl, by omega, by rwa [(x.wait ha).1]⟩
      | some a =>
        obtain ⟨r', hlt, hr'⟩ := hnext r n a hn ha hr
        exact ⟨r', le_of_lt hlt, by omega, hr'⟩
    · rintro r n a ha - ⟨hn, hr⟩ -
      obtain ⟨r', hlt, hr'⟩ := hnext r n a hn ha hr
      exact ⟨r', hlt, by omega, hr'⟩
  obtain ⟨-, -, hfalse⟩ := hend
  exact hfalse

/-- **Ghost state.** Where each step of the machine has a step of a ghost state beside it, an
execution has a sequence of ghost states beside it. -/
theorem exists_ghost {γ : Type} {G : σ → γ → Prop} {R : σ → ι → γ → γ → Prop} {g₀ : γ}
    (h₀ : G (x.state 0) g₀) (hstep : ∀ s a s' e g, G s g → m.step s a = some (s', e) →
      ∃ g', G s' g' ∧ R s a g g') :
    ∃ g : Nat → γ, g 0 = g₀ ∧ ∀ n, G (x.state n) (g n) ∧
      (x.act n = none → g (n + 1) = g n) ∧ ∀ a ∈ x.act n, R (x.state n) a (g n) (g (n + 1)) := by
  have hnext : ∀ n g, G (x.state n) g → ∃ g', G (x.state (n + 1)) g' ∧
      (x.act n = none → g' = g) ∧ ∀ a ∈ x.act n, R (x.state n) a g g' := by
    intro n g hg
    cases ha : x.act n with
    | none => exact ⟨g, (x.wait ha).1.symm ▸ hg, fun _ => rfl, nofun⟩
    | some a =>
      obtain ⟨g', hg', hR⟩ := hstep _ _ _ _ _ hg (x.next ha)
      refine ⟨g', hg', nofun, ?_⟩
      rintro _ ⟨⟩
      exact hR
  choose next hnext using hnext
  let ghost : ∀ n, { g // G (x.state n) g } :=
    Nat.rec ⟨g₀, h₀⟩ fun n g => ⟨next n g.1 g.2, (hnext n g.1 g.2).1⟩
  exact ⟨fun n => (ghost n).1, rfl, fun n => ⟨(ghost n).2, (hnext n _ (ghost n).2).2⟩⟩

/-! ## Executions of a scheduler -/

/-- The execution through given states, each the next one after the action between them. -/
def ofSteps (m : Machine σ ι ε) (state : Nat → σ) (act : Nat → Option ι)
    (hwait : ∀ n, act n = none → state (n + 1) = state n)
    (hnext : ∀ n a, act n = some a → ∃ e, m.step (state n) a = some (state (n + 1), e)) :
    m.Execution where
  state := state
  act := act
  events n := (((act n).bind (m.step (state n))).map Prod.snd).getD []
  wait {n} ha := ⟨hwait n ha, by simp [ha]⟩
  next {n a} ha := by
    obtain ⟨e, he⟩ := hnext n a ha
    simp [ha, he]

/-- The states that the choices of a scheduler lead through. -/
def scheduled (m : Machine σ ι ε) (pick : Nat → σ → Option ι) (s₀ : σ) : Nat → σ
  | 0 => s₀
  | n + 1 =>
    let s := scheduled m pick s₀ n
    (((pick n s).bind (m.step s)).map Prod.fst).getD s

/-- The execution of a scheduler whose choices are enabled. -/
def ofScheduler (m : Machine σ ι ε) (pick : Nat → σ → Option ι) (s₀ : σ)
    (h : ∀ n, ∀ a ∈ pick n (scheduled m pick s₀ n), m.step (scheduled m pick s₀ n) a ≠ none) :
    m.Execution :=
  ofSteps m (scheduled m pick s₀) (fun n => pick n (scheduled m pick s₀ n))
    (fun n ha => by simp [scheduled, ha]) fun n a ha => by
      obtain ⟨p, hp⟩ := Option.ne_none_iff_exists'.mp (h n a ha)
      exact ⟨p.2, by simp [scheduled, ha, hp]⟩

/-- The execution that tries given actions one after the other, and waits where one is not
enabled. -/
def trying (m : Machine σ ι ε) (tries : Nat → ι) (s₀ : σ) : m.Execution :=
  ofScheduler m (fun n s => if (m.step s (tries n)).isSome then some (tries n) else none) s₀
    fun n a ha hnone => by
      split at ha <;> cases ha
      simp_all

/-- What is tried again and again is treated fairly. -/
theorem trying_fair {tries : Nat → ι} {s₀ : σ} (htry : ∀ n, ∃ k, n ≤ k ∧ P (tries k))
    (hone : ∀ s a b, P a → P b → m.step s a = none → m.step s b = none) :
    (trying m tries s₀).Fair P := by
  intro n
  obtain ⟨k, hk, hP⟩ := htry n
  refine ⟨k, hk, ?_⟩
  have hact : (trying m tries s₀).act k = if (m.step ((trying m tries s₀).state k)
    (tries k)).isSome then some (tries k) else none := rfl
  split at hact
  · exact .inl ⟨tries k, hact, hP⟩
  · rename_i hnone
    exact .inr fun b hb => hone _ _ b hP hb (by simpa using hnone)

/-- An execution of the image of a machine is the image of an execution. -/
theorem exists_image {σ' ε' : Type} {m' : Machine σ' ι ε'} {f : σ → σ'} {g : ε → ε'}
    {I : σ → Prop} (hstep : ∀ s a, I s → m'.step (f s) a = (m.step s a).map (image f g))
    (hI : ∀ s a s' e, I s → m.step s a = some (s', e) → I s') (x : m'.Execution) {s₀ : σ}
    (h₀ : x.state 0 = f s₀) (hI₀ : I s₀) :
    ∃ y : m.Execution, y.state 0 = s₀ ∧ y.act = x.act ∧
      ∀ n, I (y.state n) ∧ x.state n = f (y.state n) ∧ x.history n = (y.history n).map g := by
  -- The actions of `x` are enabled, and lead to states with the images that `x` goes through.
  have hfollow : ∀ n, I (scheduled m (fun n _ => x.act n) s₀ n) ∧
      x.state n = f (scheduled m (fun n _ => x.act n) s₀ n) := by
    intro n
    induction n with
    | zero => exact ⟨hI₀, h₀⟩
    | succ n ih =>
      obtain ⟨hi, hs⟩ := ih
      cases ha : x.act n with
      | none => simpa [scheduled, ha, (x.wait ha).1] using ⟨hi, hs⟩
      | some a =>
        have hx := x.next ha
        rw [hs, hstep _ _ hi] at hx
        obtain ⟨⟨s', e⟩, hst, hx⟩ := Option.map_eq_some_iff.mp hx
        have hnext : scheduled m (fun n _ => x.act n) s₀ (n + 1) = s' := by
          simp [scheduled, ha, hst]
        rw [hnext]
        exact ⟨hI _ _ _ _ hi hst, (congrArg Prod.fst hx).symm⟩
  have hen : ∀ n, ∀ a ∈ x.act n, m.step (scheduled m (fun n _ => x.act n) s₀ n) a ≠ none := by
    intro n a ha hnone
    have hx := x.next ha
    rw [(hfollow n).2, hstep _ _ (hfollow n).1, hnone] at hx
    cases hx
  let y := ofScheduler m (fun n _ => x.act n) s₀ hen
  refine ⟨y, rfl, rfl, fun n => ⟨(hfollow n).1, (hfollow n).2, ?_⟩⟩
  induction n with
  | zero => rfl
  | succ n ih =>
    rw [history_succ, history_succ, ih, List.map_append]
    congr 1
    cases ha : x.act n with
    | none => rw [(x.wait ha).2, (y.wait ha).2, List.map_nil]
    | some a =>
      have hx := x.next ha
      rw [(hfollow n).2, hstep _ _ (hfollow n).1] at hx
      obtain ⟨p, hst, hx⟩ := Option.map_eq_some_iff.mp hx
      have hy : m.step (scheduled m (fun n _ => x.act n) s₀ n) a = some (y.state (n + 1),
        y.events n) := y.next ha
      rw [hst] at hy
      cases hy
      exact (congrArg Prod.snd hx).symm

end Execution

end Machine
