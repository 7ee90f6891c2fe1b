import Mathlib.Algebra.BigOperators.Group.List.Basic
import Mathlib.Algebra.Order.Monoid.Defs
import FastQ.Lib.Machine

/-!
# Amortised costs

The cost of a run, from a bound on the cost of one step. A potential `Φ` on the states says how much
is saved up (or, where it is negative, owed): the events of a step may cost as much as its action is
paid for and as the potential drops. Costs, payments and potentials are elements of an ordered
additive monoid; what an event brings in may be counted as a negative cost.

* `Machine.Pays`: every allowed step from a state with the invariant keeps it, and is paid for.
* `Pays.run`: then so is every run, and the potential of its last state is still there; `Pays.total`
  leaves the potentials out.
-/

namespace Machine

variable {σ ι ε M : Type} [AddCommMonoid M] [PartialOrder M]

/-- Every allowed step keeps the invariant and is paid for (module doc). -/
structure Pays (m : Machine σ ι ε) (I : σ → Prop) (ok : σ → ι → Prop) (cost : ε → M) (pay : ι → M)
    (Φ : σ → M) : Prop where
  keeps : ∀ s a s' e, I s → ok s a → m.step s a = some (s', e) → I s'
  step : ∀ s a s' e, I s → ok s a → m.step s a = some (s', e) →
    (e.map cost).sum + Φ s' ≤ Φ s + pay a

variable [IsOrderedAddMonoid M] {m : Machine σ ι ε} {I : σ → Prop} {ok : σ → ι → Prop}
  {cost : ε → M} {pay : ι → M} {Φ : σ → M} {s s' : σ} {as : List ι} {es : List ε}

/-- **The amortisation rule.** -/
theorem Pays.run (h : m.Pays I ok cost pay Φ) (hs : I s) (hok : m.Along ok s as)
    (hrun : m.run s as = some (s', es)) :
    (es.map cost).sum + Φ s' ≤ Φ s + (as.map pay).sum := by
  induction as generalizing s es with
  | nil =>
    cases hrun
    rw [List.map_nil, List.map_nil, List.sum_nil, zero_add, add_zero]
  | cons a as ih =>
    rw [run_cons] at hrun
    obtain ⟨⟨s₁, e⟩, hst, hrun⟩ := Option.bind_eq_some_iff.mp hrun
    obtain ⟨⟨s₂, es₂⟩, hrest, hrun⟩ := Option.map_eq_some_iff.mp hrun
    cases hrun
    have hone := h.step s a s₁ e hs hok.1 hst
    have htail := ih (h.keeps s a s₁ e hs hok.1 hst) (hok.2 (s₁, e) hst) hrest
    rw [List.map_append, List.sum_append, List.map_cons, List.sum_cons, add_assoc,
      ← add_assoc (Φ s)]
    calc (e.map cost).sum + ((es₂.map cost).sum + Φ s')
      _ ≤ (e.map cost).sum + (Φ s₁ + (as.map pay).sum) := add_le_add_right htail _
      _ = (e.map cost).sum + Φ s₁ + (as.map pay).sum := (add_assoc _ _ _).symm
      _ ≤ Φ s + pay a + (as.map pay).sum := add_le_add_left hone _

/-- From a state that has saved up nothing to one that owes nothing, a run costs what it is paid
for. -/
theorem Pays.total (h : m.Pays I ok cost pay Φ) (hs : I s) (hok : m.Along ok s as)
    (hrun : m.run s as = some (s', es)) (h₀ : Φ s = 0) (h' : 0 ≤ Φ s') :
    (es.map cost).sum ≤ (as.map pay).sum := by
  have hle := h.run hs hok hrun
  rw [h₀, zero_add] at hle
  exact le_trans (le_add_of_nonneg_right h') hle

end Machine
