import FastQ.Lib.Machine

/-!
# Events in a history

A statement about a call that returned ("what it loaded, it loaded when …") is a statement about two
moments of a run: the event of the return, and an earlier event of the same call.

* `Latest mark e₁ ev es`: the latest of the marked events of the history `es` is `ev`, and `e₁` is
  the history before it. With the loads and the returns of a party marked, a load that is the latest
  one belongs to the call that the party is in.
* `Since mark ev e₂ es`: the same with the history `e₂` after that event.
* `Machine.Reach.origin`: the step that an event of a run comes from, so an invariant of the states
  and their histories says something about every event.
-/

namespace Trace

variable {ε ε' : Type} {mark : ε → Bool} {e₁ es e : List ε} {ev : ε}

/-- The latest marked event of `es` is `ev`, after the history `e₁`. -/
def Latest (mark : ε → Bool) (e₁ : List ε) (ev : ε) (es : List ε) : Prop :=
  ∃ e₂, es = e₁ ++ ev :: e₂ ∧ ∀ x ∈ e₂, mark x = false

/-- An event that has just happened is the latest one. -/
theorem Latest.now (mark : ε → Bool) (es : List ε) (ev : ε) : Latest mark es ev (es ++ [ev]) :=
  ⟨[], rfl, nofun⟩

/-- It stays the latest one while no marked event happens. -/
theorem Latest.append (h : Latest mark e₁ ev es) (he : ∀ x ∈ e, mark x = false) :
    Latest mark e₁ ev (es ++ e) := by
  obtain ⟨e₂, rfl, h₂⟩ := h
  refine ⟨e₂ ++ e, by simp, fun x hx => ?_⟩
  rcases List.mem_append.mp hx with hx | hx
  · exact h₂ x hx
  · exact he x hx

/-- The image of a history. -/
theorem Latest.map {mark' : ε' → Bool} {f : ε → ε'} (hf : ∀ x, mark' (f x) = mark x)
    (h : Latest mark e₁ ev es) : Latest mark' (e₁.map f) (f ev) (es.map f) := by
  obtain ⟨e₂, rfl, h₂⟩ := h
  refine ⟨e₂.map f, by simp, fun y hy => ?_⟩
  obtain ⟨x, hx, rfl⟩ := List.mem_map.mp hy
  exact (hf x).trans (h₂ x hx)

/-- The latest marked event of `es` is `ev`, and `e₂` is the history after it. -/
def Since (mark : ε → Bool) (ev : ε) (e₂ es : List ε) : Prop :=
  ∃ e₁, es = e₁ ++ ev :: e₂ ∧ ∀ x ∈ e₂, mark x = false

theorem Since.now (mark : ε → Bool) (es : List ε) (ev : ε) : Since mark ev [] (es ++ [ev]) :=
  ⟨es, rfl, nofun⟩

theorem Since.append {e₂ : List ε} (h : Since mark ev e₂ es) (he : ∀ x ∈ e, mark x = false) :
    Since mark ev (e₂ ++ e) (es ++ e) := by
  obtain ⟨e₁, rfl, h₂⟩ := h
  refine ⟨e₁, by simp, fun x hx => ?_⟩
  rcases List.mem_append.mp hx with hx | hx
  · exact h₂ x hx
  · exact he x hx

theorem Since.map {mark' : ε' → Bool} {f : ε → ε'} {e₂ : List ε} (hf : ∀ x, mark' (f x) = mark x)
    (h : Since mark ev e₂ es) : Since mark' (f ev) (e₂.map f) (es.map f) := by
  obtain ⟨e₁, rfl, h₂⟩ := h
  refine ⟨e₁.map f, by simp, fun y hy => ?_⟩
  obtain ⟨x, hx, rfl⟩ := List.mem_map.mp hy
  exact (hf x).trans (h₂ x hx)

/-- An event of the image of a history is the image of an event. -/
theorem map_eq_append_cons {f : ε → ε'} {e₁' e₂' : List ε'} {ev' : ε'}
    (h : es.map f = e₁' ++ ev' :: e₂') :
    ∃ e₁ ev e₂, es = e₁ ++ ev :: e₂ ∧ e₁.map f = e₁' ∧ f ev = ev' := by
  obtain ⟨e₁, r, rfl, he₁, hr⟩ := List.map_eq_append_iff.mp h
  obtain ⟨ev, e₂, rfl, hev, -⟩ := List.map_eq_cons_iff.mp hr
  exact ⟨e₁, ev, e₂, rfl, he₁, hev⟩

end Trace

namespace Machine

variable {σ ι ε : Type} {m : Machine σ ι ε} {ok : σ → ι → Prop} {s₀ s : σ} {es : List ε}

/-- The step that an event of a run comes from. -/
theorem Reach.origin (h : m.Reach ok s₀ s es) :
    ∀ {e₁ e₂ : List ε} {ev : ε}, es = e₁ ++ ev :: e₂ → ∃ s₁ s₂ a es₁ f f',
      m.Reach ok s₀ s₁ es₁ ∧ ok s₁ a ∧ m.step s₁ a = some (s₂, f ++ ev :: f') ∧ e₁ = es₁ ++ f := by
  induction h with
  | refl =>
    intro e₁ e₂ ev hes
    cases e₁ <;> cases hes
  | @tail s s' es e a hr hok hst ih =>
    intro e₁ e₂ ev hes
    rcases List.append_eq_append_iff.mp hes with ⟨f, rfl, rfl⟩ | ⟨r, rfl, hr'⟩
    · exact ⟨s, s', a, es, f, e₂, hr, hok, hst, rfl⟩
    · cases r with
      | nil =>
        obtain rfl : e = ev :: e₂ := hr'.symm
        exact ⟨s, s', a, _, [], e₂, hr, hok, hst, by simp⟩
      | cons x r =>
        obtain ⟨rfl, -⟩ := List.cons_eq_cons.mp hr'
        exact ih rfl

end Machine
