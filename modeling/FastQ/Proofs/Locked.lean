import FastQ.Queue.Locked

/-!
# The queues that lock

Any number of threads, in any interleaving of their single accesses: the calls of `MutexQueue` and
`MutexDeque` act one after the other, in the order of their unlocks, so the values that are read are
a prefix of those that are written (`locked_fifo`); no call can be kept from its return by the order
alone, and none takes the front of an empty container (`locked_returns`); and there are no data
races (`locked_raceFree`). The first result is why `MutexQueue` can be modelled by the list in it
(`FastQ/Queue/Script.lean`).
-/

namespace FastQ

section Calls

variable {τ α β : Type} {written : β}

/-- A call that nothing interrupts. -/
theorem lockedBody_implements :
    (lockedBody (α := α) written).Implements 3 (lockedCall written) := by
  intro c q
  cases c with
  | write data => exact ⟨1, by decide, .done rfl⟩
  | read =>
    cases q with
    | nil => exact ⟨1, by decide, .done rfl⟩
    | cons data q => exact ⟨3, by decide, .next rfl (.next rfl (.done rfl))⟩

@[simp] theorem writesOf_append (rs rs' : List (τ × LockedCall α × LockedAnswer α β)) :
    writesOf (rs ++ rs') = writesOf rs ++ writesOf rs' := List.filterMap_append

@[simp] theorem readsOf_append (rs rs' : List (τ × LockedCall α × LockedAnswer α β)) :
    readsOf (rs ++ rs') = readsOf rs ++ readsOf rs' := List.filterMap_append

/-- One after the other: what was written is what was read, and the contents. -/
theorem sequential_fifo {q₀ q : List α} {cs : List (τ × LockedCall α)}
    {rs : List (τ × LockedCall α × LockedAnswer α β)}
    (h : (Monitor.sequential (lockedCall written)).run q₀ cs = some (q, rs)) :
    q₀ ++ writesOf rs = readsOf rs ++ q := by
  refine (Machine.run_reach h).invariant (P := fun q rs => q₀ ++ writesOf rs = readsOf rs ++ q)
    (List.append_nil q₀) ?_
  rintro q rs ⟨t, c⟩ q' r ih - hst
  cases hst
  rw [writesOf_append, readsOf_append, ← List.append_assoc, ih]
  cases c with
  | write data => simp [writesOf, readsOf, lockedCall, MutexQueue.write]
  | read => cases q <;> simp [writesOf, readsOf, lockedCall, MutexQueue.read]

variable [DecidableEq τ]
  {m : Monitor.State τ (List α) (LockedCall α) (LockedAnswer α β) (LockedPc α)}
  {sched : List (Monitor.Act τ (LockedCall α))}
  {es : List (Monitor.Event τ (LockedCall α) (LockedAnswer α β))}

/-- **First in, first out.** Any number of threads call `write` and `read`, in any interleaving of
their accesses. Never are two of them inside; each call of a thread returns once, but for the one
that it is in; and what the calls have returned, in the order of their unlocks, is what the calls of
a list return one after the other. So the values that were read are the first of those that were
written, and the rest is in the container. -/
theorem locked_fifo
    (hrun : (Monitor.machine (lockedBody written)).run (.start []) sched = some (m, es)) :
    (∀ t u, (m.place t).owns = true → (m.place u).owns = true → t = u) ∧
      (∀ t, Monitor.callsOf t es = Monitor.returnsOf t es ++ (m.place t).call) ∧
      ∃ q, (Monitor.sequential (lockedCall written)).run []
          ((Monitor.returns es).map fun x => (x.1, x.2.1)) = some (q, Monitor.returns es) ∧
        writesOf (Monitor.returns es) = readsOf (Monitor.returns es) ++ q ∧
        (m.owner = none → m.object = q) := by
  have hi := Monitor.reach_inv lockedBody_implements (Machine.run_reach hrun)
  obtain ⟨q, hseq, hobject, -⟩ := hi.atomic
  exact ⟨fun _ _ => hi.owner.unique, hi.calls, q, hseq, sequential_fifo hseq, hobject⟩

/-- **No call is stuck.** In every state that any number of threads can reach, the next access of a
thread inside is defined (no `front` and no `pop` of an empty container), and a thread in a call can
return: at most four steps of one thread free the lock, and at most five of its own do the rest. -/
theorem locked_returns
    (hrun : (Monitor.machine (lockedBody written)).run (.start []) sched = some (m, es)) (t : τ) :
    (∀ c pc, m.place t = .inside c pc → lockedAccess written m.object pc ≠ none) ∧
      (m.place t ≠ .idle → ∃ u n k m' e, n ≤ 4 ∧ k ≤ 5 ∧
        (Monitor.machine (lockedBody written)).run m
            (List.replicate n (.step u) ++ List.replicate k (.step t)) = some (m', e) ∧
          m'.place t = .idle) := by
  have hi := Monitor.reach_inv lockedBody_implements (Machine.run_reach hrun)
  exact ⟨fun c pc hp => hi.access_defined hp, fun hp => hi.exists_return lockedBody_implements hp⟩

/-- **No data races** on the container, in any interleaving of any number of threads. -/
theorem locked_raceFree
    {T : Monitor.Traced τ (List α) (LockedCall α) (LockedAnswer α β) (LockedPc α)}
    {h : List (Access τ Monitor.Loc)}
    (hrun : (Monitor.traced (lockedBody written)).run (.start []) sched = some (T, h)) :
    Races.RaceFree h :=
  Monitor.raceFree (Machine.run_reach hrun)

end Calls

/-! ## Two threads -/

/-- One thread is inside `write` when the other one starts a `read`. -/
def overlapping : List (Monitor.Act Bool (LockedCall Nat)) :=
  [.call true (.write 7), .step true, .call false .read, .step true, .step true, .step false,
    .step false, .step false]

/-- The `read` has taken the lock and is about to remove the element. -/
theorem locked_fifo_two : ∃ m es,
    (Monitor.machine (MutexQueue.body (α := Nat))).run (.start []) overlapping = some (m, es) ∧
      m.place false = .inside .read (.pop 7) ∧
      ∃ q, (Monitor.sequential (lockedCall true)).run []
          ((Monitor.returns es).map fun x => (x.1, x.2.1)) = some (q, Monitor.returns es) ∧
        writesOf (Monitor.returns es) = readsOf (Monitor.returns es) ++ q ∧
        (m.owner = none → m.object = q) :=
  ⟨_, _, rfl, rfl, (@locked_fifo Bool Nat Bool true _ _ overlapping _ rfl).2.2⟩

theorem locked_returns_two : ∃ m es,
    (Monitor.machine (MutexDeque.body (α := Nat))).run (.start []) overlapping = some (m, es) ∧
      lockedAccess () m.object (.pop 7) ≠ none ∧ ∃ u n k m' e, n ≤ 4 ∧ k ≤ 5 ∧
        (Monitor.machine (MutexDeque.body (α := Nat))).run m
            (List.replicate n (.step u) ++ List.replicate k (.step false)) = some (m', e) ∧
          m'.place false = .idle := by
  obtain ⟨hdefined, hreturns⟩ := @locked_returns Bool Nat Unit () _ _ overlapping _ rfl false
  exact ⟨_, _, rfl, hdefined .read (.pop 7) rfl, hreturns nofun⟩

theorem locked_raceFree_two : ∃ T h,
    (Monitor.traced (MutexQueue.body (α := Nat))).run (.start []) overlapping = some (T, h) ∧
      h.length = 6 ∧ Races.RaceFree h :=
  ⟨_, _, rfl, rfl, @locked_raceFree Bool Nat Bool true _ overlapping _ _ rfl⟩

end FastQ
