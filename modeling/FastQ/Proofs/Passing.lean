import FastQ.Proofs.Counting
import FastQ.Proofs.Progress

/-!
# The correctness test passes

Once `done` is set, the consumer alone ends its loops and passes the last check, wherever it is:
each iteration of a loop counts one of the `N` elements or is the last one (`passes`). The loops are
taken from the last one backwards, each by induction on the number of elements that are not counted
yet.
-/

namespace FastQ

namespace Correctness

variable {PublishBatch N : BitVec 64} {f : Bool} {b b' : Correctness}
  {t : State (BitVec 64) Nat}

/-! ## The consumer alone -/

/-- Inside a call, the steps of the consumer are those of the call. -/
theorem consumer_alone {s : State (BitVec 64) (BitVec 64)}
    (hc : b.consumer = .inside ∨ b.consumer = .flushInside ∨ b.consumer = .drainInside)
    (h : (spsc PublishBatch).Repeat (.consumer 0) b.s s) :
    (testSpscCorrectness PublishBatch N).Repeat (.consumer f) b { b with s } := by
  refine h.lift (fun s => { b with s }) fun s s' e hst => ?_
  have hidle : ∀ l, s.consumer ≠ .idle l := by
    intro l hl
    simp [spsc, FastQ.step, hl, FastQ.stepConsumer] at hst
  refine ⟨[], ?_⟩
  rcases hc with hc | hc | hc <;>
    simp [testSpscCorrectness, step, stepConsumer, hc, access, hst, hidle]

variable (PublishBatch) in
/-- A pop of the first loop, alone. -/
theorem firstPop_alone {l : Option (ConsumerResult (BitVec 64))} (hc : b.consumer = .call)
    (hl : b.s.consumer = .idle l) :
    let r := b.s.q.pop PublishBatch
    (testSpscCorrectness PublishBatch N).Repeat (.consumer f) b
      { b with s := ⟨r.2, b.s.producer, .idle (some (.pop r.1))⟩, consumer := .inside } := by
  intro r
  have hstep : (testSpscCorrectness PublishBatch N).step b (.consumer f) = some
      ({ b with s := ⟨b.s.q, b.s.producer, .emptyCheck⟩, consumer := .inside }, [.iterate]) := by
    simp [testSpscCorrectness, step, stepConsumer, hc, access, spsc, FastQ.step, hl]
  exact (Machine.Repeat.one hstep).trans
    (consumer_alone (.inl rfl) (pop_alone PublishBatch b.s.q b.s.producer))

variable (PublishBatch) in
/-- A pop of the last loop, alone. -/
theorem lastPop_alone {l : Option (ConsumerResult (BitVec 64))} (hc : b.consumer = .drainCall)
    (hl : b.s.consumer = .idle l) :
    let r := b.s.q.pop PublishBatch
    (testSpscCorrectness PublishBatch N).Repeat (.consumer f) b
      { b with s := ⟨r.2, b.s.producer, .idle (some (.pop r.1))⟩, consumer := .drainInside } := by
  intro r
  have hstep : (testSpscCorrectness PublishBatch N).step b (.consumer f) = some
      ({ b with s := ⟨b.s.q, b.s.producer, .emptyCheck⟩, consumer := .drainInside }, []) := by
    simp [testSpscCorrectness, step, stepConsumer, hc, access, spsc, FastQ.step, hl]
  exact (Machine.Repeat.one hstep).trans
    (consumer_alone (.inr (.inr rfl)) (pop_alone PublishBatch b.s.q b.s.producer))

variable (PublishBatch) in
/-- The `flush`, alone. -/
theorem flush_alone {l : Option (ConsumerResult (BitVec 64))} (hc : b.consumer = .flushCall)
    (hl : b.s.consumer = .idle l) : ∃ s,
    (testSpscCorrectness PublishBatch N).Repeat (.consumer f) b
      { b with s, consumer := .drainCall } := by
  have hstep : (testSpscCorrectness PublishBatch N).step b (.consumer f) = some
      ({ b with
        s := ⟨b.s.q, b.s.producer, .publishReader .flush .read⟩
        consumer := .flushInside }, []) := by
    simp [testSpscCorrectness, step, stepConsumer, hc, access, spsc, FastQ.step, hl]
  have hflush := consumer_alone (N := N) (f := f) (b := { b with
      s := ⟨b.s.q, b.s.producer, .publishReader .flush .read⟩
      consumer := .flushInside }) (.inr (.inl rfl))
    (consumerFlush_alone PublishBatch b.s.q b.s.producer)
  exact ⟨_, (Machine.Repeat.one hstep).trans (hflush.trans (.one (e := []) rfl))⟩

variable (PublishBatch) in
/-- The test `empty()`, alone. -/
theorem test_alone (hc : b.consumer = .empty) :
    (testSpscCorrectness PublishBatch N).Repeat (.consumer f) b
      (b.test b.s.q.writer.value b.s.q.reader.value) := by
  cases f with
  | false =>
    have hstep : (testSpscCorrectness PublishBatch N).step b (.consumer false) =
        some ({ b with consumer := .loadedWriter b.s.q.writer.value }, []) := by
      simp [testSpscCorrectness, step, stepConsumer, hc]
    exact (Machine.Repeat.one hstep).trans (.one (e := []) rfl)
  | true =>
    have hstep : (testSpscCorrectness PublishBatch N).step b (.consumer true) =
        some ({ b with consumer := .loadedReader b.s.q.reader.value }, []) := by
      simp [testSpscCorrectness, step, stepConsumer, hc]
    exact (Machine.Repeat.one hstep).trans (.one (e := []) rfl)

/-! ## The loops, from the last one backwards -/

/-- The consumer alone passes. -/
def Passes (PublishBatch N : BitVec 64) (f : Bool) (b : Correctness) : Prop :=
  ∃ b', (testSpscCorrectness PublishBatch N).Repeat (.consumer f) b b' ∧ b'.consumer = .passed

theorem Passes.of_repeat
    (hr : (testSpscCorrectness PublishBatch N).Repeat (.consumer f) b b')
    (h : Passes PublishBatch N f b') : Passes PublishBatch N f b := by
  obtain ⟨b'', hr', hpassed⟩ := h
  exact ⟨b'', hr.trans hr', hpassed⟩

/-- What the consumer alone reaches satisfies the invariant. -/
theorem repeat_good (hr : (testSpscCorrectness PublishBatch N).Repeat (.consumer f) b b')
    (h : Good N b t) : ∃ t', Good N b' t' := by
  obtain ⟨es, hr⟩ := hr.reach
  exact reach_good hr h

theorem Good.idle (h : Good N b t) (hc : ConsumerAt b.expected t.q.consumer.localReader t.consumer
    .call) : ∃ l, b.s.consumer = .idle l := by
  obtain ⟨⟨l, hl⟩, -⟩ := hc
  exact ⟨l, by rw [h.state, State.wrap, hl]; rfl⟩

/-- After a pop that took an element, fewer are left. -/
theorem Good.fewer {value : BitVec 64} (h : Good N b t)
    (hcc : b.consumer = .inside ∨ b.consumer = .drainInside)
    (hi : b.s.consumer = .idle (some (.pop (some value)))) :
    N.toNat - (b.expected + 1).toNat < N.toNat - b.expected.toNat := by
  obtain ⟨-, hsucc, hn⟩ := h.counted .call .call hcc hi
  have := h.near.inv.ordered.local_le
  have := h.producer.le
  omega

theorem passes_finished (h : Good N b t) (hcc : b.consumer = .finished) :
    Passes PublishBatch N f b := by
  have hc := h.consumer
  have hafter := h.after
  rw [hcc] at hc hafter
  have hall : b.expected = N := by
    rw [← BitVec.toNat_inj, ← hc.2, hafter.2, (h.finished hafter.1).2]
  have hstep : (testSpscCorrectness PublishBatch N).step b (.consumer f) =
      some ({ b with consumer := .passed }, []) := by
    simp [testSpscCorrectness, step, stepConsumer, hcc, hall]
  exact ⟨_, .one hstep, rfl⟩

/-- At the result of a pop of the last loop. -/
theorem passes_drained {r : Option (BitVec 64)} (h : Good N b t) (hcc : b.consumer = .drainInside)
    (hi : b.s.consumer = .idle (some (.pop r)))
    (hnext : ∀ b' t', Good N b' t' → b'.consumer = .drainCall →
      N.toNat - b'.expected.toNat < N.toNat - b.expected.toNat → Passes PublishBatch N f b') :
    Passes PublishBatch N f b := by
  have hstep : (testSpscCorrectness PublishBatch N).Repeat (.consumer f) b
      (b.count .drainCall .finished r) :=
    .one (e := []) (by simp [testSpscCorrectness, step, stepConsumer, hcc, hi])
  obtain ⟨t', h'⟩ := repeat_good hstep h
  refine .of_repeat hstep ?_
  cases r with
  | none => exact passes_finished h' rfl
  | some value =>
    obtain ⟨heq, -⟩ := h.counted .drainCall .finished (.inr hcc) hi
    rw [heq] at h' ⊢
    exact hnext _ t' h' rfl (h.fewer (.inr hcc) hi)

theorem passes_drainCall (h : Good N b t) (hcc : b.consumer = .drainCall) :
    Passes PublishBatch N f b := by
  induction hk : N.toNat - b.expected.toNat using Nat.strong_induction_on generalizing b t with
  | _ k ih =>
    subst hk
    have hc := h.consumer
    rw [hcc] at hc
    obtain ⟨l, hl⟩ := h.idle hc
    have hpop := lastPop_alone (f := f) (N := N) PublishBatch hcc hl
    obtain ⟨t₁, h₁⟩ := repeat_good hpop h
    exact .of_repeat hpop (passes_drained h₁ rfl rfl fun b' t' h' hcc' hlt => ih _ hlt h' hcc' rfl)

theorem passes_flushCall (h : Good N b t) (hcc : b.consumer = .flushCall) :
    Passes PublishBatch N f b := by
  have hc := h.consumer
  rw [hcc] at hc
  obtain ⟨l, hl⟩ := h.idle hc
  obtain ⟨s, hflush⟩ := flush_alone (f := f) (N := N) PublishBatch hcc hl
  obtain ⟨t', h'⟩ := repeat_good hflush h
  exact .of_repeat hflush (passes_drainCall h' rfl)

/-- At the result of `empty()`. -/
theorem passes_test {writer reader : BitVec 64} (h : Good N (b.test writer reader) t)
    (hcall : ∀ t', Good N { b with consumer := .call } t' → writer ≠ reader →
      Passes PublishBatch N f { b with consumer := .call }) :
    Passes PublishBatch N f (b.test writer reader) := by
  unfold test at h ⊢
  by_cases he : writer = reader
  · rw [if_pos he] at h ⊢
    exact passes_flushCall h rfl
  · rw [if_neg he] at h ⊢
    exact hcall t h he

theorem passes_empty (h : Good N b t) (hcc : b.consumer = .empty)
    (hcall : ∀ t', Good N { b with consumer := .call } t' →
      b.s.q.writer.value ≠ b.s.q.reader.value →
      Passes PublishBatch N f { b with consumer := .call }) :
    Passes PublishBatch N f b := by
  have htest := test_alone (f := f) (N := N) PublishBatch hcc
  obtain ⟨t', h'⟩ := repeat_good htest h
  exact .of_repeat htest (passes_test h' hcall)

theorem passes_loadDone (h : Good N b t) (hcc : b.consumer = .loadDone) (hd : b.done = true)
    (hcall : ∀ t', Good N { b with consumer := .call } t' →
      b.s.q.writer.value ≠ b.s.q.reader.value →
      Passes PublishBatch N f { b with consumer := .call }) :
    Passes PublishBatch N f b := by
  have hseen : (testSpscCorrectness PublishBatch N).Repeat (.consumer f) b
      { b with consumer := .empty } :=
    .one (e := []) (by simp [testSpscCorrectness, step, stepConsumer, hcc, hd])
  obtain ⟨t', h'⟩ := repeat_good hseen h
  exact .of_repeat hseen (passes_empty h' rfl hcall)

/-- At the result of a pop of the first loop. -/
theorem passes_popped {r : Option (BitVec 64)} (h : Good N b t) (hcc : b.consumer = .inside)
    (hd : b.done = true) (hi : b.s.consumer = .idle (some (.pop r)))
    (hnone : r = none → ∀ t', Good N { b with consumer := .call } t' →
      b.s.q.writer.value ≠ b.s.q.reader.value →
      Passes PublishBatch N f { b with consumer := .call })
    (hnext : ∀ b' t', Good N b' t' → b'.consumer = .call → b'.done = true →
      N.toNat - b'.expected.toNat < N.toNat - b.expected.toNat → Passes PublishBatch N f b') :
    Passes PublishBatch N f b := by
  have hstep : (testSpscCorrectness PublishBatch N).Repeat (.consumer f) b
      (b.count .loadDone .loadDone r) :=
    .one (e := []) (by simp [testSpscCorrectness, step, stepConsumer, hcc, hi])
  obtain ⟨t', h'⟩ := repeat_good hstep h
  refine .of_repeat hstep ?_
  cases r with
  | none => exact passes_loadDone h' rfl hd (hnone rfl)
  | some value =>
    obtain ⟨heq, -⟩ := h.counted .loadDone .loadDone (.inl hcc) hi
    rw [heq] at h' ⊢
    exact passes_loadDone h' rfl hd fun t'' h'' _ => hnext _ t'' h'' rfl hd (h.fewer (.inl hcc) hi)

theorem passes_call (h : Good N b t) (hcc : b.consumer = .call) (hd : b.done = true) :
    Passes PublishBatch N f b := by
  induction hk : N.toNat - b.expected.toNat using Nat.strong_induction_on generalizing b t with
  | _ k ih =>
    subst hk
    have hc := h.consumer
    rw [hcc] at hc
    obtain ⟨l, hl⟩ := h.idle hc
    have hpop := firstPop_alone (f := f) (N := N) PublishBatch hcc hl
    obtain ⟨t₁, h₁⟩ := repeat_good hpop h
    refine .of_repeat hpop (passes_popped h₁ rfl hd rfl (fun hr _ _ hne => ?_)
      fun b' t' h' hcc' hd' hlt => ih _ hlt h' hcc' hd' rfl)
    -- The pop failed on `writer_`, and has published `reader_`: the next test ends the loop.
    obtain ⟨heq, hall⟩ := pop_failed hr
    rw [heq] at hne
    exact (hne hall.symm).elim

variable (PublishBatch f) in
/-- Inside a call, the consumer gets to its end. -/
theorem Good.returns (h : Good N b t)
    (hcc : b.consumer = .inside ∨ b.consumer = .flushInside ∨ b.consumer = .drainInside) :
    ∃ s l t', (testSpscCorrectness PublishBatch N).Repeat (.consumer f) b { b with s } ∧
      Good N { b with s } t' ∧ s.consumer = .idle l ∧ t'.consumer = .idle l := by
  obtain ⟨q', l, hret⟩ := consumer_returns PublishBatch b.s.q b.s.producer b.s.consumer
  have hret := consumer_alone (f := f) (N := N) hcc hret
  obtain ⟨t', h'⟩ := repeat_good hret h
  have hl : t'.wrap.consumer = .idle l := by rw [← h'.state]
  exact ⟨_, l, t', hret, h', rfl, ConsumerPc.of_wrap_idle hl⟩

/-- **The test passes.** After `done`, the consumer alone gets to the end, wherever it is. -/
theorem Good.passes (h : Good N b t) (hd : b.done = true) : Passes PublishBatch N f b := by
  cases hcc : b.consumer with
  | loadDone => exact passes_loadDone h hcc hd fun t' h' _ => passes_call h' rfl hd
  | empty => exact passes_empty h hcc fun t' h' _ => passes_call h' rfl hd
  | loadedWriter x =>
    have htest : (testSpscCorrectness PublishBatch N).Repeat (.consumer f) b
        (b.test x b.s.q.reader.value) :=
      .one (e := []) (by simp [testSpscCorrectness, step, stepConsumer, hcc])
    obtain ⟨t', h'⟩ := repeat_good htest h
    exact .of_repeat htest (passes_test h' fun t'' h'' _ => passes_call h'' rfl hd)
  | loadedReader y =>
    have htest : (testSpscCorrectness PublishBatch N).Repeat (.consumer f) b
        (b.test b.s.q.writer.value y) :=
      .one (e := []) (by simp [testSpscCorrectness, step, stepConsumer, hcc])
    obtain ⟨t', h'⟩ := repeat_good htest h
    exact .of_repeat htest (passes_test h' fun t'' h'' _ => passes_call h'' rfl hd)
  | call => exact passes_call h hcc hd
  | inside =>
    obtain ⟨s, l, t', hret, h', hl, hl'⟩ := h.returns PublishBatch f (.inl hcc)
    have hc' : ConsumerAt b.expected t'.q.consumer.localReader t'.consumer b.consumer := h'.consumer
    rw [hcc, hl'] at hc'
    obtain ⟨⟨r, rfl⟩, -, -⟩ := hc'
    exact .of_repeat hret (passes_popped h' hcc hd hl (fun _ t'' h'' _ => passes_call h'' rfl hd)
      fun b' t'' h'' hcc' hd' _ => passes_call h'' hcc' hd')
  | flushCall => exact passes_flushCall h hcc
  | flushInside =>
    obtain ⟨s, l, t', hret, h', hl, hl'⟩ := h.returns PublishBatch f (.inr (.inl hcc))
    have hc' : ConsumerAt b.expected t'.q.consumer.localReader t'.consumer b.consumer := h'.consumer
    rw [hcc, hl'] at hc'
    obtain ⟨hflush | hidle, -⟩ := hc'
    · cases hflush
    · cases hidle
      have hflushed : (testSpscCorrectness PublishBatch N).Repeat (.consumer f) { b with s }
          { b with s, consumer := .drainCall } :=
        .one (e := []) (by simp [testSpscCorrectness, step, stepConsumer, hcc, hl])
      obtain ⟨t'', h''⟩ := repeat_good hflushed h'
      exact .of_repeat (hret.trans hflushed) (passes_drainCall h'' rfl)
  | drainCall => exact passes_drainCall h hcc
  | drainInside =>
    obtain ⟨s, l, t', hret, h', hl, hl'⟩ := h.returns PublishBatch f (.inr (.inr hcc))
    have hc' : ConsumerAt b.expected t'.q.consumer.localReader t'.consumer b.consumer := h'.consumer
    rw [hcc, hl'] at hc'
    obtain ⟨⟨r, rfl⟩, -, -⟩ := hc'
    exact .of_repeat hret
      (passes_drained h' hcc hl fun b' t'' h'' hcc' _ => passes_drainCall h'' hcc')
  | finished => exact passes_finished h hcc
  | passed => exact ⟨b, .of_run (n := 0) rfl, hcc⟩
  | aborted =>
    have hafter := h.after
    rw [hcc] at hafter
    exact hafter.elim

end Correctness

end FastQ
