import FastQ.Proofs.Calls
import FastQ.Proofs.Exclusion
import FastQ.Proofs.Publication

/-!
# Two retrying parties make progress

A failed call publishes its party's counter. So when both parties sit between calls and both last
calls failed, both shared counters are the local ones, and a push or a pop succeeds, whatever the
batch size; the same holds for calls that run one at a time.

* `push_after_failures`, `pop_after_failures`: one at a time, over any counters of 64 bits.
* `progress`: in every interleaving.
-/

namespace FastQ

variable {α : Type}

/-! ## One at a time -/

section Sequential

variable {PublishBatch : BitVec 64} {q : SPSC α (BitVec 64)}

/-- A push that fails leaves `writer_` at `localWriter_`, `capacity_` ahead of `reader_`. -/
theorem push_failed {data : α} (h : (q.push PublishBatch data).1 = false) :
    q.push PublishBatch data = (false, (q.cacheReader q.reader.loadNewest).publishWriter) ∧
      q.producer.localWriter - q.reader.value = q.capacity := by
  rcases push_cases PublishBatch q data with ⟨q', -, -, hq⟩ | ⟨hf, hq⟩
  · rw [hq] at h
    cases h
  · exact ⟨hq, of_decide_eq_true hf⟩

/-- A pop that fails leaves `reader_` at `localReader_`, which is `writer_`. -/
theorem pop_failed (h : (q.pop PublishBatch).1 = none) :
    q.pop PublishBatch = (none, (q.cacheWriter q.writer.loadNewest).publishReader) ∧
      q.consumer.localReader = q.writer.value := by
  rcases pop_cases PublishBatch q with ⟨q', -, -, hq⟩ | ⟨hf, hq⟩
  · rcases dequeue_eq PublishBatch q' with hd | hd <;> rw [hq, hd] at h <;> cases h
  · exact ⟨hq, of_decide_eq_true hf⟩

/-- A push fails, the next call is a pop that fails: the following push succeeds. -/
theorem push_after_failures (hcap : q.capacity ≠ 0) {data : α} (data' : α)
    (hpush : (q.push PublishBatch data).1 = false)
    (hpop : ((q.push PublishBatch data).2.pop PublishBatch).1 = none) :
    (((q.push PublishBatch data).2.pop PublishBatch).2.push PublishBatch data').1 = true := by
  obtain ⟨h₁, -⟩ := push_failed hpush
  rw [h₁] at hpop ⊢
  obtain ⟨h₂, he⟩ := pop_failed hpop
  rw [h₂]
  by_contra hne
  obtain ⟨-, hf⟩ := push_failed (Bool.eq_false_of_not_eq_true hne)
  -- All elements are popped, and both parties know it.
  have he : q.consumer.localReader = q.producer.localWriter := he
  have hf : q.producer.localWriter - q.consumer.localReader = q.capacity := hf
  rw [he, BitVec.sub_self] at hf
  exact hcap hf.symm

/-- A pop fails, the next call is a push that fails: the following pop succeeds. -/
theorem pop_after_failures (hcap : q.capacity ≠ 0) {data : α}
    (hpop : (q.pop PublishBatch).1 = none)
    (hpush : ((q.pop PublishBatch).2.push PublishBatch data).1 = false) :
    (((q.pop PublishBatch).2.push PublishBatch data).2.pop PublishBatch).1 ≠ none := by
  obtain ⟨h₁, -⟩ := pop_failed hpop
  rw [h₁] at hpush ⊢
  obtain ⟨h₂, hf⟩ := push_failed hpush
  rw [h₂]
  intro hnone
  obtain ⟨-, he⟩ := pop_failed hnone
  -- The ring is full, and both parties know it.
  have hf : q.producer.localWriter - q.consumer.localReader = q.capacity := hf
  have he : q.consumer.localReader = q.producer.localWriter := he
  rw [he, BitVec.sub_self] at hf
  exact hcap hf.symm

end Sequential

/-! ## In every interleaving -/

section Runs

variable {capacity PublishBatch : BitVec 64} {memory : BitVec 64 → α} {q : SPSC α (BitVec 64)}
  {sched : List (Act α)} {s : State α (BitVec 64)} {es : List (Event α (BitVec 64))}

/-- **Batching never starves both sides.** Between calls, when the last push and the last pop both
failed, everything accepted and everything popped is published; the next push alone succeeds exactly
if fewer than `capacity` elements are outstanding, the next pop alone exactly if at least one is,
and one of the two is the case. For calls that run one at a time, from any reachable state of the
queue: after two failures in a row of a push and a pop, the third call succeeds. -/
theorem progress (hq : SPSC.new capacity memory = .ok q)
    (h : (spsc PublishBatch).run (State.start q) sched = some (s, es)) :
    ((∀ a ∈ sched, a.pushPop = true ∧ a.newest = true) →
      s.producer = .idle (some (.push false)) → s.consumer = .idle (some (.pop none)) →
      s.q.writer.value = s.q.producer.localWriter ∧
      s.q.reader.value = s.q.consumer.localReader ∧
      (∀ data, ∃ n s' es',
        (spsc PublishBatch).run s (.push data :: List.replicate n (.producer 0)) = some (s', es') ∧
        s'.producer = .idle (some (.push
          (decide ((accepted es).length < (popped es).length + capacity.toNat))))) ∧
      (∃ n s' es' r,
        (spsc PublishBatch).run s (.pop :: List.replicate n (.consumer 0)) = some (s', es') ∧
        s'.consumer = .idle (some (.pop r)) ∧
        (r.isSome = true ↔ (popped es).length < (accepted es).length)) ∧
      ((accepted es).length < (popped es).length + capacity.toNat ∨
        (popped es).length < (accepted es).length)) ∧
    (∀ data data',
      ((s.q.push PublishBatch data).1 = false →
        ((s.q.push PublishBatch data).2.pop PublishBatch).1 = none →
        (((s.q.push PublishBatch data).2.pop PublishBatch).2.push PublishBatch data').1 = true) ∧
      ((s.q.pop PublishBatch).1 = none →
        ((s.q.pop PublishBatch).2.push PublishBatch data).1 = false →
        (((s.q.pop PublishBatch).2.push PublishBatch data).2.pop PublishBatch).1 ≠ none)) := by
  obtain ⟨hnew₀, hne, -⟩ := SPSC.new_eq hq
  refine ⟨fun hact hp hc => ?_, fun data data' => ?_⟩
  · have hok : (spsc PublishBatch).Along (fun _ a => a.pushPop = true) (State.start q) sched :=
      .of_forall fun a ha _ => (hact a ha).1
    obtain ⟨q₀, t, et, hu, hn, hnew, hr, hcap⟩ := exists_unbounded_along hq h hok
    obtain ⟨hcalm, -⟩ := reach_calm hr (fun _ _ ha => Act.pushPop_calm ha.2) ⟨rfl, rfl⟩
    obtain ⟨hk, -⟩ := reach_kept hcalm (new_inv hnew) (start_kept _) fun _ _ _ ha => ha.2
    have hpub := reach_published hnew hr
    have hacc := accepted_wrap et
    have hpop := popped_wrap et
    rw [← hu.events] at hacc hpop
    obtain rfl := hu.state
    obtain ⟨q, p, c⟩ := t
    obtain rfl : p = _ := ProducerPc.of_wrap_idle hp
    obtain rfl : c = _ := ConsumerPc.of_wrap_idle hc
    have hw : q.writer.value = q.producer.localWriter := hk.publishedWriter rfl
    have hr : q.reader.value = q.consumer.localReader := hk.publishedReader rfl
    have ha : q.producer.localWriter = (accepted es).length := hacc ▸ hpub.accepted
    have hb : q.consumer.localReader = (popped es).length := hpop ▸ hpub.popped
    have hcap : q.capacity = capacity.toNat := hcap
    have hpos := hn.inv.shape.pos
    refine ⟨congrArg wrap hw, congrArg wrap hr, fun data => ?_, ?_, by omega⟩
    · obtain ⟨n, es', hrun⟩ := push_run PublishBatch.isLt hn data
      rw [wrap_toNat] at hrun
      refine ⟨n, _, es', hrun, ?_⟩
      rw [← ha, ← hb, ← hcap, ← hr, ← push_fst PublishBatch.toNat hn.inv.ordered data]
      rfl
    · obtain ⟨n, es', hrun⟩ := pop_run PublishBatch.isLt hn
      rw [wrap_toNat] at hrun
      refine ⟨n, _, es', _, hrun, rfl, ?_⟩
      rw [pop_isSome _ hn.inv.ordered, decide_eq_true_iff, ← ha, ← hb, ← hw]
  · have hcap : s.q.capacity ≠ 0 := by
      rwa [reach_capacity (Machine.run_reach h), State.start, hnew₀, SPSC.fresh]
    exact ⟨push_after_failures hcap data', pop_after_failures hcap⟩

/-- A ring of one slot and a batch of two: the failing pop has loaded `writer_` before the failing
push published it. -/
theorem progress_one : ∃ (s : State Bool (BitVec 64)) (es : List (Event Bool (BitVec 64))),
    s.producer = .idle (some (.push false)) ∧ s.consumer = .idle (some (.pop none)) ∧
      s.q.writer.value = s.q.producer.localWriter ∧
      s.q.reader.value = s.q.consumer.localReader ∧
      ((accepted es).length < (popped es).length + 1 ∨
        (popped es).length < (accepted es).length) := by
  have h := @progress Bool 1 2 (fun _ => false) _
    (.push true :: List.replicate 4 (.producer 0) ++ .pop :: List.replicate 3 (.consumer 0) ++
      .push false :: List.replicate 7 (.producer 0) ++ List.replicate 4 (.consumer 0)) _ _ rfl rfl
  have hend := h.1 (by decide) rfl rfl
  exact ⟨_, _, rfl, rfl, hend.1, hend.2.1, hend.2.2.2.2⟩

end Runs

end FastQ
