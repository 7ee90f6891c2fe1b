import FastQ.Proofs.Alone
import FastQ.Proofs.History

/-!
# What a call that runs alone does

One specification for each member function, on unbounded counters in the order of `Ordered`: when it
succeeds (`push_fst`, `pop_isSome`) and what it does to the contents (`push_contents`,
`pop_contents`). The refreshes of the caches do not show: a push fails exactly if `localWriter` is
`capacity` ahead of the shared `reader_`, whatever the cache holds.

The same calls over 64 bits are the images of these (`push_wrap`, `pop_wrap`): both are the ends of
the uninterrupted runs of the step machine, which agree.
-/

namespace FastQ

variable {α : Type}

/-! ## The outcomes of a call -/

section Outcomes

variable {κ : Type} [OfNat κ 1] [Add κ] [Sub κ] [AndOp κ] [LE κ] [DecidableEq κ] [DecidableLE κ]
  (PublishBatch : κ) (q : SPSC α κ)

/-- A push writes if the old or the new cached value leaves room; else it publishes and fails. -/
theorem push_cases (data : α) :
    (∃ q', (q' = q ∨ q' = q.cacheReader q.reader.loadNewest) ∧ q'.isFull = false ∧
      q.push PublishBatch data = (true, q'.enqueue PublishBatch data)) ∨
    ((q.cacheReader q.reader.loadNewest).isFull = true ∧
      q.push PublishBatch data = (false, (q.cacheReader q.reader.loadNewest).publishWriter)) := by
  cases hf : q.isFull with
  | false => exact .inl ⟨q, .inl rfl, hf, by simp [SPSC.push, hf]⟩
  | true =>
    cases hf' : (q.cacheReader q.reader.loadNewest).isFull with
    | false => exact .inl ⟨_, .inr rfl, hf', by simp [SPSC.push, hf, hf']⟩
    | true => exact .inr ⟨rfl, by simp [SPSC.push, hf, hf']⟩

/-- A pop reads if the old or the new cached value leaves an element; else it publishes and fails.
-/
theorem pop_cases :
    (∃ q', (q' = q ∨ q' = q.cacheWriter q.writer.loadNewest) ∧ q'.isEmpty = false ∧
      q.pop PublishBatch = q'.dequeue PublishBatch) ∨
    ((q.cacheWriter q.writer.loadNewest).isEmpty = true ∧
      q.pop PublishBatch = (none, (q.cacheWriter q.writer.loadNewest).publishReader)) := by
  cases hf : q.isEmpty with
  | false => exact .inl ⟨q, .inl rfl, hf, by simp [SPSC.pop, hf]⟩
  | true =>
    cases hf' : (q.cacheWriter q.writer.loadNewest).isEmpty with
    | false => exact .inl ⟨_, .inr rfl, hf', by simp [SPSC.pop, hf, hf']⟩
    | true => exact .inr ⟨rfl, by simp [SPSC.pop, hf, hf']⟩

/-- The second half of `push` keeps what the batch test does not touch. -/
theorem enqueue_eq (data : α) :
    q.enqueue PublishBatch data = (q.writeSlot data).advanceWriter ∨
      q.enqueue PublishBatch data = (q.writeSlot data).advanceWriter.publishWriter := by
  cases hd : (q.writeSlot data).advanceWriter.pushDue PublishBatch with
  | false => exact .inl (by simp [SPSC.enqueue, hd])
  | true => exact .inr (by simp [SPSC.enqueue, hd])

omit [DecidableEq κ] in
theorem dequeue_eq :
    q.dequeue PublishBatch = (some q.readSlot, q.advanceReader) ∨
      q.dequeue PublishBatch = (some q.readSlot, q.advanceReader.publishReader) := by
  cases hd : q.advanceReader.popDue PublishBatch with
  | false => exact .inl (by simp [SPSC.dequeue, hd])
  | true => exact .inr (by simp [SPSC.dequeue, hd])

/-- A call does not change the capacity. -/
theorem push_capacity (data : α) : (q.push PublishBatch data).2.capacity = q.capacity := by
  rcases push_cases PublishBatch q data with ⟨q', rfl | rfl, -, h⟩ | ⟨-, h⟩
  · rcases enqueue_eq PublishBatch q' data with he | he <;> rw [h, he] <;> rfl
  · rcases enqueue_eq PublishBatch (q.cacheReader _) data with he | he <;> rw [h, he] <;> rfl
  · rw [h]
    rfl

theorem pop_capacity : (q.pop PublishBatch).2.capacity = q.capacity := by
  rcases pop_cases PublishBatch q with ⟨q', rfl | rfl, -, h⟩ | ⟨-, h⟩
  · rcases dequeue_eq PublishBatch q' with he | he <;> rw [h, he] <;> rfl
  · rcases dequeue_eq PublishBatch (q.cacheWriter _) with he | he <;> rw [h, he] <;> rfl
  · rw [h]
    rfl

end Outcomes

/-! ## Unbounded counters -/

variable {PublishBatch : Nat} {q : SPSC α Nat}

/-- A push alone succeeds exactly if `localWriter` is less than `capacity` ahead of `reader_`. -/
theorem push_fst (PublishBatch : Nat) (ho : Ordered q) (data : α) :
    (q.push PublishBatch data).1 =
      decide (q.producer.localWriter < q.reader.value + q.capacity) := by
  have := ho.cachedReader_le
  have := ho.writer_le
  rcases push_cases PublishBatch q data with ⟨q', rfl | rfl, hf, h⟩ | ⟨hf, h⟩
  · have hne := of_decide_eq_false hf
    rw [h, eq_comm, decide_eq_true_iff]
    omega
  · have hne : q.producer.localWriter - q.reader.value ≠ q.capacity := of_decide_eq_false hf
    rw [h, eq_comm, decide_eq_true_iff]
    omega
  · have he : q.producer.localWriter - q.reader.value = q.capacity := of_decide_eq_true hf
    have := ho.reader_le_local
    have := ho.local_le
    rw [h, eq_comm, decide_eq_false_iff_not]
    omega

/-- A pop alone succeeds exactly if `localReader` is less than `writer_`. -/
theorem pop_isSome (PublishBatch : Nat) (ho : Ordered q) :
    (q.pop PublishBatch).1.isSome = decide (q.consumer.localReader < q.writer.value) := by
  have := ho.cachedWriter_le
  have := ho.reader_le
  have hsome : ∀ q' : SPSC α Nat, (q'.dequeue PublishBatch).1.isSome = true := by
    intro q'
    rcases dequeue_eq PublishBatch q' with h | h <;> rw [h] <;> rfl
  rcases pop_cases PublishBatch q with ⟨q', rfl | rfl, hf, h⟩ | ⟨hf, h⟩
  · have hne := of_decide_eq_false hf
    rw [h, hsome, eq_comm, decide_eq_true_iff]
    omega
  · have hne : q.consumer.localReader ≠ q.writer.value := of_decide_eq_false hf
    rw [h, hsome, eq_comm, decide_eq_true_iff]
    omega
  · have he : q.consumer.localReader = q.writer.value := of_decide_eq_true hf
    rw [h, eq_comm]
    exact decide_eq_false (by omega)

theorem enqueue_contents (hs : Shape q) (hle : q.consumer.localReader ≤ q.producer.localWriter)
    (hlt : q.producer.localWriter < q.consumer.localReader + q.capacity) (data : α) :
    (q.enqueue PublishBatch data).contents = q.contents ++ [data] := by
  have hc : (q.writeSlot data).advanceWriter.contents = q.contents ++ [data] := by
    unfold SPSC.writeSlot
    rw [hs.writeIndex_eq]
    exact Ring.window_append hle hlt data
  rcases enqueue_eq PublishBatch q data with h | h <;> rw [h] <;> exact hc

theorem dequeue_contents (hs : Shape q)
    (hlt : q.consumer.localReader < q.producer.localWriter) :
    q.contents = (q.dequeue PublishBatch).1.toList ++ (q.dequeue PublishBatch).2.contents := by
  have hc : q.contents = q.readSlot :: q.advanceReader.contents := by
    unfold SPSC.readSlot
    rw [hs.readIndex_eq]
    exact Ring.window_cons hlt
  rcases dequeue_eq PublishBatch q with h | h <;> rw [h] <;> exact hc

/-- A push alone appends its element if it succeeds, and else leaves the contents. -/
theorem push_contents (hs : Shape q) (ho : Ordered q) (data : α) :
    (q.push PublishBatch data).2.contents =
      q.contents ++ if (q.push PublishBatch data).1 then [data] else [] := by
  have hl := ho.local_le
  have hr := ho.reader_le_local
  have hfst := push_fst PublishBatch ho data
  rcases push_cases PublishBatch q data with ⟨q', hq', -, h⟩ | ⟨-, h⟩
  · rw [h] at hfst ⊢
    have hlt : q.producer.localWriter < q.reader.value + q.capacity := of_decide_eq_true hfst.symm
    have hlt : q.producer.localWriter < q.consumer.localReader + q.capacity := by omega
    rcases hq' with rfl | rfl
    · exact enqueue_contents hs hl.1 hlt data
    · exact enqueue_contents (q := q.cacheReader _) ⟨hs.pow, hs.mask⟩ hl.1 hlt data
  · rw [h]
    exact (List.append_nil _).symm

/-- A pop alone takes the first element if it succeeds, and else leaves the contents. -/
theorem pop_contents (hs : Shape q) (ho : Ordered q) :
    q.contents = (q.pop PublishBatch).1.toList ++ (q.pop PublishBatch).2.contents := by
  have hw := ho.writer_le_local
  have hcw := ho.cachedWriter_le
  have hle := ho.reader_le
  rcases pop_cases PublishBatch q with ⟨q', rfl | rfl, hf, h⟩ | ⟨-, h⟩
  · have hne := of_decide_eq_false hf
    rw [h]
    exact dequeue_contents hs (by omega)
  · have hne : q.consumer.localReader ≠ q.writer.value := of_decide_eq_false hf
    rw [h]
    exact dequeue_contents (q := q.cacheWriter _) ⟨hs.pow, hs.mask⟩
      (show q.consumer.localReader < q.producer.localWriter by omega)
  · rw [h]
    rfl

/-! ## 64 bits -/

section Wrap

variable {l : Option ProducerResult} {l' : Option (ConsumerResult α)} {p : ProducerPc α Nat}
  {c : ConsumerPc α Nat}

/-- A party that goes on alone does so over 64 bits. -/
theorem repeat_wrap (hB : PublishBatch < 2 ^ 64) {s s' : State α Nat} {a : Act α} (hn : Near s)
    (h : (spsc PublishBatch).Repeat a s s') :
    (spsc (wrap PublishBatch)).Repeat a s.wrap s'.wrap := by
  obtain ⟨n, es, h⟩ := h
  exact ⟨n, es.map Event.wrap, by rw [spsc_run_wrap hB hn, h]; rfl⟩

/-- A push alone, from between the producer's calls, over 64 bits. -/
theorem push_run (hB : PublishBatch < 2 ^ 64) (h : Near ⟨q, .idle l, c⟩) (data : α) :
    ∃ n es, (spsc (wrap PublishBatch)).run (State.wrap ⟨q, .idle l, c⟩)
        (.push data :: List.replicate n (.producer 0)) =
      some (State.wrap ⟨(q.push PublishBatch data).2,
        .idle (some (.push (q.push PublishBatch data).1)), c⟩, es) := by
  obtain ⟨n, es, hrun⟩ := push_alone PublishBatch q c data
  have hstart : (spsc PublishBatch).step ⟨q, .idle l, c⟩ (.push data) =
      some (⟨q, .fullCheck data, c⟩, []) := rfl
  refine ⟨n, es.map Event.wrap, ?_⟩
  rw [spsc_run_wrap hB h, Machine.run_cons, hstart]
  simp [hrun, Machine.image]

/-- A pop alone, from between the consumer's calls, over 64 bits. -/
theorem pop_run (hB : PublishBatch < 2 ^ 64) (h : Near ⟨q, p, .idle l'⟩) :
    ∃ n es, (spsc (wrap PublishBatch)).run (State.wrap ⟨q, p, .idle l'⟩)
        (.pop :: List.replicate n (.consumer 0)) =
      some (State.wrap ⟨(q.pop PublishBatch).2, p,
        .idle (some (.pop (q.pop PublishBatch).1))⟩, es) := by
  obtain ⟨n, es, hrun⟩ := pop_alone PublishBatch q p
  have hstart : (spsc PublishBatch).step ⟨q, p, .idle l'⟩ .pop =
      some (⟨q, p, .emptyCheck⟩, []) := rfl
  refine ⟨n, es.map Event.wrap, ?_⟩
  rw [spsc_run_wrap hB h, Machine.run_cons, hstart]
  simp [hrun, Machine.image]

theorem push_near (hB : PublishBatch < 2 ^ 64) (h : Near ⟨q, .idle l, c⟩) (data : α) :
    Near ⟨(q.push PublishBatch data).2, .idle (some (.push (q.push PublishBatch data).1)), c⟩ := by
  have hn : Near ⟨q, .fullCheck data, c⟩ := step_near (a := .push data) hB h rfl
  obtain ⟨es, hr⟩ := (push_alone PublishBatch q c data).reach
  exact reach_near hB hr hn

theorem pop_near (hB : PublishBatch < 2 ^ 64) (h : Near ⟨q, p, .idle l'⟩) :
    Near ⟨(q.pop PublishBatch).2, p, .idle (some (.pop (q.pop PublishBatch).1))⟩ := by
  have hn : Near ⟨q, p, .emptyCheck⟩ := step_near (a := .pop) hB h rfl
  obtain ⟨es, hr⟩ := (pop_alone PublishBatch q p).reach
  exact reach_near hB hr hn

/-- What is near between two calls is so whatever they returned. -/
theorem Near.start (h : Near ⟨q, .idle l, .idle l'⟩) : Near (State.start q) :=
  ⟨⟨h.inv.shape, h.inv.ordered, trivial, trivial⟩, h.capacity_lt, h.producer, h.consumer⟩

theorem flush_near (hB : PublishBatch < 2 ^ 64) (h : Near (State.start q)) :
    Near (State.start q.flush) :=
  step_near hB h (show (spsc PublishBatch).step _ .flush = some (_, _) from rfl)

/-- A push over 64 bits is the image of the push over unbounded counters. -/
theorem push_wrap (hB : PublishBatch < 2 ^ 64) (h : Near ⟨q, .idle l, c⟩) (data : α) :
    q.wrap.push (wrap PublishBatch) data =
      ((q.push PublishBatch data).1, (q.push PublishBatch data).2.wrap) := by
  have hn : Near ⟨q, .fullCheck data, c⟩ := step_near (a := .push data) hB h rfl
  have himage := repeat_wrap hB hn (push_alone PublishBatch q c data)
  have hcode := push_alone (wrap PublishBatch) q.wrap c.wrap data
  have heq := hcode.unique himage rfl rfl
  simp only [State.wrap, State.mk.injEq, ProducerPc.wrap, ProducerPc.idle.injEq, Option.some.injEq,
    ProducerResult.push.injEq] at heq
  exact Prod.ext heq.2.1 heq.1

/-- A pop over 64 bits is the image of the pop over unbounded counters. -/
theorem pop_wrap (hB : PublishBatch < 2 ^ 64) (h : Near ⟨q, p, .idle l'⟩) :
    q.wrap.pop (wrap PublishBatch) =
      ((q.pop PublishBatch).1, (q.pop PublishBatch).2.wrap) := by
  have hn : Near ⟨q, p, .emptyCheck⟩ := step_near (a := .pop) hB h rfl
  have himage := repeat_wrap hB hn (pop_alone PublishBatch q p)
  have hcode := pop_alone (wrap PublishBatch) q.wrap p.wrap
  have heq := hcode.unique himage rfl rfl
  simp only [State.wrap, State.mk.injEq, ConsumerPc.wrap, ConsumerPc.idle.injEq, Option.some.injEq,
    ConsumerResult.pop.injEq] at heq
  exact Prod.ext heq.2.2 heq.1

end Wrap

end FastQ
