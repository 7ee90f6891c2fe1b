import FastQ.Proofs.Calls
import FastQ.Queue.Batch

/-!
# One at a time, the queue publishes in batches

Every script of calls gets the same answers from the 64-bit queue and from `batchQueue`, for every
batch size (`batch_agree`). This is the exact behaviour of the queue, of which the bounded queue
that locks is the case of a batch of at most one.

* `Batched q b`: the counters of `q` say where the elements of `b` are: published ones from
  `localReader` to the shared `writer_`, pending ones from there to `localWriter`, freed slots from
  the shared `reader_` to `localReader`. Between two calls the marks are the shared counters.
-/

namespace FastQ

variable {α : Type} {capacity : Nat}

/-- Between two calls: the queue `q` holds what `b` holds (module doc). -/
structure Batched (q : SPSC α Nat) (b : BatchQueue α capacity) : Prop where
  near : Near (State.start q)
  capacity : q.capacity = capacity
  contents : q.contents = b.published ++ b.pending
  writer : q.writer.value = q.consumer.localReader + b.published.length
  pending : q.producer.localWriter = q.writer.value + b.pending.length
  freed : q.consumer.localReader = q.reader.value + b.freed
  producerMark : q.producer.lastPublished = q.writer.value
  consumerMark : q.consumer.lastPublished = q.reader.value

variable {PublishBatch : Nat} {q : SPSC α Nat} {b : BatchQueue α capacity}

theorem new_batched {memory : Nat → α} (h : SPSC.new capacity memory = .ok q)
    (hn : Near (State.start q)) : Batched q (.new capacity) := by
  have hc := new_contents h
  obtain ⟨rfl, -⟩ := SPSC.new_eq h
  exact ⟨hn, rfl, hc, rfl, rfl, rfl, rfl, rfl⟩

/-- A push finds room exactly if not all slots are in use. -/
theorem Batched.room (h : Batched q b) :
    q.producer.localWriter < q.reader.value + q.capacity ↔ ¬ b.Full := by
  have := b.bound
  have := h.writer
  have := h.pending
  have := h.freed
  have := h.capacity
  unfold BatchQueue.Full
  omega

/-- What a push that succeeds does to the counters. -/
theorem enqueue_counters (q : SPSC α Nat) (data : α) :
    (q.enqueue PublishBatch data).consumer = q.consumer ∧
      (q.enqueue PublishBatch data).reader = q.reader ∧
      (q.enqueue PublishBatch data).producer.localWriter = q.producer.localWriter + 1 ∧
      if PublishBatch ≤ q.producer.localWriter + 1 - q.producer.lastPublished then
        (q.enqueue PublishBatch data).writer.value = q.producer.localWriter + 1 ∧
          (q.enqueue PublishBatch data).producer.lastPublished = q.producer.localWriter + 1
      else
        (q.enqueue PublishBatch data).writer = q.writer ∧
          (q.enqueue PublishBatch data).producer.lastPublished = q.producer.lastPublished := by
  have hdue : (q.writeSlot data).advanceWriter.pushDue PublishBatch =
      decide (PublishBatch ≤ q.producer.localWriter + 1 - q.producer.lastPublished) := rfl
  by_cases hd : PublishBatch ≤ q.producer.localWriter + 1 - q.producer.lastPublished
  · rw [if_pos hd]
    simp only [SPSC.enqueue, hdue, hd, decide_true, ↓reduceIte]
    exact ⟨rfl, rfl, rfl, rfl, rfl⟩
  · rw [if_neg hd]
    simp only [SPSC.enqueue, hdue, hd, decide_false]
    exact ⟨rfl, rfl, rfl, rfl, rfl⟩

/-- What a pop that succeeds does to the counters. -/
theorem dequeue_counters (q : SPSC α Nat) :
    (q.dequeue PublishBatch).2.producer = q.producer ∧
      (q.dequeue PublishBatch).2.writer = q.writer ∧
      (q.dequeue PublishBatch).2.consumer.localReader = q.consumer.localReader + 1 ∧
      if PublishBatch ≤ q.consumer.localReader + 1 - q.consumer.lastPublished then
        (q.dequeue PublishBatch).2.reader.value = q.consumer.localReader + 1 ∧
          (q.dequeue PublishBatch).2.consumer.lastPublished = q.consumer.localReader + 1
      else
        (q.dequeue PublishBatch).2.reader = q.reader ∧
          (q.dequeue PublishBatch).2.consumer.lastPublished = q.consumer.lastPublished := by
  have hdue : q.advanceReader.popDue PublishBatch =
      decide (PublishBatch ≤ q.consumer.localReader + 1 - q.consumer.lastPublished) := rfl
  by_cases hd : PublishBatch ≤ q.consumer.localReader + 1 - q.consumer.lastPublished
  · rw [if_pos hd]
    simp only [SPSC.dequeue, hdue, hd, decide_true, ↓reduceIte]
    exact ⟨rfl, rfl, rfl, rfl, rfl⟩
  · rw [if_neg hd]
    simp only [SPSC.dequeue, hdue, hd, decide_false]
    exact ⟨rfl, rfl, rfl, rfl, rfl⟩

/-- A push that finds room. -/
theorem Batched.push_room (h : Batched q b) (data : α) (hfull : ¬ b.Full)
    (hn : Near (State.start (q.push PublishBatch data).2)) :
    (q.push PublishBatch data).1 = true ∧
      Batched (q.push PublishBatch data).2 (b.push PublishBatch data).2 := by
  have ho : Ordered q := h.near.inv.ordered
  have hok : (q.push PublishBatch data).1 = true := by
    rw [push_fst PublishBatch ho data, decide_eq_true_iff]
    exact h.room.mpr hfull
  have hc := @push_contents α PublishBatch q h.near.inv.shape ho data
  have hcap := (push_capacity PublishBatch q data).trans h.capacity
  refine ⟨hok, ?_⟩
  rw [hok, if_pos rfl, h.contents, List.append_assoc] at hc
  -- The refresh of the cache does not show.
  obtain ⟨q', hq', hpush⟩ : ∃ q' : SPSC α Nat, (q' = q ∨ q' = q.cacheReader q.reader.loadNewest) ∧
      (q.push PublishBatch data).2 = q'.enqueue PublishBatch data := by
    rcases push_cases PublishBatch q data with ⟨q', hq', -, hp⟩ | ⟨-, hp⟩
    · exact ⟨q', hq', by rw [hp]⟩
    · rw [hp] at hok
      cases hok
  have hsame : q'.consumer = q.consumer ∧ q'.reader.value = q.reader.value ∧
      q'.writer = q.writer ∧ q'.producer.localWriter = q.producer.localWriter ∧
      q'.producer.lastPublished = q.producer.lastPublished := by
    rcases hq' with rfl | rfl <;> exact ⟨rfl, rfl, rfl, rfl, rfl⟩
  obtain ⟨hconsumer, hreader, hwriter, hlocal, hmark⟩ := hsame
  obtain ⟨hconsumer', hreader', hlocal', hdue⟩ := @enqueue_counters α PublishBatch q' data
  rw [hpush] at hn hc hcap ⊢
  have hpending := h.pending
  have hw := h.writer
  have hpm := h.producerMark
  have hlen : (b.append data hfull).pending.length =
      q'.producer.localWriter + 1 - q'.producer.lastPublished := by
    simp only [BatchQueue.append, List.length_append, List.length_singleton]
    omega
  have hpublished : (b.append data hfull).published = b.published := rfl
  simp only [BatchQueue.push, dif_neg hfull, hlen]
  split at hdue
  · rename_i hd
    rw [if_pos hd]
    refine ⟨hn, hcap, ?_, ?_, ?_, ?_, ?_, ?_⟩
    · simpa [BatchQueue.publish, BatchQueue.append] using hc
    · simp only [BatchQueue.publish, BatchQueue.append, List.length_append, List.length_singleton,
        hdue.1, hconsumer', hconsumer]
      omega
    · rw [hdue.1, hlocal']
      rfl
    · simp only [BatchQueue.publish, BatchQueue.append, hconsumer', hreader', hconsumer, hreader]
      exact h.freed
    · rw [hdue.1, hdue.2]
    · rw [hconsumer', hreader', hconsumer, hreader]
      exact h.consumerMark
  · rename_i hd
    rw [if_neg hd]
    refine ⟨hn, hcap, hc, ?_, ?_, ?_, ?_, ?_⟩
    · rw [hdue.1, hconsumer', hwriter, hconsumer]
      exact h.writer
    · rw [hdue.1, hlocal', hwriter, hlen]
      omega
    · rw [hconsumer', hreader', hconsumer, hreader]
      exact h.freed
    · rw [hdue.1, hdue.2, hwriter, hmark]
      exact h.producerMark
    · rw [hconsumer', hreader', hconsumer, hreader]
      exact h.consumerMark

/-- A push that finds all slots in use. -/
theorem Batched.push_full (h : Batched q b) (data : α) (hfull : b.Full)
    (hn : Near (State.start (q.push PublishBatch data).2)) :
    (q.push PublishBatch data).1 = false ∧
      Batched (q.push PublishBatch data).2 (b.push PublishBatch data).2 := by
  have ho : Ordered q := h.near.inv.ordered
  have hno : (q.push PublishBatch data).1 = false := by
    rw [push_fst PublishBatch ho data, decide_eq_false_iff_not]
    exact fun hlt => h.room.mp hlt hfull
  have hc := @push_contents α PublishBatch q h.near.inv.shape ho data
  have hcap := (push_capacity PublishBatch q data).trans h.capacity
  have hpush : (q.push PublishBatch data).2 =
      (q.cacheReader q.reader.loadNewest).publishWriter := by
    rcases push_cases PublishBatch q data with ⟨q', -, -, hp⟩ | ⟨-, hp⟩
    · rw [hp] at hno
      cases hno
    · rw [hp]
  rw [hno, h.contents] at hc
  rw [hpush] at hn hc hcap ⊢
  have hpending := h.pending
  have hw := h.writer
  refine ⟨hno, ?_⟩
  simp only [BatchQueue.push, dif_pos hfull]
  refine ⟨hn, hcap, ?_, ?_, rfl, h.freed, rfl, h.consumerMark⟩
  · simpa [BatchQueue.publish] using hc
  · change q.producer.localWriter = q.consumer.localReader + (b.published ++ b.pending).length
    rw [List.length_append]
    omega

/-- **A push.** -/
theorem Batched.push (hB : PublishBatch < 2 ^ 64) (h : Batched q b) (data : α) :
    (q.push PublishBatch data).1 = (b.push PublishBatch data).1 ∧
      Batched (q.push PublishBatch data).2 (b.push PublishBatch data).2 := by
  have hn := (push_near hB h.near data).start
  by_cases hfull : b.Full
  · obtain ⟨hno, hb⟩ := h.push_full data hfull hn
    exact ⟨hno.trans (by simp [BatchQueue.push, hfull]), hb⟩
  · obtain ⟨hok, hb⟩ := h.push_room data hfull hn
    exact ⟨hok.trans (by simp [BatchQueue.push, hfull]), hb⟩

/-- A pop finds an element exactly if one is published. -/
theorem Batched.element (h : Batched q b) :
    q.consumer.localReader < q.writer.value ↔ b.published ≠ [] := by
  have hw := h.writer
  rw [← List.length_pos_iff]
  omega

/-- A pop that finds an element. -/
theorem Batched.pop_element (h : Batched q b) {data : α} {rest : List α}
    (hb : b.published = data :: rest) (hn : Near (State.start (q.pop PublishBatch).2)) :
    (q.pop PublishBatch).1 = some data ∧
      Batched (q.pop PublishBatch).2
        (if PublishBatch ≤ (b.remove hb).freed then (b.remove hb).giveBack else b.remove hb) := by
  have ho : Ordered q := h.near.inv.ordered
  have hsome : (q.pop PublishBatch).1.isSome = true := by
    rw [pop_isSome PublishBatch ho, decide_eq_true_iff, h.element, hb]
    exact List.cons_ne_nil _ _
  have hc := @pop_contents α PublishBatch q h.near.inv.shape ho
  have hcap := (pop_capacity PublishBatch q).trans h.capacity
  obtain ⟨data', hdata⟩ := Option.isSome_iff_exists.mp hsome
  rw [h.contents, hb, hdata] at hc
  obtain ⟨rfl, hrest⟩ := List.cons.inj hc
  refine ⟨hdata, ?_⟩
  -- The refresh of the cache does not show.
  obtain ⟨q', hq', hpop⟩ : ∃ q' : SPSC α Nat, (q' = q ∨ q' = q.cacheWriter q.writer.loadNewest) ∧
      (q.pop PublishBatch).2 = (q'.dequeue PublishBatch).2 := by
    rcases pop_cases PublishBatch q with ⟨q', hq', -, hp⟩ | ⟨-, hp⟩
    · exact ⟨q', hq', by rw [hp]⟩
    · rw [hp] at hsome
      cases hsome
  have hsame : q'.producer = q.producer ∧ q'.writer.value = q.writer.value ∧
      q'.reader = q.reader ∧ q'.consumer.localReader = q.consumer.localReader ∧
      q'.consumer.lastPublished = q.consumer.lastPublished := by
    rcases hq' with rfl | rfl <;> exact ⟨rfl, rfl, rfl, rfl, rfl⟩
  obtain ⟨hproducer, hwriter, hreader, hlocal, hmark⟩ := hsame
  obtain ⟨hproducer', hwriter', hlocal', hdue⟩ := @dequeue_counters α PublishBatch q'
  rw [hpop] at hn hrest hcap ⊢
  have hfreed := h.freed
  have hw := h.writer
  have hcm := h.consumerMark
  rw [hb, List.length_cons] at hw
  have hlen : (b.remove hb).freed =
      q'.consumer.localReader + 1 - q'.consumer.lastPublished := by
    simp only [BatchQueue.remove]
    omega
  rw [hlen]
  split at hdue
  · rename_i hd
    rw [if_pos hd]
    refine ⟨hn, hcap, hrest.symm, ?_, ?_, ?_, ?_, ?_⟩
    · rw [hwriter', hwriter, hlocal', hlocal, hw]
      simp only [BatchQueue.giveBack, BatchQueue.remove]
      omega
    · rw [hwriter', hwriter, hproducer', hproducer]
      exact h.pending
    · rw [hdue.1, hlocal']
      rfl
    · rw [hwriter', hwriter, hproducer', hproducer]
      exact h.producerMark
    · rw [hdue.1, hdue.2]
  · rename_i hd
    rw [if_neg hd]
    refine ⟨hn, hcap, hrest.symm, ?_, ?_, ?_, ?_, ?_⟩
    · rw [hwriter', hwriter, hlocal', hlocal, hw]
      simp only [BatchQueue.remove]
      omega
    · rw [hwriter', hwriter, hproducer', hproducer]
      exact h.pending
    · rw [hdue.1, hlocal', hreader, hlen]
      omega
    · rw [hwriter', hwriter, hproducer', hproducer]
      exact h.producerMark
    · rw [hdue.1, hdue.2, hreader, hmark]
      exact h.consumerMark

/-- A pop that finds none. -/
theorem Batched.pop_none (h : Batched q b) (hb : b.published = [])
    (hn : Near (State.start (q.pop PublishBatch).2)) :
    (q.pop PublishBatch).1 = none ∧ Batched (q.pop PublishBatch).2 b.giveBack := by
  have ho : Ordered q := h.near.inv.ordered
  have hno : (q.pop PublishBatch).1 = none := by
    rw [← Option.not_isSome_iff_eq_none, pop_isSome PublishBatch ho, decide_eq_true_iff, h.element]
    exact not_not.mpr hb
  have hc := @pop_contents α PublishBatch q h.near.inv.shape ho
  have hcap := (pop_capacity PublishBatch q).trans h.capacity
  have hpop : (q.pop PublishBatch).2 = (q.cacheWriter q.writer.loadNewest).publishReader := by
    rcases pop_cases PublishBatch q with ⟨q', -, -, hp⟩ | ⟨-, hp⟩
    · rcases dequeue_eq PublishBatch q' with hd | hd <;> rw [hp, hd] at hno <;> cases hno
    · rw [hp]
  rw [hno, h.contents] at hc
  rw [hpop] at hn hc hcap ⊢
  exact ⟨hno, hn, hcap, hc.symm, h.writer, h.pending, rfl, h.producerMark, rfl⟩

/-- **A pop.** -/
theorem Batched.pop (hB : PublishBatch < 2 ^ 64) (h : Batched q b) :
    (q.pop PublishBatch).1 = (b.pop PublishBatch).1 ∧
      Batched (q.pop PublishBatch).2 (b.pop PublishBatch).2 := by
  have hn := (pop_near hB h.near).start
  unfold BatchQueue.pop
  split
  · rename_i hb
    exact h.pop_none hb hn
  · rename_i hb
    exact h.pop_element hb hn

/-- **A `flush`.** -/
theorem Batched.flush (hB : PublishBatch < 2 ^ 64) (h : Batched q b) : Batched q.flush b.flush := by
  have hpending := h.pending
  have hw := h.writer
  refine ⟨flush_near hB h.near, h.capacity, ?_, ?_, rfl, rfl, rfl, rfl⟩
  · simp only [BatchQueue.flush, BatchQueue.publish, BatchQueue.giveBack, List.append_nil]
    exact h.contents
  · change q.producer.localWriter = q.consumer.localReader + (b.published ++ b.pending).length
    rw [List.length_append]
    omega

/-- `size` counts the published elements and the freed slots. -/
theorem Batched.size (h : Batched q b) : q.size = b.size := by
  have hw := h.writer
  have hf := h.freed
  unfold SPSC.size BatchQueue.size
  omega

theorem Batched.empty (h : Batched q b) : q.empty = b.empty := by
  have hw := h.writer
  have hf := h.freed
  unfold SPSC.empty BatchQueue.empty BatchQueue.size
  rw [decide_eq_decide]
  omega

/-- **One call** of the 64-bit queue is the call of the queue that publishes in batches. -/
theorem Batched.call (hB : PublishBatch < 2 ^ 64) (h : Batched q b) (c : Call α) :
    ∃ q', q.wrap.call (FastQ.wrap PublishBatch) c =
        (q'.wrap, (b.call PublishBatch c).2.map Answer.wrap) ∧
      Batched q' (b.call PublishBatch c).1 := by
  cases c with
  | push data =>
    obtain ⟨hok, hb⟩ := h.push hB data
    have hw : q.wrap.push (FastQ.wrap PublishBatch) data = _ := push_wrap hB h.near data
    refine ⟨(q.push PublishBatch data).2, ?_, hb⟩
    simp only [SPSC.call, hw, hok]
    rfl
  | pop =>
    obtain ⟨hok, hb⟩ := h.pop hB
    have hw : q.wrap.pop (FastQ.wrap PublishBatch) = _ := pop_wrap hB h.near
    refine ⟨(q.pop PublishBatch).2, ?_, hb⟩
    simp only [SPSC.call, hw, hok]
    rfl
  | flush => exact ⟨q.flush, rfl, h.flush hB⟩
  | size =>
    refine ⟨q, ?_, h⟩
    have hsize : q.wrap.size = FastQ.wrap q.size := size_wrap h.near.inv.ordered
    simp only [SPSC.call, hsize, h.size]
    rfl
  | empty =>
    refine ⟨q, ?_, h⟩
    have hempty : q.wrap.empty = q.empty := empty_wrap h.near.inv.ordered h.near.capacity_lt
    simp only [SPSC.call, hempty, h.empty]
    rfl

/-- Scripts, by induction over the calls. -/
theorem Batched.run (hB : PublishBatch < 2 ^ 64) (h : Batched q b) (script : List (Call α)) :
    ∃ q' b' es, (calls (FastQ.wrap PublishBatch)).run q.wrap script =
        some (q'.wrap, es.map Answer.wrap) ∧
      (batchQueue capacity PublishBatch).run b script = some (b', es) ∧ Batched q' b' := by
  induction script generalizing q b with
  | nil => exact ⟨q, b, [], rfl, rfl, h⟩
  | cons c script ih =>
    obtain ⟨q₁, hcall, h₁⟩ := h.call hB c
    obtain ⟨q', b', es, hrun, hrunb, h'⟩ := ih h₁
    refine ⟨q', b', (b.call PublishBatch c).2 ++ es, ?_, Machine.run_step rfl hrunb, h'⟩
    rw [List.map_append]
    exact Machine.run_step (congrArg some hcall) hrun

/-- **The queue publishes in batches.** For every capacity and batch size, every script of `push`,
`pop`, `flush`, `size` and `empty` calls gets the same answers from the 64-bit queue as from the
bounded queue that publishes in batches, and at its end the slots hold the published elements and
then the pending ones. -/
theorem batch_agree {capacity PublishBatch : BitVec 64} {memory : BitVec 64 → α}
    {q : SPSC α (BitVec 64)} (hq : SPSC.new capacity memory = .ok q) (script : List (Call α)) :
    ∃ q' b es, (calls PublishBatch).run q script = some (q', es.map Answer.wrap) ∧
      (batchQueue capacity.toNat PublishBatch.toNat).run (.new _) script = some (b, es) ∧
      q'.slots = b.published ++ b.pending := by
  obtain ⟨q₀, hnew, hstart, hcap, hnear⟩ := new_unwrap hq
  obtain rfl : q = q₀.wrap := congrArg State.q hstart
  obtain ⟨q', b, es, hrun, hrunb, h⟩ :=
    (new_batched hnew hnear).run PublishBatch.isLt script
  rw [wrap_toNat] at hrun
  exact ⟨q'.wrap, b, es, hrun, hrunb, (slots_wrap h.near).trans h.contents⟩

/-- A ring of two slots with a batch of two: the pop that finds the first element still pending
changes nothing, the `size` after the second push is two. -/
theorem batch_agree_one : ∃ (q' : SPSC Bool (BitVec 64)) (b : BatchQueue Bool 2)
    (es : List (Answer Bool Nat)),
    (calls 2).run (SPSC.fresh 2 fun _ => false) [.push true, .pop, .push false, .size, .pop] =
        some (q', es.map Answer.wrap) ∧
      (batchQueue 2 2).run (.new 2) [.push true, .pop, .push false, .size, .pop] = some (b, es) ∧
      q'.slots = b.published ++ b.pending :=
  @batch_agree Bool 2 2 (fun _ => false) _ rfl [.push true, .pop, .push false, .size, .pop]

end FastQ
