import FastQ.Queue.Steps

/-!
# A call that runs alone

A call whose accesses are not interrupted, and whose load returns the newest value, is the function
of `FastQ/Queue/Basic.lean`: `push_alone`, `pop_alone`. For `flush` this holds but for the older
values of the shared counter that the calling party loads (`producerFlush_alone`,
`consumerFlush_alone`): after its own store the party does not see them any more.
-/

namespace FastQ

variable {α κ : Type} [OfNat κ 1] [Add κ] [Sub κ] [AndOp κ] [LE κ] [DecidableEq κ] [DecidableLE κ]
  (PublishBatch : κ) (q : SPSC α κ) (p : ProducerPc α κ) (c : ConsumerPc α κ)

/-! ## The producer -/

theorem publishWriter_alone (r : ProducerResult) :
    (spsc PublishBatch).Repeat (.producer 0) ⟨q, .publishWriter r .read, c⟩
      ⟨q.publishWriter, .idle (some r), c⟩ :=
  .of_run (n := 4) rfl

/-- The batch test of `push`, and what follows it. -/
theorem pushCheck_alone :
    (spsc PublishBatch).Repeat (.producer 0) ⟨q, .batchCheck, c⟩
      ⟨if q.pushDue PublishBatch then q.publishWriter else q, .idle (some (.push true)), c⟩ := by
  by_cases hd : q.pushDue PublishBatch = true
  · have hstep : (spsc PublishBatch).step ⟨q, .batchCheck, c⟩ (.producer 0) =
        some (⟨q, .publishWriter (.push true) .read, c⟩, []) := by
      simp [spsc, step, stepProducer, hd]
    rw [if_pos hd]
    exact (Machine.Repeat.one hstep).trans (publishWriter_alone PublishBatch q c _)
  · have hstep : (spsc PublishBatch).step ⟨q, .batchCheck, c⟩ (.producer 0) =
        some (⟨q, .idle (some (.push true)), c⟩, [.producerReturn (.push true)]) := by
      simp [spsc, step, stepProducer, hd]
    rw [if_neg hd]
    exact .one hstep

theorem enqueue_alone (data : α) :
    (spsc PublishBatch).Repeat (.producer 0) ⟨q, .writeSlot data, c⟩
      ⟨q.enqueue PublishBatch data, .idle (some (.push true)), c⟩ := by
  have hinc : (spsc PublishBatch).Repeat (.producer 0) ⟨q, .writeSlot data, c⟩
      ⟨(q.writeSlot data).advanceWriter, .batchCheck, c⟩ := .of_run (n := 2) rfl
  exact hinc.trans (pushCheck_alone PublishBatch _ c)

/-- The second check of `push`, and what follows it. -/
theorem fullRecheck_alone (data : α) :
    let r := if q.isFull then (false, q.publishWriter) else (true, q.enqueue PublishBatch data)
    (spsc PublishBatch).Repeat (.producer 0) ⟨q, .fullRecheck data, c⟩
      ⟨r.2, .idle (some (.push r.1)), c⟩ := by
  by_cases hf : q.isFull = true
  · have hrefuse : (spsc PublishBatch).step ⟨q, .fullRecheck data, c⟩ (.producer 0) =
        some (⟨q, .publishWriter (.push false) .read, c⟩, []) := by
      simp [spsc, step, stepProducer, hf]
    simp only [hf, ↓reduceIte]
    exact (Machine.Repeat.one hrefuse).trans (publishWriter_alone PublishBatch q c _)
  · have hroom : (spsc PublishBatch).step ⟨q, .fullRecheck data, c⟩ (.producer 0) =
        some (⟨q, .writeSlot data, c⟩, []) := by
      simp [spsc, step, stepProducer, hf]
    simp only [hf]
    exact (Machine.Repeat.one hroom).trans (enqueue_alone PublishBatch q c data)

theorem loadReader_alone (data : α) :
    (spsc PublishBatch).Repeat (.producer 0) ⟨q, .loadReader data, c⟩
      ⟨q.cacheReader q.reader.loadNewest, .fullRecheck data, c⟩ := by
  have hload : (spsc PublishBatch).step ⟨q, .loadReader data, c⟩ (.producer 0) =
      some (⟨q.cacheReader q.reader.loadNewest, .fullRecheck data, c⟩,
        [.loadReader q.reader.value]) := by
    simp only [spsc, step, stepProducer, Atomic.load_zero]
    rfl
  exact .one hload

/-- **A push alone is `push`.** -/
theorem push_alone (data : α) :
    (spsc PublishBatch).Repeat (.producer 0) ⟨q, .fullCheck data, c⟩
      ⟨(q.push PublishBatch data).2, .idle (some (.push (q.push PublishBatch data).1)), c⟩ := by
  unfold SPSC.push
  by_cases hf : q.isFull = true
  · have hcheck : (spsc PublishBatch).step ⟨q, .fullCheck data, c⟩ (.producer 0) =
        some (⟨q, .loadReader data, c⟩, []) := by
      simp [spsc, step, stepProducer, hf]
    rw [if_pos hf]
    exact (Machine.Repeat.one hcheck).trans
      ((loadReader_alone PublishBatch q c data).trans (fullRecheck_alone PublishBatch _ c data))
  · have hroom : (spsc PublishBatch).step ⟨q, .fullCheck data, c⟩ (.producer 0) =
        some (⟨q, .writeSlot data, c⟩, []) := by
      simp [spsc, step, stepProducer, hf]
    rw [if_neg hf]
    exact (Machine.Repeat.one hroom).trans (enqueue_alone PublishBatch q c data)

/-- A `flush` by the producer alone. -/
theorem producerFlush_alone :
    (spsc PublishBatch).Repeat (.producer 0) ⟨q, .publishReader .read, c⟩
      ⟨{ q.flush with reader := q.reader.overwrite q.consumer.localReader },
        .idle (some .flush), c⟩ :=
  .of_run (n := 8) rfl

/-- A producer that goes on alone finishes its call, wherever it is. -/
theorem producer_returns : ∃ q' l,
    (spsc PublishBatch).Repeat (.producer 0) ⟨q, p, c⟩ ⟨q', .idle l, c⟩ := by
  cases p with
  | idle l => exact ⟨q, l, .of_run (n := 0) rfl⟩
  | fullCheck data => exact ⟨_, _, push_alone PublishBatch q c data⟩
  | loadReader data =>
    exact ⟨_, _, (loadReader_alone PublishBatch q c data).trans
      (fullRecheck_alone PublishBatch _ c data)⟩
  | fullRecheck data => exact ⟨_, _, fullRecheck_alone PublishBatch q c data⟩
  | writeSlot data => exact ⟨_, _, enqueue_alone PublishBatch q c data⟩
  | increment data =>
    have hinc : (spsc PublishBatch).Repeat (.producer 0) ⟨q, .increment data, c⟩
        ⟨q.advanceWriter, .batchCheck, c⟩ := .of_run (n := 1) rfl
    exact ⟨_, _, hinc.trans (pushCheck_alone PublishBatch _ c)⟩
  | batchCheck => exact ⟨_, _, pushCheck_alone PublishBatch q c⟩
  | publishReader x =>
    cases x with
    | read => exact ⟨_, _, producerFlush_alone PublishBatch q c⟩
    | store x => exact ⟨_, _, .of_run (n := 7) rfl⟩
    | readAgain => exact ⟨_, _, .of_run (n := 6) rfl⟩
    | mark x => exact ⟨_, _, .of_run (n := 5) rfl⟩
  | publishWriter r x =>
    cases x with
    | read => exact ⟨_, _, publishWriter_alone PublishBatch q c r⟩
    | store x => exact ⟨_, _, .of_run (n := 3) rfl⟩
    | readAgain => exact ⟨_, _, .of_run (n := 2) rfl⟩
    | mark x => exact ⟨_, _, .of_run (n := 1) rfl⟩

/-! ## The consumer -/

theorem publishReader_alone (r : Option α) :
    (spsc PublishBatch).Repeat (.consumer 0) ⟨q, p, .publishReader (.pop r) .read⟩
      ⟨q.publishReader, p, .idle (some (.pop r))⟩ :=
  .of_run (n := 4) rfl

/-- The batch test of `pop`, and what follows it. -/
theorem popCheck_alone (data : α) :
    (spsc PublishBatch).Repeat (.consumer 0) ⟨q, p, .batchCheck data⟩
      ⟨if q.popDue PublishBatch then q.publishReader else q, p,
        .idle (some (.pop (some data)))⟩ := by
  by_cases hd : q.popDue PublishBatch = true
  · have hstep : (spsc PublishBatch).step ⟨q, p, .batchCheck data⟩ (.consumer 0) =
        some (⟨q, p, .publishReader (.pop (some data)) .read⟩, []) := by
      simp [spsc, step, stepConsumer, hd]
    rw [if_pos hd]
    exact (Machine.Repeat.one hstep).trans (publishReader_alone PublishBatch q p _)
  · have hstep : (spsc PublishBatch).step ⟨q, p, .batchCheck data⟩ (.consumer 0) =
        some (⟨q, p, .idle (some (.pop (some data)))⟩, [.consumerReturn (.pop (some data))]) := by
      simp [spsc, step, stepConsumer, hd]
    rw [if_neg hd]
    exact .one hstep

theorem dequeue_alone :
    (spsc PublishBatch).Repeat (.consumer 0) ⟨q, p, .readSlot⟩
      ⟨(q.dequeue PublishBatch).2, p, .idle (some (.pop (q.dequeue PublishBatch).1))⟩ := by
  have hinc : (spsc PublishBatch).Repeat (.consumer 0) ⟨q, p, .readSlot⟩
      ⟨q.advanceReader, p, .batchCheck q.readSlot⟩ := .of_run (n := 2) rfl
  exact hinc.trans (popCheck_alone PublishBatch _ p _)

/-- The second check of `pop`, and what follows it. -/
theorem emptyRecheck_alone :
    let r := if q.isEmpty then (none, q.publishReader) else q.dequeue PublishBatch
    (spsc PublishBatch).Repeat (.consumer 0) ⟨q, p, .emptyRecheck⟩
      ⟨r.2, p, .idle (some (.pop r.1))⟩ := by
  by_cases hf : q.isEmpty = true
  · have hrefuse : (spsc PublishBatch).step ⟨q, p, .emptyRecheck⟩ (.consumer 0) =
        some (⟨q, p, .publishReader (.pop none) .read⟩, []) := by
      simp [spsc, step, stepConsumer, hf]
    simp only [hf, ↓reduceIte]
    exact (Machine.Repeat.one hrefuse).trans (publishReader_alone PublishBatch q p _)
  · have helement : (spsc PublishBatch).step ⟨q, p, .emptyRecheck⟩ (.consumer 0) =
        some (⟨q, p, .readSlot⟩, []) := by
      simp [spsc, step, stepConsumer, hf]
    simp only [hf]
    exact (Machine.Repeat.one helement).trans (dequeue_alone PublishBatch q p)

theorem loadWriter_alone :
    (spsc PublishBatch).Repeat (.consumer 0) ⟨q, p, .loadWriter⟩
      ⟨q.cacheWriter q.writer.loadNewest, p, .emptyRecheck⟩ := by
  have hload : (spsc PublishBatch).step ⟨q, p, .loadWriter⟩ (.consumer 0) =
      some (⟨q.cacheWriter q.writer.loadNewest, p, .emptyRecheck⟩,
        [.loadWriter q.writer.value]) := by
    simp only [spsc, step, stepConsumer, Atomic.load_zero]
    rfl
  exact .one hload

/-- **A pop alone is `pop`.** -/
theorem pop_alone :
    (spsc PublishBatch).Repeat (.consumer 0) ⟨q, p, .emptyCheck⟩
      ⟨(q.pop PublishBatch).2, p, .idle (some (.pop (q.pop PublishBatch).1))⟩ := by
  unfold SPSC.pop
  by_cases hf : q.isEmpty = true
  · have hcheck : (spsc PublishBatch).step ⟨q, p, .emptyCheck⟩ (.consumer 0) =
        some (⟨q, p, .loadWriter⟩, []) := by
      simp [spsc, step, stepConsumer, hf]
    rw [if_pos hf]
    exact (Machine.Repeat.one hcheck).trans
      ((loadWriter_alone PublishBatch q p).trans (emptyRecheck_alone PublishBatch _ p))
  · have helement : (spsc PublishBatch).step ⟨q, p, .emptyCheck⟩ (.consumer 0) =
        some (⟨q, p, .readSlot⟩, []) := by
      simp [spsc, step, stepConsumer, hf]
    rw [if_neg hf]
    exact (Machine.Repeat.one helement).trans (dequeue_alone PublishBatch q p)

/-- A `flush` by the consumer alone. -/
theorem consumerFlush_alone :
    (spsc PublishBatch).Repeat (.consumer 0) ⟨q, p, .publishReader .flush .read⟩
      ⟨{ q.flush with writer := q.writer.overwrite q.producer.localWriter }, p,
        .idle (some .flush)⟩ :=
  .of_run (n := 8) rfl

/-- A consumer that goes on alone finishes its call, wherever it is. -/
theorem consumer_returns : ∃ q' l,
    (spsc PublishBatch).Repeat (.consumer 0) ⟨q, p, c⟩ ⟨q', p, .idle l⟩ := by
  cases c with
  | idle l => exact ⟨q, l, .of_run (n := 0) rfl⟩
  | emptyCheck => exact ⟨_, _, pop_alone PublishBatch q p⟩
  | loadWriter =>
    exact ⟨_, _, (loadWriter_alone PublishBatch q p).trans (emptyRecheck_alone PublishBatch _ p)⟩
  | emptyRecheck => exact ⟨_, _, emptyRecheck_alone PublishBatch q p⟩
  | readSlot => exact ⟨_, _, dequeue_alone PublishBatch q p⟩
  | increment data =>
    have hinc : (spsc PublishBatch).Repeat (.consumer 0) ⟨q, p, .increment data⟩
        ⟨q.advanceReader, p, .batchCheck data⟩ := .of_run (n := 1) rfl
    exact ⟨_, _, hinc.trans (popCheck_alone PublishBatch _ p data)⟩
  | batchCheck data => exact ⟨_, _, popCheck_alone PublishBatch q p data⟩
  | publishReader r x =>
    cases r with
    | pop r =>
      cases x with
      | read => exact ⟨_, _, publishReader_alone PublishBatch q p r⟩
      | store x => exact ⟨_, _, .of_run (n := 3) rfl⟩
      | readAgain => exact ⟨_, _, .of_run (n := 2) rfl⟩
      | mark x => exact ⟨_, _, .of_run (n := 1) rfl⟩
    | flush =>
      cases x with
      | read => exact ⟨_, _, consumerFlush_alone PublishBatch q p⟩
      | store x => exact ⟨_, _, .of_run (n := 7) rfl⟩
      | readAgain => exact ⟨_, _, .of_run (n := 6) rfl⟩
      | mark x => exact ⟨_, _, .of_run (n := 5) rfl⟩
  | publishWriter x =>
    cases x with
    | read => exact ⟨_, _, .of_run (n := 4) rfl⟩
    | store x => exact ⟨_, _, .of_run (n := 3) rfl⟩
    | readAgain => exact ⟨_, _, .of_run (n := 2) rfl⟩
    | mark x => exact ⟨_, _, .of_run (n := 1) rfl⟩

end FastQ
