import FastQ.Queue.Steps

/-!
# What a step can do

`stepProducer`, `stepConsumer` and `step` as relations with one case for each kind of access
(`ProducerMove`, `ConsumerMove`, `Move`). The inversion lemmas (`stepProducer_move`,
`stepConsumer_move`, `step_move`) say that every step is one of these cases; each invariant is then
proved by a case analysis of the moves, and never unfolds the step functions. The other way round,
every move is a step (`step_of_move`).
-/

namespace FastQ

variable {α κ : Type} [OfNat κ 1] [Add κ] [Sub κ] [AndOp κ] [LE κ] [DecidableEq κ] [DecidableLE κ]

/-- The producer's accesses: from where, to where, and the events. -/
inductive ProducerMove (PublishBatch : κ) (k : Nat) (q : SPSC α κ) :
    ProducerPc α κ → SPSC α κ → ProducerPc α κ → List (Event α κ) → Prop
  | full {data : α} : q.isFull = true →
      ProducerMove PublishBatch k q (.fullCheck data) q (.loadReader data) []
  | room {data : α} : q.isFull = false →
      ProducerMove PublishBatch k q (.fullCheck data) q (.writeSlot data) []
  | load {data : α} {p : κ × Atomic κ} : q.reader.load k = some p →
      ProducerMove PublishBatch k q (.loadReader data) (q.cacheReader p) (.fullRecheck data)
        [.loadReader p.1]
  | refuse {data : α} : q.isFull = true →
      ProducerMove PublishBatch k q (.fullRecheck data) q (.publishWriter (.push false) .read) []
  | roomNow {data : α} : q.isFull = false →
      ProducerMove PublishBatch k q (.fullRecheck data) q (.writeSlot data) []
  | write {data : α} :
      ProducerMove PublishBatch k q (.writeSlot data) (q.writeSlot data) (.increment data)
        [.writeSlot q.writeIndex data]
  | increment {data : α} :
      ProducerMove PublishBatch k q (.increment data) q.advanceWriter .batchCheck [.accept data]
  | due : q.pushDue PublishBatch = true →
      ProducerMove PublishBatch k q .batchCheck q (.publishWriter (.push true) .read) []
  | notDue : q.pushDue PublishBatch = false →
      ProducerMove PublishBatch k q .batchCheck q (.idle (some (.push true)))
        [.producerReturn (.push true)]
  | readReader : ProducerMove PublishBatch k q (.publishReader .read) q
        (.publishReader (.store q.consumer.localReader)) []
  | storeReader {x : κ} : ProducerMove PublishBatch k q (.publishReader (.store x))
        (q.overwriteReader x) (.publishReader .readAgain) [.storeReader x]
  | readReaderAgain : ProducerMove PublishBatch k q (.publishReader .readAgain) q
        (.publishReader (.mark q.consumer.localReader)) []
  | markReader {x : κ} : ProducerMove PublishBatch k q (.publishReader (.mark x))
        (q.markReader x) (.publishWriter .flush .read) []
  | readWriter {r : ProducerResult} : ProducerMove PublishBatch k q (.publishWriter r .read) q
        (.publishWriter r (.store q.producer.localWriter)) []
  | storeWriter {r : ProducerResult} {x : κ} :
      ProducerMove PublishBatch k q (.publishWriter r (.store x)) (q.storeWriter x)
        (.publishWriter r .readAgain) [.storeWriter x]
  | readWriterAgain {r : ProducerResult} :
      ProducerMove PublishBatch k q (.publishWriter r .readAgain) q
        (.publishWriter r (.mark q.producer.localWriter)) []
  | markWriter {r : ProducerResult} {x : κ} :
      ProducerMove PublishBatch k q (.publishWriter r (.mark x)) (q.markWriter x)
        (.idle (some r)) [.producerReturn r]

/-- The consumer's accesses: from where, to where, and the events. -/
inductive ConsumerMove (PublishBatch : κ) (k : Nat) (q : SPSC α κ) :
    ConsumerPc α κ → SPSC α κ → ConsumerPc α κ → List (Event α κ) → Prop
  | drained : q.isEmpty = true → ConsumerMove PublishBatch k q .emptyCheck q .loadWriter []
  | element : q.isEmpty = false → ConsumerMove PublishBatch k q .emptyCheck q .readSlot []
  | load {p : κ × Atomic κ} : q.writer.load k = some p →
      ConsumerMove PublishBatch k q .loadWriter (q.cacheWriter p) .emptyRecheck [.loadWriter p.1]
  | refuse : q.isEmpty = true →
      ConsumerMove PublishBatch k q .emptyRecheck q (.publishReader (.pop none) .read) []
  | elementNow : q.isEmpty = false → ConsumerMove PublishBatch k q .emptyRecheck q .readSlot []
  | read : ConsumerMove PublishBatch k q .readSlot q (.increment q.readSlot)
        [.readSlot q.readIndex q.readSlot]
  | increment {data : α} :
      ConsumerMove PublishBatch k q (.increment data) q.advanceReader (.batchCheck data)
        [.take data]
  | due {data : α} : q.popDue PublishBatch = true →
      ConsumerMove PublishBatch k q (.batchCheck data) q
        (.publishReader (.pop (some data)) .read) []
  | notDue {data : α} : q.popDue PublishBatch = false →
      ConsumerMove PublishBatch k q (.batchCheck data) q (.idle (some (.pop (some data))))
        [.consumerReturn (.pop (some data))]
  | readReader {r : ConsumerResult α} : ConsumerMove PublishBatch k q (.publishReader r .read) q
        (.publishReader r (.store q.consumer.localReader)) []
  | storeReader {r : ConsumerResult α} {x : κ} :
      ConsumerMove PublishBatch k q (.publishReader r (.store x)) (q.storeReader x)
        (.publishReader r .readAgain) [.storeReader x]
  | readReaderAgain {r : ConsumerResult α} :
      ConsumerMove PublishBatch k q (.publishReader r .readAgain) q
        (.publishReader r (.mark q.consumer.localReader)) []
  | markReader {r : Option α} {x : κ} :
      ConsumerMove PublishBatch k q (.publishReader (.pop r) (.mark x)) (q.markReader x)
        (.idle (some (.pop r))) [.consumerReturn (.pop r)]
  | markReaderFlush {x : κ} :
      ConsumerMove PublishBatch k q (.publishReader .flush (.mark x)) (q.markReader x)
        (.publishWriter .read) []
  | readWriter : ConsumerMove PublishBatch k q (.publishWriter .read) q
        (.publishWriter (.store q.producer.localWriter)) []
  | storeWriter {x : κ} : ConsumerMove PublishBatch k q (.publishWriter (.store x))
        (q.overwriteWriter x) (.publishWriter .readAgain) [.storeWriter x]
  | readWriterAgain : ConsumerMove PublishBatch k q (.publishWriter .readAgain) q
        (.publishWriter (.mark q.producer.localWriter)) []
  | markWriter {x : κ} : ConsumerMove PublishBatch k q (.publishWriter (.mark x))
        (q.markWriter x) (.idle (some .flush)) [.consumerReturn .flush]

/-- The steps of the two parties. -/
inductive Move (PublishBatch : κ) : State α κ → Act α → State α κ → List (Event α κ) → Prop
  | push {q : SPSC α κ} {c : ConsumerPc α κ} {last : Option ProducerResult} {data : α} :
      Move PublishBatch ⟨q, .idle last, c⟩ (.push data) ⟨q, .fullCheck data, c⟩ []
  | producerFlush {q : SPSC α κ} {c : ConsumerPc α κ} {last : Option ProducerResult} :
      Move PublishBatch ⟨q, .idle last, c⟩ .producerFlush ⟨q, .publishReader .read, c⟩ []
  | producer {q q' : SPSC α κ} {p p' : ProducerPc α κ} {c : ConsumerPc α κ} {k : Nat}
      {e : List (Event α κ)} : ProducerMove PublishBatch k q p q' p' e →
      Move PublishBatch ⟨q, p, c⟩ (.producer k) ⟨q', p', c⟩ e
  | pop {q : SPSC α κ} {p : ProducerPc α κ} {last : Option (ConsumerResult α)} :
      Move PublishBatch ⟨q, p, .idle last⟩ .pop ⟨q, p, .emptyCheck⟩ []
  | consumerFlush {q : SPSC α κ} {p : ProducerPc α κ} {last : Option (ConsumerResult α)} :
      Move PublishBatch ⟨q, p, .idle last⟩ .consumerFlush ⟨q, p, .publishReader .flush .read⟩ []
  | consumer {q q' : SPSC α κ} {p : ProducerPc α κ} {c c' : ConsumerPc α κ} {k : Nat}
      {e : List (Event α κ)} : ConsumerMove PublishBatch k q c q' c' e →
      Move PublishBatch ⟨q, p, c⟩ (.consumer k) ⟨q', p, c'⟩ e
  | flush {q : SPSC α κ} {l : Option ProducerResult} {l' : Option (ConsumerResult α)} :
      Move PublishBatch ⟨q, .idle l, .idle l'⟩ .flush ⟨q.flush, .idle l, .idle l'⟩
        [.storeReader q.consumer.localReader, .storeWriter q.producer.localWriter]
  | size {q : SPSC α κ} {l : Option ProducerResult} {l' : Option (ConsumerResult α)} :
      Move PublishBatch ⟨q, .idle l, .idle l'⟩ .size ⟨q, .idle l, .idle l'⟩ [.sizeReturn q.size]
  | empty {q : SPSC α κ} {l : Option ProducerResult} {l' : Option (ConsumerResult α)} :
      Move PublishBatch ⟨q, .idle l, .idle l'⟩ .empty ⟨q, .idle l, .idle l'⟩
        [.emptyReturn q.empty]

variable {PublishBatch : κ} {k : Nat} {q q' : SPSC α κ} {e : List (Event α κ)}

theorem stepProducer_move {p p' : ProducerPc α κ}
    (h : stepProducer PublishBatch k q p = some (q', p', e)) :
    ProducerMove PublishBatch k q p q' p' e := by
  cases p with
  | idle last => cases h
  | fullCheck data =>
    cases hf : q.isFull <;> simp only [stepProducer, hf] at h <;> cases h
    · exact .room hf
    · exact .full hf
  | loadReader data =>
    obtain ⟨p, hp, h⟩ := Option.map_eq_some_iff.mp h
    cases h
    exact .load hp
  | fullRecheck data =>
    cases hf : q.isFull <;> simp only [stepProducer, hf] at h <;> cases h
    · exact .roomNow hf
    · exact .refuse hf
  | writeSlot data => cases h; exact .write
  | increment data => cases h; exact .increment
  | batchCheck =>
    cases hd : q.pushDue PublishBatch <;> simp only [stepProducer, hd] at h <;> cases h
    · exact .notDue hd
    · exact .due hd
  | publishReader p =>
    cases p <;> cases h
    · exact .readReader
    · exact .storeReader
    · exact .readReaderAgain
    · exact .markReader
  | publishWriter r p =>
    cases p <;> cases h
    · exact .readWriter
    · exact .storeWriter
    · exact .readWriterAgain
    · exact .markWriter

theorem stepConsumer_move {c c' : ConsumerPc α κ}
    (h : stepConsumer PublishBatch k q c = some (q', c', e)) :
    ConsumerMove PublishBatch k q c q' c' e := by
  cases c with
  | idle last => cases h
  | emptyCheck =>
    cases hf : q.isEmpty <;> simp only [stepConsumer, hf] at h <;> cases h
    · exact .element hf
    · exact .drained hf
  | loadWriter =>
    obtain ⟨p, hp, h⟩ := Option.map_eq_some_iff.mp h
    cases h
    exact .load hp
  | emptyRecheck =>
    cases hf : q.isEmpty <;> simp only [stepConsumer, hf] at h <;> cases h
    · exact .elementNow hf
    · exact .refuse hf
  | readSlot => cases h; exact .read
  | increment data => cases h; exact .increment
  | batchCheck data =>
    cases hd : q.popDue PublishBatch <;> simp only [stepConsumer, hd] at h <;> cases h
    · exact .notDue hd
    · exact .due hd
  | publishReader r p =>
    cases p with
    | read => cases h; exact .readReader
    | store x => cases h; exact .storeReader
    | readAgain => cases h; exact .readReaderAgain
    | mark x =>
      cases r <;> cases h
      · exact .markReader
      · exact .markReaderFlush
  | publishWriter p =>
    cases p <;> cases h
    · exact .readWriter
    · exact .storeWriter
    · exact .readWriterAgain
    · exact .markWriter

/-- **Every step is one of the moves.** -/
theorem step_move {s s' : State α κ} {a : Act α} (h : (spsc PublishBatch).step s a = some (s', e)) :
    Move PublishBatch s a s' e := by
  obtain ⟨q, p, c⟩ := s
  cases a with
  | push data =>
    cases p <;> cases h
    exact .push
  | producerFlush =>
    cases p <;> cases h
    exact .producerFlush
  | producer k =>
    obtain ⟨⟨q', p', e'⟩, hm, h⟩ := Option.map_eq_some_iff.mp h
    cases h
    exact .producer (stepProducer_move hm)
  | pop =>
    cases c <;> cases h
    exact .pop
  | consumerFlush =>
    cases c <;> cases h
    exact .consumerFlush
  | consumer k =>
    obtain ⟨⟨q', c', e'⟩, hm, h⟩ := Option.map_eq_some_iff.mp h
    cases h
    exact .consumer (stepConsumer_move hm)
  | flush =>
    obtain ⟨hq, h⟩ := Option.ite_none_right_eq_some.mp h
    obtain ⟨l, l', rfl, rfl⟩ := State.quiet_iff.mp hq
    cases h
    exact .flush
  | size =>
    obtain ⟨hq, h⟩ := Option.ite_none_right_eq_some.mp h
    obtain ⟨l, l', rfl, rfl⟩ := State.quiet_iff.mp hq
    cases h
    exact .size
  | empty =>
    obtain ⟨hq, h⟩ := Option.ite_none_right_eq_some.mp h
    obtain ⟨l, l', rfl, rfl⟩ := State.quiet_iff.mp hq
    cases h
    exact .empty

/-- The start of a push. -/
theorem step_push {s s' : State α κ} {data : α}
    (h : (spsc PublishBatch).step s (.push data) = some (s', e)) :
    e = [] ∧ s'.producer = .fullCheck data ∧ s'.consumer = s.consumer := by
  cases step_move h with
  | push => exact ⟨rfl, rfl, rfl⟩

/-- The start of a pop. -/
theorem step_pop {s s' : State α κ} (h : (spsc PublishBatch).step s .pop = some (s', e)) :
    e = [] ∧ s'.consumer = .emptyCheck ∧ s'.producer = s.producer := by
  cases step_move h with
  | pop => exact ⟨rfl, rfl, rfl⟩

/-- A step inside a call of the producer is a move of the producer. -/
theorem step_producer_move {s s' : State α κ}
    (h : (spsc PublishBatch).step s (.producer k) = some (s', e)) :
    ProducerMove PublishBatch k s.q s.producer s'.q s'.producer e ∧ s'.consumer = s.consumer := by
  cases step_move h with
  | producer hm => exact ⟨hm, rfl⟩

/-- A step inside a call of the consumer is a move of the consumer. -/
theorem step_consumer_move {s s' : State α κ}
    (h : (spsc PublishBatch).step s (.consumer k) = some (s', e)) :
    ConsumerMove PublishBatch k s.q s.consumer s'.q s'.consumer e ∧ s'.producer = s.producer := by
  cases step_move h with
  | consumer hm => exact ⟨hm, rfl⟩

/-! ## Every move is a step -/

theorem stepProducer_of_move {p p' : ProducerPc α κ}
    (hm : ProducerMove PublishBatch k q p q' p' e) :
    stepProducer PublishBatch k q p = some (q', p', e) := by
  cases hm with
  | full hf | room hf | refuse hf | roomNow hf => simp [stepProducer, hf]
  | load hl => simp [stepProducer, hl]
  | due hd | notDue hd => simp [stepProducer, hd]
  | _ => rfl

theorem stepConsumer_of_move {c c' : ConsumerPc α κ}
    (hm : ConsumerMove PublishBatch k q c q' c' e) :
    stepConsumer PublishBatch k q c = some (q', c', e) := by
  cases hm with
  | drained hf | element hf | refuse hf | elementNow hf => simp [stepConsumer, hf]
  | load hl => simp [stepConsumer, hl]
  | due hd | notDue hd => simp [stepConsumer, hd]
  | _ => rfl

/-- **Every move is a step.** -/
theorem step_of_move {s s' : State α κ} {a : Act α} (hm : Move PublishBatch s a s' e) :
    (spsc PublishBatch).step s a = some (s', e) := by
  cases hm with
  | producer hm => simp [spsc, step, stepProducer_of_move hm]
  | consumer hm => simp [spsc, step, stepConsumer_of_move hm]
  | _ => rfl

/-! ## The capacity -/

theorem ProducerMove.capacity {p p' : ProducerPc α κ}
    (hm : ProducerMove PublishBatch k q p q' p' e) : q'.capacity = q.capacity := by
  cases hm <;> rfl

theorem ConsumerMove.capacity {c c' : ConsumerPc α κ}
    (hm : ConsumerMove PublishBatch k q c q' c' e) : q'.capacity = q.capacity := by
  cases hm <;> rfl

theorem Move.capacity {s s' : State α κ} {a : Act α} (hm : Move PublishBatch s a s' e) :
    s'.q.capacity = s.q.capacity := by
  cases hm with
  | producer hm => exact hm.capacity
  | consumer hm => exact hm.capacity
  | _ => rfl

/-- No run changes the capacity. -/
theorem reach_capacity {ok : State α κ → Act α → Prop} {s₀ s : State α κ} {es : List (Event α κ)}
    (h : (spsc PublishBatch).Reach ok s₀ s es) : s.q.capacity = s₀.q.capacity :=
  h.invariant (P := fun s _ => s.q.capacity = s₀.q.capacity) rfl
    fun _ _ _ _ _ ih _ hst => (step_move hst).capacity.trans ih

end FastQ
