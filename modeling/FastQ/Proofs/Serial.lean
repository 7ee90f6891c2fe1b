import FastQ.Proofs.History

/-!
# One call at a time

A script: calls of `push`, `pop` and `flush` of which only one is in progress at a time, each load
returning the newest value (`State.serial`). The party that is in a call then knows more of the
other one than in an arbitrary run: what it has read from the other's counters is still there
(`ProducerAlone`, `ConsumerAlone`), and a counter is only published when a full batch is due, when
the call fails or by a `flush`. `Serial` is what holds in every state of a script.
-/

namespace FastQ

variable {α : Type}

/-! ## Scripts -/

/-- The step starts a `push`, a `pop` or a `flush` while no call is in progress, or goes on with a
call, loading the newest value. -/
def State.serial {κ : Type} (s : State α κ) : Act α → Bool
  | .push _ | .pop | .producerFlush | .consumerFlush | .flush => s.quiet
  | .producer k | .consumer k => k == 0
  | .size | .empty => false

/-- The start of a `flush`. -/
def Act.flushes : Act α → Bool
  | .producerFlush | .consumerFlush | .flush => true
  | _ => false

/-! ## What a call knows when it runs alone -/

variable {PublishBatch B k : Nat} {q q' : SPSC α Nat} {e : List (Event α Nat)}
  {p p' : ProducerPc α Nat} {c c' : ConsumerPc α Nat}

/-- What the producer knows where it is, if the consumer is idle. -/
def ProducerAlone (B : Nat) (q : SPSC α Nat) : ProducerPc α Nat → Prop
  | .loadReader _ => q.isFull = true
  | .fullRecheck _ | .publishWriter (.push false) _ => q.producer.cachedReader = q.reader.value
  | .batchCheck => q.producer.lastPublished < q.producer.localWriter
  | .publishWriter (.push true) .read | .publishWriter (.push true) (.store _) =>
    q.producer.lastPublished + B ≤ q.producer.localWriter
  | .publishReader (.mark x) => x = q.consumer.localReader
  | _ => True

/-- What the consumer knows where it is, if the producer is idle. -/
def ConsumerAlone (B : Nat) (q : SPSC α Nat) : ConsumerPc α Nat → Prop
  | .loadWriter => q.isEmpty = true
  | .emptyRecheck | .publishReader (.pop none) _ => q.consumer.cachedWriter = q.writer.value
  | .batchCheck _ => q.consumer.lastPublished < q.consumer.localReader
  | .publishReader (.pop (some _)) .read | .publishReader (.pop (some _)) (.store _) =>
    q.consumer.lastPublished + B ≤ q.consumer.localReader
  | .publishWriter (.mark x) => x = q.producer.localWriter
  | _ => True

theorem ProducerMove.alone (hm : ProducerMove PublishBatch 0 q p q' p' e) (ho : Ordered q)
    (h : ProducerAlone (max PublishBatch 1) q p) : ProducerAlone (max PublishBatch 1) q' p' := by
  cases hm with
  | full hf => exact hf
  | load hl =>
    rw [Atomic.load_zero] at hl
    cases hl
    exact rfl
  | refuse => exact h
  | increment => exact Nat.lt_succ_of_le ho.producer_mark
  | due hd =>
    have hlt : q.producer.lastPublished < q.producer.localWriter := h
    have hle : PublishBatch ≤ q.producer.localWriter - q.producer.lastPublished :=
      of_decide_eq_true hd
    show q.producer.lastPublished + max PublishBatch 1 ≤ q.producer.localWriter
    omega
  | readReaderAgain => exact rfl
  | @readWriter r | @storeWriter r | @readWriterAgain r =>
    rcases r with ⟨_ | _⟩ | _ <;> first | exact h | trivial
  | _ => trivial

theorem ConsumerMove.alone (hm : ConsumerMove PublishBatch 0 q c q' c' e) (ho : Ordered q)
    (h : ConsumerAlone (max PublishBatch 1) q c) : ConsumerAlone (max PublishBatch 1) q' c' := by
  cases hm with
  | drained hf => exact hf
  | load hl =>
    rw [Atomic.load_zero] at hl
    cases hl
    exact rfl
  | refuse => exact h
  | increment => exact Nat.lt_succ_of_le ho.consumer_mark
  | due hd =>
    have hlt : q.consumer.lastPublished < q.consumer.localReader := h
    have hle : PublishBatch ≤ q.consumer.localReader - q.consumer.lastPublished :=
      of_decide_eq_true hd
    show q.consumer.lastPublished + max PublishBatch 1 ≤ q.consumer.localReader
    omega
  | readWriterAgain => exact rfl
  | @readReader r | @storeReader r | @readReaderAgain r =>
    rcases r with ⟨_ | _⟩ | _ <;> first | exact h | trivial
  | _ => trivial

/-- One call at a time: one of the parties is idle, and the other one knows what it knows alone. -/
structure Alone (B : Nat) (s : State α Nat) : Prop where
  idle : (∃ l, s.producer = .idle l) ∨ ∃ l, s.consumer = .idle l
  producer : ProducerAlone B s.q s.producer
  consumer : ConsumerAlone B s.q s.consumer

/-- A producer that makes a step is not idle, so the consumer is. -/
theorem Alone.consumer_idle (h : Alone B ⟨q, p, c⟩)
    (hm : ProducerMove PublishBatch k q p q' p' e) : ∃ l, c = .idle l := by
  rcases h.idle with ⟨l, hl⟩ | hc
  · obtain rfl : p = .idle l := hl
    cases hm
  · exact hc

/-- A consumer that makes a step is not idle, so the producer is. -/
theorem Alone.producer_idle (h : Alone B ⟨q, p, c⟩)
    (hm : ConsumerMove PublishBatch k q c q' c' e) : ∃ l, p = .idle l := by
  rcases h.idle with hp | ⟨l, hl⟩
  · exact hp
  · obtain rfl : c = .idle l := hl
    cases hm

variable {s s' : State α Nat} {a : Act α}

/-- The step lemma of `Alone`. -/
theorem Move.alone (hm : Move PublishBatch s a s' e) (ha : s.serial a = true) (ho : Ordered s.q)
    (h : Alone (max PublishBatch 1) s) : Alone (max PublishBatch 1) s' := by
  cases hm with
  | push | producerFlush =>
    obtain ⟨-, l, -, rfl⟩ := State.quiet_iff.mp ha
    exact ⟨.inr ⟨l, rfl⟩, trivial, trivial⟩
  | producer hm =>
    obtain rfl : _ = 0 := beq_iff_eq.mp ha
    obtain ⟨l, rfl⟩ := h.consumer_idle hm
    exact ⟨.inr ⟨l, rfl⟩, hm.alone ho h.producer, trivial⟩
  | pop | consumerFlush =>
    obtain ⟨l, -, rfl, -⟩ := State.quiet_iff.mp ha
    exact ⟨.inl ⟨l, rfl⟩, trivial, trivial⟩
  | consumer hm =>
    obtain rfl : _ = 0 := beq_iff_eq.mp ha
    obtain ⟨l, rfl⟩ := h.producer_idle hm
    exact ⟨.inl ⟨l, rfl⟩, trivial, hm.alone ho h.consumer⟩
  | flush => exact ⟨.inl ⟨_, rfl⟩, trivial, trivial⟩
  | size | empty => cases ha

theorem State.serial_wrap (s : State α Nat) (a : Act α) : s.wrap.serial a = s.serial a := by
  cases a <;> first | rfl | exact quiet_wrap s

/-- What holds in every state of a script. -/
def Serial (B : Nat) (s : State α Nat) : Prop := Inv s ∧ Alone B s

theorem Move.serial (hm : Move PublishBatch s a s' e) (ha : s.serial a = true)
    (h : Serial (max PublishBatch 1) s) : Serial (max PublishBatch 1) s' :=
  ⟨hm.inv h.1, hm.alone ha h.1.ordered h.2⟩

end FastQ
