import FastQ.Proofs.Publication

/-!
# How far a shared counter lags behind

While only the parties' own calls publish (no `flush` by the other party is under way), each mark
`lastPublished` is the shared counter, but for the moment between the store and the update of the
mark, and the local counter is less than a batch ahead of it between two calls. Inside a call that
has advanced the local counter, it may be a whole batch ahead.

A batch of zero acts like one of one: the bound is `max PublishBatch 1`.
-/

namespace FastQ

variable {α : Type}

/-- The call has stored `writer_`, and not updated the mark yet. -/
def ProducerPc.stored {κ : Type} : ProducerPc α κ → Bool
  | .publishWriter _ .readAgain | .publishWriter _ (.mark _) => true
  | _ => false

/-- The call has stored `reader_`, and not updated the mark yet. -/
def ConsumerPc.stored {κ : Type} : ConsumerPc α κ → Bool
  | .publishReader _ .readAgain | .publishReader _ (.mark _) => true
  | _ => false

/-- The lag of `writer_`. -/
structure ProducerLag (PublishBatch : Nat) (q : SPSC α Nat) (p : ProducerPc α Nat) : Prop where
  lag : q.producer.localWriter + (if p.advanced then 0 else 1) ≤
    q.producer.lastPublished + max PublishBatch 1
  published : q.writer.value =
    if p.stored then q.producer.localWriter else q.producer.lastPublished

/-- The lag of `reader_`. -/
structure ConsumerLag (PublishBatch : Nat) (q : SPSC α Nat) (c : ConsumerPc α Nat) : Prop where
  lag : q.consumer.localReader + (if c.advanced then 0 else 1) ≤
    q.consumer.lastPublished + max PublishBatch 1
  published : q.reader.value =
    if c.stored then q.consumer.localReader else q.consumer.lastPublished

/-- The lags of both shared counters. -/
structure Lag (PublishBatch : Nat) (s : State α Nat) : Prop where
  producer : ProducerLag PublishBatch s.q s.producer
  consumer : ConsumerLag PublishBatch s.q s.consumer

variable {PublishBatch k : Nat} {q q' : SPSC α Nat} {e : List (Event α Nat)}

/-- `writer_` is at least the mark. -/
theorem ProducerLag.mark_le {p : ProducerPc α Nat} (h : ProducerLag PublishBatch q p)
    (ho : Ordered q) : q.producer.lastPublished ≤ q.writer.value := by
  have := ho.producer_mark
  rw [h.published]
  split <;> omega

/-- `localWriter` is at most a batch ahead of `writer_`. -/
theorem ProducerLag.le {p : ProducerPc α Nat} (h : ProducerLag PublishBatch q p) (ho : Ordered q) :
    q.producer.localWriter ≤ q.writer.value + max PublishBatch 1 := by
  have hlag := Nat.le_of_add_right_le h.lag
  have := h.mark_le ho
  omega

/-- Where the call has not advanced, `localWriter` is less than a batch ahead of `writer_`. -/
theorem ProducerLag.lt {p : ProducerPc α Nat} (h : ProducerLag PublishBatch q p) (ho : Ordered q)
    (hp : p.advanced = false) : q.producer.localWriter < q.writer.value + max PublishBatch 1 := by
  have hlag := h.lag
  have := h.mark_le ho
  rw [hp] at hlag
  simp only [Bool.false_eq_true, ↓reduceIte] at hlag
  omega

/-- `reader_` is at least the mark. -/
theorem ConsumerLag.mark_le {c : ConsumerPc α Nat} (h : ConsumerLag PublishBatch q c)
    (ho : Ordered q) : q.consumer.lastPublished ≤ q.reader.value := by
  have := ho.consumer_mark
  rw [h.published]
  split <;> omega

/-- `localReader` is at most a batch ahead of `reader_`. -/
theorem ConsumerLag.le {c : ConsumerPc α Nat} (h : ConsumerLag PublishBatch q c) (ho : Ordered q) :
    q.consumer.localReader ≤ q.reader.value + max PublishBatch 1 := by
  have hlag := Nat.le_of_add_right_le h.lag
  have := h.mark_le ho
  omega

/-- Where the call has not advanced, `localReader` is less than a batch ahead of `reader_`. -/
theorem ConsumerLag.lt {c : ConsumerPc α Nat} (h : ConsumerLag PublishBatch q c) (ho : Ordered q)
    (hc : c.advanced = false) : q.consumer.localReader < q.reader.value + max PublishBatch 1 := by
  have hlag := h.lag
  have := h.mark_le ho
  rw [hc] at hlag
  simp only [Bool.false_eq_true, ↓reduceIte] at hlag
  omega

/-- The pushes that have returned are less than a batch ahead of `writer_`. -/
theorem ProducerLag.returned {p : ProducerPc α Nat} {n : Nat} (h : ProducerLag PublishBatch q p)
    (ho : Ordered q) (hn : q.producer.localWriter = n + if p.advanced then 1 else 0) :
    n < q.writer.value + max PublishBatch 1 := by
  have hlag := h.lag
  have := h.mark_le ho
  split at hlag <;> rename_i ha <;> simp only [ha, ↓reduceIte] at hn <;> omega

/-- The pops that have returned are less than a batch ahead of `reader_`. -/
theorem ConsumerLag.returned {c : ConsumerPc α Nat} {n : Nat} (h : ConsumerLag PublishBatch q c)
    (ho : Ordered q) (hn : q.consumer.localReader = n + if c.advanced then 1 else 0) :
    n < q.reader.value + max PublishBatch 1 := by
  have hlag := h.lag
  have := h.mark_le ho
  split at hlag <;> rename_i ha <;> simp only [ha, ↓reduceIte] at hn <;> omega

theorem ProducerMove.producerLag {p p' : ProducerPc α Nat}
    (hm : ProducerMove PublishBatch k q p q' p' e) (hcalm : p.flushing = false)
    (hp : ProducerOk q p) (h : ProducerLag PublishBatch q p) : ProducerLag PublishBatch q' p' := by
  obtain ⟨hlag, hpub⟩ := h
  cases hm with
  | increment => exact ⟨hlag, hpub⟩
  | notDue hd =>
    have hlt : ¬ PublishBatch ≤ q.producer.localWriter - q.producer.lastPublished :=
      of_decide_eq_false hd
    refine ⟨?_, hpub⟩
    show q.producer.localWriter + 1 ≤ _
    omega
  | @storeWriter r x =>
    have hx : x = q.producer.localWriter := hp
    exact ⟨hlag, hx⟩
  | @markWriter r x =>
    have hx : x = q.producer.localWriter := hp
    refine ⟨?_, hpub.trans hx.symm⟩
    show q.producer.localWriter + 1 ≤ x + max PublishBatch 1
    omega
  | readReader | storeReader | readReaderAgain | markReader => cases hcalm
  | _ => exact ⟨hlag, hpub⟩

theorem ConsumerMove.producerLag {p : ProducerPc α Nat} {c c' : ConsumerPc α Nat}
    (hm : ConsumerMove PublishBatch k q c q' c' e) (hcalm : c.flushing = false)
    (h : ProducerLag PublishBatch q p) : ProducerLag PublishBatch q' p := by
  obtain ⟨hlag, hpub⟩ := h
  cases hm with
  | load hl => exact ⟨hlag, (Atomic.load_value hl).trans hpub⟩
  | readWriter | storeWriter | readWriterAgain | markWriter => cases hcalm
  | _ => exact ⟨hlag, hpub⟩

theorem ConsumerMove.consumerLag {c c' : ConsumerPc α Nat}
    (hm : ConsumerMove PublishBatch k q c q' c' e) (hcalm : c.flushing = false)
    (hc : ConsumerOk q c) (h : ConsumerLag PublishBatch q c) : ConsumerLag PublishBatch q' c' := by
  obtain ⟨hlag, hpub⟩ := h
  cases hm with
  | notDue hd =>
    have hlt : ¬ PublishBatch ≤ q.consumer.localReader - q.consumer.lastPublished :=
      of_decide_eq_false hd
    refine ⟨?_, hpub⟩
    show q.consumer.localReader + 1 ≤ _
    omega
  | @storeReader r x =>
    have hx : x = q.consumer.localReader := hc
    exact ⟨hlag, hx⟩
  | @markReader r x =>
    have hx : x = q.consumer.localReader := hc
    refine ⟨?_, hpub.trans hx.symm⟩
    show q.consumer.localReader + 1 ≤ x + max PublishBatch 1
    omega
  | markReaderFlush | readWriter | storeWriter | readWriterAgain | markWriter => cases hcalm
  | _ => exact ⟨hlag, hpub⟩

theorem ProducerMove.consumerLag {p p' : ProducerPc α Nat} {c : ConsumerPc α Nat}
    (hm : ProducerMove PublishBatch k q p q' p' e) (hcalm : p.flushing = false)
    (h : ConsumerLag PublishBatch q c) : ConsumerLag PublishBatch q' c := by
  obtain ⟨hlag, hpub⟩ := h
  cases hm with
  | load hl => exact ⟨hlag, (Atomic.load_value hl).trans hpub⟩
  | readReader | storeReader | readReaderAgain | markReader => cases hcalm
  | _ => exact ⟨hlag, hpub⟩

/-- The step lemma: a step of a calm run keeps the lags. -/
theorem Move.lag {s s' : State α Nat} {a : Act α} (hm : Move PublishBatch s a s' e)
    (ha : a.calm = true) (hi : Inv s) (hc : Calm s) (h : Lag PublishBatch s) :
    Lag PublishBatch s' := by
  cases hm with
  | push => exact ⟨⟨h.producer.lag, h.producer.published⟩, h.consumer⟩
  | producerFlush => cases ha
  | producer hm =>
    exact ⟨hm.producerLag hc.producer hi.producer h.producer, hm.consumerLag hc.producer h.consumer⟩
  | pop => exact ⟨h.producer, ⟨h.consumer.lag, h.consumer.published⟩⟩
  | consumerFlush => cases ha
  | consumer hm =>
    exact ⟨hm.producerLag hc.consumer h.producer, hm.consumerLag hc.consumer hi.consumer h.consumer⟩
  | flush =>
    refine ⟨⟨?_, rfl⟩, ⟨?_, rfl⟩⟩ <;> exact Nat.add_le_add_left (Nat.le_max_right _ _) _
  | size => exact h
  | empty => exact h

theorem new_lag {capacity : Nat} {memory : Nat → α} (h : SPSC.new capacity memory = .ok q) :
    Lag PublishBatch (State.start q) := by
  obtain ⟨rfl, -⟩ := SPSC.new_eq h
  refine ⟨⟨?_, rfl⟩, ⟨?_, rfl⟩⟩ <;> exact Nat.add_le_add_left (Nat.le_max_right _ _) _

/-- The invariants of a calm run, together. -/
structure Steady (PublishBatch : Nat) (s : State α Nat) : Prop where
  near : Near s
  calm : Calm s
  kept : Kept s
  lag : Lag PublishBatch s

theorem new_steady {capacity : Nat} {memory : Nat → α} (h : SPSC.new capacity memory = .ok q)
    (hn : Near (State.start q)) : Steady PublishBatch (State.start q) :=
  ⟨hn, ⟨rfl, rfl⟩, start_kept q, new_lag h⟩

theorem Move.steady {s s' : State α Nat} {a : Act α} (hm : Move PublishBatch s a s' e)
    (hB : PublishBatch < 2 ^ 64) (ha : a.calm = true) (h : Steady PublishBatch s) :
    Steady PublishBatch s' :=
  ⟨hm.near hB h.near, hm.calm ha h.calm, (hm.kept h.near.inv h.kept (h.calm.unraced a)).1,
    hm.lag ha h.near.inv h.calm h.lag⟩

/-- The run lemma. -/
theorem reach_steady {ok : State α Nat → Act α → Prop} {capacity : Nat} {memory : Nat → α}
    {q₀ : SPSC α Nat} {s : State α Nat} {es : List (Event α Nat)} (hB : PublishBatch < 2 ^ 64)
    (hq : SPSC.new capacity memory = .ok q₀) (hn : Near (State.start q₀))
    (h : (spsc PublishBatch).Reach ok (State.start q₀) s es)
    (hok : ∀ s a, ok s a → a.calm = true) : Steady PublishBatch s :=
  h.invariant (P := fun s _ => Steady PublishBatch s) (new_steady hq hn)
    fun _ _ _ _ _ hs ha hst => (step_move hst).steady hB (hok _ _ ha) hs

end FastQ
