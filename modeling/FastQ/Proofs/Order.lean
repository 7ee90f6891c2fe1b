import FastQ.Lib.Counter
import FastQ.Lib.Ring
import FastQ.Queue.Moves

/-!
# The order of the counters

The invariant of the queue, on unbounded counters, in every run of the two parties: all
interleavings, stale loads, and calls of `flush` by either party at any time. In words, for the
values that the counters have and for those that a party holds but has not stored yet:

`cachedReader ≤ reader ≤ localReader ≤ cachedWriter ≤ writer ≤ localWriter ≤ cachedReader +
capacity`

* `Shape`: the capacity is a power of two and the mask is one less; no step changes them.
* `Ordered`: the chain, for all values of the shared counters that their loading party may still
  see, and the marks `lastPublished_`. A store by `flush` of the other party's counter may lower the
  shared value, but never below what the loading party has cached: `flush` runs on the thread of the
  loading party, whose cache does not change between the read and the store.
* `ProducerOk`, `ConsumerOk`: what a party has established where it is in its call.
* `ByProducer`, `ByConsumer`: what a step of one party does not change for the other one. Each
  party's part of the invariant is kept by its own moves, and is stable under the other's.
-/

namespace FastQ

variable {α : Type}

/-! ## The invariant -/

/-- The capacity is a power of two, and the mask is one less. -/
structure Shape (q : SPSC α Nat) : Prop where
  pow : q.capacity.isPowerOfTwo
  mask : q.mask = q.capacity - 1

/-- The order of the counters (module doc). -/
structure Ordered (q : SPSC α Nat) : Prop where
  reader_sorted : q.reader.visible.Pairwise (· ≥ ·)
  reader_mem : ∀ x ∈ q.reader.visible, q.producer.cachedReader ≤ x ∧ x ≤ q.consumer.localReader
  writer_sorted : q.writer.visible.Pairwise (· ≥ ·)
  writer_mem : ∀ x ∈ q.writer.visible, q.consumer.cachedWriter ≤ x ∧ x ≤ q.producer.localWriter
  reader_le : q.consumer.localReader ≤ q.consumer.cachedWriter
  writer_le : q.producer.localWriter ≤ q.producer.cachedReader + q.capacity
  producer_mark : q.producer.lastPublished ≤ q.producer.localWriter
  consumer_mark : q.consumer.lastPublished ≤ q.consumer.localReader

/-- What the producer knows where it is. -/
def ProducerOk (q : SPSC α Nat) : ProducerPc α Nat → Prop
  | .writeSlot _ => q.producer.localWriter < q.producer.cachedReader + q.capacity
  | .increment data =>
    q.producer.localWriter < q.producer.cachedReader + q.capacity ∧ q.buffer q.writeIndex = data
  | .publishReader (.store x) | .publishReader (.mark x) =>
    q.producer.cachedReader ≤ x ∧ x ≤ q.consumer.localReader
  | .publishWriter _ (.store x) | .publishWriter _ (.mark x) => x = q.producer.localWriter
  | _ => True

/-- What the consumer knows where it is. -/
def ConsumerOk (q : SPSC α Nat) : ConsumerPc α Nat → Prop
  | .readSlot => q.consumer.localReader < q.consumer.cachedWriter
  | .increment data => q.consumer.localReader < q.consumer.cachedWriter ∧ q.readSlot = data
  | .publishReader _ (.store x) | .publishReader _ (.mark x) => x = q.consumer.localReader
  | .publishWriter (.store x) | .publishWriter (.mark x) =>
    q.consumer.cachedWriter ≤ x ∧ x ≤ q.producer.localWriter
  | _ => True

/-- A producer at a slot has room. -/
theorem ProducerOk.room {q : SPSC α Nat} {p : ProducerPc α Nat} (h : ProducerOk q p)
    (ha : p.atSlot = true) : q.producer.localWriter < q.producer.cachedReader + q.capacity := by
  cases p with
  | writeSlot data => exact h
  | increment data => exact h.1
  | _ => cases ha

/-- A consumer at a slot has an element. -/
theorem ConsumerOk.element {q : SPSC α Nat} {c : ConsumerPc α Nat} (h : ConsumerOk q c)
    (ha : c.atSlot = true) : q.consumer.localReader < q.consumer.cachedWriter := by
  cases c with
  | readSlot => exact h
  | increment data => exact h.1
  | _ => cases ha

/-- The invariant of the queue and its two parties. -/
structure Inv (s : State α Nat) : Prop where
  shape : Shape s.q
  ordered : Ordered s.q
  producer : ProducerOk s.q s.producer
  consumer : ConsumerOk s.q s.consumer

namespace Shape

variable {q : SPSC α Nat}

theorem pos (h : Shape q) : 0 < q.capacity := Nat.pos_of_isPowerOfTwo h.pow

theorem writeIndex_eq (h : Shape q) : q.writeIndex = q.producer.localWriter % q.capacity := by
  unfold SPSC.writeIndex
  rw [h.mask, Counter.land_pred h.pow]

theorem readIndex_eq (h : Shape q) : q.readIndex = q.consumer.localReader % q.capacity := by
  unfold SPSC.readIndex
  rw [h.mask, Counter.land_pred h.pow]

end Shape

namespace Ordered

variable {q : SPSC α Nat}

theorem cachedReader_le (h : Ordered q) : q.producer.cachedReader ≤ q.reader.value :=
  (h.reader_mem _ List.mem_cons_self).1

theorem reader_le_local (h : Ordered q) : q.reader.value ≤ q.consumer.localReader :=
  (h.reader_mem _ List.mem_cons_self).2

theorem cachedWriter_le (h : Ordered q) : q.consumer.cachedWriter ≤ q.writer.value :=
  (h.writer_mem _ List.mem_cons_self).1

theorem writer_le_local (h : Ordered q) : q.writer.value ≤ q.producer.localWriter :=
  (h.writer_mem _ List.mem_cons_self).2

/-- At most `capacity` elements are accepted and not popped. -/
theorem local_le (h : Ordered q) :
    q.consumer.localReader ≤ q.producer.localWriter ∧
      q.producer.localWriter ≤ q.consumer.localReader + q.capacity := by
  have := h.cachedReader_le
  have := h.reader_le_local
  have := h.cachedWriter_le
  have := h.writer_le_local
  have := h.reader_le
  have := h.writer_le
  omega

end Ordered

/-! ## Loads and stores of a sorted counter -/

namespace Atomic

variable {a : Atomic Nat} {p : Nat × Atomic Nat} {k x : Nat}

theorem load_visible (h : a.load k = some p) :
    a.visible[k]? = some p.1 ∧ p.2.visible = a.visible.take (k + 1) := by
  obtain ⟨x, hx, rfl⟩ := Option.map_eq_some_iff.mp h
  exact ⟨hx, rfl⟩

/-- The value loaded may still be seen, and was visible before; nothing new is. -/
theorem load_mem (h : a.load k = some p) :
    p.1 ∈ a.visible ∧ ∀ y ∈ p.2.visible, y ∈ a.visible := by
  obtain ⟨hx, hv⟩ := load_visible h
  rw [hv]
  exact ⟨List.mem_of_getElem? hx, fun y hy => List.mem_of_mem_take hy⟩

/-- In a sorted counter the value loaded is the least that may still be seen. -/
theorem load_sorted (h : a.load k = some p) (hs : a.visible.Pairwise (· ≥ ·)) :
    p.2.visible.Pairwise (· ≥ ·) ∧ ∀ y ∈ p.2.visible, p.1 ≤ y := by
  obtain ⟨hx, hv⟩ := load_visible h
  refine ⟨hv ▸ hs.sublist (List.take_sublist _ _), fun y hy => ?_⟩
  rw [hv, List.mem_take_iff_getElem] at hy
  obtain ⟨j, hj, rfl⟩ := hy
  obtain ⟨hk, hx⟩ := List.getElem?_eq_some_iff.mp hx
  rw [← hx]
  rcases Nat.lt_or_ge j k with hlt | hge
  · exact List.pairwise_iff_getElem.mp hs j k _ hk hlt
  · have : j = k := by omega
    subst this
    exact Nat.le_refl _

theorem store_sorted (hs : a.visible.Pairwise (· ≥ ·)) (hx : ∀ y ∈ a.visible, y ≤ x) :
    (a.store x).visible.Pairwise (· ≥ ·) :=
  List.pairwise_cons.mpr ⟨hx, hs⟩

end Atomic

/-! ## The producer's moves -/

/-- What a step of the producer leaves for the consumer. -/
structure ByProducer (q q' : SPSC α Nat) : Prop where
  localReader : q'.consumer.localReader = q.consumer.localReader
  cachedWriter : q'.consumer.cachedWriter = q.consumer.cachedWriter
  localWriter : q.producer.localWriter ≤ q'.producer.localWriter
  slot : q.consumer.localReader < q.consumer.cachedWriter → q'.readSlot = q.readSlot

/-- What a step of the consumer leaves for the producer. -/
structure ByConsumer (q q' : SPSC α Nat) : Prop where
  localWriter : q'.producer.localWriter = q.producer.localWriter
  cachedReader : q'.producer.cachedReader = q.producer.cachedReader
  localReader : q.consumer.localReader ≤ q'.consumer.localReader
  buffer : q'.buffer = q.buffer
  capacity : q'.capacity = q.capacity
  mask : q'.mask = q.mask

variable {PublishBatch k : Nat} {q q' : SPSC α Nat} {e : List (Event α Nat)}

theorem ByProducer.refl (q : SPSC α Nat) : ByProducer q q := ⟨rfl, rfl, Nat.le_refl _, fun _ => rfl⟩

theorem ByConsumer.refl (q : SPSC α Nat) : ByConsumer q q :=
  ⟨rfl, rfl, Nat.le_refl _, rfl, rfl, rfl⟩

/-- The producer writes a slot that does not hold the consumer's next element. -/
theorem slot_ne (hs : Shape q) (ho : Ordered q)
    (hw : q.producer.localWriter < q.producer.cachedReader + q.capacity)
    (hr : q.consumer.localReader < q.consumer.cachedWriter) : q.readIndex ≠ q.writeIndex := by
  have := ho.cachedReader_le
  have := ho.reader_le_local
  have := ho.cachedWriter_le
  have := ho.writer_le_local
  rw [hs.writeIndex_eq, hs.readIndex_eq]
  exact Ring.mod_ne (by omega) (by omega)

theorem ProducerMove.shape {p p' : ProducerPc α Nat} (hm : ProducerMove PublishBatch k q p q' p' e)
    (hs : Shape q) : Shape q' := by
  cases hm <;> exact ⟨hs.pow, hs.mask⟩

theorem ProducerMove.byProducer {p p' : ProducerPc α Nat}
    (hm : ProducerMove PublishBatch k q p q' p' e) (hs : Shape q) (ho : Ordered q)
    (hp : ProducerOk q p) : ByProducer q q' := by
  cases hm with
  | write =>
    refine ⟨rfl, rfl, Nat.le_refl _, fun hr => ?_⟩
    exact Function.update_of_ne (slot_ne hs ho hp hr) _ _
  | increment => exact ⟨rfl, rfl, Nat.le_succ _, fun _ => rfl⟩
  | _ => exact ⟨rfl, rfl, Nat.le_refl _, fun _ => rfl⟩

/-- The producer's moves keep the order of the counters. -/
theorem ProducerMove.ordered {p p' : ProducerPc α Nat}
    (hm : ProducerMove PublishBatch k q p q' p' e) (ho : Ordered q) (hp : ProducerOk q p) :
    Ordered q' := by
  cases hm with
  | load hl =>
    obtain ⟨hmem, hsub⟩ := Atomic.load_mem hl
    obtain ⟨hsort, hmin⟩ := Atomic.load_sorted hl ho.reader_sorted
    have hc := (ho.reader_mem _ hmem).1
    have := ho.writer_le
    refine { ho with reader_sorted := hsort, reader_mem := fun y hy => ?_, writer_le := ?_ }
    · exact ⟨hmin y hy, (ho.reader_mem y (hsub y hy)).2⟩
    · simp only [SPSC.cacheReader]
      omega
  | increment =>
    obtain ⟨hlt, -⟩ := hp
    have := ho.producer_mark
    refine { ho with writer_mem := fun y hy => ?_, writer_le := hlt, producer_mark := ?_ }
    · exact ⟨(ho.writer_mem y hy).1, Nat.le_succ_of_le (ho.writer_mem y hy).2⟩
    · exact Nat.le_succ_of_le this
  | storeReader =>
    refine { ho with reader_sorted := List.pairwise_singleton _ _, reader_mem := fun y hy => ?_ }
    rw [List.mem_singleton.mp hy]
    exact hp
  | markReader => exact { ho with consumer_mark := hp.2 }
  | @storeWriter r x =>
    have hx : x = q.producer.localWriter := hp
    refine { ho with writer_sorted := ?_, writer_mem := fun y hy => ?_ }
    · exact Atomic.store_sorted ho.writer_sorted fun y hy => hx ▸ (ho.writer_mem y hy).2
    · rcases List.mem_cons.mp hy with rfl | hy
      · have := ho.cachedWriter_le
        have := ho.writer_le_local
        exact ⟨by simp only [SPSC.storeWriter]; omega, Nat.le_of_eq hx⟩
      · exact ho.writer_mem y hy
  | markWriter => exact { ho with producer_mark := Nat.le_of_eq hp }
  | write => exact { ho with }
  | _ => exact ho

/-- The producer's moves establish what it knows next. -/
theorem ProducerMove.producerOk {p p' : ProducerPc α Nat}
    (hm : ProducerMove PublishBatch k q p q' p' e) (ho : Ordered q) (hp : ProducerOk q p) :
    ProducerOk q' p' := by
  have hroom : q.isFull = false →
      q.producer.localWriter < q.producer.cachedReader + q.capacity := by
    intro hf
    have := of_decide_eq_false hf
    have := ho.writer_le
    omega
  cases hm with
  | room hf => exact hroom hf
  | roomNow hf => exact hroom hf
  | write => exact ⟨hp, Function.update_self _ _ _⟩
  | readReader | readReaderAgain =>
    have := ho.cachedReader_le
    have := ho.reader_le_local
    exact ⟨by omega, Nat.le_refl _⟩
  | readWriter | readWriterAgain => exact rfl
  | _ => trivial

/-- What the producer knows is stable under the consumer's steps. -/
theorem ProducerOk.stable {p : ProducerPc α Nat} (hp : ProducerOk q p) (h : ByConsumer q q') :
    ProducerOk q' p := by
  have hw := h.localWriter
  have hc := h.cachedReader
  have hr := h.localReader
  have hcap := h.capacity
  cases p with
  | writeSlot data =>
    simp only [ProducerOk] at hp ⊢
    omega
  | increment data =>
    have hi : q'.writeIndex = q.writeIndex := by rw [SPSC.writeIndex, hw, h.mask]; rfl
    simp only [ProducerOk, hi, h.buffer] at hp ⊢
    exact ⟨by omega, hp.2⟩
  | publishReader x =>
    cases x <;> simp only [ProducerOk] at hp ⊢ <;> omega
  | publishWriter r x =>
    cases x <;> simp only [ProducerOk] at hp ⊢ <;> omega
  | _ => trivial

/-! ## The consumer's moves -/

theorem ConsumerMove.shape {c c' : ConsumerPc α Nat} (hm : ConsumerMove PublishBatch k q c q' c' e)
    (hs : Shape q) : Shape q' := by
  cases hm <;> exact ⟨hs.pow, hs.mask⟩

theorem ConsumerMove.byConsumer {c c' : ConsumerPc α Nat}
    (hm : ConsumerMove PublishBatch k q c q' c' e) : ByConsumer q q' := by
  cases hm with
  | increment => exact ⟨rfl, rfl, Nat.le_succ _, rfl, rfl, rfl⟩
  | _ => exact ⟨rfl, rfl, Nat.le_refl _, rfl, rfl, rfl⟩

/-- The consumer's moves keep the order of the counters. -/
theorem ConsumerMove.ordered {c c' : ConsumerPc α Nat}
    (hm : ConsumerMove PublishBatch k q c q' c' e) (ho : Ordered q) (hc : ConsumerOk q c) :
    Ordered q' := by
  cases hm with
  | load hl =>
    obtain ⟨hmem, hsub⟩ := Atomic.load_mem hl
    obtain ⟨hsort, hmin⟩ := Atomic.load_sorted hl ho.writer_sorted
    have hle := (ho.writer_mem _ hmem).1
    refine { ho with writer_sorted := hsort, writer_mem := fun y hy => ?_, reader_le := ?_ }
    · exact ⟨hmin y hy, (ho.writer_mem y (hsub y hy)).2⟩
    · exact Nat.le_trans ho.reader_le hle
  | increment =>
    obtain ⟨hlt, -⟩ := hc
    refine { ho with reader_mem := fun y hy => ?_, reader_le := hlt, consumer_mark := ?_ }
    · exact ⟨(ho.reader_mem y hy).1, Nat.le_succ_of_le (ho.reader_mem y hy).2⟩
    · exact Nat.le_succ_of_le ho.consumer_mark
  | @storeReader r x =>
    have hx : x = q.consumer.localReader := hc
    refine { ho with reader_sorted := ?_, reader_mem := fun y hy => ?_ }
    · exact Atomic.store_sorted ho.reader_sorted fun y hy => hx ▸ (ho.reader_mem y hy).2
    · rcases List.mem_cons.mp hy with rfl | hy
      · have := ho.cachedReader_le
        have := ho.reader_le_local
        exact ⟨by simp only [SPSC.storeReader]; omega, Nat.le_of_eq hx⟩
      · exact ho.reader_mem y hy
  | markReader | markReaderFlush => exact { ho with consumer_mark := Nat.le_of_eq hc }
  | storeWriter =>
    refine { ho with writer_sorted := List.pairwise_singleton _ _, writer_mem := fun y hy => ?_ }
    rw [List.mem_singleton.mp hy]
    exact hc
  | markWriter => exact { ho with producer_mark := hc.2 }
  | _ => exact ho

/-- The consumer's moves establish what it knows next. -/
theorem ConsumerMove.consumerOk {c c' : ConsumerPc α Nat}
    (hm : ConsumerMove PublishBatch k q c q' c' e) (ho : Ordered q) (hc : ConsumerOk q c) :
    ConsumerOk q' c' := by
  have helement : q.isEmpty = false → q.consumer.localReader < q.consumer.cachedWriter := by
    intro hf
    have := of_decide_eq_false hf
    have := ho.reader_le
    omega
  cases hm with
  | element hf => exact helement hf
  | elementNow hf => exact helement hf
  | read => exact ⟨hc, rfl⟩
  | readReader | readReaderAgain => exact rfl
  | readWriter | readWriterAgain =>
    have := ho.cachedWriter_le
    have := ho.writer_le_local
    exact ⟨by omega, Nat.le_refl _⟩
  | _ => trivial

/-- What the consumer knows is stable under the producer's steps. -/
theorem ConsumerOk.stable {c : ConsumerPc α Nat} (hc : ConsumerOk q c) (h : ByProducer q q') :
    ConsumerOk q' c := by
  have hr := h.localReader
  have hcw := h.cachedWriter
  have hw := h.localWriter
  cases c with
  | readSlot =>
    simp only [ConsumerOk] at hc ⊢
    omega
  | increment data =>
    obtain ⟨hlt, rfl⟩ := hc
    exact ⟨by omega, h.slot hlt⟩
  | publishReader r x =>
    cases x <;> simp only [ConsumerOk] at hc ⊢ <;> omega
  | publishWriter x =>
    cases x <;> simp only [ConsumerOk] at hc ⊢ <;> omega
  | _ => trivial

/-! ## Every step keeps the invariant -/

/-- A `flush` while no other call is in progress keeps the order of the counters. -/
theorem Ordered.flush (ho : Ordered q) : Ordered q.flush := by
  have := ho.cachedReader_le
  have := ho.reader_le_local
  have := ho.cachedWriter_le
  have := ho.writer_le_local
  refine ⟨?_, fun y hy => ?_, ?_, fun y hy => ?_, ho.reader_le, ho.writer_le, Nat.le_refl _,
    Nat.le_refl _⟩
  · exact Atomic.store_sorted ho.reader_sorted fun y hy => (ho.reader_mem y hy).2
  · rcases List.mem_cons.mp hy with rfl | hy
    · exact ⟨Nat.le_trans ho.cachedReader_le ho.reader_le_local, Nat.le_refl _⟩
    · exact ho.reader_mem y hy
  · exact Atomic.store_sorted ho.writer_sorted fun y hy => (ho.writer_mem y hy).2
  · rcases List.mem_cons.mp hy with rfl | hy
    · exact ⟨Nat.le_trans ho.cachedWriter_le ho.writer_le_local, Nat.le_refl _⟩
    · exact ho.writer_mem y hy

/-- **The step lemma.** -/
theorem Move.inv {s s' : State α Nat} {a : Act α} (hm : Move PublishBatch s a s' e) (hi : Inv s) :
    Inv s' := by
  obtain ⟨hs, ho, hp, hc⟩ := hi
  cases hm with
  | push => exact ⟨hs, ho, trivial, hc⟩
  | producerFlush => exact ⟨hs, ho, trivial, hc⟩
  | producer hm =>
    exact ⟨hm.shape hs, hm.ordered ho hp, hm.producerOk ho hp,
      ConsumerOk.stable hc (hm.byProducer hs ho hp)⟩
  | pop => exact ⟨hs, ho, hp, trivial⟩
  | consumerFlush => exact ⟨hs, ho, hp, trivial⟩
  | consumer hm =>
    exact ⟨hm.shape hs, hm.ordered ho hc, ProducerOk.stable hp hm.byConsumer, hm.consumerOk ho hc⟩
  | flush => exact ⟨⟨hs.pow, hs.mask⟩, ho.flush, trivial, trivial⟩
  | size => exact ⟨hs, ho, hp, hc⟩
  | empty => exact ⟨hs, ho, hp, hc⟩

theorem step_inv {s s' : State α Nat} {a : Act α} (hi : Inv s)
    (h : (spsc PublishBatch).step s a = some (s', e)) : Inv s' :=
  (step_move h).inv hi

/-- The constructor establishes the invariant. -/
theorem new_inv {capacity : Nat} {memory : Nat → α} (h : SPSC.new capacity memory = .ok q) :
    Inv (State.start q) := by
  obtain ⟨rfl, hcap⟩ := SPSC.new_eq h
  have hpow : capacity.isPowerOfTwo := Nat.ne_zero_and_sub_one_eq_zero_iff_isPowerOfTwo.mp hcap
  refine ⟨⟨hpow, rfl⟩, ⟨?_, ?_, ?_, ?_, ?_, ?_, ?_, ?_⟩, trivial, trivial⟩
  all_goals simp [State.start, SPSC.fresh, Atomic.visible]

variable {ok : State α Nat → Act α → Prop} {s₀ s : State α Nat} {es : List (Event α Nat)}

/-- **The run lemma**: the invariant holds in every reachable state. -/
theorem reach_inv (h : (spsc PublishBatch).Reach ok s₀ s es) (hi : Inv s₀) : Inv s :=
  h.invariant (P := fun s _ => Inv s) hi fun _ _ _ _ _ hi _ hst => step_inv hi hst

end FastQ
