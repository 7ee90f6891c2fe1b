import FastQ.Proofs.Order

/-!
# Counters that wrap

The code's counters have 64 bits. This file shows that the wrap cannot be seen: a run of the queue
over `BitVec 64` is, step for step, the image (`State.wrap`: every counter modulo `2^64`) of the run
of the same schedule over unbounded counters (`spsc_run_wrap`), for every schedule, with stale loads
and with `flush` at any time.

The code compares counters in three ways (`localWriter - cachedReader == capacity`,
`localReader == cachedWriter`, `local - lastPublished >= PublishBatch`). The first two are exact
since the counters are at most `capacity` apart (`Inv`). The third one needs that `lastPublished` is
never `2^64` behind (`ProducerNear`, `ConsumerNear`): a call that leaves the batch test with `false`
is less than `PublishBatch < 2^64` ahead of its mark, and a mark that a `flush` of the other thread
sets late is at most `capacity ≤ 2^63` behind.
-/

namespace FastQ

variable {α : Type}

/-- A counter of 64 bits, from the unbounded one. -/
def wrap (n : Nat) : BitVec 64 := BitVec.ofNat 64 n

namespace Atomic

def wrap (a : Atomic Nat) : Atomic (BitVec 64) := ⟨FastQ.wrap a.value, a.stale.map FastQ.wrap⟩

theorem wrap_load (a : Atomic Nat) (k : Nat) :
    a.wrap.load k = (a.load k).map fun p => (FastQ.wrap p.1, p.2.wrap) := by
  have hv : a.wrap.visible = a.visible.map FastQ.wrap := rfl
  unfold load
  rw [hv, List.getElem?_map, Option.map_map, Option.map_map]
  cases a.visible[k]? with
  | none => rfl
  | some x => simp [wrap]

end Atomic

/-- The queue with counters of 64 bits, from the one with unbounded counters. -/
def SPSC.wrap (q : SPSC α Nat) : SPSC α (BitVec 64) where
  buffer i := q.buffer i.toNat
  writer := q.writer.wrap
  reader := q.reader.wrap
  mask := FastQ.wrap q.mask
  capacity := FastQ.wrap q.capacity
  producer := ⟨FastQ.wrap q.producer.localWriter, FastQ.wrap q.producer.cachedReader,
    FastQ.wrap q.producer.lastPublished⟩
  consumer := ⟨FastQ.wrap q.consumer.localReader, FastQ.wrap q.consumer.cachedWriter,
    FastQ.wrap q.consumer.lastPublished⟩

def Publish.wrap : Publish Nat → Publish (BitVec 64)
  | .read => .read
  | .store x => .store (FastQ.wrap x)
  | .readAgain => .readAgain
  | .mark x => .mark (FastQ.wrap x)

def ProducerPc.wrap : ProducerPc α Nat → ProducerPc α (BitVec 64)
  | .idle last => .idle last
  | .fullCheck data => .fullCheck data
  | .loadReader data => .loadReader data
  | .fullRecheck data => .fullRecheck data
  | .writeSlot data => .writeSlot data
  | .increment data => .increment data
  | .batchCheck => .batchCheck
  | .publishReader p => .publishReader p.wrap
  | .publishWriter r p => .publishWriter r p.wrap

def ConsumerPc.wrap : ConsumerPc α Nat → ConsumerPc α (BitVec 64)
  | .idle last => .idle last
  | .emptyCheck => .emptyCheck
  | .loadWriter => .loadWriter
  | .emptyRecheck => .emptyRecheck
  | .readSlot => .readSlot
  | .increment data => .increment data
  | .batchCheck data => .batchCheck data
  | .publishReader r p => .publishReader r p.wrap
  | .publishWriter p => .publishWriter p.wrap

def Event.wrap : Event α Nat → Event α (BitVec 64)
  | .loadReader x => .loadReader (FastQ.wrap x)
  | .loadWriter x => .loadWriter (FastQ.wrap x)
  | .storeReader x => .storeReader (FastQ.wrap x)
  | .storeWriter x => .storeWriter (FastQ.wrap x)
  | .writeSlot i data => .writeSlot (FastQ.wrap i) data
  | .readSlot i data => .readSlot (FastQ.wrap i) data
  | .accept data => .accept data
  | .take data => .take data
  | .producerReturn r => .producerReturn r
  | .consumerReturn r => .consumerReturn r
  | .sizeReturn n => .sizeReturn (FastQ.wrap n)
  | .emptyReturn b => .emptyReturn b

def State.wrap (s : State α Nat) : State α (BitVec 64) :=
  ⟨s.q.wrap, s.producer.wrap, s.consumer.wrap⟩

theorem ProducerPc.of_wrap_idle {p : ProducerPc α Nat} {l : Option ProducerResult}
    (h : p.wrap = .idle l) : p = .idle l := by
  cases p with
  | idle l' => simpa [wrap] using h
  | _ => simp [wrap] at h

theorem ConsumerPc.of_wrap_idle {c : ConsumerPc α Nat} {l : Option (ConsumerResult α)}
    (h : c.wrap = .idle l) : c = .idle l := by
  cases c with
  | idle l' => simpa [wrap] using h
  | _ => simp [wrap] at h

theorem ProducerPc.atSlot_wrap (p : ProducerPc α Nat) : p.wrap.atSlot = p.atSlot := by
  cases p <;> rfl

theorem ConsumerPc.atSlot_wrap (c : ConsumerPc α Nat) : c.wrap.atSlot = c.atSlot := by
  cases c <;> rfl

theorem ProducerPc.atSlot_of_wrap {p : ProducerPc α Nat} {data : α}
    (h : p.wrap = .writeSlot data) : p.atSlot = true := by
  rw [← atSlot_wrap, h]
  rfl

theorem ConsumerPc.atSlot_of_wrap {c : ConsumerPc α Nat} (h : c.wrap = .readSlot) :
    c.atSlot = true := by
  rw [← atSlot_wrap, h]
  rfl

/-! ## The marks are near -/

/-- A power of two below `2^64` is at most `2^63`. -/
theorem capacity_le {n : Nat} (hn : n.isPowerOfTwo) (h : n < 2 ^ 64) : n ≤ 2 ^ 63 := by
  obtain ⟨k, rfl⟩ := hn
  have hk : k < 64 := (Nat.pow_lt_pow_iff_right (by decide)).mp h
  exact Nat.pow_le_pow_right (by decide) (by omega)

/-- The producer's mark is less than `2^64` behind, and the next increment keeps it so, unless the
call is between its increment and its publication. -/
def ProducerNear (q : SPSC α Nat) (p : ProducerPc α Nat) : Prop :=
  q.producer.localWriter + (if p.advanced then 0 else 1) < q.producer.lastPublished + 2 ^ 64

/-- The same for the consumer's mark. -/
def ConsumerNear (q : SPSC α Nat) (c : ConsumerPc α Nat) : Prop :=
  q.consumer.localReader + (if c.advanced then 0 else 1) < q.consumer.lastPublished + 2 ^ 64

/-- Where the wrapped counters are as good as the unbounded ones. -/
structure Near (s : State α Nat) : Prop where
  inv : Inv s
  capacity_lt : s.q.capacity < 2 ^ 64
  producer : ProducerNear s.q s.producer
  consumer : ConsumerNear s.q s.consumer

variable {q q' : SPSC α Nat} {PublishBatch k : Nat} {e : List (Event α Nat)}

theorem ProducerNear.lt {p : ProducerPc α Nat} (h : ProducerNear q p) :
    q.producer.localWriter < q.producer.lastPublished + 2 ^ 64 := by
  unfold ProducerNear at h
  split at h <;> omega

theorem ConsumerNear.lt {c : ConsumerPc α Nat} (h : ConsumerNear q c) :
    q.consumer.localReader < q.consumer.lastPublished + 2 ^ 64 := by
  unfold ConsumerNear at h
  split at h <;> omega

/-- A mark at most `2^63` behind is near, wherever the producer is. -/
theorem ProducerNear.of_le {p : ProducerPc α Nat}
    (h : q.producer.localWriter ≤ q.producer.lastPublished + 2 ^ 63) : ProducerNear q p := by
  unfold ProducerNear
  split <;> omega

theorem ConsumerNear.of_le {c : ConsumerPc α Nat}
    (h : q.consumer.localReader ≤ q.consumer.lastPublished + 2 ^ 63) : ConsumerNear q c := by
  unfold ConsumerNear
  split <;> omega

theorem ProducerMove.producerNear {p p' : ProducerPc α Nat}
    (hm : ProducerMove PublishBatch k q p q' p' e) (hB : PublishBatch < 2 ^ 64)
    (hp : ProducerOk q p) (hn : ProducerNear q p) : ProducerNear q' p' := by
  cases hm with
  | increment =>
    simp only [ProducerNear, ProducerPc.advanced, SPSC.advanceWriter] at hn ⊢
    simpa using hn
  | due hd => exact hn
  | notDue hd =>
    have := of_decide_eq_false hd
    simp only [ProducerNear, ProducerPc.advanced] at hn ⊢
    simp only [Bool.false_eq_true, ↓reduceIte]
    omega
  | markWriter => exact .of_le (by rw [show _ = _ from hp]; exact Nat.le_add_right _ _)
  | _ => exact hn

theorem ConsumerMove.consumerNear {c c' : ConsumerPc α Nat}
    (hm : ConsumerMove PublishBatch k q c q' c' e) (hB : PublishBatch < 2 ^ 64)
    (hc : ConsumerOk q c) (hn : ConsumerNear q c) : ConsumerNear q' c' := by
  cases hm with
  | increment =>
    simp only [ConsumerNear, ConsumerPc.advanced, SPSC.advanceReader] at hn ⊢
    simpa using hn
  | due hd => exact hn
  | notDue hd =>
    have := of_decide_eq_false hd
    simp only [ConsumerNear, ConsumerPc.advanced] at hn ⊢
    simp only [Bool.false_eq_true, ↓reduceIte]
    omega
  | markReader | markReaderFlush =>
    exact .of_le (by rw [show _ = _ from hc]; exact Nat.le_add_right _ _)
  | _ => exact hn

/-- The consumer's steps keep the producer's mark near: a `flush` of the consumer sets it to a value
that is at most `capacity` behind. -/
theorem ConsumerMove.producerNear {p : ProducerPc α Nat} {c c' : ConsumerPc α Nat}
    (hm : ConsumerMove PublishBatch k q c q' c' e) (hs : Shape q) (hcap : q.capacity < 2 ^ 64)
    (ho : Ordered q) (hc : ConsumerOk q c) (hn : ProducerNear q p) : ProducerNear q' p := by
  cases hm with
  | markWriter =>
    have := capacity_le hs.pow hcap
    have := ho.local_le
    have := ho.reader_le
    have := hc.1
    refine .of_le ?_
    simp only [SPSC.markWriter]
    omega
  | _ => exact hn

/-- The producer's steps keep the consumer's mark near. -/
theorem ProducerMove.consumerNear {p p' : ProducerPc α Nat} {c : ConsumerPc α Nat}
    (hm : ProducerMove PublishBatch k q p q' p' e) (hs : Shape q) (hcap : q.capacity < 2 ^ 64)
    (ho : Ordered q) (hp : ProducerOk q p) (hn : ConsumerNear q c) : ConsumerNear q' c := by
  cases hm with
  | markReader =>
    have := capacity_le hs.pow hcap
    have := ho.local_le
    have := ho.writer_le
    have := hp.1
    refine .of_le ?_
    simp only [SPSC.markReader]
    omega
  | _ => exact hn

/-- Every step keeps the marks near. -/
theorem Move.near {s s' : State α Nat} {a : Act α} (hm : Move PublishBatch s a s' e)
    (hB : PublishBatch < 2 ^ 64) (h : Near s) : Near s' := by
  have hi' := hm.inv h.inv
  obtain ⟨⟨hs, ho, hp, hc⟩, hcap, hpn, hcn⟩ := h
  cases hm with
  | push => exact ⟨hi', hcap, hpn, hcn⟩
  | producerFlush => exact ⟨hi', hcap, hpn, hcn⟩
  | producer hm =>
    exact ⟨hi', hm.capacity ▸ hcap, hm.producerNear hB hp hpn, hm.consumerNear hs hcap ho hp hcn⟩
  | pop => exact ⟨hi', hcap, hpn, hcn⟩
  | consumerFlush => exact ⟨hi', hcap, hpn, hcn⟩
  | consumer hm =>
    exact ⟨hi', hm.byConsumer.capacity ▸ hcap, hm.producerNear hs hcap ho hc hpn,
      hm.consumerNear hB hc hcn⟩
  | flush => exact ⟨hi', hcap, .of_le (Nat.le_add_right _ _), .of_le (Nat.le_add_right _ _)⟩
  | size => exact ⟨hi', hcap, hpn, hcn⟩
  | empty => exact ⟨hi', hcap, hpn, hcn⟩

theorem step_near {s s' : State α Nat} {a : Act α} (hB : PublishBatch < 2 ^ 64) (h : Near s)
    (hst : (spsc PublishBatch).step s a = some (s', e)) : Near s' :=
  (step_move hst).near hB h

theorem reach_near {ok : State α Nat → Act α → Prop} {s₀ s : State α Nat}
    {es : List (Event α Nat)} (hB : PublishBatch < 2 ^ 64)
    (h : (spsc PublishBatch).Reach ok s₀ s es) (hn : Near s₀) : Near s :=
  h.invariant (P := fun s _ => Near s) hn fun _ _ _ _ _ hn _ hst => step_near hB hn hst

/-! ## The tests agree -/

theorem isFull_wrap (ho : Ordered q) (hcap : q.capacity < 2 ^ 64) : q.wrap.isFull = q.isFull := by
  have := ho.cachedReader_le
  have := ho.reader_le_local
  have := ho.local_le
  have := ho.writer_le
  exact decide_eq_decide.mpr (Counter.ofNat_sub_eq_iff (by omega) (by omega) hcap)

theorem isEmpty_wrap (ho : Ordered q) (hcap : q.capacity < 2 ^ 64) :
    q.wrap.isEmpty = q.isEmpty := by
  have := ho.cachedWriter_le
  have := ho.writer_le_local
  have := ho.local_le
  exact decide_eq_decide.mpr (Counter.ofNat_eq_iff ho.reader_le (by omega))

theorem pushDue_wrap {p : ProducerPc α Nat} (hB : PublishBatch < 2 ^ 64) (ho : Ordered q)
    (hn : ProducerNear q p) : q.wrap.pushDue (wrap PublishBatch) = q.pushDue PublishBatch := by
  have := ho.producer_mark
  have := hn.lt
  exact decide_eq_decide.mpr (Counter.ofNat_le_sub_iff (by omega) (by omega) hB)

theorem popDue_wrap {c : ConsumerPc α Nat} (hB : PublishBatch < 2 ^ 64) (ho : Ordered q)
    (hn : ConsumerNear q c) : q.wrap.popDue (wrap PublishBatch) = q.popDue PublishBatch := by
  have := ho.consumer_mark
  have := hn.lt
  exact decide_eq_decide.mpr (Counter.ofNat_le_sub_iff (by omega) (by omega) hB)

theorem size_wrap (ho : Ordered q) : q.wrap.size = wrap q.size := by
  have := ho.reader_le_local
  have := ho.reader_le
  have := ho.cachedWriter_le
  exact Counter.ofNat_sub (by omega)

theorem empty_wrap (ho : Ordered q) (hcap : q.capacity < 2 ^ 64) : q.wrap.empty = q.empty := by
  have := ho.reader_le_local
  have := ho.reader_le
  have := ho.cachedWriter_le
  have := ho.writer_le_local
  have := ho.writer_le
  have := ho.cachedReader_le
  refine decide_eq_decide.mpr ?_
  rw [eq_comm, @eq_comm _ q.writer.value]
  exact Counter.ofNat_eq_iff (by omega) (by omega)

/-! ## The accesses agree -/

theorem writeIndex_wrap (q : SPSC α Nat) : q.wrap.writeIndex = wrap q.writeIndex :=
  BitVec.ofNat_and.symm

theorem readIndex_wrap (q : SPSC α Nat) : q.wrap.readIndex = wrap q.readIndex :=
  BitVec.ofNat_and.symm

theorem toNat_wrap {n : Nat} (h : n < 2 ^ 64) : (wrap n).toNat = n := by
  rw [wrap, BitVec.toNat_ofNat, Nat.mod_eq_of_lt h]

theorem readSlot_wrap (hs : Shape q) (hcap : q.capacity < 2 ^ 64) :
    q.wrap.readSlot = q.readSlot := by
  have hlt : q.readIndex < 2 ^ 64 := by
    have := Nat.mod_lt q.consumer.localReader hs.pos
    rw [hs.readIndex_eq]
    omega
  unfold SPSC.readSlot
  rw [readIndex_wrap]
  exact congrArg q.buffer (toNat_wrap hlt)

theorem writeSlot_wrap (hs : Shape q) (hcap : q.capacity < 2 ^ 64) (data : α) :
    q.wrap.writeSlot data = (q.writeSlot data).wrap := by
  have hlt : q.writeIndex < 2 ^ 64 := by
    have := Nat.mod_lt q.producer.localWriter hs.pos
    rw [hs.writeIndex_eq]
    omega
  unfold SPSC.writeSlot
  rw [writeIndex_wrap]
  simp only [SPSC.wrap, SPSC.mk.injEq, and_self, and_true]
  funext i
  by_cases hi : i = wrap q.writeIndex
  · rw [hi, Function.update_self, toNat_wrap hlt, Function.update_self]
  · have hne : i.toNat ≠ q.writeIndex := fun he => hi (by rw [wrap, ← he, BitVec.ofNat_toNat]; simp)
    rw [Function.update_of_ne hi, Function.update_of_ne hne]

theorem advanceWriter_wrap (q : SPSC α Nat) : q.wrap.advanceWriter = q.advanceWriter.wrap := by
  simp only [SPSC.advanceWriter, SPSC.wrap, wrap, BitVec.ofNat_add]
  rfl

theorem advanceReader_wrap (q : SPSC α Nat) : q.wrap.advanceReader = q.advanceReader.wrap := by
  simp only [SPSC.advanceReader, SPSC.wrap, wrap, BitVec.ofNat_add]
  rfl

/-! ## The steps agree -/

/-- The image of a party's step. -/
def wrapStep {P Q : Type} (f : P → Q) (r : SPSC α Nat × P × List (Event α Nat)) :
    SPSC α (BitVec 64) × Q × List (Event α (BitVec 64)) :=
  (r.1.wrap, f r.2.1, r.2.2.map Event.wrap)

theorem stepProducer_wrap {p : ProducerPc α Nat} (hB : PublishBatch < 2 ^ 64) (hs : Shape q)
    (hcap : q.capacity < 2 ^ 64) (ho : Ordered q) (hn : ProducerNear q p) :
    stepProducer (wrap PublishBatch) k q.wrap p.wrap =
      (stepProducer PublishBatch k q p).map (wrapStep ProducerPc.wrap) := by
  cases p with
  | idle last => rfl
  | fullCheck data =>
    simp only [stepProducer, ProducerPc.wrap, isFull_wrap ho hcap, Option.map_some, wrapStep]
    cases q.isFull <;> rfl
  | loadReader data =>
    have hl : q.wrap.reader.load k = (q.reader.load k).map fun p => (wrap p.1, p.2.wrap) :=
      q.reader.wrap_load k
    simp only [stepProducer, ProducerPc.wrap, hl, Option.map_map]
    rfl
  | fullRecheck data =>
    simp only [stepProducer, ProducerPc.wrap, isFull_wrap ho hcap, Option.map_some, wrapStep]
    cases q.isFull <;> rfl
  | writeSlot data =>
    simp only [stepProducer, ProducerPc.wrap, writeSlot_wrap hs hcap, writeIndex_wrap]
    rfl
  | increment data =>
    simp only [stepProducer, ProducerPc.wrap, advanceWriter_wrap]
    rfl
  | batchCheck =>
    simp only [stepProducer, ProducerPc.wrap, pushDue_wrap hB ho hn]
    cases q.pushDue PublishBatch <;> rfl
  | publishReader p => cases p <;> rfl
  | publishWriter r p => cases p <;> rfl

theorem stepConsumer_wrap {c : ConsumerPc α Nat} (hB : PublishBatch < 2 ^ 64) (hs : Shape q)
    (hcap : q.capacity < 2 ^ 64) (ho : Ordered q) (hn : ConsumerNear q c) :
    stepConsumer (wrap PublishBatch) k q.wrap c.wrap =
      (stepConsumer PublishBatch k q c).map (wrapStep ConsumerPc.wrap) := by
  cases c with
  | idle last => rfl
  | emptyCheck =>
    simp only [stepConsumer, ConsumerPc.wrap, isEmpty_wrap ho hcap, Option.map_some, wrapStep]
    cases q.isEmpty <;> rfl
  | loadWriter =>
    have hl : q.wrap.writer.load k = (q.writer.load k).map fun p => (wrap p.1, p.2.wrap) :=
      q.writer.wrap_load k
    simp only [stepConsumer, ConsumerPc.wrap, hl, Option.map_map]
    rfl
  | emptyRecheck =>
    simp only [stepConsumer, ConsumerPc.wrap, isEmpty_wrap ho hcap, Option.map_some, wrapStep]
    cases q.isEmpty <;> rfl
  | readSlot =>
    simp only [stepConsumer, ConsumerPc.wrap, readSlot_wrap hs hcap, readIndex_wrap]
    rfl
  | increment data =>
    simp only [stepConsumer, ConsumerPc.wrap, advanceReader_wrap]
    rfl
  | batchCheck data =>
    simp only [stepConsumer, ConsumerPc.wrap, popDue_wrap hB ho hn]
    cases q.popDue PublishBatch <;> rfl
  | publishReader r p => cases r <;> cases p <;> rfl
  | publishWriter p => cases p <;> rfl

theorem quiet_wrap (s : State α Nat) : s.wrap.quiet = s.quiet := by
  obtain ⟨q, p, c⟩ := s
  cases p <;> cases c <;> rfl

/-- **One step.** Where the marks are near, a step over 64 bits is the image of the step over
unbounded counters. -/
theorem step_wrap {s : State α Nat} {a : Act α} (hB : PublishBatch < 2 ^ 64) (h : Near s) :
    (spsc (wrap PublishBatch)).step s.wrap a =
      ((spsc PublishBatch).step s a).map (Machine.image State.wrap Event.wrap) := by
  obtain ⟨⟨hs, ho, -, -⟩, hcap, hpn, hcn⟩ := h
  obtain ⟨q, p, c⟩ := s
  cases a with
  | push data => cases p <;> rfl
  | producerFlush => cases p <;> rfl
  | producer k =>
    simp only [spsc, step, State.wrap, stepProducer_wrap hB hs hcap ho hpn, Option.map_map]
    rfl
  | pop => cases c <;> rfl
  | consumerFlush => cases c <;> rfl
  | consumer k =>
    simp only [spsc, step, State.wrap, stepConsumer_wrap hB hs hcap ho hcn, Option.map_map]
    rfl
  | flush =>
    simp only [spsc, step, quiet_wrap]
    split <;> rfl
  | size =>
    simp only [spsc, step, quiet_wrap]
    split
    · simp only [State.wrap, size_wrap ho]
      rfl
    · rfl
  | empty =>
    simp only [spsc, step, quiet_wrap]
    split
    · simp only [State.wrap, empty_wrap ho hcap]
      rfl
    · rfl

/-- **Every run.** From a state whose marks are near, the run of a schedule over 64 bits is the
image of its run over unbounded counters. -/
theorem spsc_run_wrap (hB : PublishBatch < 2 ^ 64) {s : State α Nat} (h : Near s)
    (sched : List (Act α)) :
    (spsc (wrap PublishBatch)).run s.wrap sched =
      ((spsc PublishBatch).run s sched).map (Machine.image State.wrap Event.wrap) :=
  Machine.run_map (I := Near) (fun _ _ h => step_wrap hB h)
    (fun _ _ _ _ h hst => step_near hB h hst) sched s h

theorem wrap_toNat (x : BitVec 64) : wrap x.toNat = x := by
  simp [wrap]

/-- An accepted capacity of 64 bits is accepted as an unbounded one, and the new queue is the image
of the new queue with unbounded counters. -/
theorem new_unwrap {capacity : BitVec 64} {memory : BitVec 64 → α} {q : SPSC α (BitVec 64)}
    (h : SPSC.new capacity memory = .ok q) :
    ∃ q₀ : SPSC α Nat, SPSC.new capacity.toNat (fun i => memory (wrap i)) = .ok q₀ ∧
      State.start q = (State.start q₀).wrap ∧ q₀.capacity = capacity.toNat ∧
      Near (State.start q₀) := by
  obtain ⟨rfl, hcap⟩ := SPSC.new_eq h
  have hpow : capacity.toNat.isPowerOfTwo := (Counter.and_eq_zero_iff capacity).mp hcap
  have hnat := Nat.ne_zero_and_sub_one_eq_zero_iff_isPowerOfTwo.mpr hpow
  have hnew : SPSC.new capacity.toNat (fun i => memory (wrap i)) =
      .ok (SPSC.fresh capacity.toNat fun i => memory (wrap i)) :=
    if_neg (by simpa [not_or] using hnat)
  refine ⟨_, hnew, ?_, rfl, new_inv hnew, capacity.isLt, .of_le (Nat.zero_le _),
    .of_le (Nat.zero_le _)⟩
  have hpos : 1 ≤ capacity.toNat := Nat.one_le_iff_ne_zero.mpr hnat.1
  have hmask : wrap (capacity.toNat - 1) = capacity - 1 := by
    rw [wrap, ← Counter.ofNat_sub hpos]
    exact congrArg (· - 1) (wrap_toNat capacity)
  simp only [State.start, State.wrap, SPSC.wrap, SPSC.fresh, hmask, wrap_toNat]
  rfl

/-! ## Counters read as unbounded numbers -/

/-- `t` and `et` are the state `s` and the history `es` of the queue after the schedule `sched`,
with the counters read as unbounded numbers: where the same schedule leads with unbounded counters.
-/
structure Unbounded (capacity PublishBatch : BitVec 64) (memory : BitVec 64 → α)
    (sched : List (Act α)) (s : State α (BitVec 64)) (es : List (Event α (BitVec 64)))
    (t : State α Nat) (et : List (Event α Nat)) : Prop where
  run : ∃ q₀ : SPSC α Nat, SPSC.new capacity.toNat (fun i => memory (wrap i)) = .ok q₀ ∧
    (spsc PublishBatch.toNat).run (State.start q₀) sched = some (t, et)
  state : s = t.wrap
  events : es = et.map Event.wrap

/-- What the tests and the slots of the queue with unbounded counters mean: a slot is the counter
modulo the capacity, and no difference is taken of a smaller counter and a larger one. -/
structure Exact (q : SPSC α Nat) : Prop where
  writeIndex : q.writeIndex = q.producer.localWriter % q.capacity
  readIndex : q.readIndex = q.consumer.localReader % q.capacity
  full : q.producer.cachedReader ≤ q.producer.localWriter
  pushDue : q.producer.lastPublished ≤ q.producer.localWriter
  popDue : q.consumer.lastPublished ≤ q.consumer.localReader
  size : q.reader.value ≤ q.writer.value

theorem Inv.exact {s : State α Nat} (h : Inv s) : Exact s.q := by
  have ho := h.ordered
  have := ho.cachedReader_le
  have := ho.reader_le_local
  have := ho.reader_le
  have := ho.cachedWriter_le
  have := ho.writer_le_local
  exact ⟨h.shape.writeIndex_eq, h.shape.readIndex_eq, by omega, ho.producer_mark, ho.consumer_mark,
    by omega⟩

section Runs

variable {capacity PublishBatch : BitVec 64} {memory : BitVec 64 → α} {q : SPSC α (BitVec 64)}
  {sched : List (Act α)} {s : State α (BitVec 64)} {es : List (Event α (BitVec 64))}
  {t : State α Nat} {et : List (Event α Nat)}

/-- **The wrap is invisible.** Whatever schedule the parties follow, with whatever calls, the run
over 64-bit counters is the run over unbounded counters with every counter modulo `2^64`: the same
calls are possible, they take the same branches (the parties are at the same places), show the same
events (slots and results among them), and every test has the same outcome. -/
theorem lockstep (hq : SPSC.new capacity memory = .ok q) :
    ∃ q₀ : SPSC α Nat, SPSC.new capacity.toNat (fun i => memory (wrap i)) = .ok q₀ ∧
      ∀ sched, (spsc PublishBatch).run (State.start q) sched =
          ((spsc PublishBatch.toNat).run (State.start q₀) sched).map
            (Machine.image State.wrap Event.wrap) ∧
        ∀ t et, (spsc PublishBatch.toNat).run (State.start q₀) sched = some (t, et) →
          Exact t.q ∧ t.q.capacity = capacity.toNat ∧
          t.wrap.q.isFull = t.q.isFull ∧ t.wrap.q.isEmpty = t.q.isEmpty ∧
          t.wrap.q.pushDue PublishBatch = t.q.pushDue PublishBatch.toNat ∧
          t.wrap.q.popDue PublishBatch = t.q.popDue PublishBatch.toNat := by
  obtain ⟨q₀, hnew, hstart, hcap, hnear⟩ := new_unwrap hq
  refine ⟨q₀, hnew, fun sched => ⟨?_, fun t et hrun => ?_⟩⟩
  · have := spsc_run_wrap PublishBatch.isLt hnear sched
    rwa [wrap_toNat, ← hstart] at this
  · have hr := Machine.run_reach hrun
    have hn := reach_near PublishBatch.isLt hr hnear
    have hpush := pushDue_wrap PublishBatch.isLt hn.inv.ordered hn.producer
    have hpop := popDue_wrap PublishBatch.isLt hn.inv.ordered hn.consumer
    rw [wrap_toNat] at hpush hpop
    exact ⟨hn.inv.exact, (reach_capacity hr).trans hcap, isFull_wrap hn.inv.ordered hn.capacity_lt,
      isEmpty_wrap hn.inv.ordered hn.capacity_lt, hpush, hpop⟩

/-- A ring of two slots that publishes every element. -/
theorem lockstep_two : ∃ q₀ : SPSC Bool Nat, SPSC.new 2 (fun _ => false) = .ok q₀ ∧ ∀ sched,
    (spsc 1).run (State.start (SPSC.fresh (2 : BitVec 64) fun _ => false)) sched =
      ((spsc 1).run (State.start q₀) sched).map (Machine.image State.wrap Event.wrap) := by
  obtain ⟨q₀, hnew, h⟩ := @lockstep Bool 2 1 (fun _ => false) _ rfl
  exact ⟨q₀, hnew, fun sched => (h sched).1⟩

/-- A step over 64 bits is a move of the unbounded counters. -/
theorem step_unwrap {a : Act α} {e : List (Event α (BitVec 64))} (hn : Near t)
    (h : (spsc PublishBatch).step t.wrap a = some (s, e)) :
    ∃ (t' : State α Nat) (et : List (Event α Nat)), Move PublishBatch.toNat t a t' et ∧
      s = t'.wrap ∧ e = et.map Event.wrap := by
  have hstep := step_wrap (a := a) PublishBatch.isLt hn
  rw [wrap_toNat, h] at hstep
  obtain ⟨⟨t', et⟩, ht, he⟩ := Option.map_eq_some_iff.mp hstep.symm
  cases he
  exact ⟨t', et, step_move ht, rfl, rfl⟩

/-- What holds along a run of the 64-bit queue, said of the run over unbounded counters. -/
theorem along_wrap {ok : State α (BitVec 64) → Act α → Prop} {ok₀ : State α Nat → Act α → Prop}
    (hok : ∀ s a, Near s → (ok s.wrap a ↔ ok₀ s a)) (hn : Near t) :
    (spsc PublishBatch).Along ok t.wrap sched ↔ (spsc PublishBatch.toNat).Along ok₀ t sched := by
  have hstep := @step_wrap α PublishBatch.toNat
  rw [wrap_toNat] at hstep
  exact Machine.along_image (I := Near) (fun s a hn => hstep PublishBatch.isLt hn)
    (fun _ _ _ _ hn hst => step_near PublishBatch.isLt hn hst) hok hn

theorem along_unwrap {ok : State α (BitVec 64) → Act α → Prop} (hn : Near t)
    (hok : (spsc PublishBatch).Along ok t.wrap sched) :
    (spsc PublishBatch.toNat).Along (fun s a => Near s ∧ ok s.wrap a) t sched :=
  (along_wrap (fun _ _ hn => (and_iff_right hn).symm) hn).mp hok

/-- A run of the 64-bit queue is the image of a run over unbounded counters, and what holds along it
holds along that run. -/
theorem run_unwrap {ok : State α (BitVec 64) → Act α → Prop} (hn : Near t)
    (h : (spsc PublishBatch).run t.wrap sched = some (s, es))
    (hok : (spsc PublishBatch).Along ok t.wrap sched) :
    ∃ (t' : State α Nat) (et : List (Event α Nat)),
      (spsc PublishBatch.toNat).run t sched = some (t', et) ∧ s = t'.wrap ∧
      es = et.map Event.wrap ∧ Near t' ∧
      (spsc PublishBatch.toNat).Reach (fun s a => Near s ∧ ok s.wrap a) t t' et := by
  have hrun := spsc_run_wrap PublishBatch.isLt hn sched
  rw [wrap_toNat, h] at hrun
  obtain ⟨⟨t', et⟩, ht, he⟩ := Option.map_eq_some_iff.mp hrun.symm
  cases he
  have hr := Machine.Reach.of_along (along_unwrap hn hok) ht
  exact ⟨t', et, ht, rfl, rfl, reach_near PublishBatch.isLt hr hn, hr⟩

/-- Every run of the 64-bit queue has its reading over unbounded counters. -/
theorem exists_unbounded_along {ok : State α (BitVec 64) → Act α → Prop}
    (hq : SPSC.new capacity memory = .ok q)
    (h : (spsc PublishBatch).run (State.start q) sched = some (s, es))
    (hok : (spsc PublishBatch).Along ok (State.start q) sched) :
    ∃ (q₀ : SPSC α Nat) (t : State α Nat) (et : List (Event α Nat)),
      Unbounded capacity PublishBatch memory sched s es t et ∧ Near t ∧
      SPSC.new capacity.toNat (fun i => memory (wrap i)) = .ok q₀ ∧
      (spsc PublishBatch.toNat).Reach (fun s a => Near s ∧ ok s.wrap a) (State.start q₀) t et ∧
      t.q.capacity = capacity.toNat := by
  obtain ⟨q₀, hnew, hstart, hcap, hnear⟩ := new_unwrap hq
  rw [hstart] at h hok
  obtain ⟨t, et, ht, hs, he, hn, hr⟩ := run_unwrap hnear h hok
  exact ⟨q₀, t, et, ⟨⟨q₀, hnew, ht⟩, hs, he⟩, hn, hnew, hr, (reach_capacity hr).trans hcap⟩

/-- A run that goes on goes on in its reading. -/
theorem Unbounded.extend {ok : State α (BitVec 64) → Act α → Prop} {more : List (Act α)}
    {s' : State α (BitVec 64)} {es' : List (Event α (BitVec 64))}
    (hu : Unbounded capacity PublishBatch memory sched s es t et) (hn : Near t)
    (h : (spsc PublishBatch).run s more = some (s', es'))
    (hok : (spsc PublishBatch).Along ok s more) :
    ∃ (t' : State α Nat) (et' : List (Event α Nat)),
      Unbounded capacity PublishBatch memory (sched ++ more) s' (es ++ es') t' (et ++ et') ∧
      es' = et'.map Event.wrap ∧ Near t' ∧
      (spsc PublishBatch.toNat).Reach (fun s a => Near s ∧ ok s.wrap a) t t' et' := by
  obtain ⟨⟨q₀, hnew, ht⟩, rfl, rfl⟩ := hu
  obtain ⟨t', et', ht', rfl, rfl, hn', hr⟩ := run_unwrap hn h hok
  exact ⟨t', et', ⟨⟨q₀, hnew, Machine.run_append ht ht'⟩, rfl, by simp⟩, rfl, hn', hr⟩

theorem exists_unbounded (hq : SPSC.new capacity memory = .ok q)
    (h : (spsc PublishBatch).run (State.start q) sched = some (s, es)) :
    ∃ (q₀ : SPSC α Nat) (t : State α Nat) (et : List (Event α Nat)),
      Unbounded capacity PublishBatch memory sched s es t et ∧ Near t ∧
      SPSC.new capacity.toNat (fun i => memory (wrap i)) = .ok q₀ ∧
      (spsc PublishBatch.toNat).Reach (fun _ _ => True) (State.start q₀) t et ∧
      t.q.capacity = capacity.toNat := by
  have hok : (spsc PublishBatch).Along (fun _ _ => True) (State.start q) sched :=
    .of_forall fun _ _ _ => trivial
  obtain ⟨q₀, t, et, hu, hn, hnew, hr, hcap⟩ := exists_unbounded_along hq h hok
  exact ⟨q₀, t, et, hu, hn, hnew, hr.mono fun _ _ _ => trivial, hcap⟩

end Runs

end FastQ
