import FastQ.Lib.Trace
import FastQ.Proofs.Exclusion
import FastQ.Proofs.Lag

/-!
# Failures that come too early

A push fails on a value of `reader_` that lags behind, so it may fail although the ring has room;
a pop may fail although an element was pushed. How early a call fails is bounded by the batch: the
pops that had returned when the failing push loaded `reader_` were less than a batch ahead of the
value it got, and the same for pushes and a failing pop.

* `Event.ofProducer`, `Event.ofConsumer`: the loads and the returns of a party. A load that is the
  latest of these events when a call returns is the load of that call.
* `PushRefusal`, `PopRefusal`: what a call that has loaded the other side's counter, or is going to
  fail, knows of the moment of the load.
* `spurious_bounded`: the bounds, and the lag of a party between its calls.
-/

namespace FastQ

variable {α : Type}

/-! ## The events of a party -/

section Events

variable {κ : Type}

/-- The producer loads `reader_` or returns from a call. -/
def Event.ofProducer : Event α κ → Bool
  | .loadReader _ | .producerReturn _ => true
  | _ => false

/-- The consumer loads `writer_` or returns from a call. -/
def Event.ofConsumer : Event α κ → Bool
  | .loadWriter _ | .consumerReturn _ => true
  | _ => false

/-- What a pop holds that is done and has not returned. -/
theorem ConsumerPc.length_held (c : ConsumerPc α κ) :
    c.held.length = if c.advanced then 1 else 0 := by
  cases c with
  | publishReader r x => rcases r with ⟨_ | _⟩ | _ <;> rfl
  | _ => rfl

variable [OfNat κ 1] [Add κ] [Sub κ] [AndOp κ] [LE κ] [DecidableEq κ] [DecidableLE κ]
  {PublishBatch : κ} {k : Nat} {q q' : SPSC α κ} {e : List (Event α κ)}

theorem ProducerMove.notOfConsumer {p p' : ProducerPc α κ}
    (hm : ProducerMove PublishBatch k q p q' p' e) : ∀ x ∈ e, x.ofConsumer = false := by
  cases hm <;> simp [Event.ofConsumer]

theorem ConsumerMove.notOfProducer {c c' : ConsumerPc α κ}
    (hm : ConsumerMove PublishBatch k q c q' c' e) : ∀ x ∈ e, x.ofProducer = false := by
  cases hm <;> simp [Event.ofProducer]

/-- A push that returns `false` is at the end of its publication. -/
theorem Move.push_returns {s s' : State α κ} {a : Act α} {f f' : List (Event α κ)}
    (hm : Move PublishBatch s a s' e) (he : e = f ++ .producerReturn (.push false) :: f') :
    f = [] ∧ ∃ x, s.producer = .publishWriter (.push false) (.mark x) := by
  have hmem : Event.producerReturn (.push false) ∈ e := by simp [he]
  cases hm with
  | producer hm =>
    cases hm with
    | markWriter =>
      obtain rfl : f = [] := by cases f <;> simp_all
      cases he
      exact ⟨rfl, _, rfl⟩
    | _ => simp at hmem
  | consumer hm => cases hm <;> simp at hmem
  | _ => simp at hmem

/-- A pop that returns `false` is at the end of its publication. -/
theorem Move.pop_returns {s s' : State α κ} {a : Act α} {f f' : List (Event α κ)}
    (hm : Move PublishBatch s a s' e) (he : e = f ++ .consumerReturn (.pop none) :: f') :
    f = [] ∧ ∃ x, s.consumer = .publishReader (.pop none) (.mark x) := by
  have hmem : Event.consumerReturn (.pop none) ∈ e := by simp [he]
  cases hm with
  | producer hm => cases hm <;> simp at hmem
  | consumer hm =>
    cases hm with
    | markReader =>
      obtain rfl : f = [] := by cases f <;> simp_all
      cases he
      exact ⟨rfl, _, rfl⟩
    | _ => simp at hmem
  | _ => simp at hmem

end Events

/-! ## What a failing call knows -/

variable {B : Nat} {q q' : SPSC α Nat} {PublishBatch k : Nat} {es e : List (Event α Nat)}

/-- What the producer's load of its cached value found, `e₁` being the history before it: the local
counter is the same since, and the pops that had returned were less than `B` ahead of the value. -/
def SeenReader (B : Nat) (q : SPSC α Nat) (es : List (Event α Nat)) : Prop :=
  ∃ e₁, Trace.Latest Event.ofProducer e₁ (.loadReader q.producer.cachedReader) es ∧
    q.producer.localWriter = (accepted e₁).length ∧
    (popResults e₁).reduceOption.length < q.producer.cachedReader + B

/-- What the consumer's load of its cached value found. -/
def SeenWriter (B : Nat) (q : SPSC α Nat) (es : List (Event α Nat)) : Prop :=
  ∃ e₁, Trace.Latest Event.ofConsumer e₁ (.loadWriter q.consumer.cachedWriter) es ∧
    q.consumer.localReader = (popped e₁).length ∧
    (pushResults e₁).count true < q.consumer.cachedWriter + B

/-- What a push knows that has loaded `reader_`, or is going to fail. -/
def PushRefusal (B : Nat) (q : SPSC α Nat) (p : ProducerPc α Nat) (es : List (Event α Nat)) :
    Prop :=
  match p with
  | .fullRecheck _ => SeenReader B q es
  | .publishWriter (.push false) _ =>
    SeenReader B q es ∧ q.producer.localWriter = q.producer.cachedReader + q.capacity
  | _ => True

/-- What a pop knows that has loaded `writer_`, or is going to fail. -/
def PopRefusal (B : Nat) (q : SPSC α Nat) (c : ConsumerPc α Nat) (es : List (Event α Nat)) :
    Prop :=
  match c with
  | .emptyRecheck => SeenWriter B q es
  | .publishReader (.pop none) _ =>
    SeenWriter B q es ∧ q.consumer.localReader = q.consumer.cachedWriter
  | _ => True

theorem SeenReader.append (h : SeenReader B q es)
    (hw : q'.producer.localWriter = q.producer.localWriter)
    (hc : q'.producer.cachedReader = q.producer.cachedReader)
    (he : ∀ x ∈ e, x.ofProducer = false) : SeenReader B q' (es ++ e) := by
  obtain ⟨e₁, hlatest, hcount, hlt⟩ := h
  refine ⟨e₁, ?_, hw.trans hcount, ?_⟩
  · rw [hc]
    exact hlatest.append he
  · rwa [hc]

theorem SeenWriter.append (h : SeenWriter B q es)
    (hr : q'.consumer.localReader = q.consumer.localReader)
    (hc : q'.consumer.cachedWriter = q.consumer.cachedWriter)
    (he : ∀ x ∈ e, x.ofConsumer = false) : SeenWriter B q' (es ++ e) := by
  obtain ⟨e₁, hlatest, hcount, hlt⟩ := h
  refine ⟨e₁, ?_, hr.trans hcount, ?_⟩
  · rw [hc]
    exact hlatest.append he
  · rwa [hc]

/-- The producer's moves: a load that returns the newest value finds it. -/
theorem ProducerMove.refusal {p p' : ProducerPc α Nat}
    (hm : ProducerMove PublishBatch 0 q p q' p' e) (ho : Ordered q)
    (hcount : q.producer.localWriter = (accepted es).length)
    (hret : (popResults es).reduceOption.length < q.reader.value + B) (h : PushRefusal B q p es) :
    PushRefusal B q' p' (es ++ e) := by
  cases hm with
  | load hl =>
    rw [Atomic.load_zero] at hl
    cases hl
    exact ⟨es, .now _ _ _, hcount, hret⟩
  | refuse hf =>
    have hfull : q.producer.localWriter - q.producer.cachedReader = q.capacity :=
      of_decide_eq_true hf
    have := ho.cachedReader_le
    have := ho.reader_le_local
    have := ho.local_le
    rw [List.append_nil]
    exact ⟨h, by omega⟩
  | @readWriter r | @storeWriter r | @readWriterAgain r =>
    match r, h with
    | .push false, h => exact ⟨h.1.append rfl rfl (by simp [Event.ofProducer]), h.2⟩
    | .push true, _ => trivial
    | .flush, _ => trivial
  | _ => trivial

/-- The consumer's moves: a load that returns the newest value finds it. -/
theorem ConsumerMove.refusal {c c' : ConsumerPc α Nat}
    (hm : ConsumerMove PublishBatch 0 q c q' c' e)
    (hcount : q.consumer.localReader = (popped es).length)
    (hret : (pushResults es).count true < q.writer.value + B) (h : PopRefusal B q c es) :
    PopRefusal B q' c' (es ++ e) := by
  cases hm with
  | load hl =>
    rw [Atomic.load_zero] at hl
    cases hl
    exact ⟨es, .now _ _ _, hcount, hret⟩
  | refuse hf =>
    rw [List.append_nil]
    exact ⟨h, of_decide_eq_true hf⟩
  | @readReader r | @storeReader r | @readReaderAgain r =>
    match r, h with
    | .pop none, h => exact ⟨h.1.append rfl rfl (by simp [Event.ofConsumer]), h.2⟩
    | .pop (some data), _ => trivial
    | .flush, _ => trivial
  | _ => trivial

/-- What a push knows does not depend on what the consumer does. -/
theorem PushRefusal.stable {p : ProducerPc α Nat} (h : PushRefusal B q p es) (hb : ByConsumer q q')
    (he : ∀ x ∈ e, x.ofProducer = false) : PushRefusal B q' p (es ++ e) := by
  unfold PushRefusal at h ⊢
  split at h
  · exact h.append hb.localWriter hb.cachedReader he
  · rw [hb.localWriter, hb.cachedReader, hb.capacity]
    exact ⟨h.1.append hb.localWriter hb.cachedReader he, h.2⟩
  · trivial

/-- What a pop knows does not depend on what the producer does. -/
theorem PopRefusal.stable {c : ConsumerPc α Nat} (h : PopRefusal B q c es) (hb : ByProducer q q')
    (he : ∀ x ∈ e, x.ofConsumer = false) : PopRefusal B q' c (es ++ e) := by
  unfold PopRefusal at h ⊢
  split at h
  · exact h.append hb.localReader hb.cachedWriter he
  · rw [hb.localReader, hb.cachedWriter]
    exact ⟨h.1.append hb.localReader hb.cachedWriter he, h.2⟩
  · trivial

/-- What both parties know. -/
structure Refusals (B : Nat) (s : State α Nat) (es : List (Event α Nat)) : Prop where
  producer : PushRefusal B s.q s.producer es
  consumer : PopRefusal B s.q s.consumer es

/-- The step lemma of `Refusals`. -/
theorem Move.refusals {s s' : State α Nat} {a : Act α} (hm : Move PublishBatch s a s' e)
    (ha : a.pushPop = true ∧ a.newest = true) (hi : Inv s) (hp : Published s es)
    (hpops : (popResults es).reduceOption.length < s.q.reader.value + B)
    (hpushes : (pushResults es).count true < s.q.writer.value + B) (h : Refusals B s es) :
    Refusals B s' (es ++ e) := by
  cases hm with
  | push =>
    rw [List.append_nil]
    exact ⟨trivial, h.consumer⟩
  | producer hm =>
    obtain rfl : _ = 0 := beq_iff_eq.mp ha.2
    exact ⟨hm.refusal hi.ordered hp.accepted hpops h.producer,
      h.consumer.stable (hm.byProducer hi.shape hi.ordered hi.producer) hm.notOfConsumer⟩
  | pop =>
    rw [List.append_nil]
    exact ⟨h.producer, trivial⟩
  | consumer hm =>
    obtain rfl : _ = 0 := beq_iff_eq.mp ha.2
    exact ⟨h.producer.stable hm.byConsumer hm.notOfProducer,
      hm.refusal hp.popped hpushes h.consumer⟩
  | producerFlush | consumerFlush | flush | size | empty => cases ha.1

section Reach

variable {ok : State α Nat → Act α → Prop} {capacity : Nat} {memory : Nat → α} {q₀ : SPSC α Nat}
  {s : State α Nat} {e' : List (Event α Nat)}

/-- The run lemma. -/
theorem reach_refusals (hB : PublishBatch < 2 ^ 64) (hq : SPSC.new capacity memory = .ok q₀)
    (hn : Near (State.start q₀)) (h : (spsc PublishBatch).Reach ok (State.start q₀) s es)
    (hok : ∀ s a, ok s a → a.pushPop = true ∧ a.newest = true) :
    Refusals (max PublishBatch 1) s es := by
  induction h with
  | refl => exact ⟨trivial, trivial⟩
  | @tail s s' es e a hr ha hst ih =>
    have hs := reach_steady hB hq hn hr fun s a ha => Act.pushPop_calm (hok s a ha).1
    have ho := hs.near.inv.ordered
    have hp := reach_published hq hr
    -- The calls that have returned lag behind the local counters by the call in progress.
    have hpops := reach_returned hr rfl
    have hpushes := reach_pushed hr rfl
    refine (step_move hst).refusals (hok _ _ ha) hs.near.inv hp ?_ ?_ ih
    · refine hs.lag.consumer.returned ho ?_
      rw [hp.popped, hpops, List.length_append, ConsumerPc.length_held]
    · exact hs.lag.producer.returned ho (hp.accepted.trans hpushes)

/-- The load of a push that returned `false`. -/
theorem push_refused (hB : PublishBatch < 2 ^ 64) (hq : SPSC.new capacity memory = .ok q₀)
    (hn : Near (State.start q₀)) (h : (spsc PublishBatch).Reach ok (State.start q₀) s es)
    (hok : ∀ s a, ok s a → a.pushPop = true ∧ a.newest = true)
    (he : es = e ++ .producerReturn (.push false) :: e') :
    ∃ e₁ x, Trace.Latest Event.ofProducer e₁ (.loadReader x) e ∧
      (accepted e₁).length = x + q₀.capacity ∧
      (popResults e₁).reduceOption.length < x + max PublishBatch 1 := by
  obtain ⟨s₁, s₂, a, es₁, f, f', hr, -, hst, rfl⟩ := h.origin he
  obtain ⟨rfl, x, hp⟩ := (step_move hst).push_returns rfl
  have hrefusal := (reach_refusals hB hq hn hr hok).producer
  rw [hp] at hrefusal
  obtain ⟨⟨e₁, hlatest, hcount, hlt⟩, hfull⟩ := hrefusal
  have hcap : s₁.q.capacity = q₀.capacity := reach_capacity hr
  rw [List.append_nil]
  exact ⟨e₁, _, hlatest, hcap ▸ hcount.symm.trans hfull, hlt⟩

/-- The load of a pop that returned `false`. -/
theorem pop_refused (hB : PublishBatch < 2 ^ 64) (hq : SPSC.new capacity memory = .ok q₀)
    (hn : Near (State.start q₀)) (h : (spsc PublishBatch).Reach ok (State.start q₀) s es)
    (hok : ∀ s a, ok s a → a.pushPop = true ∧ a.newest = true)
    (he : es = e ++ .consumerReturn (.pop none) :: e') :
    ∃ e₁ x, Trace.Latest Event.ofConsumer e₁ (.loadWriter x) e ∧ (popped e₁).length = x ∧
      (pushResults e₁).count true < x + max PublishBatch 1 := by
  obtain ⟨s₁, s₂, a, es₁, f, f', hr, -, hst, rfl⟩ := h.origin he
  obtain ⟨rfl, x, hc⟩ := (step_move hst).pop_returns rfl
  have hrefusal := (reach_refusals hB hq hn hr hok).consumer
  rw [hc] at hrefusal
  obtain ⟨⟨e₁, hlatest, hcount, hlt⟩, hempty⟩ := hrefusal
  rw [List.append_nil]
  exact ⟨e₁, _, hlatest, hcount.symm.trans hempty, hlt⟩

/-- Between the calls of the producer, its counter is its mark. -/
theorem ProducerLag.idle {q : SPSC α Nat} {l : Option ProducerResult} (ho : Ordered q)
    (h : ProducerLag PublishBatch q (.idle l)) : q.writer.value ≤ q.producer.localWriter ∧
      q.producer.localWriter < q.writer.value + max PublishBatch 1 ∧
      q.writer.value = q.producer.lastPublished :=
  ⟨ho.writer_le_local, h.lt ho rfl, h.published⟩

/-- Between the calls of the consumer, its counter is its mark. -/
theorem ConsumerLag.idle {q : SPSC α Nat} {l : Option (ConsumerResult α)} (ho : Ordered q)
    (h : ConsumerLag PublishBatch q (.idle l)) : q.reader.value ≤ q.consumer.localReader ∧
      q.consumer.localReader < q.reader.value + max PublishBatch 1 ∧
      q.reader.value = q.consumer.lastPublished :=
  ⟨ho.reader_le_local, h.lt ho rfl, h.published⟩

end Reach

/-! ## Every run -/

theorem Event.ofProducer_wrap (ev : Event α Nat) : ev.wrap.ofProducer = ev.ofProducer := by
  cases ev <;> rfl

theorem Event.ofConsumer_wrap (ev : Event α Nat) : ev.wrap.ofConsumer = ev.ofConsumer := by
  cases ev <;> rfl

theorem Event.wrap_producerReturn {ev : Event α Nat} {r : ProducerResult}
    (h : ev.wrap = .producerReturn r) : ev = .producerReturn r := by
  cases ev <;> simp_all [wrap]

theorem Event.wrap_consumerReturn {ev : Event α Nat} {r : ConsumerResult α}
    (h : ev.wrap = .consumerReturn r) : ev = .consumerReturn r := by
  cases ev <;> simp_all [wrap]

section Runs

variable {capacity PublishBatch : BitVec 64} {memory : BitVec 64 → α} {q : SPSC α (BitVec 64)}
  {sched : List (Act α)} {s : State α (BitVec 64)} {es : List (Event α (BitVec 64))}

/-- **Spurious failures are bounded by the batch.** In every interleaving of pushes and pops that
load the newest values, with `B = max PublishBatch 1`: when a push returns `false`, then at its load
of `reader_` (after the history `e₁`) the accepted elements were more than `capacity - B` ahead of
the pops that had returned; when a pop returns `false`, then at its load of `writer_` the pushes
that had returned were less than `B` ahead of the pops that were done. Between the calls of a party,
its shared counter is its mark, and less than `B` behind its local counter. -/
theorem spurious_bounded (hq : SPSC.new capacity memory = .ok q)
    (h : (spsc PublishBatch).run (State.start q) sched = some (s, es))
    (hact : ∀ a ∈ sched, a.pushPop = true ∧ a.newest = true) :
    (∀ e e', es = e ++ .producerReturn (.push false) :: e' → ∃ e₁ x,
      Trace.Latest Event.ofProducer e₁ (.loadReader x) e ∧
      BitVec.ofNat 64 (accepted e₁).length - x = capacity ∧
      (popResults e₁).reduceOption.length + capacity.toNat + 1 ≤
        (accepted e₁).length + max PublishBatch.toNat 1) ∧
    (∀ e e', es = e ++ .consumerReturn (.pop none) :: e' → ∃ e₁ x,
      Trace.Latest Event.ofConsumer e₁ (.loadWriter x) e ∧
      BitVec.ofNat 64 (popped e₁).length = x ∧
      (pushResults e₁).count true + 1 ≤ (popped e₁).length + max PublishBatch.toNat 1) ∧
    ∃ t et, Unbounded capacity PublishBatch memory sched s es t et ∧
      (∀ l, s.producer = .idle l → t.q.writer.value ≤ t.q.producer.localWriter ∧
        t.q.producer.localWriter < t.q.writer.value + max PublishBatch.toNat 1 ∧
        t.q.writer.value = t.q.producer.lastPublished) ∧
      (∀ l, s.consumer = .idle l → t.q.reader.value ≤ t.q.consumer.localReader ∧
        t.q.consumer.localReader < t.q.reader.value + max PublishBatch.toNat 1 ∧
        t.q.reader.value = t.q.consumer.lastPublished) := by
  have hok : (spsc PublishBatch).Along (fun _ a => a.pushPop = true ∧ a.newest = true)
      (State.start q) sched := .of_forall fun a ha _ => hact a ha
  obtain ⟨q₀, t, et, hu, hnear, hnew, hr, hcap⟩ := exists_unbounded_along hq h hok
  have hstart : Near (State.start q₀) := by
    obtain ⟨q₁, hnew₁, -, -, hn₁⟩ := new_unwrap hq
    cases hnew.symm.trans hnew₁
    exact hn₁
  have hcap₀ : q₀.capacity = capacity.toNat := (reach_capacity hr).symm.trans hcap
  have hact' : ∀ (s : State α Nat) (a : Act α), (Near s ∧ a.pushPop = true ∧ a.newest = true) →
      a.pushPop = true ∧ a.newest = true := fun _ _ ha => ha.2
  have hsteady := reach_steady PublishBatch.isLt hnew hstart hr
    fun s a ha => Act.pushPop_calm (hact' s a ha).1
  refine ⟨fun e e' he => ?_, fun e e' he => ?_, t, et, hu, fun l hl => ?_, fun l hl => ?_⟩
  · rw [hu.events] at he
    obtain ⟨e₀, ev, e₀', he₀, rfl, hev⟩ := Trace.map_eq_append_cons he
    obtain rfl := Event.wrap_producerReturn hev
    obtain ⟨e₁, x, hlatest, hfull, hlt⟩ := push_refused PublishBatch.isLt hnew hstart hr hact' he₀
    refine ⟨e₁.map Event.wrap, wrap x, hlatest.map Event.ofProducer_wrap, ?_, ?_⟩
    · rw [accepted_wrap, hfull, hcap₀, wrap, Counter.ofNat_sub (by omega), Nat.add_sub_cancel_left]
      exact wrap_toNat capacity
    · rw [accepted_wrap, popResults_wrap]
      omega
  · rw [hu.events] at he
    obtain ⟨e₀, ev, e₀', he₀, rfl, hev⟩ := Trace.map_eq_append_cons he
    obtain rfl := Event.wrap_consumerReturn hev
    obtain ⟨e₁, x, hlatest, hempty, hlt⟩ := pop_refused PublishBatch.isLt hnew hstart hr hact' he₀
    refine ⟨e₁.map Event.wrap, wrap x, hlatest.map Event.ofConsumer_wrap, ?_, ?_⟩
    · rw [popped_wrap, hempty]
      rfl
    · rw [popped_wrap, pushResults_wrap]
      omega
  · rw [hu.state] at hl
    have hlag := hsteady.lag.producer
    rw [ProducerPc.of_wrap_idle hl] at hlag
    exact hlag.idle hnear.inv.ordered
  · rw [hu.state] at hl
    have hlag := hsteady.lag.consumer
    rw [ConsumerPc.of_wrap_idle hl] at hlag
    exact hlag.idle hnear.inv.ordered

/-- A ring of two slots with a batch of two: a push fails although one of its elements was popped,
and a pop fails although a push has returned. -/
theorem spurious_bounded_two : ∃ es : List (Event Bool (BitVec 64)),
    pushResults es = [true, true, false, true] ∧ popResults es = [some true, some false, none] ∧
      (∀ e e', es = e ++ .producerReturn (.push false) :: e' → ∃ e₁ x,
        Trace.Latest Event.ofProducer e₁ (.loadReader x) e ∧
        BitVec.ofNat 64 (accepted e₁).length - x = 2 ∧
        (popResults e₁).reduceOption.length + 2 + 1 ≤ (accepted e₁).length + 2) ∧
      ∀ e e', es = e ++ .consumerReturn (.pop none) :: e' → ∃ e₁ x,
        Trace.Latest Event.ofConsumer e₁ (.loadWriter x) e ∧
        BitVec.ofNat 64 (popped e₁).length = x ∧
        (pushResults e₁).count true + 1 ≤ (popped e₁).length + 2 := by
  have h := @spurious_bounded Bool 2 2 (fun _ => false) _
    (.push true :: List.replicate 4 (.producer 0) ++
      .push false :: List.replicate 8 (.producer 0) ++
      .pop :: List.replicate 6 (.consumer 0) ++ .push true :: List.replicate 7 (.producer 0) ++
      .pop :: List.replicate 8 (.consumer 0) ++ .push true :: List.replicate 6 (.producer 0) ++
      .pop :: List.replicate 7 (.consumer 0)) _ _ rfl rfl (by decide)
  exact ⟨_, rfl, rfl, h.1, h.2.1⟩

end Runs

end FastQ
