import FastQ.Proofs.Harness

/-!
# Shutdown of the benchmark

After `stop` is set, the producer accepts at most one more element. When the consumer has left, less
than a batch is unpopped, so if the batch is at most the capacity the element has room, and the pop
on which the consumer left has published `reader_`: every push attempt that starts then succeeds
(`Succeeding`), and the producer leaves too. If the batch is larger than the capacity, a full ring
can be unpublished when the consumer leaves (`Filled`), and then the producer retries for ever
(`Stuck`).
-/

namespace FastQ

namespace Benchmark

variable {PublishBatch : BitVec 64}

/-! ## The consumer has left -/

/-- The consumer does not come back. -/
theorem Move.stays {b b' : Benchmark} {e : List (Event (BitVec 64) (BitVec 64))}
    (hm : Move PublishBatch b b' e) (h : b.consumer = .returned) : b'.consumer = .returned := by
  cases hm with
  | drain hc | again hc | pop hc | popped hc | drainPop hc | drained hc =>
    rw [h] at hc
    cases hc
  | finish => rfl
  | consumer hc =>
    rw [h] at hc
    rcases hc with hc | hc <;> cases hc
  | _ => exact h

theorem reach_stays {ok : Benchmark → Thread → Prop} {b b' : Benchmark}
    {es : List (Event (BitVec 64) (BitVec 64))}
    (h : (runSpscBenchmark PublishBatch).Reach ok b b' es) (hc : b.consumer = .returned) :
    b'.consumer = .returned :=
  h.invariant (P := fun b _ => b.consumer = .returned) hc
    fun _ _ _ _ _ hc _ hst => (step_move hst).stays hc

/-- After the consumer has left, the steps of the queue are the producer's. -/
theorem Follows.byProducer {b b' : Benchmark} {t t' : State (BitVec 64) Nat}
    {e : List (Event (BitVec 64) (BitVec 64))} (h : Follows PublishBatch t t' e)
    (hg : Good PublishBatch b t) (hg' : Good PublishBatch b' t') (hc : b.consumer = .returned)
    (hc' : b'.consumer = .returned) :
    (t' = t ∧ e = []) ∨ (e = [] ∧ t'.q = t.q ∧ ∃ data, t'.producer = .fullCheck data) ∨
      ∃ et, ProducerMove PublishBatch.toNat 0 t.q t.producer t'.q t'.producer et ∧
        e = et.map Event.wrap := by
  have hi := hg.returned hc
  have hi' := hg'.returned hc'
  rcases h with h | ⟨a, et, hm, rfl, ha, hk⟩
  · exact .inl h
  · cases hm with
    | push => exact .inr (.inl ⟨rfl, rfl, _, rfl⟩)
    | producer hm =>
      obtain rfl : _ = 0 := beq_iff_eq.mp hk
      exact .inr (.inr ⟨et, hm, rfl⟩)
    | pop => cases hi'
    | consumer hm =>
      obtain rfl : _ = _ := hi
      cases hm
    | producerFlush | consumerFlush | flush | size | empty => cases ha

/-- Everything that the consumer has popped is published. -/
theorem Good.reader {b : Benchmark} {t : State (BitVec 64) Nat} (h : Good PublishBatch b t)
    (hc : b.consumer = .returned) : t.q.reader.value = t.q.consumer.localReader :=
  h.steady.kept.publishedReader (by rw [h.returned hc]; rfl)

end Benchmark

/-! ## Push attempts that succeed -/

section Succeeding

variable {α : Type} {PublishBatch : Nat} {q q' : SPSC α Nat} {e : List (Event α Nat)}

/-- The push has not seen a full queue, where the newest `reader_` leaves room. -/
def Succeeding (q : SPSC α Nat) : ProducerPc α Nat → Prop
  | .fullRecheck _ => q.producer.cachedReader = q.reader.value
  | .publishWriter r _ => r ≠ .push false
  | _ => True

theorem ProducerMove.succeeding {p p' : ProducerPc α Nat}
    (hm : ProducerMove PublishBatch 0 q p q' p' e)
    (hroom : ∀ data, p = .fullRecheck data →
      q.producer.localWriter < q.reader.value + q.capacity)
    (hpos : 0 < q.capacity) (h : Succeeding q p) :
    Succeeding q' p' ∧ ∀ r ∈ pushResults e, r = true := by
  cases hm with
  | load hl =>
    rw [Atomic.load_zero] at hl
    cases hl
    exact ⟨rfl, nofun⟩
  | @refuse data hf =>
    have hlt := hroom data rfl
    have hcached : q.producer.cachedReader = q.reader.value := h
    have hfull : q.producer.localWriter - q.producer.cachedReader = q.capacity :=
      of_decide_eq_true hf
    omega
  | due => exact ⟨nofun, nofun⟩
  | notDue => exact ⟨trivial, fun r hr => List.mem_singleton.mp hr⟩
  | markReader => exact ⟨nofun, nofun⟩
  | readWriter | storeWriter | readWriterAgain => exact ⟨h, nofun⟩
  | @markWriter r =>
    refine ⟨trivial, ?_⟩
    match r, h with
    | .push true, _ => exact fun r hr => List.mem_singleton.mp hr
    | .push false, h => exact (h rfl).elim
    | .flush, _ => exact nofun
  | _ => exact ⟨trivial, nofun⟩

end Succeeding

namespace Benchmark

variable {PublishBatch : BitVec 64} {capacity : BitVec 64} {b b' : Benchmark}
  {t t' : State (BitVec 64) Nat} {e es : List (Event (BitVec 64) (BitVec 64))}

/-- With the consumer gone and a batch that is at most the capacity, a push that has loaded
`reader_` has room. -/
theorem Good.room (h : Good PublishBatch b t) (hc : b.consumer = .returned)
    (hle : PublishBatch.toNat ≤ t.q.capacity) {data : BitVec 64}
    (hp : t.producer = .fullRecheck data) :
    t.q.producer.localWriter < t.q.reader.value + t.q.capacity := by
  have hpos := h.steady.near.inv.shape.pos
  have hin : b.producer = .inside := by
    by_contra hne
    obtain ⟨l, hl⟩ := h.producer hne
    rw [hp] at hl
    cases hl
  have hlast := h.last (.inl hc)
  unfold LastPushed at hlast
  rw [hin, hp] at hlast
  rw [h.reader hc]
  rcases hlast with hlast | hlast | hlast
  · cases hlast
  · cases hlast
  · omega

/-- The step lemma. -/
theorem Follows.succeeding (hf : Follows PublishBatch t t' e) (h : Good PublishBatch b t)
    (h' : Good PublishBatch b' t') (hc : b.consumer = .returned) (hc' : b'.consumer = .returned)
    (hle : PublishBatch.toNat ≤ t.q.capacity) (hs : Succeeding t.q t.producer) :
    Succeeding t'.q t'.producer ∧ ∀ r ∈ pushResults e, r = true := by
  rcases hf.byProducer h h' hc hc' with ⟨rfl, rfl⟩ | ⟨rfl, -, data, hp⟩ | ⟨et, hm, rfl⟩
  · exact ⟨hs, nofun⟩
  · rw [hp]
    exact ⟨trivial, nofun⟩
  · rw [pushResults_wrap]
    exact hm.succeeding (fun data hp => h.room hc hle hp) h.steady.near.inv.shape.pos hs

/-- The run rule, after the consumer has left: what each step keeps, and makes of the results of the
pushes, holds in every run. -/
theorem run_results {v : Bool} {I : Benchmark → State (BitVec 64) Nat → Prop} {more : List Thread}
    (hstep : ∀ b b' t t' e, Move PublishBatch b b' e → Follows PublishBatch t t' e →
      Good PublishBatch b t → Good PublishBatch b' t' → b.consumer = .returned → I b t →
      I b' t' ∧ ∀ r ∈ pushResults e, r = v)
    (h : Good PublishBatch b t) (hc : b.consumer = .returned) (hI : I b t)
    (hrun : (runSpscBenchmark PublishBatch).run b more = some (b', es)) :
    (∀ r ∈ pushResults es, r = v) ∧ ∃ t', I b' t' := by
  have hinv := (Machine.run_reach hrun).invariant
    (P := fun b es => ∃ t, Good PublishBatch b t ∧ b.consumer = .returned ∧ I b t ∧
      ∀ r ∈ pushResults es, r = v) ⟨t, h, hc, hI, nofun⟩ ?_
  · obtain ⟨t', -, -, hI', hres⟩ := hinv
    exact ⟨hres, t', hI'⟩
  · rintro b es a b' e ⟨t, hg, hc, hI, hres⟩ - hst
    have hm := step_move hst
    obtain ⟨t', hg', hf⟩ := hm.good hg
    obtain ⟨hI', hres'⟩ := hstep b b' t t' e hm hf hg hg' hc hI
    refine ⟨t', hg', hm.stays hc, hI', fun r hr => ?_⟩
    rw [pushResults_append] at hr
    exact (List.mem_append.mp hr).elim (hres r) (hres' r)

/-- The run lemma: no push attempt fails any more. -/
theorem run_succeeding {more : List Thread} (h : Good PublishBatch b t)
    (hc : b.consumer = .returned) (hle : PublishBatch.toNat ≤ t.q.capacity)
    (hs : Succeeding t.q t.producer)
    (hrun : (runSpscBenchmark PublishBatch).run b more = some (b', es)) :
    ∀ r ∈ pushResults es, r = true := by
  refine (run_results (I := fun _ t => PublishBatch.toNat ≤ t.q.capacity ∧
    Succeeding t.q t.producer) ?_ h hc ⟨hle, hs⟩ hrun).1
  rintro b b' t t' e hm hf hg hg' hc ⟨hle, hs⟩
  obtain ⟨hs', hres⟩ := hf.succeeding hg hg' hc (hm.stays hc) hle hs
  exact ⟨⟨hf.capacity ▸ hle, hs'⟩, hres⟩

/-! ## A thread that goes on alone -/

/-- Inside a call, the steps of the producer thread are those of the call. -/
theorem producer_alone {s : State (BitVec 64) (BitVec 64)} (hp : b.producer = .inside)
    (h : (spsc PublishBatch).Repeat (.producer 0) b.s s) :
    (runSpscBenchmark PublishBatch).Repeat .producer b { b with s } := by
  refine h.lift (fun s => { b with s }) fun s s' e hst => ?_
  have hidle : ∀ l, s.producer ≠ .idle l := by
    intro l hl
    simp [spsc, FastQ.step, hl, FastQ.stepProducer] at hst
  exact ⟨e, by simp [runSpscBenchmark, step, stepProducer, hp, access, hst, hidle]⟩

/-- Inside a call of the drain, the steps of the consumer thread are those of the call. -/
theorem consumer_alone {s : State (BitVec 64) (BitVec 64)} (hc : b.consumer = .drainInside)
    (h : (spsc PublishBatch).Repeat (.consumer 0) b.s s) :
    (runSpscBenchmark PublishBatch).Repeat .consumer b { b with s } := by
  refine h.lift (fun s => { b with s }) fun s s' e hst => ?_
  have hidle : ∀ l, s.consumer ≠ .idle l := by
    intro l hl
    simp [spsc, FastQ.step, hl, FastQ.stepConsumer] at hst
  exact ⟨e, by simp [runSpscBenchmark, step, stepConsumer, hc, access, hst, hidle]⟩

variable (PublishBatch) in
/-- A push attempt of the producer thread, alone. -/
theorem attempt_alone {l : Option ProducerResult} (hp : b.producer = .call)
    (hl : b.s.producer = .idle l) :
    let r := b.s.q.push PublishBatch b.payload
    (runSpscBenchmark PublishBatch).Repeat .producer b
      { b with s := ⟨r.2, .idle (some (.push r.1)), b.s.consumer⟩, producer := .inside } := by
  intro r
  have hstep : (runSpscBenchmark PublishBatch).step b .producer = some
      ({ b with s := ⟨b.s.q, .fullCheck b.payload, b.s.consumer⟩, producer := .inside }, []) := by
    simp [runSpscBenchmark, step, stepProducer, hp, access, spsc, FastQ.step, hl]
  exact (Machine.Repeat.one hstep).trans
    (producer_alone rfl (push_alone PublishBatch b.s.q b.s.consumer b.payload))

variable (PublishBatch) in
/-- A pop of the drain, alone. -/
theorem drainPop_alone {l : Option (ConsumerResult (BitVec 64))} (hc : b.consumer = .drainCall)
    (hl : b.s.consumer = .idle l) :
    let r := b.s.q.pop PublishBatch
    (runSpscBenchmark PublishBatch).Repeat .consumer b
      { b with s := ⟨r.2, b.s.producer, .idle (some (.pop r.1))⟩, consumer := .drainInside } := by
  intro r
  have hstep : (runSpscBenchmark PublishBatch).step b .consumer = some
      ({ b with s := ⟨b.s.q, b.s.producer, .emptyCheck⟩, consumer := .drainInside }, []) := by
    simp [runSpscBenchmark, step, stepConsumer, hc, access, spsc, FastQ.step, hl]
  exact (Machine.Repeat.one hstep).trans
    (consumer_alone rfl (pop_alone PublishBatch b.s.q b.s.producer))

/-- A push attempt that succeeds, alone. -/
theorem attempt_succeeds {l : Option ProducerResult} {q' : SPSC (BitVec 64) (BitVec 64)}
    (hp : b.producer = .call) (hl : b.s.producer = .idle l)
    (hpush : b.s.q.push PublishBatch b.payload = (true, q')) :
    (runSpscBenchmark PublishBatch).Repeat .producer b
      { b with
        s := ⟨q', .idle (some (.push true)), b.s.consumer⟩
        payload := b.payload + 1
        producer := .check } := by
  have hattempt := attempt_alone PublishBatch hp hl
  simp only [hpush] at hattempt
  exact hattempt.trans (.one (e := []) rfl)

/-- A push attempt that fails, alone. -/
theorem attempt_fails {l : Option ProducerResult} {q' : SPSC (BitVec 64) (BitVec 64)}
    (hp : b.producer = .call) (hl : b.s.producer = .idle l)
    (hpush : b.s.q.push PublishBatch b.payload = (false, q')) :
    (runSpscBenchmark PublishBatch).Repeat .producer b
      { b with s := ⟨q', .idle (some (.push false)), b.s.consumer⟩, producer := .call } := by
  have hattempt := attempt_alone PublishBatch hp hl
  simp only [hpush] at hattempt
  exact hattempt.trans (.one (e := []) rfl)

/-- The pop on which the consumer leaves, alone. -/
theorem drain_ends {l : Option (ConsumerResult (BitVec 64))} {q' : SPSC (BitVec 64) (BitVec 64)}
    (hc : b.consumer = .drainCall) (hl : b.s.consumer = .idle l)
    (hpop : b.s.q.pop PublishBatch = (none, q')) :
    (runSpscBenchmark PublishBatch).Repeat .consumer b
      { b with s := ⟨q', b.s.producer, .idle (some (.pop none))⟩, consumer := .returned } := by
  have hdrain := drainPop_alone PublishBatch hc hl
  simp only [hpop] at hdrain
  exact hdrain.trans (.one (e := []) rfl)

/-! ## The producer leaves too -/

theorem check_leaves (hp : b.producer = .check) (hs : b.stop = true) :
    (runSpscBenchmark PublishBatch).Repeat .producer b { b with producer := .returned } :=
  .one (e := []) (by simp [runSpscBenchmark, step, stepProducer, hp, hs])

/-- An attempt that starts after the consumer has left succeeds, and is the last one. -/
theorem call_leaves (h : Good PublishBatch b t) (hc : b.consumer = .returned)
    (hle : PublishBatch.toNat ≤ t.q.capacity) (hp : b.producer = .call) :
    ∃ b', (runSpscBenchmark PublishBatch).Repeat .producer b b' ∧ b'.producer = .returned := by
  obtain ⟨l, hl⟩ := h.producer (by rw [hp]; decide)
  have hpos := h.steady.near.inv.shape.pos
  have hlt : t.q.producer.localWriter < t.q.consumer.localReader + max PublishBatch.toNat 1 := by
    have hlast := h.last (.inl hc)
    unfold LastPushed at hlast
    rwa [hp] at hlast
  have hreader := h.reader hc
  have hpush : (b.s.q.push PublishBatch b.payload).1 = true := by
    have hn : Near ⟨t.q, .idle l, t.consumer⟩ := hl ▸ h.steady.near
    have hw := push_wrap PublishBatch.isLt hn b.payload
    rw [wrap_toNat] at hw
    rw [h.state]
    show (t.q.wrap.push PublishBatch b.payload).1 = true
    rw [hw, push_fst _ hn.inv.ordered]
    exact decide_eq_true (show t.q.producer.localWriter < t.q.reader.value + t.q.capacity by omega)
  have hidle : b.s.producer = .idle l := by
    rw [h.state, State.wrap, hl]
    rfl
  have hstop : b.stop = true := h.stop (.inr (.inr hc))
  exact ⟨_, (attempt_succeeds hp hidle (Prod.ext hpush rfl)).trans (check_leaves rfl hstop), rfl⟩

/-- **The producer leaves.** Wherever it is when the consumer has left, the producer alone ends its
loop. -/
theorem producer_leaves (h : Good PublishBatch b t) (hc : b.consumer = .returned)
    (hle : PublishBatch.toNat ≤ t.q.capacity) :
    ∃ b', (runSpscBenchmark PublishBatch).Repeat .producer b b' ∧ b'.producer = .returned := by
  have hstop : b.stop = true := h.stop (.inr (.inr hc))
  cases hp : b.producer with
  | check => exact ⟨_, check_leaves hp hstop, rfl⟩
  | call => exact call_leaves h hc hle hp
  | returned => exact ⟨b, .of_run (n := 0) rfl, hp⟩
  | inside =>
    -- The attempt in progress may still fail; then the next one is the last.
    obtain ⟨q', l, hret⟩ := producer_returns PublishBatch b.s.q b.s.producer b.s.consumer
    have hret := producer_alone hp hret
    obtain ⟨es₁, hr₁⟩ := hret.reach
    obtain ⟨t₁, hg₁, hcap₁⟩ := reach_good hr₁ h
    obtain ⟨ok, hok⟩ : ∃ ok, l = some (.push ok) := by
      have hpush := hg₁.pushing hp
      have hidle : t₁.wrap.producer = .idle l := by rw [← hg₁.state]
      rwa [ProducerPc.of_wrap_idle hidle] at hpush
    subst hok
    cases ok with
    | true =>
      have hpushed : (runSpscBenchmark PublishBatch).step
          { b with s := ⟨q', .idle (some (.push true)), b.s.consumer⟩ } .producer = some
          ({ b with
            s := ⟨q', .idle (some (.push true)), b.s.consumer⟩
            payload := b.payload + 1
            producer := .check }, []) := by
        simp [runSpscBenchmark, step, stepProducer, hp]
      exact ⟨_, hret.trans ((Machine.Repeat.one hpushed).trans (check_leaves rfl hstop)), rfl⟩
    | false =>
      have hretry : (runSpscBenchmark PublishBatch).step
          { b with s := ⟨q', .idle (some (.push false)), b.s.consumer⟩ } .producer = some
          ({ b with
            s := ⟨q', .idle (some (.push false)), b.s.consumer⟩
            producer := .call }, []) := by
        simp [runSpscBenchmark, step, stepProducer, hp]
      obtain ⟨t₂, hg₂, hf⟩ := (step_move hretry).good hg₁
      obtain ⟨b', hb', hleft⟩ := call_leaves hg₂ hc (by rw [hf.capacity, hcap₁]; exact hle) rfl
      exact ⟨b', hret.trans ((Machine.Repeat.one hretry).trans hb'), hleft⟩

end Benchmark

/-! ## A producer that retries for ever -/

section Stuck

variable {α : Type}

/-- The ring is full for the newest `reader_`, and no push is past its check. -/
structure Stuck (q : SPSC α Nat) (p : ProducerPc α Nat) : Prop where
  full : q.producer.localWriter = q.reader.value + q.capacity
  atSlot : p.atSlot = false
  advanced : p.advanced = false
  accepted : p ≠ .idle (some (.push true))

theorem ProducerMove.stuck {PublishBatch : Nat} {q q' : SPSC α Nat} {p p' : ProducerPc α Nat}
    {e : List (Event α Nat)} (hm : ProducerMove PublishBatch 0 q p q' p' e) (ho : Ordered q)
    (hp : p.Pushing) (h : Stuck q p) : Stuck q' p' ∧ ∀ r ∈ pushResults e, r = false := by
  obtain ⟨hfull, hslot, hadv, -⟩ := h
  have hnever : q.isFull = true := by
    have := ho.writer_le
    have := ho.cachedReader_le
    exact decide_eq_true (by omega)
  cases hm with
  | full => exact ⟨⟨hfull, rfl, rfl, nofun⟩, nofun⟩
  | room hf | roomNow hf =>
    rw [hnever] at hf
    cases hf
  | load hl =>
    rw [Atomic.load_zero] at hl
    cases hl
    exact ⟨⟨hfull, rfl, rfl, nofun⟩, nofun⟩
  | refuse => exact ⟨⟨hfull, rfl, rfl, nofun⟩, nofun⟩
  | write | increment => cases hslot
  | due | notDue => cases hadv
  | readReader | storeReader | readReaderAgain | markReader => exact hp.elim
  | readWriter | storeWriter | readWriterAgain => exact ⟨⟨hfull, rfl, hadv, nofun⟩, nofun⟩
  | @markWriter r =>
    obtain ⟨ok, rfl⟩ := hp
    cases ok with
    | true => cases hadv
    | false => exact ⟨⟨hfull, rfl, rfl, nofun⟩, fun r hr => List.mem_singleton.mp hr⟩

/-- `n` elements are in the ring, and nothing of it is published. -/
structure Filled (n : BitVec 64) (q : SPSC α (BitVec 64)) : Prop where
  producer : q.producer = ⟨n, 0, 0⟩
  consumer : q.consumer = ⟨0, 0, 0⟩
  writer : q.writer = ⟨0, []⟩
  reader : q.reader = ⟨0, []⟩

variable {n PublishBatch : BitVec 64} {q : SPSC α (BitVec 64)}

theorem Filled.push (h : Filled n q) (hn : n < q.capacity) (hB : q.capacity < PublishBatch)
    (data : α) : (q.push PublishBatch data).1 = true ∧
      Filled (n + 1) (q.push PublishBatch data).2 := by
  have hroom : q.isFull = false := by
    unfold SPSC.isFull
    rw [h.producer]
    exact decide_eq_false (by bv_omega)
  have hdue : (q.writeSlot data).advanceWriter.pushDue PublishBatch = false := by
    have hwriter : (q.writeSlot data).advanceWriter.producer = ⟨n + 1, 0, 0⟩ := by
      simp [SPSC.writeSlot, SPSC.advanceWriter, h.producer]
    unfold SPSC.pushDue
    rw [hwriter]
    exact decide_eq_false (by bv_omega)
  have heq : q.push PublishBatch data = (true, (q.writeSlot data).advanceWriter) := by
    simp [SPSC.push, SPSC.enqueue, hroom, hdue]
  rw [heq]
  refine ⟨rfl, ?_, h.consumer, h.writer, h.reader⟩
  simp [SPSC.writeSlot, SPSC.advanceWriter, h.producer]

theorem Filled.pop (h : Filled n q) : q.pop PublishBatch =
    (none, (q.cacheWriter q.writer.loadNewest).publishReader) := by
  simp [SPSC.pop, SPSC.isEmpty, SPSC.cacheWriter, Atomic.loadNewest, h.consumer, h.writer]

/-- A push into a full ring, when both the cached and the newest `reader_` say so. -/
theorem push_full (hcached : q.producer.localWriter - q.producer.cachedReader = q.capacity)
    (hnewest : q.producer.localWriter - q.reader.value = q.capacity) (data : α) :
    q.push PublishBatch data = (false, (q.cacheReader q.reader.loadNewest).publishWriter) := by
  simp [SPSC.push, SPSC.isFull, SPSC.cacheReader, Atomic.loadNewest, hcached, hnewest]

end Stuck

namespace Benchmark

variable {PublishBatch : BitVec 64} {b b' : Benchmark} {t t' : State (BitVec 64) Nat}
  {e es : List (Event (BitVec 64) (BitVec 64))}

/-- A stuck producer does not leave its retry loop. -/
theorem Move.retrying (hm : Move PublishBatch b b' e) (hg : Good PublishBatch b t)
    (hs : Stuck t.q t.producer) (hp : b.producer = .call ∨ b.producer = .inside) :
    b'.producer = .call ∨ b'.producer = .inside := by
  cases hm with
  | leave hc | next hc => rcases hp with hp | hp <;> rw [hc] at hp <;> cases hp
  | push => exact .inr rfl
  | pushed _ hi =>
    rw [hg.state] at hi
    exact (hs.accepted (ProducerPc.of_wrap_idle hi)).elim
  | retry => exact .inl rfl
  | _ => exact hp

/-- The step lemma. -/
theorem Follows.stuck (hf : Follows PublishBatch t t' e) (h : Good PublishBatch b t)
    (h' : Good PublishBatch b' t') (hc : b.consumer = .returned) (hc' : b'.consumer = .returned)
    (hs : Stuck t.q t.producer) :
    Stuck t'.q t'.producer ∧ ∀ r ∈ pushResults e, r = false := by
  rcases hf.byProducer h h' hc hc' with ⟨rfl, rfl⟩ | ⟨rfl, hq, data, hp⟩ | ⟨et, hm, rfl⟩
  · exact ⟨hs, nofun⟩
  · rw [hp, hq]
    exact ⟨⟨hs.full, rfl, rfl, nofun⟩, nofun⟩
  · rw [pushResults_wrap]
    have hin : b.producer = .inside := by
      by_contra hne
      obtain ⟨l, hl⟩ := h.producer hne
      rw [hl] at hm
      cases hm
    exact hm.stuck h.steady.near.inv.ordered (h.pushing hin) hs

/-- The run lemma: no push attempt succeeds any more, and the producer does not leave. -/
theorem run_stuck {more : List Thread} (h : Good PublishBatch b t) (hc : b.consumer = .returned)
    (hs : Stuck t.q t.producer) (hp : b.producer = .call ∨ b.producer = .inside)
    (hrun : (runSpscBenchmark PublishBatch).run b more = some (b', es)) :
    (∀ r ∈ pushResults es, r = false) ∧ b'.producer ≠ .returned := by
  have hinv := run_results (v := false) (I := fun b t => Stuck t.q t.producer ∧
    (b.producer = .call ∨ b.producer = .inside)) ?_ h hc ⟨hs, hp⟩ hrun
  · obtain ⟨hres, t', -, hp'⟩ := hinv
    refine ⟨hres, fun hret => ?_⟩
    rw [hret] at hp'
    rcases hp' with hp' | hp' <;> cases hp'
  · rintro b b' t t' e hm hf hg hg' hc ⟨hs, hp⟩
    obtain ⟨hs', hres⟩ := hf.stuck hg hg' hc (hm.stays hc) hs
    exact ⟨⟨hs', hm.retrying hg hs hp⟩, hres⟩

/-- The producer has filled the ring up to `n` elements, and the consumer has not started. -/
structure Filling (n capacity : BitVec 64) (b : Benchmark) : Prop where
  producer : b.producer = .check
  consumer : b.consumer = .check
  stop : b.stop = false
  idle : ∃ l l', b.s.producer = .idle l ∧ b.s.consumer = .idle l'
  filled : Filled n b.s.q
  capacity : b.s.q.capacity = capacity

variable {capacity : BitVec 64} {memory : BitVec 64 → BitVec 64} {q : SPSC (BitVec 64) (BitVec 64)}

/-- One more element, unpublished, while the batch is larger than the capacity. -/
theorem Filling.next {n : BitVec 64} (h : Filling n capacity b) (hn : n < capacity)
    (hB : capacity < PublishBatch) : ∃ b', (runSpscBenchmark PublishBatch).Repeat .producer b b' ∧
      Filling (n + 1) capacity b' := by
  obtain ⟨hp, hc, hs, ⟨l, l', hl, hl'⟩, hfilled, hcap⟩ := h
  obtain ⟨hpush, hfilled'⟩ := hfilled.push (hcap ▸ hn) (hcap ▸ hB) b.payload
  have hstart : (runSpscBenchmark PublishBatch).step b .producer =
      some ({ b with producer := .call }, []) := by
    simp [runSpscBenchmark, step, stepProducer, hp, hs]
  have hattempt := attempt_succeeds (b := { b with producer := .call }) rfl hl (Prod.ext hpush rfl)
  refine ⟨_, (Machine.Repeat.one hstart).trans hattempt, ?_⟩
  exact ⟨rfl, hc, hs, ⟨_, l', rfl, hl'⟩, hfilled',
    (push_capacity PublishBatch b.s.q b.payload).trans hcap⟩

/-- The producer alone fills the ring. -/
theorem fill (hq : SPSC.new capacity memory = .ok q) (hB : capacity < PublishBatch) {n : Nat}
    (hn : n ≤ capacity.toNat) : ∃ b, (runSpscBenchmark PublishBatch).Repeat .producer (start q) b ∧
      Filling (BitVec.ofNat 64 n) capacity b := by
  induction n with
  | zero =>
    obtain ⟨rfl, -⟩ := SPSC.new_eq hq
    exact ⟨_, .of_run (n := 0) rfl, ⟨rfl, rfl, rfl, ⟨_, _, rfl, rfl⟩, ⟨rfl, rfl, rfl, rfl⟩, rfl⟩⟩
  | succ n ih =>
    obtain ⟨b, hb, hfilling⟩ := ih (Nat.le_of_succ_le hn)
    have hlt : BitVec.ofNat 64 n < capacity := by bv_omega
    obtain ⟨b', hb', hfilling'⟩ := hfilling.next hlt hB
    exact ⟨b', hb.trans hb', by rwa [BitVec.ofNat_add]⟩

/-- From a full ring of which nothing is published, the consumer leaves with nothing, while the
producer has passed its last test of `stop`; its next attempt fails. -/
theorem Filling.hangs (h : Filling capacity capacity b) : ∃ sched b' es,
    (runSpscBenchmark PublishBatch).run b sched = some (b', es) ∧ b'.consumer = .returned ∧
      b'.producer = .call ∧ b'.s.producer = .idle (some (.push false)) ∧
      b'.s.q.producer.localWriter - b'.s.q.reader.value = b'.s.q.capacity := by
  obtain ⟨hp, hc, hs, ⟨l, l', hl, hl'⟩, hfilled, hcap⟩ := h
  let q' := (b.s.q.cacheWriter b.s.q.writer.loadNewest).publishReader
  have hlocal : q'.producer.localWriter = q'.capacity := by
    show b.s.q.producer.localWriter = b.s.q.capacity
    rw [hfilled.producer, hcap]
  have hcached : q'.producer.localWriter - q'.producer.cachedReader = q'.capacity := by
    rw [hlocal, show q'.producer.cachedReader = b.s.q.producer.cachedReader from rfl,
      hfilled.producer]
    exact BitVec.sub_zero _
  have hnewest : q'.producer.localWriter - q'.reader.value = q'.capacity := by
    rw [hlocal, show q'.reader.value = b.s.q.consumer.localReader from rfl, hfilled.consumer]
    exact BitVec.sub_zero _
  let b₁ : Benchmark := { b with producer := .call, stop := true, consumer := .drainCall }
  have hstart : (runSpscBenchmark PublishBatch).run b [.producer, .main, .consumer] =
      some (b₁, []) := by
    simp [runSpscBenchmark, Machine.run_cons, step, stepProducer, stepMain, stepConsumer,
      hp, hs, hc, b₁]
  obtain ⟨n, es, hdrain⟩ := @drain_ends PublishBatch b₁ _ _ rfl hl' hfilled.pop
  let b₂ : Benchmark :=
    { b₁ with s := ⟨q', b.s.producer, .idle (some (.pop none))⟩, consumer := .returned }
  obtain ⟨m, es', hattempt⟩ := @attempt_fails PublishBatch b₂ _ _ rfl hl
    (push_full hcached hnewest _)
  exact ⟨_, _, _, Machine.run_append hstart (Machine.run_append hdrain hattempt), rfl, rfl, rfl,
    hnewest⟩

end Benchmark

section Runs

variable {capacity PublishBatch : BitVec 64} {memory : BitVec 64 → BitVec 64}
  {q : SPSC (BitVec 64) (BitVec 64)}

/-- **Shutdown.** If the batch is at most the capacity: once the consumer has left, every push
attempt that starts later succeeds, and the producer leaves too. If the batch is larger: the
consumer can leave while every later push attempt fails, and the producer never leaves. -/
theorem shutdown (hq : SPSC.new capacity memory = .ok q) :
    (PublishBatch ≤ capacity → ∀ sched b es,
      (runSpscBenchmark PublishBatch).run (.start q) sched = some (b, es) → b.consumer = .returned →
      (∀ sched' b₁ es₁, (runSpscBenchmark PublishBatch).run b sched' = some (b₁, es₁) →
        b₁.producer = .call → ∀ more b' es',
        (runSpscBenchmark PublishBatch).run b₁ more = some (b', es') →
        ∀ r ∈ pushResults es', r = true) ∧
      ∃ b', (runSpscBenchmark PublishBatch).Repeat .producer b b' ∧ b'.producer = .returned) ∧
    (capacity < PublishBatch → ∃ sched b es,
      (runSpscBenchmark PublishBatch).run (.start q) sched = some (b, es) ∧ b.consumer = .returned ∧
      b.producer = .call ∧ ∀ more b' es',
        (runSpscBenchmark PublishBatch).run b more = some (b', es') →
        (∀ r ∈ pushResults es', r = false) ∧ b'.producer ≠ .returned) := by
  obtain ⟨t₀, hg₀, hcap₀⟩ := Benchmark.start_good PublishBatch hq
  refine ⟨fun hB sched b es hrun hc => ?_, fun hB => ?_⟩
  · obtain ⟨t, hg, hcap⟩ := Benchmark.reach_good (Machine.run_reach hrun) hg₀
    have hle : PublishBatch.toNat ≤ t.q.capacity := by
      rw [hcap, hcap₀]
      exact hB
    refine ⟨fun sched' b₁ es₁ hrun₁ hp more b' es' hrun' => ?_, Benchmark.producer_leaves hg hc hle⟩
    have hr := Machine.run_reach hrun₁
    obtain ⟨t₁, hg₁, hcap₁⟩ := Benchmark.reach_good hr hg
    obtain ⟨l, hl⟩ := hg₁.producer (by rw [hp]; decide)
    refine Benchmark.run_succeeding hg₁ (Benchmark.reach_stays hr hc) (hcap₁ ▸ hle) ?_ hrun'
    rw [hl]
    trivial
  · obtain ⟨b₁, ⟨n, es₁, hfill⟩, hfilling⟩ := Benchmark.fill hq hB (Nat.le_refl _)
    rw [BitVec.ofNat_toNat, BitVec.setWidth_eq] at hfilling
    obtain ⟨sched, b, es, hrun, hc, hp, hl, hfull⟩ := hfilling.hangs
    have hrun := Machine.run_append hfill hrun
    refine ⟨_, b, _, hrun, hc, hp, fun more b' es' hrun' => ?_⟩
    obtain ⟨t, hg, -⟩ := Benchmark.reach_good (Machine.run_reach hrun) hg₀
    rw [hg.state] at hl hfull
    refine Benchmark.run_stuck hg hc ?_ (.inl hp) hrun'
    have ho := hg.steady.near.inv.ordered
    have := ho.reader_le_local
    have := ho.local_le
    have := ho.cachedReader_le
    have := ho.writer_le
    have hcap := hg.steady.near.capacity_lt
    have hfull : t.q.producer.localWriter - t.q.reader.value = t.q.capacity :=
      (Counter.ofNat_sub_eq_iff (by omega) (by omega) hcap).mp hfull
    rw [ProducerPc.of_wrap_idle hl]
    exact ⟨by omega, rfl, rfl, nofun⟩

/-- A ring of one slot: with a batch of one the producer always leaves, with a batch of two it can
hang. -/
theorem shutdown_one :
    (∀ sched b es,
      (runSpscBenchmark 1).run (.start (SPSC.fresh 1 fun _ => 0)) sched = some (b, es) →
      b.consumer = .returned →
      ∃ b', (runSpscBenchmark 1).Repeat .producer b b' ∧ b'.producer = .returned) ∧
    ∃ sched b es, (runSpscBenchmark 2).run (.start (SPSC.fresh 1 fun _ => 0)) sched = some (b, es) ∧
      b.consumer = .returned ∧ ∀ more b' es',
        (runSpscBenchmark 2).run b more = some (b', es') → b'.producer ≠ .returned := by
  have h₁ := @shutdown 1 1 (fun _ => 0) _ rfl
  have h₂ := @shutdown 1 2 (fun _ => 0) _ rfl
  refine ⟨fun sched b es hrun hc => (h₁.1 (by decide) sched b es hrun hc).2, ?_⟩
  obtain ⟨sched, b, es, hrun, hc, -, hmore⟩ := h₂.2 (by decide)
  exact ⟨sched, b, es, hrun, hc, fun more b' es' h => (hmore more b' es' h).2⟩

end Runs

end FastQ
