import FastQ.Proofs.Exclusion
import FastQ.Proofs.Size

/-!
# How far the reported size is off

`localWriter_ - localReader_` elements are accepted and not popped. A `size()` sees the published
counters instead, so it is off by the lags: by what the party that asks has not published, less
than a batch between its calls, and by what the other one has not, up to a whole batch inside a call
(`FastQ/Proofs/Lag.lean`). The first makes a size too small for the producer and too large for the
consumer, the second the other way round.

* `ReaderLoaded`, `WriterLoaded`: what the load of the other party's counter found; it stays true to
  the end of the query, in which the asking party's own counters do not move.
* `WriterUpTo`: no published value is above the present one, so a consumer that finds the queue
  empty has popped everything published before.
-/

namespace FastQ

variable {α : Type}

/-- The thread loads `reader_` in a query, or returns from one. -/
def QueryEvent.loadsReader {κ : Type} (t : Observer) : QueryEvent α κ → Bool
  | .loadReader t' _ | .returned t' _ _ _ => t' == t
  | _ => false

/-- The thread loads `writer_` in a query, or returns from one. -/
def QueryEvent.loadsWriter {κ : Type} (t : Observer) : QueryEvent α κ → Bool
  | .loadWriter t' _ | .returned t' _ _ _ => t' == t
  | _ => false

/-- `localWriter_ - localReader_` after a history. -/
def localSize (es : List (QueryEvent α Nat)) : Int :=
  (accepted (queueEvents es)).length - (popped (queueEvents es)).length

/-! ## What was published -/

section Stores

variable {PublishBatch : Nat} {s s' : State α Nat} {a : Act α} {e es : List (Event α Nat)} {m : Nat}

/-- A store of `writer_` sets its value. -/
theorem Move.storeWriter (hm : Move PublishBatch s a s' e) (h : Event.storeWriter m ∈ e) :
    s'.q.writer.value = m := by
  cases hm with
  | producer hm =>
    cases hm with
    | storeWriter => simpa [SPSC.storeWriter, Atomic.store, eq_comm] using h
    | _ => simp at h
  | consumer hm =>
    cases hm with
    | storeWriter => simpa [SPSC.overwriteWriter, Atomic.overwrite, eq_comm] using h
    | _ => simp at h
  | flush =>
    obtain rfl : m = _ := by simpa using h
    rfl
  | _ => simp at h

/-- No value above `n` was published in `writer_`. -/
def WriterUpTo (n : Nat) (es : List (Event α Nat)) : Prop := ∀ m, Event.storeWriter m ∈ es → m ≤ n

theorem Move.writerUpTo (hm : Move PublishBatch s a s' e) (hg : Grows s.q s'.q)
    (h : WriterUpTo s.q.writer.value es) : WriterUpTo s'.q.writer.value (es ++ e) := by
  intro m hmem
  rcases List.mem_append.mp hmem with hmem | hmem
  · exact Nat.le_trans (h m hmem) hg.writer
  · exact Nat.le_of_eq (hm.storeWriter hmem).symm

variable {ok : State α Nat → Act α → Prop} {capacity : Nat} {memory : Nat → α} {q₀ : SPSC α Nat}

theorem reach_writerUpTo (hB : PublishBatch < 2 ^ 64) (hq : SPSC.new capacity memory = .ok q₀)
    (hn : Near (State.start q₀)) (h : (spsc PublishBatch).Reach ok (State.start q₀) s es)
    (hok : ∀ s a, ok s a → a.calm = true) : WriterUpTo s.q.writer.value es := by
  induction h with
  | refl => exact nofun
  | tail a hr ha hst ih =>
    have hs := reach_steady hB hq hn hr hok
    have hm := step_move hst
    exact hm.writerUpTo (hm.kept hs.near.inv hs.kept (hs.calm.unraced a)).2 ih

/-- What was popped is the beginning of what was accepted. -/
theorem reach_prefix (hq : SPSC.new capacity memory = .ok q₀)
    (h : (spsc PublishBatch).Reach ok (State.start q₀) s es) : popped es <+: accepted es := by
  obtain ⟨rfl, -⟩ := SPSC.new_eq hq
  have hlegal := reach_legal h (new_inv hq)
  rw [← enqs_ops, ← deqs_ops]
  exact (Fifo.Legal.prefix_of_nil hlegal).1

end Stores

/-! ## The load of the other party's counter -/

section Loads

variable {B : Nat} {q q' : SPSC α Nat} {es e : List (QueryEvent α Nat)} {x y : Nat}

/-- What the producer's load of `reader_` in its query found, `e₁` being the history before it. -/
def ReaderLoaded (B : Nat) (q : SPSC α Nat) (es : List (QueryEvent α Nat)) (y : Nat) : Prop :=
  ∃ e₁, Trace.Latest (QueryEvent.loadsReader .producer) e₁ (.loadReader .producer y) es ∧
    q.producer.localWriter = (accepted (queueEvents e₁)).length ∧
    y ≤ (popped (queueEvents e₁)).length ∧ (popped (queueEvents e₁)).length ≤ y + B

/-- What the consumer's load of `writer_` in its query found. -/
def WriterLoaded (B : Nat) (q : SPSC α Nat) (es : List (QueryEvent α Nat)) (x : Nat) : Prop :=
  ∃ e₁, Trace.Latest (QueryEvent.loadsWriter .consumer) e₁ (.loadWriter .consumer x) es ∧
    q.consumer.localReader = (popped (queueEvents e₁)).length ∧ q.consumer.localReader ≤ x ∧
    x ≤ (accepted (queueEvents e₁)).length ∧ (accepted (queueEvents e₁)).length ≤ x + B ∧
    popped (queueEvents e₁) <+: accepted (queueEvents e₁) ∧ WriterUpTo x (queueEvents e₁)

theorem ReaderLoaded.stable (h : ReaderLoaded B q es y)
    (hw : q'.producer.localWriter = q.producer.localWriter)
    (he : ∀ ev ∈ e, ev.loadsReader .producer = false) : ReaderLoaded B q' (es ++ e) y := by
  obtain ⟨e₁, hlatest, hcount, hlag⟩ := h
  exact ⟨e₁, hlatest.append he, hw.trans hcount, hlag⟩

theorem WriterLoaded.stable (h : WriterLoaded B q es x)
    (hr : q'.consumer.localReader = q.consumer.localReader)
    (he : ∀ ev ∈ e, ev.loadsWriter .consumer = false) : WriterLoaded B q' (es ++ e) x := by
  obtain ⟨e₁, hlatest, hcount, hle, hlag⟩ := h
  exact ⟨e₁, hlatest.append he, hr.trans hcount, hr ▸ hle, hlag⟩

/-- The size that the producer reports, with what it has not published itself. -/
theorem ReaderLoaded.size (h : ReaderLoaded B q es y) (hw : q.writer.value ≤ q.producer.localWriter)
    (hlag : q.producer.localWriter < q.writer.value + B) :
    ∃ e₁, Trace.Latest (QueryEvent.loadsReader .producer) e₁ (.loadReader .producer y) es ∧
      -((B : Int) - 1) ≤ (q.writer.value - y : Int) - localSize e₁ ∧
      (q.writer.value - y : Int) - localSize e₁ ≤ B := by
  obtain ⟨e₁, hlatest, hcount, hlo, hhi⟩ := h
  refine ⟨e₁, hlatest, ?_, ?_⟩ <;> unfold localSize <;> omega

/-- The size that the consumer reports. -/
theorem WriterLoaded.size (h : WriterLoaded B q es x) (hr : q.reader.value ≤ q.consumer.localReader)
    (hlag : q.consumer.localReader < q.reader.value + B) :
    ∃ e₁, Trace.Latest (QueryEvent.loadsWriter .consumer) e₁ (.loadWriter .consumer x) es ∧
      -(B : Int) ≤ (x - q.reader.value : Int) - localSize e₁ ∧
      (x - q.reader.value : Int) - localSize e₁ ≤ B - 1 := by
  obtain ⟨e₁, hlatest, hcount, -, hlo, hhi, -, -⟩ := h
  refine ⟨e₁, hlatest, ?_, ?_⟩ <;> unfold localSize <;> omega

/-- A consumer that finds the two counters equal has popped what was published. -/
theorem WriterLoaded.empty (h : WriterLoaded B q es x)
    (hr : q.reader.value ≤ q.consumer.localReader) (hx : x = q.reader.value) :
    ∃ e₁, Trace.Latest (QueryEvent.loadsWriter .consumer) e₁ (.loadWriter .consumer x) es ∧
      (popped (queueEvents e₁)).length = x ∧ ∀ m, .queue (.storeWriter m) ∈ e₁ →
        (accepted (queueEvents e₁)).take m <+: popped (queueEvents e₁) := by
  obtain ⟨e₁, hlatest, hcount, hle, -, -, hpre, hup⟩ := h
  have hpopped : (popped (queueEvents e₁)).length = x := by omega
  refine ⟨e₁, hlatest, hpopped, fun m hm => ?_⟩
  have hmx : m ≤ x := hup m (List.mem_filterMap.mpr ⟨_, hm, rfl⟩)
  rw [List.prefix_iff_eq_take.mp hpre, hpopped]
  exact List.take_prefix_take_left hmx

end Loads

/-! ## The invariant of the queries -/

section Sized

variable {PublishBatch B : Nat} {o o' : Observed α Nat} {a : QueryAct α}
  {e es : List (QueryEvent α Nat)} {t : Observer}

/-- What is known of the queries that loaded the other party's counter first. -/
structure Sized (B : Nat) (o : Observed α Nat) (es : List (QueryEvent α Nat)) : Prop where
  producer : ∀ c y, o.query .producer = .loadedReader c y → ReaderLoaded B o.s.q es y
  consumer : ∀ c x, o.query .consumer = .loadedWriter c x → WriterLoaded B o.s.q es x

/-- A thread makes a step of its query. -/
theorem Sized.goTo (h : Sized B o es) {pc : QueryPc Nat}
    (hp : t = .producer → ∀ c y, pc = .loadedReader c y → ReaderLoaded B o.s.q (es ++ e) y)
    (hc : t = .consumer → ∀ c x, pc = .loadedWriter c x → WriterLoaded B o.s.q (es ++ e) x)
    (he : ∀ t' ≠ t, ∀ ev ∈ e, ev.loadsReader t' = false ∧ ev.loadsWriter t' = false) :
    Sized B (o.goTo t pc) (es ++ e) := by
  constructor
  · intro c y hq
    by_cases ht : t = .producer
    · subst ht
      rw [o.query_goTo] at hq
      exact hp rfl c y hq
    · rw [o.query_goTo_of_ne fun h => ht h.symm] at hq
      exact (h.producer c y hq).stable rfl fun ev hev => (he _ (fun h => ht h.symm) ev hev).1
  · intro c x hq
    by_cases ht : t = .consumer
    · subst ht
      rw [o.query_goTo] at hq
      exact hc rfl c x hq
    · rw [o.query_goTo_of_ne fun h => ht h.symm] at hq
      exact (h.consumer c x hq).stable rfl fun ev hev => (he _ (fun h => ht h.symm) ev hev).2

/-- The present values, for a thread that loads them now. -/
structure Present (B : Nat) (q : SPSC α Nat) (es : List (QueryEvent α Nat)) : Prop where
  reader : ReaderLoaded B q (es ++ [.loadReader .producer q.reader.value]) q.reader.value
  writer : WriterLoaded B q (es ++ [.loadWriter .consumer q.writer.value]) q.writer.value

/-- The step lemma. -/
theorem QueryMove.sized (hm : QueryMove PublishBatch o a o' e)
    (ha : a.pushPop = true ∧ a.newest = true) (hi : Inv o.s) (hc : Calm o.s) (hk : Kept o.s)
    (hnow : Present B o.s.q es) (h : Sized B o es) : Sized B o' (es ++ e) := by
  have hone : ∀ {t t' : Observer}, t' ≠ t → (t == t') = false :=
    fun hne => beq_false_of_ne fun he => hne he.symm
  cases hm with
  | @queue a s e hf hst =>
    have hm := step_move hst
    constructor
    · intro c y hq
      have hs := hm.spares ha.1 hi hc hk hf (t := .producer) (by rw [hq]; rfl)
      exact (h.producer c y hq).stable hs.2.2 (by simp [QueryEvent.loadsReader])
    · intro c x hq
      have hs := hm.spares ha.1 hi hc hk hf (t := .consumer) (by rw [hq]; rfl)
      exact (h.consumer c x hq).stable hs.2 (by simp [QueryEvent.loadsWriter])
  | query => exact h.goTo nofun nofun (by simp)
  | @firstWriter t k c x ht hx =>
    obtain rfl : k = 0 := beq_iff_eq.mp ha.2
    refine h.goTo nofun ?_
      (by simp +contextual [QueryEvent.loadsReader, QueryEvent.loadsWriter, hone])
    rintro rfl c' x' hpc
    cases hpc
    obtain rfl : _ = x := Option.some.inj hx
    exact hnow.writer
  | @firstReader t k c y ht hy =>
    obtain rfl : k = 0 := beq_iff_eq.mp ha.2
    refine h.goTo ?_ nofun
      (by simp +contextual [QueryEvent.loadsReader, QueryEvent.loadsWriter, hone])
    rintro rfl c' y' hpc
    cases hpc
    obtain rfl : _ = y := Option.some.inj hy
    exact hnow.reader
  | thenWriter =>
    exact h.goTo nofun nofun
      (by simp +contextual [QueryEvent.loadsReader, QueryEvent.loadsWriter, hone])
  | thenReader =>
    exact h.goTo nofun nofun
      (by simp +contextual [QueryEvent.loadsReader, QueryEvent.loadsWriter, hone])

end Sized

/-! ## Every run -/

section Reach

variable {PublishBatch capacity : Nat} {memory : Nat → α} {q₀ : SPSC α Nat} {o : Observed α Nat}
  {ok : QueryAct α → Prop} {es e e' : List (QueryEvent α Nat)} {c : Query} {x y : Nat}

theorem reach_present (hB : PublishBatch < 2 ^ 64) (hq : SPSC.new capacity memory = .ok q₀)
    (hn : Near (State.start q₀))
    (h : (observed PublishBatch).Reach (fun _ => ok) (.start q₀) o es)
    (hok : ∀ a, ok a → a.pushPop = true) : Present (max PublishBatch 1) o.s.q es := by
  have hs := queue_steady hB hq hn h hok
  have ho := hs.near.inv.ordered
  have hqueue := reach_queue h
  have hp := reach_published hq hqueue
  have hcalm : ∀ (s : State α Nat) (a : Act α), ok (.queue a) → a.calm = true :=
    fun _ a ha => Act.pushPop_calm (show a.pushPop = true from hok (.queue a) ha)
  have hup := reach_writerUpTo hB hq hn hqueue hcalm
  constructor
  · refine ⟨es, .now _ _ _, hp.accepted, ?_, ?_⟩ <;> rw [← hp.popped]
    · exact ho.reader_le_local
    · exact hs.lag.consumer.le ho
  · refine ⟨es, .now _ _ _, hp.popped, Nat.le_trans ho.reader_le ho.cachedWriter_le, ?_, ?_,
      reach_prefix hq hqueue, hup⟩ <;> rw [← hp.accepted]
    · exact ho.writer_le_local
    · exact hs.lag.producer.le ho

/-- The run lemma. -/
theorem reach_sized (hB : PublishBatch < 2 ^ 64) (hq : SPSC.new capacity memory = .ok q₀)
    (hn : Near (State.start q₀))
    (h : (observed PublishBatch).Reach (fun _ => ok) (.start q₀) o es)
    (hok : ∀ a, ok a → a.pushPop = true ∧ a.newest = true) :
    Sized (max PublishBatch 1) o es := by
  induction h with
  | refl => exact ⟨nofun, nofun⟩
  | tail a hr ha hst ih =>
    have hpush : ∀ a, ok a → QueryAct.pushPop a = true := fun a ha => (hok a ha).1
    have hs := queue_steady hB hq hn hr hpush
    exact (observed_move hst).sized (hok a ha) hs.near.inv hs.calm hs.kept
      (reach_present hB hq hn hr hpush) ih

/-- A thread that returns from a query is between its own calls. -/
theorem between_of_returns {t : Observer} {o' : Observed α Nat} {a : QueryAct α}
    {f f' : List (QueryEvent α Nat)}
    (h : (observed PublishBatch).Reach (fun _ => ok) (.start q₀) o es)
    (hm : QueryMove PublishBatch o a o' (f ++ .returned t c x y :: f')) : o.s.between t = true := by
  refine reach_between h t ?_
  obtain ⟨k, -, -, ht, -⟩ | ⟨k, -, -, ht, -⟩ := hm.returns <;> rw [ht] <;> rfl

/-- What a query of the producer loaded. -/
theorem producer_returned (hB : PublishBatch < 2 ^ 64) (hq : SPSC.new capacity memory = .ok q₀)
    (hn : Near (State.start q₀))
    (h : (observed PublishBatch).Reach (fun _ => ok) (.start q₀) o es)
    (hok : ∀ a, ok a → a.pushPop = true ∧ a.newest = true)
    (he : es = e ++ .returned .producer c x y :: e') :
    ∃ q : SPSC α Nat, ReaderLoaded (max PublishBatch 1) q e y ∧ x = q.writer.value ∧
      q.writer.value ≤ q.producer.localWriter ∧
      q.producer.localWriter < q.writer.value + max PublishBatch 1 := by
  have hpush : ∀ a, ok a → QueryAct.pushPop a = true := fun a ha => (hok a ha).1
  obtain ⟨o₁, o₂, a, es₁, f, f', hr, ha, hst, rfl⟩ := h.origin he
  have hs := queue_steady hB hq hn hr hpush
  have ho := hs.near.inv.ordered
  have hm := observed_move hst
  obtain ⟨l, hl⟩ := State.between_producer (between_of_returns hr hm)
  have hlt := hs.lag.producer.lt ho (by rw [hl]; rfl)
  obtain ⟨k, rfl, rfl, ht, hy⟩ | ⟨k, rfl, rfl, ht, hx⟩ := hm.returns
  · obtain rfl : k = 0 := beq_iff_eq.mp (hok _ ha).2
    obtain rfl : _ = y := Option.some.inj hy
    obtain rfl : x = o₁.s.q.writer.value := by
      have hquery := (reach_watched hB hq hn hr hpush).ok .producer
      rwa [ht] at hquery
    exact ⟨o₁.s.q, (reach_present hB hq hn hr hpush).reader, rfl, ho.writer_le_local, hlt⟩
  · obtain rfl : _ = x := Option.some.inj hx
    have hloaded := (reach_sized hB hq hn hr hok).producer c y ht
    exact ⟨o₁.s.q, hloaded.stable rfl (by simp [QueryEvent.loadsReader]), rfl, ho.writer_le_local,
      hlt⟩

/-- What a query of the consumer loaded. -/
theorem consumer_returned (hB : PublishBatch < 2 ^ 64) (hq : SPSC.new capacity memory = .ok q₀)
    (hn : Near (State.start q₀))
    (h : (observed PublishBatch).Reach (fun _ => ok) (.start q₀) o es)
    (hok : ∀ a, ok a → a.pushPop = true ∧ a.newest = true)
    (he : es = e ++ .returned .consumer c x y :: e') :
    ∃ q : SPSC α Nat, WriterLoaded (max PublishBatch 1) q e x ∧ y = q.reader.value ∧
      q.reader.value ≤ q.consumer.localReader ∧
      q.consumer.localReader < q.reader.value + max PublishBatch 1 := by
  have hpush : ∀ a, ok a → QueryAct.pushPop a = true := fun a ha => (hok a ha).1
  obtain ⟨o₁, o₂, a, es₁, f, f', hr, ha, hst, rfl⟩ := h.origin he
  have hs := queue_steady hB hq hn hr hpush
  have ho := hs.near.inv.ordered
  have hm := observed_move hst
  obtain ⟨l, hl⟩ := State.between_consumer (between_of_returns hr hm)
  have hlt := hs.lag.consumer.lt ho (by rw [hl]; rfl)
  obtain ⟨k, rfl, rfl, ht, hy⟩ | ⟨k, rfl, rfl, ht, hx⟩ := hm.returns
  · obtain rfl : _ = y := Option.some.inj hy
    have hloaded := (reach_sized hB hq hn hr hok).consumer c x ht
    exact ⟨o₁.s.q, hloaded.stable rfl (by simp [QueryEvent.loadsWriter]), rfl, ho.reader_le_local,
      hlt⟩
  · obtain rfl : k = 0 := beq_iff_eq.mp (hok _ ha).2
    obtain rfl : _ = x := Option.some.inj hx
    obtain rfl : y = o₁.s.q.reader.value := by
      have hquery := (reach_watched hB hq hn hr hpush).ok .consumer
      rwa [ht] at hquery
    exact ⟨o₁.s.q, (reach_present hB hq hn hr hpush).writer, rfl, ho.reader_le_local, hlt⟩

end Reach

section Runs

variable {capacity PublishBatch : BitVec 64} {memory : BitVec 64 → α} {q : SPSC α (BitVec 64)}
  {sched : List (QueryAct α)} {o : Observed α (BitVec 64)} {es : List (QueryEvent α (BitVec 64))}

/-- **The reported size is within a batch.** In every interleaving of pushes and pops with queries,
all loads giving the newest values, with the counters read as unbounded numbers and
`B = max PublishBatch 1`: a `size()` of the producer or of the consumer that loaded `x` and `y`
returns `x - y` without a wrap, and at most `capacity`. At the load of the other party's counter,
after the history `e₁`, `localWriter_ - localReader_` was between `x - y - B` and `x - y + (B - 1)`
for the producer, and between `x - y - (B - 1)` and `x - y + B` for the consumer. When an `empty()`
of the consumer returns `true`, then at its load of `writer_` the consumer had popped all that had
been published. -/
theorem size_accurate (hq : SPSC.new capacity memory = .ok q)
    (h : (observed PublishBatch).run (.start q) sched = some (o, es))
    (hact : ∀ a ∈ sched, a.pushPop = true ∧ a.newest = true) :
    ∃ t et, Observed.Unbounded capacity PublishBatch memory sched o es t et ∧
      (t.s.q.producer.localWriter - t.s.q.consumer.localReader : Int) = localSize et ∧
      (∀ e x y e', et = e ++ .returned .producer .size x y :: e' →
        (y ≤ x ∧ x - y ≤ capacity.toNat ∧ (sizeResult (wrap x) (wrap y)).toNat = x - y) ∧
        ∃ e₁, Trace.Latest (QueryEvent.loadsReader .producer) e₁ (.loadReader .producer y) e ∧
          -((max PublishBatch.toNat 1 : Nat) - 1 : Int) ≤ (x - y : Int) - localSize e₁ ∧
          (x - y : Int) - localSize e₁ ≤ (max PublishBatch.toNat 1 : Nat)) ∧
      (∀ e x y e', et = e ++ .returned .consumer .size x y :: e' →
        (y ≤ x ∧ x - y ≤ capacity.toNat ∧ (sizeResult (wrap x) (wrap y)).toNat = x - y) ∧
        ∃ e₁, Trace.Latest (QueryEvent.loadsWriter .consumer) e₁ (.loadWriter .consumer x) e ∧
          -((max PublishBatch.toNat 1 : Nat) : Int) ≤ (x - y : Int) - localSize e₁ ∧
          (x - y : Int) - localSize e₁ ≤ (max PublishBatch.toNat 1 : Nat) - 1) ∧
      (∀ e x y e', et = e ++ .returned .consumer .empty x y :: e' →
        emptyResult (wrap x) (wrap y) = true →
        ∃ e₁, Trace.Latest (QueryEvent.loadsWriter .consumer) e₁ (.loadWriter .consumer x) e ∧
          (popped (queueEvents e₁)).length = x ∧ ∀ m, .queue (.storeWriter m) ∈ e₁ →
            (accepted (queueEvents e₁)).take m <+: popped (queueEvents e₁)) := by
  obtain ⟨q₀, t, et, hu, hnew, hr, hcap, hn⟩ := observed_unwrap hq h hact
  have hpush : ∀ a : QueryAct α, a.pushPop = true ∧ a.newest = true → a.pushPop = true :=
    fun _ ha => ha.1
  have hB := PublishBatch.isLt
  have hvalues : ∀ {e e' : List (QueryEvent α Nat)} {t : Observer} {c : Query} {x y : Nat},
      t ≠ .third → et = e ++ .returned t c x y :: e' → y ≤ x ∧ x ≤ y + capacity.toNat := by
    intro e e' t c x y ht he
    rcases returned_values hB hnew hn hr hpush he with hxy | ⟨hthird, -⟩
    · exact hcap ▸ hxy
    · exact absurd hthird ht
  have hp := reach_published hnew (reach_queue hr)
  refine ⟨t, et, hu, ?_, fun e x y e' he => ?_, fun e x y e' he => ?_, fun e x y e' he hemp => ?_⟩
  · rw [localSize, hp.accepted, hp.popped]
  · obtain ⟨hlo, hhi⟩ := hvalues (by decide) he
    obtain ⟨q, hloaded, rfl, hle, hlt⟩ := producer_returned hB hnew hn hr (fun _ => id) he
    exact ⟨⟨hlo, by omega, sizeResult_wrap hlo hhi⟩, hloaded.size hle hlt⟩
  · obtain ⟨hlo, hhi⟩ := hvalues (by decide) he
    obtain ⟨q, hloaded, rfl, hle, hlt⟩ := consumer_returned hB hnew hn hr (fun _ => id) he
    exact ⟨⟨hlo, by omega, sizeResult_wrap hlo hhi⟩, hloaded.size hle hlt⟩
  · obtain ⟨hlo, hhi⟩ := hvalues (by decide) he
    obtain ⟨q, hloaded, rfl, hle, -⟩ := consumer_returned hB hnew hn hr (fun _ => id) he
    have := capacity.isLt
    have heq := (Counter.ofNat_eq_iff (w := 64) hlo (by omega)).mp (of_decide_eq_true hemp).symm
    exact hloaded.empty hle heq.symm

/-- A ring of two slots with a batch of two. An element that is not published is missing from the
size that the producer reports; after a second one both are there, and after a pop the consumer
reports one too many; when it has popped both it finds the queue empty. -/
theorem size_accurate_two :
    ∃ (es : List (QueryEvent Bool (BitVec 64))) (et : List (QueryEvent Bool Nat)),
    .returned .producer .size 0 0 ∈ es ∧ .returned .consumer .size 2 0 ∈ es ∧
      .returned .consumer .empty 2 2 ∈ es ∧ es = et.map QueryEvent.wrap ∧
      (∀ e x y e', et = e ++ .returned .producer .size x y :: e' →
        (y ≤ x ∧ x - y ≤ 2 ∧ (sizeResult (wrap x) (wrap y)).toNat = x - y) ∧
        ∃ e₁, Trace.Latest (QueryEvent.loadsReader .producer) e₁ (.loadReader .producer y) e ∧
          -1 ≤ (x - y : Int) - localSize e₁ ∧ (x - y : Int) - localSize e₁ ≤ 2) ∧
      (∀ e x y e', et = e ++ .returned .consumer .empty x y :: e' →
        emptyResult (wrap x) (wrap y) = true →
        ∃ e₁, Trace.Latest (QueryEvent.loadsWriter .consumer) e₁ (.loadWriter .consumer x) e ∧
          (popped (queueEvents e₁)).length = x ∧ ∀ m, .queue (.storeWriter m) ∈ e₁ →
            (accepted (queueEvents e₁)).take m <+: popped (queueEvents e₁)) := by
  obtain ⟨t, et, hu, -, hp, -, hc⟩ := @size_accurate Bool 2 2 (fun _ => false) _
    (.queue (.push true) :: List.replicate 4 (.queue (.producer 0)) ++
      [.query .producer .size, .loadWriter .producer 0, .loadReader .producer 0] ++
      .queue (.push true) :: List.replicate 8 (.queue (.producer 0)) ++
      .queue .pop :: List.replicate 6 (.queue (.consumer 0)) ++
      [.query .consumer .size, .loadReader .consumer 0, .loadWriter .consumer 0] ++
      .queue .pop :: List.replicate 8 (.queue (.consumer 0)) ++
      [.query .consumer .empty, .loadWriter .consumer 0, .loadReader .consumer 0]) _ _ rfl rfl
    (by decide)
  exact ⟨_, et, by decide, by decide, by decide, hu.events, hp, hc⟩

end Runs

end FastQ
