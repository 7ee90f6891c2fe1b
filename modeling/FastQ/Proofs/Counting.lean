import FastQ.Proofs.Threads
import FastQ.Testing.Correctness

/-!
# The correctness test, step by step

What the threads of `test_spsc_correctness` can do (`Correctness.Move`), and the invariant of their
runs (`Good`): the producer has accepted `i` elements and the consumer has counted `expected`, each
but for the effect of a call in progress, and element number `n` of the ring is `n` (`Numbered`).

After `done` the producer makes no step. So when the consumer finds the two shared counters equal,
it has popped what is published (`After` at `flushCall`); its `flush` publishes the rest; and the
pop on which its last loop ends has seen all `N` elements.
-/

namespace FastQ

namespace Correctness

variable {PublishBatch N : BitVec 64}

/-! ## What a step can do -/

/-- The steps of the threads, with the step of the queue that they make, if any. -/
inductive Move (PublishBatch N : BitVec 64) :
    Correctness → Option (Act (BitVec 64)) → Correctness → List Loop → Prop
  | finish {b : Correctness} : b.producer = .check → ¬ b.i < N →
      Move PublishBatch N b none { b with done := true, producer := .returned } []
  | next {b : Correctness} : b.producer = .check → b.i < N →
      Move PublishBatch N b none { b with producer := .call } []
  | push {b : Correctness} {s : State (BitVec 64) (BitVec 64)}
      {e : List (Event (BitVec 64) (BitVec 64))} : b.producer = .call →
      (spsc PublishBatch).step b.s (.push b.i) = some (s, e) →
      Move PublishBatch N b (some (.push b.i)) { b with s, producer := .inside } []
  | pushed {b : Correctness} : b.producer = .inside →
      b.s.producer = .idle (some (.push true)) →
      Move PublishBatch N b none { b with i := b.i + 1, producer := .check } []
  | retry {b : Correctness} : b.producer = .inside →
      b.s.producer = .idle (some (.push false)) →
      Move PublishBatch N b none { b with producer := .call } []
  | producer {b : Correctness} {s : State (BitVec 64) (BitVec 64)}
      {e : List (Event (BitVec 64) (BitVec 64))} : b.producer = .inside →
      (spsc PublishBatch).step b.s (.producer 0) = some (s, e) →
      Move PublishBatch N b (some (.producer 0)) { b with s } []
  | wait {b : Correctness} : b.consumer = .loadDone → b.done = false →
      Move PublishBatch N b none { b with consumer := .call } []
  | seen {b : Correctness} : b.consumer = .loadDone → b.done = true →
      Move PublishBatch N b none { b with consumer := .empty } []
  | loadWriter {b : Correctness} : b.consumer = .empty →
      Move PublishBatch N b none { b with consumer := .loadedWriter b.s.q.writer.value } []
  | loadReader {b : Correctness} : b.consumer = .empty →
      Move PublishBatch N b none { b with consumer := .loadedReader b.s.q.reader.value } []
  | testReader {b : Correctness} {x : BitVec 64} : b.consumer = .loadedWriter x →
      Move PublishBatch N b none (b.test x b.s.q.reader.value) []
  | testWriter {b : Correctness} {y : BitVec 64} : b.consumer = .loadedReader y →
      Move PublishBatch N b none (b.test b.s.q.writer.value y) []
  | pop {b : Correctness} {s : State (BitVec 64) (BitVec 64)}
      {e : List (Event (BitVec 64) (BitVec 64))} : b.consumer = .call →
      (spsc PublishBatch).step b.s .pop = some (s, e) →
      Move PublishBatch N b (some .pop) { b with s, consumer := .inside } [.iterate]
  | popped {b : Correctness} {value : BitVec 64} : b.consumer = .inside →
      b.s.consumer = .idle (some (.pop (some value))) →
      Move PublishBatch N b none (b.count .loadDone .loadDone (some value)) []
  | missed {b : Correctness} : b.consumer = .inside →
      b.s.consumer = .idle (some (.pop none)) →
      Move PublishBatch N b none { b with consumer := .loadDone } []
  | consumer {b : Correctness} {s : State (BitVec 64) (BitVec 64)}
      {e : List (Event (BitVec 64) (BitVec 64))} :
      b.consumer = .inside ∨ b.consumer = .flushInside ∨ b.consumer = .drainInside →
      (spsc PublishBatch).step b.s (.consumer 0) = some (s, e) →
      Move PublishBatch N b (some (.consumer 0)) { b with s } []
  | flush {b : Correctness} {s : State (BitVec 64) (BitVec 64)}
      {e : List (Event (BitVec 64) (BitVec 64))} : b.consumer = .flushCall →
      (spsc PublishBatch).step b.s .consumerFlush = some (s, e) →
      Move PublishBatch N b (some .consumerFlush) { b with s, consumer := .flushInside } []
  | flushed {b : Correctness} : b.consumer = .flushInside →
      b.s.consumer = .idle (some .flush) →
      Move PublishBatch N b none { b with consumer := .drainCall } []
  | drainPop {b : Correctness} {s : State (BitVec 64) (BitVec 64)}
      {e : List (Event (BitVec 64) (BitVec 64))} : b.consumer = .drainCall →
      (spsc PublishBatch).step b.s .pop = some (s, e) →
      Move PublishBatch N b (some .pop) { b with s, consumer := .drainInside } []
  | drained {b : Correctness} {value : BitVec 64} : b.consumer = .drainInside →
      b.s.consumer = .idle (some (.pop (some value))) →
      Move PublishBatch N b none (b.count .drainCall .finished (some value)) []
  | drainEnd {b : Correctness} : b.consumer = .drainInside →
      b.s.consumer = .idle (some (.pop none)) →
      Move PublishBatch N b none { b with consumer := .finished } []
  | missing {b : Correctness} : b.consumer = .finished → b.expected ≠ N →
      Move PublishBatch N b none { b with consumer := .aborted } []
  | pass {b : Correctness} : b.consumer = .finished → b.expected = N →
      Move PublishBatch N b none { b with consumer := .passed } []

theorem access_eq {b b' : Correctness} {a : Act (BitVec 64)} {es es' : List Loop}
    (h : b.access PublishBatch a es = some (b', es')) :
    es' = es ∧ ∃ s e, (spsc PublishBatch).step b.s a = some (s, e) ∧ b' = { b with s } := by
  obtain ⟨⟨s, e⟩, hs, h⟩ := Option.map_eq_some_iff.mp h
  cases h
  exact ⟨rfl, s, e, hs, rfl⟩

theorem stepProducer_move {b b' : Correctness} {es : List Loop}
    (h : b.stepProducer PublishBatch N = some (b', es)) : ∃ a, Move PublishBatch N b a b' es := by
  unfold stepProducer at h
  split at h
  · rename_i hp
    split at h <;> rename_i hi <;> cases h
    · exact ⟨_, .next hp hi⟩
    · exact ⟨_, .finish hp hi⟩
  · rename_i hp
    obtain ⟨rfl, s, e, hs, rfl⟩ := access_eq h
    exact ⟨_, .push hp hs⟩
  · rename_i hp
    split at h
    · rename_i hi
      cases h
      exact ⟨_, .pushed hp hi⟩
    · rename_i hi
      cases h
      exact ⟨_, .retry hp hi⟩
    · obtain ⟨rfl, s, e, hs, rfl⟩ := access_eq h
      exact ⟨_, .producer hp hs⟩
  · cases h

theorem stepConsumer_move {b b' : Correctness} {readerFirst : Bool} {es : List Loop}
    (h : b.stepConsumer PublishBatch N readerFirst = some (b', es)) :
    ∃ a, Move PublishBatch N b a b' es := by
  unfold stepConsumer at h
  split at h
  · rename_i hc
    split at h <;> rename_i hd <;> cases h
    · exact ⟨_, .seen hc hd⟩
    · exact ⟨_, .wait hc (Bool.eq_false_of_not_eq_true hd)⟩
  · rename_i hc
    split at h <;> cases h
    · exact ⟨_, .loadReader hc⟩
    · exact ⟨_, .loadWriter hc⟩
  · rename_i hc
    cases h
    exact ⟨_, .testReader hc⟩
  · rename_i hc
    cases h
    exact ⟨_, .testWriter hc⟩
  · rename_i hc
    obtain ⟨rfl, s, e, hs, rfl⟩ := access_eq h
    exact ⟨_, .pop hc hs⟩
  · rename_i hc
    split at h
    · rename_i r hi
      cases h
      cases r with
      | none => exact ⟨_, .missed hc hi⟩
      | some value => exact ⟨_, .popped hc hi⟩
    · obtain ⟨rfl, s, e, hs, rfl⟩ := access_eq h
      exact ⟨_, .consumer (.inl hc) hs⟩
  · rename_i hc
    obtain ⟨rfl, s, e, hs, rfl⟩ := access_eq h
    exact ⟨_, .flush hc hs⟩
  · rename_i hc
    split at h
    · rename_i hi
      cases h
      exact ⟨_, .flushed hc hi⟩
    · obtain ⟨rfl, s, e, hs, rfl⟩ := access_eq h
      exact ⟨_, .consumer (.inr (.inl hc)) hs⟩
  · rename_i hc
    obtain ⟨rfl, s, e, hs, rfl⟩ := access_eq h
    exact ⟨_, .drainPop hc hs⟩
  · rename_i hc
    split at h
    · rename_i r hi
      cases h
      cases r with
      | none => exact ⟨_, .drainEnd hc hi⟩
      | some value => exact ⟨_, .drained hc hi⟩
    · obtain ⟨rfl, s, e, hs, rfl⟩ := access_eq h
      exact ⟨_, .consumer (.inr (.inr hc)) hs⟩
  · rename_i hc
    split at h <;> rename_i he <;> cases h
    · exact ⟨_, .missing hc he⟩
    · exact ⟨_, .pass hc (not_not.mp he)⟩
  · cases h
  · cases h

theorem step_move {b b' : Correctness} {a : Turn} {es : List Loop}
    (h : (testSpscCorrectness PublishBatch N).step b a = some (b', es)) :
    ∃ a, Move PublishBatch N b a b' es := by
  cases a with
  | producer => exact stepProducer_move h
  | consumer readerFirst => exact stepConsumer_move h

/-! ## The invariant -/

/-- The producer with its variable `i`, when `n` elements are accepted. -/
def ProducerAt (N i : BitVec 64) (n : Nat) (p : ProducerPc (BitVec 64) Nat) : TestProducer → Prop
  | .check => (∃ l, p = .idle l) ∧ n = i.toNat ∧ i ≤ N
  | .call => (∃ l, p = .idle l) ∧ n = i.toNat ∧ i < N
  | .inside => p.Pushing ∧ p.Carries i ∧ n = i.toNat + (if p.accepts then 1 else 0) ∧ i < N
  | .returned => (∃ l, p = .idle l) ∧ n = N.toNat

/-- The consumer with its variable `expected`, when `n` elements are popped. -/
def ConsumerAt (expected : BitVec 64) (n : Nat) (c : ConsumerPc (BitVec 64) Nat) :
    TestConsumer → Prop
  | .inside | .drainInside =>
    c.Popping ∧ c.Carries expected ∧ n = expected.toNat + if c.takes then 1 else 0
  | .flushInside => (c.flushing = true ∨ c = .idle (some .flush)) ∧ n = expected.toNat
  | _ => (∃ l, c = .idle l) ∧ n = expected.toNat

/-- What the consumer knows of the shared counters after it has seen `done`. -/
def After (done : Bool) (t : State (BitVec 64) Nat) : TestConsumer → Prop
  | .loadDone | .call | .inside => True
  | .empty => done = true
  | .loadedWriter x => done = true ∧ x = wrap t.q.writer.value
  | .loadedReader y => done = true ∧ y = wrap t.q.reader.value
  | .flushCall => done = true ∧ t.q.consumer.localReader = t.q.writer.value
  | .flushInside => done = true ∧ FlushAt t.q t.consumer
  | .drainCall => done = true ∧ t.q.writer.value = t.q.producer.localWriter
  | .drainInside => done = true ∧ t.q.writer.value = t.q.producer.localWriter ∧
      (Decided t.q t.consumer → t.q.consumer.localReader = t.q.writer.value)
  | .finished | .passed => done = true ∧ t.q.consumer.localReader = t.q.producer.localWriter
  | .aborted => False

/-- The invariant of the test, with the reading `t` of its queue over unbounded counters. -/
structure Good (N : BitVec 64) (b : Correctness) (t : State (BitVec 64) Nat) : Prop where
  state : b.s = t.wrap
  near : Near t
  kept : Kept t
  numbered : Numbered (BitVec.ofNat 64) t.q
  producer : ProducerAt N b.i t.q.producer.localWriter t.producer b.producer
  done : b.done = true → b.producer = .returned
  consumer : ConsumerAt b.expected t.q.consumer.localReader t.consumer b.consumer
  after : After b.done t b.consumer

/-- Before `done`, the consumer knows nothing. -/
theorem After.early {t t' : State (BitVec 64) Nat} {done : Bool} {c : TestConsumer}
    (h : After false t c) : After done t' c := by
  cases c with
  | loadDone | call | inside => trivial
  | aborted => exact h
  | empty => cases h
  | _ => cases h.1

theorem ProducerAt.le {i : BitVec 64} {n : Nat} {p : ProducerPc (BitVec 64) Nat} {pc : TestProducer}
    (h : ProducerAt N i n p pc) : n ≤ N.toNat := by
  cases pc with
  | check =>
    obtain ⟨-, hn, hle⟩ := h
    exact hn ▸ hle
  | call =>
    obtain ⟨-, hn, hlt⟩ := h
    exact hn ▸ Nat.le_of_lt hlt
  | inside =>
    obtain ⟨-, -, hn, hlt⟩ := h
    have hlt : i.toNat < N.toNat := hlt
    rw [hn]
    split <;> omega
  | returned => exact Nat.le_of_eq h.2

/-- What a step of the test is over unbounded counters. -/
def Tracks (PublishBatch : BitVec 64) (a : Option (Act (BitVec 64)))
    (t t' : State (BitVec 64) Nat) : Prop :=
  match a with
  | none => t' = t
  | some a => ∃ et, FastQ.Move PublishBatch.toNat t a t' et

/-- A step of the queue over unbounded counters. -/
theorem access_tracks {t : State (BitVec 64) Nat} {s : State (BitVec 64) (BitVec 64)}
    {a : Act (BitVec 64)} {e : List (Event (BitVec 64) (BitVec 64))} (hn : Near t) (hk : Kept t)
    (hr : unraced t a = true) (hst : (spsc PublishBatch).step t.wrap a = some (s, e)) :
    ∃ t' et, FastQ.Move PublishBatch.toNat t a t' et ∧ s = t'.wrap ∧ Near t' ∧ Kept t' := by
  obtain ⟨t', et, hm, hs, -⟩ := step_unwrap hn hst
  exact ⟨t', et, hm, hs, hm.near PublishBatch.isLt hn, (hm.kept hn.inv hk hr).1⟩

/-! ## The step lemma -/

variable {b b' : Correctness} {t : State (BitVec 64) Nat}

theorem Good.producer_calm (h : Good N b t) : t.producer.flushing = false := by
  have hp := h.producer
  cases hpc : b.producer <;> rw [hpc] at hp
  case inside => exact hp.1.calm
  all_goals
    obtain ⟨⟨l, hl⟩, -⟩ := hp
    rw [hl]
    rfl

/-- After `done` the producer is idle, with all elements accepted. -/
theorem Good.finished (h : Good N b t) (hd : b.done = true) :
    (∃ l, t.producer = .idle l) ∧ t.q.producer.localWriter = N.toNat := by
  have hp := h.producer
  rwa [h.done hd] at hp

/-- The consumer's `flush` comes after `done`, and does not race with a push. -/
theorem Good.unraced (h : Good N b t) (a : Act (BitVec 64)) : unraced t a = true := by
  refine unraced_of_idle a h.producer_calm fun hf => (h.finished ?_).1
  have hc := h.consumer
  have hafter := h.after
  cases hcc : b.consumer <;> rw [hcc] at hc hafter
  case flushInside => exact hafter.1
  case inside | drainInside =>
    rw [hc.1.calm] at hf
    cases hf
  all_goals
    obtain ⟨⟨l, hl⟩, -⟩ := hc
    rw [hl] at hf
    cases hf

/-- While the producer is at work, the consumer knows nothing. -/
theorem Good.early (h : Good N b t) (hp : b.producer ≠ .returned) {done : Bool}
    {t' : State (BitVec 64) Nat} : After done t' b.consumer := by
  have hd : b.done = false := Bool.eq_false_of_not_eq_true fun hd => hp (h.done hd)
  have hafter := h.after
  rw [hd] at hafter
  exact hafter.early

theorem Good.not_done (h : Good N b t) (hp : b.producer ≠ .returned) {P : Prop}
    (hd : b.done = true) : P :=
  (hp (h.done hd)).elim

/-- The element that the consumer reads is the expected one. -/
theorem Good.reads (h : Good N b t) (hr : t.consumer = .readSlot)
    (hn : t.q.consumer.localReader = b.expected.toNat) : t.q.readSlot = b.expected := by
  have ho := h.near.inv.ordered
  have hlt := h.near.inv.consumer
  rw [hr] at hlt
  have hlt : t.q.consumer.localReader < t.q.consumer.cachedWriter := hlt
  have := ho.cachedWriter_le
  have := ho.writer_le_local
  rw [h.numbered.readSlot h.near.inv.shape (by omega), hn, BitVec.ofNat_toNat, BitVec.setWidth_eq]

/-- The step of the producer in a call. -/
theorem Good.producerMove {q q' : SPSC (BitVec 64) Nat} {p p' : ProducerPc (BitVec 64) Nat}
    {c : ConsumerPc (BitVec 64) Nat} {k : Nat} {et : List (Event (BitVec 64) Nat)}
    (h : Good N b ⟨q, p, c⟩) (hpc : b.producer = .inside)
    (hm : ProducerMove PublishBatch.toNat k q p q' p' et) (hn : Near ⟨q', p', c⟩)
    (hk : Kept ⟨q', p', c⟩) : Good N { b with s := State.wrap ⟨q', p', c⟩ } ⟨q', p', c⟩ := by
  obtain ⟨hs, ho, hpok, -⟩ := h.near.inv
  have hp := h.producer
  rw [hpc] at hp
  obtain ⟨hpush, hcarry, hcount, hlt⟩ := hp
  have hcount : q.producer.localWriter = b.i.toNat + if p.accepts then 1 else 0 := hcount
  have haccepts := hm.accepts
  have hdata : p.atSlot = true → p.Carries (BitVec.ofNat 64 q.producer.localWriter) := by
    intro ha
    have hno : p.accepts = false := by
      cases p <;> first | rfl | cases ha
    rw [hno] at hcount
    rw [hcount]
    show p.Carries (BitVec.ofNat 64 b.i.toNat)
    rwa [BitVec.ofNat_toNat, BitVec.setWidth_eq]
  have hreader := (hm.byProducer hs ho hpok).localReader
  refine ⟨rfl, hn, hk, hm.numbered hs ho hpok hdata h.numbered, ?_, h.done, ?_,
    h.early (by rw [hpc]; decide)⟩
  · have hcount' : q'.producer.localWriter = b.i.toNat + if p'.accepts then 1 else 0 := by omega
    rw [hpc]
    exact ⟨hm.pushing hpush, hm.carries hcarry, hcount', hlt⟩
  · show ConsumerAt b.expected q'.consumer.localReader c b.consumer
    rw [hreader]
    exact h.consumer

/-- The step of the consumer in a `pop`. -/
theorem ConsumerAt.popMove {q q' : SPSC (BitVec 64) Nat} {c c' : ConsumerPc (BitVec 64) Nat}
    {k : Nat} {et : List (Event (BitVec 64) Nat)} {expected : BitVec 64}
    (h : ConsumerAt expected q.consumer.localReader c .inside)
    (hm : ConsumerMove PublishBatch.toNat k q c q' c' et)
    (hread : c = .readSlot → q.consumer.localReader = expected.toNat → q.readSlot = expected) :
    ConsumerAt expected q'.consumer.localReader c' .inside := by
  obtain ⟨hpop, hcarry, hcount⟩ := h
  have htakes := hm.takes
  refine ⟨hm.popping hpop, hm.carries (fun hr => hread hr ?_) hcarry, by omega⟩
  rw [hcount, hr]
  rfl

/-- The step of the consumer in a call. -/
theorem Good.consumerMove {q q' : SPSC (BitVec 64) Nat} {p : ProducerPc (BitVec 64) Nat}
    {c c' : ConsumerPc (BitVec 64) Nat} {et : List (Event (BitVec 64) Nat)}
    (h : Good N b ⟨q, p, c⟩)
    (hcc : b.consumer = .inside ∨ b.consumer = .flushInside ∨ b.consumer = .drainInside)
    (hm : ConsumerMove PublishBatch.toNat 0 q c q' c' et) (hn : Near ⟨q', p, c'⟩)
    (hk : Kept ⟨q', p, c'⟩) : Good N { b with s := State.wrap ⟨q', p, c'⟩ } ⟨q', p, c'⟩ := by
  have hb := hm.byConsumer
  have hp : ProducerAt N b.i q'.producer.localWriter p b.producer := by
    rw [hb.localWriter]
    exact h.producer
  have hc := h.consumer
  have hafter := h.after
  rcases hcc with hcc | hcc | hcc <;> rw [hcc] at hc hafter
  · refine ⟨rfl, hn, hk, h.numbered.stable hb, hp, h.done, ?_, ?_⟩ <;> rw [hcc]
    · exact hc.popMove hm h.reads
    · trivial
  · obtain ⟨hflush | hidle, hcount⟩ := hc
    · obtain ⟨hreader, hflush'⟩ := hm.flushing hflush
      refine ⟨rfl, hn, hk, h.numbered.stable hb, hp, h.done, ?_, ?_⟩ <;> rw [hcc]
      · exact ⟨hflush', hreader.trans hcount⟩
      · exact ⟨hafter.1, hm.flushAt hafter.2⟩
    · obtain rfl : c = _ := hidle
      cases hm
  · obtain ⟨hd, hall, hdec⟩ := hafter
    have hw := hm.writer hc.1.calm
    refine ⟨rfl, hn, hk, h.numbered.stable hb, hp, h.done, ?_, ?_⟩ <;> rw [hcc]
    · exact hc.popMove hm h.reads
    · refine ⟨hd, hw.trans (hall.trans hb.localWriter.symm), fun hdec' => ?_⟩
      obtain ⟨hlr, hdec'⟩ := hm.decided hdec'
      show q'.consumer.localReader = q'.writer.value
      rw [hlr, hw]
      exact hdec'.elim hdec id

theorem toNat_succ {x : BitVec 64} (h : x < N) : (x + 1).toNat = x.toNat + 1 := by
  bv_omega

/-- The two shared counters are equal only if the consumer has popped all that is published. -/
theorem Good.equal (h : Good N b t) (he : wrap t.q.writer.value = wrap t.q.reader.value) :
    t.q.consumer.localReader = t.q.writer.value := by
  have ho := h.near.inv.ordered
  have := ho.reader_le_local
  have := ho.reader_le
  have := ho.cachedWriter_le
  have := ho.writer_le_local
  have := ho.writer_le
  have := ho.cachedReader_le
  have hcap := h.near.capacity_lt
  have he := (Counter.ofNat_eq_iff (w := 64) (a := t.q.reader.value) (b := t.q.writer.value)
    (by omega) (by omega)).mp he.symm
  omega

/-- The end of the test `empty()`. -/
theorem Good.test (h : Good N b t) (hd : b.done = true) (hc : ∃ l, t.consumer = .idle l)
    (hn : t.q.consumer.localReader = b.expected.toNat) :
    Good N (b.test (wrap t.q.writer.value) (wrap t.q.reader.value)) t := by
  unfold Correctness.test
  split
  · rename_i he
    exact { h with consumer := ⟨hc, hn⟩, after := ⟨hd, h.equal he⟩ }
  · exact { h with consumer := ⟨hc, hn⟩, after := trivial }

/-- A pop that took an element took the expected one. -/
theorem Good.counted (h : Good N b t) {value : BitVec 64} (next last : TestConsumer)
    (hcc : b.consumer = .inside ∨ b.consumer = .drainInside)
    (hi : b.s.consumer = .idle (some (.pop (some value)))) :
    b.count next last (some value) = { b with expected := b.expected + 1, consumer := next } ∧
      (b.expected + 1).toNat = b.expected.toNat + 1 ∧
      t.q.consumer.localReader = (b.expected + 1).toNat := by
  rw [h.state] at hi
  have hi := ConsumerPc.of_wrap_idle hi
  have hc := h.consumer
  have hc : ConsumerAt b.expected t.q.consumer.localReader t.consumer .inside := by
    rcases hcc with hcc | hcc <;> rw [hcc] at hc <;> exact hc
  obtain ⟨-, hcarry, hcount⟩ := hc
  rw [hi] at hcarry hcount
  obtain rfl : value = b.expected := hcarry
  have hcount : t.q.consumer.localReader = b.expected.toNat + 1 := hcount
  have ho := h.near.inv.ordered
  have := ho.local_le
  have := h.producer.le
  have hsucc := toNat_succ (x := b.expected) (N := N) (BitVec.lt_def.mpr (by omega))
  exact ⟨by simp [Correctness.count], hsucc, hcount.trans hsucc.symm⟩

/-- The step lemma. -/
theorem Move.good {a : Option (Act (BitVec 64))} {es : List Loop}
    (hm : Move PublishBatch N b a b' es) (h : Good N b t) :
    ∃ t', Good N b' t' ∧ Tracks PublishBatch a t t' := by
  have hp := h.producer
  have hc := h.consumer
  have hafter := h.after
  cases hm with
  | finish hpc hi =>
    rw [hpc] at hp
    obtain ⟨hidle, hn, hle⟩ := hp
    have hall : b.i = N := by bv_omega
    exact ⟨t, { h with
      producer := ⟨hidle, by rw [hn, hall]⟩
      done := fun _ => rfl
      after := h.early (by rw [hpc]; decide) }, rfl⟩
  | next hpc hi =>
    rw [hpc] at hp
    exact ⟨t, { h with
      producer := ⟨hp.1, hp.2.1, hi⟩
      done := h.not_done (by rw [hpc]; decide) }, rfl⟩
  | push hpc hst =>
    rw [hpc] at hp
    rw [h.state] at hst
    obtain ⟨t', et, hm, rfl, hn', hk'⟩ := access_tracks h.near h.kept (h.unraced _) hst
    cases hm with
    | push =>
      exact ⟨_, ⟨rfl, hn', hk', h.numbered, ⟨trivial, rfl, hp.2.1, hp.2.2⟩,
        h.not_done (by rw [hpc]; decide), hc, h.early (by rw [hpc]; decide)⟩, [], .push⟩
  | pushed hpc hi =>
    rw [hpc] at hp
    rw [h.state] at hi
    have hi := ProducerPc.of_wrap_idle hi
    obtain ⟨-, -, hn, hlt⟩ := hp
    rw [hi] at hn
    have hn : t.q.producer.localWriter = (b.i + 1).toNat := by rw [hn, toNat_succ hlt]; rfl
    have hle : b.i + 1 ≤ N := by bv_omega
    exact ⟨t, { h with
      producer := ⟨⟨_, hi⟩, hn, hle⟩
      done := h.not_done (by rw [hpc]; decide) }, rfl⟩
  | retry hpc hi =>
    rw [hpc] at hp
    rw [h.state] at hi
    have hi := ProducerPc.of_wrap_idle hi
    obtain ⟨-, -, hn, hlt⟩ := hp
    rw [hi] at hn
    exact ⟨t, { h with
      producer := ⟨⟨_, hi⟩, hn, hlt⟩
      done := h.not_done (by rw [hpc]; decide) }, rfl⟩
  | producer hpc hst =>
    rw [h.state] at hst
    obtain ⟨t', et, hm, rfl, hn', hk'⟩ := access_tracks h.near h.kept (h.unraced _) hst
    cases hm with
    | producer hm => exact ⟨_, h.producerMove hpc hm hn' hk', et, .producer hm⟩
  | wait hcc hd =>
    rw [hcc] at hc
    exact ⟨t, { h with consumer := hc, after := trivial }, rfl⟩
  | seen hcc hd =>
    rw [hcc] at hc
    exact ⟨t, { h with consumer := hc, after := hd }, rfl⟩
  | loadWriter hcc =>
    rw [hcc] at hc hafter
    exact ⟨t, { h with consumer := hc, after := ⟨hafter, by rw [h.state]; rfl⟩ }, rfl⟩
  | loadReader hcc =>
    rw [hcc] at hc hafter
    exact ⟨t, { h with consumer := hc, after := ⟨hafter, by rw [h.state]; rfl⟩ }, rfl⟩
  | testReader hcc =>
    rw [hcc] at hc hafter
    obtain ⟨hd, rfl⟩ := hafter
    exact ⟨t, h.state ▸ h.test hd hc.1 hc.2, rfl⟩
  | testWriter hcc =>
    rw [hcc] at hc hafter
    obtain ⟨hd, rfl⟩ := hafter
    exact ⟨t, h.state ▸ h.test hd hc.1 hc.2, rfl⟩
  | pop hcc hst =>
    rw [hcc] at hc
    rw [h.state] at hst
    obtain ⟨t', et, hm, rfl, hn', hk'⟩ := access_tracks h.near h.kept (h.unraced _) hst
    cases hm with
    | pop =>
      exact ⟨_, ⟨rfl, hn', hk', h.numbered, hp, h.done, ⟨trivial, trivial, hc.2⟩, trivial⟩,
        [], .pop⟩
  | popped hcc hi =>
    obtain ⟨heq, -, hn⟩ := h.counted .loadDone .loadDone (.inl hcc) hi
    rw [h.state] at hi
    rw [heq]
    exact ⟨t, { h with consumer := ⟨⟨_, ConsumerPc.of_wrap_idle hi⟩, hn⟩, after := trivial }, rfl⟩
  | missed hcc hi =>
    rw [hcc] at hc
    rw [h.state] at hi
    have hi := ConsumerPc.of_wrap_idle hi
    have hn := hc.2.2
    rw [hi] at hn
    exact ⟨t, { h with consumer := ⟨⟨_, hi⟩, hn⟩, after := trivial }, rfl⟩
  | consumer hcc hst =>
    rw [h.state] at hst
    obtain ⟨t', et, hm, rfl, hn', hk'⟩ := access_tracks h.near h.kept (h.unraced _) hst
    cases hm with
    | consumer hm => exact ⟨_, h.consumerMove hcc hm hn' hk', et, .consumer hm⟩
  | flush hcc hst =>
    rw [hcc] at hc hafter
    rw [h.state] at hst
    obtain ⟨t', et, hm, rfl, hn', hk'⟩ := access_tracks h.near h.kept (h.unraced _) hst
    cases hm with
    | consumerFlush =>
      exact ⟨_, ⟨rfl, hn', hk', h.numbered, hp, h.done, ⟨.inl rfl, hc.2⟩, hafter.1, trivial⟩, [],
        .consumerFlush⟩
  | flushed hcc hi =>
    rw [hcc] at hc hafter
    rw [h.state] at hi
    have hi := ConsumerPc.of_wrap_idle hi
    obtain ⟨hd, hall⟩ := hafter
    rw [hi] at hall
    exact ⟨t, { h with consumer := ⟨⟨_, hi⟩, hc.2⟩, after := ⟨hd, hall⟩ }, rfl⟩
  | drainPop hcc hst =>
    rw [hcc] at hc hafter
    rw [h.state] at hst
    obtain ⟨t', et, hm, rfl, hn', hk'⟩ := access_tracks h.near h.kept (h.unraced _) hst
    cases hm with
    | pop =>
      refine ⟨_, ⟨rfl, hn', hk', h.numbered, hp, h.done, ⟨trivial, trivial, hc.2⟩,
        hafter.1, hafter.2, ?_⟩,
        [], .pop⟩
      rintro (⟨hdec, -⟩ | ⟨x, hdec⟩ | hdec) <;> cases hdec
  | drained hcc hi =>
    obtain ⟨heq, -, hn⟩ := h.counted .drainCall .finished (.inr hcc) hi
    rw [hcc] at hafter
    rw [h.state] at hi
    rw [heq]
    exact ⟨t, { h with
      consumer := ⟨⟨_, ConsumerPc.of_wrap_idle hi⟩, hn⟩
      after := ⟨hafter.1, hafter.2.1⟩ }, rfl⟩
  | drainEnd hcc hi =>
    rw [hcc] at hc hafter
    rw [h.state] at hi
    have hi := ConsumerPc.of_wrap_idle hi
    obtain ⟨hd, hall, hdec⟩ := hafter
    have hn := hc.2.2
    rw [hi] at hn
    exact ⟨t, { h with
      consumer := ⟨⟨_, hi⟩, hn⟩
      after := ⟨hd, (hdec (.inr (.inr hi))).trans hall⟩ }, rfl⟩
  | missing hcc he =>
    rw [hcc] at hc hafter
    refine (he ?_).elim
    rw [← BitVec.toNat_inj, ← hc.2, hafter.2, (h.finished hafter.1).2]
  | pass hcc he =>
    rw [hcc] at hc hafter
    exact ⟨t, { h with consumer := hc, after := hafter }, rfl⟩

/-! ## Every run -/

theorem start_good {capacity : BitVec 64} {memory : BitVec 64 → BitVec 64}
    {q : SPSC (BitVec 64) (BitVec 64)} (hq : SPSC.new capacity memory = .ok q) :
    ∃ t, Good N (start q) t := by
  obtain ⟨q₀, hnew, hstart, -, hnear⟩ := new_unwrap hq
  obtain ⟨rfl, -⟩ := SPSC.new_eq hnew
  refine ⟨_, hstart, hnear, start_kept _, ?_, ⟨⟨_, rfl⟩, rfl, ?_⟩, nofun, ⟨⟨_, rfl⟩, rfl⟩, trivial⟩
  · exact fun i _ hlt => (Nat.not_lt_zero i hlt).elim
  · exact Nat.zero_le _

/-- The run lemma. -/
theorem reach_good {ok : Correctness → Turn → Prop} {es : List Loop}
    (h : (testSpscCorrectness PublishBatch N).Reach ok b b' es) (hg : Good N b t) :
    ∃ t', Good N b' t' := by
  induction h with
  | refl => exact ⟨t, hg⟩
  | tail a _ _ hst ih =>
    obtain ⟨t₁, hg₁⟩ := ih
    obtain ⟨oa, hm⟩ := step_move hst
    obtain ⟨t', hg', -⟩ := hm.good hg₁
    exact ⟨t', hg'⟩

end Correctness

end FastQ
