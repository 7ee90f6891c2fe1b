import Mathlib.Data.Nat.Choose.Basic
import FastQ.Proofs.Stopping
import FastQ.Testing.Results

/-!
# The results of the benchmark

The threads touch the queue only after both have announced themselves and `start` is set
(`Handshake`). When the main thread has returned, `sum` is the sum of a prefix of the payloads
`0, 1, 2, ...`, those that were popped, so it is `m * (m - 1) / 2` for the number `m` of pops; and
`ops` differs from what was accepted by a ring and one element at most (`results`).

* `Pushes`: the payloads count the accepted elements.
* `Sums`: the local sums of the consumer, with the element of a pop that it has not counted yet
  (`uncounted`). After `stop` no more is accepted than a ring, and the element that is owed.
-/

namespace FastQ

section Calls

variable {α κ : Type} [OfNat κ 1] [Add κ] [Sub κ] [AndOp κ] [LE κ] [DecidableEq κ] [DecidableLE κ]
  {PublishBatch : κ} {k : Nat} {q q' : SPSC α κ} {e : List (Event α κ)}

/-- The element that the pop has taken, or that the last pop took. -/
def ConsumerPc.carried : ConsumerPc α κ → List α
  | .batchCheck data | .publishReader (.pop (some data)) _ | .idle (some (.pop (some data))) =>
    [data]
  | _ => []

theorem ConsumerMove.carried {c c' : ConsumerPc α κ}
    (hm : ConsumerMove PublishBatch k q c q' c' e) : c'.carried = c.carried ++ popped e := by
  cases hm with
  | @markReader r => cases r <;> rfl
  | @readReader r | @storeReader r | @readReaderAgain r =>
    match r with
    | .pop (some data) => rfl
    | .pop none => rfl
    | .flush => rfl
  | _ => rfl

/-- A push accepts the element that it carries. -/
theorem ProducerMove.accepted {p p' : ProducerPc α κ} {x : α}
    (hm : ProducerMove PublishBatch k q p q' p' e) (h : p.Carries x) :
    accepted e = List.replicate (accepted e).length x := by
  cases hm with
  | increment =>
    obtain rfl : _ = x := h
    rfl
  | _ => rfl

end Calls

namespace Benchmark

variable {PublishBatch : BitVec 64} {b b' : Benchmark}
  {e es : List (Event (BitVec 64) (BitVec 64))}

/-- The payloads are the numbers of the accepted elements. -/
structure Pushes (b : Benchmark) (es : List (Event (BitVec 64) (BitVec 64))) : Prop where
  accepted : accepted es = (List.range (accepted es).length).map (BitVec.ofNat 64)
  payload : b.producer ≠ .inside → b.payload = BitVec.ofNat 64 (FastQ.accepted es).length
  inside : b.producer = .inside → b.s.producer.Carries b.payload ∧
    b.payload + (if b.s.producer.accepts then 1 else 0) =
      BitVec.ofNat 64 (FastQ.accepted es).length

theorem Move.pushes (hm : Move PublishBatch b b' e) (h : Pushes b es) : Pushes b' (es ++ e) := by
  cases hm with
  | push hp hst =>
    obtain ⟨rfl, hpc, -⟩ := step_push hst
    rw [List.append_nil]
    have hpay := h.payload (by simp [hp])
    refine ⟨h.accepted, fun hne => (hne rfl).elim, fun _ => ?_⟩
    simp [hpc, ProducerPc.Carries, ProducerPc.accepts, ProducerPc.advanced, hpay]
  | pushed hp hi =>
    rw [List.append_nil]
    obtain ⟨-, hpay⟩ := h.inside hp
    refine ⟨h.accepted, fun _ => ?_, by simp⟩
    simpa [hi, ProducerPc.accepts] using hpay
  | retry hp hi =>
    rw [List.append_nil]
    obtain ⟨-, hpay⟩ := h.inside hp
    refine ⟨h.accepted, fun _ => ?_, by simp⟩
    simpa [hi, ProducerPc.accepts] using hpay
  | @producer s _ hp hst =>
    obtain ⟨hm, -⟩ := step_producer_move hst
    obtain ⟨hcarries, hpay⟩ := h.inside hp
    have honce := hm.accepts_once
    refine ⟨?_, fun hne => (hne hp).elim, fun _ => ⟨hm.carries hcarries, ?_⟩⟩
    · rw [accepted_append, List.length_append, hm.accepted hcarries, List.length_replicate]
      by_cases hacc : b.s.producer.accepts = true
      · have hzero : (FastQ.accepted e).length = 0 := by
          rw [if_pos hacc] at honce
          split at honce <;> omega
        rw [hzero]
        simpa using h.accepted
      · rw [if_neg hacc] at honce hpay
        rw [add_zero] at hpay
        rw [hpay]
        split at honce
        · obtain hone : (FastQ.accepted e).length = 1 := by omega
          rw [hone, List.range_succ, List.map_append, ← h.accepted]
          rfl
        · obtain hzero : (FastQ.accepted e).length = 0 := by omega
          rw [hzero]
          simpa using h.accepted
    · have hbit : (if s.producer.accepts then 1 else 0 : BitVec 64) =
          (if b.s.producer.accepts then 1 else 0) + BitVec.ofNat 64 (FastQ.accepted e).length := by
        split at honce <;> split at honce <;> simp_all
      rw [accepted_append, List.length_append, BitVec.ofNat_add, ← hpay]
      change b.payload + (if s.producer.accepts then 1 else 0) = _
      rw [hbit, BitVec.add_assoc]
  | leave hp | next hp =>
    rw [List.append_nil]
    exact ⟨h.accepted, fun _ => h.payload (by simp [hp]), by simp⟩
  | pop hc hst | drainPop hc hst =>
    obtain ⟨rfl, -, hs⟩ := step_pop hst
    rw [List.append_nil]
    refine ⟨h.accepted, h.payload, ?_⟩
    rw [hs]
    exact h.inside
  | consumer hc hst =>
    obtain ⟨hm, hs⟩ := step_consumer_move hst
    have hno : FastQ.accepted (es ++ e) = FastQ.accepted es := by
      rw [accepted_append, hm.accepts_nothing, List.append_nil]
    refine ⟨hno ▸ h.accepted, hno ▸ h.payload, ?_⟩
    rw [hno, hs]
    exact h.inside
  | _ =>
    rw [List.append_nil]
    exact ⟨h.accepted, h.payload, h.inside⟩

theorem start_pushes (q : SPSC (BitVec 64) (BitVec 64)) : Pushes (start q) [] :=
  ⟨rfl, fun _ => rfl, nofun⟩

/-- A run of the benchmark is a run of the queue. -/
theorem reach_queue {ok : Benchmark → Thread → Prop}
    (h : (runSpscBenchmark PublishBatch).Reach ok b b' es) :
    (spsc PublishBatch).Reach (fun _ _ => True) b.s b'.s es := by
  have hp : (spsc PublishBatch).Reach (fun _ _ => True) b.s b'.s (es.filterMap some) := by
    refine h.project Benchmark.s some fun b a b' e _ hst => ?_
    rw [List.filterMap_some]
    cases step_move hst with
    | push hp hs => exact .inr ⟨_, trivial, hs⟩
    | producer hp hs => exact .inr ⟨_, trivial, hs⟩
    | pop hc hs => exact .inr ⟨_, trivial, hs⟩
    | consumer hc hs => exact .inr ⟨_, trivial, hs⟩
    | drainPop hc hs => exact .inr ⟨_, trivial, hs⟩
    | _ => exact .inl ⟨rfl, rfl⟩
  rwa [List.filterMap_some] at hp

/-- The consumer pops the payloads from the first one on. -/
theorem popped_range {ok : Benchmark → Thread → Prop} {capacity : BitVec 64}
    {memory : BitVec 64 → BitVec 64} {q : SPSC (BitVec 64) (BitVec 64)}
    (hq : SPSC.new capacity memory = .ok q)
    (h : (runSpscBenchmark PublishBatch).Reach ok (start q) b es) :
    FastQ.popped es = (List.range (FastQ.popped es).length).map (BitVec.ofNat 64) := by
  have hpushes : Pushes b es := by
    refine h.invariant (P := Pushes) (start_pushes q) ?_
    exact fun b es a b' e hi _ hst => (step_move hst).pushes hi
  obtain ⟨sched, hsched⟩ := (reach_queue h).run
  obtain ⟨t, et, -, -, -, hleg, hacc, hpop⟩ := exists_legal hq hsched
  obtain ⟨hpre, -⟩ := hleg.prefix_of_nil
  rw [enqs_ops, deqs_ops, hacc, hpop] at hpre
  have htake := List.prefix_iff_eq_take.mp hpre
  rw [hpushes.accepted, ← List.map_take, List.take_range, Nat.min_eq_left hpre.length_le] at htake
  exact htake

/-- The element of a pop that the consumer has not counted yet. -/
def uncounted (b : Benchmark) : List (BitVec 64) :=
  match b.consumer with
  | .inside | .drainInside => b.s.consumer.carried
  | _ => []

theorem uncounted_eq (hc : b'.consumer = b.consumer) (hs : b'.s.consumer = b.s.consumer) :
    b'.uncounted = b.uncounted := by
  unfold uncounted
  rw [hc, hs]

/-- The consumer counts what it pops. -/
def counting (b : Benchmark) : Bool :=
  match b.consumer with
  | .check | .call | .inside => true
  | _ => false

theorem owed_le (b : Benchmark) : b.owed ≤ 1 := by
  unfold owed
  split
  · exact Nat.zero_le 1
  · exact Nat.zero_le 1
  · exact Nat.le_refl 1
  · split <;> omega

/-- Only the consumer pops. -/
theorem step_popped {a : Thread} (hst : (runSpscBenchmark PublishBatch).step b a = some (b', e))
    (ha : a ≠ .consumer) : FastQ.popped e = [] := by
  cases a with
  | consumer => exact (ha rfl).elim
  | producer =>
    have hst : b.stepProducer PublishBatch = some (b', e) := hst
    unfold stepProducer at hst
    split at hst
    · split at hst <;> cases hst <;> rfl
    · obtain ⟨s, hs, rfl⟩ := access_eq hst
      rw [(step_push hs).1]
      rfl
    · split at hst
      · cases hst
        rfl
      · cases hst
        rfl
      · obtain ⟨s, hs, rfl⟩ := access_eq hst
        exact (step_producer_move hs).1.returned.1
    · cases hst
  | main =>
    have hst : b.stepMain = some (b', e) := hst
    unfold stepMain at hst
    split at hst <;> cases hst
    rfl

theorem stepProducer_stop (hst : b.stepProducer PublishBatch = some (b', e)) :
    b'.stop = b.stop := by
  unfold stepProducer at hst
  split at hst
  · split at hst <;> cases hst <;> rfl
  · obtain ⟨s, -, rfl⟩ := access_eq hst
    rfl
  · split at hst
    · cases hst
      rfl
    · cases hst
      rfl
    · obtain ⟨s, -, rfl⟩ := access_eq hst
      rfl
  · cases hst

theorem stepConsumer_stop (hst : b.stepConsumer PublishBatch = some (b', e)) :
    b'.stop = b.stop ∧ b'.producer = b.producer := by
  unfold stepConsumer at hst
  split at hst
  · split at hst <;> cases hst <;> exact ⟨rfl, rfl⟩
  · obtain ⟨s, -, rfl⟩ := access_eq hst
    exact ⟨rfl, rfl⟩
  · split at hst
    · cases hst
      exact ⟨rfl, rfl⟩
    · obtain ⟨s, -, rfl⟩ := access_eq hst
      exact ⟨rfl, rfl⟩
  · obtain ⟨s, -, rfl⟩ := access_eq hst
    exact ⟨rfl, rfl⟩
  · split at hst
    · split at hst <;> cases hst <;> exact ⟨rfl, rfl⟩
    · obtain ⟨s, -, rfl⟩ := access_eq hst
      exact ⟨rfl, rfl⟩
  · cases hst

/-- What is accepted and not popped is in the ring. -/
theorem Counted.room {n : Nat} (h : Counted PublishBatch n b es) :
    (FastQ.popped es).length ≤ (FastQ.accepted es).length ∧
      (FastQ.accepted es).length ≤ (FastQ.popped es).length + n := by
  obtain ⟨⟨t, hg, rfl, hacc, hpop⟩, -⟩ := h
  have := hg.steady.near.inv.ordered.local_le
  omega

end Benchmark

namespace Measurement

variable {PublishBatch : BitVec 64} {r r' : Measurement} {n : Nat}
  {e es : List (Event (BitVec 64) (BitVec 64))}

/-! ## The steps of the threads -/

/-- The steps of the threads. -/
inductive Move (PublishBatch : BitVec 64) (r : Measurement) :
    Thread → Measurement → List (Event (BitVec 64) (BitVec 64)) → Prop
  | producerReady : r.producer = .announce →
      Move PublishBatch r .producer { r with ready := r.ready + 1, producer := .await } []
  | consumerReady : r.consumer = .announce →
      Move PublishBatch r .consumer { r with ready := r.ready + 1, consumer := .await } []
  /-- A test of a spin that goes on. -/
  | spin {a : Thread} : (a = .main → r.ready < 2) → (a ≠ .main → r.start = false) →
      Move PublishBatch r a r []
  | producerStart : r.producer = .await → r.start = true →
      Move PublishBatch r .producer { r with producer := .running } []
  | consumerStart : r.consumer = .await → r.start = true →
      Move PublishBatch r .consumer { r with consumer := .running } []
  | producer {b : Benchmark} {e : List (Event (BitVec 64) (BitVec 64))} : r.producer = .running →
      r.b.stepProducer PublishBatch = some (b, e) → Move PublishBatch r .producer { r with b } e
  | consumer {b : Benchmark} {e : List (Event (BitVec 64) (BitVec 64))} : r.consumer = .running →
      r.b.stepConsumer PublishBatch = some (b, e) →
      Move PublishBatch r .consumer { r.tally with b } e
  | ready : r.main = .awaitReady → 2 ≤ r.ready →
      Move PublishBatch r .main { r with main := .storeStart } []
  | start : r.main = .storeStart →
      Move PublishBatch r .main { r with start := true, main := .storeStop } []
  | stop {b : Benchmark} {e : List (Event (BitVec 64) (BitVec 64))} : r.main = .storeStop →
      r.b.stepMain = some (b, e) → Move PublishBatch r .main { r with b, main := .joinProducer } e
  | joinProducer : r.main = .joinProducer → r.b.producer = .returned →
      Move PublishBatch r .main { r with main := .joinConsumer } []
  | joinConsumer : r.main = .joinConsumer → r.b.consumer = .returned →
      Move PublishBatch r .main { r with main := .returned } []

theorem step_move {a : Thread} (hst : (measurement PublishBatch).step r a = some (r', e)) :
    Move PublishBatch r a r' e := by
  cases a with
  | producer =>
    have hst : r.stepProducer PublishBatch = some (r', e) := hst
    unfold stepProducer at hst
    split at hst <;> rename_i hp
    · cases hst
      exact .producerReady hp
    · cases hst
      split <;> rename_i hs
      · exact .producerStart hp hs
      · exact .spin nofun fun _ => Bool.eq_false_of_not_eq_true hs
    · obtain ⟨⟨b, e'⟩, hb, hr⟩ := Option.map_eq_some_iff.mp hst
      cases hr
      exact .producer hp hb
  | consumer =>
    have hst : r.stepConsumer PublishBatch = some (r', e) := hst
    unfold stepConsumer at hst
    split at hst <;> rename_i hc
    · cases hst
      exact .consumerReady hc
    · cases hst
      split <;> rename_i hs
      · exact .consumerStart hc hs
      · exact .spin nofun fun _ => Bool.eq_false_of_not_eq_true hs
    · obtain ⟨⟨b, e'⟩, hb, hr⟩ := Option.map_eq_some_iff.mp hst
      cases hr
      exact .consumer hc hb
  | main =>
    have hst : r.stepMain = some (r', e) := hst
    unfold stepMain at hst
    split at hst <;> rename_i hm
    · cases hst
      split <;> rename_i hr
      · exact .spin (fun _ => hr) fun hne => (hne rfl).elim
      · exact .ready hm (Nat.le_of_not_lt hr)
    · cases hst
      exact .start hm
    · obtain ⟨⟨b, e'⟩, hb, hr⟩ := Option.map_eq_some_iff.mp hst
      cases hr
      exact .stop hm hb
    · split at hst <;> rename_i hp <;> cases hst
      exact .joinProducer hm hp
    · split at hst <;> rename_i hc <;> cases hst
      exact .joinConsumer hm hc
    · cases hst

/-- Each step is a step of the loops, or leaves them. -/
theorem Move.loops {a : Thread} (hm : Move PublishBatch r a r' e) : (r'.b = r.b ∧ e = []) ∨
    (runSpscBenchmark PublishBatch).step r.b a = some (r'.b, e) := by
  cases hm with
  | producer hp hb => exact .inr hb
  | consumer hc hb => exact .inr hb
  | stop hm hb => exact .inr hb
  | _ => exact .inl ⟨rfl, rfl⟩

/-- A run is a run of the loops. -/
theorem reach_loops {ok : Measurement → Thread → Prop} {r₀ : Measurement}
    (h : (measurement PublishBatch).Reach ok r₀ r es) :
    (runSpscBenchmark PublishBatch).Reach (fun _ _ => True) r₀.b r.b es := by
  have hp : (runSpscBenchmark PublishBatch).Reach (fun _ _ => True) r₀.b r.b
      (es.filterMap some) := by
    refine h.project b some fun r a r' e _ hst => ?_
    rw [List.filterMap_some]
    exact (step_move hst).loops.imp_right fun hb => ⟨a, trivial, hb⟩
  rwa [List.filterMap_some] at hp

/-! ## The sums -/

/-- The sums of the consumer, where the queue has `n` slots. -/
structure Sums (n : Nat) (r : Measurement) (es : List (Event (BitVec 64) (BitVec 64))) : Prop where
  sum : r.localSum + r.b.uncounted.sum = (popped es).sum
  counting : r.b.counting = true → r.localOps + BitVec.ofNat 64 r.b.uncounted.length =
    BitVec.ofNat 64 (popped es).length
  counted : r.b.counting = false → ∃ k, r.localOps = BitVec.ofNat 64 k ∧ k ≤ (popped es).length ∧
    (accepted es).length + r.b.owed ≤ k + n + 1
  result : r.b.consumer = .returned → r.sum = r.localSum ∧ r.ops = r.localOps

/-- Nothing is counted but at the result of a pop. -/
theorem tally_eq (r : Measurement) (h : r.b.consumer = .inside ∨ r.b.consumer = .drainInside →
    ∀ x, r.b.s.consumer ≠ .idle (some (.pop x))) : r.tally = r := by
  by_cases hc : r.b.consumer = .inside ∨ r.b.consumer = .drainInside
  · have hno := h hc
    match hs : r.b.s.consumer with
    | .idle (some (.pop x)) => exact (hno x hs).elim
    | .idle none | .idle (some .flush) | .emptyCheck | .loadWriter | .emptyRecheck | .readSlot
    | .increment _ | .batchCheck _ | .publishReader _ _ | .publishWriter _ =>
      rcases hc with hc | hc <;> simp [tally, hc, hs]
  · cases hcc : r.b.consumer <;> simp_all [tally]

/-- The sums are all that is changed at the result of a pop. -/
theorem tally_fields (r : Measurement) : r.tally.b = r.b ∧ r.tally.producer = r.producer ∧
    r.tally.consumer = r.consumer ∧ r.tally.main = r.main ∧ r.tally.ready = r.ready ∧
    r.tally.start = r.start := by
  by_cases h : ∃ x, r.b.s.consumer = .idle (some (.pop x))
  · obtain ⟨x, hx⟩ := h
    cases hc : r.b.consumer <;> cases x <;> simp [tally, hc, hx]
  · rw [r.tally_eq fun _ x hx => h ⟨x, hx⟩]
    simp

/-- A step of the consumer in its loops. -/
theorem Sums.consumer {b' : Benchmark} (h : Sums n r es)
    (hb : r.b.stepConsumer PublishBatch = some (b', e))
    (hc : Benchmark.Counted PublishBatch n r.b es) : Sums n { r.tally with b := b' } (es ++ e) := by
  have hsum := h.sum
  unfold Benchmark.stepConsumer at hb
  split at hb <;> rename_i hcc
  · rw [r.tally_eq (by simp [hcc])]
    have hops := h.counting (by simp [Benchmark.counting, hcc])
    simp only [Benchmark.uncounted, hcc] at hsum hops
    split at hb <;> cases hb <;> rw [List.append_nil]
    · refine ⟨hsum, nofun, fun _ => ⟨(popped es).length, ?_, Nat.le_refl _, ?_⟩, nofun⟩
      · simpa using hops
      · have := hc.room
        have := r.b.owed_le
        change (accepted es).length + r.b.owed ≤ _
        omega
    · exact ⟨hsum, fun _ => hops, nofun, nofun⟩
  · rw [r.tally_eq (by simp [hcc])]
    have hops := h.counting (by simp [Benchmark.counting, hcc])
    simp only [Benchmark.uncounted, hcc] at hsum hops
    obtain ⟨s, hs, rfl⟩ := Benchmark.access_eq hb
    obtain ⟨rfl, hpc, -⟩ := step_pop hs
    rw [List.append_nil]
    refine ⟨?_, fun _ => ?_, nofun, nofun⟩
    · simpa [Benchmark.uncounted, hpc, ConsumerPc.carried] using hsum
    · simpa [Benchmark.uncounted, hpc, ConsumerPc.carried] using hops
  · have hops := h.counting (by simp [Benchmark.counting, hcc])
    simp only [Benchmark.uncounted, hcc] at hsum hops
    split at hb
    · rename_i x hi
      cases hb
      rw [List.append_nil]
      rw [hi] at hsum hops
      cases x with
      | none =>
        have htally : r.tally = r := by simp [tally, hcc, hi]
        rw [htally]
        exact ⟨hsum, fun _ => hops, nofun, nofun⟩
      | some payload =>
        have htally : r.tally =
            { r with localSum := r.localSum + payload, localOps := r.localOps + 1 } := by
          simp [tally, hcc, hi]
        rw [htally]
        refine ⟨?_, fun _ => ?_, nofun, nofun⟩
        · simpa [Benchmark.uncounted, ConsumerPc.carried] using hsum
        · simpa [Benchmark.uncounted, ConsumerPc.carried] using hops
    · rename_i hi
      rw [r.tally_eq fun _ x hx => hi x hx]
      obtain ⟨s, hs, rfl⟩ := Benchmark.access_eq hb
      obtain ⟨hm, -⟩ := step_consumer_move hs
      refine ⟨?_, fun _ => ?_, fun hno => ?_, fun hno => ?_⟩
      · simp only [Benchmark.uncounted, hcc, hm.carried, popped_append, List.sum_append]
        rw [← hsum, BitVec.add_assoc]
      · simp only [Benchmark.uncounted, hcc, hm.carried, popped_append, List.length_append,
          BitVec.ofNat_add]
        rw [← hops, BitVec.add_assoc]
      · simp [Benchmark.counting, hcc] at hno
      · simp [hcc] at hno
  · rw [r.tally_eq (by simp [hcc])]
    obtain ⟨k, hops, hle, hbound⟩ := h.counted (by simp [Benchmark.counting, hcc])
    simp only [Benchmark.uncounted, hcc] at hsum
    obtain ⟨s, hs, rfl⟩ := Benchmark.access_eq hb
    obtain ⟨rfl, hpc, hsp⟩ := step_pop hs
    rw [List.append_nil]
    refine ⟨?_, nofun, fun _ => ⟨k, hops, hle, ?_⟩, nofun⟩
    · simpa [Benchmark.uncounted, hpc, ConsumerPc.carried] using hsum
    · have howed : Benchmark.owed { r.b with s, consumer := .drainInside } = r.b.owed :=
        Benchmark.owed_eq rfl hsp
      rw [← howed] at hbound
      exact hbound
  · obtain ⟨k, hops, hle, hbound⟩ := h.counted (by simp [Benchmark.counting, hcc])
    simp only [Benchmark.uncounted, hcc] at hsum
    split at hb
    · rename_i x hi
      rw [hi] at hsum
      cases x with
      | none =>
        have htally : r.tally = { r with ops := r.localOps, sum := r.localSum } := by
          simp [tally, hcc, hi]
        rw [htally]
        cases hb
        rw [List.append_nil]
        exact ⟨hsum, nofun, fun _ => ⟨k, hops, hle, hbound⟩, fun _ => ⟨rfl, rfl⟩⟩
      | some payload =>
        have htally : r.tally = { r with localSum := r.localSum + payload } := by
          simp [tally, hcc, hi]
        rw [htally]
        cases hb
        rw [List.append_nil]
        refine ⟨?_, nofun, fun _ => ⟨k, hops, hle, hbound⟩, nofun⟩
        simpa [Benchmark.uncounted, ConsumerPc.carried] using hsum
    · rename_i hi
      rw [r.tally_eq fun _ x hx => hi x hx]
      obtain ⟨s, hs, rfl⟩ := Benchmark.access_eq hb
      obtain ⟨hm, hsp⟩ := step_consumer_move hs
      refine ⟨?_, fun hno => ?_, fun _ => ⟨k, hops, ?_, ?_⟩, fun hno => ?_⟩
      · simp only [Benchmark.uncounted, hcc, hm.carried, popped_append, List.sum_append]
        rw [← hsum, BitVec.add_assoc]
      · simp [Benchmark.counting, hcc] at hno
      · rw [popped_append, List.length_append]
        omega
      · rw [accepted_append, hm.accepts_nothing, List.append_nil]
        have howed : Benchmark.owed { r.b with s } = r.b.owed := Benchmark.owed_eq rfl hsp
        rw [← howed] at hbound
        exact hbound
      · simp [hcc] at hno
  · cases hb

/-- A step of another thread. -/
theorem Sums.other {a : Thread} {b' : Benchmark} {main : MainThread} (h : Sums n r es)
    (hst : (runSpscBenchmark PublishBatch).step r.b a = some (b', e)) (ha : a ≠ .consumer)
    (hstop : r.b.counting = false → r.b.stop = true) :
    Sums n { r with b := b', main } (es ++ e) := by
  obtain ⟨hcc, hsc⟩ := Benchmark.step_consumer hst ha
  have hun := Benchmark.uncounted_eq hcc hsc
  have hcount : b'.counting = r.b.counting := by
    unfold Benchmark.counting
    rw [hcc]
  have hpop := Benchmark.step_popped hst ha
  refine ⟨?_, fun hc => ?_, fun hc => ?_, fun hc => h.result (hcc.symm.trans hc)⟩
  · rw [hun, popped_append, hpop, List.append_nil]
    exact h.sum
  · rw [hun, popped_append, hpop, List.append_nil]
    exact h.counting (hcount ▸ hc)
  · have hc : r.b.counting = false := hcount ▸ hc
    obtain ⟨k, hk, hle, hbound⟩ := h.counted hc
    refine ⟨k, hk, by rwa [popped_append, hpop, List.append_nil], ?_⟩
    have howed := (Benchmark.step_move hst).owed_eq (hstop hc)
    rw [accepted_append, List.length_append]
    change _ + b'.owed ≤ _
    omega

/-- **The step lemma of the sums.** -/
theorem Move.sums {a : Thread} (hm : Move PublishBatch r a r' e) (h : Sums n r es)
    (hc : Benchmark.Counted PublishBatch n r.b es) : Sums n r' (es ++ e) := by
  have hstop : r.b.counting = false → r.b.stop = true := fun hno => by
    obtain ⟨⟨t, hg, -⟩, -⟩ := hc
    refine hg.stop ?_
    cases hcc : r.b.consumer <;> simp_all [Benchmark.counting]
  cases hm with
  | consumer hrun hb => exact h.consumer hb hc
  | producer hrun hb => exact h.other (a := .producer) hb nofun hstop
  | stop hmain hb =>
    have hb : (runSpscBenchmark PublishBatch).step r.b .main = some (_, e) := hb
    exact h.other hb nofun hstop
  | _ =>
    rw [List.append_nil]
    exact ⟨h.sum, h.counting, h.counted, h.result⟩

/-! ## The handshake and the joins -/

/-- What the main thread knows where it is. -/
def MainAt (r : Measurement) : MainThread → Prop
  | .awaitReady => r.start = false ∧ r.b.stop = false
  | .storeStart => r.start = false ∧ r.b.stop = false ∧ 2 ≤ r.ready
  | .storeStop => r.start = true ∧ r.b.stop = false
  | .joinProducer => r.start = true ∧ r.b.stop = true
  | .joinConsumer => r.start = true ∧ r.b.stop = true ∧ r.b.producer = .returned
  | .returned =>
    r.start = true ∧ r.b.stop = true ∧ r.b.producer = .returned ∧ r.b.consumer = .returned

/-- The invariant of the handshake and of the joins. -/
structure Handshake (q : SPSC (BitVec 64) (BitVec 64)) (r : Measurement)
    (es : List (Event (BitVec 64) (BitVec 64))) : Prop where
  waiting : r.start = false → r.b = .start q ∧ es = []
  ready : r.ready = (if r.producer = .announce then 0 else 1) +
    if r.consumer = .announce then 0 else 1
  announced : r.start = true → 2 ≤ r.ready
  running : r.producer = .running ∨ r.consumer = .running → r.start = true
  main : MainAt r r.main

/-- What the other threads leave. -/
theorem MainAt.keep {m : MainThread} (h : MainAt r m) (hs : r'.start = r.start)
    (hstop : r'.b.stop = r.b.stop) (hr : r.ready ≤ r'.ready)
    (hp : r.b.producer = .returned → r'.b.producer = .returned)
    (hc : r.b.consumer = .returned → r'.b.consumer = .returned) : MainAt r' m := by
  cases m with
  | awaitReady => exact ⟨hs.trans h.1, hstop.trans h.2⟩
  | storeStart => exact ⟨hs.trans h.1, hstop.trans h.2.1, h.2.2.trans hr⟩
  | storeStop => exact ⟨hs.trans h.1, hstop.trans h.2⟩
  | joinProducer => exact ⟨hs.trans h.1, hstop.trans h.2⟩
  | joinConsumer => exact ⟨hs.trans h.1, hstop.trans h.2.1, hp h.2.2⟩
  | returned => exact ⟨hs.trans h.1, hstop.trans h.2.1, hp h.2.2.1, hc h.2.2.2⟩

/-- **The step lemma of the handshake.** -/
theorem Move.handshake {a : Thread} {q : SPSC (BitVec 64) (BitVec 64)}
    (hm : Move PublishBatch r a r' e) (h : Handshake q r es) : Handshake q r' (es ++ e) := by
  have hready := h.ready
  have hmain := h.main
  cases hm with
  | producerReady hp =>
    rw [List.append_nil]
    refine ⟨h.waiting, ?_, fun hs => Nat.le_succ_of_le (h.announced hs), ?_,
      hmain.keep rfl rfl (Nat.le_succ _) id id⟩
    · simp only [hp, ↓reduceIte, reduceCtorEq] at hready ⊢
      omega
    · rintro (hrun | hrun)
      · cases hrun
      · exact h.running (.inr hrun)
  | consumerReady hc =>
    rw [List.append_nil]
    refine ⟨h.waiting, ?_, fun hs => Nat.le_succ_of_le (h.announced hs), ?_,
      hmain.keep rfl rfl (Nat.le_succ _) id id⟩
    · simp only [hc, ↓reduceIte, reduceCtorEq] at hready ⊢
      omega
    · rintro (hrun | hrun)
      · exact h.running (.inl hrun)
      · cases hrun
  | spin =>
    rw [List.append_nil]
    exact h
  | producerStart hp hs =>
    rw [List.append_nil]
    refine { h with ready := ?_, running := fun _ => hs }
    simpa [hp] using hready
  | consumerStart hc hs =>
    rw [List.append_nil]
    refine { h with ready := ?_, running := fun _ => hs }
    simpa [hc] using hready
  | producer hp hb =>
    have hs := h.running (.inl hp)
    refine { h with waiting := fun hno => ?_, main := ?_ }
    · exact (Bool.false_ne_true (hno.symm.trans hs)).elim
    · refine hmain.keep rfl (Benchmark.stepProducer_stop hb) (Nat.le_refl _) (fun hret => ?_)
        fun hret => (Benchmark.stepProducer_consumer hb).1.trans hret
      simp [Benchmark.stepProducer, hret] at hb
  | consumer hc hb =>
    have hs := h.running (.inr hc)
    obtain ⟨-, hp', hc', hm', hr', hs'⟩ := r.tally_fields
    refine ⟨fun hno => ?_, ?_, fun _ => ?_, fun _ => hs'.trans hs, ?_⟩
    · exact (Bool.false_ne_true (hno.symm.trans (hs'.trans hs))).elim
    · simp only [hp', hc', hr']
      exact hready
    · exact (h.announced hs).trans (Nat.le_of_eq hr'.symm)
    · simp only [hm']
      obtain ⟨hstop, hp⟩ := Benchmark.stepConsumer_stop hb
      refine hmain.keep hs' hstop (Nat.le_of_eq hr'.symm) (fun hret => hp.trans hret) fun hret => ?_
      simp [Benchmark.stepConsumer, hret] at hb
  | ready hm hr =>
    rw [List.append_nil]
    rw [hm] at hmain
    exact { h with main := ⟨hmain.1, hmain.2, hr⟩ }
  | start hm =>
    rw [List.append_nil]
    rw [hm] at hmain
    exact { h with
      waiting := by simp
      announced := fun _ => hmain.2.2
      running := fun _ => rfl
      main := ⟨rfl, hmain.2.1⟩ }
  | stop hm hb =>
    rw [hm] at hmain
    obtain ⟨hs, hstop⟩ := hmain
    simp only [Benchmark.stepMain, hstop, Bool.false_eq_true, ↓reduceIte, Option.some.injEq,
      Prod.mk.injEq] at hb
    obtain ⟨rfl, rfl⟩ := hb
    rw [List.append_nil]
    refine { h with waiting := fun hno => ?_, main := ⟨hs, rfl⟩ }
    exact (Bool.false_ne_true (hno.symm.trans hs)).elim
  | joinProducer hm hp =>
    rw [List.append_nil]
    rw [hm] at hmain
    exact { h with main := ⟨hmain.1, hmain.2, hp⟩ }
  | joinConsumer hm hc =>
    rw [List.append_nil]
    rw [hm] at hmain
    exact { h with main := ⟨hmain.1, hmain.2.1, hmain.2.2, hc⟩ }

/-! ## Every run -/

variable {capacity : BitVec 64} {memory : BitVec 64 → BitVec 64}
  {q : SPSC (BitVec 64) (BitVec 64)} {sched : List Thread}

theorem begin_handshake : Handshake q (begin q) [] :=
  ⟨fun _ => ⟨rfl, rfl⟩, rfl, nofun, by simp [begin], rfl, rfl⟩

theorem begin_sums : Sums n (begin q) [] :=
  ⟨rfl, fun _ => rfl, nofun, nofun⟩

/-- The run lemma. -/
theorem reach_sums {ok : Measurement → Thread → Prop} (hq : SPSC.new capacity memory = .ok q)
    (h : (measurement PublishBatch).Reach ok (begin q) r es) :
    Handshake q r es ∧ Sums capacity.toNat r es := by
  induction h with
  | refl => exact ⟨begin_handshake, begin_sums⟩
  | tail a hr _ hst ih =>
    have hm := step_move hst
    exact ⟨hm.handshake ih.1, hm.sums ih.2 (Benchmark.reach_counted hq (reach_loops hr))⟩

/-- The sum of the first payloads. -/
theorem sum_payloads (m : Nat) :
    ((List.range m).map (BitVec.ofNat 64)).sum = BitVec.ofNat 64 (m * (m - 1) / 2) := by
  induction m with
  | zero => rfl
  | succ m ih =>
    rw [List.range_succ, List.map_append, List.sum_append, ih, Nat.triangle_succ, BitVec.ofNat_add]
    simp

/-- **The results.** Whatever the capacity and the batch size, in every interleaving of the three
threads: the queue is not touched before both threads have announced themselves, and the main thread
returns after both of them. The consumer has then popped the payloads `0, ..., m - 1`, and `sum` is
their sum; `ops` counts at most `m` of them, and at most a ring and one element fewer than were
accepted. -/
theorem results (hq : SPSC.new capacity memory = .ok q)
    (hrun : (measurement PublishBatch).run (begin q) sched = some (r, es)) :
    (r.ready < 2 → r.b = .start q ∧ es = []) ∧
      (r.main = .returned → r.b.producer = .returned ∧ r.b.consumer = .returned ∧
        ∃ m n, popped es = (List.range m).map (BitVec.ofNat 64) ∧
          r.sum = BitVec.ofNat 64 (m * (m - 1) / 2) ∧ r.ops = BitVec.ofNat 64 n ∧ n ≤ m ∧
          m ≤ (accepted es).length ∧ (accepted es).length ≤ n + capacity.toNat + 1) := by
  have hr := Machine.run_reach hrun
  have hcounted := Benchmark.reach_counted hq (reach_loops hr)
  obtain ⟨hand, hsums⟩ := reach_sums hq hr
  refine ⟨fun hlt => ?_, fun hmain => ?_⟩
  · refine hand.waiting (Bool.eq_false_of_not_eq_true fun hs => ?_)
    have := hand.announced hs
    omega
  have hat := hand.main
  rw [hmain] at hat
  obtain ⟨-, -, hp, hc⟩ := hat
  obtain ⟨k, hops, hle, hbound⟩ := hsums.counted (by simp [Benchmark.counting, hc])
  obtain ⟨hsum, hres⟩ := hsums.result hc
  have hpopped := Benchmark.popped_range hq (reach_loops hr)
  refine ⟨hp, hc, (popped es).length, k, hpopped, ?_, hres.trans hops, hle, hcounted.room.1, ?_⟩
  · have huncounted : r.b.uncounted = [] := by simp [Benchmark.uncounted, hc]
    have htotal := hsums.sum
    rw [huncounted, hpopped, sum_payloads] at htotal
    rw [hsum, ← htotal]
    simp
  · omega

/-- Two pushes, one pop, and the other pop after `stop`. -/
def twoPushes : List Thread :=
  [.producer, .consumer, .main, .main, .producer, .consumer] ++ List.replicate 22 .producer ++
    List.replicate 13 .consumer ++ .main :: List.replicate 20 .consumer ++ [.producer, .main, .main]

/-- Both elements are in the sum, and one is counted. -/
theorem results_two : ∃ r es,
    (measurement 1).run (begin (SPSC.fresh 2 fun _ => 0)) twoPushes = some (r, es) ∧
      r.main = .returned ∧ r.ops = 1 ∧ ∃ m n, popped es = (List.range m).map (BitVec.ofNat 64) ∧
        r.sum = BitVec.ofNat 64 (m * (m - 1) / 2) ∧ r.ops = BitVec.ofNat 64 n ∧ n ≤ m ∧
        m ≤ (accepted es).length ∧ (accepted es).length ≤ n + 2 + 1 :=
  ⟨_, _, rfl, rfl, rfl,
    ((@results 1 _ _ 2 (fun _ => 0) (SPSC.fresh 2 fun _ => 0) twoPushes rfl rfl).2 rfl).2.2⟩

end Measurement

end FastQ
