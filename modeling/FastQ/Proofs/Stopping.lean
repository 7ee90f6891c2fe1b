import FastQ.Proofs.Shutdown
import FastQ.Proofs.WaitFree

/-!
# The benchmark comes to its end

Under any fair scheduling of the two threads and the main thread, the threads that
`run_spsc_benchmark` joins return: the consumer, whatever the batch size, and the producer if the
batch is at most the capacity (`benchmark_completes`).

* After `stop` the producer accepts at most the element of its current retry loop (`owed`), so the
  pops that take an element come to an end.
* From then on every step of the consumer brings it nearer to its return (`consumer_nearer`): a pop
  of the drain that takes nothing is the last one.
* Once the consumer has returned, only the producer moves, and alone it leaves (`producer_leaves`).
-/

namespace FastQ

section Calls

variable {α κ : Type} [OfNat κ 1] [Add κ] [Sub κ] [AndOp κ] [LE κ] [DecidableEq κ] [DecidableLE κ]
  {PublishBatch : κ} {k : Nat} {q q' : SPSC α κ} {e : List (Event α κ)}

/-- A push accepts its element once. -/
theorem ProducerMove.accepts_once {p p' : ProducerPc α κ}
    (hm : ProducerMove PublishBatch k q p q' p' e) :
    (if p.accepts then 1 else 0) + (accepted e).length = if p'.accepts then 1 else 0 := by
  cases hm <;> rfl

/-- A pop takes its element once. -/
theorem ConsumerMove.takes_once {c c' : ConsumerPc α κ}
    (hm : ConsumerMove PublishBatch k q c q' c' e) :
    (if c.takes then 1 else 0) + (popped e).length = if c'.takes then 1 else 0 := by
  cases hm <;> rfl

theorem ConsumerMove.accepts_nothing {c c' : ConsumerPc α κ}
    (hm : ConsumerMove PublishBatch k q c q' c' e) : accepted e = [] := by
  cases hm <;> rfl

end Calls

namespace Benchmark

variable {PublishBatch : BitVec 64} {b b' : Benchmark} {t : State (BitVec 64) Nat}
  {e : List (Event (BitVec 64) (BitVec 64))}

/-! ## After `stop` -/

/-- The elements that the producer still accepts after `stop`. -/
def owed (b : Benchmark) : Nat :=
  match b.producer with
  | .check | .returned => 0
  | .call => 1
  | .inside => if b.s.producer.accepts then 0 else 1

/-- `stop` is not reset. -/
theorem Move.stop_stays (hm : Move PublishBatch b b' e) (h : b.stop = true) : b'.stop = true := by
  cases hm with
  | stop => rfl
  | _ => exact h

theorem owed_eq (hp : b'.producer = b.producer) (hs : b'.s.producer = b.s.producer) :
    b'.owed = b.owed := by
  unfold owed
  rw [hp, hs]

/-- After `stop` the producer accepts what it owes. -/
theorem Move.owed_eq (hm : Move PublishBatch b b' e) (h : b.stop = true) :
    (accepted e).length + b'.owed = b.owed := by
  cases hm with
  | next hp hs =>
    rw [h] at hs
    cases hs
  | push hp hst =>
    obtain ⟨rfl, hpc, -⟩ := step_push hst
    simp [owed, hp, hpc, accepted, ProducerPc.accepts, ProducerPc.advanced]
  | leave hp => simp [owed, hp, accepted]
  | pushed hp hi => simp [owed, hp, hi, accepted, ProducerPc.accepts]
  | retry hp hi => simp [owed, hp, hi, accepted, ProducerPc.accepts]
  | producer hp hst =>
    have haccepts := (step_producer_move hst).1.accepts_once
    simp only [owed, hp]
    split at haccepts <;> split at haccepts <;> simp_all
  | pop hc hst | drainPop hc hst =>
    obtain ⟨rfl, -, hs⟩ := step_pop hst
    simp [owed, hs, accepted]
  | consumer hc hst =>
    obtain ⟨hm, hs⟩ := step_consumer_move hst
    simp [owed, hs, hm.accepts_nothing]
  | _ => simp [owed, accepted]

/-! ## The consumer returns -/

/-- How far the consumer is from its return, after `stop`, when no pop takes an element any
more. -/
def consumerRank (b : Benchmark) : Nat :=
  match b.consumer with
  | .returned => 0
  | .drainInside => (if b.s.consumer.takes then 13 else 1) + b.s.consumer.left
  | .drainCall => 12
  | .check => 24
  | .inside => 25 + b.s.consumer.left
  | .call => 36

theorem consumerRank_eq (hc : b'.consumer = b.consumer) (hs : b'.s.consumer = b.s.consumer) :
    b'.consumerRank = b.consumerRank := by
  unfold consumerRank
  rw [hc, hs]

/-- After `stop`, a step of the consumer takes an element or brings the consumer nearer to its
return. -/
theorem consumer_nearer (hs : b.stop = true)
    (h : (runSpscBenchmark PublishBatch).step b .consumer = some (b', e)) :
    0 < (popped e).length ∨ b'.consumerRank < b.consumerRank := by
  have h : b.stepConsumer PublishBatch = some (b', e) := h
  unfold stepConsumer at h
  split at h <;> rename_i hc
  · rw [hs] at h
    cases h
    exact .inr (by simp [consumerRank, hc])
  · obtain ⟨s, hst, rfl⟩ := access_eq h
    obtain ⟨-, hpc, -⟩ := step_pop hst
    exact .inr (by simp [consumerRank, hc, hpc, ConsumerPc.left])
  · split at h
    · rename_i r hi
      cases h
      exact .inr (by simp [consumerRank, hc, hi, ConsumerPc.left])
    · obtain ⟨s, hst, rfl⟩ := access_eq h
      have hleft := (step_consumer_move hst).1.left.1
      exact .inr (by simp only [consumerRank, hc]; omega)
  · obtain ⟨s, hst, rfl⟩ := access_eq h
    obtain ⟨-, hpc, -⟩ := step_pop hst
    exact .inr (by simp [consumerRank, hc, hpc, ConsumerPc.left, ConsumerPc.takes,
      ConsumerPc.advanced])
  · split at h
    · rename_i r hi
      cases r with
      | none =>
        cases h
        exact .inr (by simp [consumerRank, hc, hi, ConsumerPc.takes, ConsumerResult.taken])
      | some data =>
        cases h
        exact .inr (by simp [consumerRank, hc, hi, ConsumerPc.takes, ConsumerResult.taken,
          ConsumerPc.left])
    · obtain ⟨s, hst, rfl⟩ := access_eq h
      obtain ⟨hm, -⟩ := step_consumer_move hst
      have hleft := hm.left.1
      have htakes := hm.takes_once
      rcases Nat.eq_zero_or_pos (popped e).length with h0 | hpos
      · refine .inr ?_
        simp only [consumerRank, hc]
        split at htakes <;> split at htakes <;> simp_all
      · exact .inl hpos
  · cases h

/-- Inside a pop of its loops the consumer is in a pop. -/
def InPop (b : Benchmark) : Prop :=
  b.consumer = .inside ∨ b.consumer = .drainInside → b.s.consumer.Popping

theorem Move.inPop (hm : Move PublishBatch b b' e) (h : InPop b) : InPop b' := by
  cases hm with
  | push hp hst =>
    obtain ⟨-, -, hs⟩ := step_push hst
    exact fun hc => hs.symm ▸ h hc
  | producer hp hst =>
    obtain ⟨-, hs⟩ := step_producer_move hst
    exact fun hc => hs.symm ▸ h hc
  | pop hc hst | drainPop hc hst =>
    obtain ⟨-, hpc, -⟩ := step_pop hst
    intro _
    rw [show _ = _ from hpc]
    trivial
  | consumer hc hst => exact fun hc' => (step_consumer_move hst).1.popping (h hc')
  | drain | again | popped | drained | finish => rintro (hc | hc) <;> cases hc
  | _ => exact h

theorem access_enabled {a : Act (BitVec 64)} (h : (spsc PublishBatch).step b.s a ≠ none) :
    b.access PublishBatch a ≠ none :=
  fun hnone => h (Option.map_eq_none_iff.mp hnone)

/-- A consumer that has not returned can go on. -/
theorem Good.consumer_enabled (h : Good PublishBatch b t) (hpop : InPop b)
    (hc : b.consumer ≠ .returned) : (runSpscBenchmark PublishBatch).step b .consumer ≠ none := by
  have hidle : (∃ l, t.consumer = .idle l) → (spsc PublishBatch).step b.s .pop ≠ none := by
    rintro ⟨l, hl⟩
    simp [spsc, FastQ.step, h.state, State.wrap, hl, ConsumerPc.wrap]
  have hinside : b.s.consumer.Popping → (∀ r, b.s.consumer ≠ .idle (some (.pop r))) →
      (spsc PublishBatch).step b.s (.consumer 0) ≠ none := by
    refine fun hpop hr => FastQ.consumer_enabled _ fun l hl => ?_
    rw [hl] at hpop
    obtain ⟨r, rfl⟩ := hpop
    exact hr r hl
  simp only [runSpscBenchmark, step, stepConsumer]
  split <;> rename_i hcc
  · split <;> exact Option.some_ne_none _
  · exact access_enabled (hidle (h.consumer (by simp [hcc]) (by simp [hcc])))
  · split
    · exact Option.some_ne_none _
    · rename_i hr
      exact access_enabled (hinside (hpop (.inl hcc)) hr)
  · exact access_enabled (hidle (h.consumer (by simp [hcc]) (by simp [hcc])))
  · split
    · split <;> exact Option.some_ne_none _
    · rename_i hr
      exact access_enabled (hinside (hpop (.inr hcc)) hr)
  · exact (hc hcc).elim

/-- A producer that has not returned can go on. -/
theorem Good.producer_enabled (h : Good PublishBatch b t) (hp : b.producer ≠ .returned) :
    (runSpscBenchmark PublishBatch).step b .producer ≠ none := by
  simp only [runSpscBenchmark, step, stepProducer]
  split <;> rename_i hpc
  · split <;> exact Option.some_ne_none _
  · obtain ⟨l, hl⟩ := h.producer (by simp [hpc])
    refine access_enabled ?_
    simp [spsc, FastQ.step, h.state, State.wrap, hl, ProducerPc.wrap]
  · split
    · exact Option.some_ne_none _
    · exact Option.some_ne_none _
    · rename_i htrue hfalse
      refine access_enabled (FastQ.producer_enabled _ fun l hl => ?_)
      have hpush := h.pushing hpc
      rw [ProducerPc.of_wrap_idle (show t.producer.wrap = .idle l by rw [← hl, h.state]; rfl)]
        at hpush
      obtain ⟨ok, rfl⟩ := hpush
      cases ok
      · exact hfalse hl
      · exact htrue hl
  · exact (hp hpc).elim

/-! ## Executions -/

/-- The producer's steps leave the consumer. -/
theorem stepProducer_consumer (h : b.stepProducer PublishBatch = some (b', e)) :
    b'.consumer = b.consumer ∧ b'.s.consumer = b.s.consumer := by
  unfold stepProducer at h
  split at h
  · split at h <;> cases h <;> exact ⟨rfl, rfl⟩
  · obtain ⟨s, hst, rfl⟩ := access_eq h
    exact ⟨rfl, (step_push hst).2.2⟩
  · split at h
    · cases h
      exact ⟨rfl, rfl⟩
    · cases h
      exact ⟨rfl, rfl⟩
    · obtain ⟨s, hst, rfl⟩ := access_eq h
      exact ⟨rfl, (step_producer_move hst).2⟩
  · cases h

/-- The steps of the other threads leave the consumer. -/
theorem step_consumer {a : Thread} (h : (runSpscBenchmark PublishBatch).step b a = some (b', e))
    (ha : a ≠ .consumer) : b'.consumer = b.consumer ∧ b'.s.consumer = b.s.consumer := by
  cases a with
  | producer => exact stepProducer_consumer h
  | consumer => exact (ha rfl).elim
  | main =>
    have h : b.stepMain = some (b', e) := h
    unfold stepMain at h
    split at h <;> cases h
    exact ⟨rfl, rfl⟩

/-- The producer alone leaves in `n` steps. -/
def LeavesIn (PublishBatch : BitVec 64) (n : Nat) (b : Benchmark) : Prop :=
  ∃ b' es, (runSpscBenchmark PublishBatch).run b (List.replicate n .producer) = some (b', es) ∧
    b'.producer = .returned

theorem LeavesIn.next {n : Nat} (h : LeavesIn PublishBatch n b) (hne : b.producer ≠ .returned)
    (hst : (runSpscBenchmark PublishBatch).step b .producer = some (b', e)) :
    ∃ m < n, LeavesIn PublishBatch m b' := by
  obtain ⟨b'', es'', hrun, hret⟩ := h
  cases n with
  | zero =>
    cases hrun
    exact (hne hret).elim
  | succ n =>
    rw [List.replicate_succ, Machine.run_cons, hst] at hrun
    obtain ⟨⟨b₂, e₂⟩, hrun₂, h₂⟩ := Option.map_eq_some_iff.mp hrun
    obtain rfl : b₂ = b'' := congrArg Prod.fst h₂
    exact ⟨n, Nat.lt_succ_self n, _, e₂, hrun₂, hret⟩

/-- What the reading of the counters is in every run of the benchmark. -/
structure Counted (PublishBatch : BitVec 64) (n : Nat) (b : Benchmark)
    (es : List (Event (BitVec 64) (BitVec 64))) : Prop where
  good : ∃ t, Good PublishBatch b t ∧ t.q.capacity = n ∧
    t.q.producer.localWriter = (accepted es).length ∧ t.q.consumer.localReader = (popped es).length
  inPop : InPop b

theorem reach_counted {ok : Benchmark → Thread → Prop} {capacity : BitVec 64}
    {memory : BitVec 64 → BitVec 64} {q : SPSC (BitVec 64) (BitVec 64)}
    {es : List (Event (BitVec 64) (BitVec 64))} (hq : SPSC.new capacity memory = .ok q)
    (h : (runSpscBenchmark PublishBatch).Reach ok (start q) b es) :
    Counted PublishBatch capacity.toNat b es := by
  refine h.invariant (P := Counted PublishBatch capacity.toNat) ?_ ?_
  · obtain ⟨q₀, hnew, hstart, hcap, hnear⟩ := new_unwrap hq
    obtain ⟨rfl, -⟩ := SPSC.new_eq hnew
    refine ⟨⟨_, ⟨hstart, new_steady hnew hnear, fun _ => ⟨_, rfl⟩, nofun, fun _ _ => ⟨_, rfl⟩, ?_,
      nofun, ?_⟩, hcap, rfl, rfl⟩, ?_⟩
    · rintro (h | h | h) <;> cases h
    · rintro (h | ⟨h, -⟩) <;> cases h
    · rintro (h | h) <;> cases h
  · rintro b es a b' e ⟨⟨t, hg, hcap, hacc, hpop⟩, hin⟩ - hst
    have hm := step_move hst
    obtain ⟨t', hg', hf⟩ := hm.good hg
    refine ⟨⟨t', hg', hf.capacity.trans hcap, ?_⟩, hm.inPop hin⟩
    rcases hf with ⟨rfl, rfl⟩ | ⟨a, et, hmt, rfl, -⟩
    · simpa using ⟨hacc, hpop⟩
    · obtain ⟨hw, hr⟩ := hmt.counts
      simp only [accepted_append, popped_append, accepted_wrap, popped_wrap, List.length_append]
      omega

section Executions

variable {capacity : BitVec 64} {memory : BitVec 64 → BitVec 64}
  {q : SPSC (BitVec 64) (BitVec 64)} {x : (runSpscBenchmark PublishBatch).Execution} {n₀ : Nat}

theorem execution_counted (hq : SPSC.new capacity memory = .ok q) (h₀ : x.state 0 = start q)
    (n : Nat) : Counted PublishBatch capacity.toNat (x.state n) (x.history n) := by
  have hr := x.reach_any n
  rw [h₀] at hr
  exact reach_counted hq hr

theorem stop_stays (hs : (x.state n₀).stop = true) {n : Nat} (hn : n₀ ≤ n) :
    (x.state n).stop = true := by
  refine x.stays (P := fun n => (x.state n).stop = true) (fun n ha h => ?_)
    (fun n a ha h => (step_move (x.next ha)).stop_stays h) hs hn
  rw [(x.wait ha).1]
  exact h

/-- After `stop` no more elements are popped than were accepted, and the one that is owed. -/
theorem popped_le (hq : SPSC.new capacity memory = .ok q) (h₀ : x.state 0 = start q)
    (hs : (x.state n₀).stop = true) {n : Nat} (hn : n₀ ≤ n) : (popped (x.history n)).length ≤
      (accepted (x.history n₀)).length + (x.state n₀).owed := by
  have howed : (accepted (x.history n)).length + (x.state n).owed =
      (accepted (x.history n₀)).length + (x.state n₀).owed := by
    induction n, hn using Nat.le_induction with
    | base => rfl
    | succ n hn ih =>
      rw [← ih, x.history_succ, accepted_append, List.length_append]
      cases ha : x.act n with
      | none =>
        obtain ⟨hst, he⟩ := x.wait ha
        rw [hst, he]
        rfl
      | some a =>
        have h := (step_move (x.next ha)).owed_eq (stop_stays hs hn)
        omega
  obtain ⟨⟨t, hg, -, hacc, hpop⟩, -⟩ := execution_counted hq h₀ n
  have := hg.steady.near.inv.ordered.local_le
  omega

/-- **The consumer returns.** -/
theorem consumer_returns (hq : SPSC.new capacity memory = .ok q) (h₀ : x.state 0 = start q)
    (hs : (x.state n₀).stop = true) (hc : x.Fair (· = .consumer)) :
    ∃ n, n₀ ≤ n ∧ (x.state n).consumer = .returned := by
  by_contra hno
  have hnever : ∀ n, n₀ ≤ n → (x.state n).consumer ≠ .returned := fun n hn h => hno ⟨n, hn, h⟩
  have hoften : x.Often (· = .consumer) := hc.often (N := n₀) fun n hn => by
    obtain ⟨⟨t, hg, -⟩, hin⟩ := execution_counted hq h₀ n
    exact ⟨.consumer, rfl, hg.consumer_enabled hin (hnever n hn)⟩
  -- The pops that take an element come to an end.
  have hmono : ∀ n, (popped (x.history (n₀ + n))).length ≤
      (popped (x.history (n₀ + (n + 1)))).length := fun n =>
    ((x.history_mono (by omega)).filterMap _).length_le
  obtain ⟨N, hN⟩ := exists_forall_eq hmono fun n => popped_le hq h₀ hs (Nat.le_add_right n₀ n)
  have hconst : ∀ n, n₀ + N ≤ n → (popped (x.events n)).length = 0 := fun n hn => by
    have h₁ := hN (n - n₀) (by omega)
    have h₂ := hN (n + 1 - n₀) (by omega)
    rw [Nat.add_sub_cancel' (by omega)] at h₁ h₂
    rw [x.history_succ, popped_append, List.length_append] at h₂
    omega
  have hend : ∃ k, n₀ + N ≤ k ∧ False := by
    refine hoften.eventually consumerRank (fun n a hn ha hP => .inr ?_)
      fun n a hn ha hP => .inr (Nat.le_of_eq ?_)
    · subst hP
      have hzero := hconst n hn
      exact (consumer_nearer (stop_stays hs (by omega)) (x.next ha)).resolve_left (by omega)
    · obtain ⟨hcc, hsc⟩ := step_consumer (x.next ha) hP
      exact consumerRank_eq hcc hsc
  obtain ⟨-, -, hfalse⟩ := hend
  exact hfalse

/-- **The producer returns**, once the consumer has, if the batch is at most the capacity. -/
theorem producer_returns (hq : SPSC.new capacity memory = .ok q) (h₀ : x.state 0 = start q)
    (hB : PublishBatch ≤ capacity) (hc : (x.state n₀).consumer = .returned)
    (hp : x.Fair (· = .producer)) :
    ∃ n, n₀ ≤ n ∧ (x.state n).producer = .returned := by
  have hstay : ∀ n, n₀ ≤ n → (x.state n).consumer = .returned := fun n hn => by
    refine x.stays (P := fun n => (x.state n).consumer = .returned) (fun n ha h => ?_)
      (fun n a ha h => (step_move (x.next ha)).stays h) hc hn
    rw [(x.wait ha).1]
    exact h
  by_contra hno
  have hnever : ∀ n, n₀ ≤ n → (x.state n).producer ≠ .returned := fun n hn h => hno ⟨n, hn, h⟩
  have hoften : x.Often (· = .producer) := hp.often (N := n₀) fun n hn => by
    obtain ⟨⟨t, hg, -⟩, -⟩ := execution_counted hq h₀ n
    exact ⟨.producer, rfl, hg.producer_enabled (hnever n hn)⟩
  obtain ⟨⟨t, hg, hcap, -⟩, -⟩ := execution_counted hq h₀ n₀
  obtain ⟨b', ⟨r, es, hrun⟩, hret⟩ := producer_leaves hg hc (hcap ▸ hB)
  refine hoften.descent (W := LeavesIn PublishBatch) (fun r n a hn ha hr => ?_)
    ⟨b', es, hrun, hret⟩
  have hst := x.next ha
  cases a with
  | producer => exact hr.next (hnever n hn) hst
  | consumer => simp [runSpscBenchmark, step, stepConsumer, hstay n hn] at hst
  | main =>
    obtain ⟨⟨t, hg, -⟩, -⟩ := execution_counted hq h₀ n
    simp [runSpscBenchmark, step, stepMain, hg.stop (.inr (.inr (hstay n hn)))] at hst

/-- **The benchmark ends.** Whatever the capacity, and under any fair scheduling of the main thread,
the producer and the consumer: the consumer returns, whatever the batch size; if the batch is at
most the capacity, the producer returns too, so the main thread has no join to wait for. These are
the executions of `runSpscBenchmark`: they begin after the handshake, and loads are newest. -/
theorem benchmark_completes (hq : SPSC.new capacity memory = .ok q)
    (x : (runSpscBenchmark PublishBatch).Execution) (h₀ : x.state 0 = start q)
    (hfair : ∀ thread, x.Fair (· = thread)) :
    (∃ n, (x.state n).stop = true ∧ (x.state n).consumer = .returned) ∧
      (PublishBatch ≤ capacity →
        ∃ n, (x.state n).consumer = .returned ∧ (x.state n).producer = .returned) := by
  have hstops : ∃ n, (x.state n).stop = true := by
    by_contra hno
    have hnever : ∀ n, (x.state n).stop = false := fun n =>
      Bool.eq_false_of_not_eq_true fun h => hno ⟨n, h⟩
    have hoften : x.Often (· = .main) := (hfair .main).often (N := 0) fun n _ =>
      ⟨.main, rfl, by simp [runSpscBenchmark, step, stepMain, hnever n]⟩
    obtain ⟨n, -, _, ha, rfl⟩ := hoften 0
    have hst := x.next ha
    simp only [runSpscBenchmark, step, stepMain, hnever n, Bool.false_eq_true, ↓reduceIte,
      Option.some.injEq, Prod.mk.injEq] at hst
    exact hno ⟨n + 1, hst.1 ▸ rfl⟩
  obtain ⟨n₀, hs⟩ := hstops
  obtain ⟨n₁, hle, hc⟩ := consumer_returns hq h₀ hs (hfair .consumer)
  refine ⟨⟨n₁, stop_stays hs hle, hc⟩, fun hB => ?_⟩
  obtain ⟨n₂, hle₂, hp⟩ := producer_returns hq h₀ hB hc (hfair .producer)
  refine ⟨n₂, ?_, hp⟩
  refine x.stays (P := fun n => (x.state n).consumer = .returned) (fun n ha h => ?_)
    (fun n a ha h => (step_move (x.next ha)).stays h) hc hle₂
  rw [(x.wait ha).1]
  exact h

/-- A ring of one slot that publishes every element. The three threads take turns. -/
theorem benchmark_completes_one : ∃ x : (runSpscBenchmark 1).Execution,
    x.state 0 = start (SPSC.fresh 1 fun _ => 0) ∧
      ∃ n, (x.state n).consumer = .returned ∧ (x.state n).producer = .returned := by
  let tries : Nat → Thread := fun n =>
    if n % 3 = 0 then .producer else if n % 3 = 1 then .consumer else .main
  have hfair : ∀ thread, (Machine.Execution.trying (runSpscBenchmark 1) tries
      (start (SPSC.fresh 1 fun _ => 0))).Fair (· = thread) := by
    intro thread
    refine Machine.Execution.trying_fair (fun n => ?_) ?_
    · cases thread with
      | producer => exact ⟨3 * n, by omega, by simp [tries]⟩
      | consumer => exact ⟨3 * n + 1, by omega, by simp [tries, Nat.add_mod]⟩
      | main => exact ⟨3 * n + 2, by omega, by simp [tries, Nat.add_mod]⟩
    · rintro b _ _ rfl rfl hnone
      exact hnone
  exact ⟨.trying _ tries _, rfl,
    (@benchmark_completes 1 1 (fun _ => 0) _ rfl _ rfl hfair).2 (by decide)⟩

end Executions

end Benchmark

end FastQ
