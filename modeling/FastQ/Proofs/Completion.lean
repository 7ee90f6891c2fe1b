import FastQ.Proofs.Delivery
import FastQ.Proofs.Passing
import FastQ.Testing.Accesses

/-!
# The correctness test comes to its end

Under any fair scheduling of its two threads `test_spsc_correctness` ends, and passes
(`test_completes`). Fair means that a thread that can go on does so at some time.

* Beside an execution of the test there is one of its queue (`exists_queue`), by the step of the
  queue that a turn makes (`queueAct`).
* While the producer has not returned, both threads make calls for ever, so the pops grow without
  end (`Running.pops_unbounded`); but no more than `N` elements are pushed. So the producer returns.
* From then on only the consumer moves, and from every state it passes in so many steps that one
  more step brings it nearer, whichever counter `empty()` loads first (`PassesIn`).
-/

namespace FastQ

namespace Correctness

variable {PublishBatch N : BitVec 64} {b b' : Correctness} {t : State (BitVec 64) Nat}

/-! ## The step of the queue that a turn makes -/

/-- The loads are fresh, and only the `flush` of the test is one. -/
theorem queueAct_kind {u : Turn} {a : Act (BitVec 64)} (h : b.queueAct u = some a) :
    a.newest = true ∧ (b.consumer ≠ .flushCall → a.calm = true) := by
  cases u with
  | producer =>
    simp only [queueAct] at h
    split at h
    · cases h
      exact ⟨rfl, fun _ => rfl⟩
    · split at h <;> cases h
      exact ⟨rfl, fun _ => rfl⟩
    · cases h
  | consumer f =>
    simp only [queueAct] at h
    split at h
    case h_3 hcc => exact ⟨by cases h; rfl, fun hne => (hne hcc).elim⟩
    case h_1 | h_2 => cases h; exact ⟨rfl, fun _ => rfl⟩
    case h_7 => cases h
    all_goals
      split at h <;> cases h
      exact ⟨rfl, fun _ => rfl⟩

/-- The producer's step is a move, and leaves the consumer. -/
theorem stepProducer_act {es : List Loop} (h : b.stepProducer PublishBatch N = some (b', es)) :
    Move PublishBatch N b (b.queueAct .producer) b' es ∧ b'.consumer = b.consumer ∧
      b'.s.consumer = b.s.consumer := by
  unfold stepProducer at h
  split at h
  · rename_i hp
    rw [show b.queueAct .producer = none by simp [queueAct, hp]]
    split at h <;> rename_i hi <;> cases h
    · exact ⟨.next hp hi, rfl, rfl⟩
    · exact ⟨.finish hp hi, rfl, rfl⟩
  · rename_i hp
    obtain ⟨rfl, s, e, hs, rfl⟩ := access_eq h
    rw [show b.queueAct .producer = some (.push b.i) by simp [queueAct, hp]]
    exact ⟨.push hp hs, rfl, ((FastQ.step_move hs).consumer_same rfl).1⟩
  · rename_i hp
    split at h
    · rename_i hi
      cases h
      rw [show b.queueAct .producer = none by simp [queueAct, hp, hi]]
      exact ⟨.pushed hp hi, rfl, rfl⟩
    · rename_i hi
      cases h
      rw [show b.queueAct .producer = none by simp [queueAct, hp, hi]]
      exact ⟨.retry hp hi, rfl, rfl⟩
    · rename_i htrue hfalse
      obtain ⟨rfl, s, e, hs, rfl⟩ := access_eq h
      rw [show b.queueAct .producer = some (.producer 0) by
        simp only [queueAct, hp]
        split
        · rename_i ok hi
          cases ok
          · exact (hfalse hi).elim
          · exact (htrue hi).elim
        · rfl]
      exact ⟨.producer hp hs, rfl, ((FastQ.step_move hs).consumer_same rfl).1⟩
  · cases h

/-- The consumer's step is a move, and leaves the producer. -/
theorem stepConsumer_act {f : Bool} {es : List Loop}
    (h : b.stepConsumer PublishBatch N f = some (b', es)) :
    Move PublishBatch N b (b.queueAct (.consumer f)) b' es ∧ b'.producer = b.producer ∧
      b'.s.producer = b.s.producer := by
  unfold stepConsumer at h
  split at h <;> rename_i hc
  · rw [show b.queueAct (.consumer f) = none by simp [queueAct, hc]]
    split at h <;> rename_i hd <;> cases h
    · exact ⟨.seen hc hd, rfl, rfl⟩
    · exact ⟨.wait hc (Bool.eq_false_of_not_eq_true hd), rfl, rfl⟩
  · rw [show b.queueAct (.consumer f) = none by simp [queueAct, hc]]
    split at h <;> cases h
    · exact ⟨.loadReader hc, rfl, rfl⟩
    · exact ⟨.loadWriter hc, rfl, rfl⟩
  · rw [show b.queueAct (.consumer f) = none by simp [queueAct, hc]]
    cases h
    refine ⟨.testReader hc, ?_⟩
    unfold test
    split <;> exact ⟨rfl, rfl⟩
  · rw [show b.queueAct (.consumer f) = none by simp [queueAct, hc]]
    cases h
    refine ⟨.testWriter hc, ?_⟩
    unfold test
    split <;> exact ⟨rfl, rfl⟩
  · rw [show b.queueAct (.consumer f) = some .pop by simp [queueAct, hc]]
    obtain ⟨rfl, s, e, hs, rfl⟩ := access_eq h
    exact ⟨.pop hc hs, rfl, ((FastQ.step_move hs).producer_same rfl).1⟩
  · split at h
    · rename_i r hi
      rw [show b.queueAct (.consumer f) = none by simp [queueAct, hc, hi]]
      cases h
      cases r with
      | none => exact ⟨.missed hc hi, rfl, rfl⟩
      | some value =>
        refine ⟨.popped hc hi, ?_⟩
        simp only [count]
        split <;> exact ⟨rfl, rfl⟩
    · rename_i hi
      obtain ⟨rfl, s, e, hs, rfl⟩ := access_eq h
      rw [show b.queueAct (.consumer f) = some (.consumer 0) by
        simp only [queueAct, hc]]
      exact ⟨.consumer (.inl hc) hs, rfl, ((FastQ.step_move hs).producer_same rfl).1⟩
  · rw [show b.queueAct (.consumer f) = some .consumerFlush by simp [queueAct, hc]]
    obtain ⟨rfl, s, e, hs, rfl⟩ := access_eq h
    exact ⟨.flush hc hs, rfl, ((FastQ.step_move hs).producer_same rfl).1⟩
  · split at h
    · rename_i hi
      rw [show b.queueAct (.consumer f) = none by simp [queueAct, hc, hi]]
      cases h
      exact ⟨.flushed hc hi, rfl, rfl⟩
    · rename_i hi
      obtain ⟨rfl, s, e, hs, rfl⟩ := access_eq h
      rw [show b.queueAct (.consumer f) = some (.consumer 0) by simp only [queueAct, hc]]
      exact ⟨.consumer (.inr (.inl hc)) hs, rfl, ((FastQ.step_move hs).producer_same rfl).1⟩
  · rw [show b.queueAct (.consumer f) = some .pop by simp [queueAct, hc]]
    obtain ⟨rfl, s, e, hs, rfl⟩ := access_eq h
    exact ⟨.drainPop hc hs, rfl, ((FastQ.step_move hs).producer_same rfl).1⟩
  · split at h
    · rename_i r hi
      rw [show b.queueAct (.consumer f) = none by simp [queueAct, hc, hi]]
      cases h
      cases r with
      | none => exact ⟨.drainEnd hc hi, rfl, rfl⟩
      | some value =>
        refine ⟨.drained hc hi, ?_⟩
        simp only [count]
        split <;> exact ⟨rfl, rfl⟩
    · rename_i hi
      obtain ⟨rfl, s, e, hs, rfl⟩ := access_eq h
      rw [show b.queueAct (.consumer f) = some (.consumer 0) by simp only [queueAct, hc]]
      exact ⟨.consumer (.inr (.inr hc)) hs, rfl, ((FastQ.step_move hs).producer_same rfl).1⟩
  · rw [show b.queueAct (.consumer f) = none by simp [queueAct, hc]]
    split at h <;> rename_i he <;> cases h
    · exact ⟨.missing hc he, rfl, rfl⟩
    · exact ⟨.pass hc (not_not.mp he), rfl, rfl⟩
  · cases h
  · cases h

/-- Every step is a move with the step of the queue that the turn makes. -/
theorem step_act {a : Turn} {es : List Loop}
    (h : (testSpscCorrectness PublishBatch N).step b a = some (b', es)) :
    Move PublishBatch N b (b.queueAct a) b' es := by
  cases a with
  | producer => exact (stepProducer_act h).1
  | consumer f => exact (stepConsumer_act h).1

/-! ## Threads that can go on -/

theorem access_enabled {a : Act (BitVec 64)} {es : List Loop}
    (h : (spsc PublishBatch).step b.s a ≠ none) : b.access PublishBatch a es ≠ none :=
  fun hnone => h (Option.map_eq_none_iff.mp hnone)

theorem Good.wrap_producer (h : Good N b t) : t.producer.wrap = b.s.producer := by
  rw [h.state]
  rfl

theorem Good.wrap_consumer (h : Good N b t) : t.consumer.wrap = b.s.consumer := by
  rw [h.state]
  rfl

/-- A producer that has not returned can go on. -/
theorem Good.producer_enabled (h : Good N b t) (hp : b.producer ≠ .returned) :
    (testSpscCorrectness PublishBatch N).step b .producer ≠ none := by
  have hat := h.producer
  simp only [testSpscCorrectness, step, stepProducer]
  split <;> rename_i hpc <;> rw [hpc] at hat
  · split <;> simp
  · obtain ⟨⟨l, hl⟩, -⟩ := hat
    refine access_enabled ?_
    simp [spsc, FastQ.step, h.state, State.wrap, hl, ProducerPc.wrap]
  · split
    · simp
    · simp
    · rename_i htrue hfalse
      refine access_enabled (FastQ.producer_enabled _ fun l hl => ?_)
      have hpush := hat.1
      rw [ProducerPc.of_wrap_idle (h.wrap_producer.trans hl)] at hpush
      obtain ⟨ok, rfl⟩ := hpush
      cases ok
      · exact hfalse hl
      · exact htrue hl
  · exact (hp hpc).elim

/-- A consumer that has not passed can go on. -/
theorem Good.consumer_enabled (h : Good N b t) (hc : b.consumer ≠ .passed) (f : Bool) :
    (testSpscCorrectness PublishBatch N).step b (.consumer f) ≠ none := by
  have hat := h.consumer
  have hafter := h.after
  have hidle : ∀ {l}, b.s.consumer = .idle l → t.consumer = .idle l := fun {l} hl =>
    ConsumerPc.of_wrap_idle (h.wrap_consumer.trans hl)
  simp only [testSpscCorrectness, step, stepConsumer]
  split <;> rename_i hcc <;> rw [hcc] at hat hafter
  case h_6 | h_10 =>
    split
    · simp
    · rename_i hpop
      refine access_enabled (FastQ.consumer_enabled _ fun l hl => ?_)
      have hat := hat.1
      rw [hidle hl] at hat
      obtain ⟨r, rfl⟩ := hat
      exact hpop r hl
  case h_8 =>
    split
    · simp
    · rename_i hflush
      refine access_enabled (FastQ.consumer_enabled _ fun l hl => ?_)
      have hat := hat.1
      rw [hidle hl] at hat
      rcases hat with hat | hat
      · cases hat
      · cases hat
        exact hflush hl
  case h_5 | h_7 | h_9 =>
    obtain ⟨⟨l, hl⟩, -⟩ := hat
    refine access_enabled ?_
    simp [spsc, FastQ.step, h.state, State.wrap, hl, ConsumerPc.wrap]
  case h_12 => exact (hc hcc).elim
  case h_13 => exact hafter.elim
  all_goals first | exact Option.some_ne_none _ | (split <;> exact Option.some_ne_none _)

/-! ## The producer returns -/

/-- How many steps the producer is away from a step of the queue. -/
def producerRank (b : Correctness) : Nat :=
  match b.producer with
  | .check => 1
  | .inside =>
    match b.s.producer with
    | .idle _ => 2
    | _ => 0
  | _ => 0

/-- How many steps the consumer is away from a step of the queue, before `done`. -/
def consumerRank (b : Correctness) : Nat :=
  match b.consumer with
  | .loadDone => 1
  | .inside =>
    match b.s.consumer with
    | .idle _ => 2
    | _ => 0
  | _ => 0

/-- A step of the producer is one of the queue, or brings it nearer to one. -/
theorem producer_nearer {es : List Loop}
    (h : (testSpscCorrectness PublishBatch N).step b .producer = some (b', es))
    (hp : b'.producer ≠ .returned) : (∃ a ∈ b.queueAct .producer, a.ofProducer = true) ∨
      b'.producerRank < b.producerRank := by
  have h : b.stepProducer PublishBatch N = some (b', es) := h
  unfold stepProducer at h
  split at h <;> rename_i hpc
  · split at h <;> cases h
    · exact .inr (by simp [producerRank, hpc])
    · exact (hp rfl).elim
  · exact .inl ⟨.push b.i, by simp [queueAct, hpc], rfl⟩
  · split at h
    · rename_i hi
      cases h
      exact .inr (by simp [producerRank, hpc, hi])
    · rename_i hi
      cases h
      exact .inr (by simp [producerRank, hpc, hi])
    · rename_i htrue hfalse
      refine .inl ⟨.producer 0, ?_, rfl⟩
      simp only [queueAct, hpc]
      split
      · rename_i ok hi
        cases ok
        · exact (hfalse hi).elim
        · exact (htrue hi).elim
      · rfl
  · cases h

/-- Before `done`, a step of the consumer is one of the queue, or brings it nearer to one. -/
theorem Good.consumer_nearer {f : Bool} {es : List Loop} (hg : Good N b t) (hd : b.done = false)
    (h : (testSpscCorrectness PublishBatch N).step b (.consumer f) = some (b', es)) :
    (∃ a ∈ b.queueAct (.consumer f), a.ofConsumer = true) ∨
      b'.consumerRank < b.consumerRank := by
  have hafter := hg.after
  rw [hd] at hafter
  have h : b.stepConsumer PublishBatch N f = some (b', es) := h
  unfold stepConsumer at h
  split at h <;> rename_i hcc <;> rw [hcc] at hafter
  case h_1 =>
    rw [hd] at h
    cases h
    exact .inr (by simp [consumerRank, hcc])
  case h_5 => exact .inl ⟨.pop, by simp [queueAct, hcc], rfl⟩
  case h_6 =>
    split at h
    · rename_i r hi
      cases h
      refine .inr ?_
      have hrank : b.consumerRank = 2 := by simp [consumerRank, hcc, hi]
      rw [hrank]
      cases r with
      | none => simp [count, consumerRank]
      | some value =>
        simp only [count]
        split <;> simp [consumerRank]
    · exact .inl ⟨.consumer 0, by simp only [queueAct, hcc]; rfl, rfl⟩
  case h_2 => cases hafter
  case h_13 => exact hafter.elim
  all_goals cases hafter.1

/-- The producer's rank is its own. -/
theorem producerRank_eq (hp : b'.producer = b.producer) (hs : b'.s.producer = b.s.producer) :
    b'.producerRank = b.producerRank := by
  unfold producerRank
  rw [hp, hs]

/-- The consumer's rank is its own. -/
theorem consumerRank_eq (hc : b'.consumer = b.consumer) (hs : b'.s.consumer = b.s.consumer) :
    b'.consumerRank = b.consumerRank := by
  unfold consumerRank
  rw [hc, hs]

/-- Before `done` no `flush` is in progress. -/
theorem Good.regular (h : Good N b t) (hd : b.done = false) : Regular t := by
  refine ⟨h.near.inv, ⟨h.producer_calm, ?_⟩, h.kept⟩
  have hafter := h.after
  have hc := h.consumer
  rw [hd] at hafter
  cases hcc : b.consumer <;> rw [hcc] at hafter hc
  case loadDone | call =>
    obtain ⟨⟨l, hl⟩, -⟩ := hc
    rw [hl]
    rfl
  case inside => exact hc.1.calm
  case aborted => exact hafter.elim
  case empty => cases hafter
  all_goals cases hafter.1

section Executions

variable {capacity : BitVec 64} {memory : BitVec 64 → BitVec 64}
  {q : SPSC (BitVec 64) (BitVec 64)} {x : (testSpscCorrectness PublishBatch N).Execution}

/-- The execution of the queue beside an execution of the test, over unbounded counters. -/
theorem exists_queue (hq : SPSC.new capacity memory = .ok q) (h₀ : x.state 0 = start q) :
    ∃ y : (spsc (α := BitVec 64) PublishBatch.toNat).Execution,
      (∀ n, y.act n = (x.act n).bind (x.state n).queueAct) ∧
      ∀ n, Good N (x.state n) (y.state n) := by
  obtain ⟨t₀, ht₀⟩ := start_good (N := N) hq
  have hstep : ∀ b (a : Turn) b' es t, Good N b t →
      (testSpscCorrectness PublishBatch N).step b a = some (b', es) →
      ∃ t', Good N b' t' ∧ Tracks PublishBatch (b.queueAct a) t t' :=
    fun b a b' es t hg hst => (step_act hst).good hg
  obtain ⟨g, -, hg⟩ := x.exists_ghost (R := fun b a => Tracks PublishBatch (b.queueAct a))
    (h₀ ▸ ht₀) hstep
  let y : (spsc (α := BitVec 64) PublishBatch.toNat).Execution :=
    .ofSteps _ g (fun n => (x.act n).bind (x.state n).queueAct) (fun n hn => ?_) fun n a hn => ?_
  · exact ⟨y, fun n => rfl, fun n => (hg n).1⟩
  · cases ha : x.act n with
    | none => exact (hg n).2.1 ha
    | some b =>
      rw [ha] at hn
      have htracks := (hg n).2.2 b ha
      rw [show (x.state n).queueAct b = none from hn] at htracks
      exact htracks
  · obtain ⟨b, ha, hb⟩ := Option.bind_eq_some_iff.mp hn
    have htracks := (hg n).2.2 b ha
    rw [hb] at htracks
    obtain ⟨e, hm⟩ := htracks
    exact ⟨e, step_of_move hm⟩

/-- While the producer has not returned, both parties of the queue go on for ever. -/
theorem queue_running {y : (spsc (α := BitVec 64) PublishBatch.toNat).Execution}
    (hact : ∀ n, y.act n = (x.act n).bind (x.state n).queueAct)
    (hg : ∀ n, Good N (x.state n) (y.state n)) (hnever : ∀ n, (x.state n).producer ≠ .returned)
    (hp : x.Fair (· = .producer)) (hc : x.Fair fun a => ∃ f, a = .consumer f) : Running y := by
  have hdone : ∀ n, (x.state n).done = false := fun n =>
    Bool.eq_false_of_not_eq_true fun hd => hnever n ((hg n).done hd)
  have hqueue : ∀ {n a}, y.act n = some a →
      ∃ u, x.act n = some u ∧ (x.state n).queueAct u = some a := fun {n a} ha =>
    Option.bind_eq_some_iff.mp ((hact n).symm.trans ha)
  have hqueue' : ∀ {n u a}, x.act n = some u → a ∈ (x.state n).queueAct u → a ∈ y.act n :=
    fun {n u a} hu ha => by rw [hact, hu]; exact ha
  refine ⟨fun n a ha => ?_, fun n => ?_, fun n => ?_, fun n => ⟨n, fun m k data hm ha _ => ?_⟩,
    fun n => ⟨n, fun m k hm ha _ => ?_⟩⟩
  · obtain ⟨u, -, hb⟩ := hqueue ha
    refine (queueAct_kind hb).2 fun hflush => ?_
    have hafter := (hg n).after
    rw [hflush, hdone n] at hafter
    cases hafter.1
  · have hoften : x.Often (· = .producer) := hp.often (N := 0) fun n _ =>
      ⟨.producer, rfl, (hg n).producer_enabled (hnever n)⟩
    refine hoften.eventually producerRank (N := n) ?_ ?_
    · rintro k _ hk hu rfl
      refine (producer_nearer (x.next hu) (hnever _)).imp_left ?_
      rintro ⟨a, ha, hprod⟩
      exact ⟨a, hqueue' hu ha, hprod⟩
    · intro k u hk hu hne
      cases u with
      | producer => exact (hne rfl).elim
      | consumer f =>
        obtain ⟨-, hp, hs⟩ := stepConsumer_act (x.next hu)
        exact .inr (Nat.le_of_eq (producerRank_eq hp hs))
  · have hoften : x.Often fun a => ∃ f, a = .consumer f := hc.often (N := 0) fun n _ => by
      refine ⟨.consumer true, ⟨true, rfl⟩, (hg n).consumer_enabled (fun hpassed => ?_) true⟩
      have hafter := (hg n).after
      rw [hpassed, hdone n] at hafter
      cases hafter.1
    refine hoften.eventually consumerRank (N := n) ?_ ?_
    · rintro k _ hk hu ⟨f, rfl⟩
      refine ((hg k).consumer_nearer (hdone k) (x.next hu)).imp_left ?_
      rintro ⟨a, ha, hcons⟩
      exact ⟨a, hqueue' hu ha, hcons⟩
    · intro k u hk hu hne
      cases u with
      | consumer f => exact (hne ⟨f, rfl⟩).elim
      | producer =>
        obtain ⟨-, hp, hs⟩ := stepProducer_act (x.next hu)
        exact .inr (Nat.le_of_eq (consumerRank_eq hp hs))
  all_goals
    obtain ⟨u, -, hb⟩ := hqueue ha
    obtain rfl : k = 0 := beq_iff_eq.mp (queueAct_kind hb).1
    rw [Nat.zero_add]
    exact (y.history_mono hm).sublist.countP_le

/-- **The producer returns.** -/
theorem producer_returns (hq : SPSC.new capacity memory = .ok q) (h₀ : x.state 0 = start q)
    (hp : x.Fair (· = .producer)) (hc : x.Fair fun a => ∃ f, a = .consumer f) :
    ∃ n, (x.state n).producer = .returned := by
  by_contra hno
  have hnever : ∀ n, (x.state n).producer ≠ .returned := fun n hn => hno ⟨n, hn⟩
  obtain ⟨y, hact, hg⟩ := exists_queue hq h₀
  have hrun := queue_running hact hg hnever hp hc
  have hregular : ∀ n, Regular (y.state n) := fun n =>
    (hg n).regular (Bool.eq_false_of_not_eq_true fun hd => hnever n ((hg n).done hd))
  -- The pops would go beyond the `N` elements that are pushed at most.
  obtain ⟨n, hn⟩ := hrun.pops_unbounded hregular (N.toNat + 1)
  have hle := (hg n).producer.le
  have hlocal := (hg n).near.inv.ordered.local_le
  omega

end Executions

/-! ## The consumer passes -/

/-- The producer returns when it sets `done`. -/
theorem Move.returned_done {a : Option (Act (BitVec 64))} {es : List Loop}
    (hm : Move PublishBatch N b a b' es) (h : b.producer = .returned → b.done = true) :
    b'.producer = .returned → b'.done = true := by
  cases hm with
  | finish => exact fun _ => rfl
  | next | push | pushed | retry => exact nofun
  | testReader | testWriter =>
    unfold test
    split <;> exact h
  | popped | drained =>
    simp only [count]
    split <;> exact h
  | _ => exact h

/-- The consumer alone passes in `n` steps. -/
def PassesIn (PublishBatch N : BitVec 64) (n : Nat) (b : Correctness) : Prop :=
  ∃ b' es, (testSpscCorrectness PublishBatch N).run b (List.replicate n (.consumer false)) =
    some (b', es) ∧ b'.consumer = .passed

/-- After `done` the consumer alone passes in some number of steps. -/
theorem Good.passesIn (h : Good N b t) (hd : b.done = true) : ∃ n, PassesIn PublishBatch N n b := by
  have hpasses : Passes PublishBatch N false b := h.passes hd
  obtain ⟨b', ⟨n, es, hrun⟩, hpassed⟩ := hpasses
  exact ⟨n, b', es, hrun, hpassed⟩

/-- Which counter `empty()` loads first matters at its first load only. -/
theorem step_order (hc : b.consumer ≠ .empty) (f : Bool) :
    (testSpscCorrectness PublishBatch N).step b (.consumer f) =
      (testSpscCorrectness PublishBatch N).step b (.consumer false) := by
  simp only [testSpscCorrectness, step, stepConsumer]
  split <;> first | rfl | exact (hc ‹_›).elim

/-- Every step of the consumer brings it nearer to its end. -/
theorem PassesIn.next {n : Nat} {f : Bool} {es : List Loop} (h : PassesIn PublishBatch N n b)
    (hne : b.consumer ≠ .passed)
    (hst : (testSpscCorrectness PublishBatch N).step b (.consumer f) = some (b', es)) :
    ∃ m < n, PassesIn PublishBatch N m b' := by
  obtain ⟨b'', es'', hrun, hpassed⟩ := h
  cases n with
  | zero =>
    cases hrun
    exact (hne hpassed).elim
  | succ n =>
    rw [List.replicate_succ, Machine.run_cons] at hrun
    obtain ⟨⟨b₁, e₁⟩, hst₁, hrun₁⟩ := Option.bind_eq_some_iff.mp hrun
    obtain ⟨⟨b₂, e₂⟩, hrun₂, h₂⟩ := Option.map_eq_some_iff.mp hrun₁
    obtain rfl : b₂ = b'' := congrArg Prod.fst h₂
    refine ⟨n, Nat.lt_succ_self n, ?_⟩
    by_cases hc : b.consumer = .empty
    · cases f with
      | false =>
        rw [hst] at hst₁
        cases hst₁
        exact ⟨_, e₂, hrun₂, hpassed⟩
      | true =>
        -- The two orders of the loads come together with the second load.
        simp only [testSpscCorrectness, step, stepConsumer, hc, ↓reduceIte] at hst
        simp only [testSpscCorrectness, step, stepConsumer, hc, Bool.false_eq_true,
          ↓reduceIte] at hst₁
        cases hst
        cases hst₁
        cases n with
        | zero =>
          cases hrun₂
          cases hpassed
        | succ n => exact ⟨_, e₂, hrun₂, hpassed⟩
    · rw [step_order hc, hst₁] at hst
      cases hst
      exact ⟨_, e₂, hrun₂, hpassed⟩

section Executions

variable {capacity : BitVec 64} {memory : BitVec 64 → BitVec 64}
  {q : SPSC (BitVec 64) (BitVec 64)}

/-- **The correctness test ends, and passes.** Whatever the capacity, the batch size and the number
of elements, and under any scheduling of the two threads that is fair, with loads that are newest:
the producer returns, the consumer gets to the end of its last loop with exactly `N` elements
counted, and does not abort. -/
theorem test_completes (hq : SPSC.new capacity memory = .ok q)
    (x : (testSpscCorrectness PublishBatch N).Execution) (h₀ : x.state 0 = start q)
    (hp : x.Fair (· = .producer)) (hc : x.Fair fun a => ∃ f, a = .consumer f) :
    ∃ n, (x.state n).producer = .returned ∧ (x.state n).consumer = .passed ∧
      (x.state n).expected = N := by
  obtain ⟨y, -, hg⟩ := exists_queue hq h₀
  obtain ⟨n₀, hn₀⟩ := producer_returns hq h₀ hp hc
  have hdone : ∀ n, (x.state n).producer = .returned → (x.state n).done = true := fun n => by
    have hr := x.reach_any n
    rw [h₀] at hr
    exact hr.invariant (P := fun b _ => b.producer = .returned → b.done = true) nofun
      fun _ _ _ _ _ ih _ hst => (step_act hst).returned_done ih
  -- The producer has returned for good.
  have hstay : ∀ n, n₀ ≤ n → (x.state n).producer = .returned := fun n hn => by
    refine x.stays (P := fun n => (x.state n).producer = .returned) ?_ ?_ hn₀ hn
    · intro n ha h
      rw [(x.wait ha).1]
      exact h
    · intro n a ha h
      have hst := x.next ha
      cases a with
      | producer => simp [testSpscCorrectness, step, stepProducer, h] at hst
      | consumer f => exact (stepConsumer_act hst).2.1.trans h
  have hpasses : ∃ n, n₀ ≤ n ∧ (x.state n).consumer = .passed := by
    by_contra hno
    have hnever : ∀ n, n₀ ≤ n → (x.state n).consumer ≠ .passed := fun n hn h => hno ⟨n, hn, h⟩
    have hoften : x.Often fun a => ∃ f, a = .consumer f := hc.often (N := n₀) fun n hn =>
      ⟨.consumer true, ⟨true, rfl⟩, (hg n).consumer_enabled (hnever n hn) true⟩
    obtain ⟨r, hr⟩ : ∃ r, PassesIn PublishBatch N r (x.state n₀) := (hg n₀).passesIn (hdone n₀ hn₀)
    refine hoften.descent (W := PassesIn PublishBatch N) (fun r n a hn ha hr => ?_) hr
    have hst := x.next ha
    cases a with
    | producer => simp [testSpscCorrectness, step, stepProducer, hstay n hn] at hst
    | consumer f => exact hr.next (hnever n hn) hst
  obtain ⟨n, hn, hpassed⟩ := hpasses
  refine ⟨n, hstay n hn, hpassed, ?_⟩
  have hcount := (hg n).consumer
  have hafter := (hg n).after
  rw [hpassed] at hcount hafter
  obtain ⟨-, hall⟩ := (hg n).finished (hdone n (hstay n hn))
  rw [← BitVec.toNat_inj, ← hcount.2, hafter.2, hall]

/-- One element through a ring of one slot, with a batch that is never full. The threads take
turns. -/
theorem test_completes_one : ∃ x : (testSpscCorrectness 2 1).Execution,
    x.state 0 = start (SPSC.fresh 1 fun _ => 0) ∧ ∃ n, (x.state n).producer = .returned ∧
      (x.state n).consumer = .passed ∧ (x.state n).expected = 1 := by
  let tries : Nat → Turn := fun n => if n % 2 = 0 then .producer else .consumer true
  refine ⟨.trying _ tries _, rfl, @test_completes 2 1 1 (fun _ => 0) _ rfl _ rfl
    (Machine.Execution.trying_fair (fun n => ⟨2 * n, by omega, ?_⟩) ?_)
    (Machine.Execution.trying_fair (fun n => ⟨2 * n + 1, by omega, true, ?_⟩) ?_)⟩
  · simp [tries]
  · rintro b _ _ rfl rfl hnone
    exact hnone
  · simp [tries]
  · rintro b _ _ ⟨f, rfl⟩ ⟨f', rfl⟩ hnone
    by_cases hc : b.consumer = .empty
    · cases f <;> simp [testSpscCorrectness, step, stepConsumer, hc] at hnone
    · rw [step_order hc] at hnone ⊢
      exact hnone

end Executions

end Correctness

end FastQ
