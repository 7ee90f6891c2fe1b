import FastQ.Proofs.Lag
import FastQ.Proofs.Progress
import FastQ.Proofs.Threads
import FastQ.Testing.Benchmark

/-!
# The benchmark, step by step

What the threads of `run_spsc_benchmark` can do (`Benchmark.Move`), and the invariant of their runs
(`Good`). The queue is read over unbounded counters, in a state `t` that goes along with the run
(`Follows`).

The consumer leaves after a pop that failed, so it has taken everything that was published when that
pop loaded `writer_`, and what the producer had beyond that was less than a batch. After `stop` is
set the producer accepts at most one more element: the one whose retry loop it is in (`LastPush`).
-/

namespace FastQ

/-! ## The last push -/

section Last

variable {α : Type} {PublishBatch k n : Nat} {q q' : SPSC α Nat} {e : List (Event α Nat)}

/-- The push has accepted its element, or has not when `localWriter` is still below `n`. -/
def LastPush (n : Nat) (q : SPSC α Nat) (p : ProducerPc α Nat) : Prop :=
  p.advanced = true ∨ p = .idle (some (.push true)) ∨ q.producer.localWriter < n

theorem ProducerMove.lastPush {p p' : ProducerPc α Nat}
    (hm : ProducerMove PublishBatch k q p q' p' e) (h : LastPush n q p) : LastPush n q' p' := by
  cases hm with
  | increment => exact .inl rfl
  | due => exact .inl rfl
  | notDue => exact .inr (.inl rfl)
  | @markWriter r =>
    rcases h with h | h | h
    · rw [beq_iff_eq.mp (show (r == .push true) = true from h)]
      exact .inr (.inl rfl)
    · cases h
    · exact .inr (.inr h)
  | readWriter | storeWriter | readWriterAgain =>
    rcases h with h | h | h
    · exact .inl h
    · cases h
    · exact .inr (.inr h)
  | _ =>
    rcases h with h | h | h
    · cases h
    · cases h
    · exact .inr (.inr h)

end Last

/-! ## What a step of the benchmark can do -/

namespace Benchmark

variable {PublishBatch : BitVec 64}

/-- The steps of the threads. -/
inductive Move (PublishBatch : BitVec 64) :
    Benchmark → Benchmark → List (Event (BitVec 64) (BitVec 64)) → Prop
  | stop {b : Benchmark} : Move PublishBatch b { b with stop := true } []
  | leave {b : Benchmark} : b.producer = .check → b.stop = true →
      Move PublishBatch b { b with producer := .returned } []
  | next {b : Benchmark} : b.producer = .check → b.stop = false →
      Move PublishBatch b { b with producer := .call } []
  | push {b : Benchmark} {s : State (BitVec 64) (BitVec 64)}
      {e : List (Event (BitVec 64) (BitVec 64))} : b.producer = .call →
      (spsc PublishBatch).step b.s (.push b.payload) = some (s, e) →
      Move PublishBatch b { b with s, producer := .inside } e
  | pushed {b : Benchmark} : b.producer = .inside →
      b.s.producer = .idle (some (.push true)) →
      Move PublishBatch b { b with payload := b.payload + 1, producer := .check } []
  | retry {b : Benchmark} : b.producer = .inside →
      b.s.producer = .idle (some (.push false)) →
      Move PublishBatch b { b with producer := .call } []
  | producer {b : Benchmark} {s : State (BitVec 64) (BitVec 64)}
      {e : List (Event (BitVec 64) (BitVec 64))} : b.producer = .inside →
      (spsc PublishBatch).step b.s (.producer 0) = some (s, e) →
      Move PublishBatch b { b with s } e
  | drain {b : Benchmark} : b.consumer = .check → b.stop = true →
      Move PublishBatch b { b with consumer := .drainCall } []
  | again {b : Benchmark} : b.consumer = .check → b.stop = false →
      Move PublishBatch b { b with consumer := .call } []
  | pop {b : Benchmark} {s : State (BitVec 64) (BitVec 64)}
      {e : List (Event (BitVec 64) (BitVec 64))} : b.consumer = .call →
      (spsc PublishBatch).step b.s .pop = some (s, e) →
      Move PublishBatch b { b with s, consumer := .inside } e
  | popped {b : Benchmark} {r : Option (BitVec 64)} : b.consumer = .inside →
      b.s.consumer = .idle (some (.pop r)) →
      Move PublishBatch b { b with consumer := .check } []
  | consumer {b : Benchmark} {s : State (BitVec 64) (BitVec 64)}
      {e : List (Event (BitVec 64) (BitVec 64))} :
      b.consumer = .inside ∨ b.consumer = .drainInside →
      (spsc PublishBatch).step b.s (.consumer 0) = some (s, e) →
      Move PublishBatch b { b with s } e
  | drainPop {b : Benchmark} {s : State (BitVec 64) (BitVec 64)}
      {e : List (Event (BitVec 64) (BitVec 64))} : b.consumer = .drainCall →
      (spsc PublishBatch).step b.s .pop = some (s, e) →
      Move PublishBatch b { b with s, consumer := .drainInside } e
  | drained {b : Benchmark} {data : BitVec 64} : b.consumer = .drainInside →
      b.s.consumer = .idle (some (.pop (some data))) →
      Move PublishBatch b { b with consumer := .drainCall } []
  | finish {b : Benchmark} : b.consumer = .drainInside →
      b.s.consumer = .idle (some (.pop none)) →
      Move PublishBatch b { b with consumer := .returned } []

theorem access_eq {b b' : Benchmark} {a : Act (BitVec 64)}
    {e : List (Event (BitVec 64) (BitVec 64))} (h : b.access PublishBatch a = some (b', e)) :
    ∃ s, (spsc PublishBatch).step b.s a = some (s, e) ∧ b' = { b with s } := by
  obtain ⟨⟨s, e'⟩, hs, h⟩ := Option.map_eq_some_iff.mp h
  cases h
  exact ⟨s, hs, rfl⟩

theorem stepProducer_move {b b' : Benchmark} {e : List (Event (BitVec 64) (BitVec 64))}
    (h : b.stepProducer PublishBatch = some (b', e)) : Move PublishBatch b b' e := by
  unfold stepProducer at h
  split at h
  · rename_i hp
    split at h <;> rename_i hs <;> cases h
    · exact .leave hp hs
    · exact .next hp (Bool.eq_false_of_not_eq_true hs)
  · rename_i hp
    obtain ⟨s, hs, rfl⟩ := access_eq h
    exact .push hp hs
  · rename_i hp
    split at h
    · rename_i hi
      cases h
      exact .pushed hp hi
    · rename_i hi
      cases h
      exact .retry hp hi
    · obtain ⟨s, hs, rfl⟩ := access_eq h
      exact .producer hp hs
  · cases h

theorem stepConsumer_move {b b' : Benchmark} {e : List (Event (BitVec 64) (BitVec 64))}
    (h : b.stepConsumer PublishBatch = some (b', e)) : Move PublishBatch b b' e := by
  unfold stepConsumer at h
  split at h
  · rename_i hc
    split at h <;> rename_i hs <;> cases h
    · exact .drain hc hs
    · exact .again hc (Bool.eq_false_of_not_eq_true hs)
  · rename_i hc
    obtain ⟨s, hs, rfl⟩ := access_eq h
    exact .pop hc hs
  · rename_i hc
    split at h
    · rename_i hi
      cases h
      exact .popped hc hi
    · obtain ⟨s, hs, rfl⟩ := access_eq h
      exact .consumer (.inl hc) hs
  · rename_i hc
    obtain ⟨s, hs, rfl⟩ := access_eq h
    exact .drainPop hc hs
  · rename_i hc
    split at h
    · rename_i r hi
      cases r <;> cases h
      · exact .finish hc hi
      · exact .drained hc hi
    · obtain ⟨s, hs, rfl⟩ := access_eq h
      exact .consumer (.inr hc) hs
  · cases h

theorem step_move {b b' : Benchmark} {a : Thread} {e : List (Event (BitVec 64) (BitVec 64))}
    (h : (runSpscBenchmark PublishBatch).step b a = some (b', e)) : Move PublishBatch b b' e := by
  have h : b.step PublishBatch a = some (b', e) := h
  unfold step at h
  split at h
  · exact stepProducer_move h
  · exact stepConsumer_move h
  · unfold stepMain at h
    split at h <;> cases h
    exact .stop

/-! ## The invariant of the benchmark -/

/-- The consumer has left, or is in the pop of the drain on which it will leave. -/
def Leaving (b : Benchmark) (t : State (BitVec 64) Nat) : Prop :=
  b.consumer = .returned ∨ b.consumer = .drainInside ∧ Decided t.q t.consumer

/-- The producer accepts no element any more but the one of its current retry loop, which it has
accepted, or which is less than a batch ahead of what the consumer has taken. -/
def LastPushed (PublishBatch : BitVec 64) (b : Benchmark) (t : State (BitVec 64) Nat) : Prop :=
  match b.producer with
  | .check | .returned => True
  | .call => t.q.producer.localWriter < t.q.consumer.localReader + max PublishBatch.toNat 1
  | .inside => LastPush (t.q.consumer.localReader + max PublishBatch.toNat 1) t.q t.producer

/-- The invariant of the benchmark, with the reading `t` of its queue over unbounded counters. -/
structure Good (PublishBatch : BitVec 64) (b : Benchmark) (t : State (BitVec 64) Nat) : Prop where
  state : b.s = t.wrap
  steady : Steady PublishBatch.toNat t
  producer : b.producer ≠ .inside → ∃ l, t.producer = .idle l
  pushing : b.producer = .inside → t.producer.Pushing
  consumer : b.consumer ≠ .inside → b.consumer ≠ .drainInside → ∃ l, t.consumer = .idle l
  stop : b.consumer = .drainCall ∨ b.consumer = .drainInside ∨ b.consumer = .returned →
    b.stop = true
  returned : b.consumer = .returned → t.consumer = .idle (some (.pop none))
  last : Leaving b t → LastPushed PublishBatch b t

theorem Leaving.stop {b : Benchmark} {t : State (BitVec 64) Nat} (h : Leaving b t)
    (hg : Good PublishBatch b t) : b.stop = true := by
  rcases h with h | ⟨h, -⟩
  · exact hg.stop (.inr (.inr h))
  · exact hg.stop (.inr (.inl h))

/-- When the consumer loads `writer_` and has taken all that it counts, what the producer has beyond
it is less than a batch. -/
theorem Good.lastPushed {b : Benchmark} {t : State (BitVec 64) Nat} (h : Good PublishBatch b t)
    (hr : t.q.consumer.localReader = t.q.writer.value) : LastPushed PublishBatch b t := by
  have hlt : t.producer.advanced = false →
      t.q.producer.localWriter < t.q.consumer.localReader + max PublishBatch.toNat 1 := by
    rw [hr]
    exact h.steady.lag.producer.lt h.steady.near.inv.ordered
  unfold LastPushed
  cases hp : b.producer with
  | check => trivial
  | returned => trivial
  | call =>
    obtain ⟨l, hl⟩ := h.producer (by rw [hp]; decide)
    exact hlt (by rw [hl]; rfl)
  | inside =>
    cases ha : t.producer.advanced with
    | true => exact .inl ha
    | false => exact .inr (.inr (hlt ha))

section Accesses

variable {b : Benchmark} {s : State (BitVec 64) (BitVec 64)} {q q' : SPSC (BitVec 64) Nat}
  {p p' : ProducerPc (BitVec 64) Nat} {c c' : ConsumerPc (BitVec 64) Nat}
  {et : List (Event (BitVec 64) Nat)}

/-- The producer's accesses in a push. A consumer that is leaving leaves after them too, since they
do not touch what it goes by. -/
theorem Good.producerLast (h : Good PublishBatch b ⟨q, p, c⟩) (hpc : b.producer = .inside)
    (hm : ProducerMove PublishBatch.toNat 0 q p q' p' et)
    (hl : Leaving { b with s } ⟨q', p', c⟩) : LastPushed PublishBatch { b with s } ⟨q', p', c⟩ := by
  have hi := h.steady.near.inv
  have hby := hm.byProducer hi.shape hi.ordered hi.producer
  have hl := h.last (hl.imp_right (And.imp_right fun hd => by
    rwa [Decided, hby.localReader, hby.cachedWriter] at hd))
  unfold LastPushed at hl ⊢
  rw [hpc] at hl
  rw [hpc, hby.localReader]
  exact hm.lastPush hl

/-- The consumer's accesses: it was leaving before, or it has just decided to. -/
theorem Good.consumerLast (h : Good PublishBatch b ⟨q, p, c⟩) (hne : b.consumer ≠ .returned)
    (hm : ConsumerMove PublishBatch.toNat 0 q c q' c' et)
    (hl : Leaving { b with s } ⟨q', p, c'⟩) : LastPushed PublishBatch { b with s } ⟨q', p, c'⟩ := by
  obtain ⟨hd, hdec⟩ := hl.resolve_left hne
  obtain ⟨hlr, hdec⟩ := hm.decided hdec
  have hl : LastPushed PublishBatch b ⟨q, p, c⟩ :=
    hdec.elim (fun hdec => h.last (.inr ⟨hd, hdec⟩)) h.lastPushed
  unfold LastPushed LastPush at hl ⊢
  rw [hlr, hm.byConsumer.localWriter]
  exact hl

end Accesses

/-- What a step of the benchmark is over unbounded counters: a step of a call, or nothing. -/
def Follows (PublishBatch : BitVec 64) (t t' : State (BitVec 64) Nat)
    (e : List (Event (BitVec 64) (BitVec 64))) : Prop :=
  (t' = t ∧ e = []) ∨ ∃ a et, FastQ.Move PublishBatch.toNat t a t' et ∧ e = et.map Event.wrap ∧
    a.pushPop = true ∧ a.newest = true

/-- A step of the queue follows a step over unbounded counters, which keeps its invariants. -/
theorem access_follows {t : State (BitVec 64) Nat} {s : State (BitVec 64) (BitVec 64)}
    {a : Act (BitVec 64)} {e : List (Event (BitVec 64) (BitVec 64))}
    (h : Steady PublishBatch.toNat t) (ha : a.pushPop = true ∧ a.newest = true)
    (hst : (spsc PublishBatch).step t.wrap a = some (s, e)) :
    ∃ t' et, FastQ.Move PublishBatch.toNat t a t' et ∧ s = t'.wrap ∧
      Steady PublishBatch.toNat t' ∧ Follows PublishBatch t t' e := by
  obtain ⟨t', et, hm, hs, he⟩ := step_unwrap h.near hst
  exact ⟨t', et, hm, hs, hm.steady PublishBatch.isLt (Act.pushPop_calm ha.1) h,
    .inr ⟨a, et, hm, he, ha⟩⟩

/-- The step lemma. -/
theorem Move.good {b b' : Benchmark} {e : List (Event (BitVec 64) (BitVec 64))}
    {t : State (BitVec 64) Nat} (hm : Move PublishBatch b b' e) (h : Good PublishBatch b t) :
    ∃ t', Good PublishBatch b' t' ∧ Follows PublishBatch t t' e := by
  have hstate := h.state
  have hstay : Follows PublishBatch t t [] := .inl ⟨rfl, rfl⟩
  cases hm with
  | stop => exact ⟨t, { h with stop := fun _ => rfl }, hstay⟩
  | leave hpc hs =>
    have hidle := h.producer (by rw [hpc]; decide)
    exact ⟨t, { h with
      producer := fun _ => hidle
      pushing := nofun
      last := fun _ => trivial }, hstay⟩
  | next hpc hs =>
    have hidle := h.producer (by rw [hpc]; decide)
    refine ⟨t, { h with producer := fun _ => hidle, pushing := nofun, last := fun hl => ?_ }, hstay⟩
    -- The consumer leaves only after `stop` is set, which the producer has just seen unset.
    have hl : Leaving b t := hl
    rw [hl.stop h] at hs
    cases hs
  | push hpc hst =>
    rw [hstate] at hst
    obtain ⟨t', et, hm, rfl, hsteady, hf⟩ := access_follows h.steady ⟨rfl, rfl⟩ hst
    cases hm with
    | push =>
      refine ⟨_, { h with
        state := rfl
        steady := hsteady
        producer := fun hne => (hne rfl).elim
        pushing := fun _ => trivial
        last := fun hl => ?_ }, hf⟩
      have hl := h.last hl
      unfold LastPushed at hl
      rw [hpc] at hl
      exact .inr (.inr hl)
  | pushed hpc hi =>
    rw [hstate] at hi
    have hi := ProducerPc.of_wrap_idle hi
    exact ⟨t, { h with
      producer := fun _ => ⟨_, hi⟩
      pushing := nofun
      last := fun _ => trivial }, hstay⟩
  | retry hpc hi =>
    rw [hstate] at hi
    have hi := ProducerPc.of_wrap_idle hi
    refine ⟨t, { h with
      producer := fun _ => ⟨_, hi⟩
      pushing := nofun
      last := fun hl => ?_ }, hstay⟩
    have hl := h.last hl
    unfold LastPushed at hl
    rw [hpc, hi] at hl
    rcases hl with hl | hl | hl
    · cases hl
    · cases hl
    · exact hl
  | producer hpc hst =>
    rw [hstate] at hst
    obtain ⟨t', et, hm, rfl, hsteady, hf⟩ := access_follows h.steady ⟨rfl, rfl⟩ hst
    cases hm with
    | producer hm =>
      exact ⟨_, { h with
        state := rfl
        steady := hsteady
        producer := fun hne => (hne hpc).elim
        pushing := fun _ => hm.pushing (h.pushing hpc)
        last := h.producerLast hpc hm }, hf⟩
  | drain hcc hs =>
    have hidle := h.consumer (by rw [hcc]; decide) (by rw [hcc]; decide)
    refine ⟨t, { h with
      consumer := fun _ _ => hidle
      stop := fun _ => hs
      returned := nofun
      last := ?_ }, hstay⟩
    rintro (hl | ⟨hl, -⟩) <;> cases hl
  | again hcc hs =>
    have hidle := h.consumer (by rw [hcc]; decide) (by rw [hcc]; decide)
    refine ⟨t, { h with
      consumer := fun _ _ => hidle
      stop := ?_
      returned := nofun
      last := ?_ }, hstay⟩
    · rintro (hl | hl | hl) <;> cases hl
    · rintro (hl | ⟨hl, -⟩) <;> cases hl
  | pop hcc hst =>
    rw [hstate] at hst
    obtain ⟨t', et, hm, rfl, hsteady, hf⟩ := access_follows h.steady ⟨rfl, rfl⟩ hst
    cases hm with
    | pop =>
      refine ⟨_, { h with
        state := rfl
        steady := hsteady
        consumer := fun hne => (hne rfl).elim
        stop := ?_
        returned := nofun
        last := ?_ }, hf⟩
      · rintro (hl | hl | hl) <;> cases hl
      · rintro (hl | ⟨hl, -⟩) <;> cases hl
  | popped hcc hi =>
    rw [hstate] at hi
    have hi := ConsumerPc.of_wrap_idle hi
    refine ⟨t, { h with
      consumer := fun _ _ => ⟨_, hi⟩
      stop := ?_
      returned := nofun
      last := ?_ }, hstay⟩
    · rintro (hl | hl | hl) <;> cases hl
    · rintro (hl | ⟨hl, -⟩) <;> cases hl
  | consumer hcc hst =>
    rw [hstate] at hst
    obtain ⟨t', et, hm, rfl, hsteady, hf⟩ := access_follows h.steady ⟨rfl, rfl⟩ hst
    have hne : b.consumer ≠ .returned := by
      intro hr
      rw [hr] at hcc
      rcases hcc with hcc | hcc <;> cases hcc
    cases hm with
    | consumer hm =>
      exact ⟨_, { h with
        state := rfl
        steady := hsteady
        consumer := fun h₁ h₂ => (hcc.elim h₁ h₂).elim
        returned := fun hr => (hne hr).elim
        last := h.consumerLast hne hm }, hf⟩
  | drainPop hcc hst =>
    rw [hstate] at hst
    obtain ⟨t', et, hm, rfl, hsteady, hf⟩ := access_follows h.steady ⟨rfl, rfl⟩ hst
    cases hm with
    | pop =>
      refine ⟨_, { h with
        state := rfl
        steady := hsteady
        consumer := fun _ hne => (hne rfl).elim
        stop := fun _ => h.stop (.inl hcc)
        returned := nofun
        last := ?_ }, hf⟩
      rintro (hl | ⟨-, hl | ⟨x, hl⟩ | hl⟩)
      · cases hl
      · cases hl.1
      · cases hl
      · cases hl
  | drained hcc hi =>
    rw [hstate] at hi
    have hi := ConsumerPc.of_wrap_idle hi
    refine ⟨t, { h with
      consumer := fun _ _ => ⟨_, hi⟩
      stop := fun _ => h.stop (.inr (.inl hcc))
      returned := nofun
      last := ?_ }, hstay⟩
    rintro (hl | ⟨hl, -⟩) <;> cases hl
  | finish hcc hi =>
    rw [hstate] at hi
    have hi := ConsumerPc.of_wrap_idle hi
    exact ⟨t, { h with
      consumer := fun _ _ => ⟨_, hi⟩
      stop := fun _ => h.stop (.inr (.inl hcc))
      returned := fun _ => hi
      last := fun _ => h.last (.inr ⟨hcc, .inr (.inr hi)⟩) }, hstay⟩

/-! ## Every run -/

theorem start_good (PublishBatch : BitVec 64) {capacity : BitVec 64}
    {memory : BitVec 64 → BitVec 64} {q : SPSC (BitVec 64) (BitVec 64)}
    (hq : SPSC.new capacity memory = .ok q) :
    ∃ t, Good PublishBatch (start q) t ∧ t.q.capacity = capacity.toNat := by
  obtain ⟨q₀, hnew, hstart, hcap, hnear⟩ := new_unwrap hq
  have hsteady : Steady PublishBatch.toNat (State.start q₀) :=
    new_steady hnew hnear
  refine ⟨_, ⟨hstart, hsteady, fun _ => ⟨_, rfl⟩, nofun, fun _ _ => ⟨_, rfl⟩, ?_, nofun, ?_⟩, hcap⟩
  · rintro (h | h | h) <;> cases h
  · rintro (h | ⟨h, -⟩) <;> cases h

theorem Follows.capacity {t t' : State (BitVec 64) Nat} {e : List (Event (BitVec 64) (BitVec 64))}
    (h : Follows PublishBatch t t' e) : t'.q.capacity = t.q.capacity := by
  rcases h with ⟨rfl, -⟩ | ⟨a, et, hm, -⟩
  · rfl
  · exact hm.capacity

/-- The run lemma. -/
theorem reach_good {ok : Benchmark → Thread → Prop} {b b' : Benchmark}
    {es : List (Event (BitVec 64) (BitVec 64))} {t : State (BitVec 64) Nat}
    (h : (runSpscBenchmark PublishBatch).Reach ok b b' es) (hg : Good PublishBatch b t) :
    ∃ t', Good PublishBatch b' t' ∧ t'.q.capacity = t.q.capacity := by
  induction h with
  | refl => exact ⟨t, hg, rfl⟩
  | tail a _ _ hst ih =>
    obtain ⟨t₁, hg₁, hcap⟩ := ih
    obtain ⟨t', hg', hf⟩ := (step_move hst).good hg₁
    exact ⟨t', hg', hf.capacity.trans hcap⟩

end Benchmark

end FastQ
