import FastQ.Proofs.Completion
import FastQ.Proofs.Races

/-!
# The correctness test has no data races

`test_spsc_correctness` calls `flush` on the consumer's thread, which writes members of the
producer. This is safe, since the `flush` comes after an acquire load of `done` that gave `true`:
the producer makes no access after the store that this load reads.

* `Unseen`: the consumer is in its first loop. The parties keep apart (`Apart`), and the store of
  `done`, once made, is the last access of the producer.
* `Seen`: the consumer has loaded `true`. The producer has returned, and the consumer knows all of
  its accesses.
-/

namespace FastQ

open Races

namespace TracedTest

open Correctness

variable {PublishBatch N : BitVec 64} {T T' : TracedTest} {k : Nat}
  {h e : List (Access Party (Location (BitVec 64)))} {b b' : Correctness}

/-- In the first loop, before `done` is seen, or ended there. -/
def early : TestConsumer → Bool
  | .loadDone | .call | .inside | .aborted => true
  | _ => false

/-- What is known of the store of `done`. -/
def Flag (T : TracedTest) (h : List (Access Party (Location (BitVec 64)))) : Prop :=
  match T.done with
  | none => T.b.done = false ∧ T.b.producer ≠ .returned
  | some k => T.b.done = true ∧ T.b.producer = .returned ∧
    h[k]? = some ⟨.producer, .flag, .release⟩ ∧
    ∀ i a, h[i]? = some a → a.thread = .producer → i ≤ k

/-- The consumer has not seen `done` (module doc). -/
structure Unseen (T : TracedTest) (h : List (Access Party (Location (BitVec 64)))) : Prop where
  apart : Apart ⟨T.b.s, T.src⟩ h
  calm : Calm T.b.s
  consumer : early T.b.consumer = true
  flag : Flag T h

/-- The consumer has seen `done` (module doc). -/
structure Seen (T : TracedTest) (h : List (Access Party (Location (BitVec 64)))) : Prop where
  producer : T.b.producer = .returned
  free : RaceFree h
  knows : ∀ i a, h[i]? = some a → a.thread = .producer → Knows h .consumer i

/-- A step of the test, taken apart. -/
theorem step_eq {a : Turn × Nat} (hst : (tracedTest PublishBatch N).step T a = some (T', e)) :
    next PublishBatch N a.2 T.b a.1 = some T'.b ∧ T'.src = sources N a.2 T a.1 ∧
      e = accesses N a.2 T a.1 ∧
      T'.done = if T'.b.done && !T.b.done then some T.src.clock else T.done := by
  obtain ⟨b, hb, he⟩ := Option.map_eq_some_iff.mp hst
  cases he
  exact ⟨hb, rfl, rfl, rfl⟩

/-! ## The steps of the queue -/

theorem queueAct_consumer {f : Bool} {a : Act (BitVec 64)}
    (ha : b.queueAct (.consumer f) = some a) :
    (a = .pop ∨ a = .consumerFlush ∨ a = .consumer 0) ∧
      (early b.consumer = true → a ≠ .consumerFlush) := by
  simp only [queueAct] at ha
  repeat' split at ha
  all_goals cases ha
  all_goals simp [early, *]

theorem consumer_thread {f : Bool} {x : Access Party (Location (BitVec 64))}
    (hx : x ∈ accesses N k T (.consumer f)) : x.thread = .consumer := by
  unfold accesses at hx
  split at hx
  · rename_i a ha
    obtain ⟨a₀, ha₀, rfl⟩ := Option.map_eq_some_iff.mp ha
    obtain rfl | rfl | rfl := (queueAct_consumer ha₀).1
    · cases hx
    · cases hx
    · exact ConsumerPc.accesses_thread (c := T.b.s.consumer) hx
  · simp only [otherAccesses] at hx
    split at hx
    all_goals first | exact congrArg Access.thread (List.mem_singleton.mp hx) | cases hx

theorem access_fst {a : Act (BitVec 64)} {es : List Loop}
    (h : (access PublishBatch b a es).map Prod.fst = some b') :
    ∃ s e, (spsc PublishBatch).step b.s a = some (s, e) ∧ b' = { b with s } := by
  obtain ⟨⟨c, es⟩, hacc, rfl⟩ := Option.map_eq_some_iff.mp h
  exact (access_eq hacc).2

/-- The consumer's steps leave the producer. -/
theorem stepConsumer_producer {f : Bool} (hst : stepConsumer PublishBatch N k f b = some b') :
    b'.producer = b.producer := by
  unfold stepConsumer at hst
  split at hst
  · obtain ⟨s, e, -, rfl⟩ := access_fst hst
    rfl
  · split at hst
    · obtain ⟨⟨c, es⟩, hc, rfl⟩ := Option.map_eq_some_iff.mp hst
      exact (stepConsumer_act hc).2.1
    · cases hst
      rfl
  · obtain ⟨⟨c, es⟩, hc, rfl⟩ := Option.map_eq_some_iff.mp hst
    exact (stepConsumer_act hc).2.1

/-- What a step of the consumer does in its first loop: a step of a pop, a step beside the queue, or
a load of `done` that gives `true`. -/
theorem stepConsumer_early {f : Bool} (hst : stepConsumer PublishBatch N k f b = some b')
    (he : early b.consumer = true) : b'.done = b.done ∧
      ((∃ a e, b.queueActAt k (.consumer f) = some a ∧ a.pushPop = true ∧
        (spsc PublishBatch).step b.s a = some (b'.s, e) ∧ early b'.consumer = true) ∨
      b.queueActAt k (.consumer f) = none ∧ b'.s = b.s ∧ early b'.consumer = true ∧
        (b.consumer = .loadDone → k = 0 → b.done = false) ∨
      b.consumer = .loadDone ∧ k = 0 ∧ b.done = true) := by
  cases hcc : b.consumer with
  | loadDone =>
    have hnone : b.queueActAt k (.consumer f) = none := by simp [queueActAt, queueAct, hcc]
    simp only [stepConsumer, hnone, hcc] at hst
    split at hst
    · rename_i hk
      cases hd : b.done with
      | true =>
        simp [Correctness.stepConsumer, hcc, hd] at hst
        exact ⟨hst ▸ rfl, .inr (.inr ⟨rfl, hk, rfl⟩)⟩
      | false =>
        simp [Correctness.stepConsumer, hcc, hd] at hst
        subst hst
        exact ⟨rfl, .inr (.inl ⟨hnone, rfl, rfl, fun _ _ => rfl⟩)⟩
    · rename_i hk
      cases hst
      exact ⟨rfl, .inr (.inl ⟨hnone, rfl, rfl, fun _ hk' => (hk hk').elim⟩)⟩
  | call =>
    have hact : b.queueActAt k (.consumer f) = some .pop := by
      simp [queueActAt, queueAct, hcc, behind]
    simp only [stepConsumer, hact, hcc, Correctness.stepConsumer] at hst
    obtain ⟨s, e, hs, rfl⟩ := access_fst hst
    exact ⟨rfl, .inl ⟨.pop, e, hact, rfl, hs, rfl⟩⟩
  | inside =>
    by_cases hi : ∃ r, b.s.consumer = .idle (some (.pop r))
    · obtain ⟨r, hi⟩ := hi
      have hnone : b.queueActAt k (.consumer f) = none := by
        simp [queueActAt, queueAct, hcc, hi]
      simp only [stepConsumer, hnone, hcc, Correctness.stepConsumer, hi, Option.map_some,
        Option.some.injEq] at hst
      subst hst
      have hcount : (b.count .loadDone .loadDone r).done = b.done ∧
          (b.count .loadDone .loadDone r).s = b.s ∧
          early (b.count .loadDone .loadDone r).consumer = true := by
        unfold count
        split
        · split <;> exact ⟨rfl, rfl, rfl⟩
        · exact ⟨rfl, rfl, rfl⟩
      exact ⟨hcount.1, .inr (.inl ⟨hnone, hcount.2.1, hcount.2.2, by simp⟩)⟩
    · have hact : b.queueActAt k (.consumer f) = some (.consumer k) := by
        simp only [queueActAt, queueAct, hcc]
        split
        · exact (hi ⟨_, ‹_›⟩).elim
        · rfl
      simp only [stepConsumer, hact] at hst
      obtain ⟨s, e, hs, rfl⟩ := access_fst hst
      exact ⟨rfl, .inl ⟨.consumer k, e, hact, rfl, hs, hcc ▸ rfl⟩⟩
  | aborted =>
    have hnone : b.queueActAt k (.consumer f) = none := by simp [queueActAt, queueAct, hcc]
    simp [stepConsumer, hnone, hcc, Correctness.stepConsumer] at hst
  | _ => rw [hcc] at he; cases he

/-- What a step of the producer does: a step of a push, a step beside the queue, or the store of
`done`. -/
theorem stepProducer_cases (hst : stepProducer PublishBatch N k b = some b') :
    b'.consumer = b.consumer ∧ b.producer ≠ .returned ∧
      ((∃ a e, b.queueActAt k .producer = some a ∧ a.pushPop = true ∧
        (spsc PublishBatch).step b.s a = some (b'.s, e) ∧ b'.done = b.done ∧
        b'.producer ≠ .returned) ∨
      b.queueActAt k .producer = none ∧ b'.s = b.s ∧ b'.done = b.done ∧
        b'.producer ≠ .returned ∧ (b.producer = .check → b.i < N) ∨
      b.queueActAt k .producer = none ∧ b'.s = b.s ∧ b'.done = true ∧ b'.producer = .returned ∧
        b.producer = .check ∧ ¬ b.i < N) := by
  cases hp : b.producer with
  | check =>
    have hnone : b.queueActAt k .producer = none := by simp [queueActAt, queueAct, hp]
    simp only [stepProducer, hnone, Correctness.stepProducer, hp] at hst
    split at hst <;> rename_i hi <;> cases hst
    · exact ⟨rfl, by simp, .inr (.inl ⟨hnone, rfl, rfl, by simp, fun _ => hi⟩)⟩
    · exact ⟨rfl, by simp, .inr (.inr ⟨hnone, rfl, rfl, rfl, rfl, hi⟩)⟩
  | call =>
    have hact : b.queueActAt k .producer = some (.push b.i) := by
      simp [queueActAt, queueAct, hp, behind]
    simp only [stepProducer, hact, Correctness.stepProducer, hp] at hst
    obtain ⟨s, e, hs, rfl⟩ := access_fst hst
    exact ⟨rfl, by simp, .inl ⟨.push b.i, e, hact, rfl, hs, rfl, by simp⟩⟩
  | inside =>
    by_cases hi : ∃ ok, b.s.producer = .idle (some (.push ok))
    · obtain ⟨ok, hi⟩ := hi
      have hnone : b.queueActAt k .producer = none := by simp [queueActAt, queueAct, hp, hi]
      simp only [stepProducer, hnone, Correctness.stepProducer, hp, hi] at hst
      cases ok <;> cases hst <;>
        exact ⟨rfl, by simp, .inr (.inl ⟨hnone, rfl, rfl, by simp, by simp⟩)⟩
    · have hact : b.queueActAt k .producer = some (.producer k) := by
        simp only [queueActAt, queueAct, hp]
        split
        · exact (hi ⟨_, ‹_›⟩).elim
        · rfl
      simp only [stepProducer, hact] at hst
      obtain ⟨s, e, hs, rfl⟩ := access_fst hst
      refine ⟨rfl, by simp, .inl ⟨.producer k, e, hact, rfl, hs, rfl, ?_⟩⟩
      simp [hp]
  | returned =>
    have hnone : b.queueActAt k .producer = none := by simp [queueActAt, queueAct, hp]
    simp [stepProducer, hnone, hp, Correctness.stepProducer] at hst

/-! ## The invariant -/

/-- A step of the queue inside a push or a pop. -/
theorem apart_queue {a : Act (BitVec 64)} {s : State (BitVec 64) (BitVec 64)}
    {es : List (Event (BitVec 64) (BitVec 64))} (hi : Apart ⟨T.b.s, T.src⟩ h) (hc : Calm T.b.s)
    (ha : a.pushPop = true) (hst : (spsc PublishBatch).step T.b.s a = some (s, es)) :
    Apart ⟨s, T.b.s.sources T.src a⟩ (h ++ T.b.s.accesses T.src a) ∧ Calm s := by
  have hparty : a.party = true := by cases a <;> first | rfl | cases ha
  exact ⟨hi.step (hc.apart a) (traced_of_step hst hparty T.src),
    (FastQ.step_move hst).calm (Act.pushPop_calm ha) hc⟩

/-- The steps of the consumer change nothing about the flag. -/
theorem Flag.consumer (hf : Flag T h) (hdone : T'.done = T.done) (hb : T'.b.done = T.b.done)
    (hp : T'.b.producer = T.b.producer) (he : ∀ x ∈ e, x.thread = .consumer) :
    Flag T' (h ++ e) := by
  unfold Flag at hf ⊢
  rw [hdone, hb, hp]
  split at hf
  · exact hf
  · obtain ⟨hd, hret, hk, hall⟩ := hf
    refine ⟨hd, hret, getElem?_append hk, fun i a ha hat => ?_⟩
    rcases getElem?_cases ha with ha | ⟨-, ha⟩
    · exact hall i a ha hat
    · rw [he a ha] at hat
      cases hat

/-- **The consumer's steps**, before it has seen `done`. -/
theorem Unseen.step_consumer {f : Bool} (hu : Unseen T h)
    (hst : (tracedTest PublishBatch N).step T (.consumer f, k) = some (T', e)) :
    Unseen T' (h ++ e) ∨ Seen T' (h ++ e) := by
  obtain ⟨b', src', done'⟩ := T'
  obtain ⟨hb, rfl, rfl, hdone⟩ := step_eq hst
  have hproducer := stepConsumer_producer hb
  obtain ⟨hbd, hcase⟩ := stepConsumer_early hb hu.consumer
  have hdone : done' = T.done := by
    rw [hbd] at hdone
    simpa using hdone
  subst hdone
  have hflag : Flag ⟨b', sources N k T (.consumer f), T.done⟩
      (h ++ accesses N k T (.consumer f)) :=
    hu.flag.consumer rfl hbd hproducer fun x hx => consumer_thread hx
  obtain ⟨a, es, hact, ha, hs, he⟩ | ⟨hnone, hs, he, hload⟩ | ⟨hcc, rfl, hd⟩ := hcase
  · left
    have hq := apart_queue hu.apart hu.calm ha hs
    refine ⟨?_, hq.2, he, hflag⟩
    simp only [sources, accesses, hact]
    exact hq.1
  · left
    have hnew : k = 0 → T.b.consumer = .loadDone → T.done = none := by
      intro hk hcc
      cases hdone : T.done with
      | none => rfl
      | some j =>
        have hf := hu.flag
        rw [Flag, hdone] at hf
        exact (Bool.false_ne_true ((hload hcc hk).symm.trans hf.1)).elim
    have hneutral : ∀ x ∈ otherAccesses N k T (.consumer f), Neutral x := by
      have hearly := hu.consumer
      intro x hx
      cases hcc : T.b.consumer with
      | loadDone =>
        simp only [otherAccesses, hcc, List.mem_singleton] at hx
        subst hx
        refine ⟨rfl, nofun, fun i hi => ?_⟩
        simp only [AccessKind.acquire.injEq] at hi
        split at hi
        · rename_i hk
          rw [hnew hk hcc] at hi
          cases hi
        · cases hi
      | call | inside | aborted =>
        simp only [otherAccesses, hcc] at hx
        cases hx
      | _ => rw [hcc] at hearly; cases hearly
    have hthread : ∀ x ∈ otherAccesses N k T (.consumer f), x.thread = .consumer := by
      intro x hx
      have hacc : accesses N k T (.consumer f) = otherAccesses N k T (.consumer f) := by
        simp only [accesses, hnone]
      exact consumer_thread (hacc ▸ hx)
    have hs : b'.s = T.b.s := hs
    refine ⟨?_, hs ▸ hu.calm, he, hflag⟩
    simp only [sources, accesses, hnone, hs]
    exact hu.apart.neutral _ .consumer hneutral hthread
  · right
    -- The load of `true` reads the store of the producer.
    obtain ⟨j, hj⟩ : ∃ j, T.done = some j := by
      cases hdone : T.done with
      | none =>
        have hf := hu.flag
        rw [Flag, hdone] at hf
        exact (Bool.false_ne_true (hf.1.symm.trans hd)).elim
      | some j => exact ⟨j, rfl⟩
    have hf := hu.flag
    rw [Flag, hj] at hf
    obtain ⟨-, hret, hstore, hlast⟩ := hf
    have hacc : accesses N 0 T (.consumer f) = [⟨.consumer, .flag, .acquire (some j)⟩] := by
      simp [accesses, queueActAt, queueAct, otherAccesses, hcc, hj]
    obtain ⟨t, -, -, ht⟩ := hu.apart
    have hlawful : ∀ x ∈ h, Lawful x := ht.lawful
    rw [hacc]
    refine ⟨hproducer.trans hret, ?_, fun i a ha hat => ?_⟩
    · refine ht.free.append (t := .consumer) (by simp) fun x hx i a ha hc => ?_
      rw [List.mem_singleton.mp hx] at hc
      obtain ⟨-, i, -, hslot⟩ := (hlawful a (List.mem_of_getElem? ha)).conflict (by rfl) hc
      cases hslot
    · rcases getElem?_cases ha with ha | ⟨-, ha⟩
      · have hknows : Knows (h ++ [⟨.consumer, .flag, .acquire (some j)⟩]) .consumer j :=
          Knows.acquire hstore rfl getElem?_new rfl rfl
        rcases Nat.lt_or_ge i j with hlt | hge
        · exact hknows.of_before (.program hlt (getElem?_append ha) (getElem?_append hstore) hat)
        · obtain rfl : i = j := Nat.le_antisymm (hlast i a ha hat) hge
          exact hknows
      · rw [List.mem_singleton.mp ha] at hat
        cases hat

/-- **The producer's steps**, before the consumer has seen `done`. -/
theorem Unseen.step_producer (hu : Unseen T h)
    (hst : (tracedTest PublishBatch N).step T (.producer, k) = some (T', e)) :
    Unseen T' (h ++ e) := by
  obtain ⟨b', src', done'⟩ := T'
  obtain ⟨hb, rfl, rfl, hdone⟩ := step_eq hst
  obtain ⟨hcc, hne, hcase⟩ := stepProducer_cases hb
  have hflag := hu.flag
  have hnew : T.done = none := by
    cases hdone : T.done with
    | none => rfl
    | some j =>
      rw [Flag, hdone] at hflag
      exact (hne hflag.2.1).elim
  rw [Flag, hnew] at hflag
  have hearly : early b'.consumer = true := by rw [hcc]; exact hu.consumer
  simp only [hflag.1, hnew, Bool.not_false, Bool.and_true] at hdone
  obtain ⟨a, es, hact, ha, hs, hbd, hp⟩ | ⟨hnone, hs, hbd, hp, hi⟩ |
      ⟨hnone, hs, hbd, hp, hpc, hi⟩ :=
    hcase
  · have hq := apart_queue hu.apart hu.calm ha hs
    rw [hbd, hflag.1] at hdone
    subst hdone
    refine ⟨?_, hq.2, hearly, ⟨hbd.trans hflag.1, hp⟩⟩
    simp only [sources, accesses, hact]
    exact hq.1
  · rw [hbd, hflag.1] at hdone
    subst hdone
    have hacc : otherAccesses N k T .producer = [] := by
      simp only [otherAccesses]
      split
      · rename_i hpc
        rw [if_pos (hi hpc)]
      · rfl
    have hs : b'.s = T.b.s := hs
    refine ⟨?_, hs ▸ hu.calm, hearly, ⟨hbd.trans hflag.1, hp⟩⟩
    simp only [sources, accesses, hnone, hacc, hs]
    exact hu.apart.neutral [] .producer (by simp) (by simp)
  · rw [hbd] at hdone
    subst hdone
    have hacc : otherAccesses N k T .producer = [⟨.producer, .flag, .release⟩] := by
      simp only [otherAccesses, hpc, if_neg hi]
    have hclock : T.src.clock = h.length := by
      obtain ⟨t, -, -, ht⟩ := hu.apart
      exact ht.clock
    have hs : b'.s = T.b.s := hs
    refine ⟨?_, hs ▸ hu.calm, hearly, ?_⟩
    · simp only [sources, accesses, hnone, hacc, hs]
      exact hu.apart.neutral [⟨.producer, .flag, .release⟩] .producer
        (by simp [neutral_iff, Lawful, AccessKind.plain]) (by simp)
    · refine ⟨hbd, hp, ?_, fun i a ha hat => ?_⟩
      · simp only [accesses, hnone, hacc, hclock]
        exact getElem?_new
      · have hlt := getElem?_lt ha
        simp only [accesses, hnone, hacc, List.length_append, List.length_singleton] at hlt
        simp only [hclock]
        omega

/-- **After the consumer has seen `done`** nothing can race. -/
theorem Seen.step {a : Turn × Nat} (hs : Seen T h)
    (hst : (tracedTest PublishBatch N).step T a = some (T', e)) : Seen T' (h ++ e) := by
  obtain ⟨u, k⟩ := a
  obtain ⟨hb, -, rfl, -⟩ := step_eq hst
  cases u with
  | producer => exact ((stepProducer_cases hb).2.1 hs.producer).elim
  | consumer f =>
    refine ⟨(stepConsumer_producer hb).trans hs.producer, ?_, fun i a ha hat => ?_⟩
    · refine hs.free.append (fun x hx => consumer_thread hx) fun x hx i a ha hc => ?_
      refine hs.knows i a ha (Party.eq_other (o := .consumer) fun hac => hc.thread ?_)
      rw [consumer_thread hx, hac]
    · rcases getElem?_cases ha with ha | ⟨-, ha⟩
      · exact (hs.knows i a ha hat).append
      · rw [consumer_thread ha] at hat
        cases hat

variable {capacity : BitVec 64} {memory : BitVec 64 → BitVec 64}
  {q : SPSC (BitVec 64) (BitVec 64)} {sched : List (Turn × Nat)}

/-- **The correctness test has no data races**, its `flush` on the consumer's thread included.
Whatever the capacity, the batch size and the number of elements, in every interleaving, with loads
that may be stale. -/
theorem test_raceFree (hq : SPSC.new capacity memory = .ok q)
    (hrun : (tracedTest PublishBatch N).run (.start q) sched = some (T, h)) : RaceFree h := by
  have hinv : Unseen T h ∨ Seen T h := by
    refine (Machine.run_reach hrun).invariant (P := fun T h => Unseen T h ∨ Seen T h)
      (.inl ⟨start_apart hq, ⟨rfl, rfl⟩, rfl, rfl, nofun⟩) ?_
    rintro T h ⟨u, k⟩ T' e (hu | hs) - hst
    · cases u with
      | producer => exact .inl (hu.step_producer hst)
      | consumer f => exact hu.step_consumer hst
    · exact .inr (hs.step hst)
  rcases hinv with hu | hs
  · obtain ⟨t, -, -, ht⟩ := hu.apart
    exact ht.free
  · exact hs.free

/-- The producer runs to its end, and then the consumer. -/
def inTurn : List (Turn × Nat) :=
  List.replicate 12 (.producer, 0) ++ List.replicate 38 (.consumer false, 0)

/-- One element through a ring of one slot. -/
theorem test_raceFree_one : ∃ T h,
    (tracedTest 1 1).run (.start (SPSC.fresh 1 fun _ => 0)) inTurn = some (T, h) ∧
      T.b.consumer = .passed ∧ RaceFree h := by
  refine ⟨_, _, rfl, rfl, ?_⟩
  exact @test_raceFree 1 1 _ _ 1 (fun _ => 0) _ inTurn rfl rfl

end TracedTest

end FastQ
