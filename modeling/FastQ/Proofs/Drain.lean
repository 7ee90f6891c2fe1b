import FastQ.Proofs.Passing

/-!
# The drain of the correctness test

After the consumer has seen `done`, the producer makes no step, so `writer_` stays. Each iteration
of the first loop then pops an element, of which at most `writer_ - localReader_` are left, or
fails; and a pop that fails has published `reader_` at the value of `writer_`, so `empty()` holds at
the next test (`Draining`). This bounds the iterations; with the invariant of the test (`Good`), the
loops count every element exactly once (`drain`).
-/

namespace FastQ

namespace Correctness

variable {PublishBatch N : BitVec 64} {b b' : Correctness} {t t' : State (BitVec 64) Nat}

/-- After `k` iterations since the consumer has seen `done`, when `n` elements were popped and `m`
were published. -/
def Draining (m n k : Nat) (expected : BitVec 64) (t : State (BitVec 64) Nat) : TestConsumer → Prop
  | .loadDone | .empty | .loadedWriter _ | .loadedReader _ => t.q.writer.value = m ∧
      (n + k = expected.toNat ∨ n + k = expected.toNat + 1 ∧ t.q.reader.value = m)
  | .call => t.q.writer.value = m ∧ n + k = expected.toNat
  | .inside => t.q.writer.value = m ∧ n + k = expected.toNat + 1 ∧
      (Decided t.q t.consumer → t.q.consumer.localReader = m)
  | _ => n + k ≤ m + 1

/-- At most one iteration more than there are published elements. -/
theorem Draining.le {m n k : Nat} (h : Good N b t) (hk : Draining m n k b.expected t b.consumer) :
    n + k ≤ m + 1 := by
  have hc := h.consumer
  have ho := h.near.inv.ordered
  have := ho.reader_le
  have := ho.cachedWriter_le
  cases hcc : b.consumer <;> rw [hcc] at hc hk
  case inside =>
    obtain ⟨-, -, hcount⟩ := hc
    obtain ⟨hw, hk, -⟩ := hk
    omega
  case call =>
    obtain ⟨-, hcount⟩ := hc
    obtain ⟨hw, hk⟩ := hk
    omega
  case loadDone | empty | loadedWriter | loadedReader =>
    obtain ⟨-, hcount⟩ := hc
    obtain ⟨hw, hk⟩ := hk
    omega
  all_goals exact hk

/-- The result of `empty()` after `done`. -/
theorem Draining.test {m n k : Nat}
    (hw : t.q.writer.value = m)
    (hk : n + k = b.expected.toNat ∨ n + k = b.expected.toNat + 1 ∧ t.q.reader.value = m)
    (hle : n + k ≤ m + 1) :
    let b' := b.test (wrap t.q.writer.value) (wrap t.q.reader.value)
    b'.done = b.done ∧ Draining m n k b'.expected t b'.consumer := by
  unfold Correctness.test
  split
  · exact ⟨rfl, hle⟩
  · rename_i hne
    rcases hk with hk | ⟨-, hr⟩
    · exact ⟨rfl, hw, hk⟩
    · rw [hw, hr] at hne
      exact (hne rfl).elim

/-- The step lemma. -/
theorem Move.draining {m n k : Nat} {a : Option (Act (BitVec 64))} {es : List Loop}
    (hm : Move PublishBatch N b a b' es) (h : Good N b t) (ht : Tracks PublishBatch a t t')
    (hd : b.done = true) (hk : Draining m n k b.expected t b.consumer) :
    b'.done = true ∧ Draining m n (k + es.length) b'.expected t' b'.consumer := by
  have hle := hk.le h
  have hp := h.done hd
  have hc := h.consumer
  have hafter := h.after
  cases hm with
  | finish hpc | next hpc | push hpc | pushed hpc | retry hpc | producer hpc =>
    rw [hp] at hpc
    cases hpc
  | wait hcc hd' =>
    rw [hd] at hd'
    cases hd'
  | seen hcc | loadWriter hcc | loadReader hcc =>
    obtain rfl : t' = t := ht
    rw [hcc] at hk
    exact ⟨hd, hk⟩
  | testReader hcc =>
    obtain rfl : t' = t := ht
    rw [hcc] at hk hafter
    obtain ⟨hdone, hk'⟩ := Draining.test (b := b) hk.1 hk.2 hle
    rw [hafter.2, h.state]
    exact ⟨hdone.trans hd, hk'⟩
  | testWriter hcc =>
    obtain rfl : t' = t := ht
    rw [hcc] at hk hafter
    obtain ⟨hdone, hk'⟩ := Draining.test (b := b) hk.1 hk.2 hle
    rw [hafter.2, h.state]
    exact ⟨hdone.trans hd, hk'⟩
  | pop hcc =>
    obtain ⟨et, hm⟩ := ht
    rw [hcc] at hk
    cases hm with
    | pop =>
      refine ⟨hd, hk.1, congrArg (· + 1) hk.2, ?_⟩
      rintro (⟨hdec, -⟩ | ⟨x, hdec⟩ | hdec) <;> cases hdec
  | popped hcc hi =>
    obtain rfl : t' = t := ht
    obtain ⟨heq, hsucc, -⟩ := h.counted .loadDone .loadDone (.inl hcc) hi
    rw [hcc] at hk
    rw [heq]
    exact ⟨hd, hk.1, .inl (hk.2.1.trans hsucc.symm)⟩
  | missed hcc hi =>
    obtain rfl : t' = t := ht
    rw [hcc] at hk
    rw [h.state] at hi
    have hi := ConsumerPc.of_wrap_idle hi
    -- The pop failed on `writer_`, and has published `reader_`.
    have hall := hk.2.2 (.inr (.inr hi))
    have hr := h.kept.publishedReader (by rw [hi]; rfl)
    exact ⟨hd, hk.1, .inr ⟨hk.2.1, hr.trans hall⟩⟩
  | consumer hcc =>
    obtain ⟨et, hm⟩ := ht
    cases hm with
    | consumer hm =>
      rcases hcc with hcc | hcc | hcc <;> rw [hcc] at hc hk
      · have hw := hm.writer hc.1.calm
        refine ⟨hd, ?_⟩
        rw [hcc]
        refine ⟨hw.trans hk.1, hk.2.1, fun hdec => ?_⟩
        obtain ⟨hlr, hdec⟩ := hm.decided hdec
        exact hlr.trans (hdec.elim hk.2.2 fun he => he.trans hk.1)
      · exact ⟨hd, by rw [hcc]; exact hk⟩
      · exact ⟨hd, by rw [hcc]; exact hk⟩
  | drained hcc hi =>
    obtain ⟨heq, -⟩ := h.counted .drainCall .finished (.inr hcc) hi
    rw [heq]
    exact ⟨hd, hle⟩
  | _ => exact ⟨hd, hle⟩

/-- The run lemma. -/
theorem reach_draining {ok : Correctness → Turn → Prop} {m n : Nat} {es : List Loop}
    (h : (testSpscCorrectness PublishBatch N).Reach ok b b' es) (hg : Good N b t)
    (hd : b.done = true) (hk : Draining m n 0 b.expected t b.consumer) :
    n + es.length ≤ m + 1 := by
  suffices ∃ t', Good N b' t' ∧ b'.done = true ∧
      Draining m n es.length b'.expected t' b'.consumer by
    obtain ⟨t', hg', -, hk'⟩ := this
    exact hk'.le hg'
  induction h with
  | refl => exact ⟨t, hg, hd, hk⟩
  | tail a _ _ hst ih =>
    obtain ⟨t₁, hg₁, hd₁, hk₁⟩ := ih
    obtain ⟨oa, hm⟩ := step_move hst
    obtain ⟨t', hg', ht⟩ := hm.good hg₁
    obtain ⟨hd', hk'⟩ := hm.draining hg₁ ht hd₁ hk₁
    exact ⟨t', hg', hd', by rwa [List.length_append]⟩

end Correctness

section Runs

variable {capacity PublishBatch N : BitVec 64} {memory : BitVec 64 → BitVec 64}
  {q : SPSC (BitVec 64) (BitVec 64)} {sched : List Turn} {b : Correctness} {es : List Loop}

/-- **The drain loses nothing.** For every number `N` of elements, in every interleaving: the
consumer never sees an unexpected value; once it has seen `done`, its first loop runs at most
`writer_ - localReader_ + 1` iterations more; when that loop ends, all that is published is popped;
when the last loop ends, all `N` values are counted; and once `done` is set, the consumer alone gets
to its end. -/
theorem drain (hq : SPSC.new capacity memory = .ok q)
    (h : (testSpscCorrectness PublishBatch N).run (.start q) sched = some (b, es)) :
    b.consumer ≠ .aborted ∧
    (b.consumer = .empty → ∀ more b' es',
      (testSpscCorrectness PublishBatch N).run b more = some (b', es') →
      es'.count .iterate ≤ (b.s.q.writer.value - b.s.q.consumer.localReader).toNat + 1) ∧
    (b.consumer = .flushCall → b.s.q.consumer.localReader = b.s.q.writer.value ∧
      b.expected = b.s.q.writer.value) ∧
    (b.consumer = .finished → b.expected = N) ∧
    (b.done = true → ∀ f, ∃ b', (testSpscCorrectness PublishBatch N).Repeat (.consumer f) b b' ∧
      b'.consumer = .passed) := by
  obtain ⟨t₀, hg₀⟩ := Correctness.start_good (N := N) hq
  obtain ⟨t, hg⟩ := Correctness.reach_good (Machine.run_reach h) hg₀
  have hafter := hg.after
  have hc := hg.consumer
  refine ⟨fun hcc => ?_, fun hcc more b' es' hrun => ?_, fun hcc => ?_, fun hcc => ?_,
    fun hd f => hg.passes hd⟩
  · rw [hcc] at hafter
    exact hafter
  · rw [hcc] at hafter hc
    have ho := hg.near.inv.ordered
    have := ho.reader_le
    have := ho.cachedWriter_le
    have := ho.writer_le_local
    have := ho.local_le
    have hcap := hg.near.capacity_lt
    have hsize : (b.s.q.writer.value - b.s.q.consumer.localReader).toNat =
        t.q.writer.value - t.q.consumer.localReader := by
      rw [hg.state]
      exact Counter.toNat_ofNat_sub (by omega) (by omega)
    have hbound := Correctness.reach_draining (m := t.q.writer.value)
      (n := t.q.consumer.localReader) (Machine.run_reach hrun) hg hafter
      (by rw [hcc]; exact ⟨rfl, .inl hc.2⟩)
    have hcount : es'.count .iterate ≤ es'.length := List.count_le_length
    rw [hsize]
    omega
  · rw [hcc] at hafter hc
    have hexpected : b.expected = wrap t.q.consumer.localReader := by
      rw [hc.2, wrap, BitVec.ofNat_toNat, BitVec.setWidth_eq]
    have hall : wrap t.q.consumer.localReader = wrap t.q.writer.value := congrArg wrap hafter.2
    rw [hg.state]
    exact ⟨hall, hexpected.trans hall⟩
  · rw [hcc] at hafter hc
    rw [← BitVec.toNat_inj, ← hc.2, hafter.2, (hg.finished hafter.1).2]

/-- One element that the producer leaves unpublished: the first loop ends without it, and the last
loop counts it. -/
theorem drain_one : ∃ b b' : Correctness, b.consumer = .empty ∧ b'.consumer = .finished ∧
    (∀ more b'' es'', (testSpscCorrectness 2 1).run b more = some (b'', es'') →
      es''.count .iterate ≤ 1) ∧ b'.expected = 1 := by
  have h := @drain 1 2 1 (fun _ => 0) _
    (List.replicate 8 .producer ++ List.replicate 1 (.consumer false)) _ _ rfl rfl
  have h' := @drain 1 2 1 (fun _ => 0) _
    (List.replicate 8 .producer ++ List.replicate 30 (.consumer false)) _ _ rfl rfl
  exact ⟨_, _, rfl, rfl, h.2.1 rfl, h'.2.2.2.1 rfl⟩

end Runs

end FastQ
