import FastQ.Proofs.Observers
import FastQ.Proofs.Lag
import FastQ.Proofs.Threads

/-!
# The size that a query reports

The two loads of a `size()` are not one snapshot. For the producer and the consumer this does no
harm: of the two counters, a party's own one does not move during its query, and the other one
moves only as far as the party's own counter lets it. So the two values are in order, and at most
`capacity` apart, whichever is loaded first (`QueryOk`).

A third thread has no such hold on the counters. If the counter that it loads second moves between
its two loads, the difference may be above the capacity, or wrap (`size_wraps`). If it does not
move, the two values are as good as a snapshot (`Unmoved`).
-/

namespace FastQ

variable {α : Type}

/-! ## What a step leaves for a thread inside a query -/

section Steps

variable {PublishBatch k : Nat} {q q' : SPSC α Nat} {e : List (Event α Nat)}

/-- A producer that is not in a `flush` does not change `reader_`. -/
theorem ProducerMove.reader {p p' : ProducerPc α Nat} (hm : ProducerMove PublishBatch k q p q' p' e)
    (h : p.flushing = false) : q'.reader.value = q.reader.value := by
  cases hm with
  | load hl => exact Atomic.load_value hl
  | storeReader => cases h
  | _ => rfl

/-- What a step leaves for a thread that does not make it. -/
def Spares (q q' : SPSC α Nat) : Observer → Prop
  | .producer =>
    q'.writer.value = q.writer.value ∧ q'.producer.cachedReader = q.producer.cachedReader ∧
      q'.producer.localWriter = q.producer.localWriter
  | .consumer =>
    q'.reader.value = q.reader.value ∧ q'.consumer.localReader = q.consumer.localReader
  | .third => Grows q q'

variable {o : Observed α Nat} {s' : State α Nat} {a : Act α}

theorem Move.spares (hm : Move PublishBatch o.s a s' e) (ha : a.pushPop = true) (hi : Inv o.s)
    (hc : Calm o.s) (hk : Kept o.s) (hf : o.free a = true) {t : Observer}
    (ht : (o.query t).free = false) : Spares o.s.q s'.q t := by
  obtain ⟨s, query⟩ := o
  replace hm : Move PublishBatch s a s' e := hm
  cases t with
  | third => exact (hm.kept hi hk (hc.unraced a)).2
  | producer =>
    cases hm with
    | push | producer => exact absurd (hf.symm.trans ht) (by decide)
    | pop => exact ⟨rfl, rfl, rfl⟩
    | consumer hm =>
      have hb := hm.byConsumer
      exact ⟨hm.writer hc.consumer, hb.cachedReader, hb.localWriter⟩
    | producerFlush | consumerFlush | flush | size | empty => cases ha
  | consumer =>
    cases hm with
    | pop | consumer => exact absurd (hf.symm.trans ht) (by decide)
    | push => exact ⟨rfl, rfl⟩
    | producer hm =>
      exact ⟨hm.reader hc.producer, (hm.byProducer hi.shape hi.ordered hi.producer).localReader⟩
    | producerFlush | consumerFlush | flush | size | empty => cases ha

/-- A step that changes `reader_` stores it. -/
theorem Move.storesReader {s : State α Nat} (hm : Move PublishBatch s a s' e)
    (ha : a.pushPop = true) :
    s'.q.reader.value = s.q.reader.value ∨ ∃ z, Event.storeReader z ∈ e := by
  cases hm with
  | producer hm =>
    cases hm with
    | load hl => exact .inl (Atomic.load_value hl)
    | storeReader => exact .inr ⟨_, List.mem_singleton_self _⟩
    | _ => exact .inl rfl
  | consumer hm =>
    cases hm with
    | storeReader => exact .inr ⟨_, List.mem_singleton_self _⟩
    | _ => exact .inl rfl
  | push | pop => exact .inl rfl
  | producerFlush | consumerFlush | flush | size | empty => cases ha

/-- A step that changes `writer_` stores it. -/
theorem Move.storesWriter {s : State α Nat} (hm : Move PublishBatch s a s' e)
    (ha : a.pushPop = true) :
    s'.q.writer.value = s.q.writer.value ∨ ∃ z, Event.storeWriter z ∈ e := by
  cases hm with
  | producer hm =>
    cases hm with
    | storeWriter => exact .inr ⟨_, List.mem_singleton_self _⟩
    | _ => exact .inl rfl
  | consumer hm =>
    cases hm with
    | load hl => exact .inl (Atomic.load_value hl)
    | storeWriter => exact .inr ⟨_, List.mem_singleton_self _⟩
    | _ => exact .inl rfl
  | push | pop => exact .inl rfl
  | producerFlush | consumerFlush | flush | size | empty => cases ha

end Steps

/-! ## The first load of a query -/

section Loads

variable {q q' : SPSC α Nat} {t : Observer} {c : Query} {k x y : Nat}

/-- What the value that a thread has loaded first says of the counters while it is in the query. -/
def QueryOk (q : SPSC α Nat) : Observer → QueryPc Nat → Prop
  | .producer, .loadedWriter _ x => x = q.writer.value
  | .producer, .loadedReader _ y => q.producer.cachedReader ≤ y ∧ y ≤ q.writer.value
  | .consumer, .loadedWriter _ x => q.consumer.localReader ≤ x ∧ x ≤ q.reader.value + q.capacity
  | .consumer, .loadedReader _ y => y = q.reader.value
  | .third, .loadedWriter _ x => x ≤ q.reader.value + q.capacity
  | .third, .loadedReader _ y => y ≤ q.writer.value
  | _, _ => True

theorem Ordered.seenReader (ho : Ordered q) (h : q.seenReader k t = some y) :
    q.producer.cachedReader ≤ y ∧ y ≤ q.consumer.localReader := by
  cases t with
  | producer => exact ho.reader_mem y (List.mem_of_getElem? h)
  | consumer | third =>
    cases h
    exact ⟨ho.cachedReader_le, ho.reader_le_local⟩

theorem Ordered.seenWriter (ho : Ordered q) (h : q.seenWriter k t = some x) :
    q.consumer.cachedWriter ≤ x ∧ x ≤ q.producer.localWriter := by
  cases t with
  | consumer => exact ho.writer_mem x (List.mem_of_getElem? h)
  | producer | third =>
    cases h
    exact ⟨ho.cachedWriter_le, ho.writer_le_local⟩

theorem QueryOk.firstWriter (ho : Ordered q) (h : q.seenWriter k t = some x) :
    QueryOk q t (.loadedWriter c x) := by
  have hx := ho.seenWriter h
  have := ho.cachedReader_le
  have := ho.reader_le
  have := ho.writer_le
  cases t with
  | producer =>
    cases h
    rfl
  | consumer => exact ⟨by omega, by omega⟩
  | third => exact show x ≤ q.reader.value + q.capacity by omega

theorem QueryOk.firstReader (ho : Ordered q) (h : q.seenReader k t = some y) :
    QueryOk q t (.loadedReader c y) := by
  have hy := ho.seenReader h
  have := ho.cachedWriter_le
  have := ho.reader_le
  cases t with
  | producer => exact ⟨by omega, by omega⟩
  | consumer =>
    cases h
    rfl
  | third => exact show y ≤ q.writer.value by omega

/-- The second load is of `reader_`. -/
theorem QueryOk.thenReader (hq : QueryOk q t (.loadedWriter c x)) (ho : Ordered q)
    (h : q.seenReader k t = some y) : x ≤ y + q.capacity ∧ (t ≠ .third → y ≤ x) := by
  have hy := ho.seenReader h
  have := ho.cachedWriter_le
  have := ho.reader_le
  have := ho.writer_le
  have := ho.writer_le_local
  cases t with
  | producer =>
    have hx : x = q.writer.value := hq
    exact ⟨by omega, fun _ => by omega⟩
  | consumer =>
    cases h
    obtain ⟨hlo, hhi⟩ := hq
    exact ⟨hhi, fun _ => by omega⟩
  | third =>
    cases h
    exact ⟨hq, fun ht => absurd rfl ht⟩

/-- The second load is of `writer_`. -/
theorem QueryOk.thenWriter (hq : QueryOk q t (.loadedReader c y)) (ho : Ordered q)
    (h : q.seenWriter k t = some x) : y ≤ x ∧ (t ≠ .third → x ≤ y + q.capacity) := by
  have hx := ho.seenWriter h
  have := ho.cachedReader_le
  have := ho.reader_le
  have := ho.writer_le
  have := ho.reader_le_local
  cases t with
  | producer =>
    cases h
    obtain ⟨hlo, hhi⟩ := hq
    exact ⟨hhi, fun _ => by omega⟩
  | consumer =>
    have hy : y = q.reader.value := hq
    exact ⟨by omega, fun _ => by omega⟩
  | third =>
    cases h
    exact ⟨hq, fun ht => absurd rfl ht⟩

/-- It stays true while others make steps. -/
theorem QueryOk.stable {pc : QueryPc Nat} (h : QueryOk q t pc) (hs : Spares q q' t)
    (hcap : q'.capacity = q.capacity) : QueryOk q' t pc := by
  cases t with
  | producer =>
    obtain ⟨hw, hc, -⟩ := hs
    cases pc with
    | loadedWriter c x => exact Eq.trans h hw.symm
    | loadedReader c y => exact ⟨hc ▸ h.1, hw ▸ h.2⟩
    | _ => trivial
  | consumer =>
    obtain ⟨hr, hl⟩ := hs
    cases pc with
    | loadedWriter c x => exact ⟨hl ▸ h.1, hr ▸ hcap ▸ h.2⟩
    | loadedReader c y => exact Eq.trans h hr.symm
    | _ => trivial
  | third =>
    have hr := hs.reader
    have hw := hs.writer
    cases pc with
    | loadedWriter c x =>
      have hx : x ≤ q.reader.value + q.capacity := h
      exact show x ≤ q'.reader.value + q'.capacity by omega
    | loadedReader c y => exact Nat.le_trans h hw
    | _ => trivial

end Loads

/-! ## The invariant of the queries -/

section Watched

variable {PublishBatch : Nat} {q q' : SPSC α Nat} {o o' : Observed α Nat} {a : QueryAct α}
  {e es f f' : List (QueryEvent α Nat)} {t : Observer} {c : Query} {x y : Nat}

/-- The counter that the third thread loads second is where a snapshot would have it, or it was
stored since the first load. -/
def Unmoved (q : SPSC α Nat) (es : List (QueryEvent α Nat)) : QueryPc Nat → Prop
  | .loadedWriter _ x => ∃ e₂, Trace.Since (QueryEvent.of .third) (.loadWriter .third x) e₂ es ∧
      (q.reader.value ≤ x ∨ ∃ z, .queue (.storeReader z) ∈ e₂)
  | .loadedReader _ y => ∃ e₂, Trace.Since (QueryEvent.of .third) (.loadReader .third y) e₂ es ∧
      (q.writer.value ≤ y + q.capacity ∨ ∃ z, .queue (.storeWriter z) ∈ e₂)
  | _ => True

theorem Unmoved.append {pc : QueryPc Nat} (h : Unmoved q es pc)
    (hr : q'.reader.value = q.reader.value ∨ ∃ z, .queue (.storeReader z) ∈ e)
    (hw : q'.writer.value = q.writer.value ∨ ∃ z, .queue (.storeWriter z) ∈ e)
    (hcap : q'.capacity = q.capacity) (he : ∀ ev ∈ e, ev.of .third = false) :
    Unmoved q' (es ++ e) pc := by
  cases pc with
  | loadedWriter c x =>
    obtain ⟨e₂, hsince, hle⟩ := h
    refine ⟨e₂ ++ e, hsince.append he, ?_⟩
    rcases hle with hle | ⟨z, hz⟩
    · rcases hr with hr | ⟨z, hz⟩
      · exact .inl (hr ▸ hle)
      · exact .inr ⟨z, List.mem_append_right _ hz⟩
    · exact .inr ⟨z, List.mem_append_left _ hz⟩
  | loadedReader c y =>
    obtain ⟨e₂, hsince, hle⟩ := h
    refine ⟨e₂ ++ e, hsince.append he, ?_⟩
    rcases hle with hle | ⟨z, hz⟩
    · rcases hw with hw | ⟨z, hz⟩
      · exact .inl (hw ▸ hcap ▸ hle)
      · exact .inr ⟨z, List.mem_append_right _ hz⟩
    · exact .inr ⟨z, List.mem_append_left _ hz⟩
  | _ => trivial

/-- What is known of every query that is under way. -/
structure Watched (o : Observed α Nat) (es : List (QueryEvent α Nat)) : Prop where
  ok : ∀ t, QueryOk o.s.q t (o.query t)
  third : Unmoved o.s.q es (o.query .third)

/-- A thread makes a step of its query. -/
theorem Watched.goTo (h : Watched o es) {pc : QueryPc Nat} (hq : QueryOk o.s.q t pc)
    (h₃ : t = .third → Unmoved o.s.q (es ++ e) pc)
    (he : t ≠ .third → ∀ ev ∈ e, ev.of .third = false) : Watched (o.goTo t pc) (es ++ e) := by
  constructor
  · intro t'
    by_cases ht : t' = t
    · subst ht
      rw [o.query_goTo]
      exact hq
    · rw [o.query_goTo_of_ne ht]
      exact h.ok t'
  · by_cases ht : t = .third
    · subst ht
      rw [o.query_goTo]
      exact h₃ rfl
    · rw [o.query_goTo_of_ne fun h => ht h.symm]
      exact h.third.append (.inl rfl) (.inl rfl) rfl (he ht)

/-- A thread that is not in a query knows nothing. -/
theorem QueryOk.of_free {pc : QueryPc Nat} (h : pc.free = true) : QueryOk q t pc := by
  cases pc with
  | out => cases t <;> trivial
  | _ => cases h

/-- The step lemma. -/
theorem QueryMove.watched (hm : QueryMove PublishBatch o a o' e) (ha : a.pushPop = true)
    (hi : Inv o.s) (hc : Calm o.s) (hk : Kept o.s) (h : Watched o es) : Watched o' (es ++ e) := by
  have ho := hi.ordered
  cases hm with
  | @queue a s e hf hst =>
    have hm := step_move hst
    have hcap : s.q.capacity = o.s.q.capacity := hm.capacity
    have hof : ∀ ev ∈ e.map (QueryEvent.queue (κ := Nat)), ev.of .third = false := by
      simp [QueryEvent.of]
    refine ⟨fun t => ?_, h.third.append ?_ ?_ hcap hof⟩
    · cases ht : (o.query t).free with
      | true => exact .of_free ht
      | false => exact (h.ok t).stable (hm.spares ha hi hc hk hf ht) hcap
    · exact (hm.storesReader ha).imp_right fun ⟨z, hz⟩ => ⟨z, List.mem_map_of_mem hz⟩
    · exact (hm.storesWriter ha).imp_right fun ⟨z, hz⟩ => ⟨z, List.mem_map_of_mem hz⟩
  | @query t => exact h.goTo (by cases t <;> trivial) (fun _ => trivial) (by simp)
  | @firstWriter t k c x ht hx =>
    refine h.goTo (.firstWriter ho hx) ?_ ?_
    · rintro rfl
      cases hx
      have := ho.reader_le_local
      have := ho.reader_le
      have := ho.cachedWriter_le
      exact ⟨[], .now _ _ _, .inl (by omega)⟩
    · intro ht₃ ev hev
      rw [List.mem_singleton.mp hev]
      exact beq_false_of_ne ht₃
  | @firstReader t k c y ht hy =>
    refine h.goTo (.firstReader ho hy) ?_ ?_
    · rintro rfl
      cases hy
      have := ho.writer_le_local
      have := ho.writer_le
      have := ho.cachedReader_le
      exact ⟨[], .now _ _ _, .inl (by omega)⟩
    · intro ht₃ ev hev
      rw [List.mem_singleton.mp hev]
      exact beq_false_of_ne ht₃
  | @thenWriter t k c x y ht hx =>
    refine h.goTo (by cases t <;> trivial) (fun _ => trivial) fun ht₃ ev hev => ?_
    simp only [List.mem_cons, List.not_mem_nil, or_false] at hev
    rcases hev with rfl | rfl <;> exact beq_false_of_ne ht₃
  | @thenReader t k c x y ht hy =>
    refine h.goTo (by cases t <;> trivial) (fun _ => trivial) fun ht₃ ev hev => ?_
    simp only [List.mem_cons, List.not_mem_nil, or_false] at hev
    rcases hev with rfl | rfl <;> exact beq_false_of_ne ht₃

/-- The step in which a query returns makes its second load. -/
theorem QueryMove.returns (hm : QueryMove PublishBatch o a o' (f ++ .returned t c x y :: f')) :
    (∃ k, a = .loadReader t k ∧ f = [.loadReader t y] ∧ o.query t = .loadedWriter c x ∧
      o.s.q.seenReader k t = some y) ∨
    ∃ k, a = .loadWriter t k ∧ f = [.loadWriter t x] ∧ o.query t = .loadedReader c y ∧
      o.s.q.seenWriter k t = some x := by
  generalize he : f ++ .returned t c x y :: f' = e at hm
  cases hm with
  | thenReader ht hy =>
    rcases f with _ | ⟨ev, _ | ⟨ev', f⟩⟩
    · cases he
    · cases he
      exact .inl ⟨_, rfl, rfl, ht, hy⟩
    · simp at he
  | thenWriter ht hx =>
    rcases f with _ | ⟨ev, _ | ⟨ev', f⟩⟩
    · cases he
    · cases he
      exact .inr ⟨_, rfl, rfl, ht, hx⟩
    · simp at he
  | queue =>
    have hmem : QueryEvent.returned t c x y ∈ f ++ .returned t c x y :: f' := by simp
    rw [he] at hmem
    simp at hmem
  | query => simp at he
  | firstWriter => rcases f with _ | ⟨ev, f⟩ <;> simp at he
  | firstReader => rcases f with _ | ⟨ev, f⟩ <;> simp at he

end Watched

/-! ## Every run -/

section Reach

variable {PublishBatch capacity : Nat} {memory : Nat → α} {q₀ : SPSC α Nat} {o : Observed α Nat}
  {ok : QueryAct α → Prop} {es e e' : List (QueryEvent α Nat)} {t : Observer} {c : Query}
  {x y : Nat}

theorem queue_steady (hB : PublishBatch < 2 ^ 64) (hq : SPSC.new capacity memory = .ok q₀)
    (hn : Near (State.start q₀))
    (h : (observed PublishBatch).Reach (fun _ => ok) (.start q₀) o es)
    (hok : ∀ a, ok a → a.pushPop = true) : Steady PublishBatch o.s :=
  reach_steady hB hq hn (reach_queue h) fun _ a ha =>
    Act.pushPop_calm (show a.pushPop = true from hok (.queue a) ha)

/-- The run lemma. -/
theorem reach_watched (hB : PublishBatch < 2 ^ 64) (hq : SPSC.new capacity memory = .ok q₀)
    (hn : Near (State.start q₀))
    (h : (observed PublishBatch).Reach (fun _ => ok) (.start q₀) o es)
    (hok : ∀ a, ok a → a.pushPop = true) : Watched o es := by
  induction h with
  | refl => exact ⟨fun t => by cases t <;> trivial, trivial⟩
  | tail a hr ha hst ih =>
    have hs := queue_steady hB hq hn hr hok
    exact (observed_move hst).watched (hok a ha) hs.near.inv hs.calm hs.kept ih

/-- The two values of a query that returned: in order and at most `capacity` apart, or the third
thread loaded a counter second that was stored since its first load. -/
theorem returned_values (hB : PublishBatch < 2 ^ 64) (hq : SPSC.new capacity memory = .ok q₀)
    (hn : Near (State.start q₀))
    (h : (observed PublishBatch).Reach (fun _ => ok) (.start q₀) o es)
    (hok : ∀ a, ok a → a.pushPop = true) (he : es = e ++ .returned t c x y :: e') :
    (y ≤ x ∧ x ≤ y + q₀.capacity) ∨ t = .third ∧ ∃ e₀ e₂,
      (e = e₀ ++ [.loadReader t y] ∧
        Trace.Since (QueryEvent.of t) (.loadWriter t x) e₂ e₀ ∧
        ∃ z, .queue (.storeReader z) ∈ e₂) ∨
      (e = e₀ ++ [.loadWriter t x] ∧
        Trace.Since (QueryEvent.of t) (.loadReader t y) e₂ e₀ ∧
        ∃ z, .queue (.storeWriter z) ∈ e₂) := by
  obtain ⟨o₁, o₂, a, es₁, f, f', hr, -, hst, rfl⟩ := h.origin he
  have hi := (queue_steady hB hq hn hr hok).near.inv
  have hw := reach_watched hB hq hn hr hok
  have hcap : o₁.s.q.capacity = q₀.capacity := reach_capacity (reach_queue hr)
  obtain ⟨k, -, rfl, ht, hy⟩ | ⟨k, -, rfl, ht, hx⟩ := (observed_move hst).returns
  · obtain ⟨hhi, hlo⟩ := QueryOk.thenReader (ht ▸ hw.ok t) hi.ordered hy
    by_cases ht₃ : t = .third
    · subst ht₃
      cases hy
      have hthird := hw.third
      rw [ht] at hthird
      obtain ⟨e₂, hsince, hle | hz⟩ := hthird
      · exact .inl ⟨hle, hcap ▸ hhi⟩
      · exact .inr ⟨rfl, es₁, e₂, .inl ⟨rfl, hsince, hz⟩⟩
    · exact .inl ⟨hlo ht₃, hcap ▸ hhi⟩
  · obtain ⟨hlo, hhi⟩ := QueryOk.thenWriter (ht ▸ hw.ok t) hi.ordered hx
    by_cases ht₃ : t = .third
    · subst ht₃
      cases hx
      have hthird := hw.third
      rw [ht] at hthird
      obtain ⟨e₂, hsince, hle | hz⟩ := hthird
      · exact .inl ⟨hlo, hcap ▸ hle⟩
      · exact .inr ⟨rfl, es₁, e₂, .inr ⟨rfl, hsince, hz⟩⟩
    · exact .inl ⟨hlo, hcap ▸ hhi ht₃⟩

end Reach

section Runs

variable {capacity PublishBatch : BitVec 64} {memory : BitVec 64 → α} {q : SPSC α (BitVec 64)}
  {sched : List (QueryAct α)} {o : Observed α (BitVec 64)}
  {es : List (QueryEvent α (BitVec 64))}

theorem sizeResult_wrap {x y : Nat} (h : y ≤ x) (hxy : x ≤ y + capacity.toNat) :
    (sizeResult (wrap x) (wrap y)).toNat = x - y := by
  have := capacity.isLt
  exact Counter.toNat_ofNat_sub h (by omega)

/-- **The reported size is at most the capacity**, for the threads that the queue supports. In every
interleaving of pushes and pops with queries, with stale loads, a `size()` of the producer or of the
consumer returns at most `capacity`, whichever counter it loads first. So does one of a third
thread, unless the counter that it loads second was published between its two loads. -/
theorem size_bounded (hq : SPSC.new capacity memory = .ok q)
    (h : (observed PublishBatch).run (.start q) sched = some (o, es))
    (hact : ∀ a ∈ sched, a.pushPop = true) :
    ∀ e t x y e', es = e ++ .returned t .size x y :: e' →
      sizeResult x y ≤ capacity ∨ t = .third ∧ ∃ e₀ e₂,
        (e = e₀ ++ [.loadReader t y] ∧
          Trace.Since (QueryEvent.of t) (.loadWriter t x) e₂ e₀ ∧
          ∃ z, .queue (.storeReader z) ∈ e₂) ∨
        (e = e₀ ++ [.loadWriter t x] ∧
          Trace.Since (QueryEvent.of t) (.loadReader t y) e₂ e₀ ∧
          ∃ z, .queue (.storeWriter z) ∈ e₂) := by
  intro e t x y e' he
  obtain ⟨q₀, o', et, hu, hnew, hr, hcap, hn⟩ := observed_unwrap hq h hact
  rw [hu.events] at he
  obtain ⟨e₀, ev, e₀', het, rfl, hev⟩ := Trace.map_eq_append_cons he
  obtain ⟨x, y, rfl, rfl, rfl⟩ := QueryEvent.wrap_returned hev
  rcases returned_values PublishBatch.isLt hnew hn hr (fun _ => id) het with ⟨hlo, hhi⟩ | hthird
  · left
    rw [BitVec.le_def, sizeResult_wrap hlo (hcap ▸ hhi)]
    omega
  · obtain ⟨rfl, e₁, e₂, ⟨rfl, hs, z, hz⟩ | ⟨rfl, hs, z, hz⟩⟩ := hthird
    · refine .inr ⟨rfl, e₁.map QueryEvent.wrap, e₂.map QueryEvent.wrap, .inl ⟨?_, ?_, ?_⟩⟩
      · simp [QueryEvent.wrap]
      · exact hs.map (QueryEvent.of_wrap .third)
      · exact ⟨wrap z, List.mem_map_of_mem hz⟩
    · refine .inr ⟨rfl, e₁.map QueryEvent.wrap, e₂.map QueryEvent.wrap, .inr ⟨?_, ?_, ?_⟩⟩
      · simp [QueryEvent.wrap]
      · exact hs.map (QueryEvent.of_wrap .third)
      · exact ⟨wrap z, List.mem_map_of_mem hz⟩

/-- A ring of two slots with one element in it: the producer and the consumer ask for the size, one
in each order of the loads. -/
theorem size_bounded_two : ∃ es : List (QueryEvent Bool (BitVec 64)),
    .returned .producer .size 1 0 ∈ es ∧ .returned .consumer .size 1 0 ∈ es ∧
      ∀ e t x y e', es = e ++ .returned t .size x y :: e' →
        sizeResult x y ≤ 2 ∨ t = .third ∧ ∃ e₀ e₂,
          (e = e₀ ++ [.loadReader t y] ∧
            Trace.Since (QueryEvent.of t) (.loadWriter t x) e₂ e₀ ∧
            ∃ z, .queue (.storeReader z) ∈ e₂) ∨
          (e = e₀ ++ [.loadWriter t x] ∧
            Trace.Since (QueryEvent.of t) (.loadReader t y) e₂ e₀ ∧
            ∃ z, .queue (.storeWriter z) ∈ e₂) := by
  have h := @size_bounded Bool 2 1 (fun _ => false) _
    (.queue (.push true) :: List.replicate 8 (.queue (.producer 0)) ++
      [.query .producer .size, .loadWriter .producer 0, .query .consumer .size,
        .loadReader .consumer 0, .loadReader .producer 0, .loadWriter .consumer 0]) _ _ rfl rfl
    (by decide)
  exact ⟨_, by decide, by decide, h⟩

/-- **A third thread may see the size wrap.** It loads `writer_`, which is 0; one element is pushed
and popped, and published on both sides; then it loads `reader_`, which is 1. The size that it
reports for a ring of one slot is `0 - 1`. -/
theorem size_wraps : SPSC.new (1 : BitVec 64) (fun _ => false) = .ok (SPSC.fresh 1 fun _ => false) ∧
    ∃ (o : Observed Bool (BitVec 64)) (es : List (QueryEvent Bool (BitVec 64))),
      (observed 1).run (.start (SPSC.fresh 1 fun _ => false))
        (.query .third .size :: .loadWriter .third 0 ::
          .queue (.push true) :: List.replicate 8 (.queue (.producer 0)) ++
          .queue .pop :: List.replicate 10 (.queue (.consumer 0)) ++
          [.loadReader .third 0]) = some (o, es) ∧
      .returned .third .size 0 1 ∈ es ∧ ¬ sizeResult (0 : BitVec 64) 1 ≤ 1 :=
  ⟨rfl, _, _, rfl, by decide, by decide⟩

end Runs

end FastQ
