import FastQ.Proofs.History

/-!
# The parties never meet in a slot

The slots are plain memory, so the two parties must not access the same slot at the same time, and
an access must come after the last one of the other party in the order that the shared counters
give: the other party stored its counter after its access (release), and this party loaded that
store before its own access (acquire).

* `Chain`: the order of the counters that holds in every state.
* `Stored`, `HandedOver`: a value of a counter was stored after the calls that it counts, and that
  store was loaded. Every value of a shared counter was stored so (or is the initial zero), and
  every cached value was handed over (`Published`, `reach_published`).
* `exclusion`: the slots differ while both parties are at one, the producer reuses a slot only after
  the pop of its old element was handed over, the consumer reads a slot only after its push was.
-/

namespace FastQ

variable {α : Type}

/-- `cachedReader_ <= reader_ <= localReader_ <= cachedWriter_ <= writer_ <= localWriter_ <=
cachedReader_ + capacity_`. -/
structure Chain (q : SPSC α Nat) : Prop where
  cachedReader : q.producer.cachedReader ≤ q.reader.value
  reader : q.reader.value ≤ q.consumer.localReader
  localReader : q.consumer.localReader ≤ q.consumer.cachedWriter
  cachedWriter : q.consumer.cachedWriter ≤ q.writer.value
  writer : q.writer.value ≤ q.producer.localWriter
  localWriter : q.producer.localWriter ≤ q.producer.cachedReader + q.capacity

theorem Ordered.chain {q : SPSC α Nat} (h : Ordered q) : Chain q :=
  ⟨h.cachedReader_le, h.reader_le_local, h.reader_le, h.cachedWriter_le, h.writer_le_local,
    h.writer_le⟩

/-! ## Stores and loads in a history -/

section Stores

variable {κ : Type}

/-- The value `n` was stored when at least `n` of the calls that `count` lists were done. -/
def Stored (store : Event α κ) (count : List (Event α κ) → List α) (n : Nat)
    (es : List (Event α κ)) : Prop :=
  ∃ e₁ e₂, es = e₁ ++ store :: e₂ ∧ n ≤ (count e₁).length

/-- The value `n` was stored so, and later loaded. -/
def HandedOver (store load : Event α κ) (count : List (Event α κ) → List α) (n : Nat)
    (es : List (Event α κ)) : Prop :=
  ∃ e₁ e₂, es = e₁ ++ load :: e₂ ∧ Stored store count n e₁

variable {store load : Event α κ} {count : List (Event α κ) → List α} {n : Nat}
  {es e : List (Event α κ)}

theorem Stored.append (h : Stored store count n es) : Stored store count n (es ++ e) := by
  obtain ⟨e₁, e₂, rfl, hn⟩ := h
  exact ⟨e₁, e₂ ++ e, by simp, hn⟩

theorem HandedOver.append (h : HandedOver store load count n es) :
    HandedOver store load count n (es ++ e) := by
  obtain ⟨e₁, e₂, rfl, hs⟩ := h
  exact ⟨e₁, e₂ ++ e, by simp, hs⟩

/-- A step that stores `n` when `n` calls are done. -/
theorem Stored.now (happ : ∀ es e, count (es ++ e) = count es ++ count e) (he : store ∈ e)
    (hn : n ≤ (count es).length) : Stored store count n (es ++ e) := by
  obtain ⟨a, b, rfl⟩ := List.append_of_mem he
  refine ⟨es ++ a, b, by simp, ?_⟩
  rw [happ, List.length_append]
  omega

/-- A step that loads a stored value. -/
theorem Stored.handedOver (h : Stored store count n es) (he : load ∈ e) :
    HandedOver store load count n (es ++ e) := by
  obtain ⟨a, b, rfl⟩ := List.append_of_mem he
  exact ⟨es ++ a, b, by simp, h.append⟩

end Stores

/-! ## What a step does to the shared and the cached counters -/

variable {PublishBatch k : Nat} {q q' : SPSC α Nat} {e : List (Event α Nat)}

theorem ProducerMove.visible {p p' : ProducerPc α Nat}
    (hm : ProducerMove PublishBatch k q p q' p' e) (hp : ProducerOk q p) :
    (∀ n ∈ q'.reader.visible,
        n ∈ q.reader.visible ∨ .storeReader n ∈ e ∧ n ≤ q.consumer.localReader) ∧
      ∀ n ∈ q'.writer.visible,
        n ∈ q.writer.visible ∨ .storeWriter n ∈ e ∧ n ≤ q.producer.localWriter := by
  cases hm with
  | load hl => exact ⟨fun n hn => .inl ((Atomic.load_mem hl).2 n hn), fun n hn => .inl hn⟩
  | @storeReader x =>
    refine ⟨fun n hn => .inr ?_, fun n hn => .inl hn⟩
    rw [List.mem_singleton.mp hn]
    exact ⟨List.mem_singleton_self _, hp.2⟩
  | @storeWriter r x =>
    refine ⟨fun n hn => .inl hn, fun n hn => ?_⟩
    rcases List.mem_cons.mp hn with rfl | hn
    · exact .inr ⟨List.mem_singleton_self _, Nat.le_of_eq hp⟩
    · exact .inl hn
  | _ => exact ⟨fun n hn => .inl hn, fun n hn => .inl hn⟩

theorem ConsumerMove.visible {c c' : ConsumerPc α Nat}
    (hm : ConsumerMove PublishBatch k q c q' c' e) (hc : ConsumerOk q c) :
    (∀ n ∈ q'.reader.visible,
        n ∈ q.reader.visible ∨ .storeReader n ∈ e ∧ n ≤ q.consumer.localReader) ∧
      ∀ n ∈ q'.writer.visible,
        n ∈ q.writer.visible ∨ .storeWriter n ∈ e ∧ n ≤ q.producer.localWriter := by
  cases hm with
  | load hl => exact ⟨fun n hn => .inl hn, fun n hn => .inl ((Atomic.load_mem hl).2 n hn)⟩
  | @storeReader r x =>
    refine ⟨fun n hn => ?_, fun n hn => .inl hn⟩
    rcases List.mem_cons.mp hn with rfl | hn
    · exact .inr ⟨List.mem_singleton_self _, Nat.le_of_eq hc⟩
    · exact .inl hn
  | @storeWriter x =>
    refine ⟨fun n hn => .inl hn, fun n hn => .inr ?_⟩
    rw [List.mem_singleton.mp hn]
    exact ⟨List.mem_singleton_self _, hc.2⟩
  | _ => exact ⟨fun n hn => .inl hn, fun n hn => .inl hn⟩

/-- A value that may be seen after a step could be seen before it, or the step stored it. -/
theorem Move.visible {s s' : State α Nat} {a : Act α} (hm : Move PublishBatch s a s' e)
    (hi : Inv s) :
    (∀ n ∈ s'.q.reader.visible,
        n ∈ s.q.reader.visible ∨ .storeReader n ∈ e ∧ n ≤ s.q.consumer.localReader) ∧
      ∀ n ∈ s'.q.writer.visible,
        n ∈ s.q.writer.visible ∨ .storeWriter n ∈ e ∧ n ≤ s.q.producer.localWriter := by
  cases hm with
  | producer hm => exact hm.visible hi.producer
  | consumer hm => exact hm.visible hi.consumer
  | flush =>
    refine ⟨fun n hn => ?_, fun n hn => ?_⟩ <;> rcases List.mem_cons.mp hn with rfl | hn
    · exact .inr ⟨List.mem_cons_self, Nat.le_refl _⟩
    · exact .inl hn
    · exact .inr ⟨List.mem_cons_of_mem _ List.mem_cons_self, Nat.le_refl _⟩
    · exact .inl hn
  | _ => exact ⟨fun n hn => .inl hn, fun n hn => .inl hn⟩

/-- A cached value changes only to a value that could be seen, by a load of it. -/
theorem Move.cached {s s' : State α Nat} {a : Act α} (hm : Move PublishBatch s a s' e) :
    (s'.q.producer.cachedReader = s.q.producer.cachedReader ∨
        s'.q.producer.cachedReader ∈ s.q.reader.visible ∧
          .loadReader s'.q.producer.cachedReader ∈ e) ∧
      (s'.q.consumer.cachedWriter = s.q.consumer.cachedWriter ∨
        s'.q.consumer.cachedWriter ∈ s.q.writer.visible ∧
          .loadWriter s'.q.consumer.cachedWriter ∈ e) := by
  cases hm with
  | producer hm =>
    cases hm with
    | load hl => exact ⟨.inr ⟨(Atomic.load_mem hl).1, List.mem_singleton_self _⟩, .inl rfl⟩
    | _ => exact ⟨.inl rfl, .inl rfl⟩
  | consumer hm =>
    cases hm with
    | load hl => exact ⟨.inl rfl, .inr ⟨(Atomic.load_mem hl).1, List.mem_singleton_self _⟩⟩
    | _ => exact ⟨.inl rfl, .inl rfl⟩
  | _ => exact ⟨.inl rfl, .inl rfl⟩

/-- The local counters count the calls that are done. -/
theorem Move.counts {s s' : State α Nat} {a : Act α} (hm : Move PublishBatch s a s' e) :
    s'.q.producer.localWriter = s.q.producer.localWriter + (accepted e).length ∧
      s'.q.consumer.localReader = s.q.consumer.localReader + (popped e).length := by
  cases hm with
  | producer hm => cases hm <;> exact ⟨rfl, rfl⟩
  | consumer hm => cases hm <;> exact ⟨rfl, rfl⟩
  | _ => exact ⟨rfl, rfl⟩

/-! ## Every run -/

/-- Every value of a shared counter was stored, and every cached value was handed over. -/
structure Published (s : State α Nat) (es : List (Event α Nat)) : Prop where
  accepted : s.q.producer.localWriter = (accepted es).length
  popped : s.q.consumer.localReader = (popped es).length
  reader : ∀ n ∈ s.q.reader.visible, n = 0 ∨ Stored (.storeReader n) FastQ.popped n es
  writer : ∀ n ∈ s.q.writer.visible, n = 0 ∨ Stored (.storeWriter n) FastQ.accepted n es
  cachedReader : ∀ n, n = s.q.producer.cachedReader →
    n = 0 ∨ HandedOver (.storeReader n) (.loadReader n) FastQ.popped n es
  cachedWriter : ∀ n, n = s.q.consumer.cachedWriter →
    n = 0 ∨ HandedOver (.storeWriter n) (.loadWriter n) FastQ.accepted n es

/-- The step lemma. -/
theorem Move.published {s s' : State α Nat} {a : Act α} {es : List (Event α Nat)}
    (hm : Move PublishBatch s a s' e) (hi : Inv s) (h : Published s es) :
    Published s' (es ++ e) := by
  obtain ⟨hw, hr⟩ := hm.counts
  obtain ⟨hvr, hvw⟩ := hm.visible hi
  obtain ⟨hcr, hcw⟩ := hm.cached
  constructor
  · rw [hw, accepted_append, List.length_append, h.accepted]
  · rw [hr, popped_append, List.length_append, h.popped]
  · intro n hn
    rcases hvr n hn with hold | ⟨he, hle⟩
    · exact (h.reader n hold).imp_right Stored.append
    · exact .inr (Stored.now popped_append he (h.popped ▸ hle))
  · intro n hn
    rcases hvw n hn with hold | ⟨he, hle⟩
    · exact (h.writer n hold).imp_right Stored.append
    · exact .inr (Stored.now accepted_append he (h.accepted ▸ hle))
  · rintro n rfl
    rcases hcr with hsame | ⟨hmem, he⟩
    · exact hsame ▸ (h.cachedReader _ rfl).imp_right HandedOver.append
    · exact (h.reader _ hmem).imp_right (Stored.handedOver · he)
  · rintro n rfl
    rcases hcw with hsame | ⟨hmem, he⟩
    · exact hsame ▸ (h.cachedWriter _ rfl).imp_right HandedOver.append
    · exact (h.writer _ hmem).imp_right (Stored.handedOver · he)

theorem reach_published {ok : State α Nat → Act α → Prop} {capacity : Nat} {memory : Nat → α}
    {q₀ : SPSC α Nat} {s : State α Nat} {es : List (Event α Nat)}
    (hq : SPSC.new capacity memory = .ok q₀)
    (h : (spsc PublishBatch).Reach ok (State.start q₀) s es) : Published s es := by
  induction h with
  | refl =>
    obtain ⟨rfl, -⟩ := SPSC.new_eq hq
    refine ⟨rfl, rfl, fun n hn => .inl ?_, fun n hn => .inl ?_, fun _ hn => .inl hn,
      fun _ hn => .inl hn⟩ <;> exact List.mem_singleton.mp hn
  | tail a hr _ hst ih => exact (step_move hst).published (reach_inv hr (new_inv hq)) ih

section Runs

variable {capacity PublishBatch : BitVec 64} {memory : BitVec 64 → α} {q : SPSC α (BitVec 64)}
  {sched : List (Act α)} {s : State α (BitVec 64)} {es : List (Event α (BitVec 64))}

/-- **Slot exclusion and hand-over.** In every state that any interleaving reaches, with any stale
loads, and with the counters read as unbounded numbers (`localWriter` is the number of accepted
pushes, `localReader` that of the pops done):

* the counters are in the order `Chain`;
* while both parties are at a slot, the slots differ;
* a producer that writes element `i ≥ capacity` writes the slot of element `i - capacity`, and has
  loaded a value `n > i - capacity` of `reader_` that was stored when `n` pops were done;
* a consumer that reads the slot of element `i` has loaded a value `n > i` of `writer_` that was
  stored when `n` elements were accepted. -/
theorem exclusion (hq : SPSC.new capacity memory = .ok q)
    (h : (spsc PublishBatch).run (State.start q) sched = some (s, es)) :
    ∃ t et, Unbounded capacity PublishBatch memory sched s es t et ∧ Chain t.q ∧
      t.q.capacity = capacity.toNat ∧
      t.q.producer.localWriter = (accepted et).length ∧
      t.q.consumer.localReader = (popped et).length ∧
      (s.producer.atSlot = true → s.consumer.atSlot = true → s.q.writeIndex ≠ s.q.readIndex) ∧
      (∀ data i, s.producer = .writeSlot data → t.q.producer.localWriter = capacity.toNat + i →
        s.q.writeIndex.toNat = i % capacity.toNat ∧
          ∃ n, i < n ∧ HandedOver (.storeReader n) (.loadReader n) popped n et) ∧
      (∀ i, s.consumer = .readSlot → t.q.consumer.localReader = i →
        s.q.readIndex.toNat = i % capacity.toNat ∧
          ∃ n, i < n ∧ HandedOver (.storeWriter n) (.loadWriter n) accepted n et) := by
  obtain ⟨q₀, t, et, hu, hn, hnew, hr, hcap⟩ := exists_unbounded hq h
  obtain ⟨hs, ho, hp, hc⟩ := hn.inv
  have hpub := reach_published hnew hr
  refine ⟨t, et, hu, ho.chain, hcap, hpub.accepted, hpub.popped, ?_, ?_, ?_⟩
  all_goals cases hu.state
  · intro hpa hca he
    have hroom := hp.room (ProducerPc.atSlot_wrap t.producer ▸ hpa)
    have helement := hc.element (ConsumerPc.atSlot_wrap t.consumer ▸ hca)
    refine slot_ne hs ho hroom helement ?_
    rw [hs.writeIndex_eq, hs.readIndex_eq, ← slot_wrap hs hn.capacity_lt,
      ← slot_wrap hs hn.capacity_lt]
    exact congrArg BitVec.toNat he.symm
  · intro data i hpc hi
    have hroom := hp.room (ProducerPc.atSlot_of_wrap hpc)
    refine ⟨?_, _, ?_, (hpub.cachedReader _ rfl).resolve_left ?_⟩
    · have hslot : t.wrap.q.writeIndex.toNat = t.q.producer.localWriter % t.q.capacity :=
        slot_wrap hs hn.capacity_lt _
      rw [hslot, hi, hcap, Nat.add_mod_left]
    · omega
    · omega
  · intro i hpc hi
    have helement := hc.element (ConsumerPc.atSlot_of_wrap hpc)
    refine ⟨?_, _, ?_, (hpub.cachedWriter _ rfl).resolve_left ?_⟩
    · have hslot : t.wrap.q.readIndex.toNat = t.q.consumer.localReader % t.q.capacity :=
        slot_wrap hs hn.capacity_lt _
      rw [hslot, hi, hcap]
    · omega
    · omega

/-- A ring of one slot whose producer is about to write it for the second time. -/
theorem exclusion_one : ∃ (s : State Bool (BitVec 64)) (es : List (Event Bool (BitVec 64))),
    s.producer = .writeSlot false ∧
      ∃ t et, Unbounded 1 1 (fun _ => false) (.push true :: List.replicate 8 (.producer 0) ++
        .pop :: List.replicate 9 (.consumer 0) ++ .push false :: List.replicate 3 (.producer 0))
        s es t et ∧ Chain t.q ∧ t.q.capacity = 1 := by
  obtain ⟨t, et, hu, hchain, hcap, -⟩ := @exclusion Bool 1 1 (fun _ => false) _
    (.push true :: List.replicate 8 (.producer 0) ++
      .pop :: List.replicate 9 (.consumer 0) ++ .push false :: List.replicate 3 (.producer 0))
    _ _ rfl rfl
  exact ⟨_, _, rfl, t, et, hu, hchain, hcap⟩

end Runs

end FastQ
