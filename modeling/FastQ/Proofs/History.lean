import Mathlib.Data.List.ReduceOption
import FastQ.Lib.Fifo
import FastQ.Proofs.Lockstep

/-!
# The queue is a bounded FIFO queue

The abstract queue is `Fifo.Legal`: a list of at most `capacity` elements. The abstraction of the
ring is `SPSC.contents`, the slots from `localReader` to `localWriter`. A push is `enq` at its
increment of `localWriter`, a pop is `deq` at its increment of `localReader`, and every other access
leaves the contents as they are (`Move.contents`), so every run of the two parties is a legal
history of the abstract queue (`reach_legal`).

* `fifo`: pushes and pops in every interleaving, with stale loads, over 64-bit counters.
* `flush_safe`: the same for every schedule, with calls of `flush` by either party at any time; no
  element is overwritten before it was read, and no batch test takes a difference below zero.
-/

namespace FastQ

variable {α : Type}

/-! ## The abstraction -/

/-- The elements that are accepted and not popped, in order. -/
def SPSC.contents (q : SPSC α Nat) : List α :=
  Ring.window q.buffer q.capacity q.consumer.localReader q.producer.localWriter

/-- The contents of the slots `localReader_ & mask_, …, (localWriter_ - 1) & mask_`. -/
def SPSC.slots (q : SPSC α (BitVec 64)) : List α :=
  (List.range (q.producer.localWriter - q.consumer.localReader).toNat).map fun i =>
    q.buffer ((q.consumer.localReader + BitVec.ofNat 64 i) &&& q.mask)

/-- The operations on the abstract queue in a history. -/
def ops {κ : Type} (es : List (Event α κ)) : List (Fifo.Op α) :=
  es.filterMap fun
    | .accept data => some (.enq data)
    | .take data => some (.deq data)
    | _ => none

section History

variable {κ : Type}

@[simp] theorem ops_append (es es' : List (Event α κ)) : ops (es ++ es') = ops es ++ ops es' :=
  List.filterMap_append

theorem enqs_ops (es : List (Event α κ)) : Fifo.enqs (ops es) = accepted es := by
  unfold Fifo.enqs ops accepted
  rw [List.filterMap_filterMap]
  congr 1
  funext e
  cases e <;> rfl

theorem deqs_ops (es : List (Event α κ)) : Fifo.deqs (ops es) = popped es := by
  unfold Fifo.deqs ops popped
  rw [List.filterMap_filterMap]
  congr 1
  funext e
  cases e <;> rfl

end History

variable {q q' : SPSC α Nat} {PublishBatch k : Nat} {e : List (Event α Nat)}

theorem SPSC.length_contents (q : SPSC α Nat) :
    q.contents.length = q.producer.localWriter - q.consumer.localReader := Ring.length_window

/-- A step's effect on the abstract queue: none, an `enq` or a `deq`. -/
inductive Effect (capacity : Nat) : List α → List (Fifo.Op α) → List α → Prop
  | none {c : List α} : Effect capacity c [] c
  | enq {c : List α} {data : α} : c.length < capacity →
      Effect capacity c [.enq data] (c ++ [data])
  | deq {c : List α} {data : α} : Effect capacity (data :: c) [.deq data] c

/-- A legal history goes on with the effect of a step. -/
theorem Effect.legal {capacity : Nat} {c₀ c c' : List α} {os os' : List (Fifo.Op α)}
    (he : Effect capacity c os' c') (h : Fifo.Legal capacity c₀ os c) :
    Fifo.Legal capacity c₀ (os ++ os') c' := by
  cases he with
  | none => rwa [List.append_nil]
  | enq hlt => exact .enq _ h hlt
  | deq => exact .deq _ h

theorem ProducerMove.effect {p p' : ProducerPc α Nat}
    (hm : ProducerMove PublishBatch k q p q' p' e) (hs : Shape q) (ho : Ordered q)
    (hp : ProducerOk q p) : Effect q.capacity q.contents (ops e) q'.contents := by
  have hl := ho.local_le
  have hchain := ho.reader_le_local
  have hcached := ho.cachedReader_le
  cases hm with
  | @write data =>
    have hw : q.producer.localWriter < q.producer.cachedReader + q.capacity := hp
    have hc : (q.writeSlot data).contents = q.contents := by
      unfold SPSC.contents SPSC.writeSlot
      rw [hs.writeIndex_eq]
      exact Ring.window_update (show _ < q.consumer.localReader + q.capacity by omega) data
    rw [hc]
    exact .none
  | increment =>
    obtain ⟨hlt, rfl⟩ := hp
    have hc : q.advanceWriter.contents = q.contents ++ [q.buffer q.writeIndex] := by
      rw [hs.writeIndex_eq]
      exact Ring.window_succ hl.1
    rw [hc]
    exact .enq (by rw [SPSC.length_contents]; omega)
  | _ => exact .none

theorem ConsumerMove.effect {c c' : ConsumerPc α Nat}
    (hm : ConsumerMove PublishBatch k q c q' c' e) (hs : Shape q) (ho : Ordered q)
    (hc : ConsumerOk q c) : Effect q.capacity q.contents (ops e) q'.contents := by
  have hcached := ho.cachedWriter_le
  have hlocal := ho.writer_le_local
  cases hm with
  | increment =>
    obtain ⟨hlt, rfl⟩ := hc
    have he : q.contents = q.readSlot :: q.advanceReader.contents := by
      unfold SPSC.readSlot
      rw [hs.readIndex_eq]
      exact Ring.window_cons (by omega)
    rw [he]
    exact .deq
  | _ => exact .none

/-- **The step lemma**: a step is a step of the abstract queue, or leaves its contents. -/
theorem Move.effect {s s' : State α Nat} {a : Act α} (hm : Move PublishBatch s a s' e)
    (hi : Inv s) : Effect s.q.capacity s.q.contents (ops e) s'.q.contents := by
  obtain ⟨hs, ho, hp, hc⟩ := hi
  cases hm with
  | producer hm => exact hm.effect hs ho hp
  | consumer hm => exact hm.effect hs ho hc
  | _ => exact .none

variable {ok : State α Nat → Act α → Prop} {s₀ s : State α Nat} {es : List (Event α Nat)}

/-- **Refinement.** Every run of the two parties is a legal history of the abstract queue. -/
theorem reach_legal (h : (spsc PublishBatch).Reach ok s₀ s es) (hi : Inv s₀) :
    Fifo.Legal s₀.q.capacity s₀.q.contents (ops es) s.q.contents := by
  induction h with
  | refl => exact .nil
  | tail a hr _ hst ih =>
    have he := (step_move hst).effect (reach_inv hr hi)
    rw [reach_capacity hr] at he
    rw [ops_append]
    exact he.legal ih

/-! ## What the calls return -/

section Returned

variable {κ : Type}

/-- The element of a pop that is done and has not returned yet. -/
def ConsumerPc.held : ConsumerPc α κ → List α
  | .batchCheck data => [data]
  | .publishReader (.pop r) _ => r.toList
  | _ => []

variable [OfNat κ 1] [Add κ] [Sub κ] [AndOp κ] [LE κ] [DecidableEq κ] [DecidableLE κ]
  {PublishBatch : κ} {k : Nat} {q q' : SPSC α κ} {e : List (Event α κ)}

/-- A step of the consumer returns what it held, or goes on holding it. -/
theorem ConsumerMove.returned {c c' : ConsumerPc α κ}
    (hm : ConsumerMove PublishBatch k q c q' c' e) :
    c.held ++ popped e = (popResults e).reduceOption ++ c'.held := by
  cases hm with
  | @markReader r => cases r <;> rfl
  | @readReader r | @storeReader r _ | @readReaderAgain r =>
    cases r <;> simp [popped, popResults, ConsumerPc.held]
  | _ => simp [popped, popResults, ConsumerPc.held]

theorem ProducerMove.returned {p p' : ProducerPc α κ}
    (hm : ProducerMove PublishBatch k q p q' p' e) : popped e = [] ∧ popResults e = [] := by
  cases hm <;> exact ⟨rfl, rfl⟩

theorem Move.returned {s s' : State α κ} {a : Act α} (hm : Move PublishBatch s a s' e) :
    s.consumer.held ++ popped e = (popResults e).reduceOption ++ s'.consumer.held := by
  cases hm with
  | producer hm => simp [hm.returned]
  | consumer hm => exact hm.returned
  | _ => simp [popped, popResults, ConsumerPc.held]

/-- The values of the pops that are done are those that pops returned, and the one held. -/
theorem reach_returned {ok : State α κ → Act α → Prop} {s₀ s : State α κ} {es : List (Event α κ)}
    (h : (spsc PublishBatch).Reach ok s₀ s es) (h₀ : s₀.consumer.held = []) :
    popped es = (popResults es).reduceOption ++ s.consumer.held := by
  induction h with
  | refl => exact h₀.symm
  | tail a _ _ hst ih =>
    rw [popped_append, popResults_append, List.reduceOption_append, ih, List.append_assoc,
      (step_move hst).returned, List.append_assoc]

/-- A step of the producer accepts an element, or returns what it accepted. -/
theorem ProducerMove.pushed {p p' : ProducerPc α κ}
    (hm : ProducerMove PublishBatch k q p q' p' e) :
    (accepted e).length + (if p.advanced then 1 else 0) =
      (pushResults e).count true + if p'.advanced then 1 else 0 := by
  cases hm with
  | @markWriter r =>
    rcases r with ⟨_ | _⟩ | _ <;> rfl
  | _ => rfl

theorem Move.pushed {s s' : State α κ} {a : Act α} (hm : Move PublishBatch s a s' e) :
    (accepted e).length + (if s.producer.advanced then 1 else 0) =
      (pushResults e).count true + if s'.producer.advanced then 1 else 0 := by
  cases hm with
  | producer hm => exact hm.pushed
  | consumer hm => cases hm <;> rfl
  | _ => rfl

/-- The accepted pushes are those that returned, and the one that has not yet. -/
theorem reach_pushed {ok : State α κ → Act α → Prop} {s₀ s : State α κ} {es : List (Event α κ)}
    (h : (spsc PublishBatch).Reach ok s₀ s es) (h₀ : s₀.producer.advanced = false) :
    (accepted es).length =
      (pushResults es).count true + if s.producer.advanced then 1 else 0 := by
  induction h with
  | refl => simp [h₀, accepted, pushResults]
  | tail a _ _ hst ih =>
    have := (step_move hst).pushed
    rw [accepted_append, pushResults_append, List.length_append, List.count_append]
    omega

end Returned

/-! ## On 64 bits -/

/-- What does not look at counters sees the same in a history and in its image. -/
theorem filterMap_wrap {β : Type} {f : Event α (BitVec 64) → Option β} {g : Event α Nat → Option β}
    (h : ∀ ev, f ev.wrap = g ev) (es : List (Event α Nat)) :
    (es.map Event.wrap).filterMap f = es.filterMap g := by
  rw [List.filterMap_map]
  exact congrArg (List.filterMap · es) (funext h)

theorem accepted_wrap (es : List (Event α Nat)) : accepted (es.map Event.wrap) = accepted es :=
  filterMap_wrap (fun ev => by cases ev <;> rfl) es

theorem popped_wrap (es : List (Event α Nat)) : popped (es.map Event.wrap) = popped es :=
  filterMap_wrap (fun ev => by cases ev <;> rfl) es

theorem pushResults_wrap (es : List (Event α Nat)) :
    pushResults (es.map Event.wrap) = pushResults es := by
  refine filterMap_wrap (fun ev => ?_) es
  cases ev with
  | producerReturn r => cases r <;> rfl
  | _ => rfl

theorem popResults_wrap (es : List (Event α Nat)) :
    popResults (es.map Event.wrap) = popResults es := by
  refine filterMap_wrap (fun ev => ?_) es
  cases ev with
  | consumerReturn r => cases r <;> rfl
  | _ => rfl

/-- The slot of a counter value on 64 bits is its remainder. -/
theorem slot_wrap (hs : Shape q) (hcap : q.capacity < 2 ^ 64) (i : Nat) :
    (wrap i &&& q.wrap.mask).toNat = i % q.capacity := by
  have hlt : i % q.capacity < 2 ^ 64 := Nat.lt_trans (Nat.mod_lt i hs.pos) hcap
  have hw : wrap i &&& q.wrap.mask = wrap (i &&& q.mask) := BitVec.ofNat_and.symm
  rw [hw, hs.mask, Counter.land_pred hs.pow, toNat_wrap hlt]

/-- The slots of the wrapped queue hold the contents. -/
theorem slots_wrap {t : State α Nat} (h : Near t) : t.wrap.q.slots = t.q.contents := by
  have hl := h.inv.ordered.local_le
  have hcap := h.capacity_lt
  have hn : (t.wrap.q.producer.localWriter - t.wrap.q.consumer.localReader).toNat =
      t.q.producer.localWriter - t.q.consumer.localReader :=
    Counter.toNat_ofNat_sub hl.1 (by omega)
  unfold SPSC.slots SPSC.contents Ring.window
  rw [hn]
  refine List.map_congr_left fun i _ => ?_
  have hi : t.wrap.q.consumer.localReader + BitVec.ofNat 64 i =
      wrap (t.q.consumer.localReader + i) :=
    (BitVec.ofNat_add _ _).symm
  rw [hi]
  exact congrArg t.q.buffer (slot_wrap h.inv.shape hcap _)

/-! ## Every run -/

section Runs

variable {capacity PublishBatch : BitVec 64} {memory : BitVec 64 → α} {q : SPSC α (BitVec 64)}
  {sched : List (Act α)} {s : State α (BitVec 64)} {es : List (Event α (BitVec 64))}
  {t : State α Nat} {et : List (Event α Nat)}

theorem new_contents {capacity : Nat} {memory : Nat → α} {q : SPSC α Nat}
    (h : SPSC.new capacity memory = .ok q) : q.contents = [] := by
  obtain ⟨rfl, -⟩ := SPSC.new_eq h
  exact Ring.window_self _ _ _

/-- The reading of a run over unbounded counters is a legal history of the abstract queue, and the
slots of the 64-bit queue are the abstract contents. -/
theorem exists_legal (hq : SPSC.new capacity memory = .ok q)
    (h : (spsc PublishBatch).run (State.start q) sched = some (s, es)) :
    ∃ (t : State α Nat) (et : List (Event α Nat)),
      Unbounded capacity PublishBatch memory sched s es t et ∧ Near t ∧
      t.q.capacity = capacity.toNat ∧
      Fifo.Legal capacity.toNat [] (ops et) s.q.slots ∧ accepted et = accepted es ∧
      popped et = popped es := by
  obtain ⟨q₀, t, et, hu, hn, hnew, hr, hcap⟩ := exists_unbounded hq h
  have hleg := reach_legal hr (new_inv hnew)
  have hcap₀ : (State.start q₀).q.capacity = capacity.toNat := (reach_capacity hr).symm.trans hcap
  have hempty : (State.start q₀).q.contents = [] := new_contents hnew
  rw [hcap₀, hempty, ← slots_wrap hn, ← hu.state] at hleg
  refine ⟨t, et, hu, hn, hcap, hleg, ?_, ?_⟩
  · rw [hu.events, accepted_wrap]
  · rw [hu.events, popped_wrap]

/-- **First in, first out, exactly once.** In every state that any interleaving of the accesses of
`push` and `pop` reaches, with any stale loads, the popped values are a prefix of the accepted ones
(so are the values that the pops returned), the rest of the accepted values is in the slots from
`localReader_` to `localWriter_`, and there are at most `capacity` of them. As many pushes returned
`true` as elements were accepted, but for a push that has accepted its element and not returned. -/
theorem fifo (hq : SPSC.new capacity memory = .ok q)
    (h : (spsc PublishBatch).run (State.start q) sched = some (s, es)) :
    popped es <+: accepted es ∧ (popResults es).reduceOption <+: accepted es ∧
      (accepted es).length =
        ((pushResults es).count true + if s.producer.advanced then 1 else 0) ∧
      (accepted es).drop (popped es).length = s.q.slots ∧
      s.q.slots.length ≤ capacity.toNat := by
  obtain ⟨t, et, -, -, -, hleg, ha, hp⟩ := exists_legal hq h
  obtain ⟨hpre, hdrop⟩ := hleg.prefix_of_nil
  rw [enqs_ops, deqs_ops, ha, hp] at hpre hdrop
  have hret := reach_returned (Machine.run_reach h) rfl
  have hpushed := reach_pushed (Machine.run_reach h) rfl
  refine ⟨hpre, ?_, hpushed, hdrop, hleg.length_le (Nat.zero_le _)⟩
  exact (hret ▸ List.prefix_append _ _ : (popResults es).reduceOption <+: popped es).trans hpre

/-- A ring of one slot: one element goes in, is published, and comes out. -/
theorem fifo_one : ∃ (s : State Bool (BitVec 64)) (es : List (Event Bool (BitVec 64))),
    popResults es = [none, some true] ∧ popped es <+: accepted es ∧
      (popResults es).reduceOption <+: accepted es ∧
      (accepted es).length =
        ((pushResults es).count true + if s.producer.advanced then 1 else 0) ∧
      (accepted es).drop (popped es).length = s.q.slots ∧ s.q.slots.length ≤ 1 :=
  ⟨_, _, rfl, @fifo Bool 1 2 (fun _ => false) _
    (.push true :: List.replicate 4 (.producer 0) ++ .pop :: List.replicate 7 (.consumer 0) ++
      .push false :: List.replicate 7 (.producer 0) ++ .pop :: List.replicate 6 (.consumer 0))
    _ _ rfl rfl⟩

/-- A producer that has room writes a slot that holds none of the elements. -/
theorem writeIndex_ne {q : SPSC α Nat} (hs : Shape q) (ho : Ordered q) (hcap : q.capacity < 2 ^ 64)
    (hroom : q.producer.localWriter < q.producer.cachedReader + q.capacity) {i : Nat}
    (hi : i < q.contents.length) :
    (q.wrap.consumer.localReader + BitVec.ofNat 64 i) &&& q.wrap.mask ≠ q.wrap.writeIndex := by
  have := ho.cachedReader_le
  have := ho.reader_le_local
  rw [SPSC.length_contents] at hi
  intro he
  have hslot : q.wrap.consumer.localReader + BitVec.ofNat 64 i =
      wrap (q.consumer.localReader + i) := (BitVec.ofNat_add _ _).symm
  have hwrite : q.wrap.writeIndex = wrap q.producer.localWriter &&& q.wrap.mask := rfl
  have hmod := congrArg BitVec.toNat he
  rw [hslot, hwrite, slot_wrap hs hcap, slot_wrap hs hcap] at hmod
  exact Ring.mod_ne (by omega) (by omega) hmod

/-- **A `flush` by either party at any time is safe.** Whatever `push`, `pop` and `flush` calls the
parties make, and however the accesses interleave: the popped values are a prefix of the accepted
ones, which are as many as pushes returned `true` (but for one that is going to), at most `capacity`
elements are outstanding, these are still in their slots and the producer never writes such a slot,
and no batch test takes a difference below zero. -/
theorem flush_safe (hq : SPSC.new capacity memory = .ok q)
    (h : (spsc PublishBatch).run (State.start q) sched = some (s, es)) :
    popped es <+: accepted es ∧ (popResults es).reduceOption <+: accepted es ∧
      (accepted es).length =
        ((pushResults es).count true + if s.producer.advanced then 1 else 0) ∧
      (accepted es).length ≤ (popped es).length + capacity.toNat ∧
      (accepted es).drop (popped es).length = s.q.slots ∧
      (∀ data, s.producer = .writeSlot data → ∀ i < s.q.slots.length,
        (s.q.consumer.localReader + BitVec.ofNat 64 i) &&& s.q.mask ≠ s.q.writeIndex) ∧
      ∃ t et, Unbounded capacity PublishBatch memory sched s es t et ∧
        t.q.producer.lastPublished ≤ t.q.producer.localWriter ∧
        (s.q.producer.localWriter - s.q.producer.lastPublished).toNat =
          t.q.producer.localWriter - t.q.producer.lastPublished ∧
        t.q.consumer.lastPublished ≤ t.q.consumer.localReader ∧
        (s.q.consumer.localReader - s.q.consumer.lastPublished).toNat =
          t.q.consumer.localReader - t.q.consumer.lastPublished := by
  obtain ⟨t, et, hu, hn, hcap, hleg, ha, hp⟩ := exists_legal hq h
  have ho := hn.inv.ordered
  have hpw := hn.producer.lt
  have hcr := hn.consumer.lt
  have hpm := ho.producer_mark
  have hcm := ho.consumer_mark
  obtain ⟨hpre, hdrop⟩ := hleg.prefix_of_nil
  rw [enqs_ops, deqs_ops, ha, hp] at hpre hdrop
  have hret := reach_returned (Machine.run_reach h) rfl
  have hlen := hleg.length_le (Nat.zero_le _)
  have hpushed := reach_pushed (Machine.run_reach h) rfl
  refine ⟨hpre, ?_, hpushed, ?_, hdrop, ?_, t, et, hu, hpm, ?_, hcm, ?_⟩
  · exact (hret ▸ List.prefix_append _ _ : (popResults es).reduceOption <+: popped es).trans hpre
  · rw [← hdrop, List.length_drop] at hlen
    omega
  · intro data hw i hi
    cases hu.state
    have hroom := hn.inv.producer.room (ProducerPc.atSlot_of_wrap hw)
    rw [slots_wrap hn] at hi
    exact writeIndex_ne hn.inv.shape ho hn.capacity_lt hroom hi
  · rw [hu.state]
    exact Counter.toNat_ofNat_sub hpm (by omega)
  · rw [hu.state]
    exact Counter.toNat_ofNat_sub hcm (by omega)

/-- The consumer's `flush` stores the producer's counter while the producer pushes on. -/
theorem flush_safe_two : ∃ (s : State Bool (BitVec 64)) (es : List (Event Bool (BitVec 64))),
    pushResults es = [true, true] ∧ accepted es = [true, false] ∧ popped es = [true] ∧
      popped es <+: accepted es ∧ (accepted es).length ≤ (popped es).length + 2 ∧
      (accepted es).drop (popped es).length = s.q.slots := by
  have h := @flush_safe Bool 2 3 (fun _ => false) _
    (.push true :: List.replicate 4 (.producer 0) ++
      .consumerFlush :: List.replicate 5 (.consumer 0) ++
      .push false :: List.replicate 4 (.producer 0) ++ List.replicate 3 (.consumer 0) ++
      .pop :: List.replicate 6 (.consumer 0)) _ _ rfl rfl
  exact ⟨_, _, rfl, rfl, rfl, h.1, h.2.2.2.1, h.2.2.2.2.1⟩

end Runs

end FastQ
