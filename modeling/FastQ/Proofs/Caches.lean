import FastQ.Proofs.Calls
import FastQ.Queue.Plain

/-!
# The cached indices cannot be seen

A call on the queue is the call on the plain queue, which has no caches, as long as the caches are
sound: where the shared counter says that the ring is full (or empty), the cached one says so too
(`push_plain`, `pop_plain`). The order of the counters gives this: a cache is never ahead of the
shared counter, and the ring is never more than full (`full_cached`, `empty_cached`). So a stale
cache costs a load, and never changes an answer (`plain_agree`).
-/

namespace FastQ

variable {α : Type}

/-! ## One call, over any counters -/

section Plain

variable {κ : Type} [OfNat κ 1] [Add κ] [Sub κ] [AndOp κ] [LE κ] [DecidableEq κ] [DecidableLE κ]
  (PublishBatch : κ) {q : SPSC α κ}

theorem enqueue_plain (q : SPSC α κ) (data : α) :
    (q.enqueue PublishBatch data).plain = q.plain.enqueue PublishBatch data := by
  have hdue : (q.writeSlot data).advanceWriter.pushDue PublishBatch =
      decide (PublishBatch ≤ q.producer.localWriter + 1 - q.producer.lastPublished) := rfl
  unfold SPSC.enqueue PlainSPSC.enqueue
  simp only [hdue, decide_eq_true_eq, apply_ite SPSC.plain]
  rfl

omit [DecidableEq κ] in
theorem dequeue_plain (q : SPSC α κ) :
    q.plain.dequeue PublishBatch =
      ((q.dequeue PublishBatch).1, (q.dequeue PublishBatch).2.plain) := by
  have hdue : q.advanceReader.popDue PublishBatch =
      decide (PublishBatch ≤ q.consumer.localReader + 1 - q.consumer.lastPublished) := rfl
  unfold SPSC.dequeue PlainSPSC.dequeue
  simp only [hdue, decide_eq_true_eq, apply_ite SPSC.plain]
  rfl

/-- A push with a sound cache is the plain push. -/
theorem push_plain (h : q.plain.isFull = true → q.isFull = true) (data : α) :
    q.plain.push PublishBatch data =
      ((q.push PublishBatch data).1, (q.push PublishBatch data).2.plain) := by
  cases hf : q.isFull with
  | true =>
    have hload : (q.cacheReader q.reader.loadNewest).isFull = q.plain.isFull := rfl
    simp only [SPSC.push, PlainSPSC.push, hf, hload, ↓reduceIte]
    cases q.plain.isFull with
    | true => rfl
    | false =>
      have hq := enqueue_plain PublishBatch (q.cacheReader q.reader.loadNewest) data
      exact congrArg (Prod.mk true) hq.symm
  | false =>
    have hno : q.plain.isFull = false := by
      cases hp : q.plain.isFull with
      | false => rfl
      | true => exact (h hp).symm.trans hf
    simp only [SPSC.push, PlainSPSC.push, hf, hno]
    exact congrArg (Prod.mk true) (enqueue_plain PublishBatch q data).symm

/-- A pop with a sound cache is the plain pop. -/
theorem pop_plain (h : q.plain.isEmpty = true → q.isEmpty = true) :
    q.plain.pop PublishBatch = ((q.pop PublishBatch).1, (q.pop PublishBatch).2.plain) := by
  cases hf : q.isEmpty with
  | true =>
    have hload : (q.cacheWriter q.writer.loadNewest).isEmpty = q.plain.isEmpty := rfl
    simp only [SPSC.pop, PlainSPSC.pop, hf, hload, ↓reduceIte]
    cases q.plain.isEmpty with
    | true => rfl
    | false => exact dequeue_plain PublishBatch (q.cacheWriter q.writer.loadNewest)
  | false =>
    have hno : q.plain.isEmpty = false := by
      cases hp : q.plain.isEmpty with
      | false => rfl
      | true => exact (h hp).symm.trans hf
    simp only [SPSC.pop, PlainSPSC.pop, hf, hno]
    exact dequeue_plain PublishBatch q

end Plain

/-! ## The caches are sound -/

variable {PublishBatch : Nat} {q : SPSC α Nat}

/-- Where the newest value of `reader_` says full, the cached one does. -/
theorem full_cached (ho : Ordered q) (hcap : q.capacity < 2 ^ 64)
    (h : q.wrap.plain.isFull = true) : q.wrap.isFull = true := by
  have := ho.cachedReader_le
  have := ho.reader_le_local
  have := ho.local_le
  have := ho.writer_le
  have hfull : q.producer.localWriter - q.reader.value = q.capacity :=
    (Counter.ofNat_sub_eq_iff (by omega) (by omega) hcap).mp (of_decide_eq_true h)
  rw [isFull_wrap ho hcap]
  exact decide_eq_true (by omega)

/-- Where the newest value of `writer_` says empty, the cached one does. -/
theorem empty_cached (ho : Ordered q) (hcap : q.capacity < 2 ^ 64)
    (h : q.wrap.plain.isEmpty = true) : q.wrap.isEmpty = true := by
  have := ho.cachedWriter_le
  have := ho.writer_le_local
  have := ho.local_le
  have := ho.reader_le
  have hempty : q.consumer.localReader = q.writer.value :=
    (Counter.ofNat_eq_iff (by omega) (by omega)).mp (of_decide_eq_true h)
  rw [isEmpty_wrap ho hcap]
  exact decide_eq_true (by omega)

/-! ## Scripts -/

/-- **One call.** The plain queue answers as the queue does, and the queue without its caches is the
plain queue again. -/
theorem call_plain (hB : PublishBatch < 2 ^ 64) (h : Near (State.start q)) (c : Call α) :
    ∃ (q' : SPSC α Nat) (e : List (Answer α (BitVec 64))),
      q.wrap.call (wrap PublishBatch) c = (q'.wrap, e) ∧
      q.wrap.plain.call (wrap PublishBatch) c = (q'.wrap.plain, e) ∧ Near (State.start q') := by
  have ho : Ordered q := h.inv.ordered
  have hcap : q.capacity < 2 ^ 64 := h.capacity_lt
  cases c with
  | push data =>
    have hw : q.wrap.push (wrap PublishBatch) data = _ := push_wrap hB h data
    refine ⟨(q.push PublishBatch data).2, [.push (q.push PublishBatch data).1], ?_, ?_,
      (push_near hB h data).start⟩
    · simp only [SPSC.call, hw]
    · simp only [PlainSPSC.call, push_plain _ (full_cached ho hcap), hw]
  | pop =>
    have hw : q.wrap.pop (wrap PublishBatch) = _ := pop_wrap hB h
    refine ⟨(q.pop PublishBatch).2, [.pop (q.pop PublishBatch).1], ?_, ?_, (pop_near hB h).start⟩
    · simp only [SPSC.call, hw]
    · simp only [PlainSPSC.call, pop_plain _ (empty_cached ho hcap), hw]
  | flush => exact ⟨q.flush, [], rfl, rfl, flush_near hB h⟩
  | size => exact ⟨q, _, rfl, rfl, h⟩
  | empty => exact ⟨q, _, rfl, rfl, h⟩

theorem script_plain (hB : PublishBatch < 2 ^ 64) (h : Near (State.start q))
    (script : List (Call α)) :
    ∃ (q' : SPSC α Nat) (es : List (Answer α (BitVec 64))),
      (calls (wrap PublishBatch)).run q.wrap script = some (q'.wrap, es) ∧
      (plainCalls (wrap PublishBatch)).run q.wrap.plain script = some (q'.wrap.plain, es) := by
  induction script generalizing q with
  | nil => exact ⟨q, [], rfl, rfl⟩
  | cons c script ih =>
    obtain ⟨q₁, e, hcall, hplain, hn⟩ := call_plain hB h c
    obtain ⟨q', es, hrun, hrunp⟩ := ih hn
    exact ⟨q', e ++ es, Machine.run_step (congrArg some hcall) hrun,
      Machine.run_step (congrArg some hplain) hrunp⟩

section Runs

variable {capacity PublishBatch : BitVec 64} {memory : BitVec 64 → α} {q : SPSC α (BitVec 64)}

/-- **The caches cannot be seen.** Every script of calls that run one at a time gets the same
answers from the queue and from the plain queue, and at its end (so after each of its calls, since
these end a script of their own) the plain queue is the queue without its caches: the buffer, the
shared and the local counters and the marks are the same. -/
theorem plain_agree (hq : SPSC.new capacity memory = .ok q) :
    ∃ p, PlainSPSC.new capacity memory = .ok p ∧ ∀ script : List (Call α), ∃ q' es,
      (calls PublishBatch).run q script = some (q', es) ∧
      (plainCalls PublishBatch).run p script = some (q'.plain, es) := by
  have hnew : PlainSPSC.new capacity memory = .ok q.plain := by
    obtain ⟨rfl, hne, hand⟩ := SPSC.new_eq hq
    exact if_neg (not_or.mpr ⟨hne, not_not.mpr hand⟩)
  refine ⟨q.plain, hnew, fun script => ?_⟩
  obtain ⟨q₀, -, hstart, -, hnear⟩ := new_unwrap hq
  obtain rfl : q = q₀.wrap := congrArg State.q hstart
  obtain ⟨q', es, hrun, hplain⟩ := script_plain PublishBatch.isLt hnear script
  rw [wrap_toNat] at hrun hplain
  exact ⟨q'.wrap, es, hrun, hplain⟩

/-- A ring of one slot with a batch of two: the pop after the `flush` refreshes a stale cache. -/
theorem plain_agree_one : ∃ (p : PlainSPSC Bool (BitVec 64)) (q' : SPSC Bool (BitVec 64))
    (es : List (Answer Bool (BitVec 64))),
    PlainSPSC.new 1 (fun _ => false) = .ok p ∧
      (calls 2).run (SPSC.fresh 1 fun _ => false) [.push true, .pop, .flush, .pop, .size] =
        some (q', es) ∧
      (plainCalls 2).run p [.push true, .pop, .flush, .pop, .size] = some (q'.plain, es) := by
  obtain ⟨p, hp, h⟩ := @plain_agree Bool 1 2 (fun _ => false) _ rfl
  obtain ⟨q', es, hrun, hplain⟩ := h [.push true, .pop, .flush, .pop, .size]
  exact ⟨p, q', es, hp, hrun, hplain⟩

end Runs

end FastQ
