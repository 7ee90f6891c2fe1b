import FastQ.Proofs.Calls
import FastQ.Queue.Script

/-!
# One at a time, the queue is a bounded queue with a lock

Two conditions make the answers of the ring exact: a batch of at most one (every call publishes what
it did), or a `flush` before every call. Then the shared counters are the local ones when a call
starts (`Fresh`), a push fails exactly if `capacity` elements are in the ring and a pop exactly if
none is, as in `boundedMutexQueue` (`call_agree`). `mutex_agree` is the same for scripts of any
length.
-/

namespace FastQ

variable {α : Type}

/-- Between two calls: the 64-bit queue `q` holds the elements `m.q`. -/
structure Holds (q : SPSC α Nat) (m : MutexQueue α) : Prop where
  near : Near (State.start q)
  contents : q.contents = m.q

/-- The shared counters are the local ones. -/
structure Fresh (q : SPSC α Nat) : Prop where
  writer : q.writer.value = q.producer.localWriter
  reader : q.reader.value = q.consumer.localReader

theorem new_fresh {capacity : Nat} {memory : Nat → α} {q : SPSC α Nat}
    (h : SPSC.new capacity memory = .ok q) : Fresh q := by
  obtain ⟨rfl, -⟩ := SPSC.new_eq h
  exact ⟨rfl, rfl⟩

variable {PublishBatch : Nat} {q : SPSC α Nat} {m : MutexQueue α}

/-! ## One call -/

/-- A `flush` makes the counters fresh, and leaves the elements. -/
theorem Holds.flush (h : Holds q m) (hB : PublishBatch < 2 ^ 64) :
    Holds q.flush m ∧ Fresh q.flush :=
  ⟨⟨flush_near hB h.near, h.contents⟩, rfl, rfl⟩

/-- With a batch of at most one, every push publishes (a batch of zero acts like one). -/
theorem enqueue_publishes (hB : PublishBatch ≤ 1)
    (hle : q.producer.lastPublished ≤ q.producer.localWriter) (data : α) :
    q.enqueue PublishBatch data = (q.writeSlot data).advanceWriter.publishWriter := by
  have hd : (q.writeSlot data).advanceWriter.pushDue PublishBatch = true :=
    decide_eq_true (show _ ≤ q.producer.localWriter + 1 - q.producer.lastPublished by omega)
  simp [SPSC.enqueue, hd]

theorem dequeue_publishes (hB : PublishBatch ≤ 1)
    (hle : q.consumer.lastPublished ≤ q.consumer.localReader) :
    q.dequeue PublishBatch = (some q.readSlot, q.advanceReader.publishReader) := by
  have hd : q.advanceReader.popDue PublishBatch = true :=
    decide_eq_true (show _ ≤ q.consumer.localReader + 1 - q.consumer.lastPublished by omega)
  simp [SPSC.dequeue, hd]

/-- With a batch of at most one, a call leaves the counters fresh. -/
theorem push_fresh (hB : PublishBatch ≤ 1) (ho : Ordered q) (hf : Fresh q) (data : α) :
    Fresh (q.push PublishBatch data).2 := by
  rcases push_cases PublishBatch q data with ⟨q', rfl | rfl, -, h⟩ | ⟨-, h⟩
  · rw [h, enqueue_publishes hB ho.producer_mark]
    exact ⟨rfl, hf.reader⟩
  · rw [h, enqueue_publishes (q := q.cacheReader _) hB ho.producer_mark]
    exact ⟨rfl, hf.reader⟩
  · rw [h]
    exact ⟨rfl, hf.reader⟩

theorem pop_fresh (hB : PublishBatch ≤ 1) (ho : Ordered q) (hf : Fresh q) :
    Fresh (q.pop PublishBatch).2 := by
  rcases pop_cases PublishBatch q with ⟨q', rfl | rfl, -, h⟩ | ⟨-, h⟩
  · rw [h, dequeue_publishes hB ho.consumer_mark]
    exact ⟨hf.writer, rfl⟩
  · rw [h, dequeue_publishes (q := q.cacheWriter _) hB ho.consumer_mark]
    exact ⟨hf.writer, rfl⟩
  · rw [h]
    exact ⟨hf.writer, rfl⟩

/-- A push from fresh counters is a `boundedWrite`. -/
theorem push_agree (PublishBatch : Nat) (h : Holds q m) (hf : Fresh q) (data : α) :
    (q.push PublishBatch data).1 = (m.boundedWrite q.capacity data).1 ∧
      (q.push PublishBatch data).2.contents = (m.boundedWrite q.capacity data).2.q := by
  have hs : Shape q := h.near.inv.shape
  have ho : Ordered q := h.near.inv.ordered
  have hl := ho.local_le
  have hlen : m.q.length = q.producer.localWriter - q.consumer.localReader := by
    rw [← h.contents, SPSC.length_contents]
  have hfst := push_fst PublishBatch ho data
  rw [hf.reader] at hfst
  rw [push_contents hs ho, h.contents]
  by_cases hfull : m.q.length = q.capacity
  · have hno : (q.push PublishBatch data).1 = false := by
      rw [hfst, decide_eq_false_iff_not]
      omega
    simp [hno, MutexQueue.boundedWrite, hfull]
  · have hyes : (q.push PublishBatch data).1 = true := by
      rw [hfst, decide_eq_true_iff]
      omega
    simp [hyes, MutexQueue.boundedWrite, hfull, MutexQueue.write]

/-- A pop from fresh counters is a `read`. -/
theorem pop_agree (PublishBatch : Nat) (h : Holds q m) (hf : Fresh q) :
    (q.pop PublishBatch).1 = m.read.1 ∧ (q.pop PublishBatch).2.contents = m.read.2.q := by
  have ho : Ordered q := h.near.inv.ordered
  have hlen : m.q.length = q.producer.localWriter - q.consumer.localReader := by
    rw [← h.contents, SPSC.length_contents]
  have hsome := pop_isSome PublishBatch ho
  have hc := @pop_contents α PublishBatch q h.near.inv.shape ho
  rw [hf.writer] at hsome
  rw [h.contents] at hc
  obtain ⟨l⟩ := m
  cases hp : (q.pop PublishBatch).1 with
  | none =>
    rw [hp] at hsome hc
    have hnone : ¬ q.consumer.localReader < q.producer.localWriter :=
      of_decide_eq_false hsome.symm
    have hnil : l = [] := List.eq_nil_of_length_eq_zero (by simp only at hlen; omega)
    subst hnil
    exact ⟨rfl, (List.append_eq_nil_iff.mp hc.symm).2⟩
  | some data =>
    rw [hp] at hc
    have hcons : l = data :: (q.pop PublishBatch).2.contents := hc
    subst hcons
    exact ⟨rfl, rfl⟩

/-- **One call.** From fresh counters, a push or a pop of the 64-bit queue answers as the bounded
queue does, and the two hold the same elements after it. -/
theorem call_agree (hB : PublishBatch < 2 ^ 64) (h : Holds q m) (hf : Fresh q) {c : Call α}
    (hc : c.access = true) :
    ∃ q' m' e, q.wrap.call (wrap PublishBatch) c = (q'.wrap, e) ∧
      (boundedMutexQueue q.capacity).step m c = some (m', e) ∧ Holds q' m' ∧
      q'.capacity = q.capacity ∧ (PublishBatch ≤ 1 → Fresh q') := by
  cases c with
  | push data =>
    obtain ⟨hok, hcontents⟩ := push_agree PublishBatch h hf data
    have hn := (push_near hB h.near data).start
    refine ⟨(q.push PublishBatch data).2, _, [.push (q.push PublishBatch data).1], ?_, ?_,
      ⟨hn, hcontents⟩, push_capacity _ _ _, fun hB => push_fresh hB h.near.inv.ordered hf data⟩
    · have hw : q.wrap.push (wrap PublishBatch) data = _ := push_wrap hB h.near data
      simp only [SPSC.call, hw]
    · rw [hok]
      rfl
  | pop =>
    obtain ⟨hok, hcontents⟩ := pop_agree PublishBatch h hf
    have hn := (pop_near hB h.near).start
    refine ⟨(q.pop PublishBatch).2, _, [.pop (q.pop PublishBatch).1], ?_, ?_, ⟨hn, hcontents⟩,
      pop_capacity _ _, fun hB => pop_fresh hB h.near.inv.ordered hf⟩
    · have hw : q.wrap.pop (wrap PublishBatch) = _ := pop_wrap hB h.near
      simp only [SPSC.call, hw]
    · rw [hok]
      rfl
  | flush | size | empty => cases hc

/-! ## Scripts -/

/-- A script with the calls `before` before each of its calls, which make the counters fresh, runs
on the 64-bit queue as the script alone does on the bounded queue. `R` is what the calls rely on. -/
theorem script_agree (before : List (Call α)) (R : SPSC α Nat → Prop) (hB : PublishBatch < 2 ^ 64)
    (hbefore : ∀ q m, Holds q m → R q → ∃ q', (calls (wrap PublishBatch)).run q.wrap before =
      some (q'.wrap, []) ∧ Holds q' m ∧ Fresh q' ∧ q'.capacity = q.capacity)
    (hafter : ∀ q, (PublishBatch ≤ 1 → Fresh q) → R q) (script : List (Call α))
    (hscript : ∀ c ∈ script, c.access = true) (h : Holds q m) (hq : R q) :
    ∃ q' m' es, (calls (wrap PublishBatch)).run q.wrap (script.flatMap fun c => before ++ [c]) =
        some (q'.wrap, es) ∧
      (boundedMutexQueue q.capacity).run m script = some (m', es) ∧ Holds q' m' := by
  induction script generalizing q m with
  | nil => exact ⟨q, m, [], rfl, rfl, h⟩
  | cons c script ih =>
    obtain ⟨q₁, hrun₁, h₁, hf, hcap₁⟩ := hbefore q m h hq
    obtain ⟨q₂, m₂, e, hcall, hstep, h₂, hcap₂, hfresh⟩ :=
      call_agree hB h₁ hf (hscript c List.mem_cons_self)
    obtain ⟨q', m', es, hrun, hrunm, h'⟩ :=
      ih (fun c hc => hscript c (List.mem_cons_of_mem _ hc)) h₂ (hafter q₂ hfresh)
    rw [hcap₂, hcap₁] at hrunm
    rw [hcap₁] at hstep
    have hone : (calls (wrap PublishBatch)).run q₁.wrap [c] = some (q₂.wrap, e) := by
      simp [Machine.run_cons, calls, hcall]
    refine ⟨q', m', e ++ es, ?_, ?_, h'⟩
    · rw [List.flatMap_cons]
      exact Machine.run_append (Machine.run_append hrun₁ hone) hrun
    · rw [Machine.run_cons, hstep]
      simp [hrunm]

/-- **Exact agreement with a bounded queue that locks.** With a batch of at most one, or with a
`flush` before every call, every script of pushes and pops gets the same answers from the queue as
from the `MutexQueue` whose `write` is refused exactly when it holds `capacity` elements. -/
theorem mutex_agree {capacity PublishBatch : BitVec 64} {memory : BitVec 64 → α}
    {q : SPSC α (BitVec 64)} {script : List (Call α)} (hq : SPSC.new capacity memory = .ok q)
    (hscript : ∀ c ∈ script, c.access = true) :
    (PublishBatch ≤ 1 → ∃ q' m es, (calls PublishBatch).run q script = some (q', es) ∧
      (boundedMutexQueue capacity.toNat).run ⟨[]⟩ script = some (m, es) ∧ q'.slots = m.q) ∧
    ∃ q' m es, (calls PublishBatch).run q (script.flatMap fun c => [.flush, c]) = some (q', es) ∧
      (boundedMutexQueue capacity.toNat).run ⟨[]⟩ script = some (m, es) ∧ q'.slots = m.q := by
  obtain ⟨q₀, hnew, hstart, hcap, hnear⟩ := new_unwrap hq
  obtain rfl : q = q₀.wrap := congrArg State.q hstart
  have hB := PublishBatch.isLt
  have hholds : Holds q₀ ⟨[]⟩ := ⟨hnear, new_contents hnew⟩
  have hslots : ∀ (q' : SPSC α Nat) (m' : MutexQueue α), Holds q' m' → q'.wrap.slots = m'.q :=
    fun q' m' h => (slots_wrap h.near).trans h.contents
  refine ⟨fun hle => ?_, ?_⟩
  · -- Every call keeps the counters fresh.
    obtain ⟨q', m', es, hrun, hrunm, h⟩ := script_agree [] Fresh hB
      (fun q m h hf => ⟨q, rfl, h, hf, rfl⟩) (fun q hf => hf (BitVec.le_def.mp hle)) script hscript
      hholds (new_fresh hnew)
    rw [wrap_toNat] at hrun
    exact ⟨_, m', es, by simpa using hrun, hcap ▸ hrunm, hslots q' m' h⟩
  · -- The flush before a call makes them fresh.
    obtain ⟨q', m', es, hrun, hrunm, h⟩ := script_agree [.flush] (fun _ => True) hB
      (fun q m h _ => ⟨q.flush, rfl, (h.flush hB).1, (h.flush hB).2, rfl⟩)
      (fun _ _ => trivial) script hscript hholds trivial
    rw [wrap_toNat] at hrun
    exact ⟨_, m', es, hrun, hcap ▸ hrunm, hslots q' m' h⟩

/-- A ring of one slot that publishes every call. -/
theorem mutex_agree_one : ∃ (q' : SPSC Bool (BitVec 64)) (m : MutexQueue Bool)
    (es : List (Answer Bool (BitVec 64))),
    (calls 0).run (SPSC.fresh 1 fun _ => false) [.push true, .push false, .pop, .pop] =
        some (q', es) ∧
      (boundedMutexQueue 1).run ⟨[]⟩ [.push true, .push false, .pop, .pop] = some (m, es) ∧
      q'.slots = m.q :=
  (@mutex_agree Bool 1 0 (fun _ => false) _ [.push true, .push false, .pop, .pop] rfl
    (by decide)).1 (by decide)

end FastQ
