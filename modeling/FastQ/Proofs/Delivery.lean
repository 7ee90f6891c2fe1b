import FastQ.Lib.Liveness
import FastQ.Proofs.Calls
import FastQ.Proofs.Exclusion
import FastQ.Proofs.Lag
import FastQ.Proofs.Traffic

/-!
# Every accepted element is delivered

Two parties that go on for ever, whatever the batch size and the capacity: the producer makes one
push after the other, the consumer one pop after the other, and a store of a shared counter is seen
after finite time (`Timely`). Then every accepted element is popped, and the calls succeed without
end (`delivery`).

The proof assumes that the pops come to an end. Then so do the pushes, since the ring is bounded,
and both local counters are constant from some moment on.

* `ProducerPc.toStore`, `ConsumerPc.toStore`: how far a party is from publishing its local counter
  or advancing it. A party that never succeeds again fails for ever, and a failed call publishes, so
  both shared counters reach the local ones (`Running.published`).
* `Running.fresh`: a load gives no value older than the stores that it has to see, so from some
  moment on both parties load the local counters of the other side.
* `ProducerPc.toAccept`, `ConsumerPc.toTake`: how far a party is from advancing, when what it loads
  leaves room, or an element. One of the two is the case, which is the contradiction.
-/

namespace FastQ

variable {α : Type}

/-! ## Parties that go on for ever -/

/-- The action is one of the producer's. -/
def Act.ofProducer : Act α → Bool
  | .push _ | .producerFlush | .producer _ => true
  | _ => false

/-- The action is one of the consumer's. -/
def Act.ofConsumer : Act α → Bool
  | .pop | .consumerFlush | .consumer _ => true
  | _ => false

section Running

variable {κ : Type} [OfNat κ 1] [Add κ] [Sub κ] [AndOp κ] [LE κ] [DecidableEq κ] [DecidableLE κ]
  {PublishBatch : κ}

/-- A store becomes visible after finite time: what is the newest value at the moment `n`, or a
newer one, is what all loads give from some moment on. -/
structure Timely (x : (spsc (α := α) PublishBatch).Execution) : Prop where
  reader : ∀ n, ∃ N, ∀ m k data, N ≤ m → x.act m = some (.producer k) →
    (x.state m).producer = .loadReader data →
    k + (x.history n).countP Event.storesReader ≤ (x.history m).countP Event.storesReader
  writer : ∀ n, ∃ N, ∀ m k, N ≤ m → x.act m = some (.consumer k) →
    (x.state m).consumer = .loadWriter →
    k + (x.history n).countP Event.storesWriter ≤ (x.history m).countP Event.storesWriter

/-- Both parties go on for ever, without a `flush` during a call of the other one. -/
structure Running (x : (spsc (α := α) PublishBatch).Execution) : Prop where
  calm : ∀ n, ∀ a ∈ x.act n, a.calm = true
  producer : x.Often (·.ofProducer = true)
  consumer : x.Often (·.ofConsumer = true)
  timely : Timely x

end Running

/-- The invariants of a state without a `flush` in progress. -/
structure Regular (s : State α Nat) : Prop where
  inv : Inv s
  calm : Calm s
  kept : Kept s

/-! ## How far a party is -/

section Ranks

variable {κ : Type}

/-- How many accesses the producer needs to store or to advance `localWriter_`. -/
def ProducerPc.toStore : ProducerPc α κ → Nat
  | .increment _ | .publishWriter _ (.store _) => 0
  | .writeSlot _ | .publishWriter _ .read => 1
  | .fullRecheck _ => 2
  | .loadReader _ => 3
  | .fullCheck _ => 4
  | .idle _ => 5
  | .batchCheck | .publishWriter _ (.mark _) => 6
  | .publishWriter _ .readAgain => 7
  | .publishReader _ => 0

/-- How many accesses the consumer needs to store or to advance `localReader_`. -/
def ConsumerPc.toStore : ConsumerPc α κ → Nat
  | .increment _ | .publishReader _ (.store _) => 0
  | .readSlot | .publishReader _ .read => 1
  | .emptyRecheck => 2
  | .loadWriter => 3
  | .emptyCheck => 4
  | .idle _ => 5
  | .batchCheck _ | .publishReader _ (.mark _) => 6
  | .publishReader _ .readAgain => 7
  | .publishWriter _ => 0

variable [Sub κ] [DecidableEq κ]

/-- How many accesses the producer needs to advance `localWriter_`, if its next load leaves room. -/
def ProducerPc.toAccept (q : SPSC α κ) : ProducerPc α κ → Nat
  | .increment _ => 0
  | .writeSlot _ => 1
  | .fullRecheck _ => if q.isFull then 11 else 2
  | .loadReader _ => 3
  | .fullCheck _ => 4
  | .idle _ => 5
  | .publishWriter _ (.mark _) => 6
  | .publishWriter _ .readAgain => 7
  | .publishWriter _ (.store _) => 8
  | .publishWriter _ .read => 9
  | .batchCheck => 10
  | .publishReader _ => 0

/-- How many accesses the consumer needs to advance `localReader_`, if its next load gives an
element. -/
def ConsumerPc.toTake (q : SPSC α κ) : ConsumerPc α κ → Nat
  | .increment _ => 0
  | .readSlot => 1
  | .emptyRecheck => if q.isEmpty then 11 else 2
  | .loadWriter => 3
  | .emptyCheck => 4
  | .idle _ => 5
  | .publishReader _ (.mark _) => 6
  | .publishReader _ .readAgain => 7
  | .publishReader _ (.store _) => 8
  | .publishReader _ .read => 9
  | .batchCheck _ => 10
  | .publishWriter _ => 0

end Ranks

section Others

variable {κ : Type} [OfNat κ 1] [Add κ] [Sub κ] [AndOp κ] [LE κ] [DecidableEq κ] [DecidableLE κ]
  {PublishBatch : κ} {s s' : State α κ} {a : Act α} {e : List (Event α κ)}

/-- A step of another thread leaves what the producer's tests read. -/
theorem Move.producer_same (hm : Move PublishBatch s a s' e) (ha : a.ofProducer = false) :
    s'.producer = s.producer ∧ s'.q.isFull = s.q.isFull := by
  cases hm with
  | push | producerFlush | producer => cases ha
  | consumer hm => cases hm <;> exact ⟨rfl, rfl⟩
  | _ => exact ⟨rfl, rfl⟩

/-- A step of another thread leaves what the consumer's tests read. -/
theorem Move.consumer_same (hm : Move PublishBatch s a s' e) (ha : a.ofConsumer = false) :
    s'.consumer = s.consumer ∧ s'.q.isEmpty = s.q.isEmpty := by
  cases hm with
  | pop | consumerFlush | consumer => cases ha
  | producer hm => cases hm <;> exact ⟨rfl, rfl⟩
  | _ => exact ⟨rfl, rfl⟩

end Others

section Moves

variable {PublishBatch k : Nat} {q q' : SPSC α Nat} {e : List (Event α Nat)}

/-- The producer stores, advances, or comes nearer. -/
theorem ProducerMove.toStore {p p' : ProducerPc α Nat}
    (hm : ProducerMove PublishBatch k q p q' p' e) (hf : p.flushing = false)
    (hp : ProducerOk q p) : q'.producer.localWriter = q.producer.localWriter + 1 ∨
      q'.writer.value = q.producer.localWriter ∨ p'.toStore < p.toStore := by
  cases hm with
  | increment => exact .inl rfl
  | storeWriter => exact .inr (.inl hp)
  | readReader | storeReader | readReaderAgain | markReader => cases hf
  | _ => exact .inr (.inr (by simp [ProducerPc.toStore]))

/-- The consumer stores, advances, or comes nearer. -/
theorem ConsumerMove.toStore {c c' : ConsumerPc α Nat}
    (hm : ConsumerMove PublishBatch k q c q' c' e) (hf : c.flushing = false)
    (hc : ConsumerOk q c) : q'.consumer.localReader = q.consumer.localReader + 1 ∨
      q'.reader.value = q.consumer.localReader ∨ c'.toStore < c.toStore := by
  cases hm with
  | increment => exact .inl rfl
  | storeReader => exact .inr (.inl hc)
  | readWriter | storeWriter | readWriterAgain | markWriter | markReaderFlush => cases hf
  | _ => exact .inr (.inr (by simp [ConsumerPc.toStore]))

/-- The producer advances or comes nearer, if what it loads leaves room. -/
theorem ProducerMove.toAccept {p p' : ProducerPc α Nat}
    (hm : ProducerMove PublishBatch k q p q' p' e) (hf : p.flushing = false)
    (hload : ∀ data x, p = .loadReader data → q.reader.load k = some x →
      q.producer.localWriter - x.1 ≠ q.capacity) :
    q'.producer.localWriter = q.producer.localWriter + 1 ∨ p'.toAccept q' < p.toAccept q := by
  cases hm with
  | increment => exact .inl rfl
  | readReader | storeReader | readReaderAgain | markReader => cases hf
  | @load data x hl =>
    have hroom : (q.cacheReader x).isFull = false := decide_eq_false (hload data x rfl hl)
    exact .inr (by simp [ProducerPc.toAccept, hroom])
  | refuse hfull | roomNow hfull => exact .inr (by simp [ProducerPc.toAccept, hfull])
  | _ => exact .inr (by simp [ProducerPc.toAccept])

/-- The consumer advances or comes nearer, if what it loads counts an element. -/
theorem ConsumerMove.toTake {c c' : ConsumerPc α Nat}
    (hm : ConsumerMove PublishBatch k q c q' c' e) (hf : c.flushing = false)
    (hload : ∀ x, c = .loadWriter → q.writer.load k = some x → q.consumer.localReader ≠ x.1) :
    q'.consumer.localReader = q.consumer.localReader + 1 ∨ c'.toTake q' < c.toTake q := by
  cases hm with
  | increment => exact .inl rfl
  | readWriter | storeWriter | readWriterAgain | markWriter | markReaderFlush => cases hf
  | @load x hl =>
    have helement : (q.cacheWriter x).isEmpty = false := decide_eq_false (hload x rfl hl)
    exact .inr (by simp [ConsumerPc.toTake, helement])
  | refuse hempty | elementNow hempty => exact .inr (by simp [ConsumerPc.toTake, hempty])
  | _ => exact .inr (by simp [ConsumerPc.toTake])

theorem ProducerPc.toAccept_congr (h : q'.isFull = q.isFull) (p : ProducerPc α Nat) :
    p.toAccept q' = p.toAccept q := by
  cases p with
  | publishWriter r x => cases x <;> rfl
  | _ => simp [toAccept, h]

theorem ConsumerPc.toTake_congr (h : q'.isEmpty = q.isEmpty) (c : ConsumerPc α Nat) :
    c.toTake q' = c.toTake q := by
  cases c with
  | publishReader r x => cases x <;> rfl
  | _ => simp [toTake, h]

/-- A step of the producer, calls included: it stores, advances, or comes nearer. -/
theorem Move.producer_toStore {s s' : State α Nat} {a : Act α} (hm : Move PublishBatch s a s' e)
    (ha : a.ofProducer = true) (hac : a.calm = true) (hi : Inv s) (hc : Calm s) :
    s'.q.producer.localWriter = s.q.producer.localWriter + 1 ∨
      s'.q.writer.value = s.q.producer.localWriter ∨ s'.producer.toStore < s.producer.toStore := by
  cases hm with
  | push => exact .inr (.inr (by simp [ProducerPc.toStore]))
  | producer hm => exact hm.toStore hc.producer hi.producer
  | producerFlush => cases hac
  | _ => cases ha

/-- A step of the consumer, calls included: it stores, advances, or comes nearer. -/
theorem Move.consumer_toStore {s s' : State α Nat} {a : Act α} (hm : Move PublishBatch s a s' e)
    (ha : a.ofConsumer = true) (hac : a.calm = true) (hi : Inv s) (hc : Calm s) :
    s'.q.consumer.localReader = s.q.consumer.localReader + 1 ∨
      s'.q.reader.value = s.q.consumer.localReader ∨ s'.consumer.toStore < s.consumer.toStore := by
  cases hm with
  | pop => exact .inr (.inr (by simp [ConsumerPc.toStore]))
  | consumer hm => exact hm.toStore hc.consumer hi.consumer
  | consumerFlush => cases hac
  | _ => cases ha

/-- A step of the producer, calls included: it advances or comes nearer, if what it loads leaves
room. -/
theorem Move.producer_toAccept {s s' : State α Nat} {a : Act α} (hm : Move PublishBatch s a s' e)
    (ha : a.ofProducer = true) (hac : a.calm = true) (hc : Calm s)
    (hload : ∀ k data x, a = .producer k → s.producer = .loadReader data →
      s.q.reader.load k = some x → s.q.producer.localWriter - x.1 ≠ s.q.capacity) :
    s'.q.producer.localWriter = s.q.producer.localWriter + 1 ∨
      s'.producer.toAccept s'.q < s.producer.toAccept s.q := by
  cases hm with
  | push => exact .inr (by simp [ProducerPc.toAccept])
  | producer hm => exact hm.toAccept hc.producer fun data x => hload _ data x rfl
  | producerFlush => cases hac
  | _ => cases ha

/-- A step of the consumer, calls included: it advances or comes nearer, if what it loads counts an
element. -/
theorem Move.consumer_toTake {s s' : State α Nat} {a : Act α} (hm : Move PublishBatch s a s' e)
    (ha : a.ofConsumer = true) (hac : a.calm = true) (hc : Calm s)
    (hload : ∀ k x, a = .consumer k → s.consumer = .loadWriter →
      s.q.writer.load k = some x → s.q.consumer.localReader ≠ x.1) :
    s'.q.consumer.localReader = s.q.consumer.localReader + 1 ∨
      s'.consumer.toTake s'.q < s.consumer.toTake s.q := by
  cases hm with
  | pop => exact .inr (by simp [ConsumerPc.toTake])
  | consumer hm => exact hm.toTake hc.consumer fun x => hload _ x rfl
  | consumerFlush => cases hac
  | _ => cases ha

/-! ## What a load has to see -/

/-- The newest `d + 1` values that may be seen are at least `v`. -/
def Recent (v d : Nat) (a : Atomic Nat) : Prop := ∀ i y, i ≤ d → a.visible[i]? = some y → v ≤ y

theorem Recent.newest (a : Atomic Nat) : Recent a.value 0 a := by
  intro i y hi hy
  obtain rfl : i = 0 := by omega
  cases hy
  exact Nat.le_refl _

theorem Recent.store {v d x : Nat} {a : Atomic Nat} (h : Recent v d a) (hx : v ≤ x) :
    Recent v (d + 1) (a.store x) := by
  intro i y hi hy
  cases i with
  | zero =>
    cases hy
    exact hx
  | succ i => exact h i y (by omega) hy

theorem Recent.load {v d : Nat} {a : Atomic Nat} {p : Nat × Atomic Nat} (h : Recent v d a)
    (hl : a.load k = some p) : Recent v d p.2 := by
  intro i y hi hy
  rw [(Atomic.load_visible hl).2, List.getElem?_take] at hy
  split at hy
  · exact h i y hi hy
  · cases hy

/-- A step keeps what the producer's loads have to see, and adds what it stores. -/
theorem Move.fresh_reader {s s' : State α Nat} {a : Act α} {v d : Nat}
    (hm : Move PublishBatch s a s' e) (hi : Inv s) (hc : Calm s)
    (h : Recent v d s.q.reader) : Recent v (d + e.countP Event.storesReader) s'.q.reader := by
  have hv : v ≤ s.q.consumer.localReader :=
    Nat.le_trans (h 0 _ (Nat.zero_le _) rfl) hi.ordered.reader_le_local
  cases hm with
  | producer hm =>
    cases hm with
    | load hl => exact h.load hl
    | readReader | storeReader | readReaderAgain | markReader => cases hc.producer
    | _ => exact h
  | consumer hm =>
    cases hm with
    | @storeReader r x => exact h.store (Nat.le_trans hv (Nat.le_of_eq hi.consumer.symm))
    | readWriter | storeWriter | readWriterAgain | markWriter | markReaderFlush =>
      cases hc.consumer
    | _ => exact h
  | flush => exact h.store hv
  | _ => exact h

/-- A step keeps what the consumer's loads have to see, and adds what it stores. -/
theorem Move.fresh_writer {s s' : State α Nat} {a : Act α} {v d : Nat}
    (hm : Move PublishBatch s a s' e) (hi : Inv s) (hc : Calm s)
    (h : Recent v d s.q.writer) : Recent v (d + e.countP Event.storesWriter) s'.q.writer := by
  have hv : v ≤ s.q.producer.localWriter :=
    Nat.le_trans (h 0 _ (Nat.zero_le _) rfl) hi.ordered.writer_le_local
  cases hm with
  | producer hm =>
    cases hm with
    | @storeWriter r x => exact h.store (Nat.le_trans hv (Nat.le_of_eq hi.producer.symm))
    | readReader | storeReader | readReaderAgain | markReader => cases hc.producer
    | _ => exact h
  | consumer hm =>
    cases hm with
    | load hl => exact h.load hl
    | readWriter | storeWriter | readWriterAgain | markWriter | markReaderFlush =>
      cases hc.consumer
    | _ => exact h
  | flush => exact h.store hv
  | _ => exact h

end Moves

/-! ## The end of the counters -/

namespace Running

variable {PublishBatch : Nat} {x : (spsc (α := α) PublishBatch).Execution} {n m N r w : Nat}

/-- What a load from the moment `m` on gives, if it has to see the moment `n`. -/
theorem fresh_reader (hs : ∀ n, Regular (x.state n)) (hle : n ≤ m) :
    Recent (x.state n).q.reader.value
      ((x.history m).countP Event.storesReader - (x.history n).countP Event.storesReader)
      (x.state m).q.reader := by
  induction m, hle using Nat.le_induction with
  | base => rw [Nat.sub_self]; exact .newest _
  | succ m hm ih =>
    have hpre := (x.history_mono hm).sublist.countP_le (p := Event.storesReader)
    rw [x.history_succ, List.countP_append, Nat.sub_add_comm hpre]
    cases ha : x.act m with
    | none =>
      obtain ⟨hst, he⟩ := x.wait ha
      rw [hst, he]
      exact ih
    | some a => exact (step_move (x.next ha)).fresh_reader (hs m).inv (hs m).calm ih

theorem fresh_writer (hs : ∀ n, Regular (x.state n)) (hle : n ≤ m) :
    Recent (x.state n).q.writer.value
      ((x.history m).countP Event.storesWriter - (x.history n).countP Event.storesWriter)
      (x.state m).q.writer := by
  induction m, hle using Nat.le_induction with
  | base => rw [Nat.sub_self]; exact .newest _
  | succ m hm ih =>
    have hpre := (x.history_mono hm).sublist.countP_le (p := Event.storesWriter)
    rw [x.history_succ, List.countP_append, Nat.sub_add_comm hpre]
    cases ha : x.act m with
    | none =>
      obtain ⟨hst, he⟩ := x.wait ha
      rw [hst, he]
      exact ih
    | some a => exact (step_move (x.next ha)).fresh_writer (hs m).inv (hs m).calm ih

theorem capacity_eq : (x.state n).q.capacity = (x.state 0).q.capacity :=
  reach_capacity (x.reach_any n)

/-- The shared counters do not go back. -/
theorem grows (hs : ∀ n, Regular (x.state n)) (hle : n ≤ m) :
    Grows (x.state n).q (x.state m).q := by
  induction m, hle using Nat.le_induction with
  | base => exact .of_eq rfl rfl
  | succ m _ ih =>
    cases ha : x.act m with
    | none => rwa [(x.wait ha).1]
    | some a =>
      have h := hs m
      exact ih.trans ((step_move (x.next ha)).kept h.inv h.kept (h.calm.unraced a)).2

/-- A producer that never advances again publishes what it has accepted. -/
theorem published_writer (hx : Running x) (hs : ∀ n, Regular (x.state n))
    (hw : ∀ n, N ≤ n → (x.state n).q.producer.localWriter = w) :
    ∃ N', N ≤ N' ∧ ∀ n, N' ≤ n → (x.state n).q.writer.value = w := by
  have hstored : ∃ k, N ≤ k ∧ (x.state (k + 1)).q.writer.value = w := by
    refine hx.producer.eventually (fun s => s.producer.toStore) (fun n a hn ha hP => ?_)
      fun n a hn ha hP => .inr (Nat.le_of_eq ?_)
    · have hw₀ := hw n hn
      have hw₁ := hw (n + 1) (by omega)
      rcases (step_move (x.next ha)).producer_toStore hP (hx.calm n a ha) (hs n).inv
        (hs n).calm with h | h | h
      · omega
      · exact .inl (h.trans hw₀)
      · exact .inr h
    · rw [((step_move (x.next ha)).producer_same (Bool.eq_false_of_not_eq_true hP)).1]
  obtain ⟨k, hk, hstored⟩ := hstored
  refine ⟨k + 1, by omega, fun n hn => Nat.le_antisymm ?_ ?_⟩
  · exact (hs n).inv.ordered.writer_le_local.trans_eq (hw n (by omega))
  · exact hstored.symm.trans_le (grows hs hn).writer

/-- A consumer that never advances again publishes what it has popped. -/
theorem published_reader (hx : Running x) (hs : ∀ n, Regular (x.state n))
    (hr : ∀ n, N ≤ n → (x.state n).q.consumer.localReader = r) :
    ∃ N', N ≤ N' ∧ ∀ n, N' ≤ n → (x.state n).q.reader.value = r := by
  have hstored : ∃ k, N ≤ k ∧ (x.state (k + 1)).q.reader.value = r := by
    refine hx.consumer.eventually (fun s => s.consumer.toStore) (fun n a hn ha hP => ?_)
      fun n a hn ha hP => .inr (Nat.le_of_eq ?_)
    · have hr₀ := hr n hn
      have hr₁ := hr (n + 1) (by omega)
      rcases (step_move (x.next ha)).consumer_toStore hP (hx.calm n a ha) (hs n).inv
        (hs n).calm with h | h | h
      · omega
      · exact .inl (h.trans hr₀)
      · exact .inr h
    · rw [((step_move (x.next ha)).consumer_same (Bool.eq_false_of_not_eq_true hP)).1]
  obtain ⟨k, hk, hstored⟩ := hstored
  refine ⟨k + 1, by omega, fun n hn => Nat.le_antisymm ?_ ?_⟩
  · exact (hs n).inv.ordered.reader_le_local.trans_eq (hr n (by omega))
  · exact hstored.symm.trans_le (grows hs hn).reader

/-- A consumer that never advances again has popped all that the producer accepts. -/
theorem empty_in_the_end (hx : Running x) (hs : ∀ n, Regular (x.state n))
    (hr : ∀ n, N ≤ n → (x.state n).q.consumer.localReader = r)
    (hw : ∀ n, N ≤ n → (x.state n).q.producer.localWriter = w) : w ≤ r := by
  by_contra hlt
  obtain ⟨N₁, hN₁, hwriter⟩ := hx.published_writer hs hw
  obtain ⟨N₂, htimely⟩ := hx.timely.writer N₁
  have hnever : ∃ k, max N₁ N₂ ≤ k ∧ False := by
    refine hx.consumer.eventually (fun s => s.consumer.toTake s.q) (fun n a hn ha hP => .inr ?_)
      fun n a hn ha hP => .inr (Nat.le_of_eq ?_)
    · have hr₀ := hr n (by omega)
      have hr₁ := hr (n + 1) (by omega)
      have hmove := step_move (x.next ha)
      refine (hmove.consumer_toTake hP (hx.calm n a ha) (hs n).calm ?_).resolve_left (by omega)
      rintro k p rfl hc hl
      have hsee := htimely n k (by omega) ha hc
      have hv := fresh_writer hs (show N₁ ≤ n by omega) k p.1 (by omega) (Atomic.load_visible hl).1
      rw [hwriter N₁ (Nat.le_refl _)] at hv
      omega
    · have h := (step_move (x.next ha)).consumer_same (Bool.eq_false_of_not_eq_true hP)
      rw [h.1, ConsumerPc.toTake_congr h.2]
  obtain ⟨-, -, hfalse⟩ := hnever
  exact hfalse

/-- A producer that never advances again has filled the ring. -/
theorem full_in_the_end (hx : Running x) (hs : ∀ n, Regular (x.state n))
    (hr : ∀ n, N ≤ n → (x.state n).q.consumer.localReader = r)
    (hw : ∀ n, N ≤ n → (x.state n).q.producer.localWriter = w) :
    r + (x.state 0).q.capacity ≤ w := by
  by_contra hlt
  obtain ⟨N₁, hN₁, hreader⟩ := hx.published_reader hs hr
  obtain ⟨N₂, htimely⟩ := hx.timely.reader N₁
  have hnever : ∃ k, max N₁ N₂ ≤ k ∧ False := by
    refine hx.producer.eventually (fun s => s.producer.toAccept s.q) (fun n a hn ha hP => .inr ?_)
      fun n a hn ha hP => .inr (Nat.le_of_eq ?_)
    · have hw₀ := hw n (by omega)
      have hw₁ := hw (n + 1) (by omega)
      refine ((step_move (x.next ha)).producer_toAccept hP (hx.calm n a ha) (hs n).calm
        ?_).resolve_left (by omega)
      rintro k data p rfl hp hl
      have hsee := htimely n k data (by omega) ha hp
      have hv := fresh_reader hs (show N₁ ≤ n by omega) k p.1 (by omega) (Atomic.load_visible hl).1
      have hpos := (hs n).inv.shape.pos
      rw [hreader N₁ (Nat.le_refl _)] at hv
      rw [hw₀]
      rw [capacity_eq] at hpos ⊢
      omega
    · have h := (step_move (x.next ha)).producer_same (Bool.eq_false_of_not_eq_true hP)
      rw [h.1, ProducerPc.toAccept_congr h.2]
  obtain ⟨-, -, hfalse⟩ := hnever
  exact hfalse

/-- **The pops never come to an end.** -/
theorem pops_unbounded (hx : Running x) (hs : ∀ n, Regular (x.state n)) (b : Nat) :
    ∃ n, b ≤ (x.state n).q.consumer.localReader := by
  by_contra hno
  have hb : ∀ n, (x.state n).q.consumer.localReader ≤ b := fun n => by
    by_contra hlt
    exact hno ⟨n, by omega⟩
  -- The counters only grow, so they are constant in the end.
  have hmono : ∀ n, (x.state n).q.consumer.localReader ≤ (x.state (n + 1)).q.consumer.localReader ∧
      (x.state n).q.producer.localWriter ≤ (x.state (n + 1)).q.producer.localWriter := by
    intro n
    cases ha : x.act n with
    | none => rw [(x.wait ha).1]; exact ⟨Nat.le_refl _, Nat.le_refl _⟩
    | some a =>
      obtain ⟨hw, hr⟩ := (step_move (x.next ha)).counts
      omega
  have hw : ∀ n, (x.state n).q.producer.localWriter ≤ b + (x.state 0).q.capacity := fun n => by
    have hle := (hs n).inv.ordered.local_le
    rw [capacity_eq] at hle
    have := hb n
    omega
  obtain ⟨N₁, hN₁⟩ := exists_forall_eq (fun n => (hmono n).1) hb
  obtain ⟨N₂, hN₂⟩ := exists_forall_eq (fun n => (hmono n).2) hw
  have hr' : ∀ n, max N₁ N₂ ≤ n → (x.state n).q.consumer.localReader = _ :=
    fun n hn => hN₁ n (by omega)
  have hw' : ∀ n, max N₁ N₂ ≤ n → (x.state n).q.producer.localWriter = _ :=
    fun n hn => hN₂ n (by omega)
  have hempty := hx.empty_in_the_end hs hr' hw'
  have hfull := hx.full_in_the_end hs hr' hw'
  have hpos := (hs 0).inv.shape.pos
  omega

end Running

/-! ## Delivery -/

section Runs

variable {capacity PublishBatch : BitVec 64} {memory : BitVec 64 → α} {q : SPSC α (BitVec 64)}

/-- An execution of the queue, with the counters read as unbounded numbers. -/
theorem exists_unbounded_execution (hq : SPSC.new capacity memory = .ok q)
    (x : (spsc (α := α) PublishBatch).Execution) (h₀ : x.state 0 = State.start q)
    (hcalm : ∀ n, ∀ a ∈ x.act n, a.calm = true) :
    ∃ y : (spsc (α := α) PublishBatch.toNat).Execution, y.act = x.act ∧
      (∀ n, Regular (y.state n) ∧ x.state n = (y.state n).wrap ∧
        x.history n = (y.history n).map Event.wrap) ∧
      ∀ n, Published (y.state n) (y.history n) := by
  obtain ⟨q₀, hnew, hstart, -, hnear⟩ := new_unwrap hq
  have hstep : ∀ (s : State α Nat) a, Near s → (spsc PublishBatch).step s.wrap a =
      ((spsc PublishBatch.toNat).step s a).map (Machine.image State.wrap Event.wrap) := by
    intro s a hs
    have h := step_wrap PublishBatch.isLt hs (a := a)
    rwa [wrap_toNat] at h
  obtain ⟨y, hy₀, hyact, hy⟩ := Machine.Execution.exists_image hstep
    (fun _ _ _ _ hs hst => step_near PublishBatch.isLt hs hst) x (h₀.trans hstart) hnear
  have hreach : ∀ n, (spsc PublishBatch.toNat).Reach (fun _ a => a.calm = true) (y.state 0)
      (y.state n) (y.history n) := y.reach fun n a ha => hcalm n a (hyact ▸ ha)
  rw [hy₀] at hreach
  refine ⟨y, hyact, fun n => ⟨?_, (hy n).2⟩, fun n => reach_published hnew (hreach n)⟩
  have h := reach_steady PublishBatch.isLt hnew hnear (hreach n) fun _ _ ha => ha
  exact ⟨h.near.inv, h.calm, h.kept⟩

theorem countP_wrap {f : Event α (BitVec 64) → Bool} {g : Event α Nat → Bool}
    (h : ∀ e, f e.wrap = g e) (es : List (Event α Nat)) :
    (es.map Event.wrap).countP f = es.countP g := by
  rw [List.countP_map]
  exact List.countP_congr fun e _ => by rw [Function.comp_apply, h e]

/-- The reading of a run that goes on for ever goes on for ever. -/
theorem Running.unwrap {x : (spsc (α := α) PublishBatch).Execution}
    {y : (spsc (α := α) PublishBatch.toNat).Execution} (hx : Running x) (hact : y.act = x.act)
    (hy : ∀ n, x.state n = (y.state n).wrap ∧ x.history n = (y.history n).map Event.wrap) :
    Running y := by
  have hreader : ∀ n, (x.history n).countP Event.storesReader =
      (y.history n).countP Event.storesReader := fun n => by
    rw [(hy n).2]
    exact countP_wrap (fun e => by cases e <;> rfl) _
  have hwriter : ∀ n, (x.history n).countP Event.storesWriter =
      (y.history n).countP Event.storesWriter := fun n => by
    rw [(hy n).2]
    exact countP_wrap (fun e => by cases e <;> rfl) _
  refine ⟨?_, ?_, ?_, fun n => ?_, fun n => ?_⟩
  · rw [hact]
    exact hx.calm
  · unfold Machine.Execution.Often
    rw [hact]
    exact hx.producer
  · unfold Machine.Execution.Often
    rw [hact]
    exact hx.consumer
  · obtain ⟨N, hN⟩ := hx.timely.reader n
    refine ⟨N, fun m k data hm ha hp => ?_⟩
    rw [← hreader, ← hreader]
    exact hN m k data hm (hact ▸ ha) (by rw [(hy m).1, State.wrap, hp]; rfl)
  · obtain ⟨N, hN⟩ := hx.timely.writer n
    refine ⟨N, fun m k hm ha hc => ?_⟩
    rw [← hwriter, ← hwriter]
    exact hN m k hm (hact ▸ ha) (by rw [(hy m).1, State.wrap, hc]; rfl)

/-- **Every accepted element is delivered.** Two parties go on for ever, in any order of their
steps, the producer with pushes and the consumer with pops, and each store is seen after finite
time. Whatever the capacity and the batch size, what is accepted at a moment `n` is popped later, in
its order, and the number of pops grows without end. -/
theorem delivery (hq : SPSC.new capacity memory = .ok q)
    (x : (spsc (α := α) PublishBatch).Execution) (h₀ : x.state 0 = State.start q)
    (hx : Running x) (n : Nat) :
    ∃ k, accepted (x.history n) <+: popped (x.history k) ∧ n ≤ (popped (x.history k)).length := by
  obtain ⟨y, hact, hy, hpub⟩ := exists_unbounded_execution hq x h₀ hx.calm
  have hrun := hx.unwrap hact fun n => (hy n).2
  obtain ⟨k, hk⟩ := hrun.pops_unbounded (fun n => (hy n).1)
    (max n (accepted (x.history n)).length)
  have hpop : (popped (x.history k)).length = (y.state k).q.consumer.localReader := by
    rw [(hy k).2.2, popped_wrap, (hpub k).popped]
  refine ⟨k, ?_, by omega⟩
  -- Both are prefixes of what is accepted at the later of the two moments.
  have hfifo : popped (x.history k) <+: accepted (x.history k) := by
    have hr := x.reach_any k
    obtain ⟨sched, hsched⟩ := hr.run
    rw [h₀] at hsched
    obtain ⟨t, et, -, -, -, hleg, ha, hp⟩ := exists_legal hq hsched
    have hpre := hleg.prefix_of_nil.1
    rwa [enqs_ops, deqs_ops, ha, hp] at hpre
  have hacc : ∀ i, i ≤ max n k → accepted (x.history i) <+: accepted (x.history (max n k)) :=
    fun i hi => (x.history_mono hi).filterMap _
  exact List.prefix_of_prefix_length_le (hacc n (by omega)) (hfifo.trans (hacc k (by omega)))
    (by omega)

end Runs

/-! ## Two parties that take turns -/

section Turns

variable {κ : Type}

/-- The next step of a producer that pushes `data` again and again, with fresh loads. -/
def State.producerNext (s : State α κ) (data : α) : Act α :=
  match s.producer with
  | .idle _ => .push data
  | _ => .producer 0

/-- The next step of a consumer that pops again and again, with fresh loads. -/
def State.consumerNext (s : State α κ) : Act α :=
  match s.consumer with
  | .idle _ => .pop
  | _ => .consumer 0

/-- The two parties in turn. -/
def State.turn (data : α) (n : Nat) (s : State α κ) : Act α :=
  if n % 2 = 0 then s.producerNext data else s.consumerNext

theorem State.turn_producer (data : α) {n : Nat} (hn : n % 2 = 0) (s : State α κ) :
    (s.turn data n).ofProducer = true := by
  obtain ⟨q, p, c⟩ := s
  simp only [turn, hn, ↓reduceIte, producerNext]
  cases p <;> rfl

theorem State.turn_consumer (data : α) {n : Nat} (hn : n % 2 = 1) (s : State α κ) :
    (s.turn data n).ofConsumer = true := by
  obtain ⟨q, p, c⟩ := s
  simp only [turn, hn, Nat.one_ne_zero, ↓reduceIte, consumerNext]
  cases c <;> rfl

theorem State.turn_calm (data : α) (n : Nat) (s : State α κ) :
    (s.turn data n).calm = true ∧ (s.turn data n).newest = true := by
  obtain ⟨q, p, c⟩ := s
  unfold turn producerNext consumerNext
  split <;> split <;> exact ⟨rfl, rfl⟩

variable [OfNat κ 1] [Add κ] [Sub κ] [AndOp κ] [LE κ] [DecidableEq κ] [DecidableLE κ]
  (PublishBatch : κ)

/-- A producer inside a call can go on. -/
theorem producer_enabled {s : State α κ} (h : ∀ l, s.producer ≠ .idle l) :
    (spsc PublishBatch).step s (.producer 0) ≠ none := by
  obtain ⟨q, p, c⟩ := s
  cases p with
  | idle l => exact (h l rfl).elim
  | batchCheck =>
    simp only [spsc, step, stepProducer]
    split <;> simp
  | publishReader x => cases x <;> simp [spsc, step, stepProducer]
  | publishWriter r x => cases x <;> simp [spsc, step, stepProducer]
  | _ => simp [spsc, step, stepProducer, Atomic.load_zero]

/-- A consumer inside a call can go on. -/
theorem consumer_enabled {s : State α κ} (h : ∀ l, s.consumer ≠ .idle l) :
    (spsc PublishBatch).step s (.consumer 0) ≠ none := by
  obtain ⟨q, p, c⟩ := s
  cases c with
  | idle l => exact (h l rfl).elim
  | batchCheck data =>
    simp only [spsc, step, stepConsumer]
    split <;> simp
  | publishReader r x => cases x <;> cases r <;> simp [spsc, step, stepConsumer]
  | publishWriter x => cases x <;> simp [spsc, step, stepConsumer]
  | _ => simp [spsc, step, stepConsumer, Atomic.load_zero]

theorem producerNext_enabled (s : State α κ) (data : α) :
    (spsc PublishBatch).step s (s.producerNext data) ≠ none := by
  unfold State.producerNext
  split
  · rename_i l hp
    simp [spsc, step, hp]
  · rename_i hp
    exact producer_enabled PublishBatch hp

theorem consumerNext_enabled (s : State α κ) :
    (spsc PublishBatch).step s s.consumerNext ≠ none := by
  unfold State.consumerNext
  split
  · rename_i l hc
    simp [spsc, step, hc]
  · rename_i hc
    exact consumer_enabled PublishBatch hc

/-- The execution of two parties that take turns. -/
def alternating (data : α) (s : State α κ) : (spsc (α := α) PublishBatch).Execution :=
  .ofScheduler _ (fun n s => some (s.turn data n)) s fun n a ha => by
    cases ha
    unfold State.turn
    split
    · exact producerNext_enabled _ _ _
    · exact consumerNext_enabled _ _

variable {PublishBatch} in
theorem alternating_act {data : α} {s : State α κ} {n : Nat} {a : Act α}
    (h : (alternating PublishBatch data s).act n = some a) :
    ((alternating PublishBatch data s).state n).turn data n = a := by
  cases h
  rfl

theorem alternating_running (data : α) (s : State α κ) :
    Running (alternating PublishBatch data s) := by
  refine ⟨fun n a ha => ?_, fun n => ⟨2 * n, by omega, _, rfl, ?_⟩,
    fun n => ⟨2 * n + 1, by omega, _, rfl, ?_⟩, fun n => ⟨n, fun m k data' hm ha _ => ?_⟩,
    fun n => ⟨n, fun m k hm ha _ => ?_⟩⟩
  · exact alternating_act ha ▸ (State.turn_calm _ _ _).1
  · exact State.turn_producer _ (by omega) _
  · exact State.turn_consumer _ (by omega) _
  all_goals
    have hnew := (State.turn_calm data m ((alternating PublishBatch data s).state m)).2
    rw [alternating_act ha] at hnew
    obtain rfl : k = 0 := beq_iff_eq.mp hnew
    rw [Nat.zero_add]
    exact ((alternating PublishBatch data s).history_mono hm).sublist.countP_le

end Turns

/-- A ring of one slot with a batch that is never full. -/
theorem delivery_alternating : ∃ x : (spsc (α := Bool) (2 : BitVec 64)).Execution,
    x.state 0 = State.start (SPSC.fresh 1 fun _ => false) ∧ ∀ n, ∃ k,
      accepted (x.history n) <+: popped (x.history k) ∧ n ≤ (popped (x.history k)).length :=
  ⟨alternating 2 true _, rfl, @delivery Bool 1 2 (fun _ => false) _ rfl _ rfl
    (alternating_running 2 true _)⟩

end FastQ
