import Mathlib.Data.Int.ConditionallyCompleteOrder
import Mathlib.Tactic.Linarith
import Mathlib.Tactic.Ring
import Mathlib.Tactic.Zify
import FastQ.Lib.Amortized
import FastQ.Proofs.Serial

/-!
# How often the shared counters are touched

In a script of calls that run one at a time, each store of a shared counter is paid for by a full
batch, a failure or a `flush`, and each load that lets a call through is paid for by a store of the
other side since the last load. The four counts are amortised (`FastQ/Lib/Amortized.lean`), with
`B = max PublishBatch 1`:

* the stores of `writer_` cost `B` each, a push that succeeded brings in 1, one that failed `B`, and
  a `flush` is paid for with `B` when it starts. The potential is what is not published yet
  (`writerPotential`); the stores of `reader_` are the same for the pops;
* the loads of `reader_` cost 1 each, a store of `reader_` and a push that failed bring in 1. The
  potential is 1 while the cached value is not the shared one (`ProducerPc.loadPotential`); the
  loads of `writer_` are the same for the pops.

A potential is negative where a call has done what its return brings in.
-/

namespace FastQ

variable {α : Type}

/-! ## Counts and costs -/

section Counts

variable {κ : Type}

def Event.storesWriter : Event α κ → Bool
  | .storeWriter _ => true
  | _ => false

def Event.storesReader : Event α κ → Bool
  | .storeReader _ => true
  | _ => false

def Event.loadsWriter : Event α κ → Bool
  | .loadWriter _ => true
  | _ => false

def Event.loadsReader : Event α κ → Bool
  | .loadReader _ => true
  | _ => false

/-- The pushes that returned `ok`. -/
def pushes (ok : Bool) (es : List (Event α κ)) : Nat := (pushResults es).count ok

/-- The pops that returned `ok`. -/
def pops (ok : Bool) (es : List (Event α κ)) : Nat :=
  (popResults es).countP fun r => r.isSome == ok

/-- What the event costs the stores of `writer_`. -/
def Event.writerCost (B : Int) : Event α κ → Int
  | .storeWriter _ => B
  | .producerReturn (.push true) => -1
  | .producerReturn (.push false) => -B
  | _ => 0

/-- What the event costs the stores of `reader_`. -/
def Event.readerCost (B : Int) : Event α κ → Int
  | .storeReader _ => B
  | .consumerReturn (.pop (some _)) => -1
  | .consumerReturn (.pop none) => -B
  | _ => 0

/-- What the event costs the loads of `reader_`. -/
def Event.readerLoadCost : Event α κ → Int
  | .loadReader _ => 1
  | .storeReader _ | .producerReturn (.push false) => -1
  | _ => 0

/-- What the event costs the loads of `writer_`. -/
def Event.writerLoadCost : Event α κ → Int
  | .loadWriter _ => 1
  | .storeWriter _ | .consumerReturn (.pop none) => -1
  | _ => 0

/-- What is paid for the start of a `flush`. -/
def Act.flushPay (B : Int) : Act α → Int
  | .producerFlush | .consumerFlush | .flush => B
  | _ => 0

variable (B : Int) (es : List (Event α κ))

theorem sum_writerCost : (es.map (Event.writerCost B)).sum =
    B * es.countP Event.storesWriter - pushes true es - B * pushes false es := by
  induction es with
  | nil => simp [pushes, pushResults]
  | cons ev es ih =>
    rw [List.map_cons, List.sum_cons, ih]
    rcases ev with _ | _ | _ | _ | _ | _ | _ | _ | (⟨_ | _⟩ | _) | (⟨_ | _⟩ | _) | _ | _ <;>
      simp [List.countP_cons, pushes, pushResults, Event.storesWriter, Event.writerCost] <;> ring

theorem sum_readerCost : (es.map (Event.readerCost B)).sum =
    B * es.countP Event.storesReader - pops true es - B * pops false es := by
  induction es with
  | nil => simp [pops, popResults]
  | cons ev es ih =>
    rw [List.map_cons, List.sum_cons, ih]
    rcases ev with _ | _ | _ | _ | _ | _ | _ | _ | (⟨_ | _⟩ | _) | (⟨_ | _⟩ | _) | _ | _ <;>
      simp [List.countP_cons, pops, popResults, Event.storesReader, Event.readerCost] <;> ring

theorem sum_readerLoadCost : (es.map Event.readerLoadCost).sum =
    es.countP Event.loadsReader - es.countP Event.storesReader - pushes false es := by
  induction es with
  | nil => simp [pushes, pushResults]
  | cons ev es ih =>
    rw [List.map_cons, List.sum_cons, ih]
    rcases ev with _ | _ | _ | _ | _ | _ | _ | _ | (⟨_ | _⟩ | _) | (⟨_ | _⟩ | _) | _ | _ <;>
      simp [List.countP_cons, pushes, pushResults, Event.loadsReader, Event.storesReader,
        Event.readerLoadCost] <;> ring

theorem sum_writerLoadCost : (es.map Event.writerLoadCost).sum =
    es.countP Event.loadsWriter - es.countP Event.storesWriter - pops false es := by
  induction es with
  | nil => simp [pops, popResults]
  | cons ev es ih =>
    rw [List.map_cons, List.sum_cons, ih]
    rcases ev with _ | _ | _ | _ | _ | _ | _ | _ | (⟨_ | _⟩ | _) | (⟨_ | _⟩ | _) | _ | _ <;>
      simp [List.countP_cons, pops, popResults, Event.loadsWriter, Event.storesWriter,
        Event.writerLoadCost] <;> ring

theorem sum_flushPay (sched : List (Act α)) :
    (sched.map (Act.flushPay B)).sum = B * sched.countP Act.flushes := by
  induction sched with
  | nil => simp
  | cons a sched ih =>
    rw [List.map_cons, List.sum_cons, ih]
    cases a <;> simp [List.countP_cons, Act.flushes, Act.flushPay] <;> ring

end Counts

/-! ## Stores -/

variable {PublishBatch B k : Nat} {q q' : SPSC α Nat} {e : List (Event α Nat)}
  {p p' : ProducerPc α Nat} {c c' : ConsumerPc α Nat} {s s' : State α Nat} {a : Act α}

/-- What the producer has not published. -/
def SPSC.unpublished (q : SPSC α Nat) : Int := q.producer.localWriter - q.producer.lastPublished

/-- What the consumer has not published. -/
def SPSC.unreleased (q : SPSC α Nat) : Int := q.consumer.localReader - q.consumer.lastPublished

@[simp] theorem SPSC.unpublished_flush (q : SPSC α Nat) : q.flush.unpublished = 0 := Int.sub_self _

@[simp] theorem SPSC.unreleased_flush (q : SPSC α Nat) : q.flush.unreleased = 0 := Int.sub_self _

theorem Ordered.unpublished_nonneg (ho : Ordered q) : 0 ≤ q.unpublished :=
  Int.sub_nonneg_of_le (Int.ofNat_le.mpr ho.producer_mark)

theorem Ordered.unreleased_nonneg (ho : Ordered q) : 0 ≤ q.unreleased :=
  Int.sub_nonneg_of_le (Int.ofNat_le.mpr ho.consumer_mark)

/-- What a call of the producer has saved up for the stores of `writer_`, where `n` elements are not
published. -/
def ProducerPc.writerPotential (B n : Int) : ProducerPc α Nat → Int
  | .batchCheck | .publishWriter (.push true) .read
  | .publishWriter (.push true) (.store _) => n - 1
  | .publishWriter (.push true) _ => -1
  | .publishWriter (.push false) .readAgain | .publishWriter (.push false) (.mark _) => -B
  | .publishReader _ | .publishWriter .flush .read | .publishWriter .flush (.store _) => n + B
  | .publishWriter .flush _ => 0
  | _ => n

/-- What a call of the consumer has saved up for the stores of `writer_`: a `flush` stores it. -/
def ConsumerPc.writerPotential (B n : Int) : ConsumerPc α Nat → Int
  | .publishReader .flush _ | .publishWriter .read | .publishWriter (.store _) => n + B
  | .publishWriter _ => 0
  | _ => n

/-- What a call of the consumer has saved up for the stores of `reader_`, where `n` pops are not
published. -/
def ConsumerPc.readerPotential (B n : Int) : ConsumerPc α Nat → Int
  | .batchCheck _ | .publishReader (.pop (some _)) .read
  | .publishReader (.pop (some _)) (.store _) => n - 1
  | .publishReader (.pop (some _)) _ => -1
  | .publishReader (.pop none) .readAgain | .publishReader (.pop none) (.mark _) => -B
  | .publishReader .flush .read | .publishReader .flush (.store _) => n + B
  | .publishReader .flush _ => 0
  | _ => n

/-- What a call of the producer has saved up for the stores of `reader_`: a `flush` stores it. -/
def ProducerPc.readerPotential (B n : Int) : ProducerPc α Nat → Int
  | .publishReader .read | .publishReader (.store _) => n + B
  | .publishReader _ => 0
  | _ => n

/-- What is saved up for the stores of `writer_`, by the party that is in a call. -/
def writerPotential (B : Int) (s : State α Nat) : Int :=
  match s.consumer with
  | .idle _ => s.producer.writerPotential B s.q.unpublished
  | c => c.writerPotential B s.q.unpublished

/-- What is saved up for the stores of `reader_`, by the party that is in a call. -/
def readerPotential (B : Int) (s : State α Nat) : Int :=
  match s.producer with
  | .idle _ => s.consumer.readerPotential B s.q.unreleased
  | p => p.readerPotential B s.q.unreleased

/-- While the producer is idle, the consumer has what is saved up for the stores of `writer_`. -/
theorem writerPotential_of_idle (B : Int) (q : SPSC α Nat) (l : Option ProducerResult)
    (c : ConsumerPc α Nat) :
    writerPotential B ⟨q, .idle l, c⟩ = c.writerPotential B q.unpublished := by
  cases c <;> rfl

/-- While the consumer is idle, the producer has what is saved up for the stores of `reader_`. -/
theorem readerPotential_of_idle (B : Int) (q : SPSC α Nat) (p : ProducerPc α Nat)
    (l : Option (ConsumerResult α)) :
    readerPotential B ⟨q, p, .idle l⟩ = p.readerPotential B q.unreleased := by
  cases p <;> rfl

theorem ProducerMove.writerCost (hm : ProducerMove PublishBatch 0 q p q' p' e) (ho : Ordered q)
    (hp : ProducerOk q p) (h : ProducerAlone B q p) :
    (e.map (Event.writerCost B)).sum + p'.writerPotential B q'.unpublished ≤
      p.writerPotential B q.unpublished := by
  have hmark := ho.producer_mark
  cases hm with
  | increment =>
    simp [Event.writerCost, ProducerPc.writerPotential, SPSC.unpublished, SPSC.advanceWriter]
    omega
  | @readWriter r | @readWriterAgain r =>
    rcases r with ⟨_ | _⟩ | _ <;> simp [ProducerPc.writerPotential]
  | @storeWriter r x =>
    rcases r with ⟨_ | _⟩ | _ <;>
      simp [Event.writerCost, ProducerPc.writerPotential, SPSC.unpublished]
    · exact hmark
    · have hle : q.producer.lastPublished + B ≤ q.producer.localWriter := h
      omega
    · exact hmark
  | @markWriter r x =>
    obtain rfl : x = q.producer.localWriter := hp
    rcases r with ⟨_ | _⟩ | _ <;>
      simp [Event.writerCost, ProducerPc.writerPotential, SPSC.unpublished, SPSC.markWriter]
  | _ =>
    simp [Event.writerCost, ProducerPc.writerPotential, SPSC.unpublished, SPSC.cacheReader,
      SPSC.writeSlot, SPSC.overwriteReader, SPSC.markReader]

theorem ConsumerMove.writerCost (hm : ConsumerMove PublishBatch 0 q c q' c' e) (ho : Ordered q)
    (h : ConsumerAlone B q c) :
    (e.map (Event.writerCost B)).sum + c'.writerPotential B q'.unpublished ≤
      c.writerPotential B q.unpublished := by
  have hmark := ho.producer_mark
  cases hm with
  | @readReader r | @storeReader r | @readReaderAgain r =>
    cases r <;>
      simp [Event.writerCost, ConsumerPc.writerPotential, SPSC.unpublished, SPSC.storeReader]
  | storeWriter =>
    simpa [Event.writerCost, ConsumerPc.writerPotential, SPSC.unpublished] using hmark
  | @markWriter x =>
    obtain rfl : x = q.producer.localWriter := h
    simp [Event.writerCost, ConsumerPc.writerPotential, SPSC.unpublished, SPSC.markWriter]
  | _ =>
    simp [Event.writerCost, ConsumerPc.writerPotential, SPSC.unpublished, SPSC.cacheWriter,
      SPSC.advanceReader, SPSC.markReader]

theorem ConsumerMove.readerCost (hm : ConsumerMove PublishBatch 0 q c q' c' e) (ho : Ordered q)
    (hc : ConsumerOk q c) (h : ConsumerAlone B q c) :
    (e.map (Event.readerCost B)).sum + c'.readerPotential B q'.unreleased ≤
      c.readerPotential B q.unreleased := by
  have hmark := ho.consumer_mark
  cases hm with
  | increment =>
    simp [Event.readerCost, ConsumerPc.readerPotential, SPSC.unreleased, SPSC.advanceReader]
    omega
  | @readReader r | @readReaderAgain r =>
    rcases r with ⟨_ | _⟩ | _ <;> simp [ConsumerPc.readerPotential]
  | @storeReader r x =>
    rcases r with ⟨_ | _⟩ | _ <;>
      simp [Event.readerCost, ConsumerPc.readerPotential, SPSC.unreleased]
    · exact hmark
    · have hle : q.consumer.lastPublished + B ≤ q.consumer.localReader := h
      omega
    · exact hmark
  | @markReader r x =>
    obtain rfl : x = q.consumer.localReader := hc
    rcases r with _ | _ <;>
      simp [Event.readerCost, ConsumerPc.readerPotential, SPSC.unreleased, SPSC.markReader]
  | @markReaderFlush x =>
    obtain rfl : x = q.consumer.localReader := hc
    simp [ConsumerPc.readerPotential, SPSC.unreleased, SPSC.markReader]
  | _ =>
    simp [Event.readerCost, ConsumerPc.readerPotential, SPSC.unreleased, SPSC.cacheWriter,
      SPSC.overwriteWriter, SPSC.markWriter]

theorem ProducerMove.readerCost (hm : ProducerMove PublishBatch 0 q p q' p' e) (ho : Ordered q)
    (h : ProducerAlone B q p) :
    (e.map (Event.readerCost B)).sum + p'.readerPotential B q'.unreleased ≤
      p.readerPotential B q.unreleased := by
  have hmark := ho.consumer_mark
  cases hm with
  | storeReader =>
    simpa [Event.readerCost, ProducerPc.readerPotential, SPSC.unreleased] using hmark
  | @markReader x =>
    obtain rfl : x = q.consumer.localReader := h
    simp [ProducerPc.readerPotential, SPSC.unreleased, SPSC.markReader]
  | _ =>
    simp [Event.readerCost, ProducerPc.readerPotential, SPSC.unreleased, SPSC.cacheReader,
      SPSC.writeSlot, SPSC.advanceWriter, SPSC.storeWriter, SPSC.markWriter]

/-- The stores of `writer_` are paid for. -/
theorem Move.writerCost (hm : Move PublishBatch s a s' e) (ha : s.serial a = true) (hi : Inv s)
    (h : Alone B s) :
    (e.map (Event.writerCost B)).sum + writerPotential B s' ≤
      writerPotential B s + a.flushPay B := by
  have ho := hi.ordered
  cases hm with
  | push | producerFlush =>
    obtain ⟨-, l, -, rfl⟩ := State.quiet_iff.mp ha
    simp [writerPotential, ProducerPc.writerPotential, Act.flushPay]
  | producer hm =>
    obtain rfl : _ = 0 := beq_iff_eq.mp ha
    obtain ⟨l, rfl⟩ := h.consumer_idle hm
    exact (hm.writerCost ho hi.producer h.producer).trans (Int.add_zero _).ge
  | pop | consumerFlush =>
    obtain ⟨l, -, rfl, -⟩ := State.quiet_iff.mp ha
    simp [writerPotential_of_idle, ConsumerPc.writerPotential, Act.flushPay]
  | consumer hm =>
    obtain rfl : _ = 0 := beq_iff_eq.mp ha
    obtain ⟨l, rfl⟩ := h.producer_idle hm
    simp only [writerPotential_of_idle]
    exact (hm.writerCost ho h.consumer).trans (Int.add_zero _).ge
  | flush =>
    simpa [writerPotential, ProducerPc.writerPotential, Event.writerCost, Act.flushPay] using
      ho.unpublished_nonneg
  | size | empty => cases ha

/-- The stores of `reader_` are paid for. -/
theorem Move.readerCost (hm : Move PublishBatch s a s' e) (ha : s.serial a = true) (hi : Inv s)
    (h : Alone B s) :
    (e.map (Event.readerCost B)).sum + readerPotential B s' ≤
      readerPotential B s + a.flushPay B := by
  have ho := hi.ordered
  cases hm with
  | push | producerFlush =>
    obtain ⟨-, l, -, rfl⟩ := State.quiet_iff.mp ha
    simp [readerPotential_of_idle, ProducerPc.readerPotential, Act.flushPay]
  | producer hm =>
    obtain rfl : _ = 0 := beq_iff_eq.mp ha
    obtain ⟨l, rfl⟩ := h.consumer_idle hm
    simp only [readerPotential_of_idle]
    exact (hm.readerCost ho h.producer).trans (Int.add_zero _).ge
  | pop | consumerFlush =>
    obtain ⟨l, -, rfl, -⟩ := State.quiet_iff.mp ha
    simp [readerPotential, ConsumerPc.readerPotential, Act.flushPay]
  | consumer hm =>
    obtain rfl : _ = 0 := beq_iff_eq.mp ha
    obtain ⟨l, rfl⟩ := h.producer_idle hm
    exact (hm.readerCost ho hi.consumer h.consumer).trans (Int.add_zero _).ge
  | flush =>
    simpa [readerPotential, ConsumerPc.readerPotential, Event.readerCost, Act.flushPay] using
      ho.unreleased_nonneg
  | size | empty => cases ha

/-! ## Loads -/

/-- The producer has not seen the newest value of `reader_`. -/
def SPSC.readerStale (q : SPSC α Nat) : Int :=
  if q.producer.cachedReader = q.reader.value then 0 else 1

/-- The consumer has not seen the newest value of `writer_`. -/
def SPSC.writerStale (q : SPSC α Nat) : Int :=
  if q.consumer.cachedWriter = q.writer.value then 0 else 1

/-- What the producer has saved up for its loads of `reader_`: a push that is going to fail has made
one on credit. -/
def ProducerPc.loadPotential (q : SPSC α Nat) : ProducerPc α Nat → Int
  | .fullRecheck _ => if q.isFull then -1 else 0
  | .publishWriter (.push false) _ => -1
  | _ => q.readerStale

/-- What the consumer has saved up for its loads of `writer_`. -/
def ConsumerPc.loadPotential (q : SPSC α Nat) : ConsumerPc α Nat → Int
  | .emptyRecheck => if q.isEmpty then -1 else 0
  | .publishReader (.pop none) _ => -1
  | _ => q.writerStale

theorem SPSC.readerStale_bounds (q : SPSC α Nat) : 0 ≤ q.readerStale ∧ q.readerStale ≤ 1 := by
  unfold readerStale
  split <;> decide

theorem SPSC.writerStale_bounds (q : SPSC α Nat) : 0 ≤ q.writerStale ∧ q.writerStale ≤ 1 := by
  unfold writerStale
  split <;> decide

theorem SPSC.readerStale_eq (h : q.producer.cachedReader = q.reader.value) : q.readerStale = 0 :=
  if_pos h

theorem SPSC.writerStale_eq (h : q.consumer.cachedWriter = q.writer.value) : q.writerStale = 0 :=
  if_pos h

/-- A load of a stale value is paid for; where it is not stale, the push is going to fail. -/
theorem SPSC.readerStale_load (hf : q.isFull = true) :
    1 + (if (q.cacheReader q.reader.loadNewest).isFull then (-1 : Int) else 0) ≤ q.readerStale := by
  by_cases hs : q.producer.cachedReader = q.reader.value
  · have hsame : (q.cacheReader q.reader.loadNewest).isFull = q.isFull := by
      unfold isFull
      rw [hs]
      rfl
    rw [hsame, hf, readerStale_eq hs]
    decide
  · rw [readerStale, if_neg hs]
    split <;> decide

theorem SPSC.writerStale_load (hf : q.isEmpty = true) :
    1 + (if (q.cacheWriter q.writer.loadNewest).isEmpty then (-1 : Int) else 0) ≤
      q.writerStale := by
  by_cases hs : q.consumer.cachedWriter = q.writer.value
  · have hsame : (q.cacheWriter q.writer.loadNewest).isEmpty = q.isEmpty := by
      unfold isEmpty
      rw [hs]
      rfl
    rw [hsame, hf, writerStale_eq hs]
    decide
  · rw [writerStale, if_neg hs]
    split <;> decide

theorem ProducerMove.loadCost (hm : ProducerMove PublishBatch 0 q p q' p' e)
    (h : ProducerAlone B q p) :
    (e.map Event.readerLoadCost).sum + p'.loadPotential q' ≤ p.loadPotential q := by
  cases hm with
  | load hl =>
    rw [Atomic.load_zero] at hl
    cases hl
    simpa [Event.readerLoadCost, ProducerPc.loadPotential] using SPSC.readerStale_load h
  | refuse hf => simp [ProducerPc.loadPotential, hf]
  | roomNow hf => simp [ProducerPc.loadPotential, hf, SPSC.readerStale_eq h]
  | @storeReader x =>
    have := (q.overwriteReader x).readerStale_bounds
    have := q.readerStale_bounds
    simp [Event.readerLoadCost, ProducerPc.loadPotential]
    omega
  | @readWriter r | @storeWriter r | @readWriterAgain r =>
    rcases r with ⟨_ | _⟩ | _ <;>
      simp [ProducerPc.loadPotential, Event.readerLoadCost] <;> exact Int.le_refl _
  | @markWriter r x =>
    rcases r with ⟨_ | _⟩ | _ <;> simp [ProducerPc.loadPotential, Event.readerLoadCost]
    · exact Int.le_of_eq (SPSC.readerStale_eq h)
    · exact Int.le_refl _
    · exact Int.le_refl _
  | _ => simp [ProducerPc.loadPotential, Event.readerLoadCost] <;> exact Int.le_refl _

theorem ConsumerMove.loadCost (hm : ConsumerMove PublishBatch 0 q c q' c' e)
    (h : ConsumerAlone B q c) :
    (e.map Event.writerLoadCost).sum + c'.loadPotential q' ≤ c.loadPotential q := by
  cases hm with
  | load hl =>
    rw [Atomic.load_zero] at hl
    cases hl
    simpa [Event.writerLoadCost, ConsumerPc.loadPotential] using SPSC.writerStale_load h
  | refuse hf => simp [ConsumerPc.loadPotential, hf]
  | elementNow hf => simp [ConsumerPc.loadPotential, hf, SPSC.writerStale_eq h]
  | @storeWriter x =>
    have := (q.overwriteWriter x).writerStale_bounds
    have := q.writerStale_bounds
    simp [Event.writerLoadCost, ConsumerPc.loadPotential]
    omega
  | @readReader r | @storeReader r | @readReaderAgain r =>
    rcases r with ⟨_ | _⟩ | _ <;>
      simp [ConsumerPc.loadPotential, Event.writerLoadCost] <;> exact Int.le_refl _
  | @markReader r x =>
    rcases r with _ | _ <;> simp [ConsumerPc.loadPotential, Event.writerLoadCost]
    · exact Int.le_of_eq (SPSC.writerStale_eq h)
    · exact Int.le_refl _
  | _ => simp [ConsumerPc.loadPotential, Event.writerLoadCost] <;> exact Int.le_refl _

/-- A consumer that makes a step leaves the producer stale, or stores `reader_`. -/
theorem ConsumerMove.readerStale (hm : ConsumerMove PublishBatch k q c q' c' e) :
    (e.map Event.readerLoadCost).sum + q'.readerStale ≤ q.readerStale := by
  cases hm with
  | @storeReader r x =>
    have := (q.storeReader x).readerStale_bounds
    have := q.readerStale_bounds
    simp [Event.readerLoadCost]
    omega
  | _ => simp [Event.readerLoadCost] <;> exact Int.le_refl _

theorem ProducerMove.writerStale (hm : ProducerMove PublishBatch k q p q' p' e) :
    (e.map Event.writerLoadCost).sum + q'.writerStale ≤ q.writerStale := by
  cases hm with
  | @storeWriter r x =>
    have := (q.storeWriter x).writerStale_bounds
    have := q.writerStale_bounds
    simp [Event.writerLoadCost]
    omega
  | _ => simp [Event.writerLoadCost] <;> exact Int.le_refl _

/-- The loads of `reader_` are paid for. -/
theorem Move.readerLoadCost (hm : Move PublishBatch s a s' e) (ha : s.serial a = true)
    (h : Alone B s) :
    (e.map Event.readerLoadCost).sum + s'.producer.loadPotential s'.q ≤
      s.producer.loadPotential s.q + 0 := by
  rw [Int.add_zero]
  cases hm with
  | producer hm =>
    obtain rfl : _ = 0 := beq_iff_eq.mp ha
    exact hm.loadCost h.producer
  | consumer hm =>
    obtain ⟨l, rfl⟩ := h.producer_idle hm
    exact hm.readerStale
  | @flush q =>
    have := q.flush.readerStale_bounds
    have := q.readerStale_bounds
    simp [ProducerPc.loadPotential, Event.readerLoadCost]
    omega
  | size | empty => cases ha
  | push | producerFlush => simp [ProducerPc.loadPotential]
  | pop | consumerFlush => simp

/-- The loads of `writer_` are paid for. -/
theorem Move.writerLoadCost (hm : Move PublishBatch s a s' e) (ha : s.serial a = true)
    (h : Alone B s) :
    (e.map Event.writerLoadCost).sum + s'.consumer.loadPotential s'.q ≤
      s.consumer.loadPotential s.q + 0 := by
  rw [Int.add_zero]
  cases hm with
  | producer hm =>
    obtain ⟨l, rfl⟩ := h.consumer_idle hm
    exact hm.writerStale
  | consumer hm =>
    obtain rfl : _ = 0 := beq_iff_eq.mp ha
    exact hm.loadCost h.consumer
  | @flush q =>
    have := q.flush.writerStale_bounds
    have := q.writerStale_bounds
    simp [ConsumerPc.loadPotential, Event.writerLoadCost]
    omega
  | size | empty => cases ha
  | push | producerFlush => simp
  | pop | consumerFlush => simp [ConsumerPc.loadPotential]

/-! ## Every script -/

section Run

variable {sched : List (Act α)} {es : List (Event α Nat)} {capacity : Nat} {memory : Nat → α}
  {q₀ : SPSC α Nat}

/-- A script is paid for if its moves are. -/
theorem serial_pays {cost : Event α Nat → Int} {pay : Act α → Int} {Φ : State α Nat → Int}
    (h : ∀ {s a s' e}, Move PublishBatch s a s' e → s.serial a = true →
      Serial (max PublishBatch 1) s → (e.map cost).sum + Φ s' ≤ Φ s + pay a) :
    (spsc PublishBatch).Pays (Serial (max PublishBatch 1)) (fun s a => s.serial a = true) cost pay
      Φ :=
  ⟨fun _ _ _ _ hs ha hst => (step_move hst).serial ha hs,
    fun _ _ _ _ hs ha hst => h (step_move hst) ha hs⟩

theorem writer_pays : (spsc (α := α) PublishBatch).Pays (Serial (max PublishBatch 1))
    (fun s a => s.serial a = true) (Event.writerCost (max PublishBatch 1 : Nat))
    (Act.flushPay (max PublishBatch 1 : Nat)) (writerPotential (max PublishBatch 1 : Nat)) :=
  serial_pays fun hm ha hs => hm.writerCost ha hs.1 hs.2

theorem reader_pays : (spsc (α := α) PublishBatch).Pays (Serial (max PublishBatch 1))
    (fun s a => s.serial a = true) (Event.readerCost (max PublishBatch 1 : Nat))
    (Act.flushPay (max PublishBatch 1 : Nat)) (readerPotential (max PublishBatch 1 : Nat)) :=
  serial_pays fun hm ha hs => hm.readerCost ha hs.1 hs.2

theorem readerLoad_pays : (spsc (α := α) PublishBatch).Pays (Serial (max PublishBatch 1))
    (fun s a => s.serial a = true) Event.readerLoadCost (fun _ => 0)
    (fun s => s.producer.loadPotential s.q) :=
  serial_pays fun hm ha hs => hm.readerLoadCost ha hs.2

theorem writerLoad_pays : (spsc (α := α) PublishBatch).Pays (Serial (max PublishBatch 1))
    (fun s a => s.serial a = true) Event.writerLoadCost (fun _ => 0)
    (fun s => s.consumer.loadPotential s.q) :=
  serial_pays fun hm ha hs => hm.writerLoadCost ha hs.2

/-- Nothing is saved up at the start. -/
theorem start_potentials (hq : SPSC.new capacity memory = .ok q₀) (B : Int) :
    writerPotential B (State.start q₀) = 0 ∧ readerPotential B (State.start q₀) = 0 ∧
      q₀.readerStale = 0 ∧ q₀.writerStale = 0 := by
  obtain ⟨rfl, -⟩ := SPSC.new_eq hq
  exact ⟨rfl, rfl, rfl, rfl⟩

/-- Between two calls nothing is owed. -/
theorem quiet_potentials (ho : Ordered s.q) (hquiet : s.quiet = true) (B : Int) :
    0 ≤ writerPotential B s ∧ 0 ≤ readerPotential B s ∧
      0 ≤ s.producer.loadPotential s.q ∧ 0 ≤ s.consumer.loadPotential s.q := by
  obtain ⟨q, p, c⟩ := s
  obtain ⟨l, l', rfl, rfl⟩ := State.quiet_iff.mp hquiet
  exact ⟨ho.unpublished_nonneg, ho.unreleased_nonneg, q.readerStale_bounds.1,
    q.writerStale_bounds.1⟩

/-- What `n` stores at the price of `B` mean for their number. -/
theorem stores_le {n done failed flushed : Nat} (hB : 0 < B)
    (h : (B * n - done - B * failed : Int) ≤ B * flushed) : n ≤ done / B + failed + flushed := by
  have hle : (n * B : Int) ≤ done + (failed + flushed) * B := by linarith
  have hle : n * B ≤ done + (failed + flushed) * B := by exact_mod_cast hle
  rw [← Nat.le_div_iff_mul_le hB, Nat.add_mul_div_right _ _ hB] at hle
  omega

/-- The counts of a script, over unbounded counters. -/
theorem run_paid (hq : SPSC.new capacity memory = .ok q₀)
    (h : (spsc PublishBatch).run (State.start q₀) sched = some (s, es))
    (hok : (spsc PublishBatch).Along (fun s a => s.serial a = true) (State.start q₀) sched)
    (hquiet : s.quiet = true) :
    es.countP Event.storesWriter ≤
        pushes true es / max PublishBatch 1 + pushes false es + sched.countP Act.flushes ∧
      es.countP Event.storesReader ≤
        pops true es / max PublishBatch 1 + pops false es + sched.countP Act.flushes ∧
      es.countP Event.loadsReader ≤ pushes false es + es.countP Event.storesReader ∧
      es.countP Event.loadsWriter ≤ pops false es + es.countP Event.storesWriter := by
  have hB : 0 < max PublishBatch 1 := Nat.le_max_right _ _
  have hstart : Serial (max PublishBatch 1) (State.start q₀) :=
    ⟨new_inv hq, .inl ⟨_, rfl⟩, trivial, trivial⟩
  have ho := (reach_inv (Machine.Reach.of_along hok h) (new_inv hq)).ordered
  obtain ⟨hw₀, hr₀, hlr₀, hlw₀⟩ := start_potentials hq (max PublishBatch 1 : Nat)
  obtain ⟨hw', hr', hlr', hlw'⟩ := quiet_potentials ho hquiet (max PublishBatch 1 : Nat)
  have hw := writer_pays.total hstart hok h hw₀ hw'
  have hr := reader_pays.total hstart hok h hr₀ hr'
  have hlr := readerLoad_pays.total hstart hok h hlr₀ hlr'
  have hlw := writerLoad_pays.total hstart hok h hlw₀ hlw'
  rw [sum_writerCost, sum_flushPay] at hw
  rw [sum_readerCost, sum_flushPay] at hr
  rw [sum_readerLoadCost, List.map_const', List.sum_replicate, nsmul_zero] at hlr
  rw [sum_writerLoadCost, List.map_const', List.sum_replicate, nsmul_zero] at hlw
  exact ⟨stores_le hB hw, stores_le hB hr, by omega, by omega⟩

end Run

section Runs

variable {capacity PublishBatch : BitVec 64} {memory : BitVec 64 → α} {q : SPSC α (BitVec 64)}
  {sched : List (Act α)} {s : State α (BitVec 64)} {es : List (Event α (BitVec 64))}

/-- The counts do not look at the values of the counters. -/
theorem counts_wrap (es : List (Event α Nat)) :
    (es.map Event.wrap).countP Event.storesWriter = es.countP Event.storesWriter ∧
      (es.map Event.wrap).countP Event.storesReader = es.countP Event.storesReader ∧
      (es.map Event.wrap).countP Event.loadsWriter = es.countP Event.loadsWriter ∧
      (es.map Event.wrap).countP Event.loadsReader = es.countP Event.loadsReader := by
  simp only [List.countP_map]
  refine ⟨?_, ?_, ?_, ?_⟩ <;> congr 1 <;> funext ev <;> cases ev <;> rfl

/-- **The shared counters are touched once a batch.** In every script of calls of `push`, `pop` and
`flush` that run one at a time, with `B = max PublishBatch 1`: the stores of a shared counter number
at most one for each `B` calls of its side that succeeded, one for each that failed, and one for
each `flush`; the loads of a counter number at most one for each call that failed on it and one for
each of these stores. Without failures and `flush`, there are at most two accesses for each `B`
calls that succeeded. -/
theorem traffic_bounded (hq : SPSC.new capacity memory = .ok q)
    (h : (spsc PublishBatch).run (State.start q) sched = some (s, es))
    (hserial : (spsc PublishBatch).Along (fun s a => s.serial a = true) (State.start q) sched)
    (hquiet : s.quiet = true) :
    es.countP Event.storesWriter ≤ pushes true es / max PublishBatch.toNat 1 + pushes false es +
        sched.countP Act.flushes ∧
      es.countP Event.storesReader ≤ pops true es / max PublishBatch.toNat 1 + pops false es +
        sched.countP Act.flushes ∧
      es.countP Event.loadsReader ≤ pushes false es + pops true es / max PublishBatch.toNat 1 +
        pops false es + sched.countP Act.flushes ∧
      es.countP Event.loadsWriter ≤ pops false es + pushes true es / max PublishBatch.toNat 1 +
        pushes false es + sched.countP Act.flushes ∧
      (pushes false es = 0 → pops false es = 0 → sched.countP Act.flushes = 0 →
        es.countP Event.storesWriter + es.countP Event.storesReader +
            es.countP Event.loadsReader + es.countP Event.loadsWriter ≤
          2 * (pushes true es / max PublishBatch.toNat 1 +
            pops true es / max PublishBatch.toNat 1)) := by
  obtain ⟨q₀, hnew, hstart, -, hnear⟩ := new_unwrap hq
  rw [hstart] at h hserial
  obtain ⟨t, et, ht, rfl, rfl, -, -⟩ := run_unwrap hnear h hserial
  have hok : (spsc PublishBatch.toNat).Along (fun s a => s.serial a = true) (State.start q₀)
      sched :=
    (along_unwrap hnear hserial).mono fun s a ha => s.serial_wrap a ▸ ha.2
  rw [quiet_wrap] at hquiet
  obtain ⟨hw, hr, hlr, hlw⟩ := run_paid hnew ht hok hquiet
  obtain ⟨hcw, hcr, hclw, hclr⟩ := counts_wrap et
  simp only [hcw, hcr, hclw, hclr, pushes, pops, pushResults_wrap, popResults_wrap]
    at hw hr hlr hlw ⊢
  exact ⟨hw, hr, by omega, by omega, fun hp hc hl => by omega⟩

/-- A ring of two slots with a batch of two: two pushes, a third one that fails, two pops and a
`flush`. The stores of `writer_` are as many as the bound allows. -/
theorem traffic_bounded_two : ∃ es : List (Event Bool (BitVec 64)),
    pushes true es = 2 ∧ pushes false es = 1 ∧ pops true es = 2 ∧ pops false es = 0 ∧
      es.countP Event.storesWriter = 3 ∧ es.countP Event.storesWriter ≤ 2 / 2 + 1 + 1 ∧
      es.countP Event.storesReader ≤ 2 / 2 + 0 + 1 ∧
      es.countP Event.loadsReader ≤ 1 + 2 / 2 + 0 + 1 ∧
      es.countP Event.loadsWriter ≤ 0 + 2 / 2 + 1 + 1 := by
  have h := @traffic_bounded Bool 2 2 (fun _ => false) _
    (.push true :: List.replicate 4 (.producer 0) ++
      .push false :: List.replicate 8 (.producer 0) ++
      .push true :: List.replicate 7 (.producer 0) ++ .pop :: List.replicate 6 (.consumer 0) ++
      .pop :: List.replicate 8 (.consumer 0) ++ [.flush]) _ _ rfl rfl (by decide) rfl
  exact ⟨_, rfl, rfl, rfl, rfl, rfl, h.1, h.2.1, h.2.2.1, h.2.2.2.1⟩

end Runs

end FastQ
