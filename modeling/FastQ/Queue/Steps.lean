import FastQ.Lib.Machine
import FastQ.Queue.Basic

/-!
# The calls of two threads, access by access

The producer and the consumer each make one call at a time, and a call is broken into its accesses
to the counters and the slots. A schedule (`Act`) says who goes next: a party starts a call, or
makes the next access of its call. The two parties interleave in any order.

* `push` and `pop` are their lines in order: the check, the acquire load of the other side's counter
  and the second check, the slot access, the increment, the batch test, the publication.
* `publish_writer` and `publish_reader` (`Publish`) read the local counter, store the shared one,
  read the local counter again and store `lastPublished_`. `flush` runs both, on either thread, so
  one of the two publications of a `flush` is of a counter that belongs to the other thread.
* A load takes a number `k`: how many stores behind the newest its value is. `k = 0` is the newest;
  a larger `k` is a stale read, possible as long as the party did not already read a newer value.
* `flush`, `size` and `empty` as single actions are calls made while neither party is inside a call.

`Event` is what a step shows. A push counts as accepted, and a pop as done, at the increment of the
local counter (`accept`, `take`).
-/

namespace FastQ

/-- Where a run of `publish_writer` or `publish_reader` is: before the first read of the local
counter, before the store of the value read, before the second read, before the store to
`lastPublished_`. -/
inductive Publish (κ : Type) where
  | read
  | store (x : κ)
  | readAgain
  | mark (x : κ)
  deriving DecidableEq, Repr

/-- What a call of the producer returned. -/
inductive ProducerResult where
  | push (ok : Bool)
  | flush
  deriving DecidableEq, Repr

/-- What a call of the consumer returned (`pop none` is a return of `false`). -/
inductive ConsumerResult (α : Type) where
  | pop (r : Option α)
  | flush
  deriving DecidableEq, Repr

/-- Where the producer is. -/
inductive ProducerPc (α κ : Type) where
  /-- Between calls, with the result of the last one. -/
  | idle (last : Option ProducerResult)
  | fullCheck (data : α)
  | loadReader (data : α)
  | fullRecheck (data : α)
  | writeSlot (data : α)
  | increment (data : α)
  | batchCheck
  /-- In `flush`, at `publish_reader`. -/
  | publishReader (p : Publish κ)
  /-- At `publish_writer`, in a call that then returns `r`. -/
  | publishWriter (r : ProducerResult) (p : Publish κ)
  deriving DecidableEq, Repr

/-- Where the consumer is. -/
inductive ConsumerPc (α κ : Type) where
  /-- Between calls, with the result of the last one. -/
  | idle (last : Option (ConsumerResult α))
  | emptyCheck
  | loadWriter
  | emptyRecheck
  | readSlot
  | increment (data : α)
  | batchCheck (data : α)
  /-- At `publish_reader`, in a `pop` that then returns `r`, or in `flush`. -/
  | publishReader (r : ConsumerResult α) (p : Publish κ)
  /-- In `flush`, at `publish_writer`. -/
  | publishWriter (p : Publish κ)
  deriving DecidableEq, Repr

/-- Past the full check, and `localWriter_` not advanced yet. -/
def ProducerPc.atSlot {α κ : Type} : ProducerPc α κ → Bool
  | .writeSlot _ | .increment _ => true
  | _ => false

/-- The call has accepted its element and not returned yet. -/
def ProducerPc.advanced {α κ : Type} : ProducerPc α κ → Bool
  | .batchCheck => true
  | .publishWriter r _ => r == .push true
  | _ => false

/-- Past the empty check, and `localReader_` not advanced yet. -/
def ConsumerPc.atSlot {α κ : Type} : ConsumerPc α κ → Bool
  | .readSlot | .increment _ => true
  | _ => false

/-- The result is that of a `pop` that took an element. -/
def ConsumerResult.taken {α : Type} : ConsumerResult α → Bool
  | .pop (some _) => true
  | _ => false

/-- The call has taken its element and not returned yet. -/
def ConsumerPc.advanced {α κ : Type} : ConsumerPc α κ → Bool
  | .batchCheck _ => true
  | .publishReader r _ => r.taken
  | _ => false

/-- What a step shows. -/
inductive Event (α κ : Type) where
  | loadReader (x : κ)
  | loadWriter (x : κ)
  | storeReader (x : κ)
  | storeWriter (x : κ)
  | writeSlot (i : κ) (data : α)
  | readSlot (i : κ) (data : α)
  | accept (data : α)
  | take (data : α)
  | producerReturn (r : ProducerResult)
  | consumerReturn (r : ConsumerResult α)
  | sizeReturn (n : κ)
  | emptyReturn (b : Bool)
  deriving DecidableEq, Repr

/-- Who goes next, and with what. -/
inductive Act (α : Type) where
  | push (data : α)
  | producerFlush
  /-- The next access of the producer's call; a load is `k` stores behind. -/
  | producer (k : Nat)
  | pop
  | consumerFlush
  /-- The next access of the consumer's call; a load is `k` stores behind. -/
  | consumer (k : Nat)
  | flush
  | size
  | empty
  deriving DecidableEq, Repr

/-- The queue and the two parties. -/
structure State (α κ : Type) where
  q : SPSC α κ
  producer : ProducerPc α κ
  consumer : ConsumerPc α κ

namespace State

variable {α κ : Type}

/-- Before the first call. -/
def start (q : SPSC α κ) : State α κ := ⟨q, .idle none, .idle none⟩

/-- Neither party is inside a call. -/
def quiet (s : State α κ) : Bool :=
  match s.producer, s.consumer with
  | .idle _, .idle _ => true
  | _, _ => false

/-- Both parties of a quiet state are idle. -/
theorem quiet_iff {s : State α κ} :
    s.quiet = true ↔ ∃ l l', s.producer = .idle l ∧ s.consumer = .idle l' := by
  unfold quiet
  split
  · rename_i l l' h h'
    simp [h, h']
  · rename_i h
    simp only [Bool.false_eq_true, false_iff]
    rintro ⟨l, l', hp, hc⟩
    exact h l l' hp hc

end State

section Step

variable {α κ : Type} [OfNat κ 1] [Add κ] [Sub κ] [AndOp κ] [LE κ] [DecidableEq κ] [DecidableLE κ]

/-- The producer's next access: the queue, the producer and the events after it. -/
def stepProducer (PublishBatch : κ) (k : Nat) (q : SPSC α κ) :
    ProducerPc α κ → Option (SPSC α κ × ProducerPc α κ × List (Event α κ))
  | .idle _ => none
  | .fullCheck data => some (q, if q.isFull then .loadReader data else .writeSlot data, [])
  | .loadReader data =>
    (q.reader.load k).map fun p => (q.cacheReader p, .fullRecheck data, [.loadReader p.1])
  | .fullRecheck data =>
    some (q, if q.isFull then .publishWriter (.push false) .read else .writeSlot data, [])
  | .writeSlot data => some (q.writeSlot data, .increment data, [.writeSlot q.writeIndex data])
  | .increment data => some (q.advanceWriter, .batchCheck, [.accept data])
  | .batchCheck =>
    if q.pushDue PublishBatch then some (q, .publishWriter (.push true) .read, [])
    else some (q, .idle (some (.push true)), [.producerReturn (.push true)])
  | .publishReader .read => some (q, .publishReader (.store q.consumer.localReader), [])
  | .publishReader (.store x) =>
    some (q.overwriteReader x, .publishReader .readAgain, [.storeReader x])
  | .publishReader .readAgain => some (q, .publishReader (.mark q.consumer.localReader), [])
  | .publishReader (.mark x) => some (q.markReader x, .publishWriter .flush .read, [])
  | .publishWriter r .read => some (q, .publishWriter r (.store q.producer.localWriter), [])
  | .publishWriter r (.store x) =>
    some (q.storeWriter x, .publishWriter r .readAgain, [.storeWriter x])
  | .publishWriter r .readAgain => some (q, .publishWriter r (.mark q.producer.localWriter), [])
  | .publishWriter r (.mark x) => some (q.markWriter x, .idle (some r), [.producerReturn r])

/-- The consumer's next access: the queue, the consumer and the events after it. -/
def stepConsumer (PublishBatch : κ) (k : Nat) (q : SPSC α κ) :
    ConsumerPc α κ → Option (SPSC α κ × ConsumerPc α κ × List (Event α κ))
  | .idle _ => none
  | .emptyCheck => some (q, if q.isEmpty then .loadWriter else .readSlot, [])
  | .loadWriter =>
    (q.writer.load k).map fun p => (q.cacheWriter p, .emptyRecheck, [.loadWriter p.1])
  | .emptyRecheck =>
    some (q, if q.isEmpty then .publishReader (.pop none) .read else .readSlot, [])
  | .readSlot => some (q, .increment q.readSlot, [.readSlot q.readIndex q.readSlot])
  | .increment data => some (q.advanceReader, .batchCheck data, [.take data])
  | .batchCheck data =>
    if q.popDue PublishBatch then some (q, .publishReader (.pop (some data)) .read, [])
    else some (q, .idle (some (.pop (some data))), [.consumerReturn (.pop (some data))])
  | .publishReader r .read => some (q, .publishReader r (.store q.consumer.localReader), [])
  | .publishReader r (.store x) =>
    some (q.storeReader x, .publishReader r .readAgain, [.storeReader x])
  | .publishReader r .readAgain => some (q, .publishReader r (.mark q.consumer.localReader), [])
  | .publishReader (.pop r) (.mark x) =>
    some (q.markReader x, .idle (some (.pop r)), [.consumerReturn (.pop r)])
  | .publishReader .flush (.mark x) => some (q.markReader x, .publishWriter .read, [])
  | .publishWriter .read => some (q, .publishWriter (.store q.producer.localWriter), [])
  | .publishWriter (.store x) =>
    some (q.overwriteWriter x, .publishWriter .readAgain, [.storeWriter x])
  | .publishWriter .readAgain => some (q, .publishWriter (.mark q.producer.localWriter), [])
  | .publishWriter (.mark x) => some (q.markWriter x, .idle (some .flush), [.consumerReturn .flush])

/-- One step of the two parties. -/
def step (PublishBatch : κ) (s : State α κ) :
    Act α → Option (State α κ × List (Event α κ))
  | .push data =>
    match s.producer with
    | .idle _ => some ({ s with producer := .fullCheck data }, [])
    | _ => none
  | .producerFlush =>
    match s.producer with
    | .idle _ => some ({ s with producer := .publishReader .read }, [])
    | _ => none
  | .producer k =>
    (stepProducer PublishBatch k s.q s.producer).map fun (q, pc, e) => (⟨q, pc, s.consumer⟩, e)
  | .pop =>
    match s.consumer with
    | .idle _ => some ({ s with consumer := .emptyCheck }, [])
    | _ => none
  | .consumerFlush =>
    match s.consumer with
    | .idle _ => some ({ s with consumer := .publishReader .flush .read }, [])
    | _ => none
  | .consumer k =>
    (stepConsumer PublishBatch k s.q s.consumer).map fun (q, pc, e) => (⟨q, s.producer, pc⟩, e)
  | .flush =>
    if s.quiet then
      some ({ s with q := s.q.flush },
        [.storeReader s.q.consumer.localReader, .storeWriter s.q.producer.localWriter])
    else none
  | .size => if s.quiet then some (s, [.sizeReturn s.q.size]) else none
  | .empty => if s.quiet then some (s, [.emptyReturn s.q.empty]) else none

/-- The queue with its two parties, as a machine. -/
def spsc (PublishBatch : κ) : Machine (State α κ) (Act α) (Event α κ) := ⟨step PublishBatch⟩

end Step

/-! ## Kinds of schedules -/

/-- Only the accesses of `push` and `pop` calls. -/
def Act.pushPop {α : Type} : Act α → Bool
  | .push _ | .producer _ | .pop | .consumer _ => true
  | _ => false

/-- A load returns the newest value. -/
def Act.newest {α : Type} : Act α → Bool
  | .producer k | .consumer k => k == 0
  | _ => true

/-- Not the start of a `flush` by a party: `flush` is called only while no other call is in
progress. -/
def Act.calm {α : Type} : Act α → Bool
  | .producerFlush | .consumerFlush => false
  | _ => true

/-- An access of a call by a party, or its start. -/
def Act.party {α : Type} : Act α → Bool
  | .flush | .size | .empty => false
  | _ => true

/-! ## Histories -/

section History

variable {α κ : Type}

/-- The values of the accepted pushes, in order. -/
def accepted (es : List (Event α κ)) : List α :=
  es.filterMap fun
    | .accept data => some data
    | _ => none

/-- The values of the pops that are done, in order. -/
def popped (es : List (Event α κ)) : List α :=
  es.filterMap fun
    | .take data => some data
    | _ => none

/-- What the finished push calls returned, in order. -/
def pushResults (es : List (Event α κ)) : List Bool :=
  es.filterMap fun
    | .producerReturn (.push ok) => some ok
    | _ => none

/-- What the finished pop calls returned, in order. -/
def popResults (es : List (Event α κ)) : List (Option α) :=
  es.filterMap fun
    | .consumerReturn (.pop r) => some r
    | _ => none

variable (es es' : List (Event α κ))

@[simp] theorem accepted_append : accepted (es ++ es') = accepted es ++ accepted es' :=
  List.filterMap_append

@[simp] theorem popped_append : popped (es ++ es') = popped es ++ popped es' :=
  List.filterMap_append

@[simp] theorem pushResults_append : pushResults (es ++ es') = pushResults es ++ pushResults es' :=
  List.filterMap_append

@[simp] theorem popResults_append : popResults (es ++ es') = popResults es ++ popResults es' :=
  List.filterMap_append

end History

end FastQ
