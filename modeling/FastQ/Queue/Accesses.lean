import FastQ.Lib.Races
import FastQ.Queue.Steps

/-!
# The memory accesses of the calls

The steps of `stepProducer` and `stepConsumer` with the accesses that they make, as
`spsc_queue.hpp` has them: plain reads and writes of the members and of the slots, acquire loads
and release stores of the two shared counters.

* `Location`: what some call writes. `buffer_`, `mask_` and `capacity_` are written by the
  constructor only, before the threads start, and are left out.
* `Sources`: for each value of a shared counter that its loading party may still see, the position
  of the store that wrote it. It goes along with the values of `Atomic`.
* `traced`: the queue with its two parties, and the accesses as events. The single actions `flush`,
  `size` and `empty` are calls outside of the two threads, and are not traced.
-/

namespace FastQ

/-- The two threads. -/
inductive Party where
  | producer
  | consumer
  deriving DecidableEq, Repr

def Party.other : Party → Party
  | .producer => .consumer
  | .consumer => .producer

/-- The memory of the queue, with one flag of the program around it. -/
inductive Location (κ : Type) where
  /-- `buffer_[i]`. -/
  | slot (i : κ)
  /-- `writer_.value_` of the producer, `reader_.value_` of the consumer. -/
  | shared (o : Party)
  /-- `producer_.localWriter_`, `consumer_.localReader_`. -/
  | counter (o : Party)
  /-- `producer_.cachedReader_`, `consumer_.cachedWriter_`. -/
  | cache (o : Party)
  /-- `producer_.lastPublished_`, `consumer_.lastPublished_`. -/
  | mark (o : Party)
  /-- An atomic flag outside of the queue. -/
  | flag
  deriving DecidableEq, Repr

section Accesses

variable {α κ : Type}

/-- The accesses of `publish_writer` or `publish_reader` by a thread: the counter of `o` is
published. -/
def Publish.accesses (t o : Party) : Publish κ → List (Access Party (Location κ))
  | .read | .readAgain => [⟨t, .counter o, .read⟩]
  | .store _ => [⟨t, .shared o, .release⟩]
  | .mark _ => [⟨t, .mark o, .write⟩]

/-- The accesses of the producer's next step; a load reads the store `source`. -/
def ProducerPc.accesses (writeIndex : κ) (source : Option Nat) :
    ProducerPc α κ → List (Access Party (Location κ))
  | .idle _ => []
  | .fullCheck _ | .fullRecheck _ =>
    [⟨.producer, .counter .producer, .read⟩, ⟨.producer, .cache .producer, .read⟩]
  | .loadReader _ =>
    [⟨.producer, .shared .consumer, .acquire source⟩, ⟨.producer, .cache .producer, .write⟩]
  | .writeSlot _ =>
    [⟨.producer, .counter .producer, .read⟩, ⟨.producer, .slot writeIndex, .write⟩]
  | .increment _ =>
    [⟨.producer, .counter .producer, .read⟩, ⟨.producer, .counter .producer, .write⟩]
  | .batchCheck =>
    [⟨.producer, .counter .producer, .read⟩, ⟨.producer, .mark .producer, .read⟩]
  | .publishReader p => p.accesses .producer .consumer
  | .publishWriter _ p => p.accesses .producer .producer

/-- The accesses of the consumer's next step; a load reads the store `source`. -/
def ConsumerPc.accesses (readIndex : κ) (source : Option Nat) :
    ConsumerPc α κ → List (Access Party (Location κ))
  | .idle _ => []
  | .emptyCheck | .emptyRecheck =>
    [⟨.consumer, .counter .consumer, .read⟩, ⟨.consumer, .cache .consumer, .read⟩]
  | .loadWriter =>
    [⟨.consumer, .shared .producer, .acquire source⟩, ⟨.consumer, .cache .consumer, .write⟩]
  | .readSlot =>
    [⟨.consumer, .counter .consumer, .read⟩, ⟨.consumer, .slot readIndex, .read⟩]
  | .increment _ =>
    [⟨.consumer, .counter .consumer, .read⟩, ⟨.consumer, .counter .consumer, .write⟩]
  | .batchCheck _ =>
    [⟨.consumer, .counter .consumer, .read⟩, ⟨.consumer, .mark .consumer, .read⟩]
  | .publishReader _ p => p.accesses .consumer .consumer
  | .publishWriter p => p.accesses .consumer .producer

/-- The stores that loads may read (module doc), newest first; `none` is the initial value. `clock`
is the number of accesses so far. -/
structure Sources where
  clock : Nat
  writer : List (Option Nat)
  reader : List (Option Nat)
  deriving DecidableEq, Repr

/-- Before the first call. -/
def Sources.start : Sources := ⟨0, [none], [none]⟩

/-- The stores after the producer's next step, but for the clock. -/
def ProducerPc.sources (k : Nat) (src : Sources) : ProducerPc α κ → Sources
  | .loadReader _ => { src with reader := src.reader.take (k + 1) }
  | .publishReader (.store _) => { src with reader := [some src.clock] }
  | .publishWriter _ (.store _) => { src with writer := some src.clock :: src.writer }
  | _ => src

/-- The stores after the consumer's next step, but for the clock. -/
def ConsumerPc.sources (k : Nat) (src : Sources) : ConsumerPc α κ → Sources
  | .loadWriter => { src with writer := src.writer.take (k + 1) }
  | .publishReader _ (.store _) => { src with reader := some src.clock :: src.reader }
  | .publishWriter (.store _) => { src with writer := [some src.clock] }
  | _ => src

/-- The accesses of a step. -/
def State.accesses [AndOp κ] (s : State α κ) (src : Sources) :
    Act α → List (Access Party (Location κ))
  | .producer k => s.producer.accesses s.q.writeIndex src.reader[k]?.join
  | .consumer k => s.consumer.accesses s.q.readIndex src.writer[k]?.join
  | _ => []

/-- The stores after a step. -/
def State.sources [AndOp κ] (s : State α κ) (src : Sources) (a : Act α) : Sources :=
  let after := match a with
    | .producer k => s.producer.sources k src
    | .consumer k => s.consumer.sources k src
    | _ => src
  { after with clock := src.clock + (s.accesses src a).length }

end Accesses

/-- The queue with its two parties, and the stores that loads may read. -/
structure Traced (α κ : Type) where
  s : State α κ
  src : Sources

/-- Before the first call. -/
def Traced.start {α κ : Type} (q : SPSC α κ) : Traced α κ := ⟨.start q, .start⟩

section Traced

variable {α κ : Type} [OfNat κ 1] [Add κ] [Sub κ] [AndOp κ] [LE κ] [DecidableEq κ] [DecidableLE κ]

/-- The calls of the two parties, with their accesses as events. -/
def traced (PublishBatch : κ) : Machine (Traced α κ) (Act α) (Access Party (Location κ)) where
  step T a :=
    if a.party then
      (step PublishBatch T.s a).map fun (s, _) =>
        (⟨s, T.s.sources T.src a⟩, T.s.accesses T.src a)
    else none

end Traced

end FastQ
