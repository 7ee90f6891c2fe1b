import FastQ.Queue.Accesses
import FastQ.Queue.Rigtorp

/-!
# The memory accesses of `rigtorp::SPSCQueue`

The steps of the two parties with the accesses that they make, as `SPSCQueue.h` has them: to
construct and to destroy an object are writes to its slot, `*ptr` is a read. `capacity_`, `slots_`
and the allocator are written by the constructor only, and are left out. A party loads its own index
with `memory_order_relaxed`.
-/

namespace FastQ

namespace Rigtorp

/-- What some call writes. -/
inductive Location where
  | slot (i : Nat)
  | writeIdx
  | readIdxCache
  | readIdx
  | writeIdxCache
  deriving DecidableEq, Repr

variable {α : Type}

/-- The accesses of the producer's next step; a load reads the store `source`. -/
def ProducerPc.accesses (source : Option Nat) : ProducerPc α → List (Access Party Location)
  | .idle _ => []
  | .loadWrite _ _ => [⟨.producer, .writeIdx, .relaxed⟩]
  | .check _ _ _ | .recheck _ _ => [⟨.producer, .readIdxCache, .read⟩]
  | .loadRead _ _ _ =>
    [⟨.producer, .readIdx, .acquire source⟩, ⟨.producer, .readIdxCache, .write⟩]
  | .construct _ w => [⟨.producer, .slot w, .write⟩]
  | .storeWrite _ _ => [⟨.producer, .writeIdx, .release⟩]

/-- The accesses of the consumer's next step; a load reads the store `source`. -/
def ConsumerPc.accesses (source : Option Nat) : ConsumerPc → List (Access Party Location)
  | .idle _ | .aborted => []
  | .frontLoad | .popLoad => [⟨.consumer, .readIdx, .relaxed⟩]
  | .check _ | .recheck _ => [⟨.consumer, .writeIdxCache, .read⟩]
  | .loadWrite _ =>
    [⟨.consumer, .writeIdx, .acquire source⟩, ⟨.consumer, .writeIdxCache, .write⟩]
  | .assertWrite _ => [⟨.consumer, .writeIdx, .acquire source⟩]
  | .destroy r => [⟨.consumer, .slot r, .write⟩]
  | .storeRead _ => [⟨.consumer, .readIdx, .release⟩]

/-- The stores after the producer's next step, but for the clock. -/
def ProducerPc.sources (k : Nat) (src : Sources) : ProducerPc α → Sources
  | .loadRead _ _ _ => { src with reader := src.reader.take (k + 1) }
  | .storeWrite _ _ => { src with writer := some src.clock :: src.writer }
  | _ => src

/-- The stores after the consumer's next step, but for the clock. -/
def ConsumerPc.sources (k : Nat) (src : Sources) : ConsumerPc → Sources
  | .loadWrite _ | .assertWrite _ => { src with writer := src.writer.take (k + 1) }
  | .storeRead _ => { src with reader := some src.clock :: src.reader }
  | _ => src

/-- The accesses of a step. -/
def State.accesses (s : State α) (src : Sources) : Act α → List (Access Party Location)
  | .producer k => s.producer.accesses src.reader[k]?.join
  | .consumer k => s.consumer.accesses src.writer[k]?.join
  | .deref =>
    match s.consumer with
    | .idle (some r) => [⟨.consumer, .slot r, .read⟩]
    | _ => []
  | _ => []

/-- The stores after a step. -/
def State.sources (s : State α) (src : Sources) (a : Act α) : Sources :=
  let after := match a with
    | .producer k => s.producer.sources k src
    | .consumer k => s.consumer.sources k src
    | _ => src
  { after with clock := src.clock + (s.accesses src a).length }

/-- The queue with its two parties, and the stores that loads may read. -/
structure Traced (α : Type) where
  s : State α
  src : Sources

/-- Before the first call. -/
def Traced.start (q : SPSCQueue α) : Traced α := ⟨.start q, .start⟩

/-- The calls of the two parties, with their accesses as events. -/
def tracedQueue : Machine (Traced α) (Act α) (Access Party Location) where
  step T a :=
    (step T.s a).map fun (s, _) => (⟨s, T.s.sources T.src a⟩, T.s.accesses T.src a)

end Rigtorp

end FastQ
