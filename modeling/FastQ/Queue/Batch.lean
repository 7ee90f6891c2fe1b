import FastQ.Queue.Script

/-!
# A bounded queue that publishes in batches

What `SPSC` is for, without counters, slots and caches, when its calls run one at a time: a bounded
queue with a delay at both of its ends.

* An element that was pushed is first `pending`, and cannot be popped. A slot that was popped is
  first `freed`, and cannot be pushed into.
* A batch of `PublishBatch` pending elements is published, as is what there is of one when a push
  finds no room. A batch of freed slots is given back, as is what there is of one when a pop finds
  no element. `flush` does both.
* A slot in use is one that holds an element or is freed; there are never more than `capacity`,
  which is a field of the queue.
-/

namespace FastQ

/-- The published elements, the pending ones, and the number of freed slots (module doc). -/
structure BatchQueue (α : Type) (capacity : Nat) where
  published : List α
  pending : List α
  freed : Nat
  bound : published.length + pending.length + freed ≤ capacity

namespace BatchQueue

variable {α : Type} {capacity : Nat}

/-- Nothing was pushed. -/
def new (capacity : Nat) : BatchQueue α capacity := ⟨[], [], 0, Nat.zero_le _⟩

/-- All slots are in use. -/
def Full (b : BatchQueue α capacity) : Prop :=
  b.published.length + b.pending.length + b.freed = capacity

instance (b : BatchQueue α capacity) : Decidable b.Full := inferInstanceAs (Decidable (_ = _))

/-- The pending elements are published. -/
def publish (b : BatchQueue α capacity) : BatchQueue α capacity :=
  ⟨b.published ++ b.pending, [], b.freed, by
    have := b.bound
    simp only [List.length_append, List.length_nil]
    omega⟩

/-- The freed slots are given back. -/
def giveBack (b : BatchQueue α capacity) : BatchQueue α capacity :=
  ⟨b.published, b.pending, 0, by
    have := b.bound
    omega⟩

/-- An element is appended to the pending ones. -/
def append (b : BatchQueue α capacity) (data : α) (h : ¬ b.Full) : BatchQueue α capacity :=
  ⟨b.published, b.pending ++ [data], b.freed, by
    have := b.bound
    unfold Full at h
    simp only [List.length_append, List.length_singleton]
    omega⟩

/-- The first published element is removed. -/
def remove (b : BatchQueue α capacity) {data : α} {rest : List α} (h : b.published = data :: rest) :
    BatchQueue α capacity :=
  ⟨rest, b.pending, b.freed + 1, by
    have := b.bound
    rw [h, List.length_cons] at this
    omega⟩

variable (PublishBatch : Nat)

/-- `push`. -/
def push (b : BatchQueue α capacity) (data : α) : Bool × BatchQueue α capacity :=
  if h : b.Full then (false, b.publish)
  else
    let b := b.append data h
    (true, if PublishBatch ≤ b.pending.length then b.publish else b)

/-- `pop`. -/
def pop (b : BatchQueue α capacity) : Option α × BatchQueue α capacity :=
  match h : b.published with
  | [] => (none, b.giveBack)
  | data :: _ =>
    let b := b.remove h
    (some data, if PublishBatch ≤ b.freed then b.giveBack else b)

/-- `flush`. -/
def flush (b : BatchQueue α capacity) : BatchQueue α capacity := b.giveBack.publish

/-- `size`: the pending elements are not counted, the freed slots are. -/
def size (b : BatchQueue α capacity) : Nat := b.published.length + b.freed

/-- `empty`. -/
def empty (b : BatchQueue α capacity) : Bool := b.size = 0

/-- One call. -/
def call (b : BatchQueue α capacity) : Call α → BatchQueue α capacity × List (Answer α Nat)
  | .push data => ((b.push PublishBatch data).2, [.push (b.push PublishBatch data).1])
  | .pop => ((b.pop PublishBatch).2, [.pop (b.pop PublishBatch).1])
  | .flush => (b.flush, [])
  | .size => (b, [.size b.size])
  | .empty => (b, [.empty b.empty])

end BatchQueue

/-- The queue that publishes in batches, as a machine whose steps are whole calls. -/
def batchQueue {α : Type} (capacity PublishBatch : Nat) :
    Machine (BatchQueue α capacity) (Call α) (Answer α Nat) :=
  ⟨fun b c => some (b.call PublishBatch c)⟩

/-- A size of 64 bits. -/
def Answer.wrap {α : Type} : Answer α Nat → Answer α (BitVec 64)
  | .push ok => .push ok
  | .pop r => .pop r
  | .size n => .size (BitVec.ofNat 64 n)
  | .empty b => .empty b

end FastQ
