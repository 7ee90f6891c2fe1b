import FastQ.Lib.Machine
import FastQ.Queue.Basic

/-!
# Scripts of calls, and the queue of the benchmark that locks

Calls of the queue that run one at a time, as a machine: a schedule is a script of calls, its events
are what the calls returned. `MutexQueue` is the queue of `includes/mutex_queue.hpp`; its calls are
serialised by the mutex, so it is the list in it. `boundedMutexQueue` is that queue with a bound on
its length.
-/

namespace FastQ

/-- A call. -/
inductive Call (α : Type) where
  | push (data : α)
  | pop
  | flush
  | size
  | empty
  deriving DecidableEq, Repr

/-- What a call returned. -/
inductive Answer (α κ : Type) where
  | push (ok : Bool)
  | pop (r : Option α)
  | size (n : κ)
  | empty (b : Bool)
  deriving DecidableEq, Repr

/-- The call is a `push` or a `pop`. -/
def Call.access {α : Type} : Call α → Bool
  | .push _ | .pop => true
  | _ => false

section Calls

variable {α κ : Type} [OfNat κ 1] [Add κ] [Sub κ] [AndOp κ] [LE κ] [DecidableEq κ] [DecidableLE κ]

/-- One call. -/
def SPSC.call (PublishBatch : κ) (q : SPSC α κ) : Call α → SPSC α κ × List (Answer α κ)
  | .push data => ((q.push PublishBatch data).2, [.push (q.push PublishBatch data).1])
  | .pop => ((q.pop PublishBatch).2, [.pop (q.pop PublishBatch).1])
  | .flush => (q.flush, [])
  | .size => (q, [.size q.size])
  | .empty => (q, [.empty q.empty])

/-- The queue, as a machine whose steps are whole calls. -/
def calls (PublishBatch : κ) : Machine (SPSC α κ) (Call α) (Answer α κ) :=
  ⟨fun q c => some (q.call PublishBatch c)⟩

end Calls

/-! ## `MutexQueue` -/

/-- `MutexQueue`: the `std::queue` that its mutex guards. -/
structure MutexQueue (α : Type) where
  q : List α
  deriving DecidableEq, Repr

namespace MutexQueue

variable {α κ : Type}

/-- `write`. -/
def write (m : MutexQueue α) (data : α) : Bool × MutexQueue α := (true, ⟨m.q ++ [data]⟩)

/-- `read`: `none` is a return of `false`. -/
def read (m : MutexQueue α) : Option α × MutexQueue α :=
  match m.q with
  | [] => (none, m)
  | data :: q => (some data, ⟨q⟩)

/-- `write`, refused exactly when the queue already holds `capacity` elements. -/
def boundedWrite (capacity : Nat) (m : MutexQueue α) (data : α) : Bool × MutexQueue α :=
  if m.q.length = capacity then (false, m) else m.write data

end MutexQueue

/-- The bounded `MutexQueue`: it offers `push` and `pop` only. -/
def boundedMutexQueue {α κ : Type} (capacity : Nat) :
    Machine (MutexQueue α) (Call α) (Answer α κ) where
  step m
    | .push data =>
      some ((m.boundedWrite capacity data).2, [.push (m.boundedWrite capacity data).1])
    | .pop => some (m.read.2, [.pop m.read.1])
    | _ => none

end FastQ
