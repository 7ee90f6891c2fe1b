import FastQ.Lib.Guarded
import FastQ.Queue.Script

/-!
# `MutexQueue` and `MutexDeque`, access by access

`write` and `read` of `includes/mutex_queue.hpp` and `includes/mutex_deque.hpp`, as the accesses
that they make between the lock and the unlock of their `lock_guard`. The two classes have the same
code over a `std::queue` and a `std::deque`; they differ in what `write` returns (`written`).

The `front` and the `pop` of an empty container are undefined, and not enabled here. `std::move` out
of the front leaves an element that nobody looks at before it is removed: it stays in the list.
-/

namespace FastQ

/-- A call. -/
inductive LockedCall (α : Type) where
  | write (data : α)
  | read
  deriving DecidableEq, Repr

/-- What a call returned (`read none` is a return of `false`). -/
inductive LockedAnswer (α β : Type) where
  | write (r : β)
  | read (r : Option α)
  deriving DecidableEq, Repr

/-- Where a thread is in a call, with the lock taken. -/
inductive LockedPc (α : Type) where
  /-- `q.push(std::move(data))`, `dq.push_back(data)`. -/
  | push (data : α)
  /-- `q.empty()`. -/
  | empty
  /-- `data = std::move(q.front())`. -/
  | front
  /-- `q.pop()`, `dq.pop_front()`. -/
  | pop (data : α)
  deriving DecidableEq, Repr

section

variable {α β : Type}

/-- One access to the container. -/
def lockedAccess (written : β) (q : List α) :
    LockedPc α → Option (List α × (LockedPc α ⊕ LockedAnswer α β))
  | .push data => some (q ++ [data], .inr (.write written))
  | .empty => some (q, if q.isEmpty then .inr (.read none) else .inl .front)
  | .front => q.head?.map fun data => (q, .inl (.pop data))
  | .pop data => q.head?.map fun _ => (q.tail, .inr (.read (some data)))

/-- The calls. -/
def lockedBody (written : β) :
    Monitor.Body (List α) (LockedCall α) (LockedAnswer α β) (LockedPc α) where
  enter
    | .write data => .push data
    | .read => .empty
  access := lockedAccess written
  writes
    | .empty => false
    | _ => true

/-- `MutexQueue`: `write` returns `true`. -/
def MutexQueue.body : Monitor.Body (List α) (LockedCall α) (LockedAnswer α Bool) (LockedPc α) :=
  lockedBody true

/-- `MutexDeque`: `write` returns nothing. -/
def MutexDeque.body : Monitor.Body (List α) (LockedCall α) (LockedAnswer α Unit) (LockedPc α) :=
  lockedBody ()

/-- What a call does that nothing interrupts, by the atomic `write` and `read` of `MutexQueue`. -/
def lockedCall (written : β) : LockedCall α → List α → LockedAnswer α β × List α
  | .write data, q => (.write written, ((⟨q⟩ : MutexQueue α).write data).2.q)
  | .read, q => (.read (⟨q⟩ : MutexQueue α).read.1, (⟨q⟩ : MutexQueue α).read.2.q)

/-- The values that were written, in the order of the returns. -/
def writesOf {τ : Type} (rs : List (τ × LockedCall α × LockedAnswer α β)) : List α :=
  rs.filterMap fun
    | (_, .write data, _) => some data
    | _ => none

/-- The values that were read, in the order of the returns. -/
def readsOf {τ : Type} (rs : List (τ × LockedCall α × LockedAnswer α β)) : List α :=
  rs.filterMap fun
    | (_, _, .read r) => r
    | _ => none

end

end FastQ
