import FastQ.Queue.Moves

/-!
# `size` and `empty` while the queue is in use

`size` and `empty` load both shared counters, and C++ leaves the order of the two loads open. Here a
query is its two loads, in either order, and the parties may take any number of steps between them.
The threads are the producer, the consumer, and a third one that only observes.

* A thread makes one call at a time: a party starts a query between its own calls, and makes no
  access of a `push` or a `pop` while it is inside the query.
* The party that loads a counter in its calls may see older values of it, in a query too. A party's
  own counter and the loads of the third thread give the newest value. A query does not change which
  values may be seen later, so the loads here may return more than those of the program.
* A query that loaded `x` from `writer_` and `y` from `reader_` returns `sizeResult x y` or
  `emptyResult x y`; the event `returned` shows the two values.
-/

namespace FastQ

/-- The two queries. -/
inductive Query where
  | size
  | empty
  deriving DecidableEq, Repr

/-- The threads that make queries. -/
inductive Observer where
  | producer
  | consumer
  | third
  deriving DecidableEq, Repr

/-- Where a thread is in a query. -/
inductive QueryPc (κ : Type) where
  | out
  | start (c : Query)
  | loadedWriter (c : Query) (x : κ)
  | loadedReader (c : Query) (y : κ)
  deriving DecidableEq, Repr

/-- The queue with its parties, and the queries of the threads. -/
structure Observed (α κ : Type) where
  s : State α κ
  query : Observer → QueryPc κ

/-- Who goes next. -/
inductive QueryAct (α : Type) where
  | queue (a : Act α)
  | query (t : Observer) (c : Query)
  /-- A load of a query; it is `k` stores behind if the thread may see older values. -/
  | loadWriter (t : Observer) (k : Nat)
  | loadReader (t : Observer) (k : Nat)
  deriving DecidableEq, Repr

/-- What a step shows. -/
inductive QueryEvent (α κ : Type) where
  | queue (e : Event α κ)
  | loadWriter (t : Observer) (x : κ)
  | loadReader (t : Observer) (y : κ)
  | returned (t : Observer) (c : Query) (x y : κ)
  deriving DecidableEq, Repr

/-- What `size` returns. -/
def sizeResult {κ : Type} [Sub κ] (x y : κ) : κ := x - y

/-- What `empty` returns. -/
def emptyResult {κ : Type} [DecidableEq κ] (x y : κ) : Bool := x = y

section Observed

variable {α κ : Type}

/-- Before the first call. -/
def Observed.start (q : SPSC α κ) : Observed α κ := ⟨.start q, fun _ => .out⟩

/-- The thread goes on to `pc`. -/
def Observed.goTo (o : Observed α κ) (t : Observer) (pc : QueryPc κ) : Observed α κ :=
  { o with query := Function.update o.query t pc }

@[simp] theorem Observed.query_goTo (o : Observed α κ) (t : Observer) (pc : QueryPc κ) :
    (o.goTo t pc).query t = pc := Function.update_self _ _ _

theorem Observed.query_goTo_of_ne (o : Observed α κ) {t t' : Observer} (h : t' ≠ t)
    (pc : QueryPc κ) : (o.goTo t pc).query t' = o.query t' := Function.update_of_ne h _ _

/-- The thread is between its calls of `push`, `pop` and `flush`. -/
def State.between (s : State α κ) : Observer → Bool
  | .producer => match s.producer with
    | .idle _ => true
    | _ => false
  | .consumer => match s.consumer with
    | .idle _ => true
    | _ => false
  | .third => true

/-- A producer between its calls is idle. -/
theorem State.between_producer {s : State α κ} (h : s.between .producer = true) :
    ∃ l, s.producer = .idle l := by
  obtain ⟨q, p, c⟩ := s
  cases p with
  | idle l => exact ⟨l, rfl⟩
  | _ => cases h

/-- A consumer between its calls is idle. -/
theorem State.between_consumer {s : State α κ} (h : s.between .consumer = true) :
    ∃ l, s.consumer = .idle l := by
  obtain ⟨q, p, c⟩ := s
  cases c with
  | idle l => exact ⟨l, rfl⟩
  | _ => cases h

/-- The thread is not inside a query. -/
def QueryPc.free : QueryPc κ → Bool
  | .out => true
  | _ => false

/-- The party that goes next is not inside a query. -/
def Observed.free (o : Observed α κ) : Act α → Bool
  | .push _ | .producerFlush | .producer _ => (o.query .producer).free
  | .pop | .consumerFlush | .consumer _ => (o.query .consumer).free
  | .flush | .size | .empty => (o.query .producer).free && (o.query .consumer).free

/-- The value that a thread's load of `writer_` gives. -/
def SPSC.seenWriter (q : SPSC α κ) (k : Nat) : Observer → Option κ
  | .consumer => q.writer.visible[k]?
  | _ => some q.writer.value

/-- The value that a thread's load of `reader_` gives. -/
def SPSC.seenReader (q : SPSC α κ) (k : Nat) : Observer → Option κ
  | .producer => q.reader.visible[k]?
  | _ => some q.reader.value

end Observed

section Step

variable {α κ : Type} [OfNat κ 1] [Add κ] [Sub κ] [AndOp κ] [LE κ] [DecidableEq κ] [DecidableLE κ]

/-- One step of the parties, or of a query. -/
def stepObserved (PublishBatch : κ) (o : Observed α κ) :
    QueryAct α → Option (Observed α κ × List (QueryEvent α κ))
  | .queue a =>
    if o.free a then
      ((spsc PublishBatch).step o.s a).map fun (s, e) => ({ o with s }, e.map .queue)
    else none
  | .query t c =>
    match o.query t with
    | .out => if o.s.between t then some (o.goTo t (.start c), []) else none
    | _ => none
  | .loadWriter t k =>
    (o.s.q.seenWriter k t).bind fun x =>
      match o.query t with
      | .start c => some (o.goTo t (.loadedWriter c x), [.loadWriter t x])
      | .loadedReader c y => some (o.goTo t .out, [.loadWriter t x, .returned t c x y])
      | _ => none
  | .loadReader t k =>
    (o.s.q.seenReader k t).bind fun y =>
      match o.query t with
      | .start c => some (o.goTo t (.loadedReader c y), [.loadReader t y])
      | .loadedWriter c x => some (o.goTo t .out, [.loadReader t y, .returned t c x y])
      | _ => none

/-- The queue with its parties and the queries, as a machine. -/
def observed (PublishBatch : κ) : Machine (Observed α κ) (QueryAct α) (QueryEvent α κ) :=
  ⟨stepObserved PublishBatch⟩

/-! ## What a step can do -/

/-- The steps of the parties and of the queries. -/
inductive QueryMove (PublishBatch : κ) (o : Observed α κ) :
    QueryAct α → Observed α κ → List (QueryEvent α κ) → Prop
  | queue {a : Act α} {s : State α κ} {e : List (Event α κ)} : o.free a = true →
      (spsc PublishBatch).step o.s a = some (s, e) →
      QueryMove PublishBatch o (.queue a) { o with s } (e.map .queue)
  | query {t : Observer} {c : Query} : o.query t = .out → o.s.between t = true →
      QueryMove PublishBatch o (.query t c) (o.goTo t (.start c)) []
  | firstWriter {t : Observer} {k : Nat} {c : Query} {x : κ} : o.query t = .start c →
      o.s.q.seenWriter k t = some x →
      QueryMove PublishBatch o (.loadWriter t k) (o.goTo t (.loadedWriter c x)) [.loadWriter t x]
  | firstReader {t : Observer} {k : Nat} {c : Query} {y : κ} : o.query t = .start c →
      o.s.q.seenReader k t = some y →
      QueryMove PublishBatch o (.loadReader t k) (o.goTo t (.loadedReader c y)) [.loadReader t y]
  | thenWriter {t : Observer} {k : Nat} {c : Query} {x y : κ} : o.query t = .loadedReader c y →
      o.s.q.seenWriter k t = some x →
      QueryMove PublishBatch o (.loadWriter t k) (o.goTo t .out)
        [.loadWriter t x, .returned t c x y]
  | thenReader {t : Observer} {k : Nat} {c : Query} {x y : κ} : o.query t = .loadedWriter c x →
      o.s.q.seenReader k t = some y →
      QueryMove PublishBatch o (.loadReader t k) (o.goTo t .out)
        [.loadReader t y, .returned t c x y]

theorem observed_move {PublishBatch : κ} {o o' : Observed α κ} {a : QueryAct α}
    {e : List (QueryEvent α κ)} (h : (observed PublishBatch).step o a = some (o', e)) :
    QueryMove PublishBatch o a o' e := by
  cases a with
  | queue a =>
    obtain ⟨hf, h⟩ := Option.ite_none_right_eq_some.mp h
    obtain ⟨⟨s, e⟩, hst, h⟩ := Option.map_eq_some_iff.mp h
    cases h
    exact .queue hf hst
  | query t c =>
    cases ht : o.query t <;> simp only [observed, stepObserved, ht] at h
    case out =>
      obtain ⟨hb, h⟩ := Option.ite_none_right_eq_some.mp h
      cases h
      exact .query ht hb
    all_goals cases h
  | loadWriter t k =>
    obtain ⟨x, hx, h⟩ := Option.bind_eq_some_iff.mp h
    cases ht : o.query t <;> simp only [ht] at h <;> cases h
    · exact .firstWriter ht hx
    · exact .thenWriter ht hx
  | loadReader t k =>
    obtain ⟨y, hy, h⟩ := Option.bind_eq_some_iff.mp h
    cases ht : o.query t <;> simp only [ht] at h <;> cases h
    · exact .firstReader ht hy
    · exact .thenReader ht hy

end Step

/-! ## Kinds of schedules and of events -/

section History

variable {α κ : Type}

/-- Only the accesses of `push` and `pop` calls, and queries. -/
def QueryAct.pushPop : QueryAct α → Bool
  | .queue a => a.pushPop
  | _ => true

/-- A load returns the newest value. -/
def QueryAct.newest : QueryAct α → Bool
  | .queue a => a.newest
  | .loadWriter _ k | .loadReader _ k => k == 0
  | _ => true

/-- The events of the queue. -/
def QueryEvent.ofQueue : QueryEvent α κ → Option (Event α κ)
  | .queue e => some e
  | _ => none

/-- The history of the queue. -/
def queueEvents (es : List (QueryEvent α κ)) : List (Event α κ) := es.filterMap QueryEvent.ofQueue

/-- The event belongs to a query of the thread. -/
def QueryEvent.of (t : Observer) : QueryEvent α κ → Bool
  | .queue _ => false
  | .loadWriter t' _ | .loadReader t' _ | .returned t' _ _ _ => t' == t

@[simp] theorem queueEvents_append (es es' : List (QueryEvent α κ)) :
    queueEvents (es ++ es') = queueEvents es ++ queueEvents es' := List.filterMap_append

@[simp] theorem queueEvents_queue (es : List (Event α κ)) : queueEvents (es.map .queue) = es := by
  unfold queueEvents
  rw [List.filterMap_map]
  exact List.filterMap_some

end History

end FastQ
