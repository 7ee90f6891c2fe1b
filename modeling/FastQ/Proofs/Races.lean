import FastQ.Lib.Handoff
import FastQ.Queue.Accesses
import FastQ.Proofs.Publication

/-!
# Data races

The slots are plain memory that both threads use, so their safety rests on the acquire loads of the
two shared counters. The producer's write number `m` to the slots, and the consumer's read number
`m`, go to the slot `m % capacity`; each party publishes how many it has made (`Tells`). So a party
that gets to a slot knows all earlier uses of it by the other one.

* `Lawful`: what the parties access while neither is in the half of a `flush` that publishes the
  other's counter (`State.apart`). Such accesses conflict at the slots only.
* `Tracked`: the invariant of such runs; runs of pushes and pops are free of data races
  (`push_pop_raceFree`).
* `Marked`: after a call, the last access of `lastPublished_` is newer than every store, so no
  acquire load covers it. A `flush` by the other thread writes it (`flush_raceFree_iff`).
-/

namespace FastQ

open Races

variable {α κ : Type}

/-! ## The accesses of the parties -/

/-- The producer's writes to the slots, the consumer's reads. -/
def Party.atSlot (o : Party) (a : Access Party (Location κ)) : Bool :=
  match a.loc with
  | .slot _ => a.thread == o
  | _ => false

/-- What the parties do: each keeps to its own members, the producer writes to the slots, the
consumer reads them, and the rest is atomic. -/
def Lawful (a : Access Party (Location κ)) : Prop :=
  match a.loc with
  | .slot _ => a.thread = .producer ∧ a.kind = .write ∨ a.thread = .consumer ∧ a.kind = .read
  | .shared _ | .flag => a.kind.plain = false
  | .counter o | .cache o | .mark o => a.thread = o

/-- Neither a slot nor an acquire load that reads a store. -/
@[mk_iff] structure Neutral (a : Access Party (Location κ)) : Prop where
  lawful : Lawful a
  slot : ∀ i, a.loc ≠ .slot i
  acquire : ∀ i, a.kind ≠ .acquire (some i)

theorem Party.atSlot_iff {o : Party} {a : Access Party (Location κ)} :
    o.atSlot a = true ↔ a.thread = o ∧ ∃ i, a.loc = .slot i := by
  unfold atSlot
  split
  · rename_i i hi
    simp [hi]
  · rename_i hno
    simp only [Bool.false_eq_true, false_iff, not_and, not_exists]
    exact fun _ i hi => hno i hi

theorem Neutral.atSlot {a : Access Party (Location κ)} (h : Neutral a) (o : Party) :
    o.atSlot a = false := by
  by_contra hs
  obtain ⟨-, i, hi⟩ := Party.atSlot_iff.mp (Bool.eq_true_of_not_eq_false hs)
  exact h.slot i hi

theorem Party.eq_other {o o' : Party} (h : o ≠ o') : o' = o.other := by
  cases o <;> cases o' <;> first | rfl | exact (h rfl).elim

/-- Lawful accesses conflict at the slots only. -/
theorem Lawful.conflict {a b : Access Party (Location κ)} (ha : Lawful a) (hb : Lawful b)
    (hc : Conflict a b) : b.thread = a.thread.other ∧ ∃ i, a.loc = .slot i ∧ b.loc = .slot i := by
  refine ⟨Party.eq_other hc.thread, ?_⟩
  have hloc := hc.loc
  unfold Lawful at ha hb
  rw [← hloc] at hb ⊢
  split at ha
  · rename_i i hi
    exact ⟨i, hi, hi⟩
  · rename_i o hi
    rw [hi] at hb
    simpa [ha, show b.kind.plain = false from hb] using hc.plain
  · rename_i hi
    rw [hi] at hb
    simpa [ha, show b.kind.plain = false from hb] using hc.plain
  all_goals
    rename_i o hi
    rw [hi] at hb
    exact (hc.thread (ha.trans (show b.thread = o from hb).symm)).elim

/-! ## What one party tells the other -/

/-- The party `o` has made `m` accesses of the slots, each in its turn, and its shared counter says
how many there were at each store. -/
structure Tells (o : Party) (C m : Nat) (vis : List Nat) (src : List (Option Nat))
    (h : List (Access Party (Location (BitVec 64)))) : Prop where
  handoff : Handoff o.atSlot o o.other (.shared o) h vis src
  count : h.countP o.atSlot = m
  numbered : Numbered o.atSlot (fun m => .slot (wrap (m % C))) h

section Tells

variable {o : Party} {C m v x i : Nat} {vis : List Nat} {src : List (Option Nat)}
  {h h' : List (Access Party (Location (BitVec 64)))} {f : Option Nat}
  {a : Access Party (Location (BitVec 64))}

/-- The party makes its accesses in turn. -/
theorem Tells.turns (ht : Tells o C m vis src h) :
    Turns o.atSlot o.atSlot o o.other (.shared o) (fun m => .slot (wrap (m % C))) m m h vis
      src where
  handoff := ht.handoff
  count := ht.count
  place i a ha hP :=
    ⟨ht.handoff.own a (List.mem_of_getElem? ha) hP, ht.numbered i a ha hP,
      ht.count ▸ number_lt ha hP⟩

theorem Tells.of_turns {bound : Nat} (ht : Turns o.atSlot o.atSlot o o.other (.shared o)
    (fun m => .slot (wrap (m % C))) m bound h vis src) : Tells o C m vis src h :=
  ⟨ht.handoff, ht.count, fun i a ha hP => (ht.place i a ha hP).2.1⟩

theorem Tells.start : Tells o C 0 [0] [none] [] :=
  ⟨.nil, rfl, fun i a ha => by simp at ha⟩

/-- The parties do something else. -/
theorem Tells.append (ht : Tells o C m vis src h) (hs : ∀ a ∈ h', o.atSlot a = false)
    (hc : ∀ a ∈ h', a.thread = o.other → ∀ i, a.kind ≠ .acquire (some i)) :
    Tells o C m vis src (h ++ h') :=
  .of_turns (ht.turns.append hs hs hc)

theorem Tells.neutral (ht : Tells o C m vis src h) (hn : ∀ a ∈ h', Neutral a) :
    Tells o C m vis src (h ++ h') :=
  ht.append (fun a ha => (hn a ha).atSlot o) fun a ha _ => (hn a ha).acquire

/-- The next access of the slots, after a read of the party's own counter. -/
theorem Tells.slot (kind : AccessKind) (hx : x = m % C) (ht : Tells o C m vis src h) :
    Tells o C (m + 1) vis src (h ++ [⟨o, .counter o, .read⟩, ⟨o, .slot (wrap x), kind⟩]) := by
  have hread : Tells o C m vis src (h ++ [⟨o, .counter o, .read⟩]) :=
    ht.append (by simp [Party.atSlot]) (by simp)
  have huse := (hread.turns.mono (Nat.le_succ m)).use ⟨o, .slot (wrap x), kind⟩ rfl
    (by cases o <;> simp [Party.other]) (by rw [hx]) (Nat.lt_succ_self m)
  rw [if_pos (by simp [Party.atSlot]), List.append_assoc] at huse
  exact .of_turns huse

/-- The publication of the number of accesses so far. -/
theorem Tells.store (ht : Tells o C m vis src h) (hvis : vis ≠ []) :
    Tells o C m (m :: vis) (some h.length :: src) (h ++ [⟨o, .shared o, .release⟩]) :=
  .of_turns (ht.turns.store hvis rfl rfl)

/-- The load of the published number by the other party, and the write to its cache. -/
theorem Tells.load {j : Nat} (ht : Tells o C m vis src h) (hj : src[j]? = some f) :
    Tells o C m (vis.take (j + 1)) (src.take (j + 1))
      (h ++ [⟨o.other, .shared o, .acquire f⟩, ⟨o.other, .cache o.other, .write⟩]) := by
  have hload := Tells.of_turns (ht.turns.load hj rfl rfl)
  have hcache : Tells o C m (vis.take (j + 1)) (src.take (j + 1))
      ((h ++ [⟨o.other, .shared o, .acquire f⟩]) ++ [⟨o.other, .cache o.other, .write⟩]) :=
    hload.append (by simp [Party.atSlot]) (by simp)
  rwa [List.append_assoc] at hcache

/-- **What the other party knows.** At the slot of the number `x`: if the accesses to this slot so
far have numbers below all values of the shared counter that the other party may still see, it knows
them all. -/
theorem Tells.knows (hC : 0 < C) (hC64 : C < 2 ^ 64) (ht : Tells o C m vis src h)
    (ha : h[i]? = some a) (hao : a.thread = o) (hloc : a.loc = .slot (wrap (x % C)))
    (hvis : vis ≠ []) (hlt : ∀ j < m, j % C = x % C → ∀ v ∈ vis, j < v) : Knows h o.other i := by
  have hmod : ∀ n, n % C < 2 ^ 64 := fun n => Nat.lt_trans (Nat.mod_lt n hC) hC64
  refine ht.turns.knows ha (Party.atSlot_iff.mpr ⟨hao, _, hloc⟩) hvis fun j hj hslot => hlt j hj ?_
  rw [hloc] at hslot
  exact (Counter.ofNat_inj_of_lt (hmod _) (hmod _)).mp (Location.slot.inj hslot)

end Tells

/-! ## The invariant -/

/-- An access of the slots whose counter is not advanced yet. -/
def ProducerPc.pending : ProducerPc α κ → Nat
  | .increment _ => 1
  | _ => 0

/-- An access of the slots whose counter is not advanced yet. -/
def ConsumerPc.pending : ConsumerPc α κ → Nat
  | .increment _ => 1
  | _ => 0

/-- Where both parties are inside their own members and the slots, with the history `h`. -/
structure Tracked (t : State α Nat) (src : Sources)
    (h : List (Access Party (Location (BitVec 64)))) : Prop where
  clock : src.clock = h.length
  writes : Tells .producer t.q.capacity (t.q.producer.localWriter + t.producer.pending)
    t.q.writer.visible src.writer h
  reads : Tells .consumer t.q.capacity (t.q.consumer.localReader + t.consumer.pending)
    t.q.reader.visible src.reader h
  lawful : ∀ a ∈ h, Lawful a
  free : RaceFree h

section Tracked

variable {t t' : State α Nat} {src : Sources} {h h' : List (Access Party (Location (BitVec 64)))}
  {PublishBatch k : Nat} {q q' : SPSC α Nat} {p p' : ProducerPc α Nat} {c c' : ConsumerPc α Nat}
  {e : List (Event α Nat)} {i : Nat} {a : Access Party (Location (BitVec 64))}

/-- **At a slot, the producer** knows the consumer's reads of it. -/
theorem Tracked.producer_knows (ht : Tracked t src h) (hi : Inv t) (hcap : t.q.capacity < 2 ^ 64)
    (hroom : t.q.producer.localWriter < t.q.producer.cachedReader + t.q.capacity)
    (ha : h[i]? = some a) (hac : a.thread = .consumer)
    (hloc : a.loc = .slot (wrap t.q.writeIndex)) :
    Knows h .producer i := by
  have ho := hi.ordered
  have := ho.local_le
  have := ho.writer_le_local
  have := ho.cachedWriter_le
  have hread : t.q.consumer.localReader + t.consumer.pending ≤ t.q.consumer.cachedWriter := by
    have hle := ho.reader_le
    have hok := hi.consumer
    cases hc : t.consumer with
    | increment data =>
      rw [hc] at hok
      exact hok.1
    | _ => exact hle
  rw [hi.shape.writeIndex_eq] at hloc
  refine ht.reads.knows hi.shape.pos hcap ha hac hloc (by simp [Atomic.visible]) ?_
  intro j hj hmod v hv
  have := (ho.reader_mem v hv).1
  -- A number with the same slot that is less than `localWriter` is a round behind.
  have hround : ¬ t.q.producer.localWriter < j + t.q.capacity := fun hlt =>
    Ring.mod_ne (by omega) hlt hmod
  omega

/-- **At a slot, the consumer** knows the producer's writes to it. -/
theorem Tracked.consumer_knows (ht : Tracked t src h) (hi : Inv t) (hcap : t.q.capacity < 2 ^ 64)
    (helement : t.q.consumer.localReader < t.q.consumer.cachedWriter)
    (ha : h[i]? = some a) (hap : a.thread = .producer)
    (hloc : a.loc = .slot (wrap t.q.readIndex)) :
    Knows h .consumer i := by
  have ho := hi.ordered
  have := ho.cachedReader_le
  have := ho.reader_le_local
  have hwrote : t.q.producer.localWriter + t.producer.pending ≤
      t.q.producer.cachedReader + t.q.capacity := by
    have hle := ho.writer_le
    have hok := hi.producer
    cases hp : t.producer with
    | increment data =>
      rw [hp] at hok
      exact hok.1
    | _ => exact hle
  rw [hi.shape.readIndex_eq] at hloc
  refine ht.writes.knows hi.shape.pos hcap ha hap hloc (by simp [Atomic.visible]) ?_
  intro j hj hmod v hv
  have := (ho.writer_mem v hv).1
  -- A number with the same slot that is less than a round ahead is not ahead.
  have hround : ¬ t.q.consumer.localReader < j := fun hlt =>
    Ring.mod_ne hlt (by omega) hmod.symm
  omega

/-- A step of the party `o`. -/
theorem Tracked.extend (ht : Tracked t src h) {src' : Sources} {o : Party}
    (hl : ∀ b ∈ h', Lawful b) (ho : ∀ b ∈ h', b.thread = o)
    (hk : ∀ b ∈ h', ∀ j, b.loc = .slot j → ∀ i a, h[i]? = some a → a.thread = o.other →
      a.loc = .slot j → Knows h o i)
    (hclock : src'.clock = src.clock + h'.length)
    (hw : Tells .producer t'.q.capacity (t'.q.producer.localWriter + t'.producer.pending)
      t'.q.writer.visible src'.writer (h ++ h'))
    (hr : Tells .consumer t'.q.capacity (t'.q.consumer.localReader + t'.consumer.pending)
      t'.q.reader.visible src'.reader (h ++ h')) : Tracked t' src' (h ++ h') where
  clock := by rw [hclock, List.length_append, ht.clock]
  writes := hw
  reads := hr
  lawful a ha := (List.mem_append.mp ha).elim (ht.lawful a) (hl a)
  free := by
    refine ht.free.append ho fun b hb i a ha hc => ?_
    obtain ⟨hthread, j, haj, hbj⟩ := (ht.lawful a (List.mem_of_getElem? ha)).conflict (hl b hb) hc
    refine hk b hb j hbj i a ha ?_ haj
    rw [← ho b hb, hthread]
    cases a.thread <;> rfl

/-- A step that uses no slot, stores nothing and loads nothing. -/
theorem Tracked.neutral (ht : Tracked t src h) (hn : ∀ b ∈ h', Neutral b) {o : Party}
    (ho : ∀ b ∈ h', b.thread = o) (hcap : t'.q.capacity = t.q.capacity)
    (hwriter : t'.q.writer = t.q.writer) (hreader : t'.q.reader = t.q.reader)
    (hw : t'.q.producer.localWriter + t'.producer.pending =
      t.q.producer.localWriter + t.producer.pending)
    (hr : t'.q.consumer.localReader + t'.consumer.pending =
      t.q.consumer.localReader + t.consumer.pending) :
    Tracked t' { src with clock := src.clock + h'.length } (h ++ h') := by
  refine ht.extend (fun b hb => (hn b hb).lawful) ho
    (fun b hb j hj => ((hn b hb).slot j hj).elim) rfl ?_ ?_
  · rw [hcap, hwriter, hw]
    exact ht.writes.neutral hn
  · rw [hcap, hreader, hr]
    exact ht.reads.neutral hn

/-- The producer's steps. -/
theorem ProducerMove.tracked (hm : ProducerMove PublishBatch k q p q' p' e) (hi : Inv ⟨q, p, c⟩)
    (hcap : q.capacity < 2 ^ 64) (hapart : ∀ x, p ≠ .publishReader x)
    (ht : Tracked ⟨q, p, c⟩ src h) :
    Tracked ⟨q', p', c⟩ ((State.wrap ⟨q, p, c⟩).sources src (.producer k))
      (h ++ (State.wrap ⟨q, p, c⟩).accesses src (.producer k)) := by
  cases hm with
  | full | room | refuse | roomNow | increment | due | notDue | readWriter | readWriterAgain
  | markWriter =>
    refine ht.neutral (o := .producer) ?_ ?_ rfl rfl rfl rfl rfl
    all_goals simp [State.accesses, State.wrap, ProducerPc.wrap, ProducerPc.accesses,
      Publish.wrap, Publish.accesses, neutral_iff, Lawful]
  | @load data v hl =>
    obtain ⟨hv, hvis⟩ := Atomic.load_visible hl
    obtain ⟨f, hf⟩ := ht.reads.handoff.source hv
    have hacc : (State.wrap ⟨q, .loadReader data, c⟩).accesses src (.producer k) =
        [⟨.producer, .shared .consumer, .acquire f⟩, ⟨.producer, .cache .producer, .write⟩] := by
      simp [State.accesses, State.wrap, ProducerPc.wrap, ProducerPc.accesses, hf]
    have hload := ht.reads.load hf
    rw [← hvis] at hload
    rw [State.sources, hacc]
    refine ht.extend (o := .producer) ?_ (by simp) (by simp) rfl ?_ hload
    · simp [Lawful, AccessKind.plain]
    · exact ht.writes.append (by simp [Party.atSlot]) (by simp [Party.other])
  | @write data =>
    have hacc : (State.wrap ⟨q, .writeSlot data, c⟩).accesses src (.producer k) =
        [⟨.producer, .counter .producer, .read⟩,
          ⟨.producer, .slot (wrap q.writeIndex), .write⟩] := by
      rw [← writeIndex_wrap]
      rfl
    have hslot := ht.writes.slot .write hi.shape.writeIndex_eq
    rw [State.sources, hacc]
    refine ht.extend (o := .producer) ?_ (by simp) ?_ rfl hslot ?_
    · simp [Lawful]
    · intro b hb j hj i a ha hac haj
      obtain rfl | rfl : b = _ ∨ b = _ := by simpa using hb
      · cases hj
      · exact ht.producer_knows hi hcap hi.producer ha hac (haj.trans hj.symm)
    · exact ht.reads.append (by simp [Party.atSlot]) (by simp)
  | @storeWriter r x =>
    have hx : x = q.producer.localWriter := hi.producer
    have hacc : (State.wrap ⟨q, .publishWriter r (.store x), c⟩).accesses src (.producer k) =
        [⟨.producer, .shared .producer, .release⟩] := rfl
    have hstore := ht.writes.store (by simp [Atomic.visible])
    rw [← ht.clock] at hstore
    rw [State.sources, hacc, hx]
    refine ht.extend (o := .producer) ?_ (by simp) (by simp) rfl hstore ?_
    · simp [Lawful, AccessKind.plain]
    · exact ht.reads.append (by simp [Party.atSlot]) (by simp)
  | _ => exact (hapart _ rfl).elim

/-- The consumer's steps. -/
theorem ConsumerMove.tracked (hm : ConsumerMove PublishBatch k q c q' c' e) (hi : Inv ⟨q, p, c⟩)
    (hcap : q.capacity < 2 ^ 64) (hapart : ∀ x, c ≠ .publishWriter x)
    (ht : Tracked ⟨q, p, c⟩ src h) :
    Tracked ⟨q', p, c'⟩ ((State.wrap ⟨q, p, c⟩).sources src (.consumer k))
      (h ++ (State.wrap ⟨q, p, c⟩).accesses src (.consumer k)) := by
  cases hm with
  | drained | element | refuse | elementNow | increment | due | notDue | readReader
  | readReaderAgain | markReader | markReaderFlush =>
    refine ht.neutral (o := .consumer) ?_ ?_ rfl rfl rfl rfl rfl
    all_goals simp [State.accesses, State.wrap, ConsumerPc.wrap, ConsumerPc.accesses,
      Publish.wrap, Publish.accesses, neutral_iff, Lawful]
  | @load v hl =>
    obtain ⟨hv, hvis⟩ := Atomic.load_visible hl
    obtain ⟨f, hf⟩ := ht.writes.handoff.source hv
    have hacc : (State.wrap ⟨q, p, .loadWriter⟩).accesses src (.consumer k) =
        [⟨.consumer, .shared .producer, .acquire f⟩, ⟨.consumer, .cache .consumer, .write⟩] := by
      simp [State.accesses, State.wrap, ConsumerPc.wrap, ConsumerPc.accesses, hf]
    have hload := ht.writes.load hf
    rw [← hvis] at hload
    rw [State.sources, hacc]
    refine ht.extend (o := .consumer) ?_ (by simp) (by simp) rfl hload ?_
    · simp [Lawful, AccessKind.plain]
    · exact ht.reads.append (by simp [Party.atSlot]) (by simp [Party.other])
  | read =>
    have hacc : (State.wrap ⟨q, p, .readSlot⟩).accesses src (.consumer k) =
        [⟨.consumer, .counter .consumer, .read⟩,
          ⟨.consumer, .slot (wrap q.readIndex), .read⟩] := by
      rw [← readIndex_wrap]
      rfl
    have hslot := ht.reads.slot .read hi.shape.readIndex_eq
    rw [State.sources, hacc]
    refine ht.extend (o := .consumer) ?_ (by simp) ?_ rfl ?_ hslot
    · simp [Lawful]
    · intro b hb j hj i a ha hap haj
      obtain rfl | rfl : b = _ ∨ b = _ := by simpa using hb
      · cases hj
      · exact ht.consumer_knows hi hcap hi.consumer ha hap (haj.trans hj.symm)
    · exact ht.writes.append (by simp [Party.atSlot]) (by simp)
  | @storeReader r x =>
    have hx : x = q.consumer.localReader := hi.consumer
    have hacc : (State.wrap ⟨q, p, .publishReader r (.store x)⟩).accesses src (.consumer k) =
        [⟨.consumer, .shared .consumer, .release⟩] := rfl
    have hstore := ht.reads.store (by simp [Atomic.visible])
    rw [← ht.clock] at hstore
    rw [State.sources, hacc, hx]
    refine ht.extend (o := .consumer) ?_ (by simp) (by simp) rfl ?_ hstore
    · simp [Lawful, AccessKind.plain]
    · exact ht.writes.append (by simp [Party.atSlot]) (by simp)
  | _ => exact (hapart _ rfl).elim

end Tracked

/-! ## Every run -/

/-- The step is not one of the half of a `flush` that publishes the other party's counter. -/
def State.apart (s : State α κ) : Act α → Bool
  | .producer _ =>
    match s.producer with
    | .publishReader _ => false
    | _ => true
  | .consumer _ =>
    match s.consumer with
    | .publishWriter _ => false
    | _ => true
  | _ => true

section Step

variable [OfNat κ 1] [Add κ] [Sub κ] [AndOp κ] [LE κ] [DecidableEq κ] [DecidableLE κ]

/-- A traced step is a step of the queue, with its accesses. -/
theorem traced_step {PublishBatch : κ} {T T' : Traced α κ} {a : Act α}
    {e : List (Access Party (Location κ))}
    (hst : (traced PublishBatch).step T a = some (T', e)) :
    a.party = true ∧ T'.src = T.s.sources T.src a ∧ e = T.s.accesses T.src a ∧
      ∃ es, (spsc PublishBatch).step T.s a = some (T'.s, es) := by
  obtain ⟨hparty, hst⟩ := Option.ite_none_right_eq_some.mp hst
  obtain ⟨⟨s, es⟩, hqueue, he⟩ := Option.map_eq_some_iff.mp hst
  cases he
  exact ⟨hparty, rfl, rfl, es, hqueue⟩

/-- A step of the queue by a party is a traced step. -/
theorem traced_of_step {PublishBatch : κ} {s s' : State α κ} {a : Act α} {es : List (Event α κ)}
    (hst : (spsc PublishBatch).step s a = some (s', es)) (ha : a.party = true) (src : Sources) :
    (traced PublishBatch).step ⟨s, src⟩ a =
      some (⟨s', s.sources src a⟩, s.accesses src a) := by
  have hst : step PublishBatch s a = some (s', es) := hst
  simp [traced, ha, hst]

end Step

section Runs

variable {PublishBatch capacity : BitVec 64} {memory : BitVec 64 → α} {q : SPSC α (BitVec 64)}
  {T T' : Traced α (BitVec 64)} {h e : List (Access Party (Location (BitVec 64)))}
  {sched : List (Act α)} {a : Act α}

/-- The invariant, for the counters of 64 bits. -/
def Apart (T : Traced α (BitVec 64)) (h : List (Access Party (Location (BitVec 64)))) : Prop :=
  ∃ t : State α Nat, T.s = t.wrap ∧ Near t ∧ Tracked t T.src h

/-- **The step lemma.** -/
theorem Apart.step (hi : Apart T h) (hapart : T.s.apart a = true)
    (hst : (traced PublishBatch).step T a = some (T', e)) : Apart T' (h ++ e) := by
  obtain ⟨s, src⟩ := T
  obtain ⟨s', src'⟩ := T'
  obtain ⟨t, rfl, hn, ht⟩ := hi
  obtain ⟨hparty, rfl, rfl, es, hst⟩ := traced_step hst
  obtain ⟨t', et, hm, hs, -⟩ := step_unwrap hn hst
  refine ⟨t', hs, hm.near PublishBatch.isLt hn, ?_⟩
  cases hm with
  | push | producerFlush | pop | consumerFlush =>
    exact ht.neutral (o := .producer) nofun nofun rfl rfl rfl rfl rfl
  | @producer q q' p p' c k e hm =>
    refine hm.tracked hn.inv hn.capacity_lt (fun x hx => ?_) ht
    subst hx
    simp [State.apart, State.wrap, ProducerPc.wrap] at hapart
  | @consumer q q' p c c' k e hm =>
    refine hm.tracked hn.inv hn.capacity_lt (fun x hx => ?_) ht
    subst hx
    simp [State.apart, State.wrap, ConsumerPc.wrap] at hapart
  | flush | size | empty => cases hparty

/-- A step beside the queue. -/
theorem Apart.neutral (hi : Apart T h) (e : List (Access Party (Location (BitVec 64))))
    (o : Party) (hn : ∀ b ∈ e, Neutral b) (ho : ∀ b ∈ e, b.thread = o) :
    Apart ⟨T.s, { T.src with clock := T.src.clock + e.length }⟩ (h ++ e) := by
  obtain ⟨t, hs, hnear, ht⟩ := hi
  exact ⟨t, hs, hnear, ht.neutral hn ho rfl rfl rfl rfl rfl⟩

/-- A new queue. -/
theorem start_apart (hq : SPSC.new capacity memory = .ok q) : Apart (.start q) [] := by
  obtain ⟨q₀, hnew, hstart, -, hnear⟩ := new_unwrap hq
  obtain ⟨rfl, -⟩ := SPSC.new_eq hnew
  exact ⟨_, hstart, hnear, rfl, .start, .start, nofun, .nil⟩

/-- Without a `flush` the parties keep apart. -/
theorem Calm.apart {s : State α κ} (h : Calm s) (a : Act α) : s.apart a = true := by
  obtain ⟨q, p, c⟩ := s
  obtain ⟨hp, hc⟩ := h
  unfold State.apart
  split
  · cases p <;> first | rfl | cases hp
  · cases c <;> first | rfl | cases hc
  · rfl

/-- The calls of `push` and `pop` keep apart. -/
theorem run_calm (hq : SPSC.new capacity memory = .ok q)
    (hrun : (traced PublishBatch).run (.start q) sched = some (T, h))
    (hp : ∀ a ∈ sched, a.pushPop = true) : Apart T h ∧ Calm T.s := by
  have hr := Machine.Reach.of_run hp hrun
  refine hr.invariant (P := fun T h => Apart T h ∧ Calm T.s) ⟨start_apart hq, rfl, rfl⟩ ?_
  intro T h a T' e ⟨hi, hc⟩ ha hst
  obtain ⟨-, -, -, es, hst'⟩ := traced_step hst
  exact ⟨hi.step (hc.apart a) hst, (step_move hst').calm (Act.pushPop_calm ha) hc⟩

/-- **No data races.** Whatever the capacity and the batch size, in every interleaving of the
accesses of pushes and pops, with loads that may be stale: a write and a read of one slot by the two
threads are always ordered by the acquire loads, and nothing else that is not atomic is accessed by
both. -/
theorem push_pop_raceFree (hq : SPSC.new capacity memory = .ok q)
    (hrun : (traced PublishBatch).run (.start q) sched = some (T, h))
    (hp : ∀ a ∈ sched, a.pushPop = true) : RaceFree h := by
  obtain ⟨⟨t, -, -, ht⟩, -⟩ := run_calm hq hrun hp
  exact ht.free

/-- One whole push. -/
def onePush : List (Act Bool) := .push true :: List.replicate 8 (.producer 0)

/-- A whole pop that loads `writer_` and publishes `reader_`. -/
def onePop : List (Act Bool) := .pop :: List.replicate 10 (.consumer 0)

/-- One element through a ring of one slot. -/
theorem push_pop_raceFree_one : ∃ T h,
    (traced (1 : BitVec 64)).run (.start (SPSC.fresh 1 fun _ => false)) (onePush ++ onePop) =
      some (T, h) ∧ T.s.consumer = .idle (some (.pop (some true))) ∧ RaceFree h := by
  refine ⟨_, _, rfl, rfl, ?_⟩
  exact @push_pop_raceFree Bool 1 1 (fun _ => false) _ _ _ (onePush ++ onePop) rfl rfl (by decide)

end Runs

/-! ## A `flush` without outside synchronization -/

/-- The last access of the mark of `o` comes after the stores that a load may read. -/
def Marked (o : Party) (srcs : List (Option Nat)) (h : List (Access Party (Location κ))) : Prop :=
  ∃ i a, h[i]? = some a ∧ a.thread = o ∧ a.loc = .mark o ∧ ∀ k, some k ∈ srcs → k < i

/-- A party that is between its calls has made no access yet, or has used its mark after its last
store. -/
structure Settled (T : Traced α κ) (h : List (Access Party (Location κ))) : Prop where
  producer_new : T.s.producer = .idle none → ∀ a ∈ h, a.thread ≠ .producer
  producer_done : ∀ r, T.s.producer = .idle (some r) → Marked .producer T.src.writer h
  consumer_new : T.s.consumer = .idle none → ∀ a ∈ h, a.thread ≠ .consumer
  consumer_done : ∀ r, T.s.consumer = .idle (some r) → Marked .consumer T.src.reader h

section Settled

variable {o : Party} {srcs srcs' : List (Option Nat)} {h h' : List (Access Party (Location κ))}
  {p : ProducerPc α κ} {c : ConsumerPc α κ} {k : Nat} {src : Sources} {index : κ}
  {source : Option Nat} {b : Access Party (Location κ)}

theorem Marked.mono (hm : Marked o srcs h) (hs : ∀ f ∈ srcs', f ∈ srcs) :
    Marked o srcs' (h ++ h') := by
  obtain ⟨i, a, ha, hao, hloc, hlt⟩ := hm
  exact ⟨i, a, getElem?_append ha, hao, hloc, fun k hk => hlt k (hs _ hk)⟩

theorem ProducerPc.accesses_thread (hb : b ∈ p.accesses index source) : b.thread = .producer := by
  unfold ProducerPc.accesses Publish.accesses at hb
  repeat' split at hb
  all_goals simp at hb
  all_goals first | exact hb ▸ rfl | exact hb.elim (· ▸ rfl) (· ▸ rfl)

theorem ConsumerPc.accesses_thread (hb : b ∈ c.accesses index source) : b.thread = .consumer := by
  unfold ConsumerPc.accesses Publish.accesses at hb
  repeat' split at hb
  all_goals simp at hb
  all_goals first | exact hb ▸ rfl | exact hb.elim (· ▸ rfl) (· ▸ rfl)

theorem ProducerPc.sources_reader (hp : p.flushing = false) {f : Option Nat}
    (hf : f ∈ (p.sources k src).reader) : f ∈ src.reader := by
  unfold ProducerPc.sources at hf
  split at hf
  · exact List.mem_of_mem_take hf
  · cases hp
  · exact hf
  · exact hf

theorem ConsumerPc.sources_writer (hc : c.flushing = false) {f : Option Nat}
    (hf : f ∈ (c.sources k src).writer) : f ∈ src.writer := by
  unfold ConsumerPc.sources at hf
  split at hf
  · exact List.mem_of_mem_take hf
  · exact hf
  · cases hc
  · exact hf

variable [OfNat κ 1] [Add κ] [Sub κ] [AndOp κ] [LE κ] [DecidableEq κ] [DecidableLE κ]
  {PublishBatch : κ} {q q' : SPSC α κ} {p' : ProducerPc α κ} {c' : ConsumerPc α κ}
  {e : List (Event α κ)}

/-- The last access of a call of the producer is one of its mark. -/
theorem ProducerMove.marked {r : ProducerResult}
    (hm : ProducerMove PublishBatch k q p q' p' e) (hr : p' = .idle (some r))
    (hlt : ∀ k, some k ∈ src.writer → k < h.length) :
    Marked .producer (p.sources k src).writer (h ++ p.accesses index source) := by
  cases hm with
  | notDue =>
    refine ⟨h.length + 1, ⟨.producer, .mark .producer, .read⟩, ?_, rfl, rfl, fun k hk => ?_⟩
    · simp [ProducerPc.accesses]
    · exact Nat.lt_succ_of_lt (hlt k hk)
  | markWriter =>
    exact ⟨h.length, ⟨.producer, .mark .producer, .write⟩, getElem?_new, rfl, rfl, hlt⟩
  | _ => cases hr

/-- The last access of a call of the consumer, other than a `flush`, is one of its mark. -/
theorem ConsumerMove.marked {r : ConsumerResult α}
    (hm : ConsumerMove PublishBatch k q c q' c' e) (hc : c.flushing = false)
    (hr : c' = .idle (some r)) (hlt : ∀ k, some k ∈ src.reader → k < h.length) :
    Marked .consumer (c.sources k src).reader (h ++ c.accesses index source) := by
  cases hm with
  | notDue =>
    refine ⟨h.length + 1, ⟨.consumer, .mark .consumer, .read⟩, ?_, rfl, rfl, fun k hk => ?_⟩
    · simp [ConsumerPc.accesses]
    · exact Nat.lt_succ_of_lt (hlt k hk)
  | markReader =>
    exact ⟨h.length, ⟨.consumer, .mark .consumer, .write⟩, getElem?_new, rfl, rfl, hlt⟩
  | markWriter => cases hc
  | _ => cases hr

/-- **The step lemma.** -/
theorem Settled.step {T T' : Traced α κ} {e : List (Access Party (Location κ))} {a : Act α}
    (hs : Settled T h) (hst : (traced PublishBatch).step T a = some (T', e))
    (ha : a.pushPop = true) (hc : Calm T.s)
    (hwriter : ∀ k, some k ∈ T.src.writer → k < h.length)
    (hreader : ∀ k, some k ∈ T.src.reader → k < h.length) : Settled T' (h ++ e) := by
  obtain ⟨s, src⟩ := T
  obtain ⟨s', src'⟩ := T'
  obtain ⟨-, rfl, rfl, es, hst⟩ := traced_step hst
  cases step_move hst with
  | push =>
    change Settled _ (h ++ [])
    rw [List.append_nil]
    exact ⟨nofun, nofun, hs.consumer_new, hs.consumer_done⟩
  | pop =>
    change Settled _ (h ++ [])
    rw [List.append_nil]
    exact ⟨hs.producer_new, hs.producer_done, nofun, nofun⟩
  | @producer q q' p p' c k es hm =>
    refine ⟨fun hpn => ?_, fun r hr => ?_, fun hcn => ?_, fun r hr => ?_⟩
    · cases hm <;> cases hpn
    · exact hm.marked hr hwriter
    · intro a ha
      rcases List.mem_append.mp ha with ha | ha
      · exact hs.consumer_new hcn a ha
      · rw [ProducerPc.accesses_thread ha]
        exact nofun
    · exact (hs.consumer_done r hr).mono fun f hf => ProducerPc.sources_reader hc.producer hf
  | @consumer q q' p c c' k es hm =>
    refine ⟨fun hpn => ?_, fun r hr => ?_, fun hcn => ?_, fun r hr => ?_⟩
    · intro a ha
      rcases List.mem_append.mp ha with ha | ha
      · exact hs.producer_new hpn a ha
      · rw [ConsumerPc.accesses_thread ha]
        exact nofun
    · exact (hs.producer_done r hr).mono fun f hf => ConsumerPc.sources_writer hc.consumer hf
    · cases hm <;> cases hcn
    · exact hm.marked hc.consumer hr hreader
  | _ => cases ha

end Settled

section Flush

variable {PublishBatch capacity : BitVec 64} {memory : BitVec 64 → α} {q : SPSC α (BitVec 64)}
  {T T' : Traced α (BitVec 64)} {h e : List (Access Party (Location (BitVec 64)))}
  {sched : List (Act α)} {a : Act α}

/-- The accesses of a whole `flush` by a party. -/
def flushAccesses (t : Party) : List (Access Party (Location κ)) :=
  [⟨t, .counter .consumer, .read⟩, ⟨t, .shared .consumer, .release⟩,
    ⟨t, .counter .consumer, .read⟩, ⟨t, .mark .consumer, .write⟩,
    ⟨t, .counter .producer, .read⟩, ⟨t, .shared .producer, .release⟩,
    ⟨t, .counter .producer, .read⟩, ⟨t, .mark .producer, .write⟩]

theorem flushAccesses_mem {t : Party} {b : Access Party (Location κ)}
    (hb : b ∈ flushAccesses t) : b.thread = t ∧ ∀ f, b.kind ≠ .acquire f := by
  simp only [flushAccesses, List.mem_cons, List.not_mem_nil, or_false] at hb
  rcases hb with rfl | rfl | rfl | rfl | rfl | rfl | rfl | rfl <;> exact ⟨rfl, nofun⟩

variable (PublishBatch) in
theorem consumer_flush_run {l : Option (ConsumerResult α)} (hl : T.s.consumer = .idle l) :
    ∃ T', (traced PublishBatch).run T (.consumerFlush :: List.replicate 8 (.consumer 0)) =
      some (T', flushAccesses .consumer) ∧ T'.s.consumer = .idle (some .flush) := by
  obtain ⟨⟨q, p, c⟩, src⟩ := T
  subst hl
  exact ⟨_, rfl, rfl⟩

variable (PublishBatch) in
theorem producer_flush_run {l : Option ProducerResult} (hl : T.s.producer = .idle l) :
    ∃ T', (traced PublishBatch).run T (.producerFlush :: List.replicate 8 (.producer 0)) =
      some (T', flushAccesses .producer) ∧ T'.s.producer = .idle (some .flush) := by
  obtain ⟨⟨q, p, c⟩, src⟩ := T
  subst hl
  exact ⟨_, rfl, rfl⟩

/-- The invariant of the calls of `push` and `pop`. -/
theorem run_settled (hq : SPSC.new capacity memory = .ok q)
    (hrun : (traced PublishBatch).run (.start q) sched = some (T, h))
    (hp : ∀ a ∈ sched, a.pushPop = true) : Apart T h ∧ Settled T h := by
  have hr := Machine.Reach.of_run hp hrun
  have hall : Apart T h ∧ Calm T.s ∧ Settled T h := by
    refine hr.invariant (P := fun T h => Apart T h ∧ Calm T.s ∧ Settled T h)
      ⟨start_apart hq, ⟨rfl, rfl⟩, nofun, nofun, nofun, nofun⟩ ?_
    intro T h a T' e ⟨hi, hc, hs⟩ ha hst
    obtain ⟨-, -, -, es, hst'⟩ := traced_step hst
    obtain ⟨t, -, -, ht⟩ := id hi
    refine ⟨hi.step (hc.apart a) hst, (step_move hst').calm (Act.pushPop_calm ha) hc, ?_⟩
    exact hs.step hst ha hc (fun k hk => ht.writes.handoff.source_lt hk)
      fun k hk => ht.reads.handoff.source_lt hk
  exact ⟨hall.1, hall.2.2⟩

/-- A `flush` by a party that knows nothing of the last access of the other's mark races with it. -/
theorem Marked.not_raceFree {t : Party} {srcs : List (Option Nat)}
    (hm : Marked t.other srcs h) (hne : srcs ≠ [])
    (hacq : ∀ i, ∀ b ∈ h, b.thread = t → b.kind = .acquire (some i) →
      ∀ f ∈ srcs, ∃ k, f = some k ∧ i ≤ k) : ¬ RaceFree (h ++ flushAccesses t) := by
  obtain ⟨i, a, ha, hao, hloc, hlt⟩ := hm
  have hother : t.other ≠ t := by cases t <;> exact nofun
  intro hfree
  -- The write of the mark of the other party in the `flush`.
  obtain ⟨j, b, hb, hbt, hbloc, hbk⟩ : ∃ j, ∃ b : Access Party (Location (BitVec 64)),
      (flushAccesses t)[j]? = some b ∧ b.thread = t ∧ b.loc = .mark t.other ∧ b.kind = .write := by
    cases t
    · exact ⟨3, _, rfl, rfl, rfl, rfl⟩
    · exact ⟨7, _, rfl, rfl, rfl, rfl⟩
  have hb' : (h ++ flushAccesses t)[h.length + j]? = some b := by
    rw [List.getElem?_append_right (Nat.le_add_right _ _), Nat.add_sub_cancel_left, hb]
  have ha' : (h ++ flushAccesses t)[i]? = some a := getElem?_append ha
  have hconflict : Conflict a b :=
    ⟨fun hab => hother (hao.symm.trans (hab.trans hbt)), hloc.trans hbloc.symm,
      .inr (by rw [hbk]; rfl), .inr (by rw [hbk]; rfl)⟩
  refine not_before (fun b hb hbt k hk => ?_) ha' (fun hat => hother (hao.symm.trans hat)) hb' hbt
    (hfree i _ a b (Nat.lt_of_lt_of_le (getElem?_lt ha) (Nat.le_add_right _ _)) ha' hb' hconflict)
  rcases List.mem_append.mp hb with hb | hb
  · obtain ⟨f, hf⟩ := List.exists_mem_of_ne_nil srcs hne
    obtain ⟨k', rfl, hle⟩ := hacq k b hb hbt hk f hf
    exact Nat.lt_of_le_of_lt hle (hlt k' hf)
  · exact ((flushAccesses_mem hb).2 _ hk).elim

/-- A `flush` by a party while the other one has made no access. -/
theorem raceFree_flush {t : Party} (hf : RaceFree h) (ht : ∀ a ∈ h, a.thread ≠ t.other) :
    RaceFree (h ++ flushAccesses t) := by
  refine hf.append (fun b hb => (flushAccesses_mem hb).1) fun b hb i a ha hc => ?_
  have hbt : b.thread = t := (flushAccesses_mem hb).1
  exact (ht a (List.mem_of_getElem? ha) (Party.eq_other fun h => hc.thread (h ▸ hbt.symm))).elim

/-- **A `flush` needs outside synchronization.** After any run of pushes and pops, with both parties
between their calls: a `flush` by the consumer, with nothing but the queue to order it, is free of
data races exactly if the producer has not finished a call yet, and a `flush` by the producer
exactly if the consumer has not. The race is on `lastPublished_`, which a publication writes after
its release store. -/
theorem flush_raceFree_iff (hq : SPSC.new capacity memory = .ok q)
    (hrun : (traced PublishBatch).run (.start q) sched = some (T, h))
    (hp : ∀ a ∈ sched, a.pushPop = true) (hquiet : T.s.quiet = true) :
    (∃ T' e, (traced PublishBatch).run T (.consumerFlush :: List.replicate 8 (.consumer 0)) =
        some (T', e) ∧ T'.s.consumer = .idle (some .flush) ∧
      (RaceFree (h ++ e) ↔ T.s.producer = .idle none)) ∧
    ∃ T' e, (traced PublishBatch).run T (.producerFlush :: List.replicate 8 (.producer 0)) =
        some (T', e) ∧ T'.s.producer = .idle (some .flush) ∧
      (RaceFree (h ++ e) ↔ T.s.consumer = .idle none) := by
  obtain ⟨⟨t, hs, hn, ht⟩, hsettled⟩ := run_settled hq hrun hp
  obtain ⟨l, l', hl, hl'⟩ := State.quiet_iff.mp hquiet
  obtain ⟨Tc, hrunc, hc⟩ := consumer_flush_run PublishBatch hl'
  obtain ⟨Tp, hrunp, hp⟩ := producer_flush_run PublishBatch hl
  refine ⟨⟨Tc, _, hrunc, hc, ?_⟩, ⟨Tp, _, hrunp, hp, ?_⟩⟩
  · rw [hl]
    cases l with
    | none => exact iff_of_true (raceFree_flush ht.free (hsettled.producer_new hl)) rfl
    | some r =>
      have hne := ht.writes.handoff.source_ne (by simp [Atomic.visible])
      exact iff_of_false (Marked.not_raceFree (hsettled.producer_done r hl) hne
        ht.writes.handoff.acquired) (by simp)
  · rw [hl']
    cases l' with
    | none => exact iff_of_true (raceFree_flush ht.free (hsettled.consumer_new hl')) rfl
    | some r =>
      have hne := ht.reads.handoff.source_ne (by simp [Atomic.visible])
      exact iff_of_false (Marked.not_raceFree (hsettled.consumer_done r hl') hne
        ht.reads.handoff.acquired) (by simp)

/-- After one push, a `flush` by the consumer is a data race. -/
theorem flush_raceFree_iff_one : ∃ T h T' e,
    (traced (1 : BitVec 64)).run (.start (SPSC.fresh 1 fun _ => false)) onePush = some (T, h) ∧
      (traced 1).run T (.consumerFlush :: List.replicate 8 (.consumer 0)) = some (T', e) ∧
        ¬ RaceFree (h ++ e) := by
  obtain ⟨T, h, hrun, hquiet, hp⟩ : ∃ T h,
      (traced (1 : BitVec 64)).run (.start (SPSC.fresh 1 fun _ => false)) onePush = some (T, h) ∧
        T.s.quiet = true ∧ T.s.producer = .idle (some (.push true)) := ⟨_, _, rfl, rfl, rfl⟩
  obtain ⟨T', e, hflush, -, hiff⟩ :=
    (@flush_raceFree_iff Bool 1 1 (fun _ => false) _ _ _ onePush rfl hrun (by decide) hquiet).1
  refine ⟨T, h, T', e, hrun, hflush, fun hf => ?_⟩
  have hnone := hiff.mp hf
  rw [hp] at hnone
  cases hnone

end Flush

end FastQ
