import FastQ.Lib.Handoff
import FastQ.Proofs.Rigtorp
import FastQ.Queue.RigtorpAccesses

/-!
# Data races of `rigtorp::SPSCQueue`

The slots are plain memory, and both parties write to them: the producer constructs, the consumer
destroys. The producer's construction number `j`, and all uses by the consumer after `j`
destructions, go to the slot `j % capacity_`; `writeIdx_` tells the consumer how many elements are
constructed, and `readIdx_` tells the producer how many are destroyed. So a party that gets to a
slot knows all earlier uses of it by the other one (`accesses_raceFree`), in whatever order the two
go on.
-/

namespace FastQ

namespace Rigtorp

open Races

variable {α : Type}

/-! ## The accesses of the parties -/

/-- The accesses of the slots by a party. -/
def uses (o : Party) (a : Access Party Location) : Bool :=
  match a.loc with
  | .slot _ => a.thread == o
  | _ => false

/-- The destructor calls of `pop`. -/
def destroys (a : Access Party Location) : Bool := uses .consumer a && a.kind == .write

/-- The caches belong to their parties, and the indices are atomic. -/
def Lawful (a : Access Party Location) : Prop :=
  match a.loc with
  | .slot _ => True
  | .writeIdx | .readIdx => a.kind.plain = false
  | .readIdxCache => a.thread = .producer
  | .writeIdxCache => a.thread = .consumer

/-- Neither a slot nor an acquire load that reads a store. -/
@[mk_iff] structure Neutral (a : Access Party Location) : Prop where
  lawful : Lawful a
  slot : ∀ o, uses o a = false
  acquire : ∀ i, a.kind ≠ .acquire (some i)

theorem uses_iff {o : Party} {a : Access Party Location} :
    uses o a = true ↔ a.thread = o ∧ ∃ i, a.loc = .slot i := by
  unfold uses
  split
  · rename_i i hi
    simp [hi]
  · rename_i hno
    simp only [Bool.false_eq_true, false_iff, not_and, not_exists]
    exact fun _ i hi => hno i hi

theorem Neutral.destroys {a : Access Party Location} (h : Neutral a) : destroys a = false := by
  unfold Rigtorp.destroys
  rw [h.slot, Bool.false_and]

/-- Lawful accesses conflict at the slots only. -/
theorem Lawful.conflict {a b : Access Party Location} (ha : Lawful a) (hb : Lawful b)
    (hc : Conflict a b) :
    uses b.thread.other a = true ∧ ∃ i, a.loc = .slot i ∧ b.loc = .slot i := by
  have hloc := hc.loc
  have hthread := hc.thread
  unfold Lawful at ha hb
  rw [← hloc] at hb
  cases hl : a.loc with
  | slot i =>
    refine ⟨uses_iff.mpr ⟨?_, i, hl⟩, i, rfl, hloc ▸ hl⟩
    cases ht : a.thread <;> cases ht' : b.thread <;> simp_all [Party.other]
  | writeIdx | readIdx =>
    rw [hl] at ha hb
    simpa [show a.kind.plain = false from ha, show b.kind.plain = false from hb] using hc.plain
  | readIdxCache | writeIdxCache =>
    rw [hl] at ha hb
    exact (hthread (Eq.trans ha (Eq.symm hb))).elim

/-! ## The invariant -/

/-- The parties use the slots in turn, and nothing that they did is a race. -/
structure Tracked (n : Nat) (g : Stores) (p : ProducerPc α) (c : ConsumerPc) (src : Sources)
    (h : List (Access Party Location)) : Prop where
  clock : src.clock = h.length
  writes : Turns (uses .producer) (uses .producer) .producer .consumer .writeIdx
    (fun j => .slot (j % n)) (g.write + (made p).length) (g.write + (made p).length) h
    (g.write :: g.writeStale) src.writer
  reads : Turns destroys (uses .consumer) .consumer .producer .readIdx
    (fun j => .slot (j % n)) (g.read + ended c) g.write h (g.read :: g.readStale) src.reader
  lawful : ∀ a ∈ h, Lawful a
  free : RaceFree h

section Tracked

variable {n k i : Nat} {g g' : Stores} {q q' : SPSCQueue α} {p p' : ProducerPc α}
  {c c' : ConsumerPc} {src src' : Sources} {h h' : List (Access Party Location)}
  {a : Access Party Location} {e es : List (Event α)}

theorem Tracked.start (n : Nat) :
    Tracked n ⟨0, [], 0, 0, [], 0⟩ (.idle none : ProducerPc α) (.idle none) .start [] :=
  ⟨rfl, .start, .start, nofun, .nil⟩

/-- **At a slot, the producer** knows the consumer's uses of it. -/
theorem Tracked.producer_knows {data : α} {w : Nat} (hI : Inv g q (.construct data w) c es)
    (ht : Tracked q.capacity g (.construct data w) c src h) (ha : h[i]? = some a)
    (hc : uses .consumer a = true) (hloc : a.loc = .slot w) : Knows h .producer i := by
  obtain ⟨rfl, hlt⟩ := hI.producer
  refine ht.reads.knows ha hc (by simp) fun j hj hslot v hv => ?_
  have hcached := hI.counts.read_cached v hv
  have hmod : j % q.capacity = g.write % q.capacity := Location.slot.inj (hslot.trans hloc)
  -- A number with the same slot that is not less than `readCache` is not a round behind.
  by_contra hjv
  exact Ring.mod_ne hj (by omega) hmod

/-- **At a slot, the consumer** knows the producer's writes to it. -/
theorem Tracked.consumer_knows (hI : Inv g q p c es) (ht : Tracked q.capacity g p c src h)
    (hc : ended c = 0) (hlt : g.read < g.writeCache) (ha : h[i]? = some a)
    (hp : uses .producer a = true) (hloc : a.loc = .slot (g.read % q.capacity)) :
    Knows h .consumer i := by
  refine ht.writes.knows ha hp (by simp) fun j hj hslot v hv => ?_
  have hcached := hI.counts.write_cached v hv
  have hbound := hI.holds.bound
  rw [hc] at hbound
  have hmod : j % q.capacity = g.read % q.capacity := Location.slot.inj (hslot.trans hloc)
  -- A number with the same slot that is less than a round ahead is not ahead.
  by_contra hjv
  exact Ring.mod_ne (show g.read < j by omega) (by omega) hmod.symm

/-- A step of the party `o`. -/
theorem Tracked.extend (ht : Tracked n g p c src h) {o : Party} (hl : ∀ b ∈ h', Lawful b)
    (ho : ∀ b ∈ h', b.thread = o)
    (hk : ∀ b ∈ h', ∀ j, b.loc = .slot j → ∀ i a, h[i]? = some a → uses o.other a = true →
      a.loc = .slot j → Knows h o i)
    (hclock : src'.clock = src.clock + h'.length)
    (hw : Turns (uses .producer) (uses .producer) .producer .consumer .writeIdx
      (fun j => .slot (j % n)) (g'.write + (made p').length) (g'.write + (made p').length) (h ++ h')
      (g'.write :: g'.writeStale) src'.writer)
    (hr : Turns destroys (uses .consumer) .consumer .producer .readIdx
      (fun j => .slot (j % n)) (g'.read + ended c') g'.write (h ++ h') (g'.read :: g'.readStale)
      src'.reader) :
    Tracked n g' p' c' src' (h ++ h') where
  clock := by rw [hclock, List.length_append, ht.clock]
  writes := hw
  reads := hr
  lawful a ha := (List.mem_append.mp ha).elim (ht.lawful a) (hl a)
  free := by
    refine ht.free.append ho fun b hb i a ha hc => ?_
    obtain ⟨huse, j, haj, hbj⟩ := (ht.lawful a (List.mem_of_getElem? ha)).conflict (hl b hb) hc
    exact hk b hb j hbj i a ha (ho b hb ▸ huse) haj

/-- A step that uses no slot, stores nothing and loads nothing. -/
theorem Tracked.neutral (ht : Tracked n g p c src h) (hn : ∀ b ∈ h', Neutral b) {o : Party}
    (ho : ∀ b ∈ h', b.thread = o) (hp : made p' = made p) (hc : ended c' = ended c) :
    Tracked n g p' c' { src with clock := src.clock + h'.length } (h ++ h') := by
  have hno : ∀ o, ∀ b ∈ h', uses o b = false := fun o b hb => (hn b hb).slot o
  refine ht.extend (fun b hb => (hn b hb).lawful) ho (fun b hb j hj => ?_) rfl ?_ ?_
  · have huse := uses_iff.mpr ⟨rfl, j, hj⟩
    rw [hno _ b hb] at huse
    cases huse
  · rw [hp]
    exact ht.writes.append (hno _) (hno _) fun a ha _ => (hn a ha).acquire
  · rw [hc]
    exact ht.reads.append (fun b hb => (hn b hb).destroys) (hno _) fun a ha _ => (hn a ha).acquire

/-- The producer's accesses. -/
theorem Tracked.producer_step (hI : Inv g q p c es) (hm : ProducerMove k q p q' p' e)
    (ht : Tracked q.capacity g p c src h) :
    Tracked q.capacity (g.afterProducer k p) p' c ((State.mk q p c).sources src (.producer k))
      (h ++ (State.mk q p c).accesses src (.producer k)) := by
  cases hm with
  | loadWrite | full | room | refuse | roomNow =>
    refine ht.neutral (o := .producer) ?_ ?_ rfl rfl
    all_goals simp [State.accesses, ProducerPc.accesses, neutral_iff, Lawful, uses,
      AccessKind.plain]
  | @loadRead wait data w x hx =>
    obtain ⟨j, hj, -, -⟩ := Counts.load_visible hI.counts.readIdx hx
    obtain ⟨f, hf⟩ := ht.reads.handoff.source hj
    have hacc : (State.mk q (.loadRead wait data w) c).accesses src (.producer k) =
        [⟨.producer, .readIdx, .acquire f⟩] ++ [⟨.producer, .readIdxCache, .write⟩] := by
      simp [State.accesses, ProducerPc.accesses, hf]
    have hmade : made (if wait then .check wait data w else .recheck data w) = [] := by
      cases wait <;> rfl
    rw [State.sources, hacc]
    refine ht.extend (o := .producer) ?_ (by simp) (by simp) rfl ?_ ?_
    · simp [Lawful, AccessKind.plain]
    · rw [hmade]
      exact ht.writes.append (by simp [uses]) (by simp [uses]) (by simp)
    · rw [← List.append_assoc]
      exact (ht.reads.load hf rfl rfl).append (by simp [destroys, uses]) (by simp [uses]) (by simp)
  | @construct data w =>
    obtain rfl : w = g.write % q.capacity := hI.producer.1
    have hacc : (State.mk q (.construct data (g.write % q.capacity)) c).accesses src (.producer k) =
        [⟨.producer, .slot (g.write % q.capacity), .write⟩] := rfl
    have huse := (ht.writes.mono (Nat.le_succ _)).use
      ⟨.producer, .slot (g.write % q.capacity), .write⟩ rfl (by decide) rfl (Nat.lt_succ_self _)
    rw [State.sources, hacc]
    refine ht.extend (o := .producer) ?_ (by simp) ?_ rfl huse ?_
    · simp [Lawful]
    · intro b hb j hj i a ha hac haj
      obtain rfl : b = _ := by simpa using hb
      exact ht.producer_knows hI ha hac (haj.trans hj.symm)
    · exact ht.reads.append (by simp [destroys, uses]) (by simp [uses]) (by simp)
  | @storeWrite data w =>
    have hacc : (State.mk q (.storeWrite data w) c).accesses src (.producer k) =
        [⟨.producer, .writeIdx, .release⟩] := rfl
    have hstore := ht.writes.store (by simp) rfl rfl
    rw [← ht.clock] at hstore
    rw [State.sources, hacc]
    refine ht.extend (o := .producer) ?_ (by simp) (by simp) rfl hstore ?_
    · simp [Lawful, AccessKind.plain]
    · exact (ht.reads.mono (Nat.le_succ _)).append (by simp [destroys, uses]) (by simp [uses])
        (by simp)

/-- A use of a slot by the consumer. -/
theorem Tracked.consumer_use {r : Nat} (hI : Inv g q p c es) (ht : Tracked q.capacity g p c src h)
    (hr : r = g.read % q.capacity ∧ g.read < g.writeCache) (hc : ended c = 0) {kind : AccessKind}
    (hk : kind.plain = true) (hc' : ended c' = if kind = .write then 1 else 0) :
    Tracked q.capacity g p c' { src with clock := src.clock + 1 }
      (h ++ [⟨.consumer, .slot r, kind⟩]) := by
  obtain ⟨rfl, hlt⟩ := hr
  have hcw := hI.counts.cache_le_write
  have huse := ht.reads.use ⟨.consumer, .slot (g.read % q.capacity), kind⟩ rfl (by decide)
    (by rw [hc]; rfl) (by omega)
  have hacq : ∀ i, kind ≠ .acquire (some i) := by
    rintro i rfl
    cases hk
  refine ht.extend (o := .consumer) ?_ (by simp) ?_ rfl ?_ ?_
  · simp [Lawful]
  · intro b hb j hj i a ha hap haj
    obtain rfl : b = _ := by simpa using hb
    exact ht.consumer_knows hI hc hlt ha hap (haj.trans hj.symm)
  · exact ht.writes.append (by simp [uses]) (by simp [uses]) (by simpa using hacq)
  · rw [hc']
    simpa [destroys, uses, hc] using huse

/-- The consumer's accesses. -/
theorem Tracked.consumer_step (hI : Inv g q p c es) (hm : ConsumerMove k q c q' c' e)
    (ht : Tracked q.capacity g p c src h) :
    Tracked q.capacity (g.afterConsumer k c) p c' ((State.mk q p c).sources src (.consumer k))
      (h ++ (State.mk q p c).accesses src (.consumer k)) := by
  cases hm with
  | frontLoad | drained | element | null | elementNow | popLoad =>
    refine ht.neutral (o := .consumer) ?_ ?_ rfl rfl
    all_goals simp [State.accesses, ConsumerPc.accesses, neutral_iff, Lawful, uses,
      AccessKind.plain]
  | @loadWrite r x hx =>
    obtain ⟨j, hj, -, -⟩ := Counts.load_visible hI.counts.writeIdx hx
    obtain ⟨f, hf⟩ := ht.writes.handoff.source hj
    have hacc : (State.mk q p (.loadWrite r)).accesses src (.consumer k) =
        [⟨.consumer, .writeIdx, .acquire f⟩] ++ [⟨.consumer, .writeIdxCache, .write⟩] := by
      simp [State.accesses, ConsumerPc.accesses, hf]
    rw [State.sources, hacc]
    refine ht.extend (o := .consumer) ?_ (by simp) (by simp) rfl ?_ ?_
    · simp [Lawful, AccessKind.plain]
    · rw [← List.append_assoc]
      exact (ht.writes.load hf rfl rfl).append (by simp [uses]) (by simp [uses]) (by simp)
    · exact ht.reads.append (by simp [destroys, uses]) (by simp [uses]) (by simp)
  | @abort r x hx | @assert r x hx =>
    obtain ⟨j, hj, -, -⟩ := Counts.load_visible hI.counts.writeIdx hx
    obtain ⟨f, hf⟩ := ht.writes.handoff.source hj
    have hacc : (State.mk q p (.assertWrite r)).accesses src (.consumer k) =
        [⟨.consumer, .writeIdx, .acquire f⟩] := by
      simp [State.accesses, ConsumerPc.accesses, hf]
    rw [State.sources, hacc]
    refine ht.extend (o := .consumer) ?_ (by simp) (by simp) rfl (ht.writes.load hf rfl rfl) ?_
    · simp [Lawful, AccessKind.plain]
    · exact ht.reads.append (by simp [destroys, uses]) (by simp [uses]) (by simp)
  | destroy => exact ht.consumer_use hI hI.consumer rfl rfl rfl
  | @storeRead r =>
    have hacc : (State.mk q p (.storeRead r)).accesses src (.consumer k) =
        [⟨.consumer, .readIdx, .release⟩] := rfl
    have hstore := ht.reads.store (by simp) rfl rfl
    rw [← ht.clock] at hstore
    rw [State.sources, hacc]
    refine ht.extend (o := .consumer) ?_ (by simp) (by simp) rfl ?_ hstore
    · simp [Lawful, AccessKind.plain]
    · exact ht.writes.append (by simp [uses]) (by simp [uses]) (by simp)

/-- **Every step keeps the invariant.** -/
theorem Tracked.step {s s' : State α} {a : Act α} (hI : Inv g s.q s.producer s.consumer es)
    (hm : Move s a s' e) (ht : Tracked s.q.capacity g s.producer s.consumer src h) :
    Tracked s'.q.capacity (g.after s a) s'.producer s'.consumer (s.sources src a)
      (h ++ s.accesses src a) := by
  have hcap := move_capacity hm
  rw [hcap]
  cases hm with
  | emplace | tryEmplace | front | pop =>
    exact ht.neutral (o := .producer) (by simp [State.accesses]) (by simp [State.accesses]) rfl rfl
  | producer hm => exact ht.producer_step hI hm
  | deref => exact ht.consumer_use hI hI.consumer rfl rfl rfl
  | consumer hm => exact ht.consumer_step hI hm

end Tracked

/-! ## Every run -/

section Runs

variable {kPadding capacity : Nat} {allocate : Nat → Nat} {sched : List (Act α)} {T : Traced α}
  {h : List (Access Party Location)}

/-- **No data races**, in a queue that is made for fewer than `SIZE_MAX` elements. In every
interleaving of the accesses of the two parties, with loads that may be stale: the construction of
an object in a slot, the reads through the pointer of `front` and the destructor call of `pop` are
ordered with all uses of the slot by the other party, by program order and the release and acquire
pairs of the two indices. -/
theorem accesses_raceFree (hpad : 2 * kPadding + 2 ≤ sizeMax) (halloc : ∀ n, n ≤ allocate n)
    (hc : capacity < sizeMax)
    (hrun : tracedQueue.run (Traced.start (.new kPadding allocate capacity)) sched = some (T, h)) :
    RaceFree h := by
  have h2 : 2 ≤ (SPSCQueue.new kPadding allocate capacity : SPSCQueue α).capacity := by
    have := @new_capacity α _ _ _ hpad halloc hc
    omega
  have hinv : ∃ g es, Inv g T.s.q T.s.producer T.s.consumer es ∧
      Tracked T.s.q.capacity g T.s.producer T.s.consumer T.src h := by
    refine (Machine.run_reach hrun).invariant (P := fun T h => ∃ g es,
      Inv g T.s.q T.s.producer T.s.consumer es ∧
        Tracked T.s.q.capacity g T.s.producer T.s.consumer T.src h)
      ⟨_, [], Inv.start h2, Tracked.start _⟩ ?_
    rintro T h a T' e ⟨g, es, hI, ht⟩ - hst
    obtain ⟨⟨s', e'⟩, hqueue, he⟩ := Option.map_eq_some_iff.mp hst
    cases he
    have hm := step_move hqueue
    exact ⟨_, _, hI.step hm, ht.step hI hm⟩
  obtain ⟨g, es, -, ht⟩ := hinv
  exact ht.free

/-- One element through a ring for one element, and a second one. -/
def oneAndOne : List (Act Bool) :=
  .emplace true :: List.replicate 4 (.producer 0) ++ .front :: List.replicate 4 (.consumer 0) ++
    .deref :: .pop :: List.replicate 4 (.consumer 0) ++ .tryEmplace false ::
    List.replicate 6 (.producer 0)

theorem accesses_raceFree_one : ∃ T h,
    tracedQueue.run (.start (.new 8 id 1)) oneAndOne = some (T, h) ∧
      T.s.producer = .idle (some true) ∧ RaceFree h := by
  refine ⟨_, _, rfl, rfl, ?_⟩
  exact @accesses_raceFree Bool 8 1 id oneAndOne _ _ (by decide) (fun _ => Nat.le_refl _)
    (by decide) rfl

end Runs

end Rigtorp

end FastQ
