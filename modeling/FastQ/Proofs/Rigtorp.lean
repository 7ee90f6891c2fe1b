import FastQ.Lib.Ring
import FastQ.Queue.Rigtorp

/-!
# `rigtorp::SPSCQueue` is a bounded queue

In every interleaving of the accesses of the two parties, with loads that may be stale: elements
come out once and in order (`queue_fifo`), no object is made over another one or read after its end,
and the assertion of `pop` holds (`lifetimes`).

The proof counts what the indices do not: `Counts` are the numbers of the stores to the two indices,
the newest and those that may still be seen. An index is a number of stores modulo `capacity_`, and
the numbers that are compared are less than `capacity_` apart, so the tests for equality tell them
apart (`Counts.full_iff`, `Counts.empty_iff`).
-/

namespace FastQ

namespace Rigtorp

variable {α : Type}

/-! ## What a step can do -/

/-- The accesses of the producer. -/
inductive ProducerMove (k : Nat) (q : SPSCQueue α) :
    ProducerPc α → SPSCQueue α → ProducerPc α → List (Event α) → Prop
  | loadWrite {wait : Bool} {data : α} :
      ProducerMove k q (.loadWrite wait data) q (.check wait data q.writeIdx.value) []
  | full {wait : Bool} {data : α} {w : Nat} : q.next w = q.readIdxCache →
      ProducerMove k q (.check wait data w) q (.loadRead wait data w) []
  | room {wait : Bool} {data : α} {w : Nat} : q.next w ≠ q.readIdxCache →
      ProducerMove k q (.check wait data w) q (.construct data w) []
  | loadRead {wait : Bool} {data : α} {w : Nat} {x : Nat × Atomic Nat} :
      q.readIdx.load k = some x →
      ProducerMove k q (.loadRead wait data w) (q.cacheReadIdx x)
        (if wait then .check wait data w else .recheck data w) []
  | refuse {data : α} {w : Nat} : q.next w = q.readIdxCache →
      ProducerMove k q (.recheck data w) q (.idle (some false)) []
  | roomNow {data : α} {w : Nat} : q.next w ≠ q.readIdxCache →
      ProducerMove k q (.recheck data w) q (.construct data w) []
  | construct {data : α} {w : Nat} :
      ProducerMove k q (.construct data w)
        { q with slots := Function.update q.slots w (some data) } (.storeWrite data w) []
  | storeWrite {data : α} {w : Nat} :
      ProducerMove k q (.storeWrite data w) { q with writeIdx := q.writeIdx.store (q.next w) }
        (.idle (some true)) [.push data]

/-- The accesses of the consumer. -/
inductive ConsumerMove (k : Nat) (q : SPSCQueue α) :
    ConsumerPc → SPSCQueue α → ConsumerPc → List (Event α) → Prop
  | frontLoad : ConsumerMove k q .frontLoad q (.check q.readIdx.value) []
  | drained {r : Nat} : r = q.writeIdxCache → ConsumerMove k q (.check r) q (.loadWrite r) []
  | element {r : Nat} : r ≠ q.writeIdxCache → ConsumerMove k q (.check r) q (.idle (some r)) []
  | loadWrite {r : Nat} {x : Nat × Atomic Nat} : q.writeIdx.load k = some x →
      ConsumerMove k q (.loadWrite r) (q.cacheWriteIdx x) (.recheck r) []
  | null {r : Nat} : q.writeIdxCache = r → ConsumerMove k q (.recheck r) q (.idle none) []
  | elementNow {r : Nat} : q.writeIdxCache ≠ r →
      ConsumerMove k q (.recheck r) q (.idle (some r)) []
  | popLoad : ConsumerMove k q .popLoad q (.assertWrite q.readIdx.value) []
  | abort {r : Nat} {x : Nat × Atomic Nat} : q.writeIdx.load k = some x → x.1 = r →
      ConsumerMove k q (.assertWrite r) { q with writeIdx := x.2 } .aborted []
  | assert {r : Nat} {x : Nat × Atomic Nat} : q.writeIdx.load k = some x → x.1 ≠ r →
      ConsumerMove k q (.assertWrite r) { q with writeIdx := x.2 } (.destroy r) []
  | destroy {r : Nat} {data : α} : q.slots r = some data →
      ConsumerMove k q (.destroy r) { q with slots := Function.update q.slots r none }
        (.storeRead r) [.pop data]
  | storeRead {r : Nat} :
      ConsumerMove k q (.storeRead r) { q with readIdx := q.readIdx.store (q.next r) }
        (.idle none) []

/-- The steps of the two parties. -/
inductive Move : State α → Act α → State α → List (Event α) → Prop
  | emplace {q : SPSCQueue α} {l : Option Bool} {c : ConsumerPc} {data : α} :
      Move ⟨q, .idle l, c⟩ (.emplace data) ⟨q, .loadWrite true data, c⟩ []
  | tryEmplace {q : SPSCQueue α} {l : Option Bool} {c : ConsumerPc} {data : α} :
      Move ⟨q, .idle l, c⟩ (.tryEmplace data) ⟨q, .loadWrite false data, c⟩ []
  | producer {q q' : SPSCQueue α} {p p' : ProducerPc α} {c : ConsumerPc} {k : Nat}
      {e : List (Event α)} : ProducerMove k q p q' p' e →
      Move ⟨q, p, c⟩ (.producer k) ⟨q', p', c⟩ e
  | front {q : SPSCQueue α} {p : ProducerPc α} {ptr : Option Nat} :
      Move ⟨q, p, .idle ptr⟩ .front ⟨q, p, .frontLoad⟩ []
  | deref {q : SPSCQueue α} {p : ProducerPc α} {r : Nat} {data : α} : q.slots r = some data →
      Move ⟨q, p, .idle (some r)⟩ .deref ⟨q, p, .idle (some r)⟩ [.read data]
  | pop {q : SPSCQueue α} {p : ProducerPc α} {r : Nat} :
      Move ⟨q, p, .idle (some r)⟩ .pop ⟨q, p, .popLoad⟩ []
  | consumer {q q' : SPSCQueue α} {p : ProducerPc α} {c c' : ConsumerPc} {k : Nat}
      {e : List (Event α)} : ConsumerMove k q c q' c' e →
      Move ⟨q, p, c⟩ (.consumer k) ⟨q', p, c'⟩ e

variable {k : Nat} {q q' : SPSCQueue α} {p p' : ProducerPc α} {c c' : ConsumerPc}
  {s s' : State α} {a : Act α} {e es : List (Event α)}

theorem stepProducer_move (h : stepProducer k q p = some (q', p', e)) :
    ProducerMove k q p q' p' e := by
  cases p with
  | idle => cases h
  | loadWrite => cases h; exact .loadWrite
  | check wait data w =>
    by_cases hf : q.next w = q.readIdxCache
    · simp only [stepProducer, if_pos hf] at h
      cases h
      exact .full hf
    · simp only [stepProducer, if_neg hf] at h
      cases h
      exact .room hf
  | loadRead wait data w =>
    obtain ⟨x, hx, h⟩ := Option.map_eq_some_iff.mp h
    cases h
    exact .loadRead hx
  | recheck data w =>
    by_cases hf : q.next w = q.readIdxCache
    · simp only [stepProducer, if_pos hf] at h
      cases h
      exact .refuse hf
    · simp only [stepProducer, if_neg hf] at h
      cases h
      exact .roomNow hf
  | construct => cases h; exact .construct
  | storeWrite => cases h; exact .storeWrite

theorem stepConsumer_move (h : stepConsumer k q c = some (q', c', e)) :
    ConsumerMove k q c q' c' e := by
  cases c with
  | idle | aborted => cases h
  | frontLoad => cases h; exact .frontLoad
  | check r =>
    by_cases hf : r = q.writeIdxCache
    · simp only [stepConsumer, if_pos hf] at h
      cases h
      exact .drained hf
    · simp only [stepConsumer, if_neg hf] at h
      cases h
      exact .element hf
  | loadWrite r =>
    obtain ⟨x, hx, h⟩ := Option.map_eq_some_iff.mp h
    cases h
    exact .loadWrite hx
  | recheck r =>
    by_cases hf : q.writeIdxCache = r
    · simp only [stepConsumer, if_pos hf] at h
      cases h
      exact .null hf
    · simp only [stepConsumer, if_neg hf] at h
      cases h
      exact .elementNow hf
  | popLoad => cases h; exact .popLoad
  | assertWrite r =>
    obtain ⟨x, hx, h⟩ := Option.map_eq_some_iff.mp h
    by_cases hf : x.1 = r
    · simp only [if_pos hf] at h
      cases h
      exact .abort hx hf
    · simp only [if_neg hf] at h
      cases h
      exact .assert hx hf
  | destroy r =>
    obtain ⟨data, hd, h⟩ := Option.map_eq_some_iff.mp h
    cases h
    exact .destroy hd
  | storeRead => cases h; exact .storeRead

/-- **Every step is a move.** -/
theorem step_move (h : spscQueue.step s a = some (s', e)) : Move s a s' e := by
  obtain ⟨q, p, c⟩ := s
  have h : step ⟨q, p, c⟩ a = some (s', e) := h
  cases a with
  | emplace data =>
    cases p <;> cases h
    exact .emplace
  | tryEmplace data =>
    cases p <;> cases h
    exact .tryEmplace
  | producer k =>
    obtain ⟨⟨q', p', e'⟩, hst, h⟩ := Option.map_eq_some_iff.mp h
    cases h
    exact .producer (stepProducer_move hst)
  | front =>
    cases c <;> cases h
    exact .front
  | deref =>
    cases c with
    | idle ptr =>
      cases ptr with
      | none => cases h
      | some r =>
        obtain ⟨data, hd, h⟩ := Option.map_eq_some_iff.mp h
        cases h
        exact .deref hd
    | _ => cases h
  | pop =>
    cases c with
    | idle ptr =>
      cases ptr <;> cases h
      exact .pop
    | _ => cases h
  | consumer k =>
    obtain ⟨⟨q', c', e'⟩, hst, h⟩ := Option.map_eq_some_iff.mp h
    cases h
    exact .consumer (stepConsumer_move hst)

/-! ## What the indices count -/

/-- The numbers of the stores to the two indices: the newest one, the older ones that may still be
seen, and the one in the cache. -/
structure Stores where
  write : Nat
  writeStale : List Nat
  writeCache : Nat
  read : Nat
  readStale : List Nat
  readCache : Nat

namespace Stores

/-- The consumer loads `writeIdx_`, in `pop`; the value is `k` stores behind. -/
def loadWrite (g : Stores) (k : Nat) : Stores := { g with writeStale := g.writeStale.take k }

/-- The consumer loads `writeIdx_` into its cache, in `front`. -/
def cacheWrite (g : Stores) (k : Nat) : Stores :=
  { g.loadWrite k with writeCache := (g.write :: g.writeStale)[k]?.getD 0 }

/-- The producer loads `readIdx_` into its cache. -/
def cacheRead (g : Stores) (k : Nat) : Stores :=
  { g with
    readStale := g.readStale.take k
    readCache := (g.read :: g.readStale)[k]?.getD 0 }

/-- The producer stores `writeIdx_`. -/
def storeWrite (g : Stores) : Stores :=
  { g with write := g.write + 1, writeStale := g.write :: g.writeStale }

/-- The consumer stores `readIdx_`. -/
def storeRead (g : Stores) : Stores :=
  { g with read := g.read + 1, readStale := g.read :: g.readStale }

/-- The stores after the producer's next access. -/
def afterProducer (g : Stores) (k : Nat) : ProducerPc α → Stores
  | .loadRead _ _ _ => g.cacheRead k
  | .storeWrite _ _ => g.storeWrite
  | _ => g

/-- The stores after the consumer's next access. -/
def afterConsumer (g : Stores) (k : Nat) : ConsumerPc → Stores
  | .loadWrite _ => g.cacheWrite k
  | .assertWrite _ => g.loadWrite k
  | .storeRead _ => g.storeRead
  | _ => g

/-- The stores after a step. -/
def after (g : Stores) (s : State α) : Act α → Stores
  | .producer k => g.afterProducer k s.producer
  | .consumer k => g.afterConsumer k s.consumer
  | _ => g

end Stores

/-- The indices are the numbers modulo `capacity_`, and the numbers are close. -/
structure Counts (q : SPSCQueue α) (g : Stores) : Prop where
  capacity : 2 ≤ q.capacity
  writeIdx : q.writeIdx.visible = (g.write :: g.writeStale).map (· % q.capacity)
  writeIdxCache : q.writeIdxCache = g.writeCache % q.capacity
  readIdx : q.readIdx.visible = (g.read :: g.readStale).map (· % q.capacity)
  readIdxCache : q.readIdxCache = g.readCache % q.capacity
  write_sorted : (g.write :: g.writeStale).Pairwise (· ≥ ·)
  write_cached : ∀ j ∈ g.write :: g.writeStale, g.writeCache ≤ j
  read_sorted : (g.read :: g.readStale).Pairwise (· ≥ ·)
  read_cached : ∀ j ∈ g.read :: g.readStale, g.readCache ≤ j
  read_le : g.read ≤ g.writeCache
  room : g.write < g.readCache + q.capacity

namespace Counts

variable {g : Stores} {n j : Nat}

/-- An atomic index after the load of the value `k` behind the newest, and the number loaded. -/
theorem load_visible {a : Atomic Nat} {x : Nat × Atomic Nat} {new : Nat} {stale : List Nat}
    (hv : a.visible = (new :: stale).map (· % n)) (hx : a.load k = some x) :
    ∃ j, (new :: stale)[k]? = some j ∧ x.1 = j % n ∧
      x.2.visible = (new :: stale.take k).map (· % n) := by
  obtain ⟨y, hy, rfl⟩ := Option.map_eq_some_iff.mp hx
  rw [hv, List.getElem?_map] at hy
  obtain ⟨j, hj, rfl⟩ := Option.map_eq_some_iff.mp hy
  obtain ⟨hval, hstale⟩ := List.cons.inj hv
  refine ⟨j, hj, rfl, ?_⟩
  show a.value :: a.stale.take k = _
  rw [hval, hstale, List.map_cons, List.map_take]

/-- The numbers that stay visible are those from the one that was loaded. -/
theorem loaded_le {new : Nat} {stale : List Nat} (hs : (new :: stale).Pairwise (· ≥ ·))
    (hj : (new :: stale)[k]? = some j) : ∀ i ∈ new :: stale.take k, j ≤ i := by
  intro i hi
  rw [← List.take_succ_cons] at hi
  obtain ⟨m, hm, rfl⟩ := List.mem_take_iff_getElem.mp hi
  obtain ⟨hk, rfl⟩ := List.getElem?_eq_some_iff.mp hj
  by_cases hmk : m = k
  · subst hmk
    exact Nat.le_refl _
  · exact List.pairwise_iff_getElem.mp hs m k _ hk (by omega)

theorem take_sublist {new : Nat} {stale : List Nat} (k : Nat) :
    (new :: stale.take k).Sublist (new :: stale) :=
  (List.take_sublist k stale).cons_cons new

variable (h : Counts q g)
include h

theorem userCapacity : q.userCapacity + 1 = q.capacity :=
  userCapacity_add_one q (Nat.lt_of_lt_of_le Nat.two_pos h.capacity)

theorem cache_le_write : g.writeCache ≤ g.write := h.write_cached _ List.mem_cons_self

theorem cache_le_read : g.readCache ≤ g.read := h.read_cached _ List.mem_cons_self

theorem le_write (hj : j ∈ g.write :: g.writeStale) : j ≤ g.write := by
  rcases List.mem_cons.mp hj with rfl | hj
  · exact Nat.le_refl _
  · exact (List.pairwise_cons.mp h.write_sorted).1 j hj

theorem le_read (hj : j ∈ g.read :: g.readStale) : j ≤ g.read := by
  rcases List.mem_cons.mp hj with rfl | hj
  · exact Nat.le_refl _
  · exact (List.pairwise_cons.mp h.read_sorted).1 j hj

theorem read_le_write : g.read ≤ g.write := Nat.le_trans h.read_le h.cache_le_write

theorem writeIdx_value : q.writeIdx.value = g.write % q.capacity := (List.cons.inj h.writeIdx).1

theorem readIdx_value : q.readIdx.value = g.read % q.capacity := (List.cons.inj h.readIdx).1

/-- What a load of an index gives is a slot of the ring. -/
theorem lt_of_visible {a : Atomic Nat} {js : List Nat} {x : Nat}
    (ha : a.visible = js.map (· % q.capacity)) (hx : x ∈ a.visible) : x < q.capacity := by
  rw [ha] at hx
  obtain ⟨j, -, rfl⟩ := List.mem_map.mp hx
  exact Nat.mod_lt j (Nat.lt_of_lt_of_le Nat.two_pos h.capacity)

/-- The next index counts one more store. -/
theorem next_mod (i : Nat) : q.next (i % q.capacity) = (i + 1) % q.capacity :=
  Ring.next_mod (Nat.lt_of_lt_of_le Nat.two_pos h.capacity) i

/-- **Full.** The producer's test means that one slot is left, as far as the producer has seen. -/
theorem full_iff :
    q.next (g.write % q.capacity) = q.readIdxCache ↔ g.write + 1 = g.readCache + q.capacity := by
  have hroom := h.room
  have hle := Nat.le_trans h.cache_le_read h.read_le_write
  rw [h.next_mod, h.readIdxCache]
  by_cases hfull : g.write + 1 = g.readCache + q.capacity
  · simp [hfull]
  · refine iff_of_false (fun he => ?_) hfull
    exact (Ring.mod_ne (by omega) (by omega) : g.readCache % _ ≠ (g.write + 1) % _) he.symm

/-- **Empty.** The consumer's test means that no element is left, as far as it has seen. -/
theorem empty_iff : g.read % q.capacity = q.writeIdxCache ↔ g.read = g.writeCache := by
  have hroom := h.room
  have hw := h.cache_le_write
  have hr := h.cache_le_read
  rw [h.writeIdxCache]
  exact Ring.mod_eq_iff h.read_le (by omega)

/-- A number of elements that the consumer may see is never the read index, if one is left. -/
theorem not_read (hj : j ∈ g.write :: g.writeStale) (hlt : g.read < j) :
    g.read % q.capacity ≠ j % q.capacity := by
  have hroom := h.room
  have hr := h.cache_le_read
  have hjw := h.le_write hj
  exact Ring.mod_ne hlt (by omega)

/-- What the load in `pop` gives. -/
theorem load_value {x : Nat × Atomic Nat} (hx : q.writeIdx.load k = some x) :
    ∃ j ∈ g.write :: g.writeStale, x.1 = j % q.capacity := by
  obtain ⟨j, hj, hxj, -⟩ := load_visible h.writeIdx hx
  exact ⟨j, List.mem_of_getElem? hj, hxj⟩

theorem loadWrite {x : Nat × Atomic Nat} (hx : q.writeIdx.load k = some x) :
    Counts { q with writeIdx := x.2 } (g.loadWrite k) := by
  obtain ⟨j, -, -, hv⟩ := load_visible h.writeIdx hx
  exact { h with
    writeIdx := hv
    write_sorted := h.write_sorted.sublist (take_sublist k)
    write_cached := fun i hi => h.write_cached i ((take_sublist k).subset hi) }

theorem cacheWrite {x : Nat × Atomic Nat} (hx : q.writeIdx.load k = some x) :
    Counts (q.cacheWriteIdx x) (g.cacheWrite k) := by
  obtain ⟨j, hj, hxj, -⟩ := load_visible h.writeIdx hx
  have hcache : (g.cacheWrite k).writeCache = j := by
    show (g.write :: g.writeStale)[k]?.getD 0 = j
    rw [hj, Option.getD_some]
  exact { h.loadWrite hx with
    writeIdxCache := by rw [hcache]; exact hxj
    write_cached := by rw [hcache]; exact loaded_le h.write_sorted hj
    read_le := by
      rw [hcache]
      exact Nat.le_trans h.read_le (h.write_cached j (List.mem_of_getElem? hj)) }

theorem cacheRead {x : Nat × Atomic Nat} (hx : q.readIdx.load k = some x) :
    Counts (q.cacheReadIdx x) (g.cacheRead k) := by
  obtain ⟨j, hj, hxj, hv⟩ := load_visible h.readIdx hx
  have hcache : (g.cacheRead k).readCache = j := by
    show (g.read :: g.readStale)[k]?.getD 0 = j
    rw [hj, Option.getD_some]
  exact { h with
    readIdx := hv
    readIdxCache := by rw [hcache]; exact hxj
    read_sorted := h.read_sorted.sublist (take_sublist k)
    read_cached := by rw [hcache]; exact loaded_le h.read_sorted hj
    room := by
      rw [hcache]
      exact Nat.lt_of_lt_of_le h.room
        (Nat.add_le_add_right (h.read_cached j (List.mem_of_getElem? hj)) _) }

theorem storeWrite (hlt : g.write + 1 < g.readCache + q.capacity) :
    Counts { q with writeIdx := q.writeIdx.store (q.next (g.write % q.capacity)) }
      g.storeWrite := by
  refine { h with writeIdx := ?_, write_sorted := ?_, write_cached := ?_, room := hlt }
  · show q.next _ :: q.writeIdx.visible = _
    rw [h.next_mod, h.writeIdx]
    rfl
  · exact List.pairwise_cons.mpr ⟨fun j hj => Nat.le_succ_of_le (h.le_write hj), h.write_sorted⟩
  · intro j hj
    rcases List.mem_cons.mp hj with rfl | hj
    · exact Nat.le_succ_of_le h.cache_le_write
    · exact h.write_cached j hj

theorem storeRead (hlt : g.read < g.writeCache) :
    Counts { q with readIdx := q.readIdx.store (q.next (g.read % q.capacity)) } g.storeRead := by
  refine { h with readIdx := ?_, read_sorted := ?_, read_cached := ?_, read_le := hlt }
  · show q.next _ :: q.readIdx.visible = _
    rw [h.next_mod, h.readIdx]
    rfl
  · exact List.pairwise_cons.mpr ⟨fun j hj => Nat.le_succ_of_le (h.le_read hj), h.read_sorted⟩
  · intro j hj
    rcases List.mem_cons.mp hj with rfl | hj
    · exact Nat.le_succ_of_le h.cache_le_read
    · exact h.read_cached j hj

/-- A write to a slot changes no index. -/
theorem slots (f : Nat → Option α) : Counts { q with slots := f } g := { h with }

end Counts

/-! ## The invariant -/

/-- The element that is constructed and not published. -/
def made : ProducerPc α → List α
  | .storeWrite data _ => [data]
  | _ => []

/-- The number of elements that are destroyed and not given back. -/
def ended : ConsumerPc → Nat
  | .storeRead _ => 1
  | _ => 0

/-- What the producer has found out. -/
def ProducerAt (q : SPSCQueue α) (g : Stores) : ProducerPc α → Prop
  | .idle _ | .loadWrite _ _ => True
  | .check _ _ w | .loadRead _ _ w | .recheck _ w => w = g.write % q.capacity
  | .construct _ w | .storeWrite _ w =>
    w = g.write % q.capacity ∧ g.write + 1 < g.readCache + q.capacity

/-- What the consumer has found out. -/
def ConsumerAt (q : SPSCQueue α) (g : Stores) : ConsumerPc → Prop
  | .idle none | .frontLoad => True
  | .idle (some r) | .assertWrite r | .destroy r | .storeRead r =>
    r = g.read % q.capacity ∧ g.read < g.writeCache
  | .check r | .loadWrite r | .recheck r => r = g.read % q.capacity
  | .popLoad => g.read < g.writeCache
  | .aborted => False

/-- The indices count, the slots hold what was pushed and not destroyed, and the history is one of
a queue with a slot less. -/
structure Inv (g : Stores) (q : SPSCQueue α) (p : ProducerPc α) (c : ConsumerPc)
    (es : List (Event α)) : Prop where
  counts : Counts q g
  producer : ProducerAt q g p
  consumer : ConsumerAt q g c
  holds : Ring.Holds q.slots q.capacity (g.read + ended c) (g.write + (made p).length)
    (pushed es ++ made p)
  legal : Fifo.Legal (q.capacity - 1) [] (ops es) ((pushed es).drop (g.read + ended c))

@[simp] theorem made_construct (data : α) (w : Nat) : made (.construct data w) = [] := rfl
@[simp] theorem ended_destroy (r : Nat) : ended (.destroy r) = 0 := rfl
@[simp] theorem ended_storeRead (r : Nat) : ended (.storeRead r) = 1 := rfl

@[simp] theorem pushed_push (data : α) : pushed [.push data] = [data] := rfl
@[simp] theorem pushed_read (data : α) : pushed [.read data] = [] := rfl
@[simp] theorem pushed_pop (data : α) : pushed [.pop data] = [] := rfl
@[simp] theorem ops_push (data : α) : ops [.push data] = [.enq data] := rfl
@[simp] theorem ops_read (data : α) : ops [.read data] = [] := rfl
@[simp] theorem ops_pop (data : α) : ops [.pop data] = [.deq data] := rfl

@[simp] theorem pushed_append (es e : List (Event α)) : pushed (es ++ e) = pushed es ++ pushed e :=
  List.filterMap_append

@[simp] theorem ops_append (es e : List (Event α)) : ops (es ++ e) = ops es ++ ops e :=
  List.filterMap_append

namespace Inv

variable {g : Stores}

/-- Before the first call. -/
theorem start {n : Nat} (hn : 2 ≤ n) : Inv ⟨0, [], 0, 0, [], 0⟩
    (⟨n, fun _ => none, ⟨0, []⟩, 0, ⟨0, []⟩, 0⟩ : SPSCQueue α) (.idle none) (.idle none) [] where
  counts := {
    capacity := hn
    writeIdx := rfl
    writeIdxCache := rfl
    readIdx := rfl
    readIdxCache := rfl
    write_sorted := List.pairwise_singleton _ _
    write_cached := by simp
    read_sorted := List.pairwise_singleton _ _
    read_cached := by simp
    read_le := Nat.le_refl _
    room := by
      show 0 < 0 + n
      omega }
  producer := trivial
  consumer := trivial
  holds := .nil n
  legal := .nil

/-- The number of published elements. -/
theorem length_pushed (hI : Inv g q p c es) : (pushed es).length = g.write := by
  have h := hI.holds.length
  rw [List.length_append] at h
  omega

/-- No element is destroyed before it is published. -/
theorem read_le (hI : Inv g q p c es) : g.read + ended c ≤ g.write := by
  have hcons := hI.consumer
  have hcw := hI.counts.cache_le_write
  have hrl := hI.counts.read_le
  cases c with
  | storeRead r =>
    have hlt : g.read < g.writeCache := hcons.2
    simp only [ended_storeRead]
    omega
  | _ =>
    simp only [ended]
    omega

/-- The producer's accesses. -/
theorem producer_step (hI : Inv g q p c es) (hm : ProducerMove k q p q' p' e) :
    Inv (g.afterProducer k p) q' p' c (es ++ e) := by
  have hlen := hI.length_pushed
  have hle := hI.read_le
  obtain ⟨hc, hp, hcons, hh, hl⟩ := hI
  cases hm with
  | loadWrite =>
    rw [List.append_nil]
    exact ⟨hc, hc.writeIdx_value, hcons, hh, hl⟩
  | full =>
    rw [List.append_nil]
    exact ⟨hc, hp, hcons, hh, hl⟩
  | refuse =>
    rw [List.append_nil]
    exact ⟨hc, trivial, hcons, hh, hl⟩
  | room hne | roomNow hne =>
    rw [List.append_nil]
    obtain rfl : _ = g.write % q.capacity := hp
    have hroom := hc.room
    have hfull := mt hc.full_iff.mpr hne
    have hlt : g.write + 1 < g.readCache + q.capacity := by omega
    exact ⟨hc, ⟨rfl, hlt⟩, hcons, hh, hl⟩
  | @loadRead wait data w x hx =>
    rw [List.append_nil]
    refine ⟨hc.cacheRead hx, ?_, hcons, ?_, hl⟩
    · cases wait <;> exact hp
    · cases wait <;> exact hh
  | @construct data =>
    rw [List.append_nil]
    obtain ⟨rfl, hlt⟩ := hp
    have hrc := hc.cache_le_read
    rw [made_construct, List.append_nil] at hh
    exact ⟨hc.slots _, ⟨rfl, hlt⟩, hcons, hh.construct (by simp; omega) data, hl⟩
  | @storeWrite data =>
    obtain ⟨rfl, hlt⟩ := hp
    refine ⟨hc.storeWrite hlt, trivial, ?_, ?_, ?_⟩
    · cases c with
      | idle ptr => cases ptr <;> exact hcons
      | _ => exact hcons
    · simpa [made, Stores.afterProducer, Stores.storeWrite] using hh
    · have hcr := hc.cache_le_read
      have henq := hl.enq data (by
        rw [List.length_drop, hlen]
        show _ < q.capacity - 1
        omega)
      rw [ops_append, pushed_append, List.drop_append_of_le_length (hlen ▸ hle)]
      exact henq

/-- The consumer's accesses. -/
theorem consumer_step (hI : Inv g q p c es) (hm : ConsumerMove k q c q' c' e) :
    Inv (g.afterConsumer k c) q' p c' (es ++ e) := by
  have hlen := hI.length_pushed
  obtain ⟨hc, hp, hcons, hh, hl⟩ := hI
  cases hm with
  | frontLoad =>
    rw [List.append_nil]
    exact ⟨hc, hp, hc.readIdx_value, hh, hl⟩
  | drained =>
    rw [List.append_nil]
    exact ⟨hc, hp, hcons, hh, hl⟩
  | null =>
    rw [List.append_nil]
    exact ⟨hc, hp, trivial, hh, hl⟩
  | element hne =>
    rw [List.append_nil]
    obtain rfl : _ = g.read % q.capacity := hcons
    exact ⟨hc, hp, ⟨rfl, Nat.lt_of_le_of_ne hc.read_le (mt hc.empty_iff.mpr hne)⟩, hh, hl⟩
  | elementNow hne =>
    rw [List.append_nil]
    obtain rfl : _ = g.read % q.capacity := hcons
    exact ⟨hc, hp, ⟨rfl, Nat.lt_of_le_of_ne hc.read_le (mt hc.empty_iff.mpr hne.symm)⟩, hh, hl⟩
  | loadWrite hx =>
    rw [List.append_nil]
    exact ⟨hc.cacheWrite hx, hp, hcons, hh, hl⟩
  | popLoad =>
    rw [List.append_nil]
    exact ⟨hc, hp, ⟨hc.readIdx_value, hcons⟩, hh, hl⟩
  | abort hx hr =>
    -- The assertion holds: every index that the load may give is past the read index.
    obtain ⟨rfl, hlt⟩ := hcons
    obtain ⟨j, hj, hxj⟩ := hc.load_value hx
    exact absurd (hr.symm.trans hxj)
      (hc.not_read hj (Nat.lt_of_lt_of_le hlt (hc.write_cached j hj)))
  | assert hx =>
    rw [List.append_nil]
    exact ⟨hc.loadWrite hx, hp, hcons, hh, hl⟩
  | @destroy r data hd =>
    obtain ⟨rfl, hlt⟩ := hcons
    have hcw := hc.cache_le_write
    simp only [ended_destroy, Nat.add_zero] at hh hl
    have hlt' : g.read < g.write + (made p).length := by omega
    obtain ⟨v, hv, hlive⟩ := hh.first_live hlt'
    obtain rfl : v = data := Option.some.inj (hlive.symm.trans hd)
    rw [List.getElem?_append_left (by omega)] at hv
    obtain ⟨hrlt, hget⟩ := List.getElem?_eq_some_iff.mp hv
    rw [List.drop_eq_getElem_cons hrlt, hget] at hl
    refine ⟨hc.slots _, ?_, ⟨rfl, hlt⟩, ?_, ?_⟩
    · cases p <;> exact hp
    · simpa [Stores.afterConsumer] using hh.destroy hlt'
    · simpa [Stores.afterConsumer] using hl.deq
  | storeRead =>
    rw [List.append_nil]
    obtain ⟨rfl, hlt⟩ := hcons
    exact ⟨hc.storeRead hlt, by cases p <;> exact hp, trivial, hh, hl⟩

/-- **Every step keeps the invariant.** -/
theorem step (hI : Inv g s.q s.producer s.consumer es) (hm : Move s a s' e) :
    Inv (g.after s a) s'.q s'.producer s'.consumer (es ++ e) := by
  cases hm with
  | emplace | tryEmplace =>
    rw [List.append_nil]
    exact ⟨hI.counts, trivial, hI.consumer, hI.holds, hI.legal⟩
  | producer hm => exact hI.producer_step hm
  | front =>
    rw [List.append_nil]
    exact ⟨hI.counts, hI.producer, trivial, hI.holds, hI.legal⟩
  | deref =>
    refine ⟨hI.counts, hI.producer, hI.consumer, ?_, ?_⟩
    · simpa [Stores.after] using hI.holds
    · simpa [Stores.after] using hI.legal
  | pop =>
    rw [List.append_nil]
    exact ⟨hI.counts, hI.producer, hI.consumer.2, hI.holds, hI.legal⟩
  | consumer hm => exact hI.consumer_step hm

end Inv

/-! ## Every run from the constructor -/

section Runs

variable {kPadding capacity : Nat} {allocate : Nat → Nat} {sched : List (Act α)}

/-- The constructor gives at least the slots for the elements asked for and one more, as far as
`size_t` goes. -/
theorem new_capacity (hpad : 2 * kPadding + 2 ≤ sizeMax) (halloc : ∀ n, n ≤ allocate n)
    (hc : capacity < sizeMax) :
    min (max capacity 1) (sizeMax - 2 * kPadding - 1) + 1 ≤
      (SPSCQueue.new kPadding allocate capacity : SPSCQueue α).capacity := by
  have hs : sizeMax = 2 ^ 64 - 1 := rfl
  have hmod : (max capacity 1 + 1) % 2 ^ 64 = max capacity 1 + 1 := Nat.mod_eq_of_lt (by omega)
  have hmax : (if capacity < 1 then 1 else capacity) = max capacity 1 := by
    split <;> omega
  unfold SPSCQueue.new
  simp only [hmax, hmod]
  split
  · have := halloc (sizeMax - 2 * kPadding + 2 * kPadding)
    omega
  · have := halloc (max capacity 1 + 1 + 2 * kPadding)
    omega

/-- For `SIZE_MAX` the sum of the constructor wraps, and only the padding is requested: with an
allocator that gives what is requested, the ring has no slot at all. -/
theorem new_capacity_sizeMax :
    (SPSCQueue.new kPadding allocate sizeMax : SPSCQueue α).capacity =
      allocate (2 * kPadding) - 2 * kPadding := by
  have hmax : (if sizeMax < 1 then 1 else sizeMax) = sizeMax := if_neg (by decide)
  have hwrap : (sizeMax + 1) % 2 ^ 64 = 0 := by decide
  simp only [SPSCQueue.new, hmax, hwrap, Nat.not_lt_zero, if_false, Nat.zero_add]

theorem move_capacity (hm : Move s a s' e) : s'.q.capacity = s.q.capacity := by
  cases hm with
  | producer hm => cases hm <;> rfl
  | consumer hm => cases hm <;> rfl
  | _ => rfl

/-- The invariant, and the constant capacity, of every run. -/
theorem reach_inv (hpad : 2 * kPadding + 2 ≤ sizeMax) (halloc : ∀ n, n ≤ allocate n)
    (hc : capacity < sizeMax)
    (hrun : spscQueue.run (State.start (.new kPadding allocate capacity)) sched = some (s, es)) :
    (∃ g, Inv g s.q s.producer s.consumer es) ∧
      s.q.capacity = (SPSCQueue.new kPadding allocate capacity : SPSCQueue α).capacity := by
  have h2 : 2 ≤ (SPSCQueue.new kPadding allocate capacity : SPSCQueue α).capacity := by
    have := @new_capacity α _ _ _ hpad halloc hc
    omega
  refine (Machine.run_reach hrun).invariant
    (P := fun s es => (∃ g, Inv g s.q s.producer s.consumer es) ∧
      s.q.capacity = (SPSCQueue.new kPadding allocate capacity : SPSCQueue α).capacity)
    ⟨⟨_, Inv.start h2⟩, rfl⟩ ?_
  rintro s es a s' e ⟨⟨g, hI⟩, hs⟩ - hst
  have hm := step_move hst
  exact ⟨⟨_, hI.step hm⟩, (move_capacity hm).trans hs⟩

theorem enqs_ops (es : List (Event α)) : Fifo.enqs (ops es) = pushed es := by
  rw [Fifo.enqs, ops, pushed, List.filterMap_filterMap]
  congr 1
  funext e
  cases e <;> rfl

theorem deqs_ops (es : List (Event α)) : Fifo.deqs (ops es) = popped es := by
  rw [Fifo.deqs, ops, popped, List.filterMap_filterMap]
  congr 1
  funext e
  cases e <;> rfl

/-- The number of destroyed elements. -/
theorem Inv.length_popped {g : Stores} (hI : Inv g q p c es) :
    (popped es).length = g.read + ended c := by
  have h := congrArg List.length hI.legal.conserve
  have hlen := hI.length_pushed
  have hle := hI.read_le
  rw [List.nil_append, enqs_ops, deqs_ops, List.length_append, List.length_drop] at h
  omega

/-- The pointer of the consumer is to the oldest element that is not destroyed. -/
theorem Inv.pointer {g : Stores} {r : Nat} (hI : Inv g q p (.idle (some r)) es) :
    r < q.capacity ∧ ∃ data, q.slots r = some data ∧
      (pushed es)[(popped es).length]? = some data := by
  obtain ⟨rfl, hlt⟩ := hI.consumer
  have hcw := hI.counts.cache_le_write
  have hcap := hI.counts.capacity
  have hlen := hI.length_pushed
  have hpop : (popped es).length = g.read := hI.length_popped
  have hh : Ring.Holds q.slots q.capacity g.read _ _ := hI.holds
  obtain ⟨v, hv, hlive⟩ := hh.first_live (by omega)
  rw [List.getElem?_append_left (by omega)] at hv
  exact ⟨Nat.mod_lt _ (by omega), v, hlive, hpop ▸ hv⟩

/-- **A bounded FIFO queue**, if it is made for fewer than `SIZE_MAX` elements. In every
interleaving, with any stale loads, the pushes and the destructions of elements are a history of a
queue that holds at most `capacity()` elements; this is at least the number that was asked for, and
at least one, or `SIZE_MAX - 2 * kPadding - 1`, to which the constructor cuts a larger number. What
is destroyed is a prefix of what is pushed, and what the consumer reads through the pointer of
`front` is the oldest element left. -/
theorem queue_fifo (hpad : 2 * kPadding + 2 ≤ sizeMax) (halloc : ∀ n, n ≤ allocate n)
    (hc : capacity < sizeMax)
    (hrun : spscQueue.run (State.start (.new kPadding allocate capacity)) sched = some (s, es)) :
    (∃ rest, Fifo.Legal s.q.userCapacity [] (ops es) rest) ∧
      min (max capacity 1) (sizeMax - 2 * kPadding - 1) ≤ s.q.userCapacity ∧
      popped es <+: pushed es ∧ (pushed es).length ≤ (popped es).length + s.q.userCapacity ∧
      ∀ a s' e data, spscQueue.step s a = some (s', e) → .read data ∈ e →
        (pushed es)[(popped es).length]? = some data := by
  obtain ⟨⟨g, hI⟩, hcap⟩ := reach_inv hpad halloc hc hrun
  have hnew := @new_capacity α _ _ _ hpad halloc hc
  have huser := hI.counts.userCapacity
  have hlegal := hI.legal
  rw [← huser, Nat.add_sub_cancel] at hlegal
  obtain ⟨hpre, hrest⟩ := hlegal.prefix_of_nil
  have hlen := hlegal.length_le (Nat.zero_le _)
  rw [← hrest, enqs_ops, deqs_ops, List.length_drop] at hlen
  rw [enqs_ops, deqs_ops] at hpre
  refine ⟨⟨_, hlegal⟩, by omega, hpre, by omega, ?_⟩
  · intro a s' e data hst hmem
    cases step_move hst with
    | @deref q p r x hx =>
      obtain ⟨-, v, hv, hget⟩ := hI.pointer
      obtain rfl : data = x := by simpa using hmem
      obtain rfl : v = data := Option.some.inj (hv.symm.trans hx)
      exact hget
    | producer hm => cases hm <;> simp at hmem
    | consumer hm => cases hm <;> simp at hmem
    | _ => simp at hmem

namespace Inv

variable {g : Stores}

/-- The producer constructs in a raw slot. -/
theorem construct_raw {data : α} {w : Nat} (hI : Inv g q (.construct data w) c es) :
    w < q.capacity ∧ q.slots w = none := by
  obtain ⟨rfl, hlt⟩ := hI.producer
  have hcap := hI.counts.capacity
  have hcr := hI.counts.cache_le_read
  have hh := hI.holds
  rw [made_construct, List.append_nil] at hh
  exact ⟨Nat.mod_lt _ (by omega), hh.next_raw (by simp; omega)⟩

/-- The consumer destroys an object. -/
theorem destroy_live {r : Nat} (hI : Inv g q p (.destroy r) es) :
    r < q.capacity ∧ q.slots r ≠ none := by
  obtain ⟨rfl, hlt⟩ := hI.consumer
  have hcap := hI.counts.capacity
  have hcw := hI.counts.cache_le_write
  have hh : Ring.Holds q.slots q.capacity g.read _ _ := hI.holds
  obtain ⟨v, -, hv⟩ := hh.first_live (by omega)
  exact ⟨Nat.mod_lt _ (by omega), by simp [hv]⟩

/-- A producer in a call can make its next access. -/
theorem producer_goes (p : ProducerPc α) :
    (∃ last, p = .idle last) ∨ spscQueue.step ⟨q, p, c⟩ (.producer 0) ≠ none := by
  cases p with
  | idle last => exact .inl ⟨last, rfl⟩
  | _ => exact .inr (by simp [spscQueue, Rigtorp.step, stepProducer, Atomic.load_zero])

/-- A consumer in a call can make its next access. -/
theorem consumer_goes (hI : Inv g q p c es) :
    (∃ ptr, c = .idle ptr) ∨ spscQueue.step ⟨q, p, c⟩ (.consumer 0) ≠ none := by
  cases c with
  | idle ptr => exact .inl ⟨ptr, rfl⟩
  | destroy r =>
    obtain ⟨v, hv⟩ := Option.ne_none_iff_exists'.mp hI.destroy_live.2
    exact .inr (by simp [spscQueue, Rigtorp.step, stepConsumer, hv])
  | aborted => exact hI.consumer.elim
  | _ => exact .inr (by simp [spscQueue, Rigtorp.step, stepConsumer, Atomic.load_zero])

end Inv

/-- A ring for one element: it goes in, a second one is refused, and it is read and destroyed. -/
theorem queue_fifo_one : ∃ (s : State Bool) (es : List (Event Bool)),
    es = [.push true, .read true, .pop true] ∧ s.producer = .idle (some false) ∧
      (∃ rest, Fifo.Legal s.q.userCapacity [] (ops es) rest) ∧ 1 ≤ s.q.userCapacity ∧
      popped es <+: pushed es ∧ (pushed es).length ≤ (popped es).length + s.q.userCapacity ∧
      ∀ a s' e data, spscQueue.step s a = some (s', e) → .read data ∈ e →
        (pushed es)[(popped es).length]? = some data :=
  ⟨_, _, rfl, rfl, @queue_fifo Bool _ _ 8 1 id
    (.emplace true :: List.replicate 4 (.producer 0) ++ .tryEmplace false ::
      List.replicate 4 (.producer 0) ++ .front :: List.replicate 4 (.consumer 0) ++
      .deref :: .pop :: List.replicate 4 (.consumer 0))
    (by decide) (fun _ => Nat.le_refl _) (by decide) rfl⟩

/-- **The life of an element**, in a queue that is made for fewer than `SIZE_MAX` elements
(`new_capacity_sizeMax`). In every interleaving, with any stale loads: an object is constructed in a
raw slot of the ring only; the pointer of the consumer and the destructor call go to a slot with an
object; the assertion of `pop` never fails, and no access inside a call is undefined; and there are
as many objects as elements pushed and not destroyed, with the one that is not published yet. -/
theorem lifetimes (hpad : 2 * kPadding + 2 ≤ sizeMax) (halloc : ∀ n, n ≤ allocate n)
    (hc : capacity < sizeMax)
    (hrun : spscQueue.run (State.start (.new kPadding allocate capacity)) sched = some (s, es)) :
    (∀ data w, s.producer = .construct data w → w < s.q.capacity ∧ s.q.slots w = none) ∧
      (∀ r, s.consumer = .idle (some r) ∨ s.consumer = .destroy r →
        r < s.q.capacity ∧ s.q.slots r ≠ none) ∧
      s.consumer ≠ .aborted ∧
      ((∃ last, s.producer = .idle last) ∨ spscQueue.step s (.producer 0) ≠ none) ∧
      ((∃ ptr, s.consumer = .idle ptr) ∨ spscQueue.step s (.consumer 0) ≠ none) ∧
      ((Finset.range s.q.capacity).filter fun i => (s.q.slots i).isSome).card + (popped es).length =
        (pushed es).length + (made s.producer).length := by
  obtain ⟨⟨g, hI⟩, -⟩ := reach_inv hpad halloc hc hrun
  refine ⟨?_, ?_, ?_, Inv.producer_goes _, hI.consumer_goes, ?_⟩
  · intro data w hp
    rw [hp] at hI
    exact hI.construct_raw
  · rintro r (hr | hr)
    · rw [hr] at hI
      obtain ⟨hlt, v, hv, -⟩ := hI.pointer
      exact ⟨hlt, by simp [hv]⟩
    · rw [hr] at hI
      exact hI.destroy_live
  · intro ha
    rw [ha] at hI
    exact hI.consumer
  · have hle := hI.holds.le
    rw [hI.holds.card_live, hI.length_popped, hI.length_pushed]
    omega

/-- A ring for one element, with a pointer to it. -/
theorem lifetimes_one : ∃ (s : State Bool) (es : List (Event Bool)),
    s.consumer = .idle (some 0) ∧ es = [.push true] ∧
    (∀ data w, s.producer = .construct data w → w < s.q.capacity ∧ s.q.slots w = none) ∧
      (∀ r, s.consumer = .idle (some r) ∨ s.consumer = .destroy r →
        r < s.q.capacity ∧ s.q.slots r ≠ none) ∧
      s.consumer ≠ .aborted ∧
      ((∃ last, s.producer = .idle last) ∨ spscQueue.step s (.producer 0) ≠ none) ∧
      ((∃ ptr, s.consumer = .idle ptr) ∨ spscQueue.step s (.consumer 0) ≠ none) ∧
      ((Finset.range s.q.capacity).filter fun i => (s.q.slots i).isSome).card + (popped es).length =
        (pushed es).length + (made s.producer).length :=
  ⟨_, _, rfl, rfl, @lifetimes Bool _ _ 8 1 id
    (.emplace true :: List.replicate 4 (.producer 0) ++ .front :: List.replicate 4 (.consumer 0))
    (by decide) (fun _ => Nat.le_refl _) (by decide) rfl⟩

end Runs

end Rigtorp

end FastQ
