import FastQ.Proofs.Batching
import FastQ.Proofs.Rigtorp

/-!
# The calls of `rigtorp::SPSCQueue`

A call that no other one interrupts is a run of the accesses (`Represents.run_call`), so scripts of
calls keep the invariant. At rest the queue represents a list of at most `capacity()` elements
(`Represents`), and every call does to the list what its name says.

* `queues_agree`: no script of calls tells the queue from `fastq::SPSC` with a batch of one.
* `size_bounds`: `size` and `empty` in the middle of a run.
* `destructor_frees`: what the destructor leaves.
-/

namespace FastQ

namespace Rigtorp

variable {α : Type} {q q' : SPSCQueue α} {l : List α} {data : α} {g : Stores}

/-! ## `size` and `empty` -/

/-- What `size` returns for two indices of the ring. -/
theorem sizeResult_eq {w r : Nat} (hcap : q.capacity ≤ 2 ^ 63) (hw : w < q.capacity)
    (hr : r < q.capacity) :
    q.sizeResult w r = if r ≤ w then w - r else q.capacity - (r - w) := by
  have hwn : (BitVec.ofNat 64 w).toNat = w := by
    rw [BitVec.toNat_ofNat, Nat.mod_eq_of_lt (by omega)]
  have hrn : (BitVec.ofNat 64 r).toNat = r := by
    rw [BitVec.toNat_ofNat, Nat.mod_eq_of_lt (by omega)]
  have hdiff : (BitVec.ofNat 64 w - BitVec.ofNat 64 r).toNat = (2 ^ 64 - r + w) % 2 ^ 64 := by
    rw [BitVec.toNat_sub, hwn, hrn]
  unfold SPSCQueue.sizeResult
  simp only [BitVec.ofNat_eq_ofNat, BitVec.slt_zero_eq_msb, BitVec.msb_eq_decide, hdiff]
  by_cases hle : r ≤ w
  · have hval : (2 ^ 64 - r + w) % 2 ^ 64 = w - r := by
      rw [show 2 ^ 64 - r + w = w - r + 2 ^ 64 by omega, Nat.add_mod_right,
        Nat.mod_eq_of_lt (by omega)]
    rw [hval, if_pos hle, if_neg (by simp; omega), hdiff, hval]
  · have hval : (2 ^ 64 - r + w) % 2 ^ 64 = 2 ^ 64 - r + w := Nat.mod_eq_of_lt (by omega)
    have hneg : decide (2 ^ (64 - 1) ≤ 2 ^ 64 - r + w) = true := decide_eq_true (by omega)
    rw [hval, if_neg hle, if_pos hneg, BitVec.toNat_add, hdiff, hval, BitVec.toNat_ofNat,
      Nat.mod_eq_of_lt (show q.capacity < 2 ^ 64 by omega),
      show 2 ^ 64 - r + w + q.capacity = q.capacity - (r - w) + 2 ^ 64 by omega,
      Nat.add_mod_right, Nat.mod_eq_of_lt (by omega)]

/-- It is never more than `capacity()`, wherever the two loads came from. -/
theorem sizeResult_le {w r : Nat} (hcap : q.capacity ≤ 2 ^ 63) (hw : w < q.capacity)
    (hr : r < q.capacity) : q.sizeResult w r ≤ q.userCapacity := by
  have huser := userCapacity_add_one q (Nat.zero_lt_of_lt hw)
  rw [sizeResult_eq hcap hw hr]
  split <;> omega

/-- For the indices of two numbers that are close it is their difference. -/
theorem sizeResult_mod {lo hi : Nat} (hcap : q.capacity ≤ 2 ^ 63) (hle : lo ≤ hi)
    (hlt : hi < lo + q.capacity) :
    q.sizeResult (hi % q.capacity) (lo % q.capacity) = hi - lo := by
  have hpos : 0 < q.capacity := by omega
  rw [sizeResult_eq hcap (Nat.mod_lt _ hpos) (Nat.mod_lt _ hpos), Ring.dist_mod hle hlt]

theorem emptyResult_mod {lo hi : Nat} (hle : lo ≤ hi) (hlt : hi < lo + q.capacity) :
    SPSCQueue.emptyResult (hi % q.capacity) (lo % q.capacity) = decide (hi = lo) := by
  unfold SPSCQueue.emptyResult
  rw [decide_eq_decide, eq_comm, Ring.mod_eq_iff hle hlt, eq_comm]

/-! ## What a call does to the contents -/

/-- No call is going on; `all` is what was pushed. -/
structure Rest (g : Stores) (q : SPSCQueue α) (all : List α) : Prop where
  counts : Counts q g
  holds : Ring.Holds q.slots q.capacity g.read g.write all

/-- No call is going on, and the queue holds the list. -/
def Represents (q : SPSCQueue α) (l : List α) : Prop := ∃ g all, Rest g q all ∧ l = all.drop g.read

/-- Besides, `front` has given a pointer. -/
def Pointed (q : SPSCQueue α) (l : List α) : Prop :=
  ∃ g all, Rest g q all ∧ l = all.drop g.read ∧ g.read < g.writeCache

namespace Rest

variable {all : List α} (h : Rest g q all)
include h

theorem length_drop : (all.drop g.read).length = g.write - g.read := by
  rw [List.length_drop, h.holds.length]

/-- The producer's cache holds the newest value. -/
theorem cacheRead : Rest (g.cacheRead 0) (q.cacheReadIdx q.readIdx.loadNewest) all :=
  ⟨h.counts.cacheRead (Atomic.load_zero _), h.holds⟩

/-- The consumer's cache holds the newest value. -/
theorem cacheWrite : Rest (g.cacheWrite 0) (q.cacheWriteIdx q.writeIdx.loadNewest) all :=
  ⟨h.counts.cacheWrite (Atomic.load_zero _), h.holds⟩

/-- With room as far as the producer has seen, an element is appended. -/
theorem put (hne : q.next q.writeIdx.value ≠ q.readIdxCache) (data : α) :
    (all.drop g.read).length ≠ q.userCapacity ∧
      Represents (q.put data) (all.drop g.read ++ [data]) := by
  have hroom := h.counts.room
  have hcr := h.counts.cache_le_read
  have hle := h.holds.le
  have huser := h.counts.userCapacity
  rw [h.counts.writeIdx_value] at hne
  have hfull := mt h.counts.full_iff.mpr hne
  have hlt : g.write + 1 < g.readCache + q.capacity := by omega
  refine ⟨?_, g.storeWrite, all ++ [data], ?_, ?_⟩
  · rw [h.length_drop]
    omega
  · unfold SPSCQueue.put
    rw [h.counts.writeIdx_value]
    exact ⟨(h.counts.storeWrite hlt).slots _, h.holds.construct (by omega) data⟩
  · exact (List.drop_append_of_le_length (by rw [h.holds.length]; exact hle)).symm

/-- With an element as far as the consumer has seen, the pointer is to the first one. -/
theorem pointer (hlt : g.read < g.write) :
    ∃ data, q.slots q.readIdx.value = some data ∧
      all.drop g.read = data :: all.drop (g.read + 1) := by
  obtain ⟨v, hv, hlive⟩ := h.holds.first_live hlt
  obtain ⟨hrlt, rfl⟩ := List.getElem?_eq_some_iff.mp hv
  rw [h.counts.readIdx_value]
  exact ⟨_, hlive, List.drop_eq_getElem_cons hrlt⟩

end Rest

namespace Represents

/-- Between the calls of a run. -/
theorem of_inv {last : Option Bool} {ptr : Option Nat} {es : List (Event α)}
    (hI : Inv g q (.idle last) (.idle ptr) es) :
    Represents q ((pushed es).drop (popped es).length) := by
  have hpop : (popped es).length = g.read := hI.length_popped
  have hh : Ring.Holds q.slots q.capacity g.read g.write (pushed es ++ []) := hI.holds
  rw [List.append_nil] at hh
  exact ⟨g, pushed es, ⟨hI.counts, hh⟩, by rw [hpop]⟩

/-- Before the first call. -/
theorem new {kPadding capacity : Nat} {allocate : Nat → Nat}
    (h2 : 2 ≤ (SPSCQueue.new kPadding allocate capacity : SPSCQueue α).capacity) :
    Represents (SPSCQueue.new kPadding allocate capacity : SPSCQueue α) [] :=
  of_inv (Inv.start h2)

/-- `try_emplace` is refused by a full queue only. -/
theorem tryEmplace (h : Represents q l) (data : α) :
    if l.length = q.userCapacity then
      (q.tryEmplace data).1 = false ∧ Represents (q.tryEmplace data).2 l
    else (q.tryEmplace data).1 = true ∧ Represents (q.tryEmplace data).2 (l ++ [data]) := by
  obtain ⟨g, all, h, rfl⟩ := h
  unfold SPSCQueue.tryEmplace
  by_cases hseen : q.next q.writeIdx.value = q.readIdxCache
  · rw [if_pos hseen]
    have h' := h.cacheRead
    generalize hq : q.cacheReadIdx q.readIdx.loadNewest = q₁ at h' ⊢
    have hcap : q.userCapacity = q₁.userCapacity := by rw [← hq]; rfl
    rw [hcap]
    by_cases hfull : q₁.next q₁.writeIdx.value = q₁.readIdxCache
    · have hf : g.write + 1 = g.read + q₁.capacity := by
        rw [h'.counts.writeIdx_value] at hfull
        exact h'.counts.full_iff.mp hfull
      have hlen : (all.drop g.read).length = q₁.userCapacity := by
        have huser := h'.counts.userCapacity
        rw [h.length_drop]
        omega
      simp only [if_pos hlen, if_pos hfull]
      exact ⟨trivial, _, all, h', rfl⟩
    · obtain ⟨hlen, hput⟩ := h'.put hfull data
      have hlen : (all.drop g.read).length ≠ q₁.userCapacity := hlen
      simp only [if_neg hlen, if_neg hfull]
      exact ⟨trivial, hput⟩
  · obtain ⟨hlen, hput⟩ := h.put hseen data
    rw [if_neg hseen, if_neg hlen]
    exact ⟨rfl, hput⟩

/-- `front` gives a pointer to the first element, `nullptr` if there is none. -/
theorem front (h : Represents q l) :
    ∃ q', (l = [] ∧ q.front = (none, q') ∧ Represents q' l ∨
        ∃ data rest, l = data :: rest ∧ q.front = (some q'.readIdx.value, q') ∧
          q'.slots q'.readIdx.value = some data ∧ Pointed q' l) ∧
      q'.userCapacity = q.userCapacity := by
  obtain ⟨g, all, h, rfl⟩ := h
  have hle := h.holds.le
  unfold SPSCQueue.front
  by_cases hseen : q.readIdx.value = q.writeIdxCache
  · simp only [if_pos hseen]
    have h' := h.cacheWrite
    have hr : (q.cacheWriteIdx q.writeIdx.loadNewest).readIdx.value = q.readIdx.value := rfl
    have hcap : (q.cacheWriteIdx q.writeIdx.loadNewest).userCapacity = q.userCapacity := rfl
    generalize q.cacheWriteIdx q.writeIdx.loadNewest = q₁ at h' hr hcap ⊢
    rw [← hr]
    refine ⟨q₁, ?_, hcap⟩
    by_cases hempty : q₁.writeIdxCache = q₁.readIdx.value
    · have he : g.read = g.write := by
        rw [h'.counts.readIdx_value] at hempty
        exact h'.counts.empty_iff.mp hempty.symm
      have hnil : all.drop g.read = [] := List.drop_eq_nil_of_le (by rw [h.holds.length, he])
      rw [if_pos hempty]
      exact .inl ⟨hnil, rfl, _, all, h', rfl⟩
    · have hne : g.read ≠ g.write := by
        rw [h'.counts.readIdx_value] at hempty
        exact mt h'.counts.empty_iff.mpr (fun he => hempty he.symm)
      have hlt := Nat.lt_of_le_of_ne hle hne
      obtain ⟨data, hlive, hdrop⟩ := h'.pointer hlt
      rw [if_neg hempty]
      exact .inr ⟨data, _, hdrop, rfl, hlive, _, all, h', rfl, hlt⟩
  · have hne : g.read ≠ g.writeCache := by
      rw [h.counts.readIdx_value] at hseen
      exact mt h.counts.empty_iff.mpr hseen
    have hlt := Nat.lt_of_le_of_ne h.counts.read_le hne
    obtain ⟨data, hlive, hdrop⟩ := h.pointer (Nat.lt_of_lt_of_le hlt h.counts.cache_le_write)
    simp only [if_neg hseen]
    exact ⟨q, .inr ⟨data, _, hdrop, rfl, hlive, g, all, h, rfl, hlt⟩, rfl⟩

end Represents

/-- `pop` destroys the element that the pointer is to. -/
theorem Pointed.pop (h : Pointed q (data :: l)) :
    ∃ q', q.pop = some q' ∧ Represents q' l ∧ q'.userCapacity = q.userCapacity := by
  obtain ⟨g, all, h, hl, hlt⟩ := h
  have hwrite := Nat.lt_of_lt_of_le hlt h.counts.cache_le_write
  obtain ⟨v, hlive, hdrop⟩ := h.pointer hwrite
  obtain ⟨rfl, rfl⟩ : data = v ∧ l = all.drop (g.read + 1) := by simpa [hdrop] using hl
  have hne : q.writeIdx.loadNewest.1 ≠ q.readIdx.value := by
    unfold Atomic.loadNewest
    rw [h.counts.writeIdx_value, h.counts.readIdx_value]
    exact (h.counts.not_read List.mem_cons_self hwrite).symm
  -- The load of the assertion, the destructor call and the store.
  have hc := h.counts.loadWrite (Atomic.load_zero _)
  have hc' := (hc.slots (Function.update q.slots (g.read % q.capacity) none)).storeRead hlt
  refine ⟨_, ?_, ⟨_, all, ⟨hc', h.holds.destroy hwrite⟩, rfl⟩, rfl⟩
  rw [SPSCQueue.pop, if_neg hne, hlive, h.counts.readIdx_value]
  rfl

namespace Represents

/-- The `pop` of `main` takes the first element. -/
theorem frontPop (h : Represents q l) :
    ∃ q', q.frontPop = some (l.head?, q') ∧ Represents q' l.tail ∧
      q'.userCapacity = q.userCapacity := by
  obtain ⟨q₁, ⟨rfl, hfront, h₁⟩ | ⟨data, rest, rfl, hfront, hlive, h₁⟩, hcap₁⟩ := h.front
  · exact ⟨q₁, by simp [SPSCQueue.frontPop, hfront], h₁, hcap₁⟩
  · obtain ⟨q', hpop, h', hcap⟩ := h₁.pop
    exact ⟨q', by simp [SPSCQueue.frontPop, hfront, hlive, hpop], h', hcap.trans hcap₁⟩

/-- An empty queue has no objects. -/
theorem raw (h : Represents q []) : ∀ i < q.capacity, q.slots i = none := by
  obtain ⟨g, all, h, hl⟩ := h
  have hlen := congrArg List.length hl
  rw [h.length_drop, List.length_nil] at hlen
  intro i hi
  exact h.holds.raw i hi fun j hlo hhi => by omega

/-- The destructor pops what is left, and then there is no object in the ring. -/
theorem destructor (h : Represents q l) :
    ∃ q', (∀ n, SPSCQueue.destructor n q = if l.length < n then some q' else none) ∧
      Represents q' [] ∧ q'.userCapacity = q.userCapacity := by
  induction l generalizing q with
  | nil =>
    obtain ⟨q', ⟨-, hfront, h'⟩ | ⟨_, _, hl, -⟩, hcap⟩ := h.front
    · refine ⟨q', fun n => ?_, h', hcap⟩
      cases n with
      | zero => rfl
      | succ n => simp [SPSCQueue.destructor, hfront]
    · cases hl
  | cons data l ih =>
    obtain ⟨q₁, ⟨hl, -⟩ | ⟨_, _, hl, hfront, -, h₁⟩, hcap₁⟩ := h.front
    · cases hl
    · obtain ⟨q₂, hpop, h₂, hcap₂⟩ := h₁.pop
      obtain ⟨q', hn, h', hcap⟩ := ih h₂
      refine ⟨q', fun n => ?_, h', hcap.trans (hcap₂.trans hcap₁)⟩
      cases n with
      | zero => rfl
      | succ n => simp [SPSCQueue.destructor, hfront, hpop, hn]

/-- There is a slot more than elements. -/
theorem capacity_eq (h : Represents q l) : q.capacity = q.userCapacity + 1 := by
  obtain ⟨g, all, h, -⟩ := h
  exact h.counts.userCapacity.symm

end Represents

/-! ## Calls that nothing interrupts -/

/-- `try_emplace`. -/
theorem run_tryEmplace (q : SPSCQueue α) (data : α) (last : Option Bool) (c : ConsumerPc) :
    ∃ n, spscQueue.run ⟨q, .idle last, c⟩ (.tryEmplace data :: List.replicate n (.producer 0)) =
      some (⟨(q.tryEmplace data).2, .idle (some (q.tryEmplace data).1), c⟩,
        if (q.tryEmplace data).1 then [.push data] else []) := by
  by_cases hseen : q.next q.writeIdx.value = q.readIdxCache
  · by_cases hfull : q.readIdxCache = q.readIdx.loadNewest.1
    · refine ⟨4, ?_⟩
      simp [Machine.run_cons, List.replicate, spscQueue, step, stepProducer, Atomic.load_zero,
        SPSCQueue.tryEmplace, hseen, hfull]
    · refine ⟨6, ?_⟩
      simp [Machine.run_cons, List.replicate, spscQueue, step, stepProducer, Atomic.load_zero,
        SPSCQueue.tryEmplace, SPSCQueue.put, hseen, hfull]
      rw [← hseen]
      rfl
  · refine ⟨4, ?_⟩
    simp [Machine.run_cons, List.replicate, spscQueue, step, stepProducer,
      SPSCQueue.tryEmplace, SPSCQueue.put, hseen]
    rfl

/-- `front`. -/
theorem run_front (q : SPSCQueue α) (p : ProducerPc α) (ptr : Option Nat) :
    ∃ n, spscQueue.run ⟨q, p, .idle ptr⟩ (.front :: List.replicate n (.consumer 0)) =
      some (⟨q.front.2, p, .idle q.front.1⟩, []) := by
  by_cases hseen : q.readIdx.value = q.writeIdxCache
  · refine ⟨4, ?_⟩
    by_cases hempty : q.writeIdx.loadNewest.1 = q.writeIdxCache
    · simp [Machine.run_cons, List.replicate, spscQueue, step, stepConsumer, Atomic.load_zero,
        SPSCQueue.front, hseen, hempty]
    · simp [Machine.run_cons, List.replicate, spscQueue, step, stepConsumer, Atomic.load_zero,
        SPSCQueue.front, hseen, hempty]
  · refine ⟨2, ?_⟩
    simp [Machine.run_cons, List.replicate, spscQueue, step, stepConsumer, SPSCQueue.front, hseen]

/-- `pop`. -/
theorem run_pop {r : Nat} (p : ProducerPc α) (hpop : q.pop = some q') :
    ∃ data, q.slots q.readIdx.value = some data ∧
      spscQueue.run ⟨q, p, .idle (some r)⟩ (.pop :: List.replicate 4 (.consumer 0)) =
        some (⟨q', p, .idle none⟩, [.pop data]) := by
  unfold SPSCQueue.pop at hpop
  by_cases hne : q.writeIdx.loadNewest.1 = q.readIdx.value
  · rw [if_pos hne] at hpop
    cases hpop
  · rw [if_neg hne] at hpop
    obtain ⟨data, hlive, rfl⟩ := Option.map_eq_some_iff.mp hpop
    refine ⟨data, hlive, ?_⟩
    simp [Machine.run_cons, List.replicate, spscQueue, step, stepConsumer, Atomic.load_zero, hne,
      hlive]
    rfl

/-- From one queue between calls to another one, by accesses that show these events. -/
def Runs (q q' : SPSCQueue α) (es : List (Event α)) : Prop :=
  ∀ last ptr, ∃ sched last' ptr',
    spscQueue.run ⟨q, .idle last, .idle ptr⟩ sched = some (⟨q', .idle last', .idle ptr'⟩, es)

theorem Runs.refl (q : SPSCQueue α) : Runs q q [] := fun last ptr => ⟨[], last, ptr, rfl⟩

theorem Runs.trans {q₁ : SPSCQueue α} {es es' : List (Event α)} (h : Runs q q₁ es)
    (h' : Runs q₁ q' es') : Runs q q' (es ++ es') := by
  intro last ptr
  obtain ⟨sched, last₁, ptr₁, hrun⟩ := h last ptr
  obtain ⟨sched', last', ptr', hrun'⟩ := h' last₁ ptr₁
  exact ⟨_, last', ptr', Machine.run_append hrun hrun'⟩

/-- `front`, `*ptr` and `pop`. -/
theorem Represents.run_frontPop (h : Represents q l) {r : Option α}
    (hq : q.frontPop = some (r, q')) : ∃ es, Runs q q' es := by
  obtain ⟨q₁, ⟨-, hf, -⟩ | ⟨data, rest, rfl, hf, hlive, h₁⟩, -⟩ := h.front
  · rw [SPSCQueue.frontPop, hf] at hq
    cases hq
    refine ⟨[], fun last ptr => ?_⟩
    obtain ⟨n, hrun⟩ := run_front q (.idle last) ptr
    rw [hf] at hrun
    exact ⟨_, _, _, hrun⟩
  · obtain ⟨q₂, hpop, -, -⟩ := h₁.pop
    simp only [SPSCQueue.frontPop, hf, hlive, hpop, Option.bind_some, Option.map_some] at hq
    cases hq
    refine ⟨[] ++ ([.read data] ++ [.pop data]), fun last ptr => ?_⟩
    obtain ⟨n, hrun⟩ := run_front q (.idle last) ptr
    rw [hf] at hrun
    obtain ⟨data', hlive', hrun'⟩ := @run_pop _ _ _ q₁.readIdx.value (.idle last) hpop
    obtain rfl : data = data' := Option.some.inj (hlive.symm.trans hlive')
    have hderef : spscQueue.step ⟨q₁, .idle last, .idle (some q₁.readIdx.value)⟩ .deref =
        some (⟨q₁, .idle last, .idle (some q₁.readIdx.value)⟩, [.read data]) := by
      simp [spscQueue, step, hlive]
    exact ⟨_, _, _, Machine.run_append hrun (Machine.run_step hderef hrun')⟩

/-- A call is a run of accesses. -/
theorem Represents.run_call (h : Represents q l) {c : Call α} {e : List (Answer α Nat)}
    (hc : q.call c = some (q', e)) : ∃ es, Runs q q' es := by
  cases c with
  | push data =>
    cases hc
    refine ⟨if (q.tryEmplace data).1 then [.push data] else [], fun last ptr => ?_⟩
    obtain ⟨n, hrun⟩ := run_tryEmplace q data last (.idle ptr)
    exact ⟨_, _, _, hrun⟩
  | pop =>
    obtain ⟨⟨r, q₁⟩, hq, hc⟩ := Option.map_eq_some_iff.mp hc
    cases hc
    exact h.run_frontPop hq
  | flush => cases hc
  | size | empty =>
    cases hc
    exact ⟨[], .refl q⟩

/-! ## The same answers as a queue that publishes every call -/

/-- The abstract queue with the same contents; nothing is pending and nothing freed. -/
structure Agrees {n : Nat} (q : SPSCQueue α) (b : BatchQueue α n) : Prop where
  capacity : q.userCapacity = n
  contents : Represents q b.published
  pending : b.pending = []
  freed : b.freed = 0

namespace Agrees

variable {n : Nat} {b : BatchQueue α n}

theorem full_iff (h : Agrees q b) : b.Full ↔ b.published.length = q.userCapacity := by
  unfold BatchQueue.Full
  rw [h.pending, h.freed, h.capacity, List.length_nil, Nat.add_zero]

theorem push (h : Agrees q b) (data : α) :
    (q.tryEmplace data).1 = (b.push 1 data).1 ∧ Agrees (q.tryEmplace data).2 (b.push 1 data).2 := by
  have ht := h.contents.tryEmplace data
  have hcap : (q.tryEmplace data).2.userCapacity = n := by
    rw [← h.capacity]
    unfold SPSCQueue.tryEmplace
    split
    · dsimp only
      split <;> rfl
    · rfl
  unfold BatchQueue.push
  by_cases hfull : b.Full
  · rw [if_pos (h.full_iff.mp hfull)] at ht
    rw [dif_pos hfull]
    refine ⟨ht.1, hcap, ?_, rfl, h.freed⟩
    simpa [BatchQueue.publish, h.pending] using ht.2
  · rw [if_neg (mt h.full_iff.mpr hfull)] at ht
    rw [dif_neg hfull]
    have hdue : 1 ≤ (b.append data hfull).pending.length := by simp [BatchQueue.append]
    simp only [if_pos hdue]
    refine ⟨ht.1, hcap, ?_, rfl, h.freed⟩
    simpa [BatchQueue.publish, BatchQueue.append, h.pending] using ht.2

theorem pop (h : Agrees q b) :
    ∃ q', q.frontPop = some ((b.pop 1).1, q') ∧ Agrees q' (b.pop 1).2 := by
  obtain ⟨q', hq, h', hcap⟩ := h.contents.frontPop
  refine ⟨q', ?_⟩
  unfold BatchQueue.pop
  split
  · rename_i hnil
    rw [hnil] at hq h'
    exact ⟨hq, hcap.trans h.capacity, by simpa [BatchQueue.giveBack, hnil] using h', h.pending, rfl⟩
  · rename_i data rest hcons
    rw [hcons] at hq h'
    have hdue : 1 ≤ (b.remove hcons).freed := by simp [BatchQueue.remove]
    simp only [if_pos hdue]
    exact ⟨hq, hcap.trans h.capacity, h', h.pending, rfl⟩

/-- **A call.** It has the answer of the abstract queue. -/
theorem call (h : Agrees q b) (hcap : q.capacity ≤ 2 ^ 63) {c : Call α} (hc : c ≠ .flush) :
    ∃ q' es, q.call c = some (q', (b.call 1 c).2) ∧ Agrees q' (b.call 1 c).1 ∧ Runs q q' es := by
  have hcall : ∃ q', q.call c = some (q', (b.call 1 c).2) ∧ Agrees q' (b.call 1 c).1 := by
    obtain ⟨g, all, hr, hl⟩ := h.contents
    have hlen := hr.length_drop
    have hroom := hr.counts.room
    have hcr := hr.counts.cache_le_read
    have hsize : b.size = g.write - g.read := by
      unfold BatchQueue.size
      rw [h.freed, hl, hlen, Nat.add_zero]
    cases c with
    | push data =>
      obtain ⟨hok, h'⟩ := h.push data
      exact ⟨_, by simp only [SPSCQueue.call, BatchQueue.call, hok], h'⟩
    | pop =>
      obtain ⟨q', hq, h'⟩ := h.pop
      exact ⟨q', by simp only [SPSCQueue.call, BatchQueue.call, hq, Option.map_some], h'⟩
    | flush => exact absurd rfl hc
    | size =>
      refine ⟨q, ?_, h⟩
      simp only [SPSCQueue.call, BatchQueue.call, hsize]
      rw [hr.counts.writeIdx_value, hr.counts.readIdx_value,
        sizeResult_mod hcap hr.holds.le (by omega)]
    | empty =>
      have hle := hr.holds.le
      refine ⟨q, ?_, h⟩
      simp only [SPSCQueue.call, BatchQueue.call, BatchQueue.empty, hsize]
      rw [hr.counts.writeIdx_value, hr.counts.readIdx_value, emptyResult_mod hle (by omega),
        decide_eq_decide.mpr (show g.write = g.read ↔ g.write - g.read = 0 by omega)]
  obtain ⟨q', hq, h'⟩ := hcall
  obtain ⟨es, hes⟩ := h.contents.run_call hq
  exact ⟨q', es, hq, h', hes⟩

/-- **A script.** -/
theorem run (h : Agrees q b) (hn : n < 2 ^ 63) {script : List (Call α)}
    (hscript : ∀ c ∈ script, c ≠ .flush) :
    ∃ q' b' es e, rigtorpCalls.run q script = some (q', es) ∧
      (batchQueue n 1).run b script = some (b', es) ∧ Agrees q' b' ∧ Runs q q' e := by
  induction script generalizing q b with
  | nil => exact ⟨q, b, [], [], rfl, rfl, h, .refl q⟩
  | cons c script ih =>
    have hcap : q.capacity ≤ 2 ^ 63 := by
      rw [h.contents.capacity_eq, h.capacity]
      omega
    obtain ⟨q₁, e₁, hcall, h₁, hruns₁⟩ := h.call hcap (hscript c List.mem_cons_self)
    obtain ⟨q', b', es, e, hrun, hrunb, h', hruns⟩ :=
      ih h₁ fun c hc => hscript c (List.mem_cons_of_mem _ hc)
    exact ⟨q', b', _, _, Machine.run_step hcall hrun, Machine.run_step rfl hrunb, h',
      hruns₁.trans hruns⟩

end Agrees

/-- An allocator that gives what is asked for. -/
theorem new_agrees {kPadding n : Nat} (hpad : 2 * kPadding + 2 ≤ 2 ^ 62) (hpos : 0 < n)
    (hn : n < 2 ^ 63) :
    Agrees (SPSCQueue.new kPadding id n : SPSCQueue α) (BatchQueue.new n) := by
  have hs : sizeMax = 2 ^ 64 - 1 := rfl
  have hcap : (SPSCQueue.new kPadding id n : SPSCQueue α).capacity = n + 1 := by
    have hmod : (n + 1) % 2 ^ 64 = n + 1 := Nat.mod_eq_of_lt (by omega)
    unfold SPSCQueue.new
    simp only [if_neg (Nat.not_lt.mpr hpos), hmod, id_eq]
    rw [if_neg (by omega), Nat.add_sub_cancel]
  have huser : (SPSCQueue.new kPadding id n : SPSCQueue α).userCapacity = n :=
    Nat.succ.inj ((userCapacity_add_one _ (by omega)).trans hcap)
  exact ⟨huser, .new (by omega), rfl, rfl⟩

/-- **One queue can stand for the other**, for fewer than `2 ^ 63` elements. Every script of pushes,
pops, `size` and `empty` gets the same answers from `fastq::SPSC` with a batch of one and from this
queue made for as many elements; at its end they hold the same elements. The calls of the script are
runs of accesses. -/
theorem queues_agree {kPadding : Nat} {capacity : BitVec 64} {memory : BitVec 64 → α}
    {f : SPSC α (BitVec 64)} {script : List (Call α)} (hpad : 2 * kPadding + 2 ≤ 2 ^ 62)
    (hcap : capacity.toNat < 2 ^ 63) (hf : SPSC.new capacity memory = .ok f)
    (hscript : ∀ c ∈ script, c ≠ .flush) :
    ∃ f' q' es e, (calls 1).run f script = some (f', es.map Answer.wrap) ∧
      rigtorpCalls.run (.new kPadding id capacity.toNat) script = some (q', es) ∧
      Represents q' f'.slots ∧ Runs (.new kPadding id capacity.toNat) q' e := by
  obtain ⟨f₀, hnew, hstart, -, hnear⟩ := new_unwrap hf
  obtain rfl : f = f₀.wrap := congrArg FastQ.State.q hstart
  have hone : (1 : BitVec 64).toNat = 1 := rfl
  obtain ⟨f', b, es, hrun, hrunb, hb⟩ :=
    (new_batched hnew hnear).run (1 : BitVec 64).isLt script
  rw [wrap_toNat, hone] at *
  have hpos : 0 < capacity.toNat := Nat.pos_of_ne_zero fun h0 =>
    (SPSC.new_eq hf).2.1 (BitVec.eq_of_toNat_eq h0)
  obtain ⟨q', b', es', e, hrunq, hrunb', hq, hruns⟩ :=
    (new_agrees hpad hpos hcap).run hcap hscript
  obtain ⟨rfl, rfl⟩ := Prod.mk.inj (Option.some.inj (hrunb.symm.trans hrunb'))
  have hslots : f'.wrap.slots = b.published :=
    (slots_wrap hb.near).trans (hb.contents.trans (by rw [hq.pending, List.append_nil]))
  exact ⟨f'.wrap, q', es, e, hrun, hrunq, hslots ▸ hq.contents, hruns⟩

/-- A ring for two elements: the third push is refused. -/
theorem queues_agree_two : ∃ (f' : SPSC Bool (BitVec 64)) (q' : SPSCQueue Bool)
    (es : List (Answer Bool Nat)) (e : List (Event Bool)),
    (calls 1).run (SPSC.fresh 2 fun _ => false)
        [.push true, .push false, .push true, .size, .pop, .empty] =
        some (f', es.map Answer.wrap) ∧
      rigtorpCalls.run (.new 8 id 2) [.push true, .push false, .push true, .size, .pop, .empty] =
        some (q', es) ∧
      Represents q' f'.slots ∧ Runs (.new 8 id 2) q' e :=
  @queues_agree Bool 8 2 (fun _ => false) _
    [.push true, .push false, .push true, .size, .pop, .empty] (by decide) (by decide) rfl
    (by decide)

/-! ## From any state of a run -/

section Runs

variable {kPadding capacity : Nat} {allocate : Nat → Nat} {sched : List (Act α)} {s : State α}
  {es : List (Event α)}

/-- **What the parties learn from `size` and `empty`**, in the middle of a run of a queue that is
made for fewer than `SIZE_MAX` elements and has at most `2 ^ 63` slots. The producer, whose load of
`readIdx_` may be stale, gets at least the number of elements left, and sees an empty queue only if
it is one. The consumer, between its calls and with a load of `writeIdx_` that may be stale, gets at
most the number of elements left, and sees an element only if there is one. Every load of an index,
at any moment, gives a number below `capacity_`, which stays what the constructor has set; so nobody
gets more than `capacity()`, even if the two loads are from different moments. -/
theorem size_bounds (hpad : 2 * kPadding + 2 ≤ sizeMax) (halloc : ∀ n, n ≤ allocate n)
    (hc : capacity < sizeMax)
    (hmax : (SPSCQueue.new kPadding allocate capacity : SPSCQueue α).capacity ≤ 2 ^ 63)
    (hrun : spscQueue.run (State.start (.new kPadding allocate capacity)) sched = some (s, es)) :
    (∀ y ∈ s.q.readIdx.visible,
      (pushed es).length ≤ (popped es).length + s.q.sizeResult s.q.writeIdx.value y ∧
        (SPSCQueue.emptyResult s.q.writeIdx.value y → (pushed es).length = (popped es).length)) ∧
      (∀ ptr, s.consumer = .idle ptr → ∀ x ∈ s.q.writeIdx.visible,
        (popped es).length + s.q.sizeResult x s.q.readIdx.value ≤ (pushed es).length ∧
          (¬ SPSCQueue.emptyResult x s.q.readIdx.value →
            (popped es).length < (pushed es).length)) ∧
      s.q.capacity = (SPSCQueue.new kPadding allocate capacity : SPSCQueue α).capacity ∧
      (∀ x ∈ s.q.writeIdx.visible, x < s.q.capacity) ∧
      (∀ y ∈ s.q.readIdx.visible, y < s.q.capacity) ∧
      ∀ x y, x < s.q.capacity → y < s.q.capacity → s.q.sizeResult x y ≤ s.q.userCapacity := by
  obtain ⟨⟨g, hI⟩, hcap⟩ := reach_inv hpad halloc hc hrun
  have hcounts := hI.counts
  have hlen := hI.length_pushed
  have hpop := hI.length_popped
  have hle := hI.read_le
  have hmax' : s.q.capacity ≤ 2 ^ 63 := hcap ▸ hmax
  have hroom := hcounts.room
  have hcr := hcounts.cache_le_read
  refine ⟨fun y hy => ?_, fun ptr hptr x hx => ?_, hcap,
    fun x => hcounts.lt_of_visible hcounts.writeIdx,
    fun y => hcounts.lt_of_visible hcounts.readIdx, fun x y => sizeResult_le hmax'⟩
  · rw [hcounts.readIdx] at hy
    obtain ⟨j, hj, rfl⟩ := List.mem_map.mp hy
    have hjc := hcounts.read_cached j hj
    have hjr := hcounts.le_read hj
    rw [hcounts.writeIdx_value, sizeResult_mod hmax' (by omega) (by omega),
      emptyResult_mod (by omega) (by omega), decide_eq_true_iff]
    omega
  · rw [hcounts.writeIdx] at hx
    obtain ⟨j, hj, rfl⟩ := List.mem_map.mp hx
    have hjc := hcounts.write_cached j hj
    have hjw := hcounts.le_write hj
    have hrl := hcounts.read_le
    rw [hptr] at hpop
    have hpop : (popped es).length = g.read := hpop
    rw [hcounts.readIdx_value, sizeResult_mod hmax' (by omega) (by omega),
      emptyResult_mod (by omega) (by omega), decide_eq_true_iff]
    omega

/-- A ring for two elements: one is published and not seen, one is constructed. -/
theorem size_bounds_two : ∃ (s : State Bool) (es : List (Event Bool)),
    s.q.writeIdx.visible = [1, 0] ∧ es = [.push true] ∧
    (∀ y ∈ s.q.readIdx.visible,
      (pushed es).length ≤ (popped es).length + s.q.sizeResult s.q.writeIdx.value y ∧
        (SPSCQueue.emptyResult s.q.writeIdx.value y → (pushed es).length = (popped es).length)) ∧
      (∀ ptr, s.consumer = .idle ptr → ∀ x ∈ s.q.writeIdx.visible,
        (popped es).length + s.q.sizeResult x s.q.readIdx.value ≤ (pushed es).length ∧
          (¬ SPSCQueue.emptyResult x s.q.readIdx.value →
            (popped es).length < (pushed es).length)) ∧
      s.q.capacity = 3 ∧ (∀ x ∈ s.q.writeIdx.visible, x < s.q.capacity) ∧
      (∀ y ∈ s.q.readIdx.visible, y < s.q.capacity) ∧
      ∀ x y, x < s.q.capacity → y < s.q.capacity → s.q.sizeResult x y ≤ s.q.userCapacity :=
  ⟨_, _, rfl, rfl, @size_bounds Bool 8 2 id
    (.emplace true :: List.replicate 4 (.producer 0) ++ .emplace false ::
      List.replicate 3 (.producer 0))
    _ _ (by decide) (fun _ => Nat.le_refl _) (by decide) (by decide) rfl⟩

/-- **The destructor** of a queue that is made for fewer than `SIZE_MAX` elements. When no call is
going on it ends, after as many pops as there are elements left, and leaves no object in the ring:
every object that was constructed is destroyed once. -/
theorem destructor_frees {last : Option Bool} {ptr : Option Nat}
    (hpad : 2 * kPadding + 2 ≤ sizeMax) (halloc : ∀ n, n ≤ allocate n) (hc : capacity < sizeMax)
    (hrun : spscQueue.run (State.start (.new kPadding allocate capacity)) sched = some (s, es))
    (hp : s.producer = .idle last) (hcons : s.consumer = .idle ptr) :
    ∃ q', (∀ n, SPSCQueue.destructor n s.q =
        if (pushed es).length < (popped es).length + n then some q' else none) ∧
      ∀ i < s.q.capacity, q'.slots i = none := by
  obtain ⟨⟨g, hI⟩, -⟩ := reach_inv hpad halloc hc hrun
  have hlen := hI.length_pushed
  have hpop := hI.length_popped
  have hle := hI.read_le
  rw [hp, hcons] at hI
  have hrep := Represents.of_inv hI
  obtain ⟨q', hn, h', hcap⟩ := hrep.destructor
  have hcap' : q'.capacity = s.q.capacity := by
    rw [h'.capacity_eq, hcap, hrep.capacity_eq]
  refine ⟨q', fun n => ?_, fun i hi => h'.raw i (hcap' ▸ hi)⟩
  rw [hn, List.length_drop]
  congr 1
  rw [eq_iff_iff]
  omega

/-- A ring for two elements, with one left. -/
theorem destructor_frees_two : ∃ (s : State Bool) (es : List (Event Bool)) (q' : SPSCQueue Bool),
    es = [.push true, .push false, .read true, .pop true] ∧
      (∀ n, SPSCQueue.destructor n s.q =
        if (pushed es).length < (popped es).length + n then some q' else none) ∧
      ∀ i < s.q.capacity, q'.slots i = none :=
  ⟨_, _, _, rfl, (@destructor_frees Bool 8 2 id
    (.emplace true :: List.replicate 4 (.producer 0) ++ .emplace false ::
      List.replicate 4 (.producer 0) ++ .front :: List.replicate 4 (.consumer 0) ++
      .deref :: .pop :: List.replicate 4 (.consumer 0))
    _ _ _ _ (by decide) (fun _ => Nat.le_refl _) (by decide) rfl rfl rfl).choose_spec⟩

end Runs

end Rigtorp

end FastQ
