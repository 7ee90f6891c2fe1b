import FastQ.Proofs.Publication

/-!
# What a thread knows of its own calls

Facts about the calls of one thread that the programs around the queue use: which call it is, the
element that it carries, whether it has taken effect, and on which value of the other side's counter
a pop fails. Each is kept by the moves of its party.

* `ProducerPc.accepts`, `ConsumerPc.takes`: the call has advanced the local counter, or the last
  call did; with this correction the local counters do not change (`ProducerMove.accepts`,
  `ConsumerMove.takes`).
* `ProducerPc.Carries`, `ConsumerPc.Carries`: the element of the call.
* `Numbered`: the elements in the ring are the values of a function at their numbers.
* `Decided`: the pop has loaded the value of `writer_` on which it fails.
-/

namespace FastQ

/-! ## Which call it is -/

section Calls

variable {α κ : Type} [OfNat κ 1] [Add κ] [Sub κ] [AndOp κ] [LE κ] [DecidableEq κ] [DecidableLE κ]
  {PublishBatch : κ} {k : Nat} {q q' : SPSC α κ} {e : List (Event α κ)} {p p' : ProducerPc α κ}
  {c c' : ConsumerPc α κ} {x : α}

/-- The call is a push, or the last call was one. -/
def ProducerPc.Pushing : ProducerPc α κ → Prop
  | .idle l => ∃ ok, l = some (.push ok)
  | .publishReader _ => False
  | .publishWriter r _ => ∃ ok, r = .push ok
  | _ => True

theorem ProducerMove.pushing (hm : ProducerMove PublishBatch k q p q' p' e) (h : p.Pushing) :
    p'.Pushing := by
  cases hm with
  | readReader | storeReader | readReaderAgain | markReader => exact h.elim
  | refuse | due | notDue => exact ⟨_, rfl⟩
  | readWriter | storeWriter | readWriterAgain => exact h
  | markWriter =>
    obtain ⟨ok, rfl⟩ := h
    exact ⟨ok, rfl⟩
  | _ => trivial

omit [OfNat κ 1] [Add κ] [Sub κ] [AndOp κ] [LE κ] [DecidableEq κ] [DecidableLE κ] in
/-- A push is not a `flush`. -/
theorem ProducerPc.Pushing.calm (h : p.Pushing) : p.flushing = false := by
  cases p with
  | publishReader x => exact h.elim
  | publishWriter r x =>
    obtain ⟨ok, rfl⟩ := h
    rfl
  | _ => rfl

/-- The call is a pop, or the last call was one. -/
def ConsumerPc.Popping : ConsumerPc α κ → Prop
  | .idle l => ∃ r, l = some (.pop r)
  | .publishReader r _ => ∃ r', r = .pop r'
  | .publishWriter _ => False
  | _ => True

theorem ConsumerMove.popping (hm : ConsumerMove PublishBatch k q c q' c' e) (h : c.Popping) :
    c'.Popping := by
  cases hm with
  | readWriter | storeWriter | readWriterAgain | markWriter => exact h.elim
  | refuse | due | notDue | markReader => exact ⟨_, rfl⟩
  | readReader | storeReader | readReaderAgain => exact h
  | markReaderFlush =>
    obtain ⟨r, hr⟩ := h
    cases hr
  | _ => trivial

omit [OfNat κ 1] [Add κ] [Sub κ] [AndOp κ] [LE κ] [DecidableEq κ] [DecidableLE κ] in
/-- A pop is not a `flush`. -/
theorem ConsumerPc.Popping.calm (h : c.Popping) : c.flushing = false := by
  cases c with
  | publishReader r x =>
    obtain ⟨r, rfl⟩ := h
    rfl
  | publishWriter x => exact h.elim
  | _ => rfl

/-- A `flush` of the consumer goes on to its end. -/
theorem ConsumerMove.flushing (hm : ConsumerMove PublishBatch k q c q' c' e)
    (h : c.flushing = true) : q'.consumer.localReader = q.consumer.localReader ∧
      (c'.flushing = true ∨ c' = .idle (some .flush)) := by
  cases hm with
  | markReaderFlush | readWriter | storeWriter | readWriterAgain => exact ⟨rfl, .inl rfl⟩
  | markWriter => exact ⟨rfl, .inr rfl⟩
  | @readReader r | @storeReader r | @readReaderAgain r =>
    cases r with
    | pop r => cases h
    | flush => exact ⟨rfl, .inl rfl⟩
  | _ => cases h

/-! ## The element of the call -/

/-- The element that is being pushed is `x`. -/
def ProducerPc.Carries (x : α) : ProducerPc α κ → Prop
  | .fullCheck data | .loadReader data | .fullRecheck data | .writeSlot data | .increment data =>
    data = x
  | _ => True

/-- The element that is being popped, or was popped last, is `x`. -/
def ConsumerPc.Carries (x : α) : ConsumerPc α κ → Prop
  | .increment data | .batchCheck data | .publishReader (.pop (some data)) _
  | .idle (some (.pop (some data))) => data = x
  | _ => True

theorem ProducerMove.carries (hm : ProducerMove PublishBatch k q p q' p' e) (h : p.Carries x) :
    p'.Carries x := by
  cases hm with
  | full | room | load | roomNow | write => exact h
  | _ => trivial

theorem ConsumerMove.carries (hm : ConsumerMove PublishBatch k q c q' c' e)
    (hread : c = .readSlot → q.readSlot = x) (h : c.Carries x) : c'.Carries x := by
  cases hm with
  | read => exact hread rfl
  | increment | due | notDue => exact h
  | @markReader r =>
    cases r with
    | some data => exact h
    | none => trivial
  | @readReader r | @storeReader r | @readReaderAgain r =>
    match r, h with
    | .pop (some data), h => exact h
    | .pop none, _ => trivial
    | .flush, _ => trivial
  | _ => trivial

end Calls

/-! ## Unbounded counters -/

section Counters

variable {α : Type} {PublishBatch k : Nat} {q q' : SPSC α Nat} {e : List (Event α Nat)}
  {p p' : ProducerPc α Nat} {c c' : ConsumerPc α Nat}

/-- The push has accepted its element, or the last call was a push that did. -/
def ProducerPc.accepts {κ : Type} : ProducerPc α κ → Bool
  | .idle l => l == some (.push true)
  | p => p.advanced

/-- The pop has taken its element, or the last call was a pop that did. -/
def ConsumerPc.takes {κ : Type} : ConsumerPc α κ → Bool
  | .idle (some r) => r.taken
  | c => c.advanced

theorem ProducerMove.accepts (hm : ProducerMove PublishBatch k q p q' p' e) :
    q'.producer.localWriter + (if p.accepts then 1 else 0) =
      q.producer.localWriter + if p'.accepts then 1 else 0 := by
  cases hm <;> rfl

theorem ConsumerMove.takes (hm : ConsumerMove PublishBatch k q c q' c' e) :
    q'.consumer.localReader + (if c.takes then 1 else 0) =
      q.consumer.localReader + if c'.takes then 1 else 0 := by
  cases hm <;> rfl

/-- Element number `i` of the ring is `f i`. -/
def Numbered (f : Nat → α) (q : SPSC α Nat) : Prop :=
  ∀ i, q.consumer.localReader ≤ i → i < q.producer.localWriter → q.buffer (i % q.capacity) = f i

theorem ProducerMove.numbered {f : Nat → α} (hm : ProducerMove PublishBatch k q p q' p' e)
    (hs : Shape q) (ho : Ordered q) (hp : ProducerOk q p)
    (hf : p.atSlot = true → p.Carries (f q.producer.localWriter)) (h : Numbered f q) :
    Numbered f q' := by
  cases hm with
  | @write data =>
    intro i hlo hhi
    have hw : q.producer.localWriter < q.producer.cachedReader + q.capacity := hp
    have := ho.cachedReader_le
    have := ho.reader_le_local
    have hlo : q.consumer.localReader ≤ i := hlo
    have hhi : i < q.producer.localWriter := hhi
    have hne : i % q.capacity ≠ q.writeIndex := by
      rw [hs.writeIndex_eq]
      exact Ring.mod_ne hhi (by omega)
    exact (Function.update_of_ne hne _ _).trans (h i hlo hhi)
  | @increment data =>
    intro i hlo hhi
    obtain ⟨-, hslot⟩ := hp
    rcases Nat.lt_succ_iff_lt_or_eq.mp hhi with hlt | rfl
    · exact h i hlo hlt
    · have hdata : data = f q.producer.localWriter := hf rfl
      rw [hs.writeIndex_eq] at hslot
      exact hslot.trans hdata
  | _ => exact h

theorem Numbered.stable {f : Nat → α} (h : Numbered f q) (hb : ByConsumer q q') :
    Numbered f q' := by
  intro i hlo hhi
  rw [hb.buffer, hb.capacity]
  exact h i (Nat.le_trans hb.localReader hlo) (hb.localWriter ▸ hhi)

/-- The next element to be popped. -/
theorem Numbered.readSlot {f : Nat → α} (h : Numbered f q) (hs : Shape q)
    (hlt : q.consumer.localReader < q.producer.localWriter) :
    q.readSlot = f q.consumer.localReader := by
  unfold SPSC.readSlot
  rw [hs.readIndex_eq]
  exact h _ (Nat.le_refl _) hlt

/-! ## What the consumer has loaded or published -/

/-- The pop has loaded the value on which it fails. -/
def Decided (q : SPSC α Nat) (c : ConsumerPc α Nat) : Prop :=
  (c = .emptyRecheck ∧ q.consumer.localReader = q.consumer.cachedWriter) ∨
    (∃ x, c = .publishReader (.pop none) x) ∨ c = .idle (some (.pop none))

/-- A pop that is going to fail knew it before the step, or the step loaded the value. -/
theorem ConsumerMove.decided (hm : ConsumerMove PublishBatch 0 q c q' c' e)
    (h : Decided q' c') : q'.consumer.localReader = q.consumer.localReader ∧
      (Decided q c ∨ q.consumer.localReader = q.writer.value) := by
  cases hm with
  | load hl =>
    rw [Atomic.load_zero] at hl
    cases hl
    rcases h with ⟨-, h⟩ | ⟨x, h⟩ | h
    · exact ⟨rfl, .inr h⟩
    · cases h
    · cases h
  | refuse hf => exact ⟨rfl, .inl (.inl ⟨rfl, of_decide_eq_true hf⟩)⟩
  | readReader | storeReader | readReaderAgain =>
    rcases h with ⟨h, -⟩ | ⟨x, h⟩ | h <;> cases h
    exact ⟨rfl, .inl (.inr (.inl ⟨_, rfl⟩))⟩
  | markReader =>
    rcases h with ⟨h, -⟩ | ⟨x, h⟩ | h <;> cases h
    exact ⟨rfl, .inl (.inr (.inl ⟨_, rfl⟩))⟩
  | _ => rcases h with ⟨h, -⟩ | ⟨x, h⟩ | h <;> cases h

/-- A consumer that is not in a `flush` does not change `writer_`. -/
theorem ConsumerMove.writer (hm : ConsumerMove PublishBatch k q c q' c' e)
    (h : c.flushing = false) : q'.writer.value = q.writer.value := by
  cases hm with
  | load hl => exact Atomic.load_value hl
  | storeWriter => cases h
  | _ => rfl

/-- While the producer is idle, a `flush` of the consumer publishes all that was accepted. -/
def FlushAt (q : SPSC α Nat) : ConsumerPc α Nat → Prop
  | .publishWriter (.store x) => x = q.producer.localWriter
  | .publishWriter .readAgain | .publishWriter (.mark _) | .idle (some .flush) =>
    q.writer.value = q.producer.localWriter
  | _ => True

theorem ConsumerMove.flushAt (hm : ConsumerMove PublishBatch k q c q' c' e) (h : FlushAt q c) :
    FlushAt q' c' := by
  cases hm with
  | readWriter => exact rfl
  | storeWriter | readWriterAgain | markWriter => exact h
  | _ => trivial

/-- A `flush` of the consumer while the producer is idle does not race. -/
theorem unraced_of_idle {s : State α Nat} (a : Act α) (hp : s.producer.flushing = false)
    (h : s.consumer.flushing = true → ∃ l, s.producer = .idle l) : unraced s a = true := by
  unfold unraced
  split
  · rename_i hpc hcc
    obtain ⟨l, hl⟩ := h (by rw [hcc]; rfl)
    rw [hpc] at hl
    cases hl
  · rename_i hpc hcc
    rw [hpc] at hp
    cases hp
  · rfl

end Counters

end FastQ
