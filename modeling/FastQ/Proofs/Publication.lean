import FastQ.Proofs.History

/-!
# What is published stays published, and when

`push` and `pop` publish only their own counter, so the shared counters never go back. `flush`
publishes both, and its publication of the other party's counter is a read of the local counter and
a later store: if the other party publishes a newer value in between, the store takes it back
(`publication_taken_back`). That is the only way (`unraced`): in every run in which no party
publishes a newer value while the other party's `flush` is between its read and its store, the
shared counters only grow, and what a `flush` or a failed call published is still published at the
next call (`publications_kept`). In a run with such a step the store of that `flush`, when it comes,
lowers a shared counter (`unraced_iff_rising`).

* `Kept`: the invariant of such runs.
* `Behind`: what a step that breaks the condition leaves, until the store.
* `Calm`: no party is inside a `flush` of its own. Runs of `push` and `pop` are calm, and calm runs
  are unraced.
-/

namespace FastQ

variable {α : Type}

/-! ## Races of a `flush` -/

/-- The step does not publish a value other than the one that the `flush` of the other party has
read and is about to store. -/
def unraced {κ : Type} [DecidableEq κ] (s : State α κ) (a : Act α) : Bool :=
  match a, s.producer, s.consumer with
  | .producer _, .publishWriter _ (.store x), .publishWriter (.store y) => x = y
  | .consumer _, .publishReader (.store y), .publishReader _ (.store x) => x = y
  | _, _, _ => true

/-- The producer is inside a `flush`. -/
def ProducerPc.flushing {κ : Type} : ProducerPc α κ → Bool
  | .publishReader _ | .publishWriter .flush _ => true
  | _ => false

/-- The consumer is inside a `flush`. -/
def ConsumerPc.flushing {κ : Type} : ConsumerPc α κ → Bool
  | .publishReader .flush _ | .publishWriter _ => true
  | _ => false

theorem Act.pushPop_calm {a : Act α} (h : a.pushPop = true) : a.calm = true := by
  cases a <;> first | rfl | cases h

/-- No party is inside a `flush`. -/
structure Calm {κ : Type} (s : State α κ) : Prop where
  producer : s.producer.flushing = false
  consumer : s.consumer.flushing = false

section Calm

variable {κ : Type} [OfNat κ 1] [Add κ] [Sub κ] [AndOp κ] [LE κ] [DecidableEq κ] [DecidableLE κ]
  {PublishBatch : κ} {s s' : State α κ} {a : Act α} {e : List (Event α κ)}

theorem ProducerMove.calm {k : Nat} {q q' : SPSC α κ} {p p' : ProducerPc α κ}
    (hm : ProducerMove PublishBatch k q p q' p' e) (h : p.flushing = false) :
    p'.flushing = false := by
  cases hm with
  | readReader | storeReader | readReaderAgain | markReader => cases h
  | @readWriter r | @storeWriter r | @readWriterAgain r =>
    cases r with
    | push ok => rfl
    | flush => cases h
  | _ => rfl

theorem ConsumerMove.calm {k : Nat} {q q' : SPSC α κ} {c c' : ConsumerPc α κ}
    (hm : ConsumerMove PublishBatch k q c q' c' e) (h : c.flushing = false) :
    c'.flushing = false := by
  cases hm with
  | readWriter | storeWriter | readWriterAgain | markWriter | markReaderFlush => cases h
  | @readReader r | @storeReader r | @readReaderAgain r =>
    cases r with
    | pop r => rfl
    | flush => cases h
  | _ => rfl

theorem Move.calm (hm : Move PublishBatch s a s' e) (ha : a.calm = true) (h : Calm s) :
    Calm s' := by
  cases hm with
  | push => exact ⟨rfl, h.consumer⟩
  | producerFlush => cases ha
  | producer hm => exact ⟨hm.calm h.producer, h.consumer⟩
  | pop => exact ⟨h.producer, rfl⟩
  | consumerFlush => cases ha
  | consumer hm => exact ⟨h.producer, hm.calm h.consumer⟩
  | _ => exact ⟨h.producer, h.consumer⟩

omit [OfNat κ 1] [Add κ] [Sub κ] [AndOp κ] [LE κ] [DecidableLE κ] in
/-- Without a `flush` there is no race of one. -/
theorem Calm.unraced (h : Calm s) (a : Act α) : unraced s a = true := by
  obtain ⟨q, p, c⟩ := s
  obtain ⟨hp, hc⟩ := h
  unfold FastQ.unraced
  split
  · rename_i hcc
    rw [hcc] at hc
    cases hc
  · rename_i hpc _
    rw [hpc] at hp
    cases hp
  · rfl

/-- A run without `flush` calls by the parties is calm, and so unraced. -/
theorem reach_calm {ok : State α κ → Act α → Prop} {s₀ : State α κ} {es : List (Event α κ)}
    (h : (spsc PublishBatch).Reach ok s₀ s es) (hok : ∀ s a, ok s a → a.calm = true)
    (h₀ : Calm s₀) :
    (spsc PublishBatch).Reach (fun s a => ok s a ∧ unraced s a = true) s₀ s es ∧ Calm s :=
  h.strengthen h₀ (fun s a _ _ hs ha hst => (step_move hst).calm (hok s a ha) hs)
    fun _ a hs ha => ⟨ha, hs.unraced a⟩

end Calm

/-- The producer's last call published `writer_`, and the producer has not accepted anything
since. -/
def ProducerPc.publishedWriter {κ : Type} : ProducerPc α κ → Bool
  | .publishWriter _ .readAgain | .publishWriter _ (.mark _) => true
  | .idle (some .flush) | .idle (some (.push false)) => true
  | _ => false

/-- The consumer's last call published `reader_`, and the consumer has not popped anything since. -/
def ConsumerPc.publishedReader {κ : Type} : ConsumerPc α κ → Bool
  | .publishReader _ .readAgain | .publishReader _ (.mark _) | .publishWriter _ => true
  | .idle (some .flush) | .idle (some (.pop none)) => true
  | _ => false

theorem ProducerPc.publishedWriter_wrap (p : ProducerPc α Nat) :
    p.wrap.publishedWriter = p.publishedWriter := by
  cases p with
  | idle last => rcases last with _ | ⟨⟨⟩ | ⟨⟩⟩ | _ <;> rfl
  | publishWriter r x => cases x <;> rfl
  | _ => rfl

theorem ConsumerPc.publishedReader_wrap (c : ConsumerPc α Nat) :
    c.wrap.publishedReader = c.publishedReader := by
  cases c with
  | idle last => rcases last with _ | ⟨⟨_⟩ | _⟩ | _ <;> rfl
  | publishReader r x => cases x <;> rfl
  | _ => rfl

/-- The invariant of unraced runs: what a `flush` is about to store is not below what is shared, and
what a party published is still there. -/
structure Kept (s : State α Nat) : Prop where
  reader : ∀ y, s.producer = .publishReader (.store y) → s.q.reader.value ≤ y
  writer : ∀ y, s.consumer = .publishWriter (.store y) → s.q.writer.value ≤ y
  publishedWriter : s.producer.publishedWriter = true →
    s.q.writer.value = s.q.producer.localWriter
  publishedReader : s.consumer.publishedReader = true →
    s.q.reader.value = s.q.consumer.localReader

/-- The shared counters do not go back. -/
structure Grows (q q' : SPSC α Nat) : Prop where
  reader : q.reader.value ≤ q'.reader.value
  writer : q.writer.value ≤ q'.writer.value

theorem Grows.of_eq {q q' : SPSC α Nat} (hr : q.reader.value = q'.reader.value)
    (hw : q.writer.value = q'.writer.value) : Grows q q' := ⟨Nat.le_of_eq hr, Nat.le_of_eq hw⟩

theorem Grows.trans {q q' q'' : SPSC α Nat} (h : Grows q q') (h' : Grows q' q'') : Grows q q'' :=
  ⟨Nat.le_trans h.reader h'.reader, Nat.le_trans h.writer h'.writer⟩

theorem Atomic.load_value {κ : Type} {a : Atomic κ} {k : Nat} {p : κ × Atomic κ}
    (h : a.load k = some p) : p.2.value = a.value := by
  obtain ⟨x, -, rfl⟩ := Option.map_eq_some_iff.mp h
  rfl

variable {PublishBatch k : Nat} {q q' : SPSC α Nat} {e : List (Event α Nat)}

/-- The producer's moves keep the invariant of unraced runs, and lower no shared counter. -/
theorem ProducerMove.kept {p p' : ProducerPc α Nat} {c : ConsumerPc α Nat}
    (hm : ProducerMove PublishBatch k q p q' p' e) (ho : Ordered q) (hp : ProducerOk q p)
    (hk : Kept ⟨q, p, c⟩) (hr : unraced ⟨q, p, c⟩ (.producer k) = true) :
    Kept ⟨q', p', c⟩ ∧ Grows q q' := by
  cases hm with
  | load hl =>
    have hv := Atomic.load_value hl
    refine ⟨⟨nofun, hk.writer, nofun, fun hc => ?_⟩, Nat.le_of_eq hv.symm, Nat.le_refl _⟩
    exact hv.trans (hk.publishedReader hc)
  | @storeReader x =>
    have hle : q.reader.value ≤ x := hk.reader x rfl
    refine ⟨⟨nofun, hk.writer, nofun, fun hc => ?_⟩, hle, Nat.le_refl _⟩
    have heq : q.reader.value = q.consumer.localReader := hk.publishedReader hc
    exact Nat.le_antisymm hp.2 (heq ▸ hle)
  | readReader =>
    refine ⟨⟨fun y hy => ?_, hk.writer, nofun, hk.publishedReader⟩, .of_eq rfl rfl⟩
    cases hy
    exact ho.reader_le_local
  | @storeWriter r x =>
    have hx : x = q.producer.localWriter := hp
    refine ⟨⟨nofun, fun y hy => ?_, fun _ => hx, hk.publishedReader⟩, Nat.le_refl _, ?_⟩
    · cases hy
      exact Nat.le_of_eq (of_decide_eq_true hr)
    · exact hx ▸ ho.writer_le_local
  | readWriterAgain | markWriter =>
    exact ⟨⟨nofun, hk.writer, fun _ => hk.publishedWriter rfl, hk.publishedReader⟩, .of_eq rfl rfl⟩
  | _ => exact ⟨⟨nofun, hk.writer, nofun, hk.publishedReader⟩, .of_eq rfl rfl⟩

/-- The same for the consumer's moves. -/
theorem ConsumerMove.kept {p : ProducerPc α Nat} {c c' : ConsumerPc α Nat}
    (hm : ConsumerMove PublishBatch k q c q' c' e) (ho : Ordered q) (hc : ConsumerOk q c)
    (hk : Kept ⟨q, p, c⟩) (hr : unraced ⟨q, p, c⟩ (.consumer k) = true) :
    Kept ⟨q', p, c'⟩ ∧ Grows q q' := by
  cases hm with
  | load hl =>
    have hv := Atomic.load_value hl
    refine ⟨⟨hk.reader, nofun, fun hp => ?_, nofun⟩, Nat.le_refl _, Nat.le_of_eq hv.symm⟩
    exact hv.trans (hk.publishedWriter hp)
  | @storeReader r x =>
    have hx : x = q.consumer.localReader := hc
    refine ⟨⟨fun y hy => ?_, nofun, hk.publishedWriter, fun _ => hx⟩, ?_, Nat.le_refl _⟩
    · cases hy
      exact Nat.le_of_eq (of_decide_eq_true hr)
    · exact hx ▸ ho.reader_le_local
  | readReaderAgain | markReader | markReaderFlush =>
    exact ⟨⟨hk.reader, nofun, hk.publishedWriter, fun _ => hk.publishedReader rfl⟩, .of_eq rfl rfl⟩
  | readWriter =>
    refine ⟨⟨hk.reader, fun y hy => ?_, hk.publishedWriter, fun _ => hk.publishedReader rfl⟩,
      .of_eq rfl rfl⟩
    cases hy
    exact ho.writer_le_local
  | @storeWriter x =>
    have hle : q.writer.value ≤ x := hk.writer x rfl
    refine ⟨⟨hk.reader, nofun, fun hp => ?_, fun _ => hk.publishedReader rfl⟩, Nat.le_refl _, hle⟩
    have heq : q.writer.value = q.producer.localWriter := hk.publishedWriter hp
    exact Nat.le_antisymm hc.2 (heq ▸ hle)
  | readWriterAgain | markWriter =>
    exact ⟨⟨hk.reader, nofun, hk.publishedWriter, fun _ => hk.publishedReader rfl⟩, .of_eq rfl rfl⟩
  | _ => exact ⟨⟨hk.reader, nofun, hk.publishedWriter, nofun⟩, .of_eq rfl rfl⟩

/-- **The step lemma.** -/
theorem Move.kept {s s' : State α Nat} {a : Act α} (hm : Move PublishBatch s a s' e) (hi : Inv s)
    (hk : Kept s) (hr : unraced s a = true) : Kept s' ∧ Grows s.q s'.q := by
  have ho := hi.ordered
  cases hm with
  | push => exact ⟨⟨nofun, hk.writer, nofun, hk.publishedReader⟩, .of_eq rfl rfl⟩
  | producerFlush => exact ⟨⟨nofun, hk.writer, nofun, hk.publishedReader⟩, .of_eq rfl rfl⟩
  | producer hm => exact hm.kept ho hi.producer hk hr
  | pop => exact ⟨⟨hk.reader, nofun, hk.publishedWriter, nofun⟩, .of_eq rfl rfl⟩
  | consumerFlush => exact ⟨⟨hk.reader, nofun, hk.publishedWriter, nofun⟩, .of_eq rfl rfl⟩
  | consumer hm => exact hm.kept ho hi.consumer hk hr
  | flush =>
    exact ⟨⟨nofun, nofun, fun _ => rfl, fun _ => rfl⟩, ho.reader_le_local, ho.writer_le_local⟩
  | size => exact ⟨hk, .of_eq rfl rfl⟩
  | empty => exact ⟨hk, .of_eq rfl rfl⟩

variable {ok : State α Nat → Act α → Prop} {s₀ s : State α Nat} {es : List (Event α Nat)}

/-- **The run lemma.** -/
theorem reach_kept (h : (spsc PublishBatch).Reach ok s₀ s es) (hi : Inv s₀) (hk : Kept s₀)
    (hok : ∀ s a, Inv s → ok s a → unraced s a = true) : Kept s ∧ Grows s₀.q s.q := by
  induction h with
  | refl => exact ⟨hk, .of_eq rfl rfl⟩
  | tail a hr ha hst ih =>
    have hi' := reach_inv hr hi
    obtain ⟨hk', hg⟩ := (step_move hst).kept hi' ih.1 (hok _ _ hi' ha)
    exact ⟨hk', ih.2.trans hg⟩

theorem start_kept (q : SPSC α Nat) : Kept (State.start q) := ⟨nofun, nofun, nofun, nofun⟩

/-- The condition means the same over 64 bits: the two values are at most `capacity` apart. -/
theorem unraced_wrap {t : State α Nat} (hn : Near t) (a : Act α) :
    unraced t.wrap a = unraced t a := by
  obtain ⟨q, p, c⟩ := t
  obtain ⟨⟨-, ho, hp, hc⟩, hcap, -, -⟩ := hn
  have hl : q.consumer.localReader ≤ q.producer.localWriter ∧
    q.producer.localWriter ≤ q.consumer.localReader + q.capacity := ho.local_le
  have hr : q.consumer.localReader ≤ q.consumer.cachedWriter := ho.reader_le
  have hw : q.producer.localWriter ≤ q.producer.cachedReader + q.capacity := ho.writer_le
  have hcap : q.capacity < 2 ^ 64 := hcap
  have heq : ∀ {x y : Nat}, y ≤ x → x - y < 2 ^ 64 → decide (wrap x = wrap y) = decide (x = y) := by
    intro x y hle hlt
    rw [decide_eq_decide, eq_comm, @eq_comm _ x]
    exact Counter.ofNat_eq_iff hle hlt
  cases a with
  | producer k =>
    cases p with
    | publishWriter r x =>
      cases c with
      | publishWriter y =>
        cases x <;> cases y <;> try rfl
        rename_i x y
        have hx : x = q.producer.localWriter := hp
        have hy : q.consumer.cachedWriter ≤ y ∧ y ≤ q.producer.localWriter := hc
        exact heq (hx ▸ hy.2) (by omega)
      | _ => cases x <;> rfl
    | _ => rfl
  | consumer k =>
    cases c with
    | publishReader r x =>
      cases p with
      | publishReader y =>
        cases y <;> cases x <;> try rfl
        rename_i y x
        have hx : x = q.consumer.localReader := hc
        have hy : q.producer.cachedReader ≤ y ∧ y ≤ q.consumer.localReader := hp
        exact heq (hx ▸ hy.2) (by omega)
      | _ => cases x <;> rfl
    | _ => cases p <;> first | rfl | (rename_i y; cases y <;> rfl)
  | _ => rfl

/-! ## The condition is exact -/

/-- A `flush` has read the consumer's counter, and has not stored it. -/
def ProducerPc.storing {κ : Type} : ProducerPc α κ → Bool
  | .publishReader (.store _) => true
  | _ => false

/-- A `flush` has read the producer's counter, and has not stored it. -/
def ConsumerPc.storing {κ : Type} : ConsumerPc α κ → Bool
  | .publishWriter (.store _) => true
  | _ => false

theorem ProducerPc.storing_wrap (p : ProducerPc α Nat) : p.wrap.storing = p.storing := by
  cases p with
  | publishReader x => cases x <;> rfl
  | _ => rfl

theorem ConsumerPc.storing_wrap (c : ConsumerPc α Nat) : c.wrap.storing = c.storing := by
  cases c with
  | publishWriter x => cases x <;> rfl
  | _ => rfl

/-- A `flush` is going to store less than what is shared. -/
def Behind (s : State α Nat) : Prop :=
  (∃ y, s.producer = .publishReader (.store y) ∧ y < s.q.reader.value) ∨
    ∃ y, s.consumer = .publishWriter (.store y) ∧ y < s.q.writer.value

theorem Behind.storing {s : State α Nat} (h : Behind s) :
    s.producer.storing = true ∨ s.consumer.storing = true := by
  obtain ⟨y, hy, -⟩ | ⟨y, hy, -⟩ := h
  · exact .inl (by rw [hy]; rfl)
  · exact .inr (by rw [hy]; rfl)

/-- After a step that breaks the condition the `flush` of the other party is behind. -/
theorem raced_behind {s s' : State α Nat} {a : Act α} (hi : Inv s) (hr : unraced s a = false)
    (hst : (spsc PublishBatch).step s a = some (s', e)) : Behind s' := by
  obtain ⟨q, p, c⟩ := s
  obtain ⟨-, -, hp, hc⟩ := hi
  unfold unraced at hr
  split at hr
  · rename_i k p c _ r x y hpc hcc
    simp only at hpc hcc
    subst hpc hcc
    cases hst
    have hne : x ≠ y := of_decide_eq_false hr
    have hx : x = q.producer.localWriter := hp
    have hy : q.consumer.cachedWriter ≤ y ∧ y ≤ q.producer.localWriter := hc
    exact .inr ⟨y, rfl, show y < x by omega⟩
  · rename_i k p c _ y r x hpc hcc
    simp only at hpc hcc
    subst hpc hcc
    cases hst
    have hne : x ≠ y := of_decide_eq_false hr
    have hx : x = q.consumer.localReader := hc
    have hy : q.producer.cachedReader ≤ y ∧ y ≤ q.consumer.localReader := hp
    exact .inl ⟨y, rfl, show y < x by omega⟩
  · cases hr

/-- It stays behind, or lowers the counter by its store. -/
theorem Move.behind {s s' : State α Nat} {a : Act α} (hm : Move PublishBatch s a s' e)
    (h : Behind s) (hg : Grows s.q s'.q) : Behind s' := by
  obtain ⟨y, hp, hlt⟩ | ⟨y, hc, hlt⟩ := h
  · have hlt' := Nat.lt_of_lt_of_le hlt hg.reader
    cases hm with
    | producer hm =>
      cases hp
      cases hm
      exact absurd hlt' (Nat.lt_irrefl y)
    | push | producerFlush | flush => cases hp
    | _ => exact .inl ⟨y, hp, hlt'⟩
  · have hlt' := Nat.lt_of_lt_of_le hlt hg.writer
    cases hm with
    | consumer hm =>
      cases hc
      cases hm
      exact absurd hlt' (Nat.lt_irrefl y)
    | pop | consumerFlush | flush => cases hc
    | _ => exact .inr ⟨y, hc, hlt'⟩

/-- The step lowers no shared counter. -/
def Rising (PublishBatch : Nat) (s : State α Nat) (a : Act α) : Prop :=
  ∀ p ∈ (spsc PublishBatch).step s a, Grows s.q p.1.q

/-- A run that lowers no counter leaves a `flush` behind that was so at its start. -/
theorem Behind.run {t t' : State α Nat} {et : List (Event α Nat)} {sched : List (Act α)}
    (hb : Behind t) (h : (spsc PublishBatch).run t sched = some (t', et))
    (hok : (spsc PublishBatch).Along (Rising PublishBatch) t sched) : Behind t' :=
  (Machine.Reach.of_along hok h).invariant (P := fun s _ => Behind s) hb
    fun _ _ _ _ _ hb ha hst => (step_move hst).behind hb (ha _ hst)

/-- In a run after which no `flush` is between its read and its store, no step lowers a counter if
and only if no step is a race. -/
theorem along_unraced_iff {t t' : State α Nat} {et : List (Event α Nat)} {sched : List (Act α)}
    (hi : Inv t) (hk : Kept t) (h : (spsc PublishBatch).run t sched = some (t', et))
    (hp : t'.producer.storing = false) (hc : t'.consumer.storing = false) :
    (spsc PublishBatch).Along (fun s a => unraced s a = true) t sched ↔
      (spsc PublishBatch).Along (Rising PublishBatch) t sched := by
  induction sched generalizing t et with
  | nil => exact Iff.rfl
  | cons a sched ih =>
    obtain ⟨⟨t₁, e₁⟩, hst, h⟩ := Option.bind_eq_some_iff.mp h
    obtain ⟨⟨t₂, e₂⟩, hrun, h⟩ := Option.map_eq_some_iff.mp h
    cases h
    rw [Machine.along_cons hst, Machine.along_cons hst]
    cases hr : unraced t a with
    | true =>
      obtain ⟨hk₁, hg⟩ := (step_move hst).kept hi hk hr
      have hrising : Rising PublishBatch t a := by
        intro p hst'
        cases hst.symm.trans hst'
        exact hg
      rw [ih ((step_move hst).inv hi) hk₁ hrun]
      exact ⟨fun h => ⟨hrising, h.2⟩, fun h => ⟨rfl, h.2⟩⟩
    | false =>
      refine iff_of_false (fun h => nomatch h.1) fun h => ?_
      rcases ((raced_behind hi hr hst).run hrun h.2).storing with hs | hs
      · rw [hp] at hs
        cases hs
      · rw [hc] at hs
        cases hs

section Runs

variable {capacity PublishBatch : BitVec 64} {memory : BitVec 64 → α} {q : SPSC α (BitVec 64)}
  {sched more : List (Act α)} {s s' : State α (BitVec 64)} {es es' : List (Event α (BitVec 64))}

/-- **Published values stay, without a race.** In a run in which no party publishes a newer value of
its counter while the other party's `flush` is between its read and its store of that counter, the
shared counters, read as unbounded numbers, never go back, and after a `flush` or a failed call the
party's shared counter is its local one until its next call. -/
theorem publications_kept (hq : SPSC.new capacity memory = .ok q)
    (h : (spsc PublishBatch).run (State.start q) sched = some (s, es))
    (h' : (spsc PublishBatch).run s more = some (s', es'))
    (hok : (spsc PublishBatch).Along (fun s a => unraced s a = true) (State.start q)
      (sched ++ more)) :
    (∃ t et t' et', Unbounded capacity PublishBatch memory sched s es t et ∧
      Unbounded capacity PublishBatch memory (sched ++ more) s' (es ++ es') t' et' ∧
      t.q.reader.value ≤ t'.q.reader.value ∧ t.q.writer.value ≤ t'.q.writer.value) ∧
      (s'.producer = .idle (some .flush) ∨ s'.producer = .idle (some (.push false)) →
        s'.q.writer.value = s'.q.producer.localWriter) ∧
      (s'.consumer = .idle (some .flush) ∨ s'.consumer = .idle (some (.pop none)) →
        s'.q.reader.value = s'.q.consumer.localReader) := by
  obtain ⟨hok, hok'⟩ := (Machine.along_append h).mp hok
  obtain ⟨q₀, t, et, hu, hn, hnew, hr, -⟩ := exists_unbounded_along hq h hok
  obtain ⟨t', et', hu', -, hn', hr'⟩ := hu.extend hn h' hok'
  have hun : ∀ (s : State α Nat) (a : Act α),
      (Near s ∧ unraced s.wrap a = true) → unraced s a = true :=
    fun s a ha => unraced_wrap ha.1 a ▸ ha.2
  obtain ⟨hk, -⟩ := reach_kept hr (new_inv hnew) (start_kept _) fun s a _ => hun s a
  obtain ⟨hk', hg⟩ := reach_kept hr' hn.inv hk fun s a _ => hun s a
  refine ⟨⟨t, et, t', _, hu, hu', hg.reader, hg.writer⟩, fun hp => ?_, fun hc => ?_⟩
  · have hpub : s'.producer.publishedWriter = true := by rcases hp with hp | hp <;> rw [hp] <;> rfl
    rw [hu'.state] at hpub ⊢
    exact congrArg wrap (hk'.publishedWriter (t'.producer.publishedWriter_wrap ▸ hpub))
  · have hpub : s'.consumer.publishedReader = true := by rcases hc with hc | hc <;> rw [hc] <;> rfl
    rw [hu'.state] at hpub ⊢
    exact congrArg wrap (hk'.publishedReader (t'.consumer.publishedReader_wrap ▸ hpub))

/-- A push and a pop, and a `flush` after each of them. -/
theorem publications_kept_two :
    ∃ (s s' : State Bool (BitVec 64)) (es es' : List (Event Bool (BitVec 64))),
      popResults (es ++ es') = [some true] ∧
      s'.q.writer.value = 1 ∧ s'.q.writer.value = s'.q.producer.localWriter ∧
      s'.q.reader.value = 1 ∧ s'.q.reader.value = s'.q.consumer.localReader ∧
      ∃ t et t' et', Unbounded 2 8 (fun _ => false)
          (.push true :: List.replicate 4 (.producer 0) ++ .producerFlush ::
            List.replicate 8 (.producer 0)) s es t et ∧
        Unbounded 2 8 (fun _ => false)
          (.push true :: List.replicate 4 (.producer 0) ++ .producerFlush ::
            List.replicate 8 (.producer 0) ++ .pop :: List.replicate 6 (.consumer 0) ++
            .consumerFlush :: List.replicate 8 (.consumer 0)) s' (es ++ es') t' et' ∧
        t.q.reader.value ≤ t'.q.reader.value ∧ t.q.writer.value ≤ t'.q.writer.value := by
  have h := @publications_kept Bool 2 8 (fun _ => false) _
    (.push true :: List.replicate 4 (.producer 0) ++ .producerFlush ::
      List.replicate 8 (.producer 0))
    (.pop :: List.replicate 6 (.consumer 0) ++ .consumerFlush :: List.replicate 8 (.consumer 0))
    _ _ _ _ rfl rfl rfl (by decide)
  exact ⟨_, _, _, _, rfl, rfl, h.2.1 (.inl rfl), rfl, h.2.2 (.inl rfl), h.1⟩

/-- **A publication is taken back.** The consumer's `flush` reads `localWriter_`, the producer
pushes and flushes, and the consumer's `flush` stores what it read: `writer_` goes back from 1 to 0,
and the element that the producer's `flush` made visible is not visible any more. -/
theorem publication_taken_back :
    SPSC.new (2 : BitVec 64) (fun _ => false) = .ok (SPSC.fresh 2 fun _ => false) ∧
      ∃ (s s' : State Bool (BitVec 64)) (es : List (Event Bool (BitVec 64))),
        (spsc 8).run (State.start (SPSC.fresh 2 fun _ => false))
          (.consumerFlush :: List.replicate 5 (.consumer 0) ++
            .push true :: List.replicate 4 (.producer 0) ++
            .producerFlush :: List.replicate 8 (.producer 0)) = some (s, es) ∧
        (spsc 8).step s (.consumer 0) = some (s', [.storeWriter 0]) ∧
        s.q.writer.value = 1 ∧ s'.q.writer.value = 0 ∧
        s'.producer = .idle (some .flush) ∧ s'.q.producer.localWriter = 1 :=
  ⟨rfl, _, _, _, rfl, rfl, rfl, rfl, rfl, rfl⟩

/-- **The condition is exact.** In a run after which no `flush` is between its read of the other
party's counter and its store of it, no step is a race if and only if no step lowers a shared
counter (read as an unbounded number). -/
theorem unraced_iff_rising {q₀ : SPSC α Nat} (hq : SPSC.new capacity memory = .ok q)
    (hq₀ : SPSC.new capacity.toNat (fun i => memory (wrap i)) = .ok q₀)
    (h : (spsc PublishBatch).run (State.start q) sched = some (s, es))
    (hp : s.producer.storing = false) (hc : s.consumer.storing = false) :
    (spsc PublishBatch).Along (fun s a => unraced s a = true) (State.start q) sched ↔
      (spsc PublishBatch.toNat).Along (Rising PublishBatch.toNat) (State.start q₀) sched := by
  obtain ⟨q₁, hnew, hstart, -, hn⟩ := new_unwrap hq
  obtain rfl : q₁ = q₀ := Except.ok.inj (hnew.symm.trans hq₀)
  rw [hstart] at h ⊢
  have hall : (spsc PublishBatch).Along (fun _ _ => True) (State.start q₁).wrap sched :=
    .of_forall fun _ _ _ => trivial
  obtain ⟨t, et, hrun, rfl, -⟩ := run_unwrap hn h hall
  rw [along_wrap (fun s a hs => by rw [unraced_wrap hs]) hn]
  refine along_unraced_iff (new_inv hq₀) (start_kept _) hrun ?_ ?_
  · rwa [← ProducerPc.storing_wrap]
  · rwa [← ConsumerPc.storing_wrap]

end Runs

end FastQ
