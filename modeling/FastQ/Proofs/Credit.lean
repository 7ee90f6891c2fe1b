import FastQ.Proofs.Exclusion
import FastQ.Proofs.Progress

/-!
# What a `flush` guarantees

A `flush` while no other call is in progress publishes both local counters: `w₀` elements accepted,
`r₀` popped. From then on the shared counters only grow, so a party that loads the newest value gets
at least these. A push fails only when `localWriter` is `capacity` ahead of the value it loaded, so
not before `r₀ + capacity - w₀` pushes went through; a pop fails only when `localReader` has reached
the value it loaded, so not before `w₀ - r₀` pops did. Neither bound depends on what the other party
does.

* `PushCredit`, `PopCredit`: the invariant of one party since the `flush`, kept by its own moves and
  stable under the other's.
* `flush_credit`: the guarantee, for every later interleaving.
-/

namespace FastQ

variable {α : Type}

/-! ## The invariant of each party -/

/-- The producer since a `flush` at `w₀` and `r₀`, with the results `rs` of its pushes. -/
structure PushCredit (w₀ r₀ : Nat) (q : SPSC α Nat) (p : ProducerPc α Nat) (rs : List Bool) :
    Prop where
  count : q.producer.localWriter = w₀ + rs.count true + if p.advanced then 1 else 0
  granted : ∀ b ∈ rs.take (r₀ + q.capacity - w₀), b = true
  recheck : ∀ data, p = .fullRecheck data → r₀ ≤ q.producer.cachedReader
  refused : ∀ x, p = .publishWriter (.push false) x → r₀ + q.capacity ≤ q.producer.localWriter

/-- The consumer since a `flush` at `w₀` and `r₀`, with the results `rs` of its pops. -/
structure PopCredit (w₀ r₀ : Nat) (q : SPSC α Nat) (c : ConsumerPc α Nat) (rs : List (Option α)) :
    Prop where
  count : q.consumer.localReader = r₀ + rs.countP Option.isSome + if c.advanced then 1 else 0
  granted : ∀ r ∈ rs.take (w₀ - r₀), r.isSome = true
  recheck : c = .emptyRecheck → w₀ ≤ q.consumer.cachedWriter
  refused : ∀ x, c = .publishReader (.pop none) x → w₀ ≤ q.consumer.localReader

/-- A list whose first `k` elements satisfy `P` goes on so if the next one does, or is too late. -/
theorem forall_mem_take_concat {β : Type} {P : β → Prop} {l : List β} {x : β} {k : Nat}
    (h : ∀ b ∈ l.take k, P b) (hx : l.length < k → P x) : ∀ b ∈ (l ++ [x]).take k, P b := by
  intro b hb
  rw [List.take_append] at hb
  rcases List.mem_append.mp hb with hb | hb
  · exact h b hb
  · have hlt : l.length < k := by
      by_contra hge
      rw [Nat.sub_eq_zero_of_le (Nat.le_of_not_lt hge)] at hb
      cases hb
    rw [List.mem_singleton.mp (List.mem_of_mem_take hb)]
    exact hx hlt

variable {PublishBatch k w₀ r₀ : Nat} {q q' : SPSC α Nat} {e : List (Event α Nat)}

/-- The producer's moves keep its credit. -/
theorem ProducerMove.credit {p p' : ProducerPc α Nat} {rs : List Bool}
    (hm : ProducerMove PublishBatch 0 q p q' p' e) (ho : Ordered q) (hcalm : p.flushing = false)
    (hr : r₀ ≤ q.reader.value) (hc : PushCredit w₀ r₀ q p rs) :
    PushCredit w₀ r₀ q' p' (rs ++ pushResults e) := by
  obtain ⟨hcount, hgranted, hrecheck, hrefused⟩ := hc
  have hkeep : ∀ e' : List (Event α Nat), pushResults e' = [] → rs ++ pushResults e' = rs :=
    fun e' he => by rw [he, List.append_nil]
  have hdone : ∀ {n : Nat}, n = w₀ + rs.count true + 1 → n = w₀ + (rs ++ [true]).count true := by
    intro n hn
    rw [hn, List.count_append]
    rfl
  cases hm with
  | load hl =>
    rw [Atomic.load_zero] at hl
    cases hl
    rw [hkeep _ rfl]
    exact ⟨hcount, hgranted, fun _ _ => hr, nofun⟩
  | @refuse data hf =>
    have hcached := hrecheck data rfl
    have hfull : q.producer.localWriter - q.producer.cachedReader = q.capacity :=
      of_decide_eq_true hf
    have := ho.writer_le
    have := ho.cachedReader_le
    have := ho.reader_le_local
    have := ho.local_le
    rw [hkeep _ rfl]
    exact ⟨hcount, hgranted, nofun, fun _ _ => by omega⟩
  | increment =>
    rw [hkeep _ rfl]
    exact ⟨congrArg (· + 1) hcount, hgranted, nofun, nofun⟩
  | due =>
    rw [hkeep _ rfl]
    exact ⟨hcount, hgranted, nofun, nofun⟩
  | notDue =>
    exact ⟨hdone hcount, forall_mem_take_concat hgranted fun _ => rfl, nofun, nofun⟩
  | @markWriter r =>
    cases r with
    | flush => cases hcalm
    | push ok =>
      cases ok with
      | true => exact ⟨hdone hcount, forall_mem_take_concat hgranted fun _ => rfl, nofun, nofun⟩
      | false =>
        -- `localWriter` is at least `r₀ + capacity`, so that many pushes have gone through.
        have hfull := hrefused _ rfl
        have hcount : q.producer.localWriter = w₀ + rs.count true := hcount
        have hle : rs.count true ≤ rs.length := List.count_le_length
        refine ⟨?_, forall_mem_take_concat hgranted fun hlt => ?_, nofun, nofun⟩
        · show q.producer.localWriter = w₀ + (rs ++ [false]).count true
          rw [List.count_append, hcount]
          rfl
        · have hlt : rs.length < r₀ + q.capacity - w₀ := hlt
          omega
  | readReader | storeReader | readReaderAgain | markReader => cases hcalm
  | readWriter | storeWriter | readWriterAgain =>
    rw [hkeep _ rfl]
    exact ⟨hcount, hgranted, nofun, fun _ hx => hrefused _ (by cases hx; rfl)⟩
  | full | room | roomNow | write =>
    rw [hkeep _ rfl]
    exact ⟨hcount, hgranted, nofun, nofun⟩

/-- The consumer's moves keep its credit. -/
theorem ConsumerMove.credit {c c' : ConsumerPc α Nat} {rs : List (Option α)}
    (hm : ConsumerMove PublishBatch 0 q c q' c' e) (hcalm : c.flushing = false)
    (hw : w₀ ≤ q.writer.value) (hc : PopCredit w₀ r₀ q c rs) :
    PopCredit w₀ r₀ q' c' (rs ++ popResults e) := by
  obtain ⟨hcount, hgranted, hrecheck, hrefused⟩ := hc
  have hkeep : ∀ e' : List (Event α Nat), popResults e' = [] → rs ++ popResults e' = rs :=
    fun e' he => by rw [he, List.append_nil]
  have hdone : ∀ {n : Nat} (data : α), n = r₀ + rs.countP Option.isSome + 1 →
      n = r₀ + (rs ++ [some data]).countP Option.isSome := by
    intro n data hn
    rw [hn, List.countP_append]
    rfl
  cases hm with
  | load hl =>
    rw [Atomic.load_zero] at hl
    cases hl
    rw [hkeep _ rfl]
    exact ⟨hcount, hgranted, fun _ => hw, nofun⟩
  | refuse hf =>
    have hcached := hrecheck rfl
    have hempty : q.consumer.localReader = q.consumer.cachedWriter := of_decide_eq_true hf
    rw [hkeep _ rfl]
    exact ⟨hcount, hgranted, nofun, fun _ _ => by omega⟩
  | increment =>
    rw [hkeep _ rfl]
    exact ⟨congrArg (· + 1) hcount, hgranted, nofun, nofun⟩
  | due =>
    rw [hkeep _ rfl]
    exact ⟨hcount, hgranted, nofun, nofun⟩
  | @notDue data =>
    exact ⟨hdone data hcount, forall_mem_take_concat hgranted fun _ => rfl, nofun, nofun⟩
  | @markReader r =>
    cases r with
    | some data =>
      exact ⟨hdone data hcount, forall_mem_take_concat hgranted fun _ => rfl, nofun, nofun⟩
    | none =>
      -- `localReader` is at least `w₀`, so `w₀ - r₀` pops have gone through.
      have hempty := hrefused _ rfl
      have hcount : q.consumer.localReader = r₀ + rs.countP Option.isSome := hcount
      have hle : rs.countP Option.isSome ≤ rs.length := List.countP_le_length
      refine ⟨?_, forall_mem_take_concat hgranted fun hlt => ?_, nofun, nofun⟩
      · show q.consumer.localReader = r₀ + (rs ++ [none]).countP Option.isSome
        rw [List.countP_append, hcount]
        rfl
      · omega
  | markReaderFlush | readWriter | storeWriter | readWriterAgain | markWriter => cases hcalm
  | readReader | storeReader | readReaderAgain =>
    rw [hkeep _ rfl]
    exact ⟨hcount, hgranted, nofun, fun _ hx => hrefused _ (by cases hx; rfl)⟩
  | drained | element | elementNow | read =>
    rw [hkeep _ rfl]
    exact ⟨hcount, hgranted, nofun, nofun⟩

/-- The producer's credit does not depend on what the consumer does. -/
theorem PushCredit.stable {p : ProducerPc α Nat} {rs : List Bool} (h : PushCredit w₀ r₀ q p rs)
    (hb : ByConsumer q q') : PushCredit w₀ r₀ q' p rs := by
  obtain ⟨hcount, hgranted, hrecheck, hrefused⟩ := h
  constructor
  · rw [hb.localWriter, hcount]
  · rwa [hb.capacity]
  · rwa [hb.cachedReader]
  · rwa [hb.capacity, hb.localWriter]

/-- The consumer's credit does not depend on what the producer does. -/
theorem PopCredit.stable {c : ConsumerPc α Nat} {rs : List (Option α)}
    (h : PopCredit w₀ r₀ q c rs) (hb : ByProducer q q') : PopCredit w₀ r₀ q' c rs := by
  obtain ⟨hcount, hgranted, hrecheck, hrefused⟩ := h
  constructor
  · rw [hb.localReader, hcount]
  · exact hgranted
  · rwa [hb.cachedWriter]
  · rwa [hb.localReader]

/-! ## Every run after the `flush` -/

/-- What holds since a `flush` at `w₀` and `r₀`, with the events `es`. -/
structure Credit (w₀ r₀ : Nat) (s : State α Nat) (es : List (Event α Nat)) : Prop where
  calm : Calm s
  reader : r₀ ≤ s.q.reader.value
  writer : w₀ ≤ s.q.writer.value
  push : PushCredit w₀ r₀ s.q s.producer (pushResults es)
  pop : PopCredit w₀ r₀ s.q s.consumer (popResults es)

theorem ProducerMove.noPopResult {k : Nat} {p p' : ProducerPc α Nat}
    (hm : ProducerMove PublishBatch k q p q' p' e) : popResults e = [] := by
  cases hm <;> rfl

theorem ConsumerMove.noPushResult {k : Nat} {c c' : ConsumerPc α Nat}
    (hm : ConsumerMove PublishBatch k q c q' c' e) : pushResults e = [] := by
  cases hm <;> rfl

/-- The step lemma: a push or a pop that loads the newest values keeps the credit. -/
theorem Move.credit {s s' : State α Nat} {a : Act α} {es : List (Event α Nat)}
    (hm : Move PublishBatch s a s' e) (hi : Inv s) (hk : Kept s)
    (ha : a.pushPop = true ∧ a.newest = true) (hc : Credit w₀ r₀ s es) :
    Credit w₀ r₀ s' (es ++ e) := by
  obtain ⟨-, hg⟩ := hm.kept hi hk (hc.calm.unraced a)
  have hcalm := hm.calm (Act.pushPop_calm ha.1) hc.calm
  have hreader := Nat.le_trans hc.reader hg.reader
  have hwriter := Nat.le_trans hc.writer hg.writer
  obtain ⟨hpush, hpop⟩ := And.intro hc.push hc.pop
  cases hm with
  | push =>
    rw [List.append_nil]
    exact ⟨hcalm, hreader, hwriter, ⟨hpush.count, hpush.granted, nofun, nofun⟩, hpop⟩
  | producer hm =>
    obtain rfl : _ = 0 := beq_iff_eq.mp ha.2
    refine ⟨hcalm, hreader, hwriter, ?_, ?_⟩
    · rw [pushResults_append]
      exact hm.credit hi.ordered hc.calm.producer hc.reader hpush
    · rw [popResults_append, hm.noPopResult, List.append_nil]
      exact hpop.stable (hm.byProducer hi.shape hi.ordered hi.producer)
  | pop =>
    rw [List.append_nil]
    exact ⟨hcalm, hreader, hwriter, hpush, ⟨hpop.count, hpop.granted, nofun, nofun⟩⟩
  | consumer hm =>
    obtain rfl : _ = 0 := beq_iff_eq.mp ha.2
    refine ⟨hcalm, hreader, hwriter, ?_, ?_⟩
    · rw [pushResults_append, hm.noPushResult, List.append_nil]
      exact hpush.stable hm.byConsumer
    · rw [popResults_append]
      exact hm.credit hc.calm.consumer hc.writer hpop
  | producerFlush | consumerFlush | flush | size | empty => cases ha.1

/-- A `flush` establishes the credit. -/
theorem credit_flush (q : SPSC α Nat) (l : Option ProducerResult) (l' : Option (ConsumerResult α)) :
    Credit q.producer.localWriter q.consumer.localReader ⟨q.flush, .idle l, .idle l'⟩ [] where
  calm := ⟨rfl, rfl⟩
  reader := Nat.le_refl _
  writer := Nat.le_refl _
  push := ⟨rfl, by simp [pushResults], nofun, nofun⟩
  pop := ⟨rfl, by simp [popResults], nofun, nofun⟩

/-- The run lemma. -/
theorem reach_credit {ok : State α Nat → Act α → Prop} {s₀ s : State α Nat}
    {es : List (Event α Nat)} (h : (spsc PublishBatch).Reach ok s₀ s es) (hi : Inv s₀)
    (hk : Kept s₀) (hok : ∀ s a, ok s a → a.pushPop = true ∧ a.newest = true)
    (hc : Credit w₀ r₀ s₀ []) : Credit w₀ r₀ s es := by
  suffices Inv s ∧ Kept s ∧ Credit w₀ r₀ s es from this.2.2
  induction h with
  | refl => exact ⟨hi, hk, hc⟩
  | tail a _ ha hst ih =>
    obtain ⟨hi, hk, hc⟩ := ih
    have hm := step_move hst
    exact ⟨hm.inv hi, (hm.kept hi hk (hc.calm.unraced a)).1, hm.credit hi hk (hok _ _ ha) hc⟩

/-- Results that are all elements are the elements in them. -/
theorem map_some_reduceOption {l : List (Option α)} (h : ∀ r ∈ l, r.isSome = true) :
    l.reduceOption.map some = l := by
  induction l with
  | nil => rfl
  | cons r l ih =>
    obtain ⟨data, rfl⟩ := Option.isSome_iff_exists.mp (h r List.mem_cons_self)
    rw [List.reduceOption_cons_of_some, List.map_cons,
      ih fun r hr => h r (List.mem_cons_of_mem _ hr)]

/-- The first `c₀.length` pops after the `flush`, if they all succeed, return the elements `c₀` that
the queue held. -/
theorem first_pops {ok : State α Nat → Act α → Prop} {s₀ s : State α Nat}
    {es : List (Event α Nat)} (h : (spsc PublishBatch).Reach ok s₀ s es) (hi : Inv s₀)
    (h₀ : s₀.consumer.held = [])
    (hsome : ∀ r ∈ (popResults es).take s₀.q.contents.length, r.isSome = true) :
    (popResults es).take s₀.q.contents.length <+: s₀.q.contents.map some := by
  have hcons := (reach_legal h hi).conserve
  have hret := reach_returned h h₀
  rw [enqs_ops, deqs_ops] at hcons
  rw [← map_some_reduceOption hsome]
  refine List.IsPrefix.map some ?_
  have hfirst : ((popResults es).take s₀.q.contents.length).reduceOption <+: popped es := by
    have hsplit := List.reduceOption_append ((popResults es).take s₀.q.contents.length)
      ((popResults es).drop s₀.q.contents.length)
    rw [List.take_append_drop] at hsplit
    rw [hret, hsplit, List.append_assoc]
    exact List.prefix_append _ _
  refine List.prefix_of_prefix_length_le (hfirst.trans (List.prefix_append _ s.q.contents)) ?_ ?_
  · rw [← hcons]
    exact List.prefix_append _ _
  · exact (List.reduceOption_length_le _).trans (List.length_take_le _ _)

/-- After a `flush`, `size` is the number of elements in the queue. -/
theorem size_flush {q : SPSC α Nat} (ho : Ordered q) :
    q.wrap.flush.size = BitVec.ofNat 64 q.contents.length := by
  rw [SPSC.length_contents]
  exact size_wrap ho.flush

/-- After a `flush`, `empty` says whether the queue has no elements. -/
theorem empty_flush {q : SPSC α Nat} (ho : Ordered q) (hlt : q.capacity < 2 ^ 64) :
    q.wrap.flush.empty = q.contents.isEmpty := by
  have hle := ho.local_le
  have he : q.wrap.flush.empty = q.flush.empty := empty_wrap ho.flush hlt
  have hiff : q.producer.localWriter = q.consumer.localReader ↔
      q.producer.localWriter - q.consumer.localReader = 0 := by omega
  rw [he, Bool.eq_iff_iff, List.isEmpty_iff_length_eq_zero, SPSC.length_contents, ← hiff]
  exact decide_eq_true_iff

section Runs

variable {capacity PublishBatch : BitVec 64} {memory : BitVec 64 → α} {q : SPSC α (BitVec 64)}
  {sched more : List (Act α)} {s s' : State α (BitVec 64)} {es es' : List (Event α (BitVec 64))}
  {elems : List α}

/-- **Flush credit.** A `flush` in any reachable state where no party is inside a call, with the
elements `elems` accepted and not popped: right after it `size()` is their number and `empty()` says
whether there are none. From then on, whatever pushes and pops follow and however they interleave,
the producer's first `capacity - elems.length` pushes succeed, and the consumer's first
`elems.length` pops return `elems` in order. -/
theorem flush_credit (hq : SPSC.new capacity memory = .ok q)
    (h : (spsc PublishBatch).run (State.start q) sched = some (s, es)) (hquiet : s.quiet = true)
    (helems : accepted es = popped es ++ elems)
    (h' : (spsc PublishBatch).run s (.flush :: more) = some (s', es'))
    (hmore : ∀ a ∈ more, a.pushPop = true ∧ a.newest = true) :
    (∃ e₁ e₂, (spsc PublishBatch).run s [.flush, .size, .empty] =
      some ({ s with q := s.q.flush },
        [e₁, e₂, .sizeReturn (BitVec.ofNat 64 elems.length), .emptyReturn elems.isEmpty])) ∧
    elems.length ≤ capacity.toNat ∧
    (∀ b ∈ (pushResults es').take (capacity.toNat - elems.length), b = true) ∧
    (popResults es').take elems.length <+: elems.map some := by
  obtain ⟨t, et, hu, hn, hcap, hleg, ha, hp⟩ := exists_legal hq h
  obtain rfl := hu.state
  -- The queue holds `elems`.
  have hdrop := hleg.prefix_of_nil.2
  rw [enqs_ops, deqs_ops, ha, hp, helems, List.drop_left, slots_wrap hn] at hdrop
  obtain ⟨l, l', hpc, hcc⟩ := State.quiet_iff.mp (quiet_wrap t ▸ hquiet)
  obtain ⟨q₀, p, c⟩ := t
  obtain rfl : p = _ := hpc
  obtain rfl : c = _ := hcc
  have hlen : elems.length = q₀.producer.localWriter - q₀.consumer.localReader := by
    rw [hdrop, SPSC.length_contents]
  have hcap : q₀.capacity = capacity.toNat := hcap
  have ho : Ordered q₀ := hn.inv.ordered
  have hl := ho.local_le
  refine ⟨?_, by omega, ?_⟩
  · have hsize : q₀.wrap.flush.size = BitVec.ofNat 64 elems.length := by
      rw [size_flush ho, hdrop]
    have hempty : q₀.wrap.flush.empty = elems.isEmpty := by
      rw [empty_flush ho hn.capacity_lt, hdrop]
    rw [← hsize, ← hempty]
    exact ⟨_, _, rfl⟩
  · -- The run goes on from the state right after the `flush`, which has the credit.
    have hstep : (spsc PublishBatch).step (State.wrap ⟨q₀, .idle l, .idle l'⟩) .flush =
        some (State.wrap ⟨q₀.flush, .idle l, .idle l'⟩, [.storeReader q₀.wrap.consumer.localReader,
          .storeWriter q₀.wrap.producer.localWriter]) := rfl
    have hn₁ : Near ⟨q₀.flush, .idle l, .idle l'⟩ :=
      step_near PublishBatch.isLt hn
        (show (spsc PublishBatch.toNat).step _ .flush = some (_, _) from rfl)
    rw [Machine.run_cons, hstep] at h'
    obtain ⟨⟨s₂, es₂⟩, hrun₂, hes⟩ := Option.map_eq_some_iff.mp h'
    cases hes
    have hok : (spsc PublishBatch).Along (fun _ a => a.pushPop = true ∧ a.newest = true)
        (State.wrap ⟨q₀.flush, .idle l, .idle l'⟩) more := .of_forall fun a ha _ => hmore a ha
    obtain ⟨t', et', -, -, rfl, -, hr⟩ := run_unwrap hn₁ hrun₂ hok
    have hc := reach_credit hr hn₁.inv ⟨nofun, nofun, fun _ => rfl, fun _ => rfl⟩
      (fun _ _ ha => ha.2) (credit_flush q₀ l l')
    have hcap' : t'.q.capacity = capacity.toNat := (reach_capacity hr).trans hcap
    have hpush := hc.push.granted
    have hpop := hc.pop.granted
    have helems₀ : q₀.flush.contents = elems := hdrop.symm
    have hfirst := first_pops hr hn₁.inv rfl
    rw [pushResults_append, popResults_append, pushResults_wrap, popResults_wrap]
    simp only [helems₀] at hfirst
    have hgranted : capacity.toNat - elems.length =
        q₀.consumer.localReader + t'.q.capacity - q₀.producer.localWriter := by omega
    exact ⟨hgranted ▸ hpush, hfirst (hlen ▸ hpop)⟩

/-- A ring of two slots with a batch that is never full: after the `flush`, the pop returns the
element although the producer's two pushes after it are not published, and the first of the two
pushes succeeds. -/
theorem flush_credit_two : ∃ es' : List (Event Bool (BitVec 64)),
    pushResults es' = [true, false] ∧ popResults es' = [some true] ∧
      (∀ b ∈ (pushResults es').take 1, b = true) ∧ (popResults es').take 1 <+: [some true] := by
  have h := @flush_credit Bool 2 8 (fun _ => false) _
    (.push true :: List.replicate 4 (.producer 0))
    (.push false :: List.replicate 4 (.producer 0) ++
      .push false :: List.replicate 7 (.producer 0) ++
      .pop :: List.replicate 6 (.consumer 0)) _ _ _ _ [true] rfl rfl rfl rfl rfl (by decide)
  exact ⟨_, rfl, rfl, h.2.2.1, h.2.2.2⟩

end Runs

end FastQ
