import FastQ.Proofs.Delivery
import FastQ.Proofs.Threads

/-!
# The calls are wait-free

A call returns after a bounded number of its own accesses, whatever the other thread does, and also
if it stops for ever in the middle of a call: no access waits for the other thread.

* `ProducerPc.left`, `ConsumerPc.left`: the accesses that the call still needs, at most. Each access
  of the party lowers the number, and the other party's accesses leave it.
* `wait_free`: a push or a pop is at most 10 accesses, a `flush` at most 8.
-/

namespace FastQ

variable {α κ : Type}

/-- The accesses left in a run of `publish_writer` or `publish_reader`. -/
def Publish.left : Publish κ → Nat
  | .read => 4
  | .store _ => 3
  | .readAgain => 2
  | .mark _ => 1

/-- The accesses left in the producer's call, at most. -/
def ProducerPc.left : ProducerPc α κ → Nat
  | .idle _ => 0
  | .fullCheck _ => 10
  | .loadReader _ => 9
  | .fullRecheck _ => 8
  | .writeSlot _ => 7
  | .increment _ => 6
  | .batchCheck => 5
  | .publishReader p => 4 + p.left
  | .publishWriter _ p => p.left

/-- The accesses left in the consumer's call, at most. -/
def ConsumerPc.left : ConsumerPc α κ → Nat
  | .idle _ => 0
  | .emptyCheck => 10
  | .loadWriter => 9
  | .emptyRecheck => 8
  | .readSlot => 7
  | .increment _ => 6
  | .batchCheck _ => 5
  | .publishReader .flush p => 4 + p.left
  | .publishReader (.pop _) p => p.left
  | .publishWriter p => p.left

/-- An access of the producer's call. -/
def Act.producerAccess : Act α → Bool
  | .producer _ => true
  | _ => false

/-- An access of the consumer's call. -/
def Act.consumerAccess : Act α → Bool
  | .consumer _ => true
  | _ => false

theorem ProducerPc.left_le (p : ProducerPc α κ) : p.left ≤ 10 := by
  cases p with
  | publishReader x | publishWriter _ x => cases x <;> simp [left, Publish.left]
  | _ => simp [left]

theorem ConsumerPc.left_le (c : ConsumerPc α κ) : c.left ≤ 10 := by
  cases c with
  | publishReader r x => cases r <;> cases x <;> simp [left, Publish.left]
  | publishWriter x => cases x <;> simp [left, Publish.left]
  | _ => simp [left]

/-- A party with no access left is between its calls. -/
theorem ProducerPc.idle_of_left {p : ProducerPc α κ} (h : p.left = 0) : ∃ l, p = .idle l := by
  cases p with
  | idle l => exact ⟨l, rfl⟩
  | publishReader x => simp [left] at h
  | publishWriter r x => cases x <;> cases h
  | _ => cases h

theorem ConsumerPc.idle_of_left {c : ConsumerPc α κ} (h : c.left = 0) : ∃ l, c = .idle l := by
  cases c with
  | idle l => exact ⟨l, rfl⟩
  | publishReader r x => cases r <;> cases x <;> simp [left, Publish.left] at h
  | publishWriter x => cases x <;> cases h
  | _ => cases h

section Moves

variable [OfNat κ 1] [Add κ] [Sub κ] [AndOp κ] [LE κ] [DecidableEq κ] [DecidableLE κ]
  {PublishBatch : κ} {k : Nat} {q q' : SPSC α κ} {e : List (Event α κ)} {s s' : State α κ}
  {a : Act α}

/-- An access of the producer lowers what is left, and ends the call only with its return. -/
theorem ProducerMove.left {p p' : ProducerPc α κ} (hm : ProducerMove PublishBatch k q p q' p' e) :
    p'.left < p.left ∧ ((∃ r, .producerReturn r ∈ e) ∨ ∀ l, p' ≠ .idle l) := by
  cases hm with
  | notDue | markWriter =>
    exact ⟨by simp [ProducerPc.left, Publish.left], .inl ⟨_, List.mem_singleton_self _⟩⟩
  | _ => exact ⟨by simp [ProducerPc.left, Publish.left], .inr nofun⟩

/-- An access of the consumer lowers what is left, and ends the call only with its return. -/
theorem ConsumerMove.left {c c' : ConsumerPc α κ} (hm : ConsumerMove PublishBatch k q c q' c' e) :
    c'.left < c.left ∧ ((∃ r, .consumerReturn r ∈ e) ∨ ∀ l, c' ≠ .idle l) := by
  cases hm with
  | notDue | markReader | markWriter =>
    exact ⟨by simp [ConsumerPc.left, Publish.left], .inl ⟨_, List.mem_singleton_self _⟩⟩
  | @readReader r | @storeReader r | @readReaderAgain r =>
    exact ⟨by cases r <;> simp [ConsumerPc.left, Publish.left], .inr nofun⟩
  | _ => exact ⟨by simp [ConsumerPc.left, Publish.left], .inr nofun⟩

/-- The step lemma: inside a call of the producer, an access of it lowers what is left and another
step leaves it; without a return the call goes on. -/
theorem Move.producer_left (hm : Move PublishBatch s a s' e) (hin : ∀ l, s.producer ≠ .idle l) :
    s'.producer.left + (if a.producerAccess then 1 else 0) ≤ s.producer.left ∧
      ((∃ r, .producerReturn r ∈ e) ∨ ∀ l, s'.producer ≠ .idle l) := by
  cases hm with
  | push | producerFlush | flush | size | empty => exact (hin _ rfl).elim
  | producer hm => exact hm.left
  | _ => exact ⟨Nat.le_refl _, .inr hin⟩

theorem Move.consumer_left (hm : Move PublishBatch s a s' e) (hin : ∀ l, s.consumer ≠ .idle l) :
    s'.consumer.left + (if a.consumerAccess then 1 else 0) ≤ s.consumer.left ∧
      ((∃ r, .consumerReturn r ∈ e) ∨ ∀ l, s'.consumer ≠ .idle l) := by
  cases hm with
  | pop | consumerFlush | flush | size | empty => exact (hin _ rfl).elim
  | consumer hm => exact hm.left
  | _ => exact ⟨Nat.le_refl _, .inr hin⟩

/-- The run lemma: until the call returns, its accesses are paid for by what is left. -/
theorem run_producer_left {sched : List (Act α)} {es : List (Event α κ)}
    (h : (spsc PublishBatch).run s sched = some (s', es)) (hin : ∀ l, s.producer ≠ .idle l) :
    (∃ r, .producerReturn r ∈ es) ∨ ((∀ l, s'.producer ≠ .idle l) ∧
      s'.producer.left + sched.countP Act.producerAccess ≤ s.producer.left) := by
  induction sched generalizing s es with
  | nil =>
    cases h
    exact .inr ⟨hin, Nat.le_refl _⟩
  | cons a sched ih =>
    rw [Machine.run_cons] at h
    obtain ⟨⟨s₁, e⟩, hst, h⟩ := Option.bind_eq_some_iff.mp h
    obtain ⟨⟨s₂, es₂⟩, hrun, h⟩ := Option.map_eq_some_iff.mp h
    cases h
    obtain ⟨hle, ⟨r, hr⟩ | hin₁⟩ := (step_move hst).producer_left hin
    · exact .inl ⟨r, List.mem_append_left _ hr⟩
    · refine (ih hrun hin₁).imp (fun ⟨r, hr⟩ => ⟨r, List.mem_append_right _ hr⟩) ?_
      rintro ⟨hin', hle'⟩
      refine ⟨hin', ?_⟩
      rw [List.countP_cons]
      omega

theorem run_consumer_left {sched : List (Act α)} {es : List (Event α κ)}
    (h : (spsc PublishBatch).run s sched = some (s', es)) (hin : ∀ l, s.consumer ≠ .idle l) :
    (∃ r, .consumerReturn r ∈ es) ∨ ((∀ l, s'.consumer ≠ .idle l) ∧
      s'.consumer.left + sched.countP Act.consumerAccess ≤ s.consumer.left) := by
  induction sched generalizing s es with
  | nil =>
    cases h
    exact .inr ⟨hin, Nat.le_refl _⟩
  | cons a sched ih =>
    rw [Machine.run_cons] at h
    obtain ⟨⟨s₁, e⟩, hst, h⟩ := Option.bind_eq_some_iff.mp h
    obtain ⟨⟨s₂, es₂⟩, hrun, h⟩ := Option.map_eq_some_iff.mp h
    cases h
    obtain ⟨hle, ⟨r, hr⟩ | hin₁⟩ := (step_move hst).consumer_left hin
    · exact .inl ⟨r, List.mem_append_left _ hr⟩
    · refine (ih hrun hin₁).imp (fun ⟨r, hr⟩ => ⟨r, List.mem_append_right _ hr⟩) ?_
      rintro ⟨hin', hle'⟩
      refine ⟨hin', ?_⟩
      rw [List.countP_cons]
      omega

variable (PublishBatch s) in
/-- **The calls are wait-free.** From any state, reachable or not: a thread inside a call can make
its next access, and in every run in which it makes as many accesses as are left, at most 10, the
call returns, whatever the other thread does in between. A push or a pop starts with 10 accesses
left, a `flush` with 8. -/
theorem wait_free :
    ((∀ l, s.producer ≠ .idle l) → s.producer.left ≤ 10 ∧
      (spsc PublishBatch).step s (.producer 0) ≠ none ∧
      ∀ sched s' es, (spsc PublishBatch).run s sched = some (s', es) →
        s.producer.left ≤ sched.countP Act.producerAccess → ∃ r, .producerReturn r ∈ es) ∧
    ((∀ l, s.consumer ≠ .idle l) → s.consumer.left ≤ 10 ∧
      (spsc PublishBatch).step s (.consumer 0) ≠ none ∧
      ∀ sched s' es, (spsc PublishBatch).run s sched = some (s', es) →
        s.consumer.left ≤ sched.countP Act.consumerAccess → ∃ r, .consumerReturn r ∈ es) ∧
    ∀ a s₁ e, (spsc PublishBatch).step s a = some (s₁, e) → match a with
      | .push _ => s₁.producer.left = 10
      | .pop => s₁.consumer.left = 10
      | .producerFlush => s₁.producer.left = 8
      | .consumerFlush => s₁.consumer.left = 8
      | _ => True := by
  refine ⟨fun hin => ⟨s.producer.left_le, producer_enabled _ hin, fun sched s' es hrun hle => ?_⟩,
    fun hin => ⟨s.consumer.left_le, consumer_enabled _ hin, fun sched s' es hrun hle => ?_⟩,
    fun a s₁ e hst => ?_⟩
  · refine (run_producer_left hrun hin).resolve_right ?_
    rintro ⟨hin', hleft⟩
    obtain ⟨l, hl⟩ := ProducerPc.idle_of_left (show s'.producer.left = 0 by omega)
    exact hin' l hl
  · refine (run_consumer_left hrun hin).resolve_right ?_
    rintro ⟨hin', hleft⟩
    obtain ⟨l, hl⟩ := ConsumerPc.idle_of_left (show s'.consumer.left = 0 by omega)
    exact hin' l hl
  · cases step_move hst with
    | push | producerFlush | pop | consumerFlush => rfl
    | _ => trivial

end Moves

end FastQ
