import FastQ.Lib.Trace
import FastQ.Proofs.Lockstep
import FastQ.Queue.Queries

/-!
# Queries over unbounded counters

The queue with the queries of its threads runs in lockstep with the same machine over unbounded
counters, as the queue alone does (`FastQ/Proofs/Lockstep.lean`): a query carries the values that it
loaded, and subtracts or compares them only at its return, so the values may be in any order.

A query changes nothing in the queue. So the queue in a run with queries makes a run without them
(`reach_queue`), and all that is known of such runs holds of it.
-/

namespace FastQ

variable {α : Type}

def QueryPc.wrap : QueryPc Nat → QueryPc (BitVec 64)
  | .out => .out
  | .start c => .start c
  | .loadedWriter c x => .loadedWriter c (FastQ.wrap x)
  | .loadedReader c y => .loadedReader c (FastQ.wrap y)

def QueryEvent.wrap : QueryEvent α Nat → QueryEvent α (BitVec 64)
  | .queue e => .queue e.wrap
  | .loadWriter t x => .loadWriter t (FastQ.wrap x)
  | .loadReader t y => .loadReader t (FastQ.wrap y)
  | .returned t c x y => .returned t c (FastQ.wrap x) (FastQ.wrap y)

def Observed.wrap (o : Observed α Nat) : Observed α (BitVec 64) :=
  ⟨o.s.wrap, fun t => (o.query t).wrap⟩

theorem Observed.goTo_wrap (o : Observed α Nat) (t : Observer) (pc : QueryPc Nat) :
    (o.goTo t pc).wrap = o.wrap.goTo t pc.wrap := by
  unfold goTo wrap
  congr 1
  exact Function.comp_update QueryPc.wrap o.query t pc

theorem QueryPc.free_wrap (pc : QueryPc Nat) : pc.wrap.free = pc.free := by
  cases pc <;> rfl

theorem Observed.free_wrap (o : Observed α Nat) (a : Act α) : o.wrap.free a = o.free a := by
  cases a <;> simp [free, wrap, QueryPc.free_wrap]

theorem State.between_wrap (s : State α Nat) (t : Observer) : s.wrap.between t = s.between t := by
  obtain ⟨q, p, c⟩ := s
  cases t with
  | producer => cases p <;> rfl
  | consumer => cases c <;> rfl
  | third => rfl

theorem SPSC.seenWriter_wrap (q : SPSC α Nat) (k : Nat) (t : Observer) :
    q.wrap.seenWriter k t = (q.seenWriter k t).map FastQ.wrap := by
  cases t with
  | consumer =>
    have hv : q.wrap.writer.visible = q.writer.visible.map FastQ.wrap := rfl
    simp only [seenWriter, hv, List.getElem?_map]
  | _ => rfl

theorem SPSC.seenReader_wrap (q : SPSC α Nat) (k : Nat) (t : Observer) :
    q.wrap.seenReader k t = (q.seenReader k t).map FastQ.wrap := by
  cases t with
  | producer =>
    have hv : q.wrap.reader.visible = q.reader.visible.map FastQ.wrap := rfl
    simp only [seenReader, hv, List.getElem?_map]
  | _ => rfl

theorem QueryEvent.of_wrap (t : Observer) (e : QueryEvent α Nat) : e.wrap.of t = e.of t := by
  cases e <;> rfl

theorem QueryEvent.wrap_returned {e : QueryEvent α Nat} {t : Observer} {c : Query}
    {x y : BitVec 64} (h : e.wrap = .returned t c x y) :
    ∃ x' y', e = .returned t c x' y' ∧ x = FastQ.wrap x' ∧ y = FastQ.wrap y' := by
  cases e with
  | returned t' c' x' y' =>
    cases h
    exact ⟨x', y', rfl, rfl, rfl⟩
  | _ => cases h

/-! ## Lockstep -/

variable {PublishBatch : Nat} {o o' : Observed α Nat} {a : QueryAct α}
  {e es : List (QueryEvent α Nat)}

/-- **One step.** -/
theorem stepObserved_wrap (hB : PublishBatch < 2 ^ 64) (h : Near o.s) :
    (observed (wrap PublishBatch)).step o.wrap a =
      ((observed PublishBatch).step o a).map (Machine.image Observed.wrap QueryEvent.wrap) := by
  cases a with
  | queue a =>
    have hst := step_wrap (a := a) hB h
    simp only [observed, stepObserved, Observed.free_wrap]
    split
    · rw [show o.wrap.s = o.s.wrap from rfl, hst, Option.map_map, Option.map_map]
      congr 1
      funext p
      simp only [Function.comp_apply, Machine.image, List.map_map, Prod.mk.injEq]
      exact ⟨rfl, rfl⟩
    · rfl
  | query t c =>
    have hq : o.wrap.query t = (o.query t).wrap := rfl
    have hb : o.wrap.s.between t = o.s.between t := o.s.between_wrap t
    simp only [observed, stepObserved, hq, hb]
    cases o.query t with
    | out =>
      simp only [QueryPc.wrap]
      split
      · simp only [Option.map_some, Machine.image, Observed.goTo_wrap]
        rfl
      · rfl
    | _ => rfl
  | loadWriter t k =>
    have hq : o.wrap.query t = (o.query t).wrap := rfl
    have hs : o.wrap.s.q.seenWriter k t = (o.s.q.seenWriter k t).map wrap :=
      o.s.q.seenWriter_wrap k t
    simp only [observed, stepObserved, hq, hs]
    cases o.s.q.seenWriter k t with
    | none => rfl
    | some x =>
      cases o.query t <;> simp only [Option.map_some, Option.bind_some, QueryPc.wrap,
        Option.map_none, Machine.image, Observed.goTo_wrap] <;> rfl
  | loadReader t k =>
    have hq : o.wrap.query t = (o.query t).wrap := rfl
    have hs : o.wrap.s.q.seenReader k t = (o.s.q.seenReader k t).map wrap :=
      o.s.q.seenReader_wrap k t
    simp only [observed, stepObserved, hq, hs]
    cases o.s.q.seenReader k t with
    | none => rfl
    | some y =>
      cases o.query t <;> simp only [Option.map_some, Option.bind_some, QueryPc.wrap,
        Option.map_none, Machine.image, Observed.goTo_wrap] <;> rfl

theorem QueryMove.near (hm : QueryMove PublishBatch o a o' e) (hB : PublishBatch < 2 ^ 64)
    (h : Near o.s) : Near o'.s := by
  cases hm with
  | queue _ hst => exact step_near hB h hst
  | _ => exact h

section Runs

variable {capacity PublishBatch : BitVec 64} {memory : BitVec 64 → α} {q : SPSC α (BitVec 64)}
  {sched : List (QueryAct α)} {o : Observed α (BitVec 64)} {es : List (QueryEvent α (BitVec 64))}

/-- `t` and `et` are the state `o` and the history `es` after the schedule `sched`, with the
counters read as unbounded numbers: where the same schedule leads with unbounded counters. -/
structure Observed.Unbounded (capacity PublishBatch : BitVec 64) (memory : BitVec 64 → α)
    (sched : List (QueryAct α)) (o : Observed α (BitVec 64))
    (es : List (QueryEvent α (BitVec 64))) (t : Observed α Nat) (et : List (QueryEvent α Nat)) :
    Prop where
  run : ∃ q₀ : SPSC α Nat, SPSC.new capacity.toNat (fun i => memory (FastQ.wrap i)) = .ok q₀ ∧
    (observed PublishBatch.toNat).run (.start q₀) sched = some (t, et)
  state : o = t.wrap
  events : es = et.map QueryEvent.wrap

/-- **Every run.** The run of a schedule over 64 bits is the image of a run over unbounded
counters. -/
theorem observed_unwrap {ok : QueryAct α → Prop} (hq : SPSC.new capacity memory = .ok q)
    (h : (observed PublishBatch).run (.start q) sched = some (o, es)) (hok : ∀ a ∈ sched, ok a) :
    ∃ (q₀ : SPSC α Nat) (t : Observed α Nat) (et : List (QueryEvent α Nat)),
      Observed.Unbounded capacity PublishBatch memory sched o es t et ∧
      SPSC.new capacity.toNat (fun i => memory (wrap i)) = .ok q₀ ∧
      (observed PublishBatch.toNat).Reach (fun _ => ok) (.start q₀) t et ∧
      q₀.capacity = capacity.toNat ∧ Near (State.start q₀) := by
  obtain ⟨q₀, hnew, hstart, hcap, hnear⟩ := new_unwrap hq
  have hstart' : Observed.start q = (Observed.start q₀).wrap := by
    unfold Observed.start Observed.wrap
    rw [hstart]
    rfl
  have hrun := Machine.run_map (I := fun o : Observed α Nat => Near o.s)
    (fun _ _ h => stepObserved_wrap PublishBatch.isLt h)
    (fun _ _ _ _ h hst => (observed_move hst).near PublishBatch.isLt h) sched
    (Observed.start q₀) hnear
  rw [wrap_toNat, ← hstart', h] at hrun
  obtain ⟨⟨t, et⟩, ht, he⟩ := Option.map_eq_some_iff.mp hrun.symm
  cases he
  exact ⟨q₀, t, et, ⟨⟨q₀, hnew, ht⟩, rfl, rfl⟩, hnew, .of_run hok ht, hcap, hnear⟩

end Runs

/-! ## The queue alone -/

/-- The queue in a run with queries makes a run without them. -/
theorem reach_queue {ok : QueryAct α → Prop} {o₀ : Observed α Nat}
    (h : (observed PublishBatch).Reach (fun _ => ok) o₀ o es) :
    (spsc PublishBatch).Reach (fun _ a => ok (.queue a)) o₀.s o.s (queueEvents es) := by
  refine h.project Observed.s QueryEvent.ofQueue fun o a o' e ha hst => ?_
  cases observed_move hst with
  | queue _ hst' =>
    refine .inr ⟨_, ha, ?_⟩
    rw [show (List.map _ _).filterMap _ = _ from queueEvents_queue _]
    exact hst'
  | _ => exact .inl ⟨rfl, rfl⟩

/-- A thread inside a query is between its calls. -/
theorem QueryMove.between (hm : QueryMove PublishBatch o a o' e)
    (h : ∀ t, (o.query t).free = false → o.s.between t = true) (t : Observer)
    (ht : (o'.query t).free = false) : o'.s.between t = true := by
  have hgo : ∀ {t' : Observer} {pc : QueryPc Nat}, o.s.between t' = true →
      ((o.goTo t' pc).query t).free = false → o.s.between t = true := by
    intro t' pc hb hf
    by_cases ht' : t = t'
    · exact ht' ▸ hb
    · refine h t ?_
      rwa [o.query_goTo_of_ne ht'] at hf
  cases hm with
  | queue hfree hst =>
    obtain ⟨s, query⟩ := o
    have hb : s.between t = true := h t ht
    have hm : Move PublishBatch s _ _ _ := step_move hst
    cases t with
    | third => rfl
    | producer =>
      cases hm with
      | push | producerFlush | producer => exact absurd (hfree.symm.trans ht) (by decide)
      | _ => exact hb
    | consumer =>
      cases hm with
      | pop | consumerFlush | consumer => exact absurd (hfree.symm.trans ht) (by decide)
      | _ => exact hb
  | query _ hb => exact hgo hb ht
  | firstWriter hs | firstReader hs | thenWriter hs | thenReader hs =>
    exact hgo (h _ (by rw [hs]; rfl)) ht

theorem reach_between {ok : Observed α Nat → QueryAct α → Prop} {q₀ : SPSC α Nat}
    (h : (observed PublishBatch).Reach ok (.start q₀) o es) (t : Observer)
    (ht : (o.query t).free = false) : o.s.between t = true := by
  refine h.invariant (P := fun o _ => ∀ t, (o.query t).free = false → o.s.between t = true)
    (fun t ht => ?_) (fun _ _ _ _ _ hb _ hst => (observed_move hst).between hb) t ht
  cases ht

end FastQ
