import Mathlib.Data.List.Basic

/-!
# Bounded FIFO histories

What a bounded queue is for, without its representation: a list of at most `cap` elements, `enq`
appends one if there is room, `deq` takes the first. `Legal cap c₀ ops c` says that the operations
`ops` (with the values they moved) are possible from the contents `c₀` and end with `c`. Every
legal history is first in, first out and loses or doubles nothing (`Legal.conserve`), and the bound
holds at its end (`Legal.length_le`).
-/

namespace Fifo

/-- The successful operations of a queue, with the value each moved. -/
inductive Op (α : Type) where
  | enq (v : α)
  | deq (v : α)

variable {α : Type}

/-- The values put in, in order. -/
def enqs (ops : List (Op α)) : List α :=
  ops.filterMap fun
    | .enq v => some v
    | .deq _ => none

/-- The values taken out, in order. -/
def deqs (ops : List (Op α)) : List α :=
  ops.filterMap fun
    | .enq _ => none
    | .deq v => some v

@[simp] theorem enqs_append (ops ops' : List (Op α)) : enqs (ops ++ ops') = enqs ops ++ enqs ops' :=
  List.filterMap_append

@[simp] theorem deqs_append (ops ops' : List (Op α)) : deqs (ops ++ ops') = deqs ops ++ deqs ops' :=
  List.filterMap_append

@[simp] theorem enqs_enq (v : α) : enqs [.enq v] = [v] := rfl
@[simp] theorem enqs_deq (v : α) : enqs [.deq v] = [] := rfl
@[simp] theorem deqs_enq (v : α) : deqs [.enq v] = [] := rfl
@[simp] theorem deqs_deq (v : α) : deqs [.deq v] = [v] := rfl

/-- A history of a queue of capacity `cap`, from the contents `c₀` to the contents `c`. -/
inductive Legal (cap : Nat) (c₀ : List α) : List (Op α) → List α → Prop
  | nil : Legal cap c₀ [] c₀
  | enq {ops : List (Op α)} {c : List α} (v : α) : Legal cap c₀ ops c → c.length < cap →
      Legal cap c₀ (ops ++ [.enq v]) (c ++ [v])
  | deq {ops : List (Op α)} {c : List α} (v : α) : Legal cap c₀ ops (v :: c) →
      Legal cap c₀ (ops ++ [.deq v]) c

namespace Legal

variable {cap : Nat} {c₀ c : List α} {ops : List (Op α)}

/-- **First in, first out, exactly once.** The old contents and what went in are what came out and
the contents, in this order. -/
theorem conserve (h : Legal cap c₀ ops c) : c₀ ++ enqs ops = deqs ops ++ c := by
  induction h with
  | nil => simp [enqs, deqs]
  | enq v _ _ ih => simp [← List.append_assoc, ih]
  | deq v _ ih => simp [ih]

theorem length_le (h : Legal cap c₀ ops c) (h₀ : c₀.length ≤ cap) : c.length ≤ cap := by
  induction h with
  | nil => exact h₀
  | enq v _ hlt _ => rw [List.length_append]; exact hlt
  | deq v _ ih => exact Nat.le_of_succ_le ih

/-- From the empty queue: what came out is a prefix of what went in, the rest is the contents. -/
theorem prefix_of_nil (h : Legal cap [] ops c) :
    deqs ops <+: enqs ops ∧ (enqs ops).drop (deqs ops).length = c := by
  have he : enqs ops = deqs ops ++ c := by simpa using h.conserve
  rw [he]
  exact ⟨List.prefix_append _ _, List.drop_left⟩

end Legal

end Fifo
