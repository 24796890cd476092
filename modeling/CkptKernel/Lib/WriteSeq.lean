/-
Sequences of atomic writes to a store, and the stores that a crash can leave.
Writes reach the store in issue order, so a crash leaves the effect of a
prefix of the sequence.
-/
import Mathlib.Logic.Function.Basic
import Mathlib.Data.List.Nodup

namespace WriteSeq

universe u v

variable {A : Type u} {V : Type v}

/-- A sequence stopped after `count` of the writes `first ++ second` either
stops inside `first` or has carried out all of it. -/
theorem take_append_cases (first second : List (A × V)) (count : Nat) :
    (first ++ second).take count = first.take count ∨
      (first.length < count ∧ (first ++ second).take count =
        first ++ second.take (count - first.length)) := by
  rcases Nat.lt_or_ge first.length count with hlt | hge
  · right
    refine ⟨hlt, ?_⟩
    rw [List.take_append, List.take_of_length_le (Nat.le_of_lt hlt)]
  · left
    exact List.take_append_of_le_length hge

variable [DecidableEq A]

/-- Carry out a sequence of writes. -/
def applyWrites (writes : List (A × V)) (store : A → V) : A → V :=
  writes.foldl (fun current write =>
    Function.update current write.1 write.2) store

@[simp] theorem applyWrites_nil (store : A → V) : applyWrites [] store = store := rfl

@[simp] theorem applyWrites_cons (write : A × V) (rest : List (A × V))
    (store : A → V) : applyWrites (write :: rest) store =
      applyWrites rest (Function.update store write.1 write.2) := rfl

@[simp] theorem applyWrites_append (first second : List (A × V))
    (store : A → V) : applyWrites (first ++ second) store =
      applyWrites second (applyWrites first store) := by
  simp [applyWrites, List.foldl_append]

/-- An address that no write names keeps its value. -/
theorem applyWrites_of_not_mem {writes : List (A × V)} {addr : A}
    (hmiss : ∀ write ∈ writes, write.1 ≠ addr) (store : A → V) :
    applyWrites writes store addr = store addr := by
  induction writes generalizing store with
  | nil => rfl
  | cons write rest ih =>
    have hhead : addr ≠ write.1 :=
      (hmiss write List.mem_cons_self).symm
    rw [applyWrites_cons, ih (fun other hother =>
        hmiss other (List.mem_cons_of_mem write hother)), Function.update_of_ne hhead]

/-- With pairwise distinct addresses a written address holds its value. -/
theorem applyWrites_of_mem {writes : List (A × V)}
    (hnodup : (writes.map Prod.fst).Nodup) {write : A × V} (hmem : write ∈ writes) (store : A → V) :
    applyWrites writes store write.1 = write.2 := by
  induction writes generalizing store with
  | nil => simp at hmem
  | cons head rest ih =>
    simp only [List.map_cons, List.nodup_cons] at hnodup
    rcases List.mem_cons.mp hmem with rfl | hrest
    · rw [applyWrites_cons, applyWrites_of_not_mem]
      · exact Function.update_self _ _ _
      · intro other hother heq
        exact hnodup.1 (List.mem_map.mpr ⟨other, hother, heq⟩)
    · exact ih hnodup.2 hrest _

end WriteSeq
