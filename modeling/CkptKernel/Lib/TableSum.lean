/-
Totals over the entries of a finite table, and how writing one entry changes
them.
-/
import Mathlib.Algebra.BigOperators.Group.Finset.Basic
import Mathlib.Algebra.Order.BigOperators.Group.Finset
import Mathlib.Data.Fintype.BigOperators

namespace TableSum

universe u v w

variable {I : Type u} {V : Type v} [DecidableEq I]

/-- Writing one entry replaces its share of the total over some of the
table. -/
theorem sum_update_add_of_mem {M : Type w} [AddCommMonoid M] (measure : V → M)
    (table : I → V) {entries : Finset I} {i : I} (hi : i ∈ entries)
    (value : V) : (∑ j ∈ entries, measure (Function.update table i value j)) + measure (table i) =
      (∑ j ∈ entries, measure (table j)) + measure value := by
  rw [← Finset.add_sum_erase entries (fun j => measure (Function.update table i value j)) hi,
    ← Finset.add_sum_erase entries (fun j => measure (table j)) hi]
  have hrest : ∑ j ∈ entries.erase i, measure (Function.update table i value j) =
      ∑ j ∈ entries.erase i, measure (table j) := by
    apply Finset.sum_congr rfl
    intro j hj
    rw [Function.update_of_ne (Finset.ne_of_mem_erase hj)]
  rw [hrest, Function.update_self, add_right_comm, add_comm (measure value), add_right_comm]

variable [Fintype I]

/-- Writing one entry replaces its share of the total. -/
theorem sum_update_add {M : Type w} [AddCommMonoid M] (measure : V → M) (table : I → V) (i : I)
    (value : V) : (∑ j, measure (Function.update table i value j)) + measure (table i) =
      (∑ j, measure (table j)) + measure value :=
  sum_update_add_of_mem measure table (Finset.mem_univ i) value

omit [DecidableEq I] in
/-- One entry's share is part of the total. -/
theorem le_sum (measure : V → Nat) (table : I → V) (i : I) :
    measure (table i) ≤ ∑ j, measure (table j) :=
  Finset.single_le_sum (f := fun j => measure (table j))
    (fun _ _ => Nat.zero_le _) (Finset.mem_univ i)

/-- So are the shares of two entries. -/
theorem add_le_sum (measure : V → Nat) (table : I → V) {i j : I} (hne : j ≠ i) :
    measure (table i) + measure (table j) ≤ ∑ k, measure (table k) := by
  rw [← Finset.add_sum_erase _ (fun k => measure (table k)) (Finset.mem_univ i)]
  exact Nat.add_le_add_left (Finset.single_le_sum
    (f := fun k => measure (table k)) (fun _ _ => Nat.zero_le _)
    (Finset.mem_erase.mpr ⟨hne, Finset.mem_univ j⟩)) _

omit [DecidableEq I] in
/-- A positive total has an entry with a positive share. -/
theorem exists_pos_of_sum_pos {measure : V → Nat} {table : I → V}
    (hpos : 0 < ∑ j, measure (table j)) : ∃ i, 0 < measure (table i) := by
  obtain ⟨i, -, hi⟩ := Finset.exists_ne_zero_of_sum_ne_zero (Nat.pos_iff_ne_zero.mp hpos)
  exact ⟨i, Nat.pos_iff_ne_zero.mpr hi⟩

/-- If all shares make one, one entry has it. -/
theorem exists_sole {share : I → Nat} (hone : ∑ i, share i = 1) :
    ∃ i, share i = 1 ∧ ∀ j, j ≠ i → share j = 0 := by
  obtain ⟨i, hi⟩ := @exists_pos_of_sum_pos I Nat _ id share (by simp only [id]; omega)
  have hself := @le_sum I Nat _ id share i
  have hpair := @add_le_sum I Nat _ _ id share i
  simp only [id] at hi hself hpair
  refine ⟨i, by omega, fun j hj => ?_⟩
  have := hpair hj
  omega

end TableSum
