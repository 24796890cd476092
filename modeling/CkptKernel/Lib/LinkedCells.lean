/-
Singly linked cells: what a chain of pointers visits, with the value of each
cell.  `next` and `value` are the two fields of the cell at an address.
-/
import Mathlib.Data.List.Basic

namespace LinkedCells

variable {V : Type}

/-- Following the pointers from `p` visits the cells of the list and leads to
`stop`. -/
def Linked (next : Nat → Nat) (value : Nat → V) : Nat → List (Nat × V) → Nat → Prop
  | p, [], stop => p = stop
  | p, cell :: rest, stop =>
    p = cell.1 ∧ value cell.1 = cell.2 ∧ Linked next value (next cell.1) rest stop

variable {next next' : Nat → Nat} {value value' : Nat → V}
  {p stop : Nat} {cells more : List (Nat × V)}

theorem linked_append : Linked next value p (cells ++ more) stop ↔
    ∃ middle, Linked next value p cells middle ∧ Linked next value middle more stop := by
  induction cells generalizing p with
  | nil =>
    constructor
    · intro hmore
      exact ⟨p, rfl, hmore⟩
    · rintro ⟨_, rfl, hmore⟩
      exact hmore
  | cons cell cells ih =>
    rw [List.cons_append, Linked, ih]
    constructor
    · rintro ⟨hp, hvalue, middle, hcells, hmore⟩
      exact ⟨middle, ⟨hp, hvalue, hcells⟩, hmore⟩
    · rintro ⟨middle, ⟨hp, hvalue, hcells⟩, hmore⟩
      exact ⟨hp, hvalue, middle, hcells, hmore⟩

section

variable (hlinked : Linked next value p cells stop)
include hlinked

/-- Only the visited cells matter. -/
theorem Linked.congr
    (hsame : ∀ cell ∈ cells, next' cell.1 = next cell.1 ∧ value' cell.1 = value cell.1) :
    Linked next' value' p cells stop := by
  induction cells generalizing p with
  | nil => exact hlinked
  | cons cell cells ih =>
    obtain ⟨hp, hvalue, hrest⟩ := hlinked
    obtain ⟨hnext, hkept⟩ := hsame cell List.mem_cons_self
    refine ⟨hp, hkept.trans hvalue, ?_⟩
    rw [hnext]
    exact ih hrest fun other hother =>
      hsame other (List.mem_cons_of_mem cell hother)

theorem Linked.value_eq {cell : Nat × V} (hcell : cell ∈ cells) : value cell.1 = cell.2 := by
  induction cells generalizing p with
  | nil => cases hcell
  | cons first cells ih =>
    rcases List.mem_cons.mp hcell with rfl | hcell
    · exact hlinked.2.1
    · exact ih hlinked.2.2 hcell

/-- Every cell leads to the one behind it in the list; the last one leads to
the end. -/
theorem Linked.successor {cell : Nat × V} (hcell : cell ∈ cells) :
    (∃ before, cells = before ++ [cell] ∧ next cell.1 = stop) ∨
      ∃ before follower rest, cells = before ++ cell :: follower :: rest ∧
        next cell.1 = follower.1 := by
  obtain ⟨before, rest, rfl⟩ := List.append_of_mem hcell
  obtain ⟨middle, -, -, -, hrest⟩ := linked_append.mp hlinked
  cases rest with
  | nil => exact Or.inl ⟨before, rfl, hrest⟩
  | cons follower rest => exact Or.inr ⟨before, follower, rest, rfl, hrest.1⟩

end

/-- A ring can be walked from any of its cells. -/
theorem Linked.around (hring : Linked next value p cells p) {cell : Nat × V}
    (hcell : cell ∈ cells) : ∃ others : List (Nat × V), (cell :: others).Perm cells ∧
      Linked next value cell.1 (cell :: others) cell.1 := by
  obtain ⟨before, rest, rfl⟩ := List.append_of_mem hcell
  obtain ⟨middle, hbefore, rfl, hvalue, hrest⟩ := linked_append.mp hring
  refine ⟨rest ++ before, ?_, rfl, hvalue, ?_⟩
  · change ((cell :: rest) ++ before).Perm _
    exact List.perm_append_comm
  · exact linked_append.mpr ⟨p, hrest, hbefore⟩

end LinkedCells
