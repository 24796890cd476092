/-
Waiting for locks.  An agent waits for another when it spins on a lock the
other holds; a deadlock is a cycle of such waits.  Locks with ranks exclude
cycles when waiting agents only wait upwards.
-/
import Mathlib.Logic.Relation
import Mathlib.Order.Basic

namespace LockOrder

universe u v

variable {C : Type u} {L : Type v}

/-- `agent` spins on a lock that `other` holds. -/
def WaitsFor (holds : C → L → Prop) (wants : C → Option L)
    (agent other : C) : Prop :=
  ∃ lock, wants agent = some lock ∧ holds other lock

/-- A cycle of agents, each spinning on a lock that the next one holds. -/
def Deadlock (holds : C → L → Prop) (wants : C → Option L) : Prop :=
  ∃ agent, Relation.TransGen (WaitsFor holds wants) agent agent

/-- An agent that waits for a waiting agent holds only locks below the one it
wants. -/
def Ordered (holds : C → L → Prop) (wants : C → Option L)
    (rank : L → Nat) : Prop :=
  ∀ agent other lock held, wants agent = some lock → holds other lock →
    wants other ≠ none → holds agent held → rank held < rank lock

variable {holds : C → L → Prop} {wants : C → Option L} {rank : L → Nat}

/-- One wait followed by another goes up in rank. -/
theorem Ordered.rank_lt (horder : Ordered holds wants rank) {agent other last : C} {low high : L}
    (hlow : wants agent = some low) (hwait : WaitsFor holds wants agent other)
    (hhigh : wants other = some high) (hnext : WaitsFor holds wants other last)
    (hlast : wants last ≠ none) : rank low < rank high := by
  obtain ⟨lock, hlock, hheld⟩ := hwait
  obtain ⟨lock', hlock', hheld'⟩ := hnext
  rw [hlow] at hlock
  rw [hhigh] at hlock'
  cases hlock
  cases hlock'
  exact horder other last high low hhigh hheld' hlast hheld

theorem wants_of_chain {agent other : C}
    (hchain : Relation.TransGen (WaitsFor holds wants) agent other) : wants agent ≠ none := by
  cases hchain using Relation.TransGen.head_induction_on with
  | single hwait =>
    obtain ⟨lock, hlock, -⟩ := hwait
    simp [hlock]
  | head hwait _ =>
    obtain ⟨lock, hlock, -⟩ := hwait
    simp [hlock]

/-- Ranks go up along every chain of waits that goes on waiting. -/
theorem Ordered.chain_lt (horder : Ordered holds wants rank) {first last next : C} {low high : L}
    (hchain : Relation.TransGen (WaitsFor holds wants) first last) (hlow : wants first = some low)
    (hhigh : wants last = some high) (hwait : WaitsFor holds wants last next)
    (hnext : wants next ≠ none) : rank low < rank high := by
  induction hchain using Relation.TransGen.head_induction_on generalizing low with
  | single hfirst => exact horder.rank_lt hlow hfirst hhigh hwait hnext
  | @head agent middle hfirst hrest ih =>
    obtain ⟨lock, hlock⟩ := Option.ne_none_iff_exists'.mp (wants_of_chain hrest)
    obtain ⟨after, hafter, hmore⟩ : ∃ after,
        WaitsFor holds wants middle after ∧ wants after ≠ none := by
      rcases Relation.TransGen.head'_iff.mp hrest with ⟨after, hstep, htail⟩
      refine ⟨after, hstep, ?_⟩
      rcases Relation.reflTransGen_iff_eq_or_transGen.mp htail with
        heq | hlong
      · simp [← heq, hhigh]
      · exact wants_of_chain hlong
    exact Nat.lt_trans (horder.rank_lt hlow hfirst hlock hafter hmore) (ih hlock)

/-- Ordered locks never deadlock. -/
theorem Ordered.not_deadlock (horder : Ordered holds wants rank) : ¬ Deadlock holds wants := by
  rintro ⟨agent, hcycle⟩
  obtain ⟨lock, hlock⟩ := Option.ne_none_iff_exists'.mp (wants_of_chain hcycle)
  obtain ⟨next, hstep, htail⟩ := Relation.TransGen.head'_iff.mp hcycle
  have hnext : wants next ≠ none := by
    rcases Relation.reflTransGen_iff_eq_or_transGen.mp htail with heq | hlong
    · simp [← heq, hlock]
    · exact wants_of_chain hlong
  exact Nat.lt_irrefl _ (horder.chain_lt hcycle hlock hlock hstep hnext)

end LockOrder
