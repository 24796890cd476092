/-
Places that hold block addresses.  Each place that counts holds no address
(zero) or one that no other such place holds and that the allocator has given
out.
-/
import Mathlib.Logic.Function.Basic

namespace Ownership

universe u

variable {P : Type u}

/-- Every nonzero address at a live place is `Given` and belongs to that place
alone. -/
structure Owns (addr : P → Nat) (live : P → Prop) (Given : Nat → Prop) : Prop where
  given : ∀ p, live p → addr p ≠ 0 → Given (addr p)
  unique : ∀ p q, live p → live q → addr p ≠ 0 → addr p = addr q → p = q

variable {addr addr' : P → Nat} {live live' : P → Prop}
  {Given Given' : Nat → Prop}

/-- Places may go away and addresses be given out as long as the places left
hold what they held. -/
theorem Owns.mono (howns : Owns addr live Given)
    (hlive : ∀ p, live' p → addr' p ≠ 0 → live p ∧ addr' p = addr p)
    (hgiven : ∀ p, live' p → addr' p ≠ 0 → Given (addr p) → Given' (addr p)) :
    Owns addr' live' Given' where
  given := by
    intro p hp hne
    obtain ⟨hold, heq⟩ := hlive p hp hne
    rw [heq]
    exact hgiven p hp hne (howns.given p hold (heq ▸ hne))
  unique := by
    intro p q hp hq hne heq
    obtain ⟨hpold, hpeq⟩ := hlive p hp hne
    obtain ⟨hqold, hqeq⟩ := hlive q hq (heq ▸ hne)
    exact howns.unique p q hpold hqold (hpeq ▸ hne) (by rw [← hpeq, ← hqeq, heq])

/-- One place receives an address that no live place holds. -/
theorem Owns.insert (howns : Owns addr live Given) {place : P} {block : Nat}
    (hfresh : ∀ p, live p → addr p ≠ block) (hblock : Given' block) (hplace : addr' place = block)
    (hrest : ∀ p, live' p → p ≠ place → addr' p ≠ 0 → live p ∧ addr' p = addr p)
    (hgiven : ∀ b, Given b → Given' b) : Owns addr' live' Given' where
  given := by
    intro p hp hne
    by_cases heq : p = place
    · rw [heq, hplace]
      exact hblock
    · obtain ⟨hold, haddr⟩ := hrest p hp heq hne
      rw [haddr]
      exact hgiven _ (howns.given p hold (haddr ▸ hne))
  unique := by
    intro p q hp hq hne heq
    by_cases hpp : p = place
    · by_cases hqp : q = place
      · rw [hpp, hqp]
      · obtain ⟨hold, haddr⟩ := hrest q hq hqp (heq ▸ hne)
        rw [hpp, hplace, haddr] at heq
        exact (hfresh q hold heq.symm).elim
    · obtain ⟨hpold, hpaddr⟩ := hrest p hp hpp hne
      by_cases hqp : q = place
      · rw [hqp, hplace, hpaddr] at heq
        exact (hfresh p hpold heq).elim
      · obtain ⟨hqold, hqaddr⟩ := hrest q hq hqp (heq ▸ hne)
        exact howns.unique p q hpold hqold (hpaddr ▸ hne) (by rw [← hpaddr, ← hqaddr, heq])

/-- Every address that is given out is at some live place. -/
def Covers (addr : P → Nat) (live : P → Prop) (Given : Nat → Prop) : Prop :=
  ∀ b, Given b → ∃ p, live p ∧ addr p = b

/-- Addresses may be taken back; the places of the others stay. -/
theorem Covers.mono (hcovers : Covers addr live Given) (hgiven : ∀ b, Given' b → Given b)
    (hlive : ∀ p, live p → Given' (addr p) → live' p ∧ addr' p = addr p) :
    Covers addr' live' Given' := by
  intro b hb
  obtain ⟨p, hp, heq⟩ := hcovers b (hgiven b hb)
  obtain ⟨hnew, hsame⟩ := hlive p hp (heq ▸ hb)
  exact ⟨p, hnew, hsame.trans heq⟩

/-- One more address is given out, to an empty place. -/
theorem Covers.insert (hcovers : Covers addr live Given) (place : P) {block : Nat}
    (hzero : ¬ Given 0) (hempty : addr place = 0) (hplace : live' place)
    (haddr : addr' place = block) (hgiven : ∀ b, Given' b → b = block ∨ Given b)
    (hrest : ∀ p, live p → p ≠ place → live' p ∧ addr' p = addr p) : Covers addr' live' Given' := by
  intro b hb
  rcases hgiven b hb with rfl | hold
  · exact ⟨place, hplace, haddr⟩
  obtain ⟨p, hp, heq⟩ := hcovers b hold
  have hne : p ≠ place := by
    intro hp'
    rw [hp', hempty] at heq
    exact hzero (heq ▸ hold)
  obtain ⟨hnew, hsame⟩ := hrest p hp hne
  exact ⟨p, hnew, hsame.trans heq⟩

end Ownership
