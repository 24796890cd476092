/-
Machines given by a partial step function on events, their runs, and the
induction that carries an invariant along every run.
-/
import Mathlib.Algebra.GroupWithZero.Nat

namespace Machine

universe u v

variable {S : Type u} {E : Type v}

/-- Carry out a list of events; `none` as soon as one is not possible. -/
def run (step : S → E → Option S) : S → List E → Option S
  | state, [] => some state
  | state, event :: rest =>
    match step state event with
    | none => none
    | some next => run step next rest

/-- Every event of the run meets `Ok` in the state it is taken from. -/
def RunMeets (step : S → E → Option S) (Ok : S → E → Prop) : S → List E → Prop
  | _, [] => True
  | state, event :: rest =>
    Ok state event ∧ ∀ next, step state event = some next → RunMeets step Ok next rest

instance RunMeets.decidable (step : S → E → Option S) (Ok : S → E → Prop)
    [∀ state event, Decidable (Ok state event)] :
    ∀ state events, Decidable (RunMeets step Ok state events)
  | _, [] => isTrue trivial
  | state, event :: rest =>
    match hnext : step state event with
    | none => decidable_of_iff (Ok state event)
        ⟨fun hok => ⟨hok, by simp [hnext]⟩, fun hmeets => hmeets.1⟩
    | some next =>
      have := RunMeets.decidable step Ok next rest
      decidable_of_iff (Ok state event ∧ RunMeets step Ok next rest)
        (by simp [RunMeets, hnext])

variable {step : S → E → Option S} {events : List E}

/-- A condition on the events alone need only be checked on the list. -/
theorem runMeets_of_forall {Ok : E → Prop} (hall : ∀ event ∈ events, Ok event) (state : S) :
    RunMeets step (fun _ event => Ok event) state events := by
  induction events generalizing state with
  | nil => trivial
  | cons event rest ih =>
    exact ⟨hall event List.mem_cons_self, fun next _ =>
      ih (fun other hother =>
        hall other (List.mem_cons_of_mem event hother)) next⟩

variable {state : S}

theorem run_cons_eq_some {final : S} {event : E} {rest : List E}
    (hrun : run step state (event :: rest) = some final) :
    ∃ next, step state event = some next ∧ run step next rest = some final := by
  rw [run] at hrun
  cases hnext : step state event with
  | none => simp [hnext] at hrun
  | some next => exact ⟨next, rfl, by simpa [hnext] using hrun⟩

/-- What every admissible step preserves holds after every admissible run. -/
theorem run_invariant {step : S → E → Option S} {Ok : S → E → Prop}
    {Inv : S → Prop} (hstep : ∀ state event next, Inv state → Ok state event →
      step state event = some next → Inv next)
    {state final : S} {events : List E} (hinit : Inv state) (hmeets : RunMeets step Ok state events)
    (hrun : run step state events = some final) : Inv final := by
  induction events generalizing state with
  | nil =>
    cases hrun
    exact hinit
  | cons event rest ih =>
    obtain ⟨next, hnext, hrest⟩ := run_cons_eq_some hrun
    exact ih (hstep state event next hinit hmeets.1 hnext) (hmeets.2 next hnext) hrest

variable {Ok : S → E → Prop}

theorem RunMeets.imp {Ok' : S → E → Prop} (himp : ∀ state event, Ok state event → Ok' state event)
    (hmeets : RunMeets step Ok state events) : RunMeets step Ok' state events := by
  induction events generalizing state with
  | nil => trivial
  | cons event rest ih =>
    exact ⟨himp _ _ hmeets.1, fun next hnext => ih (hmeets.2 next hnext)⟩

/-- Every state of the run is good exactly if every step meets the condition,
given that a step which does not meet it spoils the state. -/
theorem runMeets_iff {Inv Good : S → Prop} (hgood : ∀ state, Inv state → Good state)
    (hstep : ∀ state event next, Inv state → Ok state event →
      step state event = some next → Inv next) (hbad : ∀ state event, Inv state → ¬ Ok state event →
      ∃ next, step state event = some next ∧ ¬ Good next) (hinit : Inv state) :
    RunMeets step Ok state events ↔
      ∀ n final, run step state (events.take n) = some final → Good final := by
  induction events generalizing state with
  | nil =>
    refine ⟨fun _ n final hrun => ?_, fun _ => trivial⟩
    rw [List.take_nil] at hrun
    cases hrun
    exact hgood _ hinit
  | cons event rest ih =>
    constructor
    · rintro ⟨hok, hrest⟩ n final hrun
      cases n with
      | zero =>
        cases hrun
        exact hgood _ hinit
      | succ n =>
        obtain ⟨next, hnext, hlater⟩ := run_cons_eq_some hrun
        exact (ih (hstep _ _ _ hinit hok hnext)).mp (hrest next hnext) n final hlater
    · intro hall
      have hok : Ok state event := by
        refine Classical.byContradiction fun hnot => ?_
        obtain ⟨next, hnext, hspoilt⟩ := hbad state event hinit hnot
        refine hspoilt (hall 1 next ?_)
        rw [List.take_succ_cons, List.take_zero, run, hnext]
        rfl
      refine ⟨hok, fun next hnext => ?_⟩
      refine (ih (hstep _ _ _ hinit hok hnext)).mpr fun n final hrun => ?_
      refine hall (n + 1) final ?_
      rw [List.take_succ_cons, run, hnext]
      exact hrun

/-! Machines of two and of three parties, which concrete runs take. -/

scoped instance twoParties : NeZero 2 := ⟨by decide⟩

scoped instance threeParties : NeZero 3 := ⟨by decide⟩

end Machine
