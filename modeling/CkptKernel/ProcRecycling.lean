/-
Recycled process slots.  `allocproc` resets few fields of the slot it takes, so
a new process starts clean only if every path that ends in UNUSED leaves
nothing behind and nobody touches a slot that is UNUSED.
-/
import CkptKernel.ProcReaping

namespace CkptKernel

namespace ProcLocks

open Machine
open Function (update update_of_ne update_self)

/-- No open descriptor and no current directory. -/
def Fields.Closed (fields : Fields) : Prop :=
  fields.ofile = (fun _ => false) ∧ fields.cwd = false

/-- The slot that `restore_proc` is taking apart again. -/
def Pc.undoes : Pc → Option Slot
  | .restoreBad k => some k
  | .restoreFree k => some k
  | _ => none

/-- What is left of its files when a process exits or is taken apart. -/
structure Pc.Tidy (pc : Pc) (fields : Slot → Fields) (s : Slot) : Prop where
  exiting : pc.exiting = true → (fields s).Closed
  undoes : ∀ k, pc.undoes = some k → (fields k).Closed

variable {Cpu : Type}

/-- UNUSED slots are all zero, and zombies hold no files. -/
structure Clean (table : Table Cpu) : Prop where
  unused : ∀ k, (table.locks.slot k).state = .UNUSED →
    table.locks.slot k = .unused ∧ table.fields k = .zero
  zombie : ∀ k, (table.locks.slot k).state = .ZOMBIE → (table.fields k).Closed
  tidy : ∀ c s pc, table.locks.cpu c = .run s pc → pc.Tidy table.fields s

/-- Where a control point can lead in one step. -/
structure Pc.Leads (pc : Pc) (choice : Choice) (pc' : Pc) : Prop where
  exiting : pc'.exiting = true → pc.exiting = true ∨ choice = .start .exit
  undoes : ∀ k, pc'.undoes = some k → pc.undoes = some k ∨
    (pc = .restoreBuild k ∧ choice ≠ .go ∧ ∀ call, choice ≠ .start call)

variable {pc pc' : Pc} {choice : Choice}

theorem Pc.Leads.plain (hexiting : pc'.exiting = false) (hundoes : pc'.undoes = none) :
    pc.Leads choice pc' := by
  refine ⟨fun h => ?_, fun k h => ?_⟩
  · rw [hexiting] at h
    cases h
  · rw [hundoes] at h
    cases h

theorem Pc.Leads.same (hexiting : pc'.exiting = true → pc.exiting = true)
    (hundoes : pc'.undoes = pc.undoes) : pc.Leads choice pc' :=
  ⟨fun h => Or.inl (hexiting h), fun _ h => Or.inl (hundoes ▸ h)⟩

theorem wakeFrom_leads {ret : WakeRet} (self : Slot) (k : Nat) (chan : Chan)
    (hexiting : ret.cleared.isSome = true → pc.exiting = true) :
    pc.Leads choice (wakeFrom self k chan ret) := by
  rcases wakeFrom_cases self k chan ret with ⟨next, heq⟩ | heq
  · rw [heq]
    exact ⟨fun h => Or.inl (hexiting h), nofun⟩
  rw [heq]
  cases ret with
  | resume r => cases r <;> exact .plain rfl rfl
  | reparent next => exact ⟨fun _ => Or.inl (hexiting rfl), nofun⟩
  | exit => exact ⟨fun _ => Or.inl (hexiting rfl), nofun⟩

theorem scanFrom_leads (k : Nat) {body : Slot → Pc} (hbody : ∀ next, pc.Leads choice (body next)) :
    pc.Leads choice (scanFrom k body .user) := by
  rcases scanFrom_cases k body .user with ⟨next, heq⟩ | heq
  · rw [heq]
    exact hbody next
  · rw [heq]
    exact .plain rfl rfl

variable {s : Slot}

theorem entry_leads {r : Resume} {call : Call}
    (hentry : call.entry s r = some pc') : pc.Leads (.start call) pc' := by
  cases call with
  | sleep chan =>
    cases hentry
    exact .plain rfl rfl
  | yield =>
    cases hentry
    exact .plain rfl rfl
  | wakeup chan =>
    cases hentry
    exact wakeFrom_leads s 0 chan (by rintro ⟨⟩)
  | exit =>
    simp only [Call.entry] at hentry
    split at hentry
    · cases hentry
      exact ⟨fun _ => Or.inr rfl, by rintro _ ⟨⟩⟩
    · cases hentry
  | _ =>
    simp only [Call.entry] at hentry
    split at hentry
    · cases hentry
      exact .plain rfl rfl
    · cases hentry

variable [DecidableEq Cpu]

variable {state next : State Cpu} {c : Cpu}

theorem stepPc_leads (hnext : stepPc state c s pc choice = some next) :
    next.cpu c = .schedBack s ∨ ∃ pc', next.cpu c = .run s pc' ∧ pc.Leads choice pc' := by
  have hself : ∀ control : Control, update state.cpu c control c = control :=
    fun control => update_self ..
  cases pc <;> simp only [stepPc] at hnext
  case forkScan | forkParent | forkRun | restoreScan | restoreBad |
      restoreLock | restoreWait | exitAcquire | exitSelf | waitAcquire |
      waitChild | waitKilled | waitSleep | killScan | sleepAcquire |
      yieldAcquire | wakeScan =>
    obtain ⟨hcpu, -, -⟩ := acquire_eq_some hnext
    refine Or.inr ⟨_, by rw [hcpu]; exact hself _, ?_⟩
    exact .same id rfl
  case forkLink | forkReady | restoreFree | restoreLink | restoreReady |
      exitZombie | waitDone | waitSleepHave =>
    cases hnext
    exact Or.inr ⟨_, hself _, .plain rfl rfl⟩
  case user =>
    cases choice with
    | start call =>
      obtain ⟨pc, hentry, rfl⟩ := Option.map_eq_some_iff.mp hnext
      exact Or.inr ⟨_, hself _, entry_leads hentry⟩
    | _ => cases hnext
  case restoreBuild k =>
    cases choice with
    | start call =>
      obtain ⟨pc, hentry, rfl⟩ := Option.map_eq_some_iff.mp hnext
      exact Or.inr ⟨_, hself _, entry_leads hentry⟩
    | go =>
      cases hnext
      exact Or.inr ⟨_, hself _, .plain rfl rfl⟩
    | _ =>
      cases hnext
      refine Or.inr ⟨_, hself _, by rintro ⟨⟩, fun j hj => ?_⟩
      cases hj
      exact Or.inr ⟨rfl, by simp, by simp⟩
  case forkHave k =>
    split at hnext
    · split at hnext <;> cases hnext <;>
        exact Or.inr ⟨_, hself _, .plain rfl rfl⟩
    · cases hnext
      exact Or.inr ⟨_, hself _, scanFrom_leads _ fun _ => .plain rfl rfl⟩
  case restoreHave k =>
    split at hnext
    · cases choice <;> cases hnext <;>
        exact Or.inr ⟨_, hself _, .plain rfl rfl⟩
    · cases hnext
      exact Or.inr ⟨_, hself _, scanFrom_leads _ fun _ => .plain rfl rfl⟩
  case restorePanic k => cases hnext
  case exitReparent k =>
    split at hnext
    · split at hnext
      · cases hnext
        exact Or.inr ⟨_, hself _, wakeFrom_leads _ _ _ fun _ => rfl⟩
      · cases hnext
        exact Or.inr ⟨_, hself _, .same (fun _ => rfl) rfl⟩
    · cases hnext
      exact Or.inr ⟨_, hself _, wakeFrom_leads _ _ _ fun _ => rfl⟩
  case exitSched | waitSched | sleepSched | yieldSched =>
    cases hnext
    exact Or.inl (hself _)
  case waitScan k havekids =>
    split at hnext <;> split at hnext <;> cases hnext <;>
      exact Or.inr ⟨_, hself _, .plain rfl rfl⟩
  case waitHave k =>
    split at hnext
    · split at hnext <;> cases hnext <;>
        exact Or.inr ⟨_, hself _, .plain rfl rfl⟩
    · cases hnext
      exact Or.inr ⟨_, hself _, .plain rfl rfl⟩
  case waitKilledHave =>
    cases hnext
    refine Or.inr ⟨_, hself _, ?_⟩
    split <;> exact .plain rfl rfl
  case killHave k pid =>
    split at hnext
    · cases hnext
      exact Or.inr ⟨_, hself _, .plain rfl rfl⟩
    · cases hnext
      exact Or.inr ⟨_, hself _, scanFrom_leads _ fun _ => .plain rfl rfl⟩
  case wakeHave k chan ret =>
    cases hnext
    exact Or.inr ⟨_, hself _, wakeFrom_leads _ _ _ fun h => h⟩
  case resumed saved =>
    cases saved with
    | dead => cases hnext
    | forkret =>
      cases hnext
      exact Or.inr ⟨_, hself _, .plain rfl rfl⟩
    | sleep r =>
      cases hnext
      refine Or.inr ⟨_, hself _, ?_⟩
      cases r <;> exact .plain rfl rfl
    | wait =>
      cases hnext
      exact Or.inr ⟨_, hself _, .plain rfl rfl⟩
    | yield r =>
      cases hnext
      refine Or.inr ⟨_, hself _, ?_⟩
      cases r <;> exact .plain rfl rfl

theorem Fields.Closed.freeproc {fields : Fields} (hclosed : fields.Closed) :
    fields.freeproc = .zero := by
  obtain ⟨hofile, hcwd⟩ := hclosed
  simp [Fields.freeproc, Fields.zero, hofile, hcwd]

/-- What a lock step does to the fields of slot `j`, beside what it does to
its state. -/
inductive Touch (table : Table Cpu) (choice : Choice) (c : Cpu)
    (next : State Cpu) (j : Slot) (fields : Fields) : Prop
  | keep (hfields : fields = table.fields j)
      (hfree : ∀ s, table.locks.cpu c ≠ .run s (.restoreFree j))
      (hexit : table.locks.cpu c ≠ .run j .exitZombie)
      (hreap : ∀ s, table.locks.cpu c = .run s (.waitHave j) →
        next.slot = table.locks.slot)
  | alloc (hold : (table.locks.slot j).state = .UNUSED)
      (hnew : (next.slot j).state = .USED)
  | spoil (hold : (table.locks.slot j).state = .UNUSED)
      (hfields : fields = (table.fields j).alloc.freeproc)
      (hnew : next.slot j = .unused)
  | close (s : Slot) (hc : table.locks.cpu c = .run s (.restoreBuild j))
      (hfields : fields = (table.fields j).close)
      (hnew : next.slot j = table.locks.slot j)
  | free (s : Slot) (hc : table.locks.cpu c = .run s (.restoreFree j))
      (hfields : fields = (table.fields j).freeproc)
      (hnew : next.slot j = .unused)
  | zombie (hc : table.locks.cpu c = .run j .exitZombie)
      (hfields : fields = { table.fields j with xstate := table.status j })
      (hnew : (next.slot j).state = .ZOMBIE)
  | reap (hold : (table.locks.slot j).state = .ZOMBIE)
      (hfields : fields = (table.fields j).freeproc)
      (hnew : next.slot j = .unused)

variable {table : Table Cpu}

theorem Table.carry_touch (hnext : ProcLocks.step table.locks ⟨c, choice⟩ = some next) (j : Slot) :
    Touch table choice c next j ((table.carry choice (table.locks.cpu c)).fields j) := by
  have hother : ∀ {k : Slot} {change : Fields → Fields}, j ≠ k →
      (table.set k change).fields j = table.fields j := fun hjk =>
    update_of_ne hjk _ _
  have hself : ∀ {change : Fields → Fields},
      (table.set j change).fields j = change (table.fields j) :=
    update_self ..
  generalize hc : table.locks.cpu c = control
  have hplain : (∀ s, control ≠ .run s (.restoreFree j)) →
      control ≠ .run j .exitZombie → (∀ s, control ≠ .run s (.waitHave j)) →
      Touch table choice c next j (table.fields j) := by
    intro hfree hexit hreap
    subst hc
    exact .keep rfl hfree hexit fun s heq => (hreap s heq).elim
  cases control with
  | run s pc =>
    cases pc with
    | forkHave k =>
      simp only [ProcLocks.step, hc, stepPc] at hnext
      simp only [Table.carry]
      have hkeep := hplain (by simp) (by simp) (by simp)
      by_cases hjk : j = k
      · subst hjk
        split at hnext
        next hunused =>
          rw [if_pos hunused]
          split at hnext
          next hgo =>
            cases hnext
            exact .alloc hunused (by simp [State.release, State.alloc, State.edit])
          next hfail =>
            cases hnext
            rw [if_neg hfail, hself]
            exact .spoil hunused rfl (by simp [State.release, State.giveUp, State.edit])
        next hused =>
          rw [if_neg hused]
          exact hkeep
      · split
        · split <;> rw [hother hjk] <;> exact hkeep
        · exact hkeep
    | restoreHave k =>
      simp only [ProcLocks.step, hc, stepPc] at hnext
      simp only [Table.carry]
      have hkeep := hplain (by simp) (by simp) (by simp)
      by_cases hjk : j = k
      · subst hjk
        split at hnext
        next hunused =>
          rw [if_pos hunused]
          cases choice with
          | go =>
            cases hnext
            exact .alloc hunused (by simp [State.release, State.alloc, State.edit])
          | noMem =>
            cases hnext
            exact .alloc hunused (by simp [State.goto, State.alloc, State.edit])
          | _ =>
            cases hnext
            dsimp only
            rw [hself]
            exact .spoil hunused rfl (by simp [State.release, State.giveUp, State.edit])
        next hused =>
          rw [if_neg hused]
          exact hkeep
      · split
        · split <;> rw [hother hjk] <;> exact hkeep
        · exact hkeep
    | restoreBuild k =>
      simp only [ProcLocks.step, hc, stepPc] at hnext
      simp only [Table.carry]
      have hkeep := hplain (by simp) (by simp) (by simp)
      cases choice with
      | start call => exact hkeep
      | go => exact hkeep
      | _ =>
        cases hnext
        by_cases hjk : j = k
        · subst hjk
          dsimp only
          rw [hself]
          exact .close s hc rfl rfl
        · dsimp only
          rw [hother hjk]
          exact hkeep
    | restoreFree k =>
      simp only [ProcLocks.step, hc, stepPc, Option.some.injEq] at hnext
      subst hnext
      simp only [Table.carry]
      by_cases hjk : j = k
      · subst hjk
        rw [hself]
        exact .free s hc rfl (by simp [State.release, State.edit])
      · rw [hother hjk]
        refine hplain (fun s' heq => ?_) (by simp) (by simp)
        cases heq
        exact hjk rfl
    | exitZombie =>
      simp only [ProcLocks.step, hc, stepPc, Option.some.injEq] at hnext
      subst hnext
      simp only [Table.carry]
      by_cases hjs : j = s
      · subst hjs
        rw [hself]
        exact .zombie hc rfl (by simp [State.release, State.edit])
      · rw [hother hjs]
        refine hplain (by simp) (fun heq => ?_) (by simp)
        cases heq
        exact hjs rfl
    | waitHave k =>
      simp only [Table.carry]
      split
      next hreap =>
        obtain ⟨hzombie, rfl⟩ := hreap
        simp only [ProcLocks.step, hc, stepPc, hzombie, if_true, Option.some.injEq] at hnext
        subst hnext
        by_cases hjk : j = k
        · subst hjk
          rw [hself]
          exact .reap hzombie rfl (by simp [State.release, State.edit])
        · rw [hother hjk]
          refine hplain (by simp) (by simp) fun s' heq => ?_
          cases heq
          exact hjk rfl
      next hnot =>
        exact .keep rfl (by simp [hc]) (by simp [hc]) (fun _ _ => step_waitHave hc hnext hnot)
    | _ => exact hplain (by simp) (by simp) (by simp)
  | _ => exact hplain (by simp) (by simp) (by simp)

omit [DecidableEq Cpu] in
/-- The files of a slot in use stay closed. -/
theorem Touch.closed {j : Slot} {fields : Fields} (htouch : Touch table choice c next j fields)
    (hused : (table.locks.slot j).state ≠ .UNUSED)
    (hclosed : (table.fields j).Closed) : fields.Closed := by
  cases htouch with
  | keep hfields => exact hfields ▸ hclosed
  | alloc hold => exact absurd hold hused
  | spoil hold => exact absurd hold hused
  | close s _ hfields => exact hfields ▸ ⟨rfl, rfl⟩
  | free s _ hfields => exact hfields ▸ hclosed
  | zombie _ hfields => exact hfields ▸ hclosed
  | reap _ hfields => exact hfields ▸ hclosed

variable {k : Slot}

omit [DecidableEq Cpu] in
/-- A slot that is UNUSED after a step was so before, or has been freed. -/
theorem Edit.unused {m : Slot} {p : ProcSlot} (hedit : Edit state m pc k p) (hsound : Sound state)
    (hat : state.At m pc) (hunused : p.state = .UNUSED) :
    ((state.slot k).state = .UNUSED ∧ (p = state.slot k ∨ p = .unused ∨
      ∃ pid, pc = .killHave k pid ∧ ((state.slot k).pid : Int) = pid)) ∨
    pc = .restoreFree k ∨ pc = .waitHave k := by
  cases hedit with
  | same hstate _ _ hfree => exact Or.inl ⟨hstate ▸ hunused, hfree hunused⟩
  | live _ hnew => exact absurd hunused hnew.ne_unused
  | alloc _ hnew =>
    rw [hnew] at hunused
    cases hunused
  | link q _ _ hbuilds _ hstate =>
    rw [hstate, ((hsound.holds m pc hat).built k hbuilds).1] at hunused
    cases hunused
  | ready _ _ hnew =>
    rw [hnew] at hunused
    cases hunused
  | drop hpc => exact Or.inr (Or.inl hpc)
  | adopt hold _ hstate =>
    rw [hsound.free k (hstate ▸ hunused)] at hold
    cases hold
  | zombie _ _ _ hnew =>
    rw [hnew] at hunused
    cases hunused
  | reap hpc => exact Or.inr (Or.inr hpc)

omit [DecidableEq Cpu] in
/-- A zombie was one before, or has just exited. -/
theorem Edit.zombie_old {m : Slot} {p : ProcSlot} (hedit : Edit state m pc k p)
    (hzombie : p.state = .ZOMBIE) :
    (state.slot k).state = .ZOMBIE ∨ (pc = .exitZombie ∧ k = m) := by
  cases hedit with
  | same hstate => exact Or.inl (hstate ▸ hzombie)
  | live _ hnew => exact absurd hzombie hnew.ne_zombie
  | alloc _ hnew =>
    rw [hnew] at hzombie
    cases hzombie
  | link q _ _ _ _ hstate => exact Or.inl (hstate ▸ hzombie)
  | ready _ _ hnew =>
    rw [hnew] at hzombie
    cases hzombie
  | drop _ hnew =>
    subst hnew
    cases hzombie
  | adopt _ _ hstate => exact Or.inl (hstate ▸ hzombie)
  | zombie hpc hk => exact Or.inr ⟨hpc, hk⟩
  | reap _ _ _ hnew =>
    subst hnew
    cases hzombie

theorem Pc.phase_of_exiting (hexiting : pc.exiting = true) : pc.phase = .RUNNING := by
  cases pc <;> simp_all [Pc.exiting, Pc.phase]

theorem Pc.builds_of_undoes (hundoes : pc.undoes = some k) : pc.builds = some k := by
  cases pc <;> simp_all [Pc.undoes, Pc.builds]

/-- The process in which `kkill` finds its pid is live: no slot that is UNUSED,
no zombie, and none that `restore_proc` is still filling in. -/
def KillsLive (table : Table Cpu) (event : Cpu × Act) : Prop :=
  match table.locks.cpu event.1 with
  | .run _ (.killHave k pid) =>
    ((table.locks.slot k).pid : Int) = pid → (table.locks.slot k).state.Live
  | _ => True

instance (table : Table Cpu) (event : Cpu × Act) : Decidable (KillsLive table event) := by
  unfold KillsLive
  split <;> infer_instance

omit [DecidableEq Cpu] in
theorem KillsLive.found {act : Act} {pid : Int} (hkills : KillsLive table (c, act))
    (hc : table.locks.cpu c = .run s (.killHave k pid))
    (hpid : ((table.locks.slot k).pid : Int) = pid) : (table.locks.slot k).state.Live := by
  unfold KillsLive at hkills
  rw [hc] at hkills
  exact hkills hpid

/-- A free slot stays clean. -/
theorem Clean.unused_lock (hclean : Clean table) (hsound : Sound table.locks)
    (hkills : KillsLive table (c, .lock choice))
    (hnext : ProcLocks.step table.locks ⟨c, choice⟩ = some next) (j : Slot)
    (hunused : (next.slot j).state = .UNUSED) :
    next.slot j = .unused ∧ (table.carry choice (table.locks.cpu c)).fields j = .zero := by
  cases Table.carry_touch hnext j with
  | keep hfields hfree hexit hreap =>
    rw [hfields]
    rcases (step_moved hsound hnext).edit with
      hslot | ⟨m, pc, k, p, hrun, hat, hslot, hedit⟩
    · rw [hslot] at hunused ⊢
      exact hclean.unused j hunused
    by_cases hjk : j = k
    · subst hjk
      have hp : next.slot j = p := by rw [hslot, update_self]
      rw [hp] at hunused ⊢
      rcases hedit.unused hsound hat hunused with
        ⟨hold, hcase⟩ | rfl | rfl
      · obtain ⟨hzero, hnone⟩ := hclean.unused j hold
        rcases hcase with rfl | rfl | ⟨pid, rfl, hpid⟩
        · exact ⟨hzero, hnone⟩
        · exact ⟨rfl, hnone⟩
        · -- `kkill` found the pid of a free slot, which is not live
          rcases hrun with hc | ⟨_, hpc⟩
          · exact absurd hold (hkills.found hc hpid).ne_unused
          · cases hpc
      · rcases hrun with hc | ⟨_, hpc⟩
        · exact absurd hc (hfree m)
        · cases hpc
      · rcases hrun with hc | ⟨_, hpc⟩
        · have hsame := congrFun (hreap m hc) j
          rw [hp] at hsame
          rw [hsame] at hunused ⊢
          exact hclean.unused j hunused
        · cases hpc
    · rw [hslot, update_of_ne hjk] at hunused ⊢
      exact hclean.unused j hunused
  | alloc _ hnew =>
    rw [hnew] at hunused
    cases hunused
  | spoil hold hfields hnew =>
    rw [hfields, (hclean.unused j hold).2]
    exact ⟨hnew, rfl⟩
  | close s hc _ hnew =>
    rw [hnew, ((hsound.holds s _ (Or.inl ⟨c, hc⟩)).built j rfl).1] at hunused
    cases hunused
  | free s hc hfields hnew =>
    rw [hfields]
    exact ⟨hnew, ((hclean.tidy c s _ hc).undoes j rfl).freeproc⟩
  | zombie _ _ hnew =>
    rw [hnew] at hunused
    cases hunused
  | reap hold hfields hnew =>
    rw [hfields]
    exact ⟨hnew, (hclean.zombie j hold).freeproc⟩

section

variable (hclean : Clean table) (hsound : Sound table.locks)
  (hnext : ProcLocks.step table.locks ⟨c, choice⟩ = some next)
include hclean hsound hnext

/-- A zombie holds no files. -/
theorem Clean.zombie_lock (j : Slot) (hzombie : (next.slot j).state = .ZOMBIE) :
    ((table.carry choice (table.locks.cpu c)).fields j).Closed := by
  have htouch := Table.carry_touch hnext j
  have hold : (table.locks.slot j).state = .ZOMBIE ∨ table.locks.cpu c = .run j .exitZombie := by
    rcases (step_moved hsound hnext).edit with
      hslot | ⟨m, pc, k, p, hrun, -, hslot, hedit⟩
    · rw [hslot] at hzombie
      exact Or.inl hzombie
    by_cases hjk : j = k
    · subst hjk
      rw [hslot, update_self] at hzombie
      rcases hedit.zombie_old hzombie with hold | ⟨rfl, rfl⟩
      · exact Or.inl hold
      · rcases hrun with hc | ⟨_, hpc⟩
        · exact Or.inr hc
        · cases hpc
    · rw [hslot, update_of_ne hjk] at hzombie
      exact Or.inl hzombie
  rcases hold with hold | hc
  · exact htouch.closed (by rw [hold]; simp) (hclean.zombie j hold)
  · refine htouch.closed ?_ ((hclean.tidy c j _ hc).exiting rfl)
    rw [hsound.phase c j _ hc]
    exact Pc.phase_ne_unused _

/-- What other processes rely on about their files stays. -/
theorem Clean.tidy_lock {d : Cpu} (hd : table.locks.cpu d = .run s pc) :
    pc.Tidy (table.carry choice (table.locks.cpu c)).fields s := by
  have htidy := hclean.tidy d s pc hd
  refine ⟨fun hexiting => ?_, fun k hundoes => ?_⟩
  · refine (Table.carry_touch hnext s).closed ?_ (htidy.exiting hexiting)
    rw [hsound.phase d s pc hd]
    exact Pc.phase_ne_unused _
  · refine (Table.carry_touch hnext k).closed ?_ (htidy.undoes k hundoes)
    rw [((hsound.holds s pc (Or.inl ⟨d, hd⟩)).built k (Pc.builds_of_undoes hundoes)).1]
    simp

end

/-- A scheduler switches to a process where that left off. -/
theorem sched_resumes (hnext : step state ⟨c, choice⟩ = some next)
    (hsched : ∀ s pc, state.cpu c ≠ .run s pc)
    (hc : next.cpu c = .run s pc) : ∃ saved, pc = .resumed saved := by
  cases hbefore : state.cpu c with
  | schedScan k =>
    simp only [step, hbefore] at hnext
    obtain ⟨hcpu, -, -⟩ := acquire_eq_some hnext
    rw [hcpu, update_self] at hc
    cases hc
  | schedHave k =>
    simp only [step, hbefore] at hnext
    split at hnext
    · cases hnext
      simp only [State.goto, update_self, Control.run.injEq] at hc
      exact ⟨_, hc.2.symm⟩
    · cases hnext
      simp [State.release] at hc
  | schedBack k =>
    simp only [step, hbefore, Option.some.injEq] at hnext
    subst hnext
    simp [State.release] at hc
  | run s' pc' => exact absurd hbefore (hsched s' pc')

theorem Clean.lock (hclean : Clean table) (hsound : Sound table.locks)
    (hnext : ProcLocks.step table.locks ⟨c, choice⟩ = some next)
    (hexit : choice ≠ .start .exit) (hkills : KillsLive table (c, .lock choice)) :
    Clean { table.carry choice (table.locks.cpu c) with locks := next } := by
  refine ⟨fun j hj => hclean.unused_lock hsound hkills hnext j hj,
    fun j hj => hclean.zombie_lock hsound hnext j hj, ?_⟩
  intro d s pc hd
  change next.cpu d = .run s pc at hd
  obtain ⟨control, hsteps⟩ := step_steps hnext
  by_cases hdc : d = c
  · subst hdc
    cases hc : table.locks.cpu d with
    | run s₀ pc₀ =>
      have hpc : stepPc table.locks d s₀ pc₀ choice = some next := by
        simpa only [ProcLocks.step, hc] using hnext
      rcases stepPc_leads hpc with hback | ⟨pc', hpc', hleads⟩
      · rw [hback] at hd
        cases hd
      rw [hpc'] at hd
      cases hd
      have htidy := hclean.tidy_lock hsound hnext hc
      rw [← hc]
      refine ⟨fun hexiting => ?_, fun k hundoes => ?_⟩
      · rcases hleads.exiting hexiting with hold | hstart
        · exact htidy.exiting hold
        · exact absurd hstart hexit
      rcases hleads.undoes k hundoes with hold | ⟨rfl, hgo, hstart⟩
      · exact htidy.undoes k hold
      have hclose : ((table.carry choice (table.locks.cpu d)).fields
          k) = (table.fields k).close := by
        rw [hc]
        cases choice with
        | go => exact absurd rfl hgo
        | start call => exact absurd rfl (hstart call)
        | _ => exact update_self ..
      rw [hclose]
      exact ⟨rfl, rfl⟩
    | _ =>
      obtain ⟨saved, rfl⟩ := sched_resumes hnext (by simp [hc]) hd
      exact ⟨by rintro ⟨⟩, by rintro _ ⟨⟩⟩
  · rw [hsteps.cpu, update_of_ne hdc] at hd
    exact hclean.tidy_lock hsound hnext hd

omit [DecidableEq Cpu] in
/-- The fields of a slot that nobody is about to free may change. -/
theorem Clean.set {table : Table Cpu} {k : Slot} {change : Fields → Fields} (hclean : Clean table)
    (hunused : (table.locks.slot k).state ≠ .UNUSED)
    (hzombie : (table.locks.slot k).state ≠ .ZOMBIE)
    (hexiting : ∀ d s pc, table.locks.cpu d = .run s pc → pc.exiting = true → s ≠ k)
    (hundoes : ∀ d s pc, table.locks.cpu d = .run s pc → pc.undoes ≠ some k) :
    Clean (table.set k change) := by
  have hother : ∀ {j}, j ≠ k → (table.set k change).fields j =
      table.fields j := fun hjk => update_of_ne hjk _ _
  refine ⟨fun j hj => ?_, fun j hj => ?_, fun d s pc hd => ?_⟩
  · have hjk : j ≠ k := by
      rintro rfl
      exact hunused hj
    rw [hother hjk]
    exact hclean.unused j hj
  · have hjk : j ≠ k := by
      rintro rfl
      exact hzombie hj
    rw [hother hjk]
    exact hclean.zombie j hj
  · have htidy := hclean.tidy d s pc hd
    refine ⟨fun hexit => ?_, fun j hj => ?_⟩
    · rw [hother (hexiting d s pc hd hexit)]
      exact htidy.exiting hexit
    have hjk : j ≠ k := by
      rintro rfl
      exact hundoes d s pc hd hj
    rw [hother hjk]
    exact htidy.undoes j hj

omit [DecidableEq Cpu] in
/-- A process may change its own fields between calls. -/
theorem Clean.own {change : Fields → Fields} (hclean : Clean table) (hsound : Sound table.locks)
    (hc : table.locks.cpu c = .run s .user) : Clean (table.set s change) := by
  have hrunning : (table.locks.slot s).state = .RUNNING :=
    hsound.phase c s _ hc
  refine hclean.set (by rw [hrunning]; simp) (by rw [hrunning]; simp) ?_ ?_
  · rintro d s' pc hd hexit rfl
    obtain rfl := hsound.alone d c s' pc _ hd hc
    rw [hc] at hd
    cases hd
    cases hexit
  · intro d s' pc hd hundoes
    have hused := ((hsound.holds s' pc (Or.inl ⟨d, hd⟩)).built s (Pc.builds_of_undoes hundoes)).1
    rw [hrunning] at hused
    cases hused

theorem Table.step_clean {next : Table Cpu} {event : Cpu × Act}
    (hclean : Clean table) (hgood : table.Good) (hkills : KillsLive table event)
    (hstep : table.step event = some next) : Clean next := by
  obtain ⟨c, act⟩ := event
  have hsound := hgood.sound
  cases act with
  | lock choice =>
    simp only [Table.step] at hstep
    split at hstep
    · cases hstep
    next hexit =>
      obtain ⟨locks, hlocks, rfl⟩ := Option.map_eq_some_iff.mp hstep
      exact hclean.lock hsound hlocks hexit hkills
  | exit status =>
    simp only [Table.step] at hstep
    split at hstep
    next s hc =>
      obtain ⟨locks, hlocks, rfl⟩ := Option.map_eq_some_iff.mp hstep
      simp only [ProcLocks.step, hc, stepPc, Call.entry, true_and] at hlocks
      split at hlocks
      · cases hlocks
        have hset : Clean (table.set s .close) := hclean.own hsound hc
        refine ⟨hset.unused, hset.zombie, fun d s' pc hd => ?_⟩
        change update table.locks.cpu c (.run s .exitAcquire) d = _ at hd
        by_cases hdc : d = c
        · subst hdc
          rw [update_self] at hd
          cases hd
          refine ⟨fun _ => ?_, by rintro _ ⟨⟩⟩
          change (update table.fields s _ s).Closed
          rw [update_self]
          exact ⟨rfl, rfl⟩
        · rw [update_of_ne hdc] at hd
          exact hset.tidy d s' pc hd
      · cases hlocks
    next => cases hstep
  | exec sz =>
    simp only [Table.step] at hstep
    split at hstep
    next s hc =>
      cases hstep
      exact hclean.own hsound hc
    next => cases hstep
  | setFd fd isOpen =>
    simp only [Table.step] at hstep
    split at hstep
    next s hc =>
      cases hstep
      exact hclean.own hsound hc
    next => cases hstep
  | build sz ofile cwd =>
    simp only [Table.step] at hstep
    split at hstep
    next s k hc =>
      cases hstep
      have hat : table.locks.At s (.restoreBuild k) := Or.inl ⟨c, hc⟩
      have hused := ((hsound.holds s _ hat).built k rfl).1
      refine hclean.set (by rw [hused]; simp) (by rw [hused]; simp) ?_ ?_
      · rintro d s' pc hd hexit rfl
        have hrunning := hsound.phase d s' pc hd
        rw [hused, Pc.phase_of_exiting hexit] at hrunning
        cases hrunning
      · intro d s' pc hd hundoes
        have heq : s' = s := hsound.builder s' s pc _ k (Or.inl ⟨d, hd⟩) hat
          (Pc.builds_of_undoes hundoes) rfl
        subst heq
        obtain rfl := hsound.alone d c s' pc _ hd hc
        rw [hc] at hd
        cases hd
        cases hundoes
    next => cases hstep

omit [DecidableEq Cpu] in
theorem Table.boot_clean : Clean (Table.boot : Table Cpu) := by
  refine ⟨fun k hk => ?_, fun k hk => ?_, nofun⟩
  · by_cases hinit : k = initproc
    · subst hinit
      simp [Table.boot, State.boot] at hk
    · simp [Table.boot, State.boot, hinit]
  · by_cases hinit : k = initproc
    · subst hinit
      simp [Table.boot, State.boot] at hk
    · simp [Table.boot, State.boot, hinit, ProcSlot.unused] at hk

theorem run_clean {events : List (Cpu × Act)}
    (hmeets : RunMeets Table.step KillsLive Table.boot events)
    (hrun : run Table.step Table.boot events = some table) : Clean table ∧ table.Good := by
  refine @run_invariant _ _ _ _ (fun table => Clean table ∧ table.Good) ?_ _ _
    _ ⟨Table.boot_clean, Table.boot_good⟩ hmeets hrun
  rintro table event next ⟨hclean, hgood⟩ hkills hstep
  exact ⟨Table.step_clean hclean hgood hkills hstep, Table.step_good hgood hstep⟩

/-- As long as `kkill` finds live processes only (and `kill(0)` no slot), in every
state that any interleaving reaches: a slot that is UNUSED is all zero, so
that `allocproc` finds it all zero; and `kkill` changes at most one slot, which
is live and the only one with the pid it was given, and whose state changes only
if it sleeps. -/
theorem slots_recycled_clean {events : List (Cpu × Act)} {table : Table Cpu}
    (hmeets : RunMeets Table.step KillsLive Table.boot events)
    (hrun : run Table.step Table.boot events = some table) :
    (∀ k, (table.locks.slot k).state = .UNUSED →
      table.locks.slot k = ⟨.UNUSED, .none, false, 0, none, .dead⟩ ∧
        table.fields k = ⟨0, 0, false, false, fun _ => false, false⟩) ∧
    (∀ k, (table.locks.slot k).state = .UNUSED → (table.locks.alloc k).slot k =
        ⟨.USED, .none, false, table.locks.nextpid, none, .forkret⟩ ∧
        (table.fields k).alloc = ⟨0, 0, true, true, fun _ => false, false⟩) ∧
    ∀ c s k pid choice next, table.locks.cpu c = .run s (.killHave k pid) →
      KillsLive table (c, .lock choice) → table.step (c, .lock choice) = some next →
      next.locks.slot = table.locks.slot ∨ (next.locks.slot = update table.locks.slot k
            (table.locks.slot k).kill ∧
          next.locks.cpu c = .run s .user ∧ (table.locks.slot k).state.Live ∧
          ((table.locks.slot k).pid : Int) = pid ∧
          (∀ j, (table.locks.slot j).state ≠ .UNUSED →
            ((table.locks.slot j).pid : Int) = pid → j = k) ∧
          ((next.locks.slot k).state ≠ (table.locks.slot k).state →
            (table.locks.slot k).state = .SLEEPING)) := by
  obtain ⟨hclean, hgood⟩ := run_clean hmeets hrun
  refine ⟨hclean.unused, fun k hk => ?_, ?_⟩
  · obtain ⟨hslot, hfields⟩ := hclean.unused k hk
    rw [hfields]
    refine ⟨?_, rfl⟩
    simp [State.alloc, State.edit, hslot, ProcSlot.unused]
  · intro c s k pid choice next hc hkills hstep
    simp only [Table.step] at hstep
    split at hstep
    · cases hstep
    obtain ⟨locks, hlocks, rfl⟩ := Option.map_eq_some_iff.mp hstep
    simp only [ProcLocks.step, hc, stepPc] at hlocks
    split at hlocks
    next hpid =>
      cases hlocks
      have hlive := hkills.found hc hpid
      refine Or.inr ⟨rfl, update_self .., hlive, hpid, ?_, ?_⟩
      · intro j hj hsame
        exact hgood.sound.distinct j k hj hlive.ne_unused (Int.ofNat.inj (hsame.trans hpid.symm))
      intro hchanged
      apply Classical.byContradiction
      intro hawake
      apply hchanged
      change (update table.locks.slot k _ k).state = _
      rw [update_self]
      exact if_neg hawake
    next =>
      cases hlocks
      exact Or.inl rfl

/-- The first process forks and calls `kill` for its child, up to the child's
slot. -/
def killChild : List (Fin 2 × Act) :=
  lockActs (steps 0 3 ++ [⟨0, .start .fork⟩] ++ steps 0 8 ++ [⟨0, .start (.kill 2)⟩] ++ steps 0 3)

/-- A child exits and is waited for; another one, which is live, is killed. -/
theorem slots_recycled_clean_afterWait :
    (RunMeets Table.step KillsLive Table.boot forkExitWait ∧
      ∃ table, run Table.step Table.boot forkExitWait = some table ∧
        (table.locks.slot ⟨1, by decide⟩).state = .UNUSED ∧ table.locks.slot ⟨1, by decide⟩ =
          ⟨.UNUSED, .none, false, 0, none, .dead⟩) ∧
    RunMeets Table.step KillsLive Table.boot killChild ∧
      ∃ table next, run Table.step Table.boot killChild = some table ∧
        table.step (0, .lock .go) = some next ∧ next.locks.slot ≠ table.locks.slot ∧
        (table.locks.slot ⟨1, by decide⟩).state.Live := by
  refine ⟨?_, ?_⟩
  · have hmeets : RunMeets Table.step KillsLive Table.boot forkExitWait := by
      decide +kernel
    have hseen : ∃ table ∈ run Table.step Table.boot forkExitWait,
        (table.locks.slot ⟨1, by decide⟩).state = .UNUSED := by
      decide +kernel
    obtain ⟨table, hrun, hunused⟩ := hseen
    exact ⟨hmeets, table, hrun, hunused, ((slots_recycled_clean hmeets hrun).1 _ hunused).1⟩
  · have hmeets : RunMeets Table.step KillsLive Table.boot killChild := by
      decide +kernel
    have hseen : ∃ table ∈ run Table.step Table.boot killChild,
        table.locks.cpu 0 = .run initproc (.killHave ⟨1, by decide⟩ 2) ∧
        KillsLive table (0, .lock .go) ∧ (table.locks.slot ⟨1, by decide⟩).killed = false ∧
        ∃ next ∈ table.step (0, .lock .go), (next.locks.slot ⟨1, by decide⟩).killed = true := by
      decide +kernel
    obtain ⟨table, hrun, hc, hkills, hbefore, next, hstep, hafter⟩ := hseen
    have hchanged : next.locks.slot ≠ table.locks.slot := by
      intro hsame
      rw [hsame, hbefore] at hafter
      cases hafter
    obtain ⟨-, -, hkill⟩ := slots_recycled_clean hmeets hrun
    rcases hkill 0 _ _ _ _ _ hc hkills hstep with hsame | ⟨-, -, hlive, -⟩
    · exact absurd hsame hchanged
    · exact ⟨hmeets, table, next, hrun, hstep, hchanged, hlive⟩

/-- The first process calls `kill(0)`. -/
def killZero : List (Fin 2 × Act) :=
  lockActs (steps 0 3 ++ [⟨0, .start (.kill 0)⟩] ++ steps 0 4)

/-- `kill(0)` marks the first free slot, and the process that gets the slot
next starts killed. -/
theorem kill_zero_marks_free_slot : ∃ table, run Table.step Table.boot killZero = some table ∧
      (table.locks.slot ⟨1, by decide⟩).state = .UNUSED ∧
      (table.locks.slot ⟨1, by decide⟩).killed = true ∧ ∃ later, run Table.step table
          (lockActs (⟨0, .start .fork⟩ :: steps 0 8)) = some later ∧
        (later.locks.slot ⟨1, by decide⟩).state = .RUNNABLE ∧
        (later.locks.slot ⟨1, by decide⟩).killed = true := by
  have hseen : ∃ table ∈ run Table.step Table.boot killZero,
      (table.locks.slot ⟨1, by decide⟩).state = .UNUSED ∧
      (table.locks.slot ⟨1, by decide⟩).killed = true ∧
      ∃ later ∈ run Table.step table (lockActs (⟨0, .start .fork⟩ :: steps 0 8)),
        (later.locks.slot ⟨1, by decide⟩).state = .RUNNABLE ∧
        (later.locks.slot ⟨1, by decide⟩).killed = true := by
    decide +kernel
  exact hseen

end ProcLocks

end CkptKernel
