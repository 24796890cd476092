/-
The process table under any interleaving of the locked sections of fork,
restore, exit, wait, kill, sleep and wakeup: who builds a slot, who is the
parent of whom, and which states a slot can go through.
-/
import CkptKernel.ProcLockOrder

namespace CkptKernel

/-- A process that has started and not exited. -/
def ProcState.Live (state : ProcState) : Prop :=
  state = .RUNNABLE ∨ state = .RUNNING ∨ state = .SLEEPING

instance ProcState.decidableLive (state : ProcState) : Decidable state.Live :=
  inferInstanceAs (Decidable (_ ∨ _))

variable {state : ProcState}

theorem ProcState.Live.ne_unused (hlive : state.Live) : state ≠ .UNUSED := by
  rintro rfl
  exact absurd hlive (by decide)

theorem ProcState.Live.ne_used (hlive : state.Live) : state ≠ .USED := by
  rintro rfl
  exact absurd hlive (by decide)

theorem ProcState.Live.ne_zombie (hlive : state.Live) : state ≠ .ZOMBIE := by
  rintro rfl
  exact absurd hlive (by decide)

namespace ProcLocks

open Machine
open Function (update_of_ne update_self)

/-- The slot that code to be resumed is building. -/
def Resume.builds : Resume → Option Slot
  | .user => none
  | .build k => some k

def WakeRet.builds : WakeRet → Option Slot
  | .resume r => r.builds
  | _ => none

def Saved.builds : Saved → Option Slot
  | .sleep r => r.builds
  | .yield r => r.builds
  | _ => none

/-- The slot that `kfork` or `restore_proc` has allocated and not yet made
runnable. -/
def Pc.builds : Pc → Option Slot
  | .forkParent k => some k
  | .forkLink k => some k
  | .forkRun k => some k
  | .forkReady k => some k
  | .restoreBuild k => some k
  | .restoreBad k => some k
  | .restoreFree k => some k
  | .restoreLock k => some k
  | .restoreWait k => some k
  | .restoreLink k => some k
  | .restoreReady k => some k
  | .restorePanic k => some k
  | .sleepAcquire _ r => r.builds
  | .sleepSched r => r.builds
  | .yieldAcquire r => r.builds
  | .yieldSched r => r.builds
  | .wakeScan _ _ ret => ret.builds
  | .wakeHave _ _ ret => ret.builds
  | .resumed saved => saved.builds
  | _ => none

/-- That slot has its parent already. -/
def Pc.linked : Pc → Bool
  | .forkRun _ => true
  | .forkReady _ => true
  | .restoreReady _ => true
  | _ => false

def WakeRet.cleared : WakeRet → Option Nat
  | .resume _ => none
  | .reparent next => some next
  | .exit => some NPROC

/-- How many slots `kexit` has gone through in `reparent`. -/
def Pc.cleared : Pc → Option Nat
  | .exitReparent k => some k
  | .wakeScan _ _ ret => ret.cleared
  | .wakeHave _ _ ret => ret.cleared
  | .exitSelf => some NPROC
  | .exitZombie => some NPROC
  | _ => none

/-- The child that `kwait` looks at. -/
def Pc.child : Pc → Option Slot
  | .waitChild k => some k
  | .waitHave k => some k
  | _ => none

def Pc.exiting : Pc → Bool
  | .exitAcquire => true
  | .exitReparent _ => true
  | .wakeScan _ _ ret => ret.cleared.isSome
  | .wakeHave _ _ ret => ret.cleared.isSome
  | .exitSelf => true
  | .exitZombie => true
  | _ => false

/-- The state of a process that is running on a CPU. -/
def Pc.phase : Pc → ProcState
  | .exitSched => .ZOMBIE
  | .waitSched => .SLEEPING
  | .sleepSched _ => .SLEEPING
  | .yieldSched _ => .RUNNABLE
  | _ => .RUNNING

/-- What process `s` relies on at a control point. -/
structure Pc.Holds (pc : Pc) (slot : Slot → ProcSlot) (s : Slot) : Prop where
  built : ∀ k, pc.builds = some k → (slot k).state = .USED ∧
    ((slot k).parent = none ↔ pc.linked = false)
  cleared : ∀ n, pc.cleared = some n → ∀ k : Slot, k.val < n → (slot k).parent ≠ some s
  child : ∀ k, pc.child = some k → (slot k).parent = some s
  exiting : pc.exiting = true → s ≠ initproc

variable {pc : Pc} {slot : Slot → ProcSlot} {s : Slot}

/-- A point that relies on nothing but the slot it builds. -/
theorem Pc.Holds.only (hbuilt : ∀ k, pc.builds = some k →
      (slot k).state = .USED ∧ ((slot k).parent = none ↔ pc.linked = false))
    (hcleared : pc.cleared = none) (hchild : pc.child = none)
    (hexiting : pc.exiting = false) : pc.Holds slot s := by
  refine ⟨hbuilt, fun n hn => ?_, fun k hk => ?_, fun hexit => ?_⟩
  · rw [hcleared] at hn
    cases hn
  · rw [hchild] at hk
    cases hk
  · rw [hexiting] at hexit
    cases hexit

/-- A point that relies on nothing. -/
theorem Pc.Holds.plain (hbuilds : pc.builds = none) (hcleared : pc.cleared = none)
    (hchild : pc.child = none) (hexiting : pc.exiting = false) : pc.Holds slot s := by
  refine .only (fun k hk => ?_) hcleared hchild hexiting
  rw [hbuilds] at hk
  cases hk

/-- Going on with the same slot to build. -/
theorem Pc.Holds.building {pc' : Pc} (hholds : pc.Holds slot s) (hbuilds : pc'.builds = pc.builds)
    (hlinked : pc'.linked = pc.linked) (hcleared : pc'.cleared = none)
    (hchild : pc'.child = none) (hexiting : pc'.exiting = false) : pc'.Holds slot s :=
  .only (fun k hk => hlinked ▸ hholds.built k (hbuilds ▸ hk)) hcleared hchild hexiting

/-- Going on with `kexit`, which has gone through `n` slots. -/
theorem Pc.Holds.exits {n : Nat} (hbuilds : pc.builds = none) (hcleared : pc.cleared = some n)
    (hchild : pc.child = none) (hs : s ≠ initproc)
    (hnone : ∀ k : Slot, k.val < n → (slot k).parent ≠ some s) : pc.Holds slot s := by
  refine ⟨fun k hk => ?_, fun n' hn => ?_, fun k hk => ?_, fun _ => hs⟩
  · rw [hbuilds] at hk
    cases hk
  · rw [hcleared] at hn
    cases hn
    exact hnone
  · rw [hchild] at hk
    cases hk

variable {Cpu : Type}

/-- Process `s` runs at `pc`, or it is switched out and will go on there. -/
def State.At (state : State Cpu) (s : Slot) (pc : Pc) : Prop :=
  (∃ c, state.cpu c = .run s pc) ∨ ((∀ c pc', state.cpu c ≠ .run s pc') ∧
      pc = .resumed (state.slot s).saved)

/-- What holds of the process table between any two lock steps. -/
structure Sound (state : State Cpu) : Prop where
  owned : Owned state
  alone : ∀ c d s pc pc', state.cpu c = .run s pc → state.cpu d = .run s pc' → c = d
  phase : ∀ c s pc, state.cpu c = .run s pc → (state.slot s).state = pc.phase
  holds : ∀ s pc, state.At s pc → pc.Holds state.slot s
  builder : ∀ s s' pc pc' k, state.At s pc → state.At s' pc' →
    pc.builds = some k → pc'.builds = some k → s = s'
  init : (state.slot initproc).state.Live
  parent : ∀ k q, (state.slot k).parent = some q → (state.slot q).state.Live
  linked : ∀ k, k ≠ initproc → (state.slot k).state ≠ .UNUSED →
    (state.slot k).state ≠ .USED → (state.slot k).parent ≠ none
  free : ∀ k, (state.slot k).state = .UNUSED → (state.slot k).parent = none
  pid : ∀ k, (state.slot k).state ≠ .UNUSED → (state.slot k).pid < state.nextpid
  distinct : ∀ j k, (state.slot j).state ≠ .UNUSED →
    (state.slot k).state ≠ .UNUSED → (state.slot j).pid = (state.slot k).pid → j = k

/-- All that a step by a process `m` at `pc` can do to slot `k`. -/
inductive Edit (state : State Cpu) (m : Slot) (pc : Pc) (k : Slot)
    (p : ProcSlot) : Prop
  | same (hstate : p.state = (state.slot k).state)
      (hparent : p.parent = (state.slot k).parent)
      (hpid : p.state ≠ .UNUSED → p.pid = (state.slot k).pid)
      (hfree : p.state = .UNUSED → p = state.slot k ∨ p = .unused ∨
        ∃ pid, pc = .killHave k pid ∧ ((state.slot k).pid : Int) = pid)
  | live (hold : (state.slot k).state.Live) (hnew : p.state.Live)
      (hparent : p.parent = (state.slot k).parent)
      (hpid : p.pid = (state.slot k).pid)
  | alloc (hold : (state.slot k).state = .UNUSED) (hnew : p.state = .USED)
      (hparent : p.parent = (state.slot k).parent)
      (hpid : p.pid = state.nextpid)
  | link (q : Slot) (hq : q = m ∨ q = initproc)
      (hlive : (state.slot q).state.Live) (hbuilds : pc.builds = some k)
      (hlinked : pc.linked = false) (hstate : p.state = (state.slot k).state)
      (hparent : p.parent = some q) (hpid : p.pid = (state.slot k).pid)
  | ready (hbuilds : pc.builds = some k) (hlinked : pc.linked = true)
      (hnew : p.state = .RUNNABLE)
      (hparent : p.parent = (state.slot k).parent)
      (hpid : p.pid = (state.slot k).pid)
  | drop (hpc : pc = .restoreFree k) (hnew : p = .unused)
  | adopt (hold : (state.slot k).parent = some m)
      (hparent : p.parent = some initproc)
      (hstate : p.state = (state.slot k).state)
      (hpid : p.pid = (state.slot k).pid)
  | zombie (hpc : pc = .exitZombie) (hk : k = m)
      (hold : (state.slot k).state.Live)
      (hnew : p.state = .ZOMBIE) (hparent : p.parent = (state.slot k).parent)
      (hpid : p.pid = (state.slot k).pid) (hinit : m ≠ initproc)
      (hnone : ∀ j, (state.slot j).parent ≠ some m)
  | reap (hpc : pc = .waitHave k) (hold : (state.slot k).state = .ZOMBIE)
      (hparent : (state.slot k).parent = some m) (hnew : p = .unused)

section Edit

variable {state : State Cpu} {m : Slot} {pc : Pc} {k : Slot} {p : ProcSlot}

/-- Only an exit ends a life, and only of a process without children. -/
theorem Edit.live_of_live (hedit : Edit state m pc k p)
    (hbuilt : ∀ j, pc.builds = some j → (state.slot j).state = .USED)
    (hold : (state.slot k).state.Live) : p.state.Live ∨ (k = m ∧ m ≠ initproc ∧
      p.parent = (state.slot k).parent ∧ ∀ j, (state.slot j).parent ≠ some m) := by
  cases hedit with
  | same hstate => exact Or.inl (hstate ▸ hold)
  | live _ hnew => exact Or.inl hnew
  | alloc hunused => exact absurd hunused hold.ne_unused
  | link q _ _ hbuilds => exact absurd (hbuilt k hbuilds) hold.ne_used
  | ready hbuilds => exact absurd (hbuilt k hbuilds) hold.ne_used
  | drop hpc => exact absurd (hbuilt k (hpc ▸ rfl)) hold.ne_used
  | adopt _ _ hstate => exact Or.inl (hstate ▸ hold)
  | zombie _ hk _ _ hparent _ hinit hnone =>
    exact Or.inr ⟨hk, hinit, hparent, hnone⟩
  | reap _ hzombie => exact absurd hzombie hold.ne_zombie

variable (hedit : Edit state m pc k p) (hsound : Sound state)
include hedit hsound

/-- A new parent is alive. -/
theorem Edit.parent {q : Slot} (hq : p.parent = some q) : (state.slot q).state.Live := by
  cases hedit with
  | same _ hparent => exact hsound.parent k q (hparent ▸ hq)
  | live _ _ hparent => exact hsound.parent k q (hparent ▸ hq)
  | alloc _ _ hparent => exact hsound.parent k q (hparent ▸ hq)
  | link q' _ hlive _ _ _ hparent =>
    rw [hparent] at hq
    cases hq
    exact hlive
  | ready _ _ _ hparent => exact hsound.parent k q (hparent ▸ hq)
  | drop _ hnew =>
    subst hnew
    cases hq
  | adopt _ hparent =>
    rw [hparent] at hq
    cases hq
    exact hsound.init
  | zombie _ _ _ _ hparent => exact hsound.parent k q (hparent ▸ hq)
  | reap _ _ _ hnew =>
    subst hnew
    cases hq

/-- A process that has started has a parent. -/
theorem Edit.linked (hat : state.At m pc) (hk : k ≠ initproc) (hunused : p.state ≠ .UNUSED)
    (hused : p.state ≠ .USED) : p.parent ≠ none := by
  have hlive : (state.slot k).state.Live → (state.slot k).parent ≠ none :=
    fun hlive => hsound.linked k hk hlive.ne_unused hlive.ne_used
  cases hedit with
  | same hstate hparent =>
    rw [hparent]
    exact hsound.linked k hk (hstate ▸ hunused) (hstate ▸ hused)
  | live hold _ hparent =>
    rw [hparent]
    exact hlive hold
  | alloc _ hnew => exact absurd hnew hused
  | link q _ _ _ _ _ hparent => simp [hparent]
  | ready hbuilds hlinked _ hparent =>
    rw [hparent, Ne, ((hsound.holds m pc hat).built k hbuilds).2, hlinked]
    simp
  | drop _ hnew =>
    subst hnew
    exact absurd rfl hunused
  | adopt _ hparent => simp [hparent]
  | zombie _ _ hold _ hparent =>
    rw [hparent]
    exact hlive hold
  | reap _ _ _ hnew =>
    subst hnew
    exact absurd rfl hunused

/-- A free slot has no parent. -/
theorem Edit.free (hat : state.At m pc) (hunused : p.state = .UNUSED) : p.parent = none := by
  cases hedit with
  | same hstate hparent =>
    rw [hparent]
    exact hsound.free k (hstate ▸ hunused)
  | live _ hnew => exact absurd hunused hnew.ne_unused
  | alloc _ hnew =>
    rw [hnew] at hunused
    cases hunused
  | link q _ _ hbuilds _ hstate =>
    rw [hstate, ((hsound.holds m pc hat).built k hbuilds).1] at hunused
    cases hunused
  | ready _ _ hnew =>
    rw [hnew] at hunused
    cases hunused
  | drop _ hnew =>
    subst hnew
    rfl
  | adopt hold _ hstate =>
    rw [hsound.free k (hstate ▸ hunused)] at hold
    cases hold
  | zombie _ _ _ hnew =>
    rw [hnew] at hunused
    cases hunused
  | reap _ _ _ hnew =>
    subst hnew
    rfl

/-- A slot in use has the pid it had, or a new one. -/
theorem Edit.pid (hat : state.At m pc) (hunused : p.state ≠ .UNUSED) : p.pid = state.nextpid ∨
      ((state.slot k).state ≠ .UNUSED ∧ p.pid = (state.slot k).pid) := by
  have hused : pc.builds = some k → (state.slot k).state ≠ .UNUSED := by
    intro hbuilds
    rw [((hsound.holds m pc hat).built k hbuilds).1]
    simp
  cases hedit with
  | same hstate _ hpid => exact Or.inr ⟨hstate ▸ hunused, hpid hunused⟩
  | live hold _ _ hpid => exact Or.inr ⟨hold.ne_unused, hpid⟩
  | alloc _ _ _ hpid => exact Or.inl hpid
  | link q _ _ hbuilds _ _ _ hpid => exact Or.inr ⟨hused hbuilds, hpid⟩
  | ready hbuilds _ _ _ hpid => exact Or.inr ⟨hused hbuilds, hpid⟩
  | drop _ hnew =>
    subst hnew
    exact absurd rfl hunused
  | adopt _ _ hstate hpid => exact Or.inr ⟨hstate ▸ hunused, hpid⟩
  | zombie _ _ hold _ _ hpid => exact Or.inr ⟨hold.ne_unused, hpid⟩
  | reap _ _ _ hnew =>
    subst hnew
    exact absurd rfl hunused

end Edit

theorem Pc.exiting_of_cleared {n : Nat} (hcleared : pc.cleared = some n) : pc.exiting = true := by
  cases pc <;> simp_all [Pc.cleared, Pc.exiting]

/-- What one process relies on is left alone by every other. -/
theorem Edit.holds {state : State Cpu} {m k : Slot} {pc' : Pc} {p : ProcSlot}
    (hedit : Edit state m pc k p) (hsound : Sound state) (hat : state.At m pc)
    (hother : state.At s pc') (hne : s ≠ m) : pc'.Holds (Function.update state.slot k p) s := by
  have hholds := hsound.holds s pc' hother
  have hmine := hsound.holds m pc hat
  have hbuilder : ∀ j, pc'.builds = some j → pc.builds ≠ some j :=
    fun j hj hm => hne (hsound.builder s m pc' pc j hother hat hj hm)
  refine ⟨fun j hj => ?_, fun n hn j hjn => ?_, fun j hj => ?_, hholds.exiting⟩
  · have hold := hholds.built j hj
    by_cases hjk : j = k
    · subst hjk
      rw [update_self]
      cases hedit with
      | same hstate hparent => rwa [hstate, hparent]
      | live hlive => exact absurd hold.1 hlive.ne_used
      | alloc hunused =>
        rw [hold.1] at hunused
        cases hunused
      | link q _ _ hbuilds => exact absurd hbuilds (hbuilder j hj)
      | ready hbuilds => exact absurd hbuilds (hbuilder j hj)
      | drop hpc => exact absurd (hpc ▸ rfl) (hbuilder j hj)
      | adopt hparent hnew hstate =>
        refine ⟨hstate.trans hold.1, ?_⟩
        rw [← hold.2, hnew, hparent]
        simp
      | zombie _ _ hlive => exact absurd hold.1 hlive.ne_used
      | reap _ hzombie =>
        rw [hold.1] at hzombie
        cases hzombie
    · rwa [update_of_ne hjk]
  · have hold := hholds.cleared n hn j hjn
    have hinit : s ≠ initproc := hholds.exiting (Pc.exiting_of_cleared hn)
    by_cases hjk : j = k
    · subst hjk
      rw [update_self]
      cases hedit with
      | same _ hparent => rwa [hparent]
      | live _ _ hparent => rwa [hparent]
      | alloc _ _ hparent => rwa [hparent]
      | link q hq _ _ _ _ hparent =>
        rw [hparent]
        intro heq
        cases heq
        exact hq.elim hne hinit
      | ready _ _ _ hparent => rwa [hparent]
      | drop _ hnew => simp [hnew, ProcSlot.unused]
      | adopt _ hparent =>
        rw [hparent]
        intro heq
        cases heq
        exact hinit rfl
      | zombie _ _ _ _ hparent => rwa [hparent]
      | reap _ _ _ hnew => simp [hnew, ProcSlot.unused]
    · rwa [update_of_ne hjk]
  · have hold := hholds.child j hj
    by_cases hjk : j = k
    · subst hjk
      rw [update_self]
      have hnone : pc.builds = some j → pc.linked = false → False := by
        intro hbuilds hlinked
        rw [(hmine.built j hbuilds).2.mpr hlinked] at hold
        cases hold
      cases hedit with
      | same _ hparent => rwa [hparent]
      | live _ _ hparent => rwa [hparent]
      | alloc _ _ hparent => rwa [hparent]
      | link q _ _ hbuilds hlinked => exact (hnone hbuilds hlinked).elim
      | ready _ _ _ hparent => rwa [hparent]
      | drop hpc => exact (hnone (hpc ▸ rfl) (hpc ▸ rfl)).elim
      | adopt hparent =>
        rw [hold] at hparent
        exact absurd (Option.some.inj hparent) hne
      | zombie _ _ _ _ hparent => rwa [hparent]
      | reap _ _ hparent =>
        rw [hold] at hparent
        exact absurd (Option.some.inj hparent) hne
    · rwa [update_of_ne hjk]

/-- Points at which a slot can be that nobody runs: it is free or new. -/
def Pc.Idle (pc : Pc) : Prop :=
  pc = .resumed .forkret ∨ pc = .resumed .dead

theorem Pc.Idle.builds (hidle : pc.Idle) : pc.builds = none := by
  rcases hidle with rfl | rfl <;> rfl

theorem Pc.Idle.holds (hidle : pc.Idle) (slot : Slot → ProcSlot) (s : Slot) : pc.Holds slot s := by
  rcases hidle with rfl | rfl <;> exact .plain rfl rfl rfl rfl

/-- One process moves from `pc` to `pc'` and edits one slot. -/
theorem Sound.edits {state next : State Cpu} {m k : Slot} {pc pc' : Pc} {p : ProcSlot}
    (hsound : Sound state) (hat : state.At m pc) (hpoints : ∀ s pc'', next.At s pc'' →
      (s = m ∧ pc'' = pc') ∨ (s ≠ m ∧ state.At s pc'') ∨ pc''.Idle)
    (hslot : next.slot = Function.update state.slot k p) (hedit : Edit state m pc k p)
    (hnextpid : state.nextpid ≤ next.nextpid) (hpid : p.state ≠ .UNUSED → p.pid < next.nextpid)
    (hholds : pc'.Holds next.slot m)
    (hbuilds : ∀ j, pc'.builds = some j → pc.builds = some j ∨ (state.slot j).state = .UNUSED)
    (howned : Owned next)
    (halone : ∀ c d s pc pc', next.cpu c = .run s pc → next.cpu d = .run s pc' → c = d)
    (hphase : ∀ c s pc, next.cpu c = .run s pc → (next.slot s).state = pc.phase) : Sound next := by
  have hmine := hsound.holds m pc hat
  have hbuilt : ∀ j, pc.builds = some j → (state.slot j).state = .USED :=
    fun j hj => (hmine.built j hj).1
  -- the pid of a slot in use, before and after
  have hpids : ∀ j, (next.slot j).state ≠ .UNUSED → (j = k ∧ (next.slot j).pid = state.nextpid ∧
        (next.slot j).pid < next.nextpid) ∨ ((state.slot j).state ≠ .UNUSED ∧
        (next.slot j).pid = (state.slot j).pid) := by
    intro j hj
    by_cases hjk : j = k
    · subst hjk
      rw [hslot, update_self] at hj ⊢
      rcases hedit.pid hsound hat hj with hnew | hold
      · exact Or.inl ⟨rfl, hnew, hpid hj⟩
      · exact Or.inr hold
    · rw [hslot, update_of_ne hjk] at hj ⊢
      exact Or.inr ⟨hj, rfl⟩
  refine ⟨howned, halone, hphase, ?_, ?_, ?_, ?_, ?_, ?_, ?_, ?_⟩
  · intro s pc'' hs
    rcases hpoints s pc'' hs with ⟨rfl, rfl⟩ | ⟨hne, hs⟩ | hidle
    · exact hholds
    · rw [hslot]
      exact hedit.holds hsound hat hs hne
    · exact hidle.holds _ _
  · intro s s' q q' j hs hs' hq hq'
    rcases hpoints s q hs with ⟨rfl, rfl⟩ | ⟨hne, hs⟩ | hidle
    · rcases hpoints s' q' hs' with ⟨rfl, rfl⟩ | ⟨hne', hs'⟩ | hidle'
      · rfl
      · rcases hbuilds j hq with hold | hunused
        · exact hsound.builder _ _ _ _ j hat hs' hold hq'
        · rw [((hsound.holds s' q' hs').built j hq').1] at hunused
          cases hunused
      · rw [hidle'.builds] at hq'
        cases hq'
    · rcases hpoints s' q' hs' with ⟨rfl, rfl⟩ | ⟨hne', hs'⟩ | hidle'
      · rcases hbuilds j hq' with hold | hunused
        · exact hsound.builder _ _ _ _ j hs hat hq hold
        · rw [((hsound.holds s q hs).built j hq).1] at hunused
          cases hunused
      · exact hsound.builder s s' q q' j hs hs' hq hq'
      · rw [hidle'.builds] at hq'
        cases hq'
    · rw [hidle.builds] at hq
      cases hq
  · rw [hslot]
    by_cases hk : initproc = k
    · rw [← hk, update_self]
      rcases hedit.live_of_live hbuilt (hk ▸ hsound.init) with
        hlive | ⟨hkm, hinit, -⟩
      · exact hlive
      · exact absurd (hk.trans hkm).symm hinit
    · rw [update_of_ne hk]
      exact hsound.init
  · intro j q hq
    have hlive : (state.slot q).state.Live := by
      rw [hslot] at hq
      by_cases hjk : j = k
      · subst hjk
        rw [update_self] at hq
        exact hedit.parent hsound hq
      · rw [update_of_ne hjk] at hq
        exact hsound.parent j q hq
    rw [hslot] at hq ⊢
    by_cases hqk : q = k
    · subst hqk
      rw [update_self]
      rcases hedit.live_of_live hbuilt hlive with
        hnew | ⟨rfl, -, hparent, hnone⟩
      · exact hnew
      exfalso
      by_cases hjq : j = q
      · subst hjq
        rw [update_self, hparent] at hq
        exact hnone j hq
      · rw [update_of_ne hjq] at hq
        exact hnone j hq
    · rwa [update_of_ne hqk]
  · rw [hslot]
    exact (Function.forall_update_iff state.slot fun j (q : ProcSlot) =>
      j ≠ initproc → q.state ≠ .UNUSED → q.state ≠ .USED → q.parent ≠ none).mpr
        ⟨hedit.linked hsound hat, fun j _ => hsound.linked j⟩
  · rw [hslot]
    exact (Function.forall_update_iff state.slot fun _ (q : ProcSlot) =>
      q.state = .UNUSED → q.parent = none).mpr ⟨hedit.free hsound hat, fun j _ => hsound.free j⟩
  · intro j hj
    rcases hpids j hj with ⟨-, -, hlt⟩ | ⟨hold, hsame⟩
    · exact hlt
    · have := hsound.pid j hold
      omega
  · intro i j hi hj heq
    rcases hpids i hi with ⟨hik, hnew, -⟩ | ⟨hold, hsame⟩
    · rcases hpids j hj with ⟨hjk, -⟩ | ⟨hold', hsame'⟩
      · rw [hik, hjk]
      · have := hsound.pid j hold'
        omega
    · rcases hpids j hj with ⟨hjk, hnew, -⟩ | ⟨hold', hsame'⟩
      · have := hsound.pid i hold
        omega
      · exact hsound.distinct i j hold hold' (by omega)

end ProcLocks

end CkptKernel
