/-
Lock order of the process table.  `wait_lock` comes before every `p->lock`;
the only path that takes it while holding one is the end of `restore_proc`.
-/
import Mathlib.Data.Fintype.Basic
import CkptKernel.ProcLocks

namespace CkptKernel

namespace ProcLocks

open Machine
open Function (update update_of_ne update_self)

variable {Cpu : Type} [DecidableEq Cpu]

/-- What a step does to the locks: nothing, one acquire or one release. -/
inductive Move (state next : State Cpu) (c : Cpu) (control : Control) : Prop
  | stay (howner : next.owner = state.owner)
      (hheld : ∀ lock, lock ∈ control.held ↔ lock ∈ (state.cpu c).held)
  | take (lock : Lock) (hfree : state.owner lock = none)
      (howner : next.owner = update state.owner lock (some c))
      (hheld : ∀ other, other ∈ control.held ↔ other = lock ∨ other ∈ (state.cpu c).held)
  | drop (lock : Lock) (hmem : lock ∈ (state.cpu c).held)
      (howner : next.owner = update state.owner lock none)
      (hheld : ∀ other, other ∈ control.held ↔ other ∈ (state.cpu c).held ∧ other ≠ lock)

/-- `restore_proc` stands between `acquire(&np->lock)` and
`acquire(&wait_lock)`. -/
def Control.InWindow : Control → Prop
  | .run _ (.restoreWait _) => True
  | _ => False

/-- `restore_proc` is about to enter that window. -/
def Control.EntersWindow : Control → Prop
  | .run _ (.restoreLock _) => True
  | _ => False

/-- `kexit` or `kwait` holds `wait_lock`, under which both go on to acquire
process locks. -/
def Control.Sweeps : Control → Prop
  | .run _ (.exitReparent _) => True
  | .run _ .exitSelf => True
  | .run _ .exitZombie => True
  | .run _ (.waitScan _ _) => True
  | .run _ (.waitChild _) => True
  | .run _ (.waitHave _) => True
  | .run _ .waitDone => True
  | .run _ .waitKilled => True
  | .run _ .waitKilledHave => True
  | .run _ .waitSleep => True
  | .run _ .waitSleepHave => True
  | .run _ (.wakeScan _ _ (.reparent _)) => True
  | .run _ (.wakeScan _ _ .exit) => True
  | .run _ (.wakeHave _ _ (.reparent _)) => True
  | .run _ (.wakeHave _ _ .exit) => True
  | _ => False

/-- `kexit` or `kwait` is about to acquire `wait_lock`. -/
def Control.EntersSweep : Control → Prop
  | .run _ .exitAcquire => True
  | .run _ .waitAcquire => True
  | _ => False

instance : DecidablePred Control.InWindow := by
  intro control
  cases control with
  | run s pc => cases pc <;> first | exact isTrue trivial | exact isFalse id
  | _ => exact isFalse id

instance : DecidablePred Control.EntersWindow := by
  intro control
  cases control with
  | run s pc => cases pc <;> first | exact isTrue trivial | exact isFalse id
  | _ => exact isFalse id

instance : DecidablePred Control.EntersSweep := by
  intro control
  cases control with
  | run s pc => cases pc <;> first | exact isTrue trivial | exact isFalse id
  | _ => exact isFalse id

instance : DecidablePred Control.Sweeps := by
  intro control
  cases control with
  | run s pc =>
    cases pc with
    | wakeScan k chan ret =>
      cases ret <;> first | exact isTrue trivial | exact isFalse id
    | wakeHave k chan ret =>
      cases ret <;> first | exact isTrue trivial | exact isFalse id
    | _ => first | exact isTrue trivial | exact isFalse id
  | _ => exact isFalse id

/-- The window and the sweeps are entered only from the point before them. -/
def Control.Follows (before control : Control) : Prop :=
  (control.InWindow → before.EntersWindow) ∧ (control.Sweeps → before.Sweeps ∨ before.EntersSweep)

/-- All a step can do: one CPU moves, and its move is a lock move. -/
structure Steps (state next : State Cpu) (c : Cpu) (control : Control) : Prop where
  cpu : next.cpu = update state.cpu c control
  move : Move state next c control
  follows : (state.cpu c).Follows control

section Steps

variable {state base next : State Cpu} {c : Cpu} {before control : Control}

theorem acquire_steps {lock : Lock} (hnext : base.acquire c lock control = some next)
    (hbefore : state.cpu c = before) (hcpu : base.cpu = state.cpu)
    (howner : base.owner = state.owner)
    (hheld : ∀ other, other ∈ control.held ↔ other = lock ∨ other ∈ before.held)
    (hfollows : before.Follows control) : Steps state next c control := by
  subst hbefore
  unfold State.acquire at hnext
  cases hfree : base.owner lock with
  | some _ => simp [hfree] at hnext
  | none =>
    simp only [hfree, Option.some.injEq] at hnext
    subst hnext
    exact ⟨by simp [hcpu], .take lock (howner ▸ hfree) (by simp [howner]) hheld, hfollows⟩

theorem release_steps {lock : Lock} (hnext : some (base.release c lock control) = some next)
    (hbefore : state.cpu c = before) (hcpu : base.cpu = state.cpu)
    (howner : base.owner = state.owner) (hmem : lock ∈ before.held)
    (hheld : ∀ other, other ∈ control.held ↔ other ∈ before.held ∧ other ≠ lock)
    (hfollows : before.Follows control) : Steps state next c control := by
  subst hbefore
  cases hnext
  exact ⟨by simp [State.release, hcpu],
    .drop lock hmem (by simp [State.release, howner]) hheld, hfollows⟩

theorem goto_steps (hnext : some (base.goto c control) = some next)
    (hbefore : state.cpu c = before) (hcpu : base.cpu = state.cpu)
    (howner : base.owner = state.owner) (hheld : ∀ lock, lock ∈ control.held ↔ lock ∈ before.held)
    (hfollows : before.Follows control) : Steps state next c control := by
  subst hbefore
  cases hnext
  exact ⟨by simp [State.goto, hcpu], .stay (by simp [State.goto, howner]) hheld, hfollows⟩

end Steps

theorem scanFrom_cases (k : Nat) (body : Slot → Pc) (done : Pc) :
    (∃ next, scanFrom k body done = body next) ∨ scanFrom k body done = done := by
  unfold scanFrom
  split
  · exact Or.inl ⟨_, rfl⟩
  · exact Or.inr rfl

theorem wakeFrom_cases (self : Slot) (k : Nat) (chan : Chan) (ret : WakeRet) :
    (∃ next, wakeFrom self k chan ret = .wakeScan next chan ret) ∨
      wakeFrom self k chan ret = ret.pc :=
  scanFrom_cases _ _ _

theorem wakeFrom_held (s self : Slot) (k : Nat) (chan : Chan)
    (ret : WakeRet) : (wakeFrom self k chan ret).held s = ret.held := by
  rcases wakeFrom_cases self k chan ret with ⟨next, heq⟩ | heq
  · rw [heq]
    rfl
  rw [heq]
  cases ret with
  | resume r => cases r <;> rfl
  | reparent next => rfl
  | exit => rfl

theorem wakeFrom_not_window (s self : Slot) (k : Nat) (chan : Chan)
    (ret : WakeRet) : ¬ (Control.run s (wakeFrom self k chan ret)).InWindow := by
  rcases wakeFrom_cases self k chan ret with ⟨next, heq⟩ | heq
  · rw [heq]
    exact id
  rw [heq]
  cases ret with
  | resume r => cases r <;> exact id
  | reparent next => exact id
  | exit => exact id

variable {s : Slot}

/-- `wakeup` sweeps under `wait_lock` only for `kexit`. -/
theorem wakeFrom_sweeps {self : Slot} {k : Nat} {chan : Chan} {r : Resume} :
    ¬ (Control.run s (wakeFrom self k chan (.resume r))).Sweeps := by
  rcases wakeFrom_cases self k chan (.resume r) with ⟨next, heq⟩ | heq
  · rw [heq]
    exact id
  · rw [heq]
    cases r <;> exact id

theorem follows_wakeFrom {self : Slot} {k : Nat} {chan : Chan} {ret : WakeRet} {before : Control}
    (hsweeps : before.Sweeps ∨ ∃ r, ret = .resume r) :
    before.Follows (.run s (wakeFrom self k chan ret)) := by
  refine ⟨fun hin => (wakeFrom_not_window _ _ _ _ _ hin).elim, fun hin => ?_⟩
  rcases hsweeps with hbefore | ⟨r, rfl⟩
  · exact Or.inl hbefore
  · exact (wakeFrom_sweeps hin).elim

variable {pc : Pc}

/-- A call starts with no lock held and outside the window and the sweeps. -/
theorem entry_fits {r : Resume} {call : Call} (hentry : call.entry s r = some pc)
    (before : Control) : pc.held s = [] ∧ before.Follows (.run s pc) := by
  cases call with
  | sleep chan =>
    cases hentry
    exact ⟨rfl, False.elim, False.elim⟩
  | yield =>
    cases hentry
    exact ⟨rfl, False.elim, False.elim⟩
  | wakeup chan =>
    cases hentry
    exact ⟨wakeFrom_held _ _ _ _ _, follows_wakeFrom (Or.inr ⟨r, rfl⟩)⟩
  | _ =>
    simp only [Call.entry] at hentry
    split at hentry
    · cases hentry
      exact ⟨rfl, False.elim, False.elim⟩
    · cases hentry

/-- A scan that goes on or returns holds no lock. -/
theorem scan_fits (k : Nat) {body : Slot → Pc} (hbody : ∀ next, (body next).held s = [] ∧
      ∀ before : Control, before.Follows (.run s (body next)))
    (before : Control) : (scanFrom k body .user).held s = [] ∧
      before.Follows (.run s (scanFrom k body .user)) := by
  rcases scanFrom_cases k body .user with ⟨next, heq⟩ | heq
  · rw [heq]
    exact ⟨(hbody next).1, (hbody next).2 before⟩
  · rw [heq]
    exact ⟨rfl, False.elim, False.elim⟩

theorem resume_fits (s : Slot) (r : Resume) (before : Control) :
    r.pc.held s = [] ∧ before.Follows (.run s r.pc) := by
  cases r <;> exact ⟨rfl, False.elim, False.elim⟩

variable {state next : State Cpu} {c : Cpu} {lock : Lock}

/-- Releasing the only lock held leads to a point that holds none. -/
theorem release_last_steps {base : State Cpu} {before : Control}
    (hnext : some (base.release c lock (.run s pc)) = some next) (hbefore : state.cpu c = before)
    (hcpu : base.cpu = state.cpu) (howner : base.owner = state.owner) (hheld : before.held = [lock])
    (hfits : pc.held s = [] ∧ before.Follows (.run s pc)) : Steps state next c (.run s pc) := by
  refine release_steps hnext hbefore hcpu howner (by simp [hheld]) ?_ hfits.2
  intro other
  have hempty : (Control.run s pc).held = [] := hfits.1
  rw [hempty, hheld]
  simp

theorem stepPc_steps {choice : Choice} (hc : state.cpu c = .run s pc)
    (hnext : stepPc state c s pc choice = some next) : ∃ control, Steps state next c control := by
  cases pc <;> simp only [stepPc] at hnext
  case forkScan | forkParent | forkRun | restoreScan | restoreBad |
      restoreLock | restoreWait | exitAcquire | exitSelf | waitAcquire |
      waitChild | waitKilled | waitSleep | killScan | sleepAcquire |
      yieldAcquire =>
    refine ⟨_, acquire_steps hnext hc rfl rfl ?_ ?_⟩
    · simp [Control.held, Pc.held, or_comm]
    · simp [Control.Follows, Control.InWindow, Control.Sweeps,
        Control.EntersWindow, Control.EntersSweep]
  case wakeScan k chan ret =>
    refine ⟨_, acquire_steps hnext hc rfl rfl ?_ ?_⟩
    · simp [Control.held, Pc.held]
    · cases ret <;> simp [Control.Follows, Control.InWindow, Control.Sweeps]
  case forkLink | forkReady | restoreFree | restoreLink | restoreReady |
      exitZombie | waitDone | waitSleepHave =>
    refine ⟨_, release_steps hnext hc rfl rfl ?_ ?_ ?_⟩
    · simp [Control.held, Pc.held]
    · intro other
      cases other <;> simp [Control.held, Pc.held]
    · simp [Control.Follows, Control.InWindow, Control.Sweeps]
  case user =>
    cases choice with
    | start call =>
      obtain ⟨pc, hentry, hgoto⟩ := Option.map_eq_some_iff.mp hnext
      obtain ⟨hheld, hfollows⟩ := entry_fits hentry (.run s .user)
      refine ⟨_, goto_steps (congrArg some hgoto) hc rfl rfl ?_ hfollows⟩
      simp only [Control.held, hheld]
      simp [Pc.held]
    | _ => cases hnext
  case restoreBuild k =>
    cases choice with
    | start call =>
      obtain ⟨pc, hentry, hgoto⟩ := Option.map_eq_some_iff.mp hnext
      obtain ⟨hheld, hfollows⟩ := entry_fits hentry (.run s (.restoreBuild k))
      refine ⟨_, goto_steps (congrArg some hgoto) hc rfl rfl ?_ hfollows⟩
      simp only [Control.held, hheld]
      simp [Pc.held]
    | _ =>
      refine ⟨_, goto_steps hnext hc rfl rfl ?_ ⟨False.elim, False.elim⟩⟩
      simp [Control.held, Pc.held]
  case forkHave k =>
    split at hnext
    · split at hnext <;>
        exact ⟨_, release_last_steps hnext hc rfl rfl rfl ⟨rfl, False.elim, False.elim⟩⟩
    · exact ⟨_, release_last_steps hnext hc rfl rfl rfl (scan_fits _ (fun _ =>
        ⟨rfl, fun _ => ⟨False.elim, False.elim⟩⟩) _)⟩
  case restoreHave k =>
    split at hnext
    · cases choice with
      | noMem =>
        refine ⟨_, goto_steps hnext hc rfl rfl ?_ ⟨False.elim, False.elim⟩⟩
        simp [Control.held, Pc.held]
      | _ =>
        exact ⟨_, release_last_steps hnext hc rfl rfl rfl ⟨rfl, False.elim, False.elim⟩⟩
    · exact ⟨_, release_last_steps hnext hc rfl rfl rfl (scan_fits _ (fun _ =>
        ⟨rfl, fun _ => ⟨False.elim, False.elim⟩⟩) _)⟩
  case restorePanic k => cases hnext
  case exitReparent k =>
    split at hnext
    · split at hnext
      · refine ⟨_, goto_steps hnext hc rfl rfl ?_ (follows_wakeFrom (Or.inl trivial))⟩
        simp only [Control.held, wakeFrom_held]
        simp [Pc.held, WakeRet.held]
      · refine ⟨_, goto_steps hnext hc rfl rfl ?_ ⟨False.elim, fun _ => Or.inl trivial⟩⟩
        simp [Control.held, Pc.held]
    · refine ⟨_, goto_steps hnext hc rfl rfl ?_ (follows_wakeFrom (Or.inl trivial))⟩
      simp only [Control.held, wakeFrom_held]
      simp [Pc.held, WakeRet.held]
  case waitScan k havekids =>
    split at hnext <;> split at hnext <;>
    · refine ⟨_, goto_steps hnext hc rfl rfl ?_ ⟨False.elim, fun _ => Or.inl trivial⟩⟩
      simp [Control.held, Pc.held]
  case waitHave k =>
    have hheld : ∀ other, other ∈ [Lock.wait] ↔
        other ∈ (Control.run s (.waitHave k)).held ∧ other ≠ .proc k := by
      intro other
      cases other <;> simp [Control.held, Pc.held]
    split at hnext
    · split at hnext <;>
        exact ⟨_, release_steps hnext hc rfl rfl (by simp [Control.held, Pc.held]) hheld
          ⟨False.elim, fun _ => Or.inl trivial⟩⟩
    · exact ⟨_, release_steps hnext hc rfl rfl (by simp [Control.held, Pc.held]) hheld
        ⟨False.elim, fun _ => Or.inl trivial⟩⟩
  case waitKilledHave =>
    refine ⟨_, release_steps hnext hc rfl rfl
      (by simp [Control.held, Pc.held]) ?_ ⟨?_, fun _ => Or.inl trivial⟩⟩
    · intro other
      split <;> cases other <;> simp [Control.held, Pc.held]
    · split <;> exact False.elim
  case exitSched | waitSched | sleepSched | yieldSched =>
    refine ⟨_, goto_steps hnext hc rfl rfl ?_ ⟨False.elim, False.elim⟩⟩
    simp [Control.held, Pc.held]
  case killHave k pid =>
    split at hnext
    · exact ⟨_, release_last_steps hnext hc rfl rfl rfl ⟨rfl, False.elim, False.elim⟩⟩
    · exact ⟨_, release_last_steps hnext hc rfl rfl rfl (scan_fits _ (fun _ =>
        ⟨rfl, fun _ => ⟨False.elim, False.elim⟩⟩) _)⟩
  case wakeHave k chan ret =>
    refine ⟨_, release_steps hnext hc rfl rfl
      (by simp [Control.held, Pc.held]) ?_ (follows_wakeFrom ?_)⟩
    · intro other
      simp only [Control.held, wakeFrom_held]
      cases ret <;> cases other <;> simp [Pc.held, WakeRet.held]
    · cases ret with
      | resume r => exact Or.inr ⟨r, rfl⟩
      | reparent next => exact Or.inl trivial
      | exit => exact Or.inl trivial
  case resumed saved =>
    cases saved with
    | dead => cases hnext
    | forkret =>
      exact ⟨_, release_last_steps hnext hc rfl rfl rfl ⟨rfl, False.elim, False.elim⟩⟩
    | sleep r =>
      exact ⟨_, release_last_steps hnext hc rfl rfl rfl (resume_fits s r _)⟩
    | wait =>
      exact ⟨_, release_last_steps hnext hc rfl rfl rfl ⟨rfl, False.elim, False.elim⟩⟩
    | yield r =>
      exact ⟨_, release_last_steps hnext hc rfl rfl rfl (resume_fits s r _)⟩

/-- A step moves one CPU by one lock move. -/
theorem step_steps {event : Event Cpu} (hnext : step state event = some next) :
    ∃ control, Steps state next event.cpu control := by
  unfold step at hnext
  cases hc : state.cpu event.cpu with
  | schedScan k =>
    simp only [hc] at hnext
    exact ⟨_, acquire_steps hnext hc rfl rfl (by simp [Control.held]) ⟨False.elim, False.elim⟩⟩
  | schedHave k =>
    simp only [hc] at hnext
    split at hnext
    · exact ⟨_, goto_steps hnext hc rfl rfl
        (by simp [Control.held, Pc.held]) ⟨False.elim, False.elim⟩⟩
    · exact ⟨_, release_steps hnext hc rfl rfl (by simp [Control.held])
        (by simp [Control.held]) ⟨False.elim, False.elim⟩⟩
  | schedBack k =>
    simp only [hc] at hnext
    exact ⟨_, release_steps hnext hc rfl rfl (by simp [Control.held])
      (by simp [Control.held]) ⟨False.elim, False.elim⟩⟩
  | run s pc =>
    simp only [hc] at hnext
    exact stepPc_steps hc hnext

/-- `cpu` and `owner` agree: a lock is owned by the one CPU that holds it. -/
def Owned (state : State Cpu) : Prop :=
  ∀ lock c, state.owner lock = some c ↔ lock ∈ (state.cpu c).held

omit [DecidableEq Cpu] in
theorem Owned.unique (howned : Owned state) {d : Cpu} (hc : lock ∈ (state.cpu c).held)
    (hd : lock ∈ (state.cpu d).held) : c = d := by
  have howner := (howned lock c).mpr hc
  rw [(howned lock d).mpr hd] at howner
  exact (Option.some.inj howner).symm

variable {control : Control}

theorem Steps.owned (hsteps : Steps state next c control) (howned : Owned state) : Owned next := by
  obtain ⟨hcpu, hmove, -⟩ := hsteps
  intro other d
  rw [hcpu]
  by_cases hd : d = c
  · subst hd
    rw [update_self]
    cases hmove with
    | stay howner hheld => rw [howner, hheld, howned]
    | take lock hfree howner hheld =>
      rw [howner, hheld]
      by_cases hother : other = lock
      · simp [hother]
      · simp [hother, howned other d]
    | drop lock hmem howner hheld =>
      rw [howner, hheld]
      by_cases hother : other = lock
      · simp [hother]
      · simp [hother, howned other d]
  · rw [update_of_ne hd]
    cases hmove with
    | stay howner hheld => rw [howner, howned]
    | take lock hfree howner hheld =>
      rw [howner]
      by_cases hother : other = lock
      · subst hother
        have hnot : other ∉ (state.cpu d).held := by
          intro hin
          rw [(howned other d).mpr hin] at hfree
          cases hfree
        simp [hnot, Ne.symm hd]
      · simp [hother, howned other d]
    | drop lock hmem howner hheld =>
      rw [howner]
      by_cases hother : other = lock
      · subst hother
        have hnot : other ∉ (state.cpu d).held :=
          fun hin => hd (howned.unique hin hmem)
        simp [hnot]
      · simp [hother, howned other d]

/-- The steps that keep `restore_proc`'s window apart from the sweeps: `kexit`
and `kwait` do not take `wait_lock` while a `restore_proc` stands between its
two acquires, and `restore_proc` does not take `np->lock` for the second time
while one of them holds `wait_lock`. -/
def Apart (state : State Cpu) (event : Event Cpu) : Prop :=
  ((state.cpu event.cpu).EntersWindow → ∀ c, ¬ (state.cpu c).Sweeps) ∧
    ((state.cpu event.cpu).EntersSweep → ∀ c, ¬ (state.cpu c).InWindow)

instance [Fintype Cpu] (state : State Cpu) (event : Event Cpu) : Decidable (Apart state event) :=
  inferInstanceAs (Decidable (_ ∧ _))

/-- No CPU stands in the window while another sweeps. -/
def NoOverlap (state : State Cpu) : Prop :=
  ∀ c d, (state.cpu c).InWindow → ¬ (state.cpu d).Sweeps

theorem Control.not_inWindow_of_sweeps (hsweeps : control.Sweeps) : ¬ control.InWindow := by
  intro hin
  cases control with
  | run s pc => cases pc <;> simp [Control.Sweeps, Control.InWindow] at *
  | _ => exact hin

theorem Steps.noOverlap {event : Event Cpu} (hsteps : Steps state next event.cpu control)
    (hapart : Apart state event) (hno : NoOverlap state) : NoOverlap next := by
  obtain ⟨hcpu, -, hwindow, hsweep⟩ := hsteps
  intro c d
  rw [hcpu]
  by_cases hc : c = event.cpu
  · by_cases hd : d = event.cpu
    · rw [hc, hd, update_self]
      exact fun hin hsweeps => Control.not_inWindow_of_sweeps hsweeps hin
    · rw [hc, update_self, update_of_ne hd]
      exact fun hin => hapart.1 (hwindow hin) d
  · rw [update_of_ne hc]
    by_cases hd : d = event.cpu
    · rw [hd, update_self]
      intro hin hsweeps
      rcases hsweep hsweeps with hbefore | henters
      · exact hno c event.cpu hin hbefore
      · exact hapart.2 henters c hin
    · rw [update_of_ne hd]
      exact hno c d

/-- Position of a lock in the order `proc.c` asks for. -/
def lockRank : Lock → Nat
  | .wait => 0
  | .proc _ => 1

/-- A control point that holds one lock and wants another: either a sweep,
which goes up in the order, or the window, which goes down. -/
theorem Control.wants_of_held {held : Lock}
    (hheld : held ∈ control.held) (hwants : control.wants = some lock) :
    (control.Sweeps ∧ lockRank held < lockRank lock) ∨ (control.InWindow ∧ lock = .wait) := by
  cases control with
  | schedScan k => cases hheld
  | schedHave k => cases hwants
  | schedBack k => cases hwants
  | run s pc =>
    cases pc <;> simp only [Control.wants, Control.held, Pc.wants, Pc.held,
      reduceCtorEq, Option.some.injEq, List.not_mem_nil, List.mem_singleton] at hheld hwants
    case restoreWait k => exact Or.inr ⟨trivial, hwants.symm⟩
    case wakeScan k chan ret =>
      subst hwants
      cases ret <;> simp [WakeRet.held] at hheld <;> subst hheld <;>
        exact Or.inl ⟨trivial, Nat.zero_lt_one⟩
    all_goals
      subst hheld hwants
      exact Or.inl ⟨trivial, Nat.zero_lt_one⟩

/-- A CPU that spins while holding `wait_lock` sweeps. -/
theorem Control.sweeps_of_wait (hheld : Lock.wait ∈ control.held) (hwants : control.wants ≠ none) :
    control.Sweeps := by
  obtain ⟨lock, hlock⟩ := Option.ne_none_iff_exists'.mp hwants
  rcases Control.wants_of_held hheld hlock with ⟨hsweeps, -⟩ | ⟨hin, -⟩
  · exact hsweeps
  · cases control with
    | run s pc => cases pc <;> simp [InWindow, Control.held, Pc.held] at *
    | _ => exact hin.elim

omit [DecidableEq Cpu] in
theorem ordered_of_noOverlap (howned : Owned state) (hno : NoOverlap state) :
    LockOrder.Ordered (fun c lock => state.owner lock = some c)
      (fun c => (state.cpu c).wants) lockRank := by
  intro c d lock held hwants hlock hwaits hheld
  rcases Control.wants_of_held ((howned held c).mp hheld) hwants with
    ⟨-, hrank⟩ | ⟨hin, rfl⟩
  · exact hrank
  · exact (hno c d hin (Control.sweeps_of_wait ((howned .wait d).mp hlock) hwaits)).elim

omit [DecidableEq Cpu] in
theorem boot_owned : Owned (State.boot : State Cpu) := by
  intro lock c
  simp [State.boot, Control.held]

/-- As long as no `kexit` or `kwait` holds `wait_lock` while a `restore_proc`
stands between `acquire(&np->lock)` and `acquire(&wait_lock)`, no interleaving
on any number of CPUs deadlocks on the process locks. -/
theorem not_deadlock_of_apart {events : List (Event Cpu)} {state : State Cpu}
    (hmeets : RunMeets step Apart State.boot events)
    (hrun : run step State.boot events = some state) : ¬ Deadlock state := by
  have hinv : Owned state ∧ NoOverlap state := by
    refine @run_invariant _ _ _ _ (fun state => Owned state ∧ NoOverlap state)
      ?_ _ _ _ ⟨boot_owned, fun _ _ hin => hin.elim⟩ hmeets hrun
    intro state event next ⟨howned, hno⟩ hapart hnext
    obtain ⟨control, hsteps⟩ := step_steps hnext
    exact ⟨hsteps.owned howned, hsteps.noOverlap hapart hno⟩
  exact (ordered_of_noOverlap hinv.1 hinv.2).not_deadlock

/-- `count` steps of one CPU without a choice to make. -/
def steps (cpu : Fin 2) (count : Nat) : List (Event (Fin 2)) :=
  List.replicate count ⟨cpu, .go⟩

/-- CPU 0 runs the first process, which forks; CPU 1 picks up the child. -/
def forkOntoTwoCpus : List (Event (Fin 2)) :=
  steps 0 3 ++ steps 1 2 ++ [⟨0, .start .fork⟩] ++ steps 0 8 ++ steps 1 3

/-- The parent restores a process up to `acquire(&np->lock)`. -/
def restoreToWindow : List (Event (Fin 2)) :=
  ⟨0, .start .restore⟩ :: steps 0 8

/-- The child exits and sweeps up to the slot the parent restores into. -/
def exitToSweep : List (Event (Fin 2)) :=
  ⟨1, .start .exit⟩ :: steps 1 68

/-- The restore finishes before the child exits, which sweeps to the end. -/
theorem not_deadlock_restoreThenExit : ∃ state, run step State.boot
        (forkOntoTwoCpus ++ restoreToWindow ++ steps 0 3 ++ exitToSweep) =
          some state ∧ (state.cpu 1).Sweeps ∧ ¬ Deadlock state := by
  refine ⟨_, rfl, ?_, @not_deadlock_of_apart (Fin 2) _
    (forkOntoTwoCpus ++ restoreToWindow ++ steps 0 3 ++ exitToSweep) _
    (by decide +kernel) rfl⟩
  decide +kernel

/-- CPU 0 holds `proc[2].lock` and spins on `wait_lock`; CPU 1 holds
`wait_lock` and spins on `proc[2].lock`. -/
theorem restore_exit_deadlock : ∃ state, run step State.boot
        (forkOntoTwoCpus ++ restoreToWindow ++ exitToSweep) = some state ∧ Deadlock state := by
  refine ⟨_, rfl, 0, .tail (b := 1) (.single ⟨.wait, ?_, ?_⟩)
    ⟨.proc ⟨2, by decide⟩, ?_, ?_⟩⟩ <;> rfl

end ProcLocks

end CkptKernel
