/-
Every step of the process table machine keeps the table sound.  A CPU goes on
with its process, switches it out or in, or stays in its scheduler; at most one
slot changes, in one of the ways that `Edit` lists.
-/
import CkptKernel.ProcTable

namespace CkptKernel

open Function (update update_eq_self update_of_ne update_self)

namespace ProcLocks

variable {Cpu : Type}

variable {pc : Pc} {s : Slot}

/-- Code that is about to switch out, or is switched in, holds `p->lock`. -/
theorem Pc.held_of_phase (hphase : pc.phase ≠ .RUNNING) : Lock.proc s ∈ pc.held s := by
  cases pc <;> simp_all [Pc.phase, Pc.held]

variable {state : State Cpu} {c : Cpu}

/-- With `p->lock` held, a process that another CPU runs is RUNNING. -/
theorem Sound.elsewhere (hsound : Sound state) {d : Cpu}
    {k : Slot} (hheld : Lock.proc k ∈ (state.cpu c).held)
    (hd : state.cpu d = .run k pc) (hne : d ≠ c) : (state.slot k).state = .RUNNING := by
  by_contra hstate
  rw [hsound.phase d k pc hd] at hstate
  refine hne (hsound.owned.unique ?_ hheld)
  rw [hd]
  exact Pc.held_of_phase hstate

theorem Pc.phase_ne_unused (pc : Pc) : pc.phase ≠ .UNUSED := by
  cases pc <;> simp [Pc.phase]

theorem Pc.phase_ne_used (pc : Pc) : pc.phase ≠ .USED := by
  cases pc <;> simp [Pc.phase]

variable [DecidableEq Cpu]

/-- A step of CPU `c` keeps the table sound and edits at most one slot. -/
structure Moved (state next : State Cpu) (c : Cpu) : Prop where
  sound : Sound next
  edit : next.slot = state.slot ∨ ∃ m pc k p,
    (state.cpu c = .run m pc ∨ ∃ saved, pc = .resumed saved) ∧
    state.At m pc ∧ next.slot = update state.slot k p ∧ Edit state m pc k p
  nextpid : state.nextpid ≤ next.nextpid

section Moves

variable {state next : State Cpu} {c : Cpu} {s k : Slot} {pc pc' : Pc}
  {p : ProcSlot}

/-- A slot that another CPU may be running keeps its state. -/
def Calm (state : State Cpu) (c : Cpu) (k : Slot) (p : ProcSlot) : Prop :=
  ∀ d pc, d ≠ c → state.cpu d = .run k pc → p.state = (state.slot k).state

omit [DecidableEq Cpu] in
/-- Nobody runs a slot that is not in use yet. -/
theorem Sound.calm_new (hsound : Sound state)
    (hnew : (state.slot k).state = .UNUSED ∨ (state.slot k).state = .USED) : Calm state c k p := by
  intro d pc _ hd
  have hphase := hsound.phase d k pc hd
  rcases hnew with hnew | hnew
  · exact absurd (hphase.symm.trans hnew) pc.phase_ne_unused
  · exact absurd (hphase.symm.trans hnew) pc.phase_ne_used

omit [DecidableEq Cpu] in
/-- Nobody else runs a slot whose lock is held, unless it is RUNNING. -/
theorem Sound.calm_locked (hsound : Sound state) (hheld : Lock.proc k ∈ (state.cpu c).held)
    (hrunning : (state.slot k).state = .RUNNING → p.state = (state.slot k).state) :
    Calm state c k p :=
  fun _ _ hne hd => hrunning (hsound.elsewhere hheld hd hne)

omit [DecidableEq Cpu] in
/-- No other CPU runs the process that `c` runs. -/
theorem Sound.sole (hsound : Sound state) (hc : state.cpu c = .run s pc)
    (d : Cpu) (q : Pc) (hne : d ≠ c) : state.cpu d ≠ .run s q :=
  fun hd => hne (hsound.alone d c s q pc hd hc)

section Edits

variable {m : Slot} (hsound : Sound state) (howned : Owned next)
  (hslot : next.slot = update state.slot k p) (hedit : Edit state m pc k p)
  (hnextpid : state.nextpid ≤ next.nextpid) (hpid : p.state ≠ .UNUSED → p.pid < next.nextpid)
  (hsaved : k = m ∨ p.saved = (state.slot k).saved ∨ p.saved = .forkret ∨ p.saved = .dead)
  (hcalm : Calm state c k p)
  (hbuilds : ∀ j, pc'.builds = some j → pc.builds = some j ∨ (state.slot j).state = .UNUSED)

include hsound howned hslot hedit hnextpid hpid hsaved hcalm hbuilds

/-- CPU `c` moves process `m` from `pc` to `pc'`, where it runs or from where it
will go on, and edits slot `k`. -/
theorem Sound.moves {control : Control}
    (hwho : state.cpu c = .run m pc ∨ ∃ saved, pc = .resumed saved) (hat : state.At m pc)
    (hsole : ∀ d q, d ≠ c → state.cpu d ≠ .run m q)
    (hbefore : ∀ s q, state.cpu c = .run s q → s = m) (hcpu : next.cpu = update state.cpu c control)
    (hafter : (control = .run m pc' ∧ (next.slot m).state = pc'.phase) ∨
      ((∀ s q, control ≠ .run s q) ∧ pc' = .resumed (next.slot m).saved))
    (hholds : pc'.Holds next.slot m) : Moved state next c := by
  have hothers : ∀ d s q, next.cpu d = .run s q →
      (d = c ∧ s = m ∧ q = pc' ∧ (next.slot m).state = pc'.phase) ∨
        (d ≠ c ∧ s ≠ m ∧ state.cpu d = .run s q) := by
    intro d s q hd
    rw [hcpu] at hd
    by_cases hdc : d = c
    · subst hdc
      rw [update_self] at hd
      rcases hafter with ⟨rfl, hphase⟩ | ⟨hnone, -⟩
      · cases hd
        exact Or.inl ⟨rfl, rfl, rfl, hphase⟩
      · exact absurd hd (hnone s q)
    · rw [update_of_ne hdc] at hd
      refine Or.inr ⟨hdc, ?_, hd⟩
      rintro rfl
      exact hsole d q hdc hd
  refine ⟨hsound.edits hat ?_ hslot hedit hnextpid hpid hholds hbuilds howned
    ?_ ?_, Or.inr ⟨m, pc, k, p, hwho, hat, hslot, hedit⟩, hnextpid⟩
  · rintro s q (⟨d, hd⟩ | ⟨hnone, rfl⟩)
    · rcases hothers d s q hd with ⟨-, rfl, rfl, -⟩ | ⟨-, hne, hd⟩
      · exact Or.inl ⟨rfl, rfl⟩
      · exact Or.inr (Or.inl ⟨hne, Or.inl ⟨d, hd⟩⟩)
    by_cases hs : s = m
    · subst hs
      rcases hafter with ⟨rfl, -⟩ | ⟨-, heq⟩
      · exact absurd (by rw [hcpu, update_self]) (hnone c pc')
      · exact Or.inl ⟨rfl, heq.symm⟩
    have hout : ∀ d q, state.cpu d ≠ .run s q := by
      intro d q hd
      by_cases hdc : d = c
      · exact hs (hbefore s q (hdc ▸ hd))
      · exact hnone d q (by rw [hcpu, update_of_ne hdc, hd])
    rw [hslot]
    by_cases hsk : s = k
    · subst hsk
      rw [update_self]
      rcases hsaved with hks | hsame | hforkret | hdead
      · exact absurd hks hs
      · rw [hsame]
        exact Or.inr (Or.inl ⟨hs, Or.inr ⟨hout, rfl⟩⟩)
      · exact Or.inr (Or.inr (Or.inl (congrArg Pc.resumed hforkret)))
      · exact Or.inr (Or.inr (Or.inr (congrArg Pc.resumed hdead)))
    · rw [update_of_ne hsk]
      exact Or.inr (Or.inl ⟨hs, Or.inr ⟨hout, rfl⟩⟩)
  · intro d e s q q' hd he
    rcases hothers d s q hd with ⟨rfl, rfl, -⟩ | ⟨hdc, hne, hd⟩
    · rcases hothers e s q' he with ⟨rfl, -⟩ | ⟨-, hne, -⟩
      · rfl
      · exact absurd rfl hne
    · rcases hothers e s q' he with ⟨rfl, rfl, -⟩ | ⟨-, -, he⟩
      · exact absurd rfl hne
      · exact hsound.alone d e s q q' hd he
  · intro d s q hd
    rcases hothers d s q hd with ⟨-, rfl, rfl, hphase⟩ | ⟨hdc, -, hd⟩
    · exact hphase
    rw [hslot]
    by_cases hsk : s = k
    · subst hsk
      rw [update_self, hcalm d q hdc hd]
      exact hsound.phase d s q hd
    · rw [update_of_ne hsk]
      exact hsound.phase d s q hd

/-- Process `m` goes on at `pc'` after editing slot `k`. -/
theorem Sound.run (hc : state.cpu c = .run m pc)
    (hcpu : next.cpu = update state.cpu c (.run m pc')) (hphase : (next.slot m).state = pc'.phase)
    (hholds : pc'.Holds next.slot m) : Moved state next c := by
  refine hsound.moves howned hslot hedit hnextpid hpid hsaved hcalm hbuilds (Or.inl hc)
    (Or.inl ⟨c, hc⟩) (hsound.sole hc) ?_ hcpu (Or.inl ⟨rfl, hphase⟩) hholds
  intro s q hs
  rw [hc] at hs
  cases hs
  rfl

end Edits

/-- What is built after a step has been built before. -/
theorem builds_of {new old : Option Slot} (hbuilds : new = none ∨ new = old) (j : Slot)
    (hj : new = some j) : old = some j := by
  rcases hbuilds with hnone | hsame
  · rw [hnone] at hj
    cases hj
  · exact hsame ▸ hj

section Run

variable (hsound : Sound state) (howned : Owned next)
  (hc : state.cpu c = .run s pc)

include hsound hc in
omit [DecidableEq Cpu] in
theorem Sound.used : (state.slot s).state ≠ .UNUSED := by
  rw [hsound.phase c s pc hc]
  exact pc.phase_ne_unused

include hsound howned hc

/-- Process `s` switches to the scheduler and will go on at `saved`. -/
theorem Sound.leave {saved : Saved} (hcpu : next.cpu = update state.cpu c (.schedBack s))
    (hslot : next.slot = update state.slot s { state.slot s with saved := saved })
    (hnextpid : next.nextpid = state.nextpid)
    (hbuilds : saved.builds = none ∨ saved.builds = pc.builds)
    (hlinked : pc.linked = false) : Moved state next c := by
  have hat : state.At s pc := Or.inl ⟨c, hc⟩
  have hused := hsound.used hc
  have hbuilt := builds_of hbuilds
  refine @Sound.moves Cpu _ state next c s pc (.resumed saved)
    { state.slot s with saved := saved } s hsound howned hslot
    (.same rfl rfl (fun _ => rfl) fun hunused => absurd hunused hused)
    hnextpid.ge (fun _ => hnextpid ▸ hsound.pid s hused) (Or.inl rfl)
    (fun _ _ _ _ => rfl) (fun j hj => Or.inl (hbuilt j hj))
    _ (Or.inl hc) hat (hsound.sole hc) ?_ hcpu (Or.inr ⟨nofun, ?_⟩)
    (.only (fun j hj => ?_) rfl rfl rfl)
  · intro s' q hs'
    rw [hc] at hs'
    cases hs'
    rfl
  · rw [hslot, update_self]
  · have hheld := (hsound.holds s pc hat).built j (hbuilt j hj)
    rw [hlinked] at hheld
    rw [hslot]
    by_cases hjs : j = s
    · rw [hjs] at hheld ⊢
      rwa [update_self]
    · rwa [update_of_ne hjs]

variable (hcpu : next.cpu = update state.cpu c (.run s pc'))
include hcpu

/-- Process `s` goes on at `pc'` and no slot changes. -/
theorem Sound.stay (hslot : next.slot = state.slot) (hnextpid : next.nextpid = state.nextpid)
    (hphase : pc'.phase = pc.phase) (hbuilds : pc'.builds = none ∨ pc'.builds = pc.builds)
    (hholds : pc'.Holds state.slot s) : Moved state next c := by
  refine @Sound.run Cpu _ state next c s pc pc' (state.slot s) s hsound howned
    ?_ (.same rfl rfl (fun _ => rfl) fun _ => Or.inl rfl)
    hnextpid.ge (fun hused => hnextpid ▸ hsound.pid s hused) (Or.inl rfl)
    (fun _ _ _ _ => rfl) (fun j hj => Or.inl (builds_of hbuilds j hj)) hc hcpu ?_ (hslot ▸ hholds)
  · rw [hslot, update_eq_self]
  · rw [hslot, hphase]
    exact hsound.phase c s pc hc

end Run

/-- The scheduler switches to process `k`. -/
theorem Sound.enter (hsound : Sound state) (howned : Owned next) (hc : state.cpu c = .schedHave k)
    (hrunnable : (state.slot k).state = .RUNNABLE)
    (hcpu : next.cpu = update state.cpu c (.run k (.resumed (state.slot k).saved)))
    (hslot : next.slot = update state.slot k { state.slot k with state := .RUNNING })
    (hnextpid : next.nextpid = state.nextpid) : Moved state next c := by
  have hbefore : ∀ s q, state.cpu c ≠ .run s q := by
    rw [hc]
    nofun
  -- nobody runs `k`: its lock is held here and it is not RUNNING
  have hout : ∀ d q, state.cpu d ≠ .run k q := by
    intro d q hd
    have hheld : Lock.proc k ∈ (state.cpu c).held := by
      rw [hc]
      exact List.mem_singleton_self _
    have hne : d ≠ c := by
      rintro rfl
      exact hbefore k q hd
    have hstate := hsound.elsewhere hheld hd hne
    rw [hrunnable] at hstate
    cases hstate
  have hat : state.At k (.resumed (state.slot k).saved) :=
    Or.inr ⟨hout, rfl⟩
  have hlive : (state.slot k).state.Live := Or.inl hrunnable
  refine @Sound.moves Cpu _ state next c k _ (.resumed (state.slot k).saved)
    { state.slot k with state := .RUNNING } k hsound howned hslot
    (.live hlive (Or.inr (Or.inl rfl)) rfl rfl) hnextpid.ge
    (fun _ => hnextpid ▸ hsound.pid k hlive.ne_unused) (Or.inl rfl)
    (fun d q _ hd => absurd hd (hout d q)) (fun _ hj => Or.inl hj)
    _ (Or.inr ⟨_, rfl⟩) hat (fun d q _ => hout d q)
    (fun s q hs => absurd hs (hbefore s q)) hcpu (Or.inl ⟨rfl, ?_⟩)
    (.only (fun j hj => ?_) rfl rfl rfl)
  · rw [hslot, update_self]
    rfl
  have hbuilt := (hsound.holds k _ hat).built j hj
  have hjk : j ≠ k := by
    rintro rfl
    exact hlive.ne_used hbuilt.1
  rw [hslot, update_of_ne hjk]
  exact hbuilt

omit [DecidableEq Cpu] in
/-- The scheduler goes on and no process is involved. -/
theorem Sound.idle (hsound : Sound state) (howned : Owned next)
    (hrun : ∀ d s q, next.cpu d = .run s q ↔ state.cpu d = .run s q)
    (hslot : next.slot = state.slot) (hnextpid : next.nextpid = state.nextpid) :
    Moved state next c := by
  have hat : ∀ s q, next.At s q → state.At s q := by
    rintro s q (⟨d, hd⟩ | ⟨hnone, rfl⟩)
    · exact Or.inl ⟨d, (hrun d s q).mp hd⟩
    · refine Or.inr ⟨fun d q hd => hnone d q ((hrun d s q).mpr hd), ?_⟩
      rw [hslot]
  refine ⟨⟨howned, ?_, ?_, ?_, ?_, hslot ▸ hsound.init, hslot ▸ hsound.parent,
    hslot ▸ hsound.linked, hslot ▸ hsound.free, ?_, hslot ▸ hsound.distinct⟩,
    Or.inl hslot, hnextpid.ge⟩
  · intro d e s q q' hd he
    exact hsound.alone d e s q q' ((hrun d s q).mp hd) ((hrun e s q').mp he)
  · intro d s q hd
    rw [hslot]
    exact hsound.phase d s q ((hrun d s q).mp hd)
  · intro s q hs
    rw [hslot]
    exact hsound.holds s q (hat s q hs)
  · intro s s' q q' j hs hs'
    exact hsound.builder s s' q q' j (hat s q hs) (hat s' q' hs')
  · intro j hj
    rw [hnextpid]
    rw [hslot] at hj ⊢
    exact hsound.pid j hj

end Moves

/-- Two points that rely on the same. -/
structure Pc.Alike (pc pc' : Pc) : Prop where
  builds : pc'.builds = pc.builds
  linked : pc'.linked = pc.linked
  cleared : pc'.cleared = pc.cleared
  child : pc'.child = pc.child
  exiting : pc'.exiting = pc.exiting

variable {pc' : Pc}

theorem Pc.Holds.alike {slot : Slot → ProcSlot}
    (hholds : pc.Holds slot s) (halike : pc.Alike pc') : pc'.Holds slot s := by
  obtain ⟨hbuilt, hcleared, hchild, hexiting⟩ := hholds
  refine ⟨?_, ?_, ?_, ?_⟩
  · rw [halike.builds, halike.linked]
    exact hbuilt
  · rw [halike.cleared]
    exact hcleared
  · rw [halike.child]
    exact hchild
  · rw [halike.exiting]
    exact hexiting

/-- Each iteration of `wakeup` relies on what its caller relies on. -/
theorem wakeFrom_alike {ret : WakeRet} (self : Slot) (k : Nat) (chan : Chan)
    (hbuilds : pc.builds = ret.builds) (hlinked : pc.linked = false)
    (hcleared : pc.cleared = ret.cleared) (hchild : pc.child = none)
    (hexiting : pc.exiting = ret.cleared.isSome) : pc.Alike (wakeFrom self k chan ret) := by
  rcases wakeFrom_cases self k chan ret with ⟨next, heq⟩ | heq
  · rw [heq]
    exact ⟨hbuilds.symm, hlinked.symm, hcleared.symm, hchild.symm, hexiting.symm⟩
  rw [heq]
  cases ret with
  | resume r =>
    cases r <;> exact ⟨hbuilds.symm, hlinked.symm, hcleared.symm, hchild.symm, hexiting.symm⟩
  | reparent next => exact ⟨hbuilds.symm, hlinked.symm, hcleared.symm,
      hchild.symm, hexiting.symm⟩
  | exit => exact ⟨hbuilds.symm, hlinked.symm, hcleared.symm,
      hchild.symm, hexiting.symm⟩

theorem wakeFrom_phase (self : Slot) (k : Nat) (chan : Chan) (ret : WakeRet) :
    (wakeFrom self k chan ret).phase = .RUNNING := by
  rcases wakeFrom_cases self k chan ret with ⟨next, heq⟩ | heq
  · rw [heq]
    rfl
  rw [heq]
  cases ret with
  | resume r => cases r <;> rfl
  | reparent next => rfl
  | exit => rfl

/-- A point between calls, or in a scan of the table. -/
structure Pc.Plain (pc : Pc) : Prop where
  builds : pc.builds = none
  cleared : pc.cleared = none
  child : pc.child = none
  exiting : pc.exiting = false
  phase : pc.phase = .RUNNING

theorem Pc.Plain.holds (hplain : pc.Plain) (slot : Slot → ProcSlot) (s : Slot) : pc.Holds slot s :=
  .plain hplain.builds hplain.cleared hplain.child hplain.exiting

theorem Pc.Plain.builds_only (hplain : pc.Plain) {goal : Slot → Prop} (j : Slot)
    (hj : pc.builds = some j) : goal j := by
  rw [hplain.builds] at hj
  cases hj

theorem scanFrom_plain (k : Nat) {body : Slot → Pc}
    (hbody : ∀ next, (body next).Plain) : (scanFrom k body .user).Plain := by
  rcases scanFrom_cases k body .user with ⟨next, heq⟩ | heq
  · rw [heq]
    exact hbody next
  · rw [heq]
    exact ⟨rfl, rfl, rfl, rfl, rfl⟩

/-- A call starts where its caller stands: it relies on what that does. -/
theorem entry_sound {r : Resume} {call : Call}
    {slot : Slot → ProcSlot} (hentry : call.entry s r = some pc) (hholds : r.pc.Holds slot s) :
    pc.phase = .RUNNING ∧ (pc.builds = none ∨ pc.builds = r.builds) ∧ pc.Holds slot s := by
  have hbuilds : r.pc.builds = r.builds := by cases r <;> rfl
  have hlinked : r.pc.linked = false := by cases r <;> rfl
  have hcleared : r.pc.cleared = none := by cases r <;> rfl
  have hchild : r.pc.child = none := by cases r <;> rfl
  have hexiting : r.pc.exiting = false := by cases r <;> rfl
  cases call with
  | sleep chan =>
    cases hentry
    exact ⟨rfl, Or.inr rfl, hholds.building hbuilds.symm hlinked.symm rfl rfl rfl⟩
  | yield =>
    cases hentry
    exact ⟨rfl, Or.inr rfl, hholds.building hbuilds.symm hlinked.symm rfl rfl rfl⟩
  | wakeup chan =>
    cases hentry
    have halike : r.pc.Alike (wakeFrom s 0 chan (.resume r)) :=
      wakeFrom_alike s 0 chan hbuilds hlinked hcleared hchild hexiting
    exact ⟨wakeFrom_phase _ _ _ _, Or.inr (halike.builds.trans hbuilds), hholds.alike halike⟩
  | exit =>
    simp only [Call.entry] at hentry
    split at hentry
    next hcan =>
      cases hentry
      exact ⟨rfl, Or.inl rfl, by rintro _ ⟨⟩, by rintro _ ⟨⟩, by rintro _ ⟨⟩, fun _ => hcan.2⟩
    next => cases hentry
  | _ =>
    simp only [Call.entry] at hentry
    split at hentry
    · cases hentry
      exact ⟨rfl, Or.inl rfl, .plain rfl rfl rfl rfl⟩
    · cases hentry

variable {next : State Cpu}

theorem acquire_eq_some {base : State Cpu} {lock : Lock}
    {control : Control} (hnext : base.acquire c lock control = some next) :
    next.cpu = update base.cpu c control ∧ next.slot = base.slot ∧ next.nextpid = base.nextpid := by
  unfold State.acquire at hnext
  cases howner : base.owner lock with
  | some _ => simp [howner] at hnext
  | none =>
    simp only [howner, Option.some.injEq] at hnext
    subst hnext
    exact ⟨rfl, rfl, rfl⟩

section Slots

variable {state next : State Cpu} {c : Cpu} {s k : Slot} {pc pc' : Pc}
  {p : ProcSlot} (hsound : Sound state) (howned : Owned next)

section Run

variable (hc : state.cpu c = .run s pc)
  (hcpu : next.cpu = update state.cpu c (.run s pc')) (hrunning : pc.phase = .RUNNING)

include hsound hc hrunning

omit [DecidableEq Cpu] in
theorem Sound.running : (state.slot s).state = .RUNNING :=
  (hsound.phase c s pc hc).trans hrunning

omit [DecidableEq Cpu] in
theorem Sound.ne_of_state (hstate : (state.slot k).state ≠ .RUNNING) : s ≠ k := by
  rintro rfl
  exact hstate (hsound.running hc hrunning)

include howned hcpu

/-- `kkill` and `wakeup` only wake: a process that sleeps becomes runnable. -/
theorem Sound.wakes (hslot : next.slot = update state.slot k p)
    (hnextpid : next.nextpid = state.nextpid) (hheld : Lock.proc k ∈ (state.cpu c).held)
    (hstate : p.state = (state.slot k).state ∨
      ((state.slot k).state = .SLEEPING ∧ p.state = .RUNNABLE))
    (hparent : p.parent = (state.slot k).parent) (hpid : p.pid = (state.slot k).pid)
    (hsaved : p.saved = (state.slot k).saved)
    (hfree : p.state = .UNUSED → p = state.slot k ∨ p = .unused ∨
      ∃ pid, pc = .killHave k pid ∧ ((state.slot k).pid : Int) = pid)
    (halike : pc.Alike pc') (hphase : pc'.phase = .RUNNING) : Moved state next c := by
  have hself := hsound.running hc hrunning
  have hedit : Edit state s pc k p := by
    rcases hstate with hsame | ⟨hsleep, hwake⟩
    · exact .same hsame hparent (fun _ => hpid) hfree
    · exact .live (Or.inr (Or.inr hsleep)) (Or.inl hwake) hparent hpid
  have hkeep : (state.slot k).state ≠ .SLEEPING → p.state = (state.slot k).state := by
    intro hne
    rcases hstate with hsame | ⟨hsleep, -⟩
    · exact hsame
    · exact absurd hsleep hne
  refine hsound.run howned hslot hedit hnextpid.ge (fun hused => ?_) (Or.inr (Or.inl hsaved))
    (hsound.calm_locked hheld fun hrun => hkeep (by rw [hrun]; simp))
    (fun j hj => Or.inl (halike.builds ▸ hj)) hc hcpu ?_ ?_
  · have hold : (state.slot k).state ≠ .UNUSED := by
      intro hunused
      exact hused ((hkeep (by rw [hunused]; simp)).trans hunused)
    rw [hpid, hnextpid]
    exact hsound.pid k hold
  · rw [hslot, hphase]
    by_cases hsk : s = k
    · subst hsk
      rw [update_self, hkeep (by rw [hself]; simp), hself]
    · rw [update_of_ne hsk, hself]
  · refine Pc.Holds.alike ?_ halike
    have hholds := hsound.holds s pc (Or.inl ⟨c, hc⟩)
    have hkeeps : ∀ j, (next.slot j).parent = (state.slot j).parent := by
      intro j
      rw [hslot]
      by_cases hjk : j = k
      · rw [hjk, update_self, hparent]
      · rw [update_of_ne hjk]
    refine ⟨fun j hj => ?_, fun n hn j hjn => ?_, fun j hj => ?_, hholds.exiting⟩
    · rw [hkeeps]
      refine ⟨?_, (hholds.built j hj).2⟩
      rw [hslot]
      by_cases hjk : j = k
      · subst hjk
        have hused := (hholds.built j hj).1
        rw [update_self, hkeep (by rw [hused]; simp), hused]
      · rw [update_of_ne hjk]
        exact (hholds.built j hj).1
    · rw [hkeeps]
      exact hholds.cleared n hn j hjn
    · rw [hkeeps]
      exact hholds.child j hj

/-- A process changes its own state, between RUNNING and the state in which it
switches out, or its own channel. -/
theorem Sound.selfEdit (hslot : next.slot = update state.slot s p)
    (hnextpid : next.nextpid = state.nextpid) (hstate : p.state = pc'.phase) (hlive : p.state.Live)
    (hparent : p.parent = (state.slot s).parent) (hpid : p.pid = (state.slot s).pid)
    (hbuilds : pc'.builds = none ∨ pc'.builds = pc.builds) (hlinked : pc.linked = false)
    (hlinked' : pc'.linked = false) (hcleared : pc'.cleared = none) (hchild : pc'.child = none)
    (hexiting : pc'.exiting = false) : Moved state next c := by
  have hself := hsound.running hc hrunning
  have hold : (state.slot s).state.Live := by
    rw [hself]
    exact Or.inr (Or.inl rfl)
  have hbuilt := builds_of hbuilds
  refine hsound.run howned hslot (.live hold hlive hparent hpid)
    hnextpid.ge (fun _ => ?_) (Or.inl rfl)
    (fun d q hne hd => absurd hd (hsound.sole hc d q hne))
    (fun j hj => Or.inl (hbuilt j hj)) hc hcpu ?_
    (.only (fun j hj => ?_) hcleared hchild hexiting)
  · rw [hpid, hnextpid]
    exact hsound.pid s hold.ne_unused
  · rw [hslot, update_self, hstate]
  · have hused := (hsound.holds s pc (Or.inl ⟨c, hc⟩)).built j (hbuilt j hj)
    have hne : s ≠ j := hsound.ne_of_state hc hrunning (by rw [hused.1]; simp)
    rw [hlinked] at hused
    rw [hslot, update_of_ne hne.symm, hlinked']
    exact hused

/-- `allocproc` takes a free slot, which `s` goes on to build. -/
theorem Sound.allocs (hslot : next.slot = (state.alloc k).slot)
    (hnextpid : next.nextpid = state.nextpid + 1) (hunused : (state.slot k).state = .UNUSED)
    (hphase : pc'.phase = .RUNNING) (hbuilds : pc'.builds = some k) (hlinked : pc'.linked = false)
    (hcleared : pc'.cleared = none) (hchild : pc'.child = none) (hexiting : pc'.exiting = false) :
    Moved state next c := by
  have hne : s ≠ k := hsound.ne_of_state hc hrunning (by rw [hunused]; simp)
  refine hsound.run howned hslot (.alloc hunused rfl rfl rfl)
    (by omega) (fun _ => hnextpid ▸ Nat.lt_succ_self _)
    (Or.inr (Or.inr (Or.inl rfl))) (hsound.calm_new (Or.inl hunused)) ?_ hc hcpu ?_
    (.only ?_ hcleared hchild hexiting)
  · intro j hj
    rw [hbuilds] at hj
    cases hj
    exact Or.inr hunused
  · rw [hslot, hphase]
    change (update state.slot k _ s).state = _
    rw [update_of_ne hne, hsound.running hc hrunning]
  · intro j hj
    rw [hbuilds] at hj
    cases hj
    rw [hslot, hlinked]
    change (update state.slot k _ k).state = _ ∧ ((update state.slot k _ k).parent = none ↔ _)
    rw [update_self]
    exact ⟨rfl, fun _ => rfl, fun _ => hsound.free k hunused⟩

/-- A slot is cleared by `freeproc` and nobody builds it any more. -/
theorem Sound.clears (hslot : next.slot = update state.slot k .unused)
    (hnextpid : state.nextpid ≤ next.nextpid) (hedit : Edit state s pc k .unused)
    (hcalm : Calm state c k .unused) (hne : (state.slot k).state ≠ .RUNNING) (hplain : pc'.Plain) :
    Moved state next c := by
  refine hsound.run howned hslot hedit hnextpid (fun hused => absurd rfl hused)
    (Or.inr (Or.inr (Or.inr rfl))) hcalm hplain.builds_only hc hcpu ?_ (hplain.holds _ _)
  rw [hslot, update_of_ne (hsound.ne_of_state hc hrunning hne), hsound.running hc hrunning,
    hplain.phase]

/-- `allocproc` finds no memory and gives the free slot up again. -/
theorem Sound.givesUp (hslot : next.slot = (state.giveUp k).slot)
    (hnextpid : next.nextpid = state.nextpid + 1) (hunused : (state.slot k).state = .UNUSED)
    (hplain : pc'.Plain) : Moved state next c := by
  refine hsound.clears howned hc hcpu hrunning (k := k) ?_ (by omega)
    (.same hunused.symm (hsound.free k hunused).symm
      (fun hused => absurd rfl hused) fun _ => Or.inr (Or.inl rfl))
    (hsound.calm_new (Or.inl hunused)) (by rw [hunused]; simp) hplain
  simp [hslot, State.giveUp, State.edit, State.alloc]

/-- A scan of the table goes on with the next slot. -/
theorem Sound.scans {n : Nat} {body : Slot → Pc}
    (hscan : pc' = scanFrom n body .user) (hbody : ∀ next, (body next).Plain)
    (hslot : next.slot = state.slot) (hnextpid : next.nextpid = state.nextpid) :
    Moved state next c := by
  have hplain : pc'.Plain := hscan ▸ scanFrom_plain n hbody
  exact hsound.stay howned hc hcpu hslot hnextpid
    (hplain.phase.trans hrunning.symm) (Or.inl hplain.builds)
    (hplain.holds _ _)

/-- The slot that `s` builds gets a parent. -/
theorem Sound.links {q : Slot}
    (hslot : next.slot = update state.slot k { state.slot k with parent := some q })
    (hnextpid : next.nextpid = state.nextpid) (hq : q = s ∨ q = initproc)
    (hbuilds : pc.builds = some k) (hlinked : pc.linked = false)
    (hphase : pc'.phase = .RUNNING) (hbuilds' : pc'.builds = some k) (hlinked' : pc'.linked = true)
    (hcleared : pc'.cleared = none) (hchild : pc'.child = none) (hexiting : pc'.exiting = false) :
    Moved state next c := by
  have hself := hsound.running hc hrunning
  have hbuilt := (hsound.holds s pc (Or.inl ⟨c, hc⟩)).built k hbuilds
  have hlive : (state.slot q).state.Live := by
    rcases hq with rfl | rfl
    · rw [hself]
      exact Or.inr (Or.inl rfl)
    · exact hsound.init
  have hne : s ≠ k := hsound.ne_of_state hc hrunning (by rw [hbuilt.1]; simp)
  refine hsound.run howned hslot (.link q hq hlive hbuilds hlinked rfl rfl rfl) hnextpid.ge
    (fun hused => hnextpid ▸ hsound.pid k hused) (Or.inr (Or.inl rfl))
    (fun _ _ _ _ => rfl) (fun j hj => Or.inl (hbuilds.trans (hbuilds' ▸ hj))) hc hcpu ?_
    (.only (fun j hj => ?_) hcleared hchild hexiting)
  · rw [hslot, update_of_ne hne, hself, hphase]
  · rw [hbuilds'] at hj
    cases hj
    rw [hslot, update_self, hlinked']
    exact ⟨hbuilt.1, nofun, nofun⟩

/-- The slot that `s` has built becomes runnable. -/
theorem Sound.readies
    (hslot : next.slot = update state.slot k { state.slot k with state := .RUNNABLE })
    (hnextpid : next.nextpid = state.nextpid) (hbuilds : pc.builds = some k)
    (hlinked : pc.linked = true) (hplain : pc'.Plain) : Moved state next c := by
  have hused := ((hsound.holds s pc (Or.inl ⟨c, hc⟩)).built k hbuilds).1
  have hne : s ≠ k := hsound.ne_of_state hc hrunning (by rw [hused]; simp)
  refine hsound.run howned hslot (.ready hbuilds hlinked rfl rfl rfl)
    hnextpid.ge (fun _ => hnextpid ▸ hsound.pid k (by rw [hused]; simp))
    (Or.inr (Or.inl rfl)) (hsound.calm_new (Or.inr hused)) hplain.builds_only hc hcpu ?_
    (hplain.holds _ _)
  rw [hslot, update_of_ne hne, hsound.running hc hrunning, hplain.phase]

end Run

include hsound howned

/-- `reparent` gives a child of `s` to init. -/
theorem Sound.adopts {n : Nat} (hc : state.cpu c = .run s (.exitReparent k))
    (hcpu : next.cpu = update state.cpu c (.run s pc'))
    (hslot : next.slot = update state.slot k { state.slot k with parent := some initproc })
    (hnextpid : next.nextpid = state.nextpid) (hparent : (state.slot k).parent = some s)
    (hn : n = k.val + 1) (hphase : pc'.phase = .RUNNING) (hbuilds : pc'.builds = none)
    (hcleared : pc'.cleared = some n) (hchild : pc'.child = none) : Moved state next c := by
  have hholds := hsound.holds s _ (Or.inl ⟨c, hc⟩)
  have hinit : s ≠ initproc := hholds.exiting rfl
  refine hsound.run howned hslot (.adopt hparent rfl rfl rfl)
    hnextpid.ge (fun hused => hnextpid ▸ hsound.pid k hused)
    (Or.inr (Or.inl rfl)) (fun _ _ _ _ => rfl) ?_ hc hcpu ?_
    (.exits hbuilds hcleared hchild hinit fun j hj => ?_)
  · intro j hj
    rw [hbuilds] at hj
    cases hj
  · have hself : (state.slot s).state = .RUNNING := hsound.phase c s _ hc
    rw [hslot, hphase]
    by_cases hsk : s = k
    · rwa [hsk, update_self, ← hsk]
    · rwa [update_of_ne hsk]
  · rw [hslot]
    by_cases hjk : j = k
    · rw [hjk, update_self]
      exact fun heq => hinit (Option.some.inj heq).symm
    · rw [update_of_ne hjk]
      have hval : j.val ≠ k.val := fun heq => hjk (Fin.ext heq)
      exact hholds.cleared k rfl j (by omega)

/-- `kexit` marks a process that has no children left. -/
theorem Sound.zombies (hc : state.cpu c = .run s .exitZombie)
    (hcpu : next.cpu = update state.cpu c (.run s .exitSched))
    (hslot : next.slot = update state.slot s { state.slot s with state := .ZOMBIE })
    (hnextpid : next.nextpid = state.nextpid) : Moved state next c := by
  have hholds := hsound.holds s _ (Or.inl ⟨c, hc⟩)
  have hlive : (state.slot s).state.Live := by
    rw [hsound.phase c s _ hc]
    exact Or.inr (Or.inl rfl)
  refine hsound.run howned hslot (.zombie rfl rfl hlive rfl rfl rfl (hholds.exiting rfl)
      fun j => hholds.cleared NPROC rfl j j.isLt) hnextpid.ge
    (fun _ => hnextpid ▸ hsound.pid s hlive.ne_unused) (Or.inl rfl)
    (fun d q hne hd => absurd hd (hsound.sole hc d q hne)) (by rintro _ ⟨⟩) hc hcpu ?_
    (.plain rfl rfl rfl rfl)
  rw [hslot, update_self]
  rfl

end Slots

/-- One step of a process. -/
theorem stepPc_moved {choice : Choice} (hsound : Sound state) (howned : Owned next)
    (hc : state.cpu c = .run s pc)
    (hnext : stepPc state c s pc choice = some next) : Moved state next c := by
  have hat : state.At s pc := Or.inl ⟨c, hc⟩
  have hholds := hsound.holds s pc hat
  have hstate := hsound.phase c s pc hc
  cases pc <;> simp only [stepPc] at hnext
  case forkScan | forkParent | forkRun | restoreScan | restoreBad |
      restoreLock | restoreWait | exitSelf | waitAcquire | waitChild |
      waitKilled | waitSleep | killScan | wakeScan =>
    obtain ⟨hcpu, hslot, hpid⟩ := acquire_eq_some hnext
    exact hsound.stay howned hc hcpu hslot hpid rfl (Or.inr rfl)
      (hholds.alike ⟨rfl, rfl, rfl, rfl, rfl⟩)
  case exitAcquire =>
    obtain ⟨hcpu, hslot, hpid⟩ := acquire_eq_some hnext
    exact hsound.stay howned hc hcpu hslot hpid rfl (Or.inl rfl)
      (.exits rfl rfl rfl (hholds.exiting rfl) (by rintro _ ⟨⟩))
  case sleepAcquire chan r =>
    obtain ⟨hcpu, hslot, hpid⟩ := acquire_eq_some hnext
    exact hsound.selfEdit howned hc hcpu rfl hslot hpid rfl
      (Or.inr (Or.inr rfl)) rfl rfl (Or.inr rfl) rfl rfl rfl rfl rfl
  case yieldAcquire r =>
    obtain ⟨hcpu, hslot, hpid⟩ := acquire_eq_some hnext
    exact hsound.selfEdit howned hc hcpu rfl hslot hpid rfl (Or.inl rfl) rfl
      rfl (Or.inr rfl) rfl rfl rfl rfl rfl
  case user =>
    cases choice with
    | start call =>
      obtain ⟨pc, hentry, rfl⟩ := Option.map_eq_some_iff.mp hnext
      obtain ⟨hphase, hbuilds, hholds'⟩ := entry_sound hentry hholds
      exact hsound.stay howned hc rfl rfl rfl hphase hbuilds hholds'
    | _ => cases hnext
  case restoreBuild k =>
    cases choice with
    | start call =>
      obtain ⟨pc, hentry, rfl⟩ := Option.map_eq_some_iff.mp hnext
      obtain ⟨hphase, hbuilds, hholds'⟩ := entry_sound hentry hholds
      exact hsound.stay howned hc rfl rfl rfl hphase hbuilds hholds'
    | _ =>
      cases hnext
      exact hsound.stay howned hc rfl rfl rfl rfl (Or.inr rfl)
        (hholds.alike ⟨rfl, rfl, rfl, rfl, rfl⟩)
  case forkHave k =>
    split at hnext
    next hunused =>
      split at hnext
      · cases hnext
        exact hsound.allocs howned hc rfl rfl rfl rfl hunused rfl rfl rfl rfl rfl rfl
      · cases hnext
        exact hsound.givesUp howned hc rfl rfl rfl rfl hunused ⟨rfl, rfl, rfl, rfl, rfl⟩
    next =>
      cases hnext
      exact hsound.scans howned hc rfl rfl rfl (fun _ => ⟨rfl, rfl, rfl, rfl, rfl⟩) rfl rfl
  case forkLink k =>
    cases hnext
    exact hsound.links howned hc rfl rfl rfl rfl (Or.inl rfl) rfl rfl rfl rfl rfl rfl rfl rfl
  case forkReady | restoreReady =>
    cases hnext
    exact hsound.readies howned hc rfl rfl rfl rfl rfl rfl ⟨rfl, rfl, rfl, rfl, rfl⟩
  case restoreHave k =>
    split at hnext
    next hunused =>
      cases choice with
      | go =>
        cases hnext
        exact hsound.allocs howned hc rfl rfl rfl rfl hunused rfl rfl rfl rfl rfl rfl
      | noMem =>
        cases hnext
        exact hsound.allocs howned hc rfl rfl rfl rfl hunused rfl rfl rfl rfl rfl rfl
      | _ =>
        cases hnext
        exact hsound.givesUp howned hc rfl rfl rfl rfl hunused ⟨rfl, rfl, rfl, rfl, rfl⟩
    next =>
      cases hnext
      exact hsound.scans howned hc rfl rfl rfl (fun _ => ⟨rfl, rfl, rfl, rfl, rfl⟩) rfl rfl
  case restoreFree k =>
    cases hnext
    have hused := (hholds.built k rfl).1
    exact hsound.clears howned hc rfl rfl rfl (Nat.le_refl _)
      (.drop rfl rfl) (hsound.calm_new (Or.inr hused))
      (by rw [hused]; simp) ⟨rfl, rfl, rfl, rfl, rfl⟩
  case restoreLink k =>
    cases hnext
    exact hsound.links howned hc rfl rfl rfl rfl (Or.inr rfl) rfl rfl rfl rfl rfl rfl rfl rfl
  case restorePanic k => cases hnext
  case exitReparent k =>
    have hinit : s ≠ initproc := hholds.exiting rfl
    split at hnext
    next hk =>
      split at hnext
      next hparent =>
        cases hnext
        have halike : (Pc.exitReparent (k + 1)).Alike
            (wakeFrom s 0 (.proc initproc) (.reparent (k + 1))) :=
          wakeFrom_alike s 0 _ rfl rfl rfl rfl rfl
        exact hsound.adopts (k := ⟨k, hk⟩) (n := k + 1) howned hc rfl rfl rfl
          hparent rfl (wakeFrom_phase _ _ _ _) halike.builds halike.cleared
          halike.child
      next hparent =>
        cases hnext
        refine hsound.stay howned hc rfl rfl rfl rfl (Or.inl rfl)
          (.exits rfl rfl rfl hinit fun j hj => ?_)
        by_cases hjk : j.val = k
        · have heq : j = ⟨k, hk⟩ := Fin.ext hjk
          rw [heq]
          exact hparent
        · exact hholds.cleared k rfl j (by omega)
    next hk =>
      cases hnext
      have halike : Pc.exitSelf.Alike (wakeFrom s 0 (parentChan (state.slot s).parent) .exit) :=
        wakeFrom_alike s 0 _ rfl rfl rfl rfl rfl
      refine hsound.stay howned hc rfl rfl rfl (wakeFrom_phase _ _ _ _)
        (Or.inl halike.builds) (.exits halike.builds halike.cleared
          halike.child hinit fun j hj => ?_)
      exact hholds.cleared k rfl j (by omega)
  case exitZombie =>
    cases hnext
    exact hsound.zombies howned hc rfl rfl rfl
  case exitSched | waitSched =>
    cases hnext
    exact hsound.leave howned hc rfl rfl rfl (Or.inl rfl) rfl
  case sleepSched | yieldSched =>
    cases hnext
    exact hsound.leave howned hc rfl rfl rfl (Or.inr rfl) rfl
  case waitScan k havekids =>
    split at hnext
    next hk =>
      split at hnext
      next hparent =>
        cases hnext
        refine hsound.stay howned hc rfl rfl rfl rfl (Or.inl rfl)
          ⟨by rintro _ ⟨⟩, by rintro _ ⟨⟩, fun j hj => ?_, by rintro ⟨⟩⟩
        cases hj
        exact hparent
      next =>
        cases hnext
        exact hsound.stay howned hc rfl rfl rfl rfl (Or.inl rfl) (.plain rfl rfl rfl rfl)
    next =>
      split at hnext <;> cases hnext <;>
        exact hsound.stay howned hc rfl rfl rfl rfl (Or.inl rfl) (.plain rfl rfl rfl rfl)
  case waitHave k =>
    have hheld : Lock.proc k ∈ (state.cpu c).held := by
      rw [hc]
      exact List.mem_cons_of_mem _ (List.mem_singleton_self _)
    split at hnext
    next hzombie =>
      split at hnext
      · cases hnext
        exact hsound.clears howned hc rfl rfl rfl (Nat.le_refl _)
          (.reap rfl hzombie (hholds.child k rfl) rfl)
          (hsound.calm_locked hheld fun hrun => by
            rw [hzombie] at hrun
            cases hrun) (by rw [hzombie]; simp) ⟨rfl, rfl, rfl, rfl, rfl⟩
      · cases hnext
        exact hsound.stay howned hc rfl rfl rfl rfl (Or.inl rfl) (.plain rfl rfl rfl rfl)
    next =>
      cases hnext
      exact hsound.stay howned hc rfl rfl rfl rfl (Or.inl rfl) (.plain rfl rfl rfl rfl)
  case waitDone =>
    cases hnext
    exact hsound.stay howned hc rfl rfl rfl rfl (Or.inl rfl) (.plain rfl rfl rfl rfl)
  case waitKilledHave =>
    cases hnext
    refine hsound.stay howned hc rfl rfl rfl ?_ (Or.inl ?_) ?_
    · split <;> rfl
    · split <;> rfl
    · split <;> exact .plain rfl rfl rfl rfl
  case waitSleepHave =>
    cases hnext
    exact hsound.selfEdit howned hc rfl rfl rfl rfl rfl (Or.inr (Or.inr rfl))
      rfl rfl (Or.inl rfl) rfl rfl rfl rfl rfl
  case killHave k pid =>
    have hheld : Lock.proc k ∈ (state.cpu c).held := by
      rw [hc]
      exact List.mem_singleton_self _
    split at hnext
    next hpid =>
      cases hnext
      refine hsound.wakes howned hc rfl rfl rfl rfl hheld ?_ rfl rfl rfl
        (fun _ => Or.inr (Or.inr ⟨pid, rfl, hpid⟩))
        ⟨rfl, rfl, rfl, rfl, rfl⟩ rfl
      unfold ProcSlot.kill
      dsimp only
      split
      next hsleep => exact Or.inr ⟨hsleep, rfl⟩
      next => exact Or.inl rfl
    next =>
      cases hnext
      exact hsound.scans howned hc rfl rfl rfl (fun _ => ⟨rfl, rfl, rfl, rfl, rfl⟩) rfl rfl
  case wakeHave k chan ret =>
    have hheld : Lock.proc k ∈ (state.cpu c).held := by
      rw [hc]
      exact List.mem_cons_self
    cases hnext
    have halike : (Pc.wakeHave k chan ret).Alike (wakeFrom s (k + 1) chan ret) :=
      wakeFrom_alike s (k + 1) chan rfl rfl rfl rfl rfl
    have hwake : ∀ p : ProcSlot, ((p.wake chan).state = p.state ∨
        (p.state = .SLEEPING ∧ (p.wake chan).state = .RUNNABLE)) ∧
        (p.wake chan).parent = p.parent ∧ (p.wake chan).pid = p.pid ∧
        (p.wake chan).saved = p.saved ∧ ((p.wake chan).state = .UNUSED → p.wake chan = p) := by
      intro p
      unfold ProcSlot.wake
      split
      next hsleep => exact ⟨Or.inr ⟨hsleep.1, rfl⟩, rfl, rfl, rfl, by rintro ⟨⟩⟩
      next => exact ⟨Or.inl rfl, rfl, rfl, rfl, fun _ => rfl⟩
    obtain ⟨hst, hparent, hpid, hsaved, hfree⟩ := hwake (state.slot k)
    exact hsound.wakes howned hc rfl rfl rfl rfl hheld hst hparent hpid hsaved
      (fun hunused => Or.inl (hfree hunused)) halike
      (wakeFrom_phase _ _ _ _)
  case resumed saved =>
    cases saved with
    | dead => cases hnext
    | forkret =>
      cases hnext
      exact hsound.stay howned hc rfl rfl rfl rfl (Or.inl rfl) (.plain rfl rfl rfl rfl)
    | sleep r =>
      cases hnext
      refine hsound.selfEdit howned hc rfl rfl rfl rfl ?_ ?_ rfl rfl (Or.inr ?_) rfl ?_ ?_ ?_ ?_
      · rw [show r.pc.phase = .RUNNING by cases r <;> rfl]
        exact hstate
      · exact Or.inr (Or.inl hstate)
      all_goals cases r <;> rfl
    | wait =>
      cases hnext
      exact hsound.selfEdit howned hc rfl rfl rfl rfl hstate
        (Or.inr (Or.inl hstate)) rfl rfl (Or.inl rfl) rfl rfl rfl rfl rfl
    | yield r =>
      cases hnext
      refine hsound.stay howned hc rfl rfl rfl ?_ (Or.inr ?_) (hholds.building ?_ ?_ ?_ ?_ ?_)
      all_goals cases r <;> rfl

theorem step_moved {event : Event Cpu}
    (hsound : Sound state) (hnext : step state event = some next) : Moved state next event.cpu := by
  have howned : Owned next := by
    obtain ⟨control, hsteps⟩ := step_steps hnext
    exact hsteps.owned hsound.owned
  -- a scheduler that goes on neither starts nor stops a process
  have hrun : ∀ control, (∀ s q, control ≠ .run s q) →
      (∀ s q, state.cpu event.cpu ≠ .run s q) → ∀ d s q,
      update state.cpu event.cpu control d = .run s q ↔ state.cpu d = .run s q := by
    intro control hcontrol hbefore d s q
    by_cases hd : d = event.cpu
    · subst hd
      rw [update_self]
      exact ⟨fun heq => absurd heq (hcontrol s q), fun heq => absurd heq (hbefore s q)⟩
    · rw [update_of_ne hd]
  unfold step at hnext
  cases hc : state.cpu event.cpu with
  | schedScan k =>
    simp only [hc] at hnext
    obtain ⟨hcpu, hslot, hpid⟩ := acquire_eq_some hnext
    refine hsound.idle howned ?_ hslot hpid
    rw [hcpu]
    exact hrun _ nofun (by rw [hc]; nofun)
  | schedHave k =>
    simp only [hc] at hnext
    split at hnext
    next hrunnable =>
      cases hnext
      exact hsound.enter howned hc hrunnable rfl rfl rfl
    next =>
      cases hnext
      exact hsound.idle howned (hrun _ nofun (by rw [hc]; nofun)) rfl rfl
  | schedBack k =>
    simp only [hc] at hnext
    cases hnext
    exact hsound.idle howned (hrun _ nofun (by rw [hc]; nofun)) rfl rfl
  | run s pc =>
    simp only [hc] at hnext
    exact stepPc_moved hsound howned hc hnext

omit [DecidableEq Cpu] in
theorem boot_sound : Sound (State.boot : State Cpu) := by
  have hrun : ∀ c s pc, (State.boot : State Cpu).cpu c ≠ .run s pc := nofun
  have hslot : ∀ k, k ≠ initproc → (State.boot : State Cpu).slot k = .unused := by
    intro k hk
    simp [State.boot, hk]
  have hinit : (State.boot : State Cpu).slot initproc =
      ⟨.RUNNABLE, .none, false, 1, none, .forkret⟩ := by
    simp [State.boot]
  have hparent : ∀ k, ((State.boot : State Cpu).slot k).parent = none := by
    intro k
    by_cases hk : k = initproc
    · rw [hk, hinit]
    · rw [hslot k hk]
      rfl
  have honly : ∀ k, ((State.boot : State Cpu).slot k).state ≠ .UNUSED → k = initproc := by
    intro k hk
    by_contra hne
    rw [hslot k hne] at hk
    exact hk rfl
  have hidle : ∀ s pc, (State.boot : State Cpu).At s pc → pc.Idle := by
    rintro s pc (⟨c, hc⟩ | ⟨-, rfl⟩)
    · exact absurd hc (hrun c s pc)
    by_cases hs : s = initproc
    · rw [hs, hinit]
      exact Or.inl rfl
    · rw [hslot s hs]
      exact Or.inr rfl
  refine ⟨boot_owned, fun c d s pc pc' hc => absurd hc (hrun c s pc),
    fun c s pc hc => absurd hc (hrun c s pc),
    fun s pc hs => (hidle s pc hs).holds _ _, ?_, ?_, ?_, ?_, fun k _ => hparent k, ?_, ?_⟩
  · intro s s' pc pc' k hs _ hbuilds
    rw [(hidle s pc hs).builds] at hbuilds
    cases hbuilds
  · rw [hinit]
    exact Or.inl rfl
  · intro k q hq
    rw [hparent] at hq
    cases hq
  · intro k hk hunused
    exact absurd (honly k hunused) hk
  · intro k hk
    rw [honly k hk, hinit]
    exact Nat.lt_succ_self 1
  · intro j k hj hk _
    rw [honly j hj, honly k hk]

end ProcLocks

end CkptKernel
