/-
Exits and waits.  On top of the lock machine, the fields of `struct proc` that
only the process itself, or the one that builds or frees its slot, touches, and
a record of which processes exited and which were returned by `kwait`.
-/
import CkptKernel.ProcMoves

namespace CkptKernel

namespace ProcLocks

open Machine
open Function (update update_of_ne update_self)

/-- The rest of `struct proc`; pointers only as null or not. -/
structure Fields where
  xstate : Int
  sz : Nat
  pagetable : Bool
  trapframe : Bool
  ofile : Fin NOFILE → Bool
  cwd : Bool
deriving DecidableEq

namespace Fields

def zero : Fields := ⟨0, 0, false, false, fun _ => false, false⟩

def alloc (fields : Fields) : Fields :=
  { fields with trapframe := true, pagetable := true }

/-- What `kfork` copies from the parent's fields. -/
def fork (fields parent : Fields) : Fields :=
  { fields.alloc with
    sz := parent.sz
    ofile := fun i => if parent.ofile i then true else fields.ofile i
    cwd := parent.cwd }

/-- `freeproc`, which does not look at `ofile` and `cwd`. -/
def freeproc (fields : Fields) : Fields :=
  { fields with xstate := 0, sz := 0, pagetable := false, trapframe := false }

def close (fields : Fields) : Fields :=
  { fields with ofile := fun _ => false, cwd := false }

end Fields

/-- A process that called `kexit(status)` and became a zombie. -/
structure Exit where
  slot : Slot
  pid : Nat
  status : Int
deriving DecidableEq

/-- A child that `kwait` returned to process `waiter`: its parent at that time,
its pid and the status that was copied out. -/
structure Reap where
  waiter : Slot
  parent : Option Slot
  slot : Slot
  pid : Nat
  status : Int
deriving DecidableEq

structure Table (Cpu : Type) where
  locks : State Cpu
  fields : Slot → Fields
  /-- The argument of `kexit`, for processes that have called it. -/
  status : Slot → Int
  exited : List Exit
  reaped : List Reap

/-- What a CPU does next. -/
inductive Act where
  /-- A step of the lock machine. -/
  | lock (choice : Choice)
  /-- `kexit(status)`, up to its first lock. -/
  | exit (status : Int)
  /-- `kexec` commits an image of `sz` bytes. -/
  | exec (sz : Nat)
  /-- A call opens or closes a descriptor. -/
  | setFd (fd : Fin NOFILE) (isOpen : Bool)
  /-- `restore_proc` fills in the slot it builds. -/
  | build (sz : Nat) (ofile : Fin NOFILE → Bool) (cwd : Bool)

variable {Cpu : Type}

namespace Table

def set (table : Table Cpu) (k : Slot) (change : Fields → Fields) : Table Cpu :=
  { table with
    fields := update table.fields k (change (table.fields k)) }

/-- What goes with a step of the lock machine at a control point. -/
def carry (table : Table Cpu) (choice : Choice) : Control → Table Cpu
  | .run s (.forkHave k) =>
    if (table.locks.slot k).state = .UNUSED then
      if choice = .go then table.set k (·.fork (table.fields s))
      else table.set k (·.alloc.freeproc)
    else table
  | .run _ (.restoreHave k) =>
    if (table.locks.slot k).state = .UNUSED then
      match choice with
      | .go | .noMem => table.set k .alloc
      | _ => table.set k (·.alloc.freeproc)
    else table
  | .run _ (.restoreBuild k) =>
    match choice with
    | .start _ | .go => table
    | _ => table.set k .close
  | .run _ (.restoreFree k) => table.set k .freeproc
  | .run s .exitZombie =>
    { table.set s (fun fields => { fields with xstate := table.status s }) with
      exited := ⟨s, (table.locks.slot s).pid, table.status s⟩ ::
        table.exited }
  | .run s (.waitHave k) =>
    if (table.locks.slot k).state = .ZOMBIE ∧ choice = .go then
      { table.set k .freeproc with
        reaped := ⟨s, (table.locks.slot k).parent, k,
          (table.locks.slot k).pid, (table.fields k).xstate⟩ ::
            table.reaped }
    else table
  | _ => table

variable [DecidableEq Cpu]

def step (table : Table Cpu) (event : Cpu × Act) : Option (Table Cpu) :=
  match event.2 with
  | .lock choice =>
    if choice = .start .exit then none
    else (ProcLocks.step table.locks ⟨event.1, choice⟩).map (fun locks =>
      { table.carry choice (table.locks.cpu event.1) with locks := locks })
  | .exit status =>
    match table.locks.cpu event.1 with
    | .run s .user =>
      (ProcLocks.step table.locks ⟨event.1, .start .exit⟩).map
        (fun locks => { table.set s .close with
          locks := locks
          status := update table.status s status })
    | _ => none
  | .exec sz =>
    match table.locks.cpu event.1 with
    | .run s .user => some (table.set s (fun fields =>
      { fields with sz := sz }))
    | _ => none
  | .setFd fd isOpen =>
    match table.locks.cpu event.1 with
    | .run s .user => some (table.set s (fun fields =>
      { fields with ofile := update fields.ofile fd isOpen }))
    | _ => none
  | .build sz ofile cwd =>
    match table.locks.cpu event.1 with
    | .run _ (.restoreBuild k) => some (table.set k (fun fields =>
      { fields with sz := sz, ofile := ofile, cwd := cwd }))
    | _ => none

def boot : Table Cpu where
  locks := State.boot
  fields := update (fun _ => .zero) initproc
    ⟨0, 0, true, true, fun _ => false, true⟩
  status := fun _ => 0
  exited := []
  reaped := []

end Table

variable {state : State Cpu} {k : Slot}

/-- Only `kexit` and `kwait` make and unmake zombies. -/
theorem Edit.zombie_iff {m : Slot} {pc : Pc} {p : ProcSlot} (hedit : Edit state m pc k p)
    (hsound : Sound state) (hat : state.At m pc) (hexit : pc ≠ .exitZombie)
    (hwait : ∀ j, pc ≠ .waitHave j) : (p.state = .ZOMBIE ↔ (state.slot k).state = .ZOMBIE) ∧
      (p.state = .ZOMBIE → p.pid = (state.slot k).pid) := by
  have hused : pc.builds = some k → (state.slot k).state ≠ .ZOMBIE := by
    intro hbuilds
    rw [((hsound.holds m pc hat).built k hbuilds).1]
    simp
  cases hedit with
  | same hstate _ hpid =>
    exact ⟨by rw [hstate], fun hzombie => hpid (by rw [hzombie]; simp)⟩
  | live hold hnew _ hpid =>
    exact ⟨iff_of_false hnew.ne_zombie hold.ne_zombie, fun _ => hpid⟩
  | alloc hold hnew =>
    rw [hold, hnew]
    simp
  | link q _ _ hbuilds _ hstate _ hpid =>
    exact ⟨by rw [hstate], fun _ => hpid⟩
  | ready hbuilds _ hnew _ hpid =>
    exact ⟨iff_of_false (by rw [hnew]; simp) (hused hbuilds), fun _ => hpid⟩
  | drop hpc hnew =>
    subst hnew
    exact ⟨iff_of_false (by simp [ProcSlot.unused]) (hused (hpc ▸ rfl)), nofun⟩
  | adopt _ _ hstate hpid => exact ⟨by rw [hstate], fun _ => hpid⟩
  | zombie hpc => exact absurd hpc hexit
  | reap hpc => exact absurd hpc (hwait k)

/-- The record agrees with the table: every zombie has exited, every exit is
returned once or is still a zombie in its slot, and pids are never reused. -/
structure Ledger (table : Table Cpu) : Prop where
  zombie : ∀ k, (table.locks.slot k).state = .ZOMBIE →
    ⟨k, (table.locks.slot k).pid, (table.fields k).xstate⟩ ∈ table.exited
  kept : ∀ e ∈ table.exited, e.pid ∈ table.reaped.map Reap.pid ∨
    ((table.locks.slot e.slot).state = .ZOMBIE ∧ (table.locks.slot e.slot).pid = e.pid ∧
      (table.fields e.slot).xstate = e.status)
  matched : ∀ r ∈ table.reaped, r.parent = some r.waiter ∧ ⟨r.slot, r.pid, r.status⟩ ∈ table.exited
  gone : ∀ r ∈ table.reaped, r.pid < table.locks.nextpid ∧
    ∀ k, (table.locks.slot k).state ≠ .UNUSED → (table.locks.slot k).pid ≠ r.pid
  exits : (table.exited.map Exit.pid).Nodup
  reaps : (table.reaped.map Reap.pid).Nodup

variable {table : Table Cpu}

/-- A zombie has not been returned yet. -/
theorem Ledger.pending (hledger : Ledger table) (hused : (table.locks.slot k).state ≠ .UNUSED) :
    (table.locks.slot k).pid ∉ table.reaped.map Reap.pid := by
  intro hmem
  obtain ⟨r, hr, heq⟩ := List.mem_map.mp hmem
  exact (hledger.gone r hr).2 k hused heq.symm

/-- A slot in use after a step has the pid it had, or one never given out. -/
def Fresh (state next : State Cpu) : Prop :=
  ∀ k, (next.slot k).state ≠ .UNUSED → ((state.slot k).state ≠ .UNUSED ∧
      (next.slot k).pid = (state.slot k).pid) ∨ (next.slot k).pid = state.nextpid

variable {next : State Cpu} {c : Cpu}

theorem Moved.fresh (hmoved : Moved state next c) (hsound : Sound state) : Fresh state next := by
  intro k hk
  rcases hmoved.edit with hslot | ⟨m, pc, j, p, -, hat, hslot, hedit⟩
  · rw [hslot] at hk ⊢
    exact Or.inl ⟨hk, rfl⟩
  rw [hslot] at hk ⊢
  by_cases hkj : k = j
  · subst hkj
    rw [update_self] at hk ⊢
    exact (hedit.pid hsound hat hk).symm
  · rw [update_of_ne hkj] at hk ⊢
    exact Or.inl ⟨hk, rfl⟩

theorem Ledger.gone_step {next : Table Cpu} (hledger : Ledger table)
    (hfresh : Fresh table.locks next.locks) (hnextpid : table.locks.nextpid ≤ next.locks.nextpid)
    {r : Reap} (hr : r ∈ table.reaped) : r.pid < next.locks.nextpid ∧
      ∀ k, (next.locks.slot k).state ≠ .UNUSED → (next.locks.slot k).pid ≠ r.pid := by
  obtain ⟨hlt, hnot⟩ := hledger.gone r hr
  refine ⟨by omega, fun k hk => ?_⟩
  rcases hfresh k hk with ⟨hold, hpid⟩ | hpid
  · rw [hpid]
    exact hnot k hold
  · omega

/-- A step that makes and unmakes no zombie. -/
theorem Ledger.keep {next : Table Cpu} (hledger : Ledger table)
    (hfresh : Fresh table.locks next.locks) (hnextpid : table.locks.nextpid ≤ next.locks.nextpid)
    (hzombie : ∀ k, (next.locks.slot k).state = .ZOMBIE ↔ (table.locks.slot k).state = .ZOMBIE)
    (hpid : ∀ k, (table.locks.slot k).state = .ZOMBIE →
      (next.locks.slot k).pid = (table.locks.slot k).pid)
    (hxstate : ∀ k, (table.locks.slot k).state = .ZOMBIE →
      (next.fields k).xstate = (table.fields k).xstate) (hexited : next.exited = table.exited)
    (hreaped : next.reaped = table.reaped) : Ledger next := by
  refine ⟨?_, ?_, ?_, ?_, hexited ▸ hledger.exits, hreaped ▸ hledger.reaps⟩
  · intro k hk
    have hold := (hzombie k).mp hk
    rw [hpid k hold, hxstate k hold, hexited]
    exact hledger.zombie k hold
  · intro e he
    rw [hexited] at he
    rw [hreaped]
    rcases hledger.kept e he with hdone | ⟨hold, hsame, hstatus⟩
    · exact Or.inl hdone
    · exact Or.inr ⟨(hzombie _).mpr hold, (hpid _ hold).trans hsame, (hxstate _ hold).trans hstatus⟩
  · rw [hexited, hreaped]
    exact hledger.matched
  · intro r hr
    rw [hreaped] at hr
    exact hledger.gone_step hfresh hnextpid hr

variable {s : Slot}

/-- Process `s` becomes a zombie. -/
theorem Ledger.exit {next : Table Cpu} (hledger : Ledger table) (hsound : Sound table.locks)
    (hrunning : (table.locks.slot s).state = .RUNNING)
    (hslot : next.locks.slot = update table.locks.slot s
      { table.locks.slot s with state := .ZOMBIE })
    (hnextpid : next.locks.nextpid = table.locks.nextpid)
    (hfields : next.fields = update table.fields s
      { table.fields s with xstate := table.status s })
    (hexited : next.exited = ⟨s, (table.locks.slot s).pid, table.status s⟩ :: table.exited)
    (hreaped : next.reaped = table.reaped) : Ledger next := by
  have hused : (table.locks.slot s).state ≠ .UNUSED := by
    rw [hrunning]
    simp
  have hother : ∀ {k}, (table.locks.slot k).state = .ZOMBIE → k ≠ s := by
    rintro k hk rfl
    rw [hrunning] at hk
    cases hk
  have hfresh : Fresh table.locks next.locks := by
    intro k hk
    rw [hslot] at hk ⊢
    by_cases hks : k = s
    · rw [hks, update_self]
      exact Or.inl ⟨hused, rfl⟩
    · rw [update_of_ne hks] at hk ⊢
      exact Or.inl ⟨hk, rfl⟩
  refine ⟨?_, ?_, ?_, ?_, ?_, hreaped ▸ hledger.reaps⟩
  · intro k hk
    rw [hslot] at hk ⊢
    rw [hfields, hexited]
    by_cases hks : k = s
    · rw [hks, update_self, update_self]
      exact List.mem_cons_self
    · rw [update_of_ne hks] at hk
      rw [update_of_ne hks, update_of_ne hks]
      exact List.mem_cons_of_mem _ (hledger.zombie k hk)
  · intro e he
    rw [hexited] at he
    rw [hslot, hfields, hreaped]
    rcases List.mem_cons.mp he with rfl | he
    · right
      rw [update_self, update_self]
      exact ⟨rfl, rfl, rfl⟩
    · rcases hledger.kept e he with hdone | ⟨hold, hsame⟩
      · exact Or.inl hdone
      · right
        rw [update_of_ne (hother hold), update_of_ne (hother hold)]
        exact ⟨hold, hsame⟩
  · intro r hr
    rw [hreaped] at hr
    rw [hexited]
    exact ⟨(hledger.matched r hr).1, List.mem_cons_of_mem _ (hledger.matched r hr).2⟩
  · intro r hr
    rw [hreaped] at hr
    exact hledger.gone_step hfresh hnextpid.ge hr
  · rw [hexited, List.map_cons, List.nodup_cons]
    refine ⟨fun hmem => ?_, hledger.exits⟩
    -- an earlier exit with this pid would be a zombie in another slot
    obtain ⟨e, he, heq⟩ := List.mem_map.mp hmem
    rcases hledger.kept e he with hdone | ⟨hold, hsame, -⟩
    · rw [heq] at hdone
      exact hledger.pending hused hdone
    · refine hother hold (hsound.distinct _ _ ?_ hused (hsame.trans heq))
      rw [hold]
      simp

/-- The zombie in slot `k` is returned to its parent `s` and its slot freed. -/
theorem Ledger.reap {next : Table Cpu} (hledger : Ledger table) (hsound : Sound table.locks)
    (hzombie : (table.locks.slot k).state = .ZOMBIE)
    (hparent : (table.locks.slot k).parent = some s)
    (hslot : next.locks.slot = update table.locks.slot k .unused)
    (hnextpid : next.locks.nextpid = table.locks.nextpid)
    (hfields : next.fields = update table.fields k (table.fields k).freeproc)
    (hexited : next.exited = table.exited)
    (hreaped : next.reaped = ⟨s, (table.locks.slot k).parent, k,
      (table.locks.slot k).pid, (table.fields k).xstate⟩ :: table.reaped) : Ledger next := by
  have hused : (table.locks.slot k).state ≠ .UNUSED := by
    rw [hzombie]
    simp
  have hkeep : ∀ {j}, (next.locks.slot j).state ≠ .UNUSED → j ≠ k ∧
      next.locks.slot j = table.locks.slot j := by
    intro j hj
    rw [hslot] at hj ⊢
    have hjk : j ≠ k := by
      rintro rfl
      rw [update_self] at hj
      exact hj rfl
    exact ⟨hjk, update_of_ne hjk _ _⟩
  have hfresh : Fresh table.locks next.locks := by
    intro j hj
    obtain ⟨-, hsame⟩ := hkeep hj
    rw [hsame] at hj ⊢
    exact Or.inl ⟨hj, rfl⟩
  refine ⟨?_, ?_, ?_, ?_, hexited ▸ hledger.exits, ?_⟩
  · intro j hj
    obtain ⟨hjk, hsame⟩ := hkeep (by rw [hj]; simp)
    rw [hsame] at hj ⊢
    rw [hfields, update_of_ne hjk, hexited]
    exact hledger.zombie j hj
  · intro e he
    rw [hexited] at he
    rw [hreaped, List.map_cons]
    rcases hledger.kept e he with hdone | ⟨hold, hsame⟩
    · exact Or.inl (List.mem_cons_of_mem _ hdone)
    by_cases hek : e.slot = k
    · rw [← hek, hsame.1]
      exact Or.inl List.mem_cons_self
    · right
      rw [hslot, hfields, update_of_ne hek, update_of_ne hek]
      exact ⟨hold, hsame⟩
  · intro r hr
    rw [hreaped] at hr
    rw [hexited]
    rcases List.mem_cons.mp hr with rfl | hr
    · exact ⟨hparent, hledger.zombie k hzombie⟩
    · exact hledger.matched r hr
  · intro r hr
    rw [hreaped] at hr
    rcases List.mem_cons.mp hr with rfl | hr
    · refine ⟨hnextpid ▸ hsound.pid k hused, fun j hj heq => ?_⟩
      obtain ⟨hjk, hsame⟩ := hkeep hj
      rw [hsame] at hj heq
      exact hjk (hsound.distinct j k hj hused heq)
    · exact hledger.gone_step hfresh hnextpid.ge hr
  · rw [hreaped, List.map_cons, List.nodup_cons]
    exact ⟨hledger.pending hused, hledger.reaps⟩

/-- The lock steps that change the record: a process becomes a zombie, or one
is returned by `kwait`. -/
def Table.Records (table : Table Cpu) (choice : Choice) (control : Control) : Prop :=
  (∃ s, control = .run s .exitZombie) ∨ ∃ s k, control = .run s (.waitHave k) ∧
      (table.locks.slot k).state = .ZOMBIE ∧ choice = .go

variable {choice : Choice}

/-- All other steps touch the fields of slots that are free or being built. -/
theorem Table.carry_quiet (hquiet : ¬ table.Records choice (table.locks.cpu c)) :
    (table.carry choice (table.locks.cpu c)).exited = table.exited ∧
      (table.carry choice (table.locks.cpu c)).reaped = table.reaped ∧
      ∀ j, (table.carry choice (table.locks.cpu c)).fields j = table.fields j ∨
        (table.locks.slot j).state = .UNUSED ∨
        ∃ s pc, table.locks.cpu c = .run s pc ∧ pc.builds = some j := by
  have hset : ∀ k change, (∃ s pc, table.locks.cpu c = .run s pc ∧
        pc.builds = some k) ∨ (table.locks.slot k).state = .UNUSED →
      ∀ j, (table.set k change).fields j = table.fields j ∨ (table.locks.slot j).state = .UNUSED ∨
        ∃ s pc, table.locks.cpu c = .run s pc ∧ pc.builds = some j := by
    intro k change hk j
    by_cases hjk : j = k
    · subst hjk
      exact Or.inr hk.symm
    · exact Or.inl (update_of_ne hjk _ _)
  unfold Table.carry
  split
  case h_1 s k hc =>
    split
    next hunused =>
      split <;> exact ⟨rfl, rfl, hset k _ (Or.inr hunused)⟩
    next => exact ⟨rfl, rfl, fun _ => Or.inl rfl⟩
  case h_2 s k hc =>
    split
    next hunused =>
      split <;> exact ⟨rfl, rfl, hset k _ (Or.inr hunused)⟩
    next => exact ⟨rfl, rfl, fun _ => Or.inl rfl⟩
  case h_3 s k hc =>
    split
    · exact ⟨rfl, rfl, fun _ => Or.inl rfl⟩
    · exact ⟨rfl, rfl, fun _ => Or.inl rfl⟩
    · exact ⟨rfl, rfl, hset k _ (Or.inl ⟨s, _, hc, rfl⟩)⟩
  case h_4 s k hc =>
    exact ⟨rfl, rfl, hset k _ (Or.inl ⟨s, _, hc, rfl⟩)⟩
  case h_5 s hc => exact absurd (Or.inl ⟨s, hc⟩) hquiet
  case h_6 s k hc =>
    split
    next hreap => exact absurd (Or.inr ⟨s, k, hc, hreap⟩) hquiet
    next => exact ⟨rfl, rfl, fun _ => Or.inl rfl⟩
  case h_7 => exact ⟨rfl, rfl, fun _ => Or.inl rfl⟩

variable [DecidableEq Cpu]

theorem step_waitHave (hc : state.cpu c = .run s (.waitHave k))
    (hnext : step state ⟨c, choice⟩ = some next)
    (hnot : ¬ ((state.slot k).state = .ZOMBIE ∧ choice = .go)) : next.slot = state.slot := by
  simp only [step, hc, stepPc] at hnext
  split at hnext
  next hzombie =>
    split at hnext
    next hgo => exact absurd ⟨hzombie, hgo⟩ hnot
    next =>
      cases hnext
      rfl
  next =>
    cases hnext
    rfl

/-- A step that does not change the record makes and unmakes no zombie. -/
theorem Table.zombie_iff (hsound : Sound table.locks)
    (hnext : ProcLocks.step table.locks ⟨c, choice⟩ = some next)
    (hquiet : ¬ table.Records choice (table.locks.cpu c)) (k : Slot) :
    ((next.slot k).state = .ZOMBIE ↔ (table.locks.slot k).state = .ZOMBIE) ∧
      ((table.locks.slot k).state = .ZOMBIE → (next.slot k).pid = (table.locks.slot k).pid) := by
  have hsame : next.slot = table.locks.slot → ((next.slot k).state = .ZOMBIE ↔
        (table.locks.slot k).state = .ZOMBIE) ∧ ((table.locks.slot k).state = .ZOMBIE →
        (next.slot k).pid = (table.locks.slot k).pid) := by
    intro hslot
    rw [hslot]
    exact ⟨Iff.rfl, fun _ => rfl⟩
  by_cases hwait : ∃ s j, table.locks.cpu c = .run s (.waitHave j)
  · obtain ⟨s, j, hc⟩ := hwait
    exact hsame (step_waitHave hc hnext fun hreap =>
      hquiet (Or.inr ⟨s, j, hc, hreap⟩))
  rcases (step_moved hsound hnext).edit with
    hslot | ⟨m, pc, j, p, hrun, hat, hslot, hedit⟩
  · exact hsame hslot
  rw [hslot]
  by_cases hkj : k = j
  · subst hkj
    rw [update_self]
    obtain ⟨hiff, hpid⟩ := hedit.zombie_iff hsound hat (by
        rintro rfl
        rcases hrun with hc | ⟨_, hpc⟩
        · exact hquiet (Or.inl ⟨m, hc⟩)
        · cases hpc)
      (by
        rintro i rfl
        rcases hrun with hc | ⟨_, hpc⟩
        · exact hwait ⟨m, i, hc⟩
        · cases hpc)
    exact ⟨hiff, fun hold => hpid (hiff.mpr hold)⟩
  · rw [update_of_ne hkj]
    exact ⟨Iff.rfl, fun _ => rfl⟩

/-- Sound, with a true record. -/
structure Table.Good (table : Table Cpu) : Prop where
  sound : Sound table.locks
  ledger : Ledger table

omit [DecidableEq Cpu] in
/-- A slot that nobody waits for: it is free, or being built, or running. -/
theorem Table.Good.touch (hgood : table.Good) {change : Fields → Fields}
    (hk : (table.locks.slot k).state ≠ .ZOMBIE) : Ledger (table.set k change) := by
  refine hgood.ledger.keep (fun j hj => Or.inl ⟨hj, rfl⟩) (Nat.le_refl _)
    (fun _ => Iff.rfl) (fun _ _ => rfl) (fun j hj => ?_) rfl rfl
  have hjk : j ≠ k := by
    rintro rfl
    exact hk hj
  change (update table.fields k _ j).xstate = _
  rw [update_of_ne hjk]

theorem Table.Good.lock (hgood : table.Good)
    (hnext : ProcLocks.step table.locks ⟨c, choice⟩ = some next) :
    Table.Good { table.carry choice (table.locks.cpu c) with locks := next } := by
  have hsound := hgood.sound
  have hledger := hgood.ledger
  have hmoved := step_moved hsound hnext
  refine ⟨hmoved.sound, ?_⟩
  by_cases hquiet : table.Records choice (table.locks.cpu c)
  · rcases hquiet with ⟨s, hc⟩ | ⟨s, k, hc, hzombie, rfl⟩
    · have hrunning := hsound.phase c s _ hc
      simp only [ProcLocks.step, hc, stepPc, Option.some.injEq] at hnext
      subst hnext
      rw [hc]
      exact hledger.exit hsound hrunning rfl rfl rfl rfl rfl
    · have hparent := (hsound.holds s _ (Or.inl ⟨c, hc⟩)).child k rfl
      simp only [ProcLocks.step, hc, stepPc, hzombie, if_true, Option.some.injEq] at hnext
      subst hnext
      rw [hc]
      have hcarry : table.carry .go (.run s (.waitHave k)) = { table.set k .freeproc with
            reaped := ⟨s, (table.locks.slot k).parent, k,
              (table.locks.slot k).pid, (table.fields k).xstate⟩ ::
                table.reaped } := if_pos ⟨hzombie, rfl⟩
      rw [hcarry]
      exact hledger.reap hsound hzombie hparent rfl rfl rfl rfl rfl
  · obtain ⟨hexited, hreaped, hfields⟩ := Table.carry_quiet hquiet
    refine hledger.keep (hmoved.fresh hsound) hmoved.nextpid
      (fun k => (Table.zombie_iff hsound hnext hquiet k).1)
      (fun k => (Table.zombie_iff hsound hnext hquiet k).2) (fun k hk => ?_)
      hexited hreaped
    change ((table.carry choice (table.locks.cpu c)).fields k).xstate = _
    rcases hfields k with hsame | hunused | ⟨s, pc, hc, hbuilds⟩
    · rw [hsame]
    · rw [hk] at hunused
      cases hunused
    · have hused := ((hsound.holds s pc (Or.inl ⟨c, hc⟩)).built k hbuilds).1
      rw [hk] at hused
      cases hused

theorem Table.step_good {next : Table Cpu} {event : Cpu × Act} (hgood : table.Good)
    (hstep : table.step event = some next) : next.Good := by
  obtain ⟨c, act⟩ := event
  have hrunning : ∀ {s}, table.locks.cpu c = .run s .user →
      (table.locks.slot s).state ≠ .ZOMBIE := by
    intro s hc
    rw [hgood.sound.phase c s _ hc]
    simp [Pc.phase]
  cases act with
  | lock choice =>
    simp only [Table.step] at hstep
    split at hstep
    · cases hstep
    · obtain ⟨locks, hlocks, rfl⟩ := Option.map_eq_some_iff.mp hstep
      exact hgood.lock hlocks
  | exit status =>
    simp only [Table.step] at hstep
    split at hstep
    next s hc =>
      obtain ⟨locks, hlocks, rfl⟩ := Option.map_eq_some_iff.mp hstep
      have hmoved := step_moved hgood.sound hlocks
      have hquiet : ¬ table.Records (.start .exit) (table.locks.cpu c) := by
        rw [hc]
        rintro (⟨_, heq⟩ | ⟨_, _, heq, -⟩) <;> cases heq
      refine ⟨hmoved.sound, ?_⟩
      refine (hgood.touch (hrunning hc)).keep (hmoved.fresh hgood.sound) hmoved.nextpid
        (fun k => (Table.zombie_iff hgood.sound hlocks hquiet k).1)
        (fun k => (Table.zombie_iff hgood.sound hlocks hquiet k).2)
        (fun _ _ => rfl) rfl rfl
    next => cases hstep
  | exec sz =>
    simp only [Table.step] at hstep
    split at hstep
    next s hc =>
      cases hstep
      exact ⟨hgood.sound, hgood.touch (hrunning hc)⟩
    next => cases hstep
  | setFd fd isOpen =>
    simp only [Table.step] at hstep
    split at hstep
    next s hc =>
      cases hstep
      exact ⟨hgood.sound, hgood.touch (hrunning hc)⟩
    next => cases hstep
  | build sz ofile cwd =>
    simp only [Table.step] at hstep
    split at hstep
    next s k hc =>
      cases hstep
      refine ⟨hgood.sound, hgood.touch ?_⟩
      rw [((hgood.sound.holds s _ (Or.inl ⟨c, hc⟩)).built k rfl).1]
      simp
    next => cases hstep

omit [DecidableEq Cpu] in
theorem Table.boot_good : (Table.boot : Table Cpu).Good := by
  refine ⟨boot_sound, ?_, nofun, nofun, nofun, List.nodup_nil, List.nodup_nil⟩
  intro k hk
  have hlocks : (Table.boot : Table Cpu).locks = State.boot := rfl
  rw [hlocks] at hk
  by_cases hinit : k = initproc
  · subst hinit
    simp [State.boot] at hk
  · simp [State.boot, hinit, ProcSlot.unused] at hk

theorem run_good {events : List (Cpu × Act)}
    (hrun : run Table.step Table.boot events = some table) : table.Good :=
  @run_invariant _ _ Table.step (fun _ _ => True) Table.Good
    (fun _ _ _ hgood _ hstep => Table.step_good hgood hstep) _ _ _
    Table.boot_good (runMeets_of_forall (fun _ _ => trivial) _) hrun

theorem Table.step_lock (hnext : ProcLocks.step table.locks ⟨c, choice⟩ = some next)
    (hchoice : choice ≠ .start .exit) : table.step (c, .lock choice) =
      some { table.carry choice (table.locks.cpu c) with locks := next } := by
  simp only [Table.step, hchoice, if_false, hnext, Option.map_some]

/-- In every state that any interleaving reaches: a process that has started
has a parent that has not exited; what `kwait` has returned are distinct exits,
each to the parent of that moment and with the status passed to `kexit`; every
other exit is still a zombie in the slot it exited from; and a `kwait` that
finds a zombie either returns it or, if `copyout` fails, leaves it as it is. -/
theorem exits_reaped_once {events : List (Cpu × Act)} {table : Table Cpu}
    (hrun : run Table.step Table.boot events = some table) :
    (∀ k, k ≠ initproc → (table.locks.slot k).state ≠ .UNUSED → (table.locks.slot k).state ≠ .USED →
      ∃ q, (table.locks.slot k).parent = some q ∧ (table.locks.slot q).state ≠ .UNUSED ∧
        (table.locks.slot q).state ≠ .ZOMBIE) ∧
    (table.exited.map Exit.pid).Nodup ∧ (table.reaped.map Reap.pid).Nodup ∧
    (∀ r ∈ table.reaped, r.parent = some r.waiter ∧ ⟨r.slot, r.pid, r.status⟩ ∈ table.exited) ∧
    (∀ e ∈ table.exited, e.pid ∉ table.reaped.map Reap.pid →
      (table.locks.slot e.slot).state = .ZOMBIE ∧ (table.locks.slot e.slot).pid = e.pid ∧
        (table.fields e.slot).xstate = e.status) ∧
    ∀ c s k, table.locks.cpu c = .run s (.waitHave k) → (table.locks.slot k).state = .ZOMBIE →
      (∃ next, table.step (c, .lock .go) = some next ∧
        next.reaped = ⟨s, some s, k, (table.locks.slot k).pid,
          (table.fields k).xstate⟩ :: table.reaped) ∧
      ∃ next, table.step (c, .lock .fail) = some next ∧
        next.locks.slot = table.locks.slot ∧ next.fields = table.fields ∧
        next.exited = table.exited ∧ next.reaped = table.reaped := by
  have hgood := run_good hrun
  have hledger := hgood.ledger
  refine ⟨?_, hledger.exits, hledger.reaps, hledger.matched, ?_, ?_⟩
  · intro k hk hunused hused
    obtain ⟨q, hq⟩ := Option.ne_none_iff_exists'.mp (hgood.sound.linked k hk hunused hused)
    have hlive := hgood.sound.parent k q hq
    exact ⟨q, hq, hlive.ne_unused, hlive.ne_zombie⟩
  · intro e he hpending
    exact (hledger.kept e he).resolve_left hpending
  · intro c s k hc hzombie
    have hparent := (hgood.sound.holds s _ (Or.inl ⟨c, hc⟩)).child k rfl
    have hgo : ProcLocks.step table.locks ⟨c, .go⟩ =
        some ((table.locks.edit k (fun _ => .unused)).release c (.proc k) (.run s .waitDone)) := by
      simp [ProcLocks.step, hc, stepPc, hzombie]
    have hfail : ProcLocks.step table.locks ⟨c, .fail⟩ =
        some (table.locks.release c (.proc k) (.run s .waitDone)) := by
      simp [ProcLocks.step, hc, stepPc, hzombie]
    refine ⟨⟨_, Table.step_lock hgo (by simp), ?_⟩, ⟨_, Table.step_lock hfail (by simp), rfl, ?_⟩⟩
    · simp [hc, Table.carry, hzombie, hparent]
    · simp [hc, Table.carry]

/-- Lock steps as steps of the table. -/
def lockActs (events : List (Event (Fin 2))) : List (Fin 2 × Act) :=
  events.map (fun event => (event.cpu, .lock event.choice))

/-- CPU 0 runs the first process, which forks; the child exits on CPU 1, and
the parent waits twice, the first time with a bad address. -/
def forkExitWait : List (Fin 2 × Act) :=
  lockActs forkOntoTwoCpus ++ [(1, .exit 7)] ++ lockActs (steps 1 196) ++
    lockActs (⟨0, .start .wait⟩ :: steps 0 4 ++ ⟨0, .fail⟩ :: steps 0 1) ++
    lockActs (⟨0, .start .wait⟩ :: steps 0 6)

/-- The second wait returns the child with its status. -/
theorem exits_reaped_once_forkExitWait :
    ∃ table, run Table.step Table.boot forkExitWait = some table ∧
      table.reaped = [⟨initproc, some initproc, ⟨1, by decide⟩, 2, 7⟩] ∧
      ⟨⟨1, by decide⟩, 2, 7⟩ ∈ table.exited := by
  have hseen : ∃ table ∈ run Table.step Table.boot forkExitWait,
      table.reaped = [⟨initproc, some initproc, ⟨1, by decide⟩, 2, 7⟩] := by
    decide +kernel
  obtain ⟨table, hrun, hreaped⟩ := hseen
  have hmatched := (exits_reaped_once hrun).2.2.2.1
  rw [hreaped] at hmatched
  exact ⟨table, hrun, hreaped, (hmatched _ List.mem_cons_self).2⟩

end ProcLocks

end CkptKernel
