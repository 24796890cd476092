/-
The locks of the process table, `wait_lock` and the `p->lock` of each slot, on
any number of CPUs.  A CPU runs its scheduler or the kernel thread of one
process; every control point below is one acquire or release of these locks,
or the point between two of them.  Calls that take no such lock are points of
`user` and of `restoreBuild`.
-/
import CkptKernel.Types
import CkptKernel.Lib.Machine
import CkptKernel.Lib.LockOrder

namespace CkptKernel

open Function (update)

namespace ProcLocks

/-- Sleep channels: the address of a `struct proc` or of something else. -/
inductive Chan where
  | none
  | proc (s : Slot)
  | other (address : Nat)
deriving DecidableEq, Repr

/-- Code that may sleep, yield or wake others while it holds none of these
locks: ordinary kernel code, and `restore_proc` while it reads the file and
rebuilds descriptors for slot `k`. -/
inductive Resume where
  | user
  | build (k : Slot)
deriving DecidableEq, Repr

inductive WakeRet where
  | resume (r : Resume)
  /-- `reparent`, which goes on with slot `next`. -/
  | reparent (next : Nat)
  /-- `kexit`, after `wakeup(p->parent)`. -/
  | exit
deriving DecidableEq, Repr

/-- Where the kernel thread of a switched-out process goes on. -/
inductive Saved where
  | dead
  | forkret
  /-- After `sched` in `sleep(chan, lk)` for some other lock `lk`. -/
  | sleep (r : Resume)
  /-- After `sched` in `sleep(p, &wait_lock)`. -/
  | wait
  /-- After `sched` in `yield`. -/
  | yield (r : Resume)
deriving DecidableEq, Repr

/-- Control points of a process in the kernel.  A point named after a lock is
about to acquire it, the next one holds it. -/
inductive Pc where
  | user
  -- kfork
  | forkScan (k : Slot)
  | forkHave (k : Slot)
  | forkParent (k : Slot)
  | forkLink (k : Slot)
  | forkRun (k : Slot)
  | forkReady (k : Slot)
  -- restore_proc
  | restoreScan (k : Slot)
  | restoreHave (k : Slot)
  | restoreBuild (k : Slot)
  | restoreBad (k : Slot)
  | restoreFree (k : Slot)
  | restoreLock (k : Slot)
  | restoreWait (k : Slot)
  | restoreLink (k : Slot)
  | restoreReady (k : Slot)
  | restorePanic (k : Slot)
  -- kexit
  | exitAcquire
  | exitReparent (k : Nat)
  | exitSelf
  | exitZombie
  | exitSched
  -- kwait
  | waitAcquire
  | waitScan (k : Nat) (havekids : Bool)
  | waitChild (k : Slot)
  | waitHave (k : Slot)
  | waitDone
  | waitKilled
  | waitKilledHave
  | waitSleep
  | waitSleepHave
  | waitSched
  -- kkill
  | killScan (k : Slot) (pid : Int)
  | killHave (k : Slot) (pid : Int)
  -- sleep, yield, wakeup
  | sleepAcquire (chan : Chan) (r : Resume)
  | sleepSched (r : Resume)
  | yieldAcquire (r : Resume)
  | yieldSched (r : Resume)
  | wakeScan (k : Slot) (chan : Chan) (ret : WakeRet)
  | wakeHave (k : Slot) (chan : Chan) (ret : WakeRet)
  /-- Switched in by the scheduler, which has left `p->lock` held. -/
  | resumed (saved : Saved)
deriving DecidableEq, Repr

/-- What a CPU is doing. -/
inductive Control where
  | schedScan (k : Slot)
  | schedHave (k : Slot)
  /-- Process `k` has switched back to the scheduler. -/
  | schedBack (k : Slot)
  | run (s : Slot) (pc : Pc)
deriving DecidableEq, Repr

def WakeRet.held : WakeRet → List Lock
  | .resume _ => []
  | .reparent _ => [.wait]
  | .exit => [.wait]

/-- Locks held at a control point of process `s`. -/
def Pc.held (s : Slot) : Pc → List Lock
  | .forkHave k => [.proc k]
  | .forkLink _ => [.wait]
  | .forkReady k => [.proc k]
  | .restoreHave k => [.proc k]
  | .restoreFree k => [.proc k]
  | .restoreWait k => [.proc k]
  | .restoreLink k => [.wait, .proc k]
  | .restoreReady k => [.proc k]
  | .restorePanic k => [.proc k]
  | .exitReparent _ => [.wait]
  | .exitSelf => [.wait]
  | .exitZombie => [.wait, .proc s]
  | .exitSched => [.proc s]
  | .waitScan _ _ => [.wait]
  | .waitChild _ => [.wait]
  | .waitHave k => [.wait, .proc k]
  | .waitDone => [.wait]
  | .waitKilled => [.wait]
  | .waitKilledHave => [.wait, .proc s]
  | .waitSleep => [.wait]
  | .waitSleepHave => [.wait, .proc s]
  | .waitSched => [.proc s]
  | .killHave k _ => [.proc k]
  | .sleepSched _ => [.proc s]
  | .yieldSched _ => [.proc s]
  | .wakeScan _ _ ret => ret.held
  | .wakeHave k _ ret => .proc k :: ret.held
  | .resumed _ => [.proc s]
  | _ => []

def Control.held : Control → List Lock
  | .schedScan _ => []
  | .schedHave k => [.proc k]
  | .schedBack k => [.proc k]
  | .run s pc => pc.held s

def Pc.wants (s : Slot) : Pc → Option Lock
  | .forkScan k => some (.proc k)
  | .forkParent _ => some .wait
  | .forkRun k => some (.proc k)
  | .restoreScan k => some (.proc k)
  | .restoreBad k => some (.proc k)
  | .restoreLock k => some (.proc k)
  | .restoreWait _ => some .wait
  | .exitAcquire => some .wait
  | .exitSelf => some (.proc s)
  | .waitAcquire => some .wait
  | .waitChild k => some (.proc k)
  | .waitKilled => some (.proc s)
  | .waitSleep => some (.proc s)
  | .killScan k _ => some (.proc k)
  | .sleepAcquire _ _ => some (.proc s)
  | .yieldAcquire _ => some (.proc s)
  | .wakeScan k _ _ => some (.proc k)
  | _ => none

def Control.wants : Control → Option Lock
  | .schedScan k => some (.proc k)
  | .schedHave _ => none
  | .schedBack _ => none
  | .run s pc => pc.wants s

/-- The fields of `struct proc` that decide between lock steps. -/
structure ProcSlot where
  state : ProcState
  chan : Chan
  killed : Bool
  pid : Nat
  parent : Option Slot
  saved : Saved
deriving DecidableEq, Repr

def ProcSlot.unused : ProcSlot := ⟨.UNUSED, .none, false, 0, none, .dead⟩

structure State (Cpu : Type) where
  cpu : Cpu → Control
  slot : Slot → ProcSlot
  owner : Lock → Option Cpu
  nextpid : Nat

variable {Cpu : Type} [DecidableEq Cpu]

namespace State

def goto (state : State Cpu) (c : Cpu) (control : Control) : State Cpu :=
  { state with cpu := update state.cpu c control }

/-- `acquire`: possible when the lock is free, else the CPU spins.  A CPU that
holds the lock already panics. -/
def acquire (state : State Cpu) (c : Cpu) (lock : Lock) (control : Control) : Option (State Cpu) :=
  match state.owner lock with
  | none => some { state with
      cpu := update state.cpu c control
      owner := update state.owner lock (some c) }
  | some _ => none

def release (state : State Cpu) (c : Cpu) (lock : Lock) (control : Control) : State Cpu :=
  { state with
    cpu := update state.cpu c control
    owner := update state.owner lock none }

def edit (state : State Cpu) (k : Slot) (change : ProcSlot → ProcSlot) : State Cpu :=
  { state with slot := update state.slot k (change (state.slot k)) }

/-- `allocproc` has found slot `k`: it gets a pid and starts at `forkret`. -/
def alloc (state : State Cpu) (k : Slot) : State Cpu :=
  { state.edit k (fun p =>
      { p with state := .USED, pid := state.nextpid, saved := .forkret }) with
    nextpid := state.nextpid + 1 }

/-- Something fails after that: `freeproc` clears the slot again. -/
def giveUp (state : State Cpu) (k : Slot) : State Cpu :=
  (state.alloc k).edit k (fun _ => .unused)

end State

inductive Call where
  | fork
  | restore
  | exit
  | wait
  | kill (pid : Int)
  | sleep (chan : Chan)
  | yield
  | wakeup (chan : Chan)
deriving DecidableEq, Repr

/-- What the environment decides at a control point. -/
inductive Choice where
  | go
  /-- An allocation, a `copyout` or a check fails. -/
  | fail
  /-- `uvmalloc` fails in `restore_proc`. -/
  | noMem
  | start (call : Call)
deriving DecidableEq, Repr

structure Event (Cpu : Type) where
  cpu : Cpu
  choice : Choice
deriving Repr

def Resume.pc : Resume → Pc
  | .user => .user
  | .build k => .restoreBuild k

def WakeRet.pc : WakeRet → Pc
  | .resume r => r.pc
  | .reparent next => .exitReparent next
  | .exit => .exitSelf

theorem firstSlot_lt : 0 < NPROC := by decide

def firstSlot : Slot := ⟨0, firstSlot_lt⟩

/-- Go on with the slot after `k`, or leave the loop. -/
def scanFrom (k : Nat) (body : Slot → Pc) (done : Pc) : Pc :=
  if h : k < NPROC then body ⟨k, h⟩ else done

/-- The loop of `wakeup` from slot `k` on, which skips `myproc()`. -/
def wakeFrom (self : Slot) (k : Nat) (chan : Chan) (ret : WakeRet) : Pc :=
  scanFrom (if k = self.val then k + 1 else k)
    (fun next => .wakeScan next chan ret) ret.pc

def Call.entry (s : Slot) (r : Resume) : Call → Option Pc
  | .sleep chan => some (.sleepAcquire chan r)
  | .yield => some (.yieldAcquire r)
  | .wakeup chan => some (wakeFrom s 0 chan (.resume r))
  | .fork => if r = .user then some (.forkScan firstSlot) else none
  | .restore => if r = .user then some (.restoreScan firstSlot) else none
  | .exit => if r = .user ∧ s ≠ initproc then some .exitAcquire else none
  | .wait => if r = .user then some .waitAcquire else none
  | .kill pid => if r = .user then some (.killScan firstSlot pid) else none

/-- The channel `wakeup(p->parent)` wakes. -/
def parentChan : Option Slot → Chan
  | none => .none
  | some parent => .proc parent

def ProcSlot.wake (chan : Chan) (p : ProcSlot) : ProcSlot :=
  if p.state = .SLEEPING ∧ p.chan = chan then { p with state := .RUNNABLE }
  else p

/-- `kkill` at the slot it was looking for. -/
def ProcSlot.kill (p : ProcSlot) : ProcSlot :=
  { p with
    killed := true
    state := if p.state = .SLEEPING then .RUNNABLE else p.state }

/-- One step of process `s` on CPU `c`. -/
def stepPc (state : State Cpu) (c : Cpu) (s : Slot) (pc : Pc)
    (choice : Choice) : Option (State Cpu) :=
  match pc with
  | .user =>
    match choice with
    | .start call => (call.entry s .user).map
        (fun pc => state.goto c (.run s pc))
    | _ => none
  | .forkScan k => state.acquire c (.proc k) (.run s (.forkHave k))
  | .forkHave k =>
    if (state.slot k).state = .UNUSED then
      if choice = .go then
        some ((state.alloc k).release c (.proc k) (.run s (.forkParent k)))
      else some ((state.giveUp k).release c (.proc k) (.run s .user))
    else some (state.release c (.proc k)
      (.run s (scanFrom (k + 1) .forkScan .user)))
  | .forkParent k => state.acquire c .wait (.run s (.forkLink k))
  | .forkLink k =>
    some ((state.edit k (fun p => { p with parent := some s })).release c
      .wait (.run s (.forkRun k)))
  | .forkRun k => state.acquire c (.proc k) (.run s (.forkReady k))
  | .forkReady k =>
    some ((state.edit k (fun p => { p with state := .RUNNABLE })).release c
      (.proc k) (.run s .user))
  | .restoreScan k => state.acquire c (.proc k) (.run s (.restoreHave k))
  | .restoreHave k =>
    if (state.slot k).state = .UNUSED then
      match choice with
      | .go => some ((state.alloc k).release c (.proc k)
          (.run s (.restoreBuild k)))
      | .noMem => some ((state.alloc k).goto c (.run s (.restorePanic k)))
      | _ => some ((state.giveUp k).release c (.proc k) (.run s .user))
    else some (state.release c (.proc k)
      (.run s (scanFrom (k + 1) .restoreScan .user)))
  | .restoreBuild k =>
    match choice with
    | .start call => (call.entry s (.build k)).map
        (fun pc => state.goto c (.run s pc))
    | .go => some (state.goto c (.run s (.restoreLock k)))
    | _ => some (state.goto c (.run s (.restoreBad k)))
  | .restoreBad k => state.acquire c (.proc k) (.run s (.restoreFree k))
  | .restoreFree k =>
    some ((state.edit k (fun _ => .unused)).release c (.proc k)
      (.run s .user))
  | .restoreLock k => state.acquire c (.proc k) (.run s (.restoreWait k))
  | .restoreWait k => state.acquire c .wait (.run s (.restoreLink k))
  | .restoreLink k =>
    some ((state.edit k (fun p => { p with parent := some initproc })).release
      c .wait (.run s (.restoreReady k)))
  | .restoreReady k =>
    some ((state.edit k (fun p => { p with state := .RUNNABLE })).release c
      (.proc k) (.run s .user))
  | .restorePanic _ => none
  | .exitAcquire => state.acquire c .wait (.run s (.exitReparent 0))
  | .exitReparent k =>
    if h : k < NPROC then
      if (state.slot ⟨k, h⟩).parent = some s then
        some ((state.edit ⟨k, h⟩ (fun p =>
          { p with parent := some initproc })).goto c
            (.run s (wakeFrom s 0 (.proc initproc) (.reparent (k + 1)))))
      else some (state.goto c (.run s (.exitReparent (k + 1))))
    else some (state.goto c (.run s
      (wakeFrom s 0 (parentChan (state.slot s).parent) .exit)))
  | .exitSelf => state.acquire c (.proc s) (.run s .exitZombie)
  | .exitZombie =>
    some ((state.edit s (fun p => { p with state := .ZOMBIE })).release c
      .wait (.run s .exitSched))
  | .exitSched =>
    some ((state.edit s (fun p => { p with saved := .dead })).goto c
      (.schedBack s))
  | .waitAcquire => state.acquire c .wait (.run s (.waitScan 0 false))
  | .waitScan k havekids =>
    if h : k < NPROC then
      if (state.slot ⟨k, h⟩).parent = some s then
        some (state.goto c (.run s (.waitChild ⟨k, h⟩)))
      else some (state.goto c (.run s (.waitScan (k + 1) havekids)))
    else if havekids then some (state.goto c (.run s .waitKilled))
    else some (state.goto c (.run s .waitDone))
  | .waitChild k => state.acquire c (.proc k) (.run s (.waitHave k))
  | .waitHave k =>
    if (state.slot k).state = .ZOMBIE then
      if choice = .go then
        some ((state.edit k (fun _ => .unused)).release c (.proc k)
          (.run s .waitDone))
      else some (state.release c (.proc k) (.run s .waitDone))
    else some (state.release c (.proc k) (.run s (.waitScan (k + 1) true)))
  | .waitDone => some (state.release c .wait (.run s .user))
  | .waitKilled => state.acquire c (.proc s) (.run s .waitKilledHave)
  | .waitKilledHave =>
    some (state.release c (.proc s) (.run s
      (if (state.slot s).killed then .waitDone else .waitSleep)))
  | .waitSleep => state.acquire c (.proc s) (.run s .waitSleepHave)
  | .waitSleepHave =>
    some ((state.edit s (fun p =>
      { p with chan := .proc s, state := .SLEEPING })).release c .wait
        (.run s .waitSched))
  | .waitSched =>
    some ((state.edit s (fun p => { p with saved := .wait })).goto c
      (.schedBack s))
  | .killScan k pid => state.acquire c (.proc k) (.run s (.killHave k pid))
  | .killHave k pid =>
    if (state.slot k).pid = pid then
      some ((state.edit k .kill).release c (.proc k) (.run s .user))
    else some (state.release c (.proc k)
      (.run s (scanFrom (k + 1) (.killScan · pid) .user)))
  | .sleepAcquire chan r =>
    (state.edit s (fun p =>
      { p with chan := chan, state := .SLEEPING })).acquire c (.proc s)
        (.run s (.sleepSched r))
  | .sleepSched r =>
    some ((state.edit s (fun p => { p with saved := .sleep r })).goto c
      (.schedBack s))
  | .yieldAcquire r =>
    (state.edit s (fun p => { p with state := .RUNNABLE })).acquire c
      (.proc s) (.run s (.yieldSched r))
  | .yieldSched r =>
    some ((state.edit s (fun p => { p with saved := .yield r })).goto c
      (.schedBack s))
  | .wakeScan k chan ret =>
    state.acquire c (.proc k) (.run s (.wakeHave k chan ret))
  | .wakeHave k chan ret =>
    some ((state.edit k (.wake chan)).release c (.proc k)
      (.run s (wakeFrom s (k + 1) chan ret)))
  | .resumed saved =>
    match saved with
    | .dead => none
    | .forkret => some (state.release c (.proc s) (.run s .user))
    | .sleep r =>
      some ((state.edit s (fun p => { p with chan := .none })).release c
        (.proc s) (.run s r.pc))
    | .wait =>
      some ((state.edit s (fun p => { p with chan := .none })).release c
        (.proc s) (.run s .waitAcquire))
    | .yield r => some (state.release c (.proc s) (.run s r.pc))

/-- The loop of `scheduler` starts over after the last slot. -/
def schedNext (k : Slot) : Slot :=
  if h : k.val + 1 < NPROC then ⟨k.val + 1, h⟩ else firstSlot

def step (state : State Cpu) (event : Event Cpu) : Option (State Cpu) :=
  match state.cpu event.cpu with
  | .schedScan k => state.acquire event.cpu (.proc k) (.schedHave k)
  | .schedHave k =>
    if (state.slot k).state = .RUNNABLE then
      some ((state.edit k (fun p => { p with state := .RUNNING })).goto
        event.cpu (.run k (.resumed (state.slot k).saved)))
    else some (state.release event.cpu (.proc k) (.schedScan (schedNext k)))
  | .schedBack k =>
    some (state.release event.cpu (.proc k) (.schedScan (schedNext k)))
  | .run s pc => stepPc state event.cpu s pc event.choice

/-- After `userinit`: one runnable process, every CPU about to enter its
scheduler loop, no lock held. -/
def State.boot : State Cpu where
  cpu := fun _ => .schedScan firstSlot
  slot := update (fun _ => .unused) initproc
    ⟨.RUNNABLE, .none, false, 1, none, .forkret⟩
  owner := fun _ => none
  nextpid := 2

/-- A cycle of CPUs, each spinning on a lock that the next one holds. -/
def Deadlock (state : State Cpu) : Prop :=
  LockOrder.Deadlock (fun c lock => state.owner lock = some c)
    (fun c => (state.cpu c).wants)

end ProcLocks

end CkptKernel
