/-
Group commit under every interleaving: which operations a commit contains and
who sleeps meanwhile.  Any number of processes run `begin_op`, `log_write` and
`end_op`; each event is one critical section of `log.lock`, or one of the two
halves of `commit`, which runs without the lock.  Operations of one process may
lie inside each other, as in the cleanup of `restore_proc`.
-/
import Mathlib.Algebra.BigOperators.Ring.Finset
import CkptKernel.Log
import CkptKernel.Lib.Machine
import CkptKernel.Lib.TableSum

namespace CkptKernel

open Machine TableSum

namespace GroupCommit

inductive Mode where
  /-- Outside `begin_op` and `end_op`. -/
  | running
  /-- In the loop of `begin_op`. -/
  | reserving (asleep : Bool)
  /-- In `commit`; the flag is set once `log.lh.n` is 0. -/
  | committing (installed : Bool)
deriving DecidableEq, Repr

/-- A process and the operations it has begun and not ended, innermost first.
An operation is the list of blocks it has logged, without repetitions. -/
structure Thread where
  mode : Mode
  ops : List (List Nat)
deriving DecidableEq, Repr

def Thread.woken (thread : Thread) : Thread :=
  match thread.mode with
  | .reserving _ => { thread with mode := .reserving false }
  | _ => thread

/-- A commit that has happened: the block list of its header, and the
operations that had ended since the commit before. -/
structure Transaction where
  blocks : List Nat
  ops : List (List Nat)
deriving DecidableEq, Repr

variable {P : Type} [DecidableEq P]

/-- The log and the processes.  The last two fields record what happened and
are read by no step. -/
structure State (P : Type) where
  log : Log
  thread : P → Thread
  /-- Operations that ended since the last commit. -/
  ended : List (List Nat)
  /-- Commits, latest first. -/
  history : List Transaction

def State.init : State P := ⟨Log.empty, fun _ => ⟨.running, []⟩, [], []⟩

def State.move (state : State P) (p : P) (thread : Thread) : State P :=
  { state with thread := Function.update state.thread p thread }

/-- `wakeup(&log)`. -/
def State.wakeup (state : State P) : State P :=
  { state with thread := fun p => (state.thread p).woken }

inductive Event (P : Type) where
  /-- A process enters `begin_op`. -/
  | enter (p : P)
  /-- One turn of the loop of `begin_op`. -/
  | beginOp (p : P)
  | logWrite (p : P) (blockno : Nat)
  | endOp (p : P)
  /-- `commit` up to `log.lh.n = 0`. -/
  | install (p : P)
  /-- The rest of `commit`, and the second critical section of `end_op`. -/
  | commitDone (p : P)
  /-- `kkill` makes a sleeping process runnable. -/
  | kill (p : P)
deriving Repr

/-- `begin_op` returns. -/
def State.begun (state : State P) (p : P) : State P :=
  { state with log := state.log.reserve }.move p
    ⟨.running, [] :: (state.thread p).ops⟩

/-- `log_write` of the innermost operation `op` returns. -/
def State.logged (state : State P) (p : P) (blockno : Nat) (log : Log)
    (op : List Nat) (outer : List (List Nat)) : State P :=
  { state with log := log }.move p ⟨.running, op.insert blockno :: outer⟩

/-- The innermost operation `op` ends, and `mode` follows. -/
def State.opEnded (state : State P) (p : P) (log : Log) (mode : Mode)
    (op : List Nat) (outer : List (List Nat)) : State P :=
  { state with log := log, ended := op :: state.ended }.move p ⟨mode, outer⟩

/-- The transaction has reached the disk. -/
def State.installed (state : State P) (p : P) : State P :=
  { state with
    log := { state.log with lh := [] }
    ended := []
    history := ⟨state.log.lh, state.ended⟩ :: state.history }.move p
      ⟨.committing true, (state.thread p).ops⟩

def step (state : State P) : Event P → Option (State P)
  | .enter p =>
    match state.thread p with
    | ⟨.running, ops⟩ => some (state.move p ⟨.reserving false, ops⟩)
    | _ => none
  | .beginOp p =>
    match state.thread p with
    | ⟨.reserving false, ops⟩ =>
      if state.log.MustWait then
        some (state.move p ⟨.reserving true, ops⟩)
      else some (state.begun p)
    | _ => none
  | .logWrite p blockno =>
    match state.thread p, state.log.write blockno with
    | ⟨.running, op :: outer⟩, .ok log =>
      some (state.logged p blockno log op outer)
    | _, _ => none
  | .endOp p =>
    match state.thread p, state.log.finish with
    | ⟨.running, op :: outer⟩, .ok (log, true) =>
      some (state.opEnded p log (.committing false) op outer)
    | ⟨.running, op :: outer⟩, .ok (log, false) =>
      some (state.wakeup.opEnded p log .running op outer)
    | _, _ => none
  | .install p =>
    match state.thread p with
    | ⟨.committing false, _⟩ => some (state.installed p)
    | _ => none
  | .commitDone p =>
    match state.thread p with
    | ⟨.committing true, ops⟩ =>
      some ({ state.wakeup with log := state.log.committed }.move p
        ⟨.running, ops⟩)
    | _ => none
  | .kill p =>
    match state.thread p with
    | ⟨.reserving true, ops⟩ => some (state.move p ⟨.reserving false, ops⟩)
    | _ => none

/-- Some operation that ended since the last commit, or is still open, has
logged the block. -/
def State.Logged (state : State P) (blockno : Nat) : Prop :=
  (∃ op ∈ state.ended, blockno ∈ op) ∨ ∃ p, ∃ op ∈ (state.thread p).ops, blockno ∈ op

/-- A commit contains all blocks of its operations and no others, each once.
-/
structure Transaction.Whole (transaction : Transaction) : Prop where
  nodup : transaction.blocks.Nodup
  mem : ∀ blockno, blockno ∈ transaction.blocks ↔ ∃ op ∈ transaction.ops, blockno ∈ op

structure Inv [Fintype P] (state : State P) : Prop where
  count : state.log.outstanding = ∑ p, (state.thread p).ops.length
  /-- Only one process commits, and nothing is open then. -/
  committer : ∀ p installed, (state.thread p).mode = .committing installed →
    state.log.committing = true ∧ ∀ q other, (state.thread q).mode = .committing other → q = p
  quiet : state.log.committing = true → state.log.outstanding = 0
  cleared : ∀ p, (state.thread p).mode = .committing true → state.log.lh = [] ∧ state.ended = []
  nodup : state.log.lh.Nodup
  mem : ∀ blockno, blockno ∈ state.log.lh ↔ state.Logged blockno
  whole : ∀ transaction ∈ state.history, transaction.Whole
  asleep : ∀ p, (state.thread p).mode = .reserving true → state.log.MustWait

/-- What one event did, with what had to hold for it. -/
inductive Took (state : State P) : Event P → State P → Prop where
  | enter (p : P) (hmode : (state.thread p).mode = .running) :
      Took state (.enter p)
        (state.move p ⟨.reserving false, (state.thread p).ops⟩)
  | wait (p : P) (hmode : (state.thread p).mode = .reserving false)
      (hwait : state.log.MustWait) : Took state (.beginOp p)
        (state.move p ⟨.reserving true, (state.thread p).ops⟩)
  | begin (p : P) (hmode : (state.thread p).mode = .reserving false)
      (hwait : ¬ state.log.MustWait) : Took state (.beginOp p) (state.begun p)
  | write (p : P) (blockno : Nat) (log : Log) (op : List Nat)
      (outer : List (List Nat))
      (hthread : state.thread p = ⟨.running, op :: outer⟩)
      (hwrite : state.log.write blockno = .ok log) :
      Took state (.logWrite p blockno) (state.logged p blockno log op outer)
  | endLast (p : P) (log : Log) (op : List Nat) (outer : List (List Nat))
      (hthread : state.thread p = ⟨.running, op :: outer⟩)
      (hfinish : state.log.finish = .ok (log, true)) : Took state (.endOp p)
        (state.opEnded p log (.committing false) op outer)
  | endMore (p : P) (log : Log) (op : List Nat) (outer : List (List Nat))
      (hthread : state.thread p = ⟨.running, op :: outer⟩)
      (hfinish : state.log.finish = .ok (log, false)) :
      Took state (.endOp p) (state.wakeup.opEnded p log .running op outer)
  | install (p : P) (hmode : (state.thread p).mode = .committing false) :
      Took state (.install p) (state.installed p)
  | done (p : P) (hmode : (state.thread p).mode = .committing true) :
      Took state (.commitDone p)
        ({ state.wakeup with log := state.log.committed }.move p
          ⟨.running, (state.thread p).ops⟩)
  | kill (p : P) (hmode : (state.thread p).mode = .reserving true) :
      Took state (.kill p)
        (state.move p ⟨.reserving false, (state.thread p).ops⟩)

variable {state next : State P} {event : Event P}

theorem step_took (hstep : step state event = some next) : Took state event next := by
  cases event with
  | enter p =>
    simp only [step] at hstep
    split at hstep
    next ops hthread =>
      cases hstep
      have htook := @Took.enter P _ state p (by rw [hthread])
      rwa [hthread] at htook
    next => cases hstep
  | beginOp p =>
    simp only [step] at hstep
    split at hstep
    next ops hthread =>
      split at hstep
      next hwait =>
        cases hstep
        have htook := Took.wait p (by rw [hthread]) hwait
        rwa [hthread] at htook
      next hwait =>
        cases hstep
        exact Took.begin p (by rw [hthread]) hwait
    next => cases hstep
  | logWrite p blockno =>
    simp only [step] at hstep
    split at hstep
    next op outer log hthread hwrite =>
      cases hstep
      exact Took.write p blockno log op outer hthread hwrite
    next => cases hstep
  | endOp p =>
    simp only [step] at hstep
    split at hstep
    next op outer log hthread hfinish =>
      cases hstep
      exact Took.endLast p log op outer hthread hfinish
    next op outer log hthread hfinish =>
      cases hstep
      exact Took.endMore p log op outer hthread hfinish
    next => cases hstep
  | install p =>
    simp only [step] at hstep
    split at hstep
    next ops hthread =>
      cases hstep
      exact Took.install p (by rw [hthread])
    next => cases hstep
  | commitDone p =>
    simp only [step] at hstep
    split at hstep
    next ops hthread =>
      cases hstep
      have htook := @Took.done P _ state p (by rw [hthread])
      rwa [hthread] at htook
    next => cases hstep
  | kill p =>
    simp only [step] at hstep
    split at hstep
    next ops hthread =>
      cases hstep
      have htook := @Took.kill P _ state p (by rw [hthread])
      rwa [hthread] at htook
    next => cases hstep

@[simp]
theorem Thread.woken_ops (thread : Thread) : thread.woken.ops = thread.ops := by
  unfold Thread.woken
  split <;> rfl

theorem Thread.woken_committing {thread : Thread} {installed : Bool} :
    thread.woken.mode = .committing installed ↔ thread.mode = .committing installed := by
  unfold Thread.woken
  split
  next asleep hmode => simp [hmode]
  next => rfl

theorem Thread.woken_not_asleep (thread : Thread) : thread.woken.mode ≠ .reserving true := by
  unfold Thread.woken
  split
  next => simp
  next hmode => exact fun hasleep => hmode true hasleep

section

variable (state : State P)

theorem State.logged_move (p : P) (thread : Thread) (blockno : Nat) :
    (state.move p thread).Logged blockno ↔
      (∃ op ∈ state.ended, blockno ∈ op) ∨ (∃ op ∈ thread.ops, blockno ∈ op) ∨
        ∃ q, q ≠ p ∧ ∃ op ∈ (state.thread q).ops, blockno ∈ op := by
  unfold State.Logged State.move
  refine or_congr_right ⟨?_, ?_⟩
  · rintro ⟨q, op, hop, hmem⟩
    by_cases heq : q = p
    · subst heq
      dsimp only at hop
      rw [Function.update_self] at hop
      exact Or.inl ⟨op, hop, hmem⟩
    · dsimp only at hop
      rw [Function.update_of_ne heq] at hop
      exact Or.inr ⟨q, heq, op, hop, hmem⟩
  · rintro (⟨op, hop, hmem⟩ | ⟨q, hne, op, hop, hmem⟩)
    · exact ⟨p, op, by simpa using hop, hmem⟩
    · exact ⟨q, op, by simpa [hne] using hop, hmem⟩

theorem State.move_self (p : P) : state.move p (state.thread p) = state := by
  simp [State.move]

/-- `Logged`, with the part of one process apart. -/
theorem State.logged_at (p : P) (blockno : Nat) :
    state.Logged blockno ↔ (∃ op ∈ state.ended, blockno ∈ op) ∨
        (∃ op ∈ (state.thread p).ops, blockno ∈ op) ∨
          ∃ q, q ≠ p ∧ ∃ op ∈ (state.thread q).ops, blockno ∈ op := by
  rw [← State.logged_move, State.move_self]

theorem State.mode_move (p q : P) (thread : Thread) : ((state.move p thread).thread q).mode =
      if q = p then thread.mode else (state.thread q).mode := by
  by_cases heq : q = p
  · subst heq
    simp [State.move]
  · simp [State.move, heq]

theorem State.sum_move [Fintype P] (p : P) (thread : Thread) :
    (∑ q, ((state.move p thread).thread q).ops.length) + (state.thread p).ops.length =
      (∑ q, (state.thread q).ops.length) + thread.ops.length :=
  sum_update_add (fun thread => thread.ops.length) state.thread p thread

end

variable [Fintype P]

omit [DecidableEq P] in
theorem Inv.wakeup (hinv : Inv state) : Inv state.wakeup where
  count := by simpa [State.wakeup] using hinv.count
  committer := by
    intro p installed hmode
    simp only [State.wakeup, Thread.woken_committing] at hmode ⊢
    exact hinv.committer p installed hmode
  quiet := hinv.quiet
  cleared := by
    intro p hmode
    simp only [State.wakeup, Thread.woken_committing] at hmode
    exact hinv.cleared p hmode
  nodup := hinv.nodup
  mem := by simpa [State.wakeup, State.Logged] using hinv.mem
  whole := hinv.whole
  asleep := fun p hmode => absurd hmode (Thread.woken_not_asleep _)

variable {p : P}

/-- A process goes to another place outside `commit`, its operations
unchanged. -/
theorem Inv.moveMode {mode : Mode} (hinv : Inv state)
    (hnew : ∀ installed, mode ≠ .committing installed)
    (hsleep : mode = .reserving true → state.log.MustWait) :
    Inv (state.move p ⟨mode, (state.thread p).ops⟩) where
  count := by
    have hsum := state.sum_move p ⟨mode, (state.thread p).ops⟩
    rw [← hinv.count] at hsum
    exact (Nat.add_right_cancel hsum).symm
  committer := by
    intro q installed hmode
    rw [State.mode_move] at hmode
    split at hmode
    next => exact absurd hmode (hnew installed)
    next =>
      obtain ⟨hflag, honly⟩ := hinv.committer q installed hmode
      refine ⟨hflag, fun r other hother => ?_⟩
      rw [State.mode_move] at hother
      split at hother
      next => exact absurd hother (hnew other)
      next => exact honly r other hother
  quiet := hinv.quiet
  cleared := by
    intro q hmode
    rw [State.mode_move] at hmode
    split at hmode
    next => exact absurd hmode (hnew true)
    next => exact hinv.cleared q hmode
  nodup := hinv.nodup
  mem := by
    intro blockno
    rw [State.logged_move, ← State.logged_at]
    exact hinv.mem blockno
  whole := hinv.whole
  asleep := by
    intro q hmode
    rw [State.mode_move] at hmode
    split at hmode
    next => exact hsleep hmode
    next => exact hinv.asleep q hmode

omit [DecidableEq P] in
theorem Inv.no_committer (hinv : Inv state) (hflag : state.log.committing = false) (p : P)
    (installed : Bool) : (state.thread p).mode ≠ .committing installed := by
  intro hmode
  have := (hinv.committer p installed hmode).1
  simp [hflag] at this

omit [DecidableEq P] in
/-- While an operation is open, nothing commits. -/
theorem Inv.committing_of_open (hinv : Inv state)
    (hopen : (state.thread p).ops ≠ []) : state.log.committing = false := by
  cases hflag : state.log.committing with
  | false => rfl
  | true =>
    have hle := le_sum (fun thread => thread.ops.length) state.thread p
    rw [← hinv.count, hinv.quiet hflag] at hle
    exact absurd (List.length_eq_zero_iff.mp (by omega)) hopen

variable {log : Log}

/-- A process changes its operations, and the log with them, while nothing
commits. -/
theorem Inv.moveOps {ended ops : List (List Nat)} (hinv : Inv state)
    (hbefore : state.log.committing = false) (hafter : log.committing = false)
    (hcount : log.outstanding + (state.thread p).ops.length =
      state.log.outstanding + ops.length) (hnodup : log.lh.Nodup)
    (hmem : ∀ blockno, blockno ∈ log.lh ↔
      (∃ op ∈ ended, blockno ∈ op) ∨ (∃ op ∈ ops, blockno ∈ op) ∨
        ∃ q, q ≠ p ∧ ∃ op ∈ (state.thread q).ops, blockno ∈ op)
    (hsleep : ∀ q, (state.thread q).mode = .reserving true → log.MustWait) :
    Inv ({ state with log := log, ended := ended }.move p ⟨.running, ops⟩) := by
  have hnone : ∀ q installed, (({ state with log := log, ended := ended }.move p
        ⟨.running, ops⟩).thread q).mode ≠ .committing installed := by
    intro q installed
    rw [State.mode_move]
    split
    next => simp
    next => exact hinv.no_committer hbefore q installed
  constructor
  · have hsum := State.sum_move { state with log := log, ended := ended } p ⟨.running, ops⟩
    have hopen := hinv.count
    dsimp only at hsum
    change log.outstanding = _
    omega
  · exact fun q installed hmode => absurd hmode (hnone q installed)
  · intro hflag
    change log.committing = true at hflag
    simp [hafter] at hflag
  · exact fun q hmode => absurd hmode (hnone q true)
  · exact hnodup
  · intro blockno
    rw [State.logged_move]
    exact hmem blockno
  · exact hinv.whole
  · intro q hmode
    rw [State.mode_move] at hmode
    split at hmode
    next => simp at hmode
    next => exact hsleep q hmode

theorem Inv.begun (hinv : Inv state) (hwait : ¬ state.log.MustWait) : Inv (state.begun p) := by
  have hflag : state.log.committing = false := by
    cases h : state.log.committing with
    | false => rfl
    | true => exact absurd (Or.inl h) hwait
  refine hinv.moveOps hflag hflag ?_ hinv.nodup ?_ ?_
  · simp only [Log.reserve, List.length_cons]
    omega
  · intro blockno
    change blockno ∈ state.log.lh ↔ _
    rw [hinv.mem, State.logged_at state p]
    simp
  · intro q hmode
    exact absurd (hinv.asleep q hmode) hwait

variable {blockno : Nat} {op : List Nat}

section

variable (hinv : Inv state)
include hinv

theorem Inv.logged {outer : List (List Nat)} (hthread : state.thread p = ⟨.running, op :: outer⟩)
    (hwrite : state.log.write blockno = .ok log) : Inv (state.logged p blockno log op outer) := by
  have hflag : state.log.committing = false :=
    hinv.committing_of_open (p := p) (by simp [hthread])
  have hops : (state.thread p).ops = op :: outer := by rw [hthread]
  obtain ⟨-, -, rfl⟩ := Log.write_eq_ok hwrite
  refine hinv.moveOps hflag hflag ?_ (state.log.absorb_nodup hinv.nodup) ?_ ?_
  · rw [hops]
    rfl
  · intro other
    rw [Log.mem_absorb, hinv.mem, State.logged_at state p, hops]
    simp only [List.mem_cons, exists_eq_or_imp, List.mem_insert_iff]
    grind
  · intro q hmode
    refine (hinv.asleep q hmode).mono rfl ?_ le_rfl
    unfold Log.absorb
    split <;> simp

theorem Inv.endMore {outer : List (List Nat)} (hthread : state.thread p = ⟨.running, op :: outer⟩)
    (hfinish : state.log.finish = .ok (log, false)) :
    Inv (state.wakeup.opEnded p log .running op outer) := by
  obtain ⟨hflag, hmore, rfl⟩ := Log.finish_eq_more hfinish
  have hops : (state.wakeup.thread p).ops = op :: outer := by
    simp [State.wakeup, hthread]
  refine hinv.wakeup.moveOps hflag hflag ?_ hinv.nodup ?_ ?_
  · rw [hops]
    simp only [State.wakeup, List.length_cons]
    omega
  · intro other
    change other ∈ state.log.lh ↔ _
    have hmem := hinv.wakeup.mem other
    rw [State.logged_at state.wakeup p, hops] at hmem
    rw [show other ∈ state.log.lh ↔ other ∈ state.wakeup.log.lh from Iff.rfl, hmem]
    simp only [List.mem_cons, exists_eq_or_imp]
    grind
  · intro q hmode
    exact absurd hmode (Thread.woken_not_asleep _)

theorem Inv.endLast {outer : List (List Nat)} (hthread : state.thread p = ⟨.running, op :: outer⟩)
    (hfinish : state.log.finish = .ok (log, true)) :
    Inv (state.opEnded p log (.committing false) op outer) := by
  obtain ⟨hflag, hlast, rfl⟩ := Log.finish_eq_last hfinish
  have hops : (state.thread p).ops = op :: outer := by rw [hthread]
  have hnone := hinv.no_committer hflag
  unfold State.opEnded
  constructor
  · have hsum := State.sum_move
      { state with
        log := { state.log with outstanding := 0, committing := true }
        ended := op :: state.ended } p ⟨.committing false, outer⟩
    have hopen := hinv.count
    simp only [hops, List.length_cons] at hsum
    change 0 = _
    omega
  · intro q installed hmode
    rw [State.mode_move] at hmode
    split at hmode
    next heq =>
      refine ⟨rfl, fun r other hother => ?_⟩
      rw [State.mode_move] at hother
      split at hother
      next heq' => rw [heq, heq']
      next => exact absurd hother (hnone r other)
    next => exact absurd hmode (hnone q installed)
  · exact fun _ => rfl
  · intro q hmode
    rw [State.mode_move] at hmode
    split at hmode
    next => simp at hmode
    next => exact absurd hmode (hnone q true)
  · exact hinv.nodup
  · intro other
    rw [State.logged_move]
    change other ∈ state.log.lh ↔ _
    rw [hinv.mem, State.logged_at state p, hops]
    simp only [List.mem_cons, exists_eq_or_imp]
    grind
  · exact hinv.whole
  · exact fun _ _ => Or.inl rfl

omit [DecidableEq P] in
/-- While a commit runs, no operation is open. -/
theorem Inv.ops_of_committing (hflag : state.log.committing = true) (p : P) :
    (state.thread p).ops = [] := by
  by_contra hopen
  rw [hinv.committing_of_open hopen] at hflag
  simp at hflag

omit [DecidableEq P] in
theorem Inv.logged_of_committing (hflag : state.log.committing = true) (blockno : Nat) :
    state.Logged blockno ↔ ∃ op ∈ state.ended, blockno ∈ op := by
  simp [State.Logged, hinv.ops_of_committing hflag]

theorem Inv.installed (hmode : (state.thread p).mode = .committing false) :
    Inv (state.installed p) := by
  obtain ⟨hflag, honly⟩ := hinv.committer p false hmode
  have hops := hinv.ops_of_committing hflag
  constructor
  · have hsum := State.sum_move
      { state with
        log := { state.log with lh := [] }
        ended := []
        history := ⟨state.log.lh, state.ended⟩ :: state.history } p
      ⟨.committing true, (state.thread p).ops⟩
    exact hinv.count.trans (Nat.add_right_cancel hsum).symm
  · intro q installed hq
    refine ⟨hflag, fun r other hr => ?_⟩
    unfold State.installed at hq hr
    rw [State.mode_move] at hq hr
    have hpq : q = p := by
      split at hq
      next heq => exact heq
      next => exact honly q installed hq
    have hpr : r = p := by
      split at hr
      next heq => exact heq
      next => exact honly r other hr
    rw [hpq, hpr]
  · exact hinv.quiet
  · exact fun _ _ => ⟨rfl, rfl⟩
  · exact List.nodup_nil
  · intro blockno
    unfold State.installed
    rw [State.logged_move]
    simp [hops, State.move]
  · intro transaction hmem
    rcases List.mem_cons.mp hmem with rfl | hold
    · refine ⟨hinv.nodup, fun blockno => ?_⟩
      exact (hinv.mem blockno).trans (hinv.logged_of_committing hflag blockno)
    · exact hinv.whole transaction hold
  · exact fun _ _ => Or.inl hflag

end

theorem Inv.done {state : State P} {p : P} (hinv : Inv state)
    (hmode : (state.thread p).mode = .committing true) :
    Inv ({ state.wakeup with log := state.log.committed }.move p
      ⟨.running, (state.thread p).ops⟩) := by
  obtain ⟨hflag, honly⟩ := hinv.committer p true hmode
  obtain ⟨hlh, hended⟩ := hinv.cleared p hmode
  have hops := hinv.ops_of_committing hflag
  have hnone : ∀ q installed, (({ state.wakeup with log := state.log.committed }.move p
        ⟨.running, (state.thread p).ops⟩).thread q).mode ≠ .committing installed := by
    intro q installed hq
    rw [State.mode_move] at hq
    split at hq
    next => simp at hq
    next hne => exact hne (honly q installed (Thread.woken_committing.mp hq))
  constructor
  · have hsum := State.sum_move
      { state.wakeup with log := state.log.committed } p
      ⟨.running, (state.thread p).ops⟩
    have hopen := hinv.count
    simp only [State.wakeup, Thread.woken_ops] at hsum
    change state.log.outstanding = _
    simp only [State.wakeup]
    omega
  · exact fun q installed hq => absurd hq (hnone q installed)
  · intro hafter
    simp [State.move, Log.committed] at hafter
  · exact fun q hq => absurd hq (hnone q true)
  · exact List.nodup_nil
  · intro blockno
    rw [State.logged_move]
    simp [hops, State.move, State.wakeup, hended, Log.committed]
  · exact hinv.whole
  · intro q hq
    rw [State.mode_move] at hq
    split at hq
    next => simp at hq
    next => exact absurd hq (Thread.woken_not_asleep _)

theorem step_inv (hinv : Inv state) (hstep : step state event = some next) : Inv next := by
  cases step_took hstep with
  | enter p => exact hinv.moveMode (by simp) (by simp)
  | wait p _ hwait => exact hinv.moveMode (by simp) (fun _ => hwait)
  | begin p _ hwait => exact hinv.begun hwait
  | write p blockno log op outer hthread hwrite =>
    exact hinv.logged hthread hwrite
  | endLast p log op outer hthread hfinish => exact hinv.endLast hthread hfinish
  | endMore p log op outer hthread hfinish => exact hinv.endMore hthread hfinish
  | install p hmode => exact hinv.installed hmode
  | done p hmode => exact hinv.done hmode
  | kill p => exact hinv.moveMode (by simp) (by simp)

omit [DecidableEq P] in
theorem inv_init : Inv (State.init : State P) := by
  constructor <;> simp [State.init, Log.empty, State.Logged]

theorem run_inv {events : List (Event P)}
    (hrun : run step State.init events = some state) : Inv state :=
  run_invariant (fun _ _ _ hinv _ hstep => step_inv hinv hstep) inv_init
    (runMeets_of_forall (fun _ _ => trivial) State.init) hrun

/-- Group commit never splits an operation: while `commit` runs nothing is
open, starts or logs; its header lists the blocks of the operations that ended
since the commit before, each once; and nobody sleeps in `begin_op` once the
reason to wait is gone. -/
theorem commit_whole {events : List (Event P)} {state : State P}
    (hrun : run step State.init events = some state) :
    (∀ p installed, (state.thread p).mode = .committing installed →
      state.log.committing = true) ∧ (state.log.committing = true →
      state.log.outstanding = 0 ∧ (∀ p, (state.thread p).ops = []) ∧
      (∀ p blockno, step state (.logWrite p blockno) = none) ∧
      ∀ p next, step state (.beginOp p) = some next →
        next = state.move p ⟨.reserving true, (state.thread p).ops⟩) ∧
    (∀ p, (state.thread p).mode = .committing false →
      Transaction.Whole ⟨state.log.lh, state.ended⟩) ∧
    (∀ transaction ∈ state.history, transaction.Whole) ∧ (state.log.committing = false →
      state.log.lh.length + (state.log.outstanding + 1) * MAXOPBLOCKS ≤
        LOGBLOCKS → ∀ p, (state.thread p).mode ≠ .reserving true) := by
  have hinv := run_inv hrun
  refine ⟨fun p installed hmode => (hinv.committer p installed hmode).1, ?_, ?_, hinv.whole, ?_⟩
  · intro hflag
    have hops := hinv.ops_of_committing hflag
    refine ⟨hinv.quiet hflag, hops, fun p blockno => ?_, fun p next hstep => ?_⟩
    · cases hstep : step state (.logWrite p blockno) with
      | none => rfl
      | some next =>
        cases step_took hstep with
        | write _ _ log op outer hthread _ =>
          have hnone := hops p
          rw [hthread] at hnone
          cases hnone
    · cases step_took hstep with
      | wait => rfl
      | begin _ _ hwait => exact absurd (Or.inl hflag) hwait
  · intro p hmode
    have hflag := (hinv.committer p false hmode).1
    exact ⟨hinv.nodup, fun blockno =>
      (hinv.mem blockno).trans (hinv.logged_of_committing hflag blockno)⟩
  · intro hflag hspace p hmode
    rcases hinv.asleep p hmode with hcommit | hfull
    · rw [hflag] at hcommit
      cases hcommit
    · omega

/-- Two operations that overlap, and a third process that arrives while their
commit runs. -/
def overlapping : List (Event (Fin 3)) :=
  [.enter 0, .beginOp 0, .logWrite 0 45, .enter 1, .beginOp 1, .logWrite 1 46,
    .logWrite 1 45, .endOp 0, .logWrite 1 47, .endOp 1, .enter 2, .beginOp 2]

theorem commit_whole_overlapping : ∃ state, run step State.init overlapping = some state ∧
      (state.thread 1).mode = .committing false ∧
      state.log.lh = [45, 46, 47] ∧ state.ended = [[47, 45, 46], [45]] ∧
      Transaction.Whole ⟨state.log.lh, state.ended⟩ := by
  refine ⟨_, rfl, by decide, by decide, by decide, ?_⟩
  exact (@commit_whole (Fin 3) _ _ overlapping _ rfl).2.2.1 1 rfl

/-- The operation that logs the block stays within `MAXOPBLOCKS` blocks. -/
def WithinQuota (state : State P) : Event P → Prop
  | .logWrite p blockno =>
    ∀ op ∈ (state.thread p).ops.head?, (op.insert blockno).length ≤ MAXOPBLOCKS
  | _ => True

instance (state : State P) : (event : Event P) → Decidable (WithinQuota state event)
  | .logWrite p _ =>
    inferInstanceAs (Decidable (∀ op ∈ (state.thread p).ops.head?, _))
  | .enter _ | .beginOp _ | .endOp _ | .install _ | .commitDone _ | .kill _ =>
    isTrue trivial

/-- Blocks the open operations of a process may still add. -/
def Thread.room (thread : Thread) : Nat :=
  (thread.ops.map (fun op => MAXOPBLOCKS - op.length)).sum

theorem Thread.room_le (thread : Thread) : thread.room ≤ thread.ops.length * MAXOPBLOCKS := by
  unfold Thread.room
  induction thread.ops with
  | nil => simp
  | cons op rest ih =>
    simp only [List.map_cons, List.sum_cons, List.length_cons]
    rw [Nat.succ_mul]
    omega

@[simp]
theorem Thread.woken_room (thread : Thread) : thread.woken.room = thread.room := by
  simp [Thread.room]

/-- Unused reservations still fit into the log. -/
def Reserved (state : State P) : Prop :=
  state.log.lh.length + ∑ p, (state.thread p).room ≤ LOGBLOCKS

theorem State.room_move (state : State P) (p : P) (thread : Thread) :
    (∑ q, ((state.move p thread).thread q).room) + (state.thread p).room =
      (∑ q, (state.thread q).room) + thread.room :=
  sum_update_add Thread.room state.thread p thread

theorem Reserved.move {thread : Thread} {ended : List (List Nat)} {history : List Transaction}
    (hreserved : Reserved state)
    (hroom : log.lh.length + thread.room ≤ state.log.lh.length + (state.thread p).room) :
    Reserved (State.move ⟨log, state.thread, ended, history⟩ p thread) := by
  have hsum := State.room_move ⟨log, state.thread, ended, history⟩ p thread
  unfold Reserved at hreserved ⊢
  change log.lh.length + _ ≤ _
  dsimp only at hsum
  omega

omit [DecidableEq P] in
theorem Reserved.wakeup (hreserved : Reserved state) : Reserved state.wakeup := by
  simpa [Reserved, State.wakeup] using hreserved

theorem Reserved.begun (hinv : Inv state)
    (hwait : ¬ state.log.MustWait) : Reserved (state.begun p) := by
  have hspace : state.log.lh.length + (state.log.outstanding + 1) * MAXOPBLOCKS ≤ LOGBLOCKS := by
    by_contra hfull
    exact hwait (Or.inr (Nat.lt_of_not_le hfull))
  have hsum := State.room_move { state with log := state.log.reserve } p
    ⟨.running, [] :: (state.thread p).ops⟩
  have htotal : ∑ q, (state.thread q).room ≤ state.log.outstanding * MAXOPBLOCKS := by
    rw [hinv.count, Finset.sum_mul]
    exact Finset.sum_le_sum fun q _ => (state.thread q).room_le
  have hnew : (⟨.running, [] :: (state.thread p).ops⟩ : Thread).room =
      MAXOPBLOCKS + (state.thread p).room := by
    simp [Thread.room]
  unfold Reserved
  change state.log.lh.length + _ ≤ _
  unfold State.begun
  dsimp only at hsum
  rw [Nat.succ_mul] at hspace
  omega

omit [Fintype P] [DecidableEq P] in
theorem room_insert (hnew : blockno ∉ op) (hquota : (op.insert blockno).length ≤ MAXOPBLOCKS) :
    MAXOPBLOCKS - (op.insert blockno).length + 1 = MAXOPBLOCKS - op.length := by
  rw [List.length_insert_of_not_mem hnew] at hquota ⊢
  omega

theorem Reserved.logged {outer : List (List Nat)} (hinv : Inv state) (hreserved : Reserved state)
    (hthread : state.thread p = ⟨.running, op :: outer⟩)
    (hquota : (op.insert blockno).length ≤ MAXOPBLOCKS)
    (hwrite : state.log.write blockno = .ok log) :
    Reserved (state.logged p blockno log op outer) := by
  obtain ⟨-, -, rfl⟩ := Log.write_eq_ok hwrite
  refine hreserved.move ?_
  rw [hthread]
  simp only [Thread.room, List.map_cons, List.sum_cons]
  by_cases hmem : blockno ∈ state.log.lh
  · -- an absorbed write: the operation may or may not have had the block
    have hlength : (state.log.absorb blockno).lh = state.log.lh := by
      simp [Log.absorb, hmem]
    have hgrow : op.length ≤ (op.insert blockno).length := by
      rw [List.length_insert]
      split <;> omega
    rw [hlength]
    omega
  · have hop : blockno ∉ op := by
      intro hop
      refine hmem ((hinv.mem blockno).mpr (Or.inr ⟨p, op, ?_, hop⟩))
      rw [hthread]
      exact List.mem_cons_self
    have hlength : (state.log.absorb blockno).lh.length = state.log.lh.length + 1 := by
      simp [Log.absorb, hmem]
    have hroom := room_insert hop hquota
    omega

theorem step_reserved (hinv : Inv state) (hreserved : Reserved state)
    (hquota : WithinQuota state event) (hstep : step state event = some next) : Reserved next := by
  cases step_took hstep with
  | enter p => exact hreserved.move le_rfl
  | wait p => exact hreserved.move le_rfl
  | begin p _ hwait => exact Reserved.begun hinv hwait
  | write p blockno log op outer hthread hwrite =>
    refine hreserved.logged hinv hthread (hquota op ?_) hwrite
    rw [hthread]
    rfl
  | endLast p log op outer hthread hfinish =>
    obtain ⟨-, -, rfl⟩ := Log.finish_eq_last hfinish
    refine hreserved.move ?_
    rw [hthread]
    simp [Thread.room]
  | endMore p log op outer hthread hfinish =>
    obtain ⟨-, -, rfl⟩ := Log.finish_eq_more hfinish
    refine hreserved.wakeup.move ?_
    simp [State.wakeup, Thread.room, hthread]
  | install p => exact hreserved.move (by simp [Thread.room])
  | done p =>
    refine hreserved.wakeup.move ?_
    simp [State.wakeup, Thread.room, Log.committed]
  | kill p => exact hreserved.move le_rfl

theorem run_reserved {events : List (Event P)}
    (hmeets : RunMeets step WithinQuota State.init events)
    (hrun : run step State.init events = some state) : Reserved state := by
  have hinit : Inv (State.init : State P) ∧ Reserved (State.init : State P) :=
    ⟨inv_init, by simp [Reserved, State.init, Log.empty, Thread.room]⟩
  have hboth := @run_invariant _ _ step WithinQuota
    (fun state : State P => Inv state ∧ Reserved state)
    (fun _ _ _ hinv hquota hstep => ⟨step_inv hinv.1 hstep,
      step_reserved hinv.1 hinv.2 hquota hstep⟩) _ _ _ hinit hmeets hrun
  exact hboth.2

/-- Reservations suffice, save for one case: as long as every operation keeps
to its `MAXOPBLOCKS` blocks, the log never holds more than `LOGBLOCKS`, and
`log_write` panics exactly if it is given a block that a log filled to
`LOGBLOCKS` already has. -/
theorem write_ok_iff {events : List (Event P)} {state : State P}
    (hmeets : RunMeets step WithinQuota State.init events)
    (hrun : run step State.init events = some state) : state.log.lh.length ≤ LOGBLOCKS ∧
    ∀ p blockno, (state.thread p).mode = .running →
      (state.thread p).ops ≠ [] → WithinQuota state (.logWrite p blockno) →
      ((∃ log, state.log.write blockno = .ok log) ↔
        ¬ (state.log.lh.length = LOGBLOCKS ∧ blockno ∈ state.log.lh)) := by
  have hinv := run_inv hrun
  have hreserved := run_reserved hmeets hrun
  have hbound : state.log.lh.length ≤ LOGBLOCKS :=
    (Nat.le_add_right _ _).trans hreserved
  refine ⟨hbound, fun p blockno _ hopen hquota => ?_⟩
  obtain ⟨op, outer, hops⟩ := List.exists_cons_of_ne_nil hopen
  have houtstanding : ¬ state.log.outstanding < 1 := by
    have hle := le_sum (fun thread => thread.ops.length) state.thread p
    rw [← hinv.count, hops] at hle
    simp only [List.length_cons] at hle
    omega
  constructor
  · rintro ⟨log, hwrite⟩ ⟨hfull, -⟩
    have := (Log.write_eq_ok hwrite).1
    omega
  intro hcase
  have hspace : state.log.lh.length < LOGBLOCKS := by
    by_contra hfull
    have hlength : state.log.lh.length = LOGBLOCKS := by omega
    have hmem : blockno ∉ op := by
      intro hop
      refine hcase ⟨hlength, (hinv.mem blockno).mpr (Or.inr ⟨p, op, ?_, hop⟩)⟩
      rw [hops]
      exact List.mem_cons_self
    have hroom := room_insert hmem (hquota op (by rw [hops]; rfl))
    have hle := le_sum Thread.room state.thread p
    have hshare : MAXOPBLOCKS - op.length ≤ (state.thread p).room := by
      simp [Thread.room, hops]
    unfold Reserved at hreserved
    omega
  refine ⟨state.log.absorb blockno, ?_⟩
  unfold Log.write Log.absorb
  rw [if_neg (by omega), if_neg houtstanding]
  split <;> rfl

/-- Three processes that each log ten blocks of their own. -/
def threeFullOperations : List (Event (Fin 3)) :=
  [.enter 0, .enter 1, .enter 2, .beginOp 0, .beginOp 1, .beginOp 2] ++
    (List.range 10).flatMap (fun i =>
      [.logWrite 0 (100 + i), .logWrite 1 (200 + i), .logWrite 2 (300 + i)])

theorem write_ok_iff_threeFullOperations :
    ∃ state, run step State.init threeFullOperations = some state ∧
      state.log.lh.length ≤ LOGBLOCKS ∧ ((∃ log, state.log.write 100 = .ok log) ↔
        ¬ (state.log.lh.length = LOGBLOCKS ∧ 100 ∈ state.log.lh)) := by
  have hmeets : RunMeets step WithinQuota State.init threeFullOperations := by
    decide +kernel
  refine ⟨_, rfl, ?_⟩
  have hall := @write_ok_iff (Fin 3) _ _ threeFullOperations _ hmeets rfl
  exact ⟨hall.1, hall.2 0 100 (by decide +kernel) (by decide +kernel) (by decide +kernel)⟩

/-- The log is exactly full, and the first process writes a block once more
that it has logged already. -/
theorem threeFullOperations_panics :
    ∃ state, RunMeets step WithinQuota State.init threeFullOperations ∧
      run step State.init threeFullOperations = some state ∧ WithinQuota state (.logWrite 0 100) ∧
      state.log.write 100 = .error (.panic "too big a transaction") := by
  refine ⟨_, by decide +kernel, rfl, by decide +kernel, rfl⟩

end GroupCommit

end CkptKernel
