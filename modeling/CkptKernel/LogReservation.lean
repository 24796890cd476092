/-
Log reservations under every interleaving.  Any number of processes run file
system operations; each event is one critical section of `log.lock` or one
step of a process between two of them.  The one path that opens a transaction
inside another is the cleanup of `restore_proc`, whose `fileclose` calls run
before its own `end_op`.
-/
import CkptKernel.Log
import CkptKernel.Types
import CkptKernel.Lib.Machine
import CkptKernel.Lib.TableSum

namespace CkptKernel

open Machine TableSum

/-- Closing the last reference to such a file runs a transaction of its own
(`fileclose` calls `begin_op`, `iput`, `end_op`). -/
def FileType.ClosesInode (type : FileType) : Prop :=
  type = .inode ∨ type = .device

instance (type : FileType) : Decidable type.ClosesInode :=
  inferInstanceAs (Decidable (_ ∨ _))

namespace LogReservation

/-- The transactions a process can be about to open or inside of. -/
inductive Transaction where
  /-- The `begin_op .. end_op` of a file system call other than restore. -/
  | call
  /-- The `begin_op .. end_op` of `restore_proc`. -/
  | restore
  /-- The `begin_op .. end_op` of a `fileclose` that `restore_proc` calls at
  `bad`, with the files it still has to close afterwards. -/
  | close (rest : List FileType)
deriving DecidableEq, Repr

/-- Where a process stands. -/
inductive Task where
  | user
  /-- In the loop of `begin_op`. -/
  | reserving (transaction : Transaction) (asleep : Bool)
  /-- Between `begin_op` and `end_op`. -/
  | inside (transaction : Transaction)
  /-- `restore_proc` at `bad`, with the entries of `np->ofile` left to close.
  -/
  | cleanup (files : List FileType)
  /-- In `end_op`, running `commit` without the lock. -/
  | committing (transaction : Transaction)
deriving DecidableEq, Repr

/-- Where `end_op` returns to. -/
def Transaction.after : Transaction → Task
  | .call => .user
  | .restore => .user
  | .close rest => .cleanup rest

/-- Outstanding operations a process owns while it is about to open the
transaction, or has ended it. -/
def Transaction.outer : Transaction → Nat
  | .call => 0
  | .restore => 0
  | .close _ => 1

/-- Outstanding operations a process owns. -/
def Task.owned : Task → Nat
  | .user => 0
  | .reserving transaction _ => transaction.outer
  | .inside transaction => transaction.outer + 1
  | .cleanup _ => 1
  | .committing transaction => transaction.outer

def Task.woken : Task → Task
  | .reserving transaction _ => .reserving transaction false
  | task => task

variable {P : Type} [DecidableEq P]

structure State (P : Type) where
  log : Log
  task : P → Task

def State.init : State P := ⟨Log.empty, fun _ => .user⟩

def State.move (state : State P) (p : P) (log : Log) (task : Task) : State P :=
  ⟨log, Function.update state.task p task⟩

def State.moveAll (state : State P) (p : P) (log : Log) (task : Task) : State P :=
  ⟨log, Function.update (fun q => (state.task q).woken) p task⟩

inductive Event (P : Type) where
  /-- A file system call, or a restore, starts. -/
  | enter (p : P) (restoring : Bool)
  /-- One turn of the loop of `begin_op`. -/
  | beginOp (p : P)
  | logWrite (p : P) (blockno : Nat)
  /-- `restore_proc` jumps to `bad` with these open files in `np->ofile`. -/
  | fail (p : P) (files : List FileType)
  /-- The cleanup loop reaches its next file. -/
  | fileclose (p : P)
  | endOp (p : P)
  | commitDone (p : P)
  /-- `kkill` makes a sleeping process runnable. -/
  | kill (p : P)
deriving Repr

/-- `end_op` of a process that leaves `transaction`. -/
def endOp (state : State P) (p : P) (transaction : Transaction) : Option (State P) :=
  match state.log.finish with
  | .error _ => none
  | .ok (log, true) => some (state.move p log (.committing transaction))
  | .ok (log, false) => some (state.moveAll p log transaction.after)

def step (state : State P) : Event P → Option (State P)
  | .enter p restoring =>
    match state.task p with
    | .user => some (state.move p state.log
        (.reserving (if restoring then .restore else .call) false))
    | _ => none
  | .beginOp p =>
    match state.task p with
    | .reserving transaction false =>
      if state.log.MustWait then
        some (state.move p state.log (.reserving transaction true))
      else some (state.move p state.log.reserve (.inside transaction))
    | _ => none
  | .logWrite p blockno =>
    match state.task p, state.log.write blockno with
    | .inside transaction, .ok log =>
      some (state.move p log (.inside transaction))
    | .cleanup files, .ok log => some (state.move p log (.cleanup files))
    | _, _ => none
  | .fail p files =>
    match state.task p with
    | .inside .restore => some (state.move p state.log (.cleanup files))
    | _ => none
  | .fileclose p =>
    match state.task p with
    | .cleanup (file :: rest) =>
      if file.ClosesInode then
        some (state.move p state.log (.reserving (.close rest) false))
      else some (state.move p state.log (.cleanup rest))
    | _ => none
  | .endOp p =>
    match state.task p with
    | .inside transaction => endOp state p transaction
    | .cleanup [] => endOp state p .restore
    | _ => none
  | .commitDone p =>
    match state.task p with
    | .committing transaction =>
      some (state.moveAll p state.log.committed transaction.after)
    | _ => none
  | .kill p =>
    match state.task p with
    | .reserving transaction true =>
      some (state.move p state.log (.reserving transaction false))
    | _ => none

/-- Operations are outstanding, nothing commits, and every process that owns
one of them is asleep in `begin_op`. -/
def Stuck (state : State P) : Prop :=
  0 < state.log.outstanding ∧ state.log.committing = false ∧ ∀ p, 0 < (state.task p).owned →
      ∃ transaction, state.task p = .reserving transaction true

/-- A restore that fails has built no file whose closing opens a transaction.
-/
def Event.FlatCleanup : Event P → Prop
  | .fail _ files => ∀ file ∈ files, ¬ file.ClosesInode
  | _ => True

/-- No transaction of this task lies inside another. -/
def Task.Flat : Task → Prop
  | .reserving (.close _) _ => False
  | .inside (.close _) => False
  | .committing (.close _) => False
  | .cleanup files => ∀ file ∈ files, ¬ file.ClosesInode
  | _ => True

theorem Task.woken_owned (task : Task) : task.woken.owned = task.owned := by
  cases task <;> rfl

theorem Task.woken_flat {task : Task} (hflat : task.Flat) : task.woken.Flat := by
  cases task with
  | reserving transaction asleep =>
    cases transaction with
    | close rest => exact hflat
    | call => trivial
    | restore => trivial
  | _ => exact hflat

theorem Transaction.after_owned (transaction : Transaction) :
    transaction.after.owned = transaction.outer := by
  cases transaction <;> rfl

/-- A flat task that owns an operation is not in `begin_op`. -/
theorem Task.Flat.not_reserving {task : Task} (hflat : task.Flat) (howned : 0 < task.owned)
    (transaction : Transaction) (asleep : Bool) : task ≠ .reserving transaction asleep := by
  rintro rfl
  cases transaction with
  | close rest => exact hflat
  | call => simp [Task.owned, Transaction.outer] at howned
  | restore => simp [Task.owned, Transaction.outer] at howned

/-- What any step does: one process moves, sleepers may wake, and the count of
outstanding operations follows the operations the process owns. -/
structure Moves (state next : State P) (event : Event P) (p : P)
    (task : Task) : Prop where
  tasks : next.task = Function.update state.task p task ∨
    next.task = Function.update (fun q => (state.task q).woken) p task
  count : (state.task p).owned ≤ state.log.outstanding →
    next.log.outstanding + (state.task p).owned = state.log.outstanding + task.owned
  flat : event.FlatCleanup → (state.task p).Flat → task.Flat

theorem finish_outstanding {log next : Log} {commit : Bool}
    (hfinish : log.finish = .ok (next, commit)) : next.outstanding = log.outstanding - 1 := by
  cases commit with
  | true =>
    obtain ⟨-, hlast, rfl⟩ := Log.finish_eq_last hfinish
    exact (Nat.sub_eq_zero_of_le hlast).symm
  | false =>
    obtain ⟨-, -, rfl⟩ := Log.finish_eq_more hfinish
    rfl

theorem endOp_moves {state next : State P} {p : P} {transaction : Transaction} {event : Event P}
    (howned : (state.task p).owned = transaction.outer + 1)
    (hflat : (state.task p).Flat → transaction.after.Flat ∧ (Task.committing transaction).Flat)
    (hend : endOp state p transaction = some next) : ∃ task, Moves state next event p task := by
  unfold endOp at hend
  cases hfinish : state.log.finish with
  | error reason => simp [hfinish] at hend
  | ok result =>
    obtain ⟨log, commit⟩ := result
    have hcount := finish_outstanding hfinish
    cases commit with
    | true =>
      simp only [hfinish, Option.some.injEq] at hend
      subst hend
      refine ⟨.committing transaction, Or.inl rfl, ?_, fun _ h => (hflat h).2⟩
      intro hle
      change log.outstanding + (state.task p).owned = state.log.outstanding + transaction.outer
      omega
    | false =>
      simp only [hfinish, Option.some.injEq] at hend
      subst hend
      refine ⟨transaction.after, Or.inr rfl, ?_, fun _ h => (hflat h).1⟩
      intro hle
      rw [Transaction.after_owned]
      change log.outstanding + (state.task p).owned = _
      omega

theorem step_moves {state next : State P} {event : Event P} (hstep : step state event = some next) :
    ∃ p task, Moves state next event p task := by
  cases event with
  | enter p restoring =>
    cases htask : state.task p <;> simp only [step, htask] at hstep <;>
      try cases hstep
    refine ⟨p, .reserving (if restoring then .restore else .call) false, Or.inl rfl, ?_, ?_⟩
    · intro _
      cases restoring <;>
        simp [State.move, htask, Task.owned, Transaction.outer]
    · intro _ _
      cases restoring <;> trivial
  | beginOp p =>
    cases htask : state.task p with
    | reserving transaction asleep =>
      cases asleep with
      | true => simp [step, htask] at hstep
      | false =>
        simp only [step, htask] at hstep
        split at hstep <;> cases hstep
        · refine ⟨p, .reserving transaction true, Or.inl rfl, ?_, ?_⟩
          · simp [State.move, htask, Task.owned]
          · intro _ hflat
            rw [htask] at hflat
            cases transaction <;> exact hflat
        · refine ⟨p, .inside transaction, Or.inl rfl, ?_, ?_⟩
          · intro _
            simp only [State.move, Log.reserve, htask, Task.owned]
            omega
          · intro _ hflat
            rw [htask] at hflat
            cases transaction <;> exact hflat
    | _ => simp [step, htask] at hstep
  | logWrite p blockno =>
    cases hwrite : state.log.write blockno with
    | error reason =>
      cases htask : state.task p <;> simp [step, htask, hwrite] at hstep
    | ok log =>
      obtain ⟨-, -, hlog⟩ := Log.write_eq_ok hwrite
      have hcount : log.outstanding = state.log.outstanding := by
        rw [hlog]
        rfl
      cases htask : state.task p with
      | inside transaction =>
        simp only [step, htask, hwrite, Option.some.injEq] at hstep
        subst hstep
        refine ⟨p, .inside transaction, Or.inl rfl, ?_, ?_⟩
        · simp [State.move, htask, hcount]
        · exact fun _ hflat => htask ▸ hflat
      | cleanup files =>
        simp only [step, htask, hwrite, Option.some.injEq] at hstep
        subst hstep
        refine ⟨p, .cleanup files, Or.inl rfl, ?_, ?_⟩
        · simp [State.move, htask, hcount]
        · exact fun _ hflat => htask ▸ hflat
      | _ => simp [step, htask, hwrite] at hstep
  | fail p files =>
    cases htask : state.task p with
    | inside transaction =>
      cases transaction with
      | restore =>
        simp only [step, htask, Option.some.injEq] at hstep
        subst hstep
        refine ⟨p, .cleanup files, Or.inl rfl, ?_, fun hok _ => hok⟩
        simp [State.move, htask, Task.owned, Transaction.outer]
      | _ => simp [step, htask] at hstep
    | _ => simp [step, htask] at hstep
  | fileclose p =>
    cases htask : state.task p with
    | cleanup files =>
      cases files with
      | nil => simp [step, htask] at hstep
      | cons file rest =>
        simp only [step, htask] at hstep
        split at hstep
        next hcloses =>
          cases hstep
          refine ⟨p, .reserving (.close rest) false, Or.inl rfl, ?_, ?_⟩
          · simp [State.move, htask, Task.owned, Transaction.outer]
          · intro _ hflat
            rw [htask] at hflat
            exact hflat file List.mem_cons_self hcloses
        next =>
          cases hstep
          refine ⟨p, .cleanup rest, Or.inl rfl, ?_, ?_⟩
          · simp [State.move, htask, Task.owned]
          · intro _ hflat other hother
            rw [htask] at hflat
            exact hflat other (List.mem_cons_of_mem file hother)
    | _ => simp [step, htask] at hstep
  | endOp p =>
    cases htask : state.task p with
    | inside transaction =>
      simp only [step, htask] at hstep
      refine ⟨p, endOp_moves (by rw [htask]; rfl) ?_ hstep⟩
      intro hflat
      rw [htask] at hflat
      cases transaction with
      | close rest => exact hflat.elim
      | call => exact ⟨trivial, trivial⟩
      | restore => exact ⟨trivial, trivial⟩
    | cleanup files =>
      cases files with
      | nil =>
        simp only [step, htask] at hstep
        exact ⟨p, @endOp_moves P _ state next p .restore _
          (by rw [htask]; rfl) (fun _ => ⟨trivial, trivial⟩) hstep⟩
      | cons file rest => simp [step, htask] at hstep
    | _ => simp [step, htask] at hstep
  | commitDone p =>
    cases htask : state.task p with
    | committing transaction =>
      simp only [step, htask, Option.some.injEq] at hstep
      subst hstep
      refine ⟨p, transaction.after, Or.inr rfl, ?_, ?_⟩
      · intro _
        rw [Transaction.after_owned, htask]
        rfl
      intro _ hflat
      rw [htask] at hflat
      cases transaction with
      | close rest => exact hflat.elim
      | call => trivial
      | restore => trivial
    | _ => simp [step, htask] at hstep
  | kill p =>
    cases htask : state.task p with
    | reserving transaction asleep =>
      cases asleep with
      | false => simp [step, htask] at hstep
      | true =>
        simp only [step, htask, Option.some.injEq] at hstep
        subst hstep
        refine ⟨p, .reserving transaction false, Or.inl rfl, ?_, ?_⟩
        · simp [State.move, htask, Task.owned]
        · intro _ hflat
          rw [htask] at hflat
          cases transaction <;> exact hflat
    | _ => simp [step, htask] at hstep

/-- The counter of outstanding operations is the number of operations that
processes own, and no transaction lies inside another. -/
structure Inv [Fintype P] (state : State P) : Prop where
  count : state.log.outstanding = ∑ p, (state.task p).owned
  flat : ∀ p, (state.task p).Flat

theorem step_inv [Fintype P] {state next : State P} {event : Event P} (hinv : Inv state)
    (hok : event.FlatCleanup) (hstep : step state event = some next) : Inv next := by
  obtain ⟨p, task, hmoves⟩ := step_moves hstep
  have hle : (state.task p).owned ≤ state.log.outstanding := by
    rw [hinv.count]
    exact le_sum Task.owned state.task p
  have hcount := hmoves.count hle
  have htask := hmoves.flat hok (hinv.flat p)
  rcases hmoves.tasks with hplain | hwoken
  · constructor
    · have hsum := sum_update_add Task.owned state.task p task
      rw [hplain]
      rw [← hinv.count] at hsum
      omega
    · intro q
      rw [hplain]
      by_cases heq : q = p
      · subst heq
        simpa using htask
      · simpa [heq] using hinv.flat q
  · constructor
    · have hsum := sum_update_add Task.owned (fun q => (state.task q).woken) p task
      simp only [Task.woken_owned] at hsum
      rw [hwoken]
      rw [← hinv.count] at hsum
      omega
    · intro q
      rw [hwoken]
      by_cases heq : q = p
      · subst heq
        simpa using htask
      · simpa [heq] using Task.woken_flat (hinv.flat q)

/-- As long as no failing restore closes an inode or device file inside its
own transaction, no interleaving blocks the log: some owner of an outstanding
operation is always outside `begin_op`. -/
theorem not_stuck_of_flatCleanup [Fintype P] {events : List (Event P)} {state : State P}
    (hmeets : RunMeets step (fun _ event => Event.FlatCleanup event)
      State.init events) (hrun : run step State.init events = some state) : ¬ Stuck state := by
  have hinit : Inv (State.init : State P) :=
    ⟨by simp [State.init, Log.empty, Task.owned], fun _ => trivial⟩
  have hinv : Inv state := run_invariant
    (fun _ _ _ hinv hok hstep => step_inv hinv hok hstep) hinit hmeets hrun
  rintro ⟨hsome, -, hasleep⟩
  rw [hinv.count] at hsome
  obtain ⟨p, howned⟩ := exists_pos_of_sum_pos hsome
  obtain ⟨transaction, htask⟩ := hasleep p howned
  exact (hinv.flat p).not_reserving howned transaction true htask

/-- A restore that fails with one pipe end open, while another call waits. -/
def pipeCleanup : List (Event (Fin 2)) :=
  [.enter 0 true, .beginOp 0, .enter 1 false, .fail 0 [.pipe], .fileclose 0, .beginOp 1]

theorem not_stuck_pipeCleanup : ∃ state, run step State.init pipeCleanup = some state ∧
      0 < state.log.outstanding ∧ ¬ Stuck state := by
  refine ⟨_, rfl, by decide, ?_⟩
  refine @not_stuck_of_flatCleanup (Fin 2) _ _ pipeCleanup _ (runMeets_of_forall ?_ _) rfl
  intro event hevent
  simp only [pipeCleanup, List.mem_cons, List.not_mem_nil, or_false] at hevent
  rcases hevent with rfl | rfl | rfl | rfl | rfl | rfl <;>
    simp [Event.FlatCleanup, FileType.ClosesInode]

/-- Three restores that fail at the same time, each with one inode file built:
every `fileclose` finds `0 + (3 + 1) * MAXOPBLOCKS > LOGBLOCKS`. -/
def threeFailingRestores : List (Event (Fin 3)) :=
  [.enter 0 true, .enter 1 true, .enter 2 true, .beginOp 0, .beginOp 1, .beginOp 2,
    .fail 0 [.inode], .fail 1 [.inode], .fail 2 [.inode], .fileclose 0, .fileclose 1, .fileclose 2,
    .beginOp 0, .beginOp 1, .beginOp 2]

theorem threeFailingRestores_stuck :
    ∃ state, run step State.init threeFailingRestores = some state ∧ Stuck state := by
  refine ⟨_, rfl, by decide, rfl, fun p _ => ⟨.close [], ?_⟩⟩
  revert p
  decide

end LogReservation

end CkptKernel
