/-
Pipes under every interleaving: kernel/pipe.c with sleep, wakeup and kkill of
kernel/proc.c.  Any number of processes read and write one pipe.  An event is
what a process does under `pi->lock` up to the next point where another CPU can
matter: one turn of a loop of `pipewrite` or `piperead`, or a whole `pipeclose`.
`kkill` takes only the lock of its victim, so turns that test `killed` are cut
in two behind the test.
-/
import CkptKernel.Lib.Machine
import CkptKernel.Lib.RingBuffer

namespace CkptKernel

open Machine

def PIPESIZE : Nat := 512

namespace PipeRing

structure Pipe where
  ring : RingBuffer 32 UInt8
  readopen : Bool
  writeopen : Bool

/-- A call of `pipewrite`, with the bytes it finds at `addr` (`none` where
`copyin` fails).  `call` numbers the calls, and `since` counts the bytes
inserted since the call last acquired the lock; no step reads either. -/
structure Write where
  call : Nat
  n : Int
  buf : Nat → Option UInt8
  i : Nat
  since : Nat

/-- A call of `piperead`: where `copyout` works, and the `i` bytes it has
delivered. -/
structure Read where
  n : Int
  dst : Nat → Bool
  got : List UInt8

/-- Where a process stands with respect to the pipe. -/
inductive Mode where
  | outside
  /-- At the head of the loop of `pipewrite`, with the lock. -/
  | writing (w : Write)
  /-- In the same loop, behind the tests of `pi->readopen` and `killed(pr)`. -/
  | writePassed (w : Write)
  /-- In `sleep(&pi->nwrite, &pi->lock)`; when not asleep any more, it waits
  for the lock. -/
  | writeSleep (w : Write) (asleep : Bool)
  /-- At the head of the first loop of `piperead`, with the lock. -/
  | waiting (r : Read)
  /-- In the same loop, behind the test of `killed(pr)`. -/
  | waitPassed (r : Read)
  /-- In `sleep(&pi->nread, &pi->lock)`. -/
  | readSleep (r : Read) (asleep : Bool)
  /-- At the head of the copy loop of `piperead`, with the lock. -/
  | copying (r : Read)

/-- The two channels of a pipe. -/
inductive Chan where
  | nread
  | nwrite
deriving DecidableEq, Repr

def Mode.AsleepOn : Mode → Chan → Prop
  | .readSleep _ asleep, .nread => asleep = true
  | .writeSleep _ asleep, .nwrite => asleep = true
  | _, _ => False

def Mode.Locks : Mode → Prop
  | .writing _ | .writePassed _ | .waiting _ | .waitPassed _ | .copying _ => True
  | _ => False

structure Thread where
  mode : Mode
  killed : Bool

def Thread.woken (chan : Chan) (thread : Thread) : Thread :=
  match chan, thread.mode with
  | .nread, .readSleep r _ => { thread with mode := .readSleep r false }
  | .nwrite, .writeSleep w _ => { thread with mode := .writeSleep w false }
  | _, _ => thread

def Thread.kill (thread : Thread) : Thread :=
  match thread.mode with
  | .readSleep r _ => ⟨.readSleep r false, true⟩
  | .writeSleep w _ => ⟨.writeSleep w false, true⟩
  | mode => ⟨mode, true⟩

/-- A call of `pipewrite` that has returned. -/
structure Return where
  call : Nat
  buf : Nat → Option UInt8
  result : Int

variable {P : Type} [DecidableEq P]

/-- The pipe, its lock and the processes.  The last four fields record what
happened and are read by no step. -/
structure State (P : Type) where
  pipe : Pipe
  lock : Option P
  thread : P → Thread
  /-- Bytes inserted, oldest first, each with the call that did it. -/
  inserted : List (Nat × UInt8)
  /-- Bytes removed, oldest first. -/
  removed : List UInt8
  calls : Nat
  returned : List Return

/-- The state after `pipealloc`. -/
def State.init : State P where
  pipe := ⟨⟨fun _ => 0, 0, 0⟩, true, true⟩
  lock := none
  thread := fun _ => ⟨.outside, false⟩
  inserted := []
  removed := []
  calls := 0
  returned := []

def State.setMode (state : State P) (p : P) (mode : Mode) : State P :=
  { state with
    thread := Function.update state.thread p
      ⟨mode, (state.thread p).killed⟩ }

def State.wakeup (state : State P) (chan : Chan) : State P :=
  { state with thread := fun p => (state.thread p).woken chan }

/-- `release(&pi->lock)` and whatever `mode` follows. -/
def State.release (state : State P) (p : P) (mode : Mode) : State P :=
  { state with lock := none }.setMode p mode

/-- `acquire(&pi->lock)` by a process that finds it free. -/
def State.acquire (state : State P) (p : P) (mode : Mode) : State P :=
  { state with lock := some p }.setMode p mode

def State.writeReturns (state : State P) (p : P) (w : Write) (result : Int) : State P :=
  { state with returned := ⟨w.call, w.buf, result⟩ :: state.returned }.release p
    .outside

def State.insert (state : State P) (p : P) (w : Write) (ch : UInt8) : State P :=
  { state with
    pipe := { state.pipe with ring := state.pipe.ring.put PIPESIZE ch }
    inserted := state.inserted ++ [(w.call, ch)] }.setMode p
      (.writing { w with i := w.i + 1, since := w.since + 1 })

/-- The head of the loop of `pipewrite` and its first test, or what follows the
loop. -/
def State.writeTurn (state : State P) (p : P) (w : Write) : State P :=
  if (w.i : Int) < w.n then
    if state.pipe.readopen = false ∨ (state.thread p).killed = true then
      state.writeReturns p w (-1)
    else state.setMode p (.writePassed w)
  else (state.wakeup .nread).writeReturns p w w.i

/-- The rest of the turn. -/
def State.storeTurn (state : State P) (p : P) (w : Write) : State P :=
  if state.pipe.ring.Full PIPESIZE then
    (state.wakeup .nread).release p (.writeSleep { w with since := 0 } true)
  else
    match w.buf w.i with
    | none => (state.wakeup .nread).writeReturns p w w.i
    | some ch => state.insert p w ch

/-- The head of the loop of `piperead` that waits for bytes, and its test. -/
def State.waitTurn (state : State P) (p : P) (r : Read) : State P :=
  if state.pipe.ring.Empty ∧ state.pipe.writeopen = true then
    if (state.thread p).killed = true then state.release p .outside
    else state.setMode p (.waitPassed r)
  else state.setMode p (.copying r)

def State.remove (state : State P) : State P :=
  { state with
    pipe := { state.pipe with ring := state.pipe.ring.drop }
    removed := state.removed ++ [state.pipe.ring.front PIPESIZE] }

/-- One turn of the copy loop of `piperead`, or what follows it. -/
def State.copyTurn (state : State P) (p : P) (r : Read) : State P :=
  if (r.got.length : Int) < r.n ∧ ¬ state.pipe.ring.Empty then
    if r.dst r.got.length = true then
      state.remove.setMode p (.copying { r with
        got := r.got ++ [state.pipe.ring.front PIPESIZE] })
    else (state.remove.wakeup .nwrite).release p .outside
  else (state.wakeup .nwrite).release p .outside

def State.pipeclose (state : State P) (writable : Bool) : State P :=
  if writable then
    { state with pipe := { state.pipe with writeopen := false } }.wakeup .nread
  else
    { state with pipe := { state.pipe with readopen := false } }.wakeup .nwrite

inductive Event (P : Type) where
  | pipewrite (p : P) (n : Int) (buf : Nat → Option UInt8)
  | piperead (p : P) (n : Int) (dst : Nat → Bool)
  /-- The process that has the lock goes on in its loop. -/
  | turn (p : P)
  /-- A process that was woken gets the lock back. -/
  | resume (p : P)
  | pipeclose (writable : Bool)
  | kkill (p : P)

def step (state : State P) : Event P → Option (State P)
  | .pipewrite p n buf =>
    match (state.thread p).mode, state.lock with
    | .outside, none => some ({ state with calls := state.calls + 1 }.acquire p
        (.writing ⟨state.calls, n, buf, 0, 0⟩))
    | _, _ => none
  | .piperead p n dst =>
    match (state.thread p).mode, state.lock with
    | .outside, none => some (state.acquire p (.waiting ⟨n, dst, []⟩))
    | _, _ => none
  | .turn p =>
    match (state.thread p).mode with
    | .writing w => some (state.writeTurn p w)
    | .writePassed w => some (state.storeTurn p w)
    | .waiting r => some (state.waitTurn p r)
    | .waitPassed r => some (state.release p (.readSleep r true))
    | .copying r => some (state.copyTurn p r)
    | _ => none
  | .resume p =>
    match (state.thread p).mode, state.lock with
    | .writeSleep w false, none => some (state.acquire p (.writing w))
    | .readSleep r false, none => some (state.acquire p (.waiting r))
    | _, _ => none
  | .pipeclose writable =>
    match state.lock with
    | none => some (state.pipeclose writable)
    | some _ => none
  | .kkill p => some { state with
      thread := Function.update state.thread p (state.thread p).kill }

/-- The call of `pipewrite` a process is in: its number, its buffer and the
bytes it has inserted. -/
def Mode.writer : Mode → Option (Nat × (Nat → Option UInt8) × Nat)
  | .writing w | .writePassed w | .writeSleep w _ => some (w.call, w.buf, w.i)
  | _ => none

@[simp]
theorem Thread.woken_writer (chan : Chan) (thread : Thread) :
    (thread.woken chan).mode.writer = thread.mode.writer := by
  unfold Thread.woken
  split
  next hmode => simp [hmode, Mode.writer]
  next hmode => simp [hmode, Mode.writer]
  next => rfl

@[simp]
theorem Thread.kill_writer (thread : Thread) : thread.kill.mode.writer = thread.mode.writer := by
  unfold Thread.kill
  split
  next hmode => simp [hmode, Mode.writer]
  next hmode => simp [hmode, Mode.writer]
  next => rfl

/-- The bytes that a call has inserted are the first `count` of its buffer. -/
def Sent (inserted : List (Nat × UInt8)) (call : Nat)
    (buf : Nat → Option UInt8) (count : Nat) : Prop :=
  (inserted.filter (fun entry => decide (entry.1 = call))).map
    (fun entry => some entry.2) = (List.range count).map buf

structure Fifo (state : State P) : Prop where
  replays : state.pipe.ring.Replays PIPESIZE
    (state.inserted.map Prod.snd) state.removed
  numbered : ∀ entry ∈ state.inserted, entry.1 < state.calls
  writing : ∀ p call buf i, (state.thread p).mode.writer = some (call, buf, i) →
    call < state.calls ∧ Sent state.inserted call buf i
  single : ∀ p q call buf i buf' i', (state.thread p).mode.writer = some (call, buf, i) →
    (state.thread q).mode.writer = some (call, buf', i') → p = q
  returned : ∀ ret ∈ state.returned, ret.call < state.calls ∧
    (0 ≤ ret.result → Sent state.inserted ret.call ret.buf ret.result.toNat)
  ended : ∀ ret ∈ state.returned, ∀ p call buf i,
    (state.thread p).mode.writer = some (call, buf, i) → call ≠ ret.call

variable {state : State P}

omit [DecidableEq P] in
/-- Nothing changes but who sleeps, reads or has the lock. -/
theorem Fifo.of_same {next : State P} (hfifo : Fifo state)
    (hring : next.pipe.ring = state.pipe.ring) (hinserted : next.inserted = state.inserted)
    (hremoved : next.removed = state.removed) (hcalls : next.calls = state.calls)
    (hreturned : next.returned = state.returned)
    (hwriter : ∀ p, (next.thread p).mode.writer = (state.thread p).mode.writer) : Fifo next := by
  constructor
  · rw [hring, hinserted, hremoved]
    exact hfifo.replays
  · rw [hinserted, hcalls]
    exact hfifo.numbered
  · simpa only [hwriter, hinserted, hcalls] using hfifo.writing
  · simpa only [hwriter] using hfifo.single
  · rw [hreturned, hinserted, hcalls]
    exact hfifo.returned
  · simpa only [hwriter, hreturned] using hfifo.ended

theorem State.writer_setMode (state : State P) (p q : P) (mode : Mode) :
    ((state.setMode p mode).thread q).mode.writer =
      if q = p then mode.writer else (state.thread q).mode.writer := by
  by_cases heq : q = p
  · subst heq
    simp [State.setMode]
  · simp [State.setMode, heq]

omit [DecidableEq P] in
theorem Fifo.wakeup (hfifo : Fifo state) (chan : Chan) :
    Fifo (state.wakeup chan) :=
  hfifo.of_same rfl rfl rfl rfl rfl fun _ => Thread.woken_writer chan _

variable {p : P}

/-- A process moves to another place of the call it is in. -/
theorem Fifo.setMode {mode : Mode} (hfifo : Fifo state)
    (hwriter : mode.writer = (state.thread p).mode.writer) (lock : Option P) :
    Fifo ({ state with lock := lock }.setMode p mode) := by
  refine hfifo.of_same rfl rfl rfl rfl rfl fun q => ?_
  rw [State.writer_setMode]
  split
  next heq => rw [hwriter, heq]
  next => rfl

theorem pipe_fits : RingBuffer.Fits 32 PIPESIZE :=
  ⟨by decide, by decide, by decide⟩

omit [DecidableEq P] in
theorem Fifo.remove {state : State P} (hfifo : Fifo state)
    (hsome : ¬ state.pipe.ring.Empty) : Fifo state.remove :=
  ⟨hfifo.replays.drop pipe_fits hsome, hfifo.numbered, hfifo.writing,
    hfifo.single, hfifo.returned, hfifo.ended⟩

theorem Sent.append_of_ne {inserted : List (Nat × UInt8)} {call other : Nat}
    {buf : Nat → Option UInt8} {count : Nat} {ch : UInt8} (hsent : Sent inserted call buf count)
    (hne : other ≠ call) : Sent (inserted ++ [(other, ch)]) call buf count := by
  simpa [Sent, List.filter_append, hne] using hsent

variable {w : Write}

theorem Fifo.insert {ch : UInt8}
    (hfifo : Fifo state) (hwriter : (state.thread p).mode.writer = some (w.call, w.buf, w.i))
    (hspace : ¬ state.pipe.ring.Full PIPESIZE) (hch : w.buf w.i = some ch) :
    Fifo (state.insert p w ch) := by
  obtain ⟨hcall, hsent⟩ := hfifo.writing p w.call w.buf w.i hwriter
  -- the writers after the step: `p` one byte further, the others as before
  have hafter : ∀ q call buf i, ((state.insert p w ch).thread q).mode.writer = some (call, buf, i) →
      q = p ∧ call = w.call ∧ buf = w.buf ∧ i = w.i + 1 ∨
        q ≠ p ∧ (state.thread q).mode.writer = some (call, buf, i) := by
    intro q call buf i hq
    unfold State.insert at hq
    rw [State.writer_setMode] at hq
    split at hq
    next heq =>
      simp only [Mode.writer, Option.some.injEq, Prod.mk.injEq] at hq
      exact Or.inl ⟨heq, hq.1.symm, hq.2.1.symm, hq.2.2.symm⟩
    next hne => exact Or.inr ⟨hne, hq⟩
  constructor
  · have hput := hfifo.replays.put pipe_fits hspace ch
    simpa [State.insert, State.setMode] using hput
  · intro entry hentry
    rcases List.mem_append.mp hentry with hold | hnew
    · exact hfifo.numbered entry hold
    · rw [List.mem_singleton.mp hnew]
      exact hcall
  · intro q call buf i hq
    rcases hafter q call buf i hq with ⟨-, rfl, rfl, rfl⟩ | ⟨hne, hold⟩
    · refine ⟨hcall, ?_⟩
      change ((state.inserted ++ [_]).filter _).map _ = _
      unfold Sent at hsent
      rw [List.filter_append, List.map_append, hsent, List.range_succ, List.map_append]
      simp [hch]
    · obtain ⟨hlt, hsent'⟩ := hfifo.writing q call buf i hold
      refine ⟨hlt, hsent'.append_of_ne ?_⟩
      rintro rfl
      exact hne (hfifo.single q p _ _ _ _ _ hold hwriter)
  · intro q r call buf i buf' i' hq hr
    rcases hafter q call buf i hq with ⟨rfl, rfl, -, -⟩ | ⟨hqne, hqold⟩
    · rcases hafter r w.call buf' i' hr with ⟨rfl, -⟩ | ⟨-, hrold⟩
      · rfl
      · exact hfifo.single q r _ _ _ _ _ hwriter hrold
    · rcases hafter r call buf' i' hr with ⟨rfl, rfl, -, -⟩ | ⟨-, hrold⟩
      · exact hfifo.single q r _ _ _ _ _ hqold hwriter
      · exact hfifo.single q r _ _ _ _ _ hqold hrold
  · intro ret hret
    obtain ⟨hlt, hdone⟩ := hfifo.returned ret hret
    exact ⟨hlt, fun hresult => (hdone hresult).append_of_ne (hfifo.ended ret hret p _ _ _ hwriter)⟩
  · intro ret hret q call buf i hq
    rcases hafter q call buf i hq with ⟨-, rfl, -, -⟩ | ⟨-, hold⟩
    · exact hfifo.ended ret hret p _ _ _ hwriter
    · exact hfifo.ended ret hret q call buf i hold

theorem Fifo.writeReturns {result : Int}
    (hfifo : Fifo state) (hwriter : (state.thread p).mode.writer = some (w.call, w.buf, w.i))
    (hresult : result = -1 ∨ result = w.i) : Fifo (state.writeReturns p w result) := by
  obtain ⟨hcall, hsent⟩ := hfifo.writing p w.call w.buf w.i hwriter
  have hafter : ∀ q call buf i, ((state.writeReturns p w result).thread q).mode.writer =
        some (call, buf, i) → q ≠ p ∧ (state.thread q).mode.writer = some (call, buf, i) := by
    intro q call buf i hq
    unfold State.writeReturns State.release at hq
    rw [State.writer_setMode] at hq
    split at hq
    next => cases hq
    next hne => exact ⟨hne, hq⟩
  constructor
  · exact hfifo.replays
  · exact hfifo.numbered
  · exact fun q call buf i hq => hfifo.writing q call buf i (hafter q _ _ _ hq).2
  · exact fun q r call buf i buf' i' hq hr => hfifo.single q r call buf i buf' i'
      (hafter q _ _ _ hq).2 (hafter r _ _ _ hr).2
  · intro ret hret
    rcases List.mem_cons.mp hret with rfl | hold
    · refine ⟨hcall, fun hpos => ?_⟩
      rcases hresult with rfl | rfl
      · simp at hpos
      · exact hsent
    · exact hfifo.returned ret hold
  · intro ret hret q call buf i hq
    obtain ⟨hne, hq⟩ := hafter q call buf i hq
    rcases List.mem_cons.mp hret with rfl | hold
    · rintro rfl
      exact hne (hfifo.single q p _ _ _ _ _ hq hwriter)
    · exact hfifo.ended ret hold q call buf i hq

theorem Fifo.pipewrite (hfifo : Fifo state)
    (hmode : (state.thread p).mode = .outside) (n : Int) (buf : Nat → Option UInt8) :
    Fifo ({ state with calls := state.calls + 1 }.acquire p
      (.writing ⟨state.calls, n, buf, 0, 0⟩)) := by
  have hafter : ∀ q call buf' i, (({ state with calls := state.calls + 1 }.acquire p
        (.writing ⟨state.calls, n, buf, 0, 0⟩)).thread q).mode.writer =
          some (call, buf', i) → q = p ∧ call = state.calls ∧ i = 0 ∨
        (state.thread q).mode.writer = some (call, buf', i) := by
    intro q call buf' i hq
    unfold State.acquire at hq
    rw [State.writer_setMode] at hq
    split at hq
    next heq =>
      simp only [Mode.writer, Option.some.injEq, Prod.mk.injEq] at hq
      exact Or.inl ⟨heq, hq.1.symm, hq.2.2.symm⟩
    next => exact Or.inr hq
  have hnone : ∀ other, Sent state.inserted state.calls other 0 := by
    intro other
    simp only [Sent, List.range_zero, List.map_nil, List.map_eq_nil_iff,
      List.filter_eq_nil_iff, decide_eq_true_eq]
    exact fun entry hentry heq =>
      absurd (hfifo.numbered entry hentry) (by omega)
  constructor
  · exact hfifo.replays
  · exact fun entry hentry => (hfifo.numbered entry hentry).trans (Nat.lt_succ_self _)
  · intro q call buf' i hq
    rcases hafter q call buf' i hq with ⟨-, rfl, rfl⟩ | hold
    · exact ⟨Nat.lt_succ_self _, hnone buf'⟩
    · obtain ⟨hlt, hsent⟩ := hfifo.writing q call buf' i hold
      exact ⟨hlt.trans (Nat.lt_succ_self _), hsent⟩
  · intro q r call buf' i buf'' i' hq hr
    rcases hafter q call buf' i hq with ⟨rfl, rfl, -⟩ | hqold
    · rcases hafter r _ buf'' i' hr with ⟨rfl, -⟩ | hrold
      · rfl
      · exact absurd (hfifo.writing r _ _ _ hrold).1 (Nat.lt_irrefl _)
    · rcases hafter r call buf'' i' hr with ⟨rfl, rfl, -⟩ | hrold
      · exact absurd (hfifo.writing q _ _ _ hqold).1 (Nat.lt_irrefl _)
      · exact hfifo.single q r _ _ _ _ _ hqold hrold
  · intro ret hret
    obtain ⟨hlt, hsent⟩ := hfifo.returned ret hret
    exact ⟨hlt.trans (Nat.lt_succ_self _), hsent⟩
  · intro ret hret q call buf' i hq
    rcases hafter q call buf' i hq with ⟨-, rfl, -⟩ | hold
    · exact (hfifo.returned ret hret).1.ne'
    · exact hfifo.ended ret hret q call buf' i hold

theorem Fifo.writeTurn (hfifo : Fifo state)
    (hmode : (state.thread p).mode = .writing w) : Fifo (state.writeTurn p w) := by
  have hwriter : (state.thread p).mode.writer = some (w.call, w.buf, w.i) := by
    rw [hmode]
    rfl
  unfold State.writeTurn
  split
  next =>
    split
    next => exact hfifo.writeReturns hwriter (Or.inl rfl)
    next => exact hfifo.setMode (by exact hwriter.symm) state.lock
  next =>
    exact (hfifo.wakeup .nread).writeReturns ((Thread.woken_writer _ _).trans hwriter) (Or.inr rfl)

theorem Fifo.storeTurn (hfifo : Fifo state)
    (hmode : (state.thread p).mode = .writePassed w) : Fifo (state.storeTurn p w) := by
  have hwriter : (state.thread p).mode.writer = some (w.call, w.buf, w.i) := by
    rw [hmode]
    rfl
  have hwoken := (Thread.woken_writer .nread _).trans hwriter
  unfold State.storeTurn
  split
  next => exact (hfifo.wakeup .nread).setMode (by exact hwoken.symm) none
  next hspace =>
    split
    next => exact (hfifo.wakeup .nread).writeReturns hwoken (Or.inr rfl)
    next ch hch => exact hfifo.insert hwriter hspace hch

theorem Fifo.waitTurn {r : Read} (hfifo : Fifo state)
    (hmode : (state.thread p).mode = .waiting r) : Fifo (state.waitTurn p r) := by
  have hwriter : none = (state.thread p).mode.writer := by
    rw [hmode]
    rfl
  unfold State.waitTurn
  split
  next =>
    split
    next => exact hfifo.setMode (by exact hwriter) none
    next => exact hfifo.setMode (by exact hwriter) state.lock
  next => exact hfifo.setMode (by exact hwriter) state.lock

theorem Fifo.copyTurn {r : Read} (hfifo : Fifo state)
    (hmode : (state.thread p).mode = .copying r) : Fifo (state.copyTurn p r) := by
  have hwriter : none = (state.thread p).mode.writer := by
    rw [hmode]
    rfl
  have hwoken : none = ((state.thread p).woken .nwrite).mode.writer := by
    rw [Thread.woken_writer, hmode]
    rfl
  unfold State.copyTurn
  split
  next hmore =>
    have hremoved := hfifo.remove hmore.2
    split
    next => exact hremoved.setMode (by exact hwriter) state.lock
    next => exact (hremoved.wakeup .nwrite).setMode (by exact hwoken) none
  next => exact (hfifo.wakeup .nwrite).setMode (by exact hwoken) none

theorem step_fifo {next : State P} {event : Event P}
    (hfifo : Fifo state) (hstep : step state event = some next) : Fifo next := by
  cases event with
  | pipewrite p n buf =>
    simp only [step] at hstep
    split at hstep
    next hmode hlock =>
      cases hstep
      exact hfifo.pipewrite hmode n buf
    next => cases hstep
  | piperead p n dst =>
    simp only [step] at hstep
    split at hstep
    next hmode hlock =>
      cases hstep
      exact hfifo.setMode (by rw [hmode]; rfl) (some p)
    next => cases hstep
  | turn p =>
    simp only [step] at hstep
    split at hstep
    next w hmode =>
      cases hstep
      exact hfifo.writeTurn hmode
    next w hmode =>
      cases hstep
      exact hfifo.storeTurn hmode
    next r hmode =>
      cases hstep
      exact hfifo.waitTurn hmode
    next r hmode =>
      cases hstep
      exact hfifo.setMode (by rw [hmode]; rfl) none
    next r hmode =>
      cases hstep
      exact hfifo.copyTurn hmode
    next => cases hstep
  | resume p =>
    simp only [step] at hstep
    split at hstep
    next w hmode hlock =>
      cases hstep
      exact hfifo.setMode (by rw [hmode]; rfl) (some p)
    next r hmode hlock =>
      cases hstep
      exact hfifo.setMode (by rw [hmode]; rfl) (some p)
    next => cases hstep
  | pipeclose writable =>
    simp only [step] at hstep
    split at hstep
    next =>
      cases hstep
      unfold State.pipeclose
      split
      next => exact hfifo.of_same rfl rfl rfl rfl rfl fun _ =>
          Thread.woken_writer _ _
      next => exact hfifo.of_same rfl rfl rfl rfl rfl fun _ =>
          Thread.woken_writer _ _
    next => cases hstep
  | kkill p =>
    cases hstep
    refine hfifo.of_same rfl rfl rfl rfl rfl fun q => ?_
    by_cases heq : q = p
    · subst heq
      simp
    · simp [heq]

omit [DecidableEq P] in
theorem fifo_init : Fifo (State.init : State P) := by
  constructor
  · exact ⟨List.prefix_refl _, by simp [State.init], rfl, rfl,
      fun k hk => absurd hk (by simp [State.init])⟩
  · simp [State.init]
  · simp [State.init, Mode.writer]
  · simp [State.init, Mode.writer]
  · simp [State.init]
  · simp [State.init]

/-- A pipe is a FIFO in every interleaving and however often its counters
wrap: it never holds more than `PIPESIZE` bytes; what was removed is the first
part of what was inserted, and the bytes after it are still in their slots; and
a `pipewrite` that returned a count has inserted that many bytes from the start
of its buffer. -/
theorem pipe_fifo {events : List (Event P)} {state : State P}
    (hrun : run step State.init events = some state) :
    (state.pipe.ring.nwrite - state.pipe.ring.nread).toNat ≤ PIPESIZE ∧
    state.removed <+: state.inserted.map Prod.snd ∧
    (state.pipe.ring.nwrite - state.pipe.ring.nread).toNat =
      state.inserted.length - state.removed.length ∧
    (∀ k (hk : k < state.inserted.length), state.removed.length ≤ k →
      state.pipe.ring.data (k % PIPESIZE) = state.inserted[k].2) ∧
    ∀ ret ∈ state.returned, 0 ≤ ret.result →
      (state.inserted.filter (fun entry => decide (entry.1 = ret.call))).map
        (fun entry => some entry.2) = (List.range ret.result.toNat).map ret.buf := by
  have hfifo : Fifo state := run_invariant
    (fun _ _ _ hfifo _ hstep => step_fifo hfifo hstep) fifo_init
    (runMeets_of_forall (fun _ _ => trivial) State.init) hrun
  obtain ⟨hcount, hbound⟩ := hfifo.replays.count pipe_fits
  rw [List.length_map] at hcount hbound
  refine ⟨hcount.trans_le hbound, hfifo.replays.order, hcount, ?_,
    fun ret hret => (hfifo.returned ret hret).2⟩
  intro k hk hkept
  have hdata := hfifo.replays.data k (by simpa using hk) hkept
  simpa using hdata

/-- A call that writes the bytes of a list. -/
def bytes (list : List UInt8) (k : Nat) : Option UInt8 := list[k]?

/-- Two writers whose bytes alternate with a reader's, the second cut short by
an unmapped page. -/
def twoWriters : List (Event (Fin 3)) :=
  [.pipewrite 0 2 (bytes [7, 8]), .turn 0, .turn 0, .turn 0, .turn 0, .turn 0,
    .piperead 2 1 (fun _ => true), .turn 2, .turn 2, .turn 2,
    .pipewrite 1 5 (bytes [9]), .turn 1, .turn 1, .turn 1, .turn 1]

theorem pipe_fifo_twoWriters : ∃ state, run step State.init twoWriters = some state ∧
      state.inserted = [(0, 7), (0, 8), (1, 9)] ∧ state.removed = [7] ∧
      ∀ ret ∈ state.returned, 0 ≤ ret.result →
        (state.inserted.filter (fun entry => decide (entry.1 = ret.call))).map
          (fun entry => some entry.2) = (List.range ret.result.toNat).map ret.buf := by
  refine ⟨_, rfl, rfl, rfl, ?_⟩
  exact (@pipe_fifo (Fin 3) _ twoWriters _ rfl).2.2.2.2

end PipeRing

end CkptKernel
