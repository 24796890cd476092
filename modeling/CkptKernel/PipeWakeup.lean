/-
Who sleeps on a pipe: every change of a pipe is followed by the matching wakeup
before its lock is free again, save for one early return of `pipewrite`.
-/
import CkptKernel.PipeRing

namespace CkptKernel

open Machine
open Function (update update_of_ne update_self)

namespace PipeRing

variable {P : Type} [DecidableEq P]

/-- The bytes that a process has inserted and not announced yet. -/
def Mode.since : Mode → Nat
  | .writing w | .writePassed w => w.since
  | _ => 0

/-- A byte is in the pipe, or about to be, and its writer tests `killed` once
more before it announces it. -/
def Mode.Exposed (ring : RingBuffer 32 UInt8) : Mode → Prop
  | .writing w => 0 < w.since ∧ (w.i : Int) < w.n
  | .writePassed w => ¬ ring.Full PIPESIZE ∧ w.buf w.i ≠ none ∧ (w.i + 1 : Int) < w.n
  | _ => False

/-- What a process has tested and still holds, since it has the lock. -/
def Mode.Fits (pipe : Pipe) : Mode → Prop
  | .writing w => 0 < w.since → pipe.readopen = true
  | .writePassed _ => pipe.readopen = true
  | .writeSleep w _ => w.since = 0
  | .waitPassed _ => pipe.ring.Empty ∧ pipe.writeopen = true
  | _ => True

/-- Sleepers have a reason to sleep, or the process that has the lock is yet to
wake them. -/
structure Signalled (state : State P) : Prop where
  owner : ∀ p, (state.thread p).mode.Locks → state.lock = some p
  alive : ∀ p, (state.thread p).mode.Exposed state.pipe.ring → (state.thread p).killed = false
  fits : ∀ p, (state.thread p).mode.Fits state.pipe
  reader : ∀ p, (state.thread p).mode.AsleepOn .nread →
    state.pipe.writeopen = true ∧ (state.pipe.ring.Empty ∨ ∃ q, 0 < (state.thread q).mode.since)
  writer : ∀ p, (state.thread p).mode.AsleepOn .nwrite →
    state.pipe.readopen = true ∧ (state.pipe.ring.Full PIPESIZE ∨
      ∃ q r, (state.thread q).mode = .copying r)

/-- `kkill` does not hit a process between two bytes of a `pipewrite`, from the
test of `killed` in a turn that inserts a byte to the next test. -/
def NotBetweenBytes (state : State P) : Event P → Prop
  | .kkill p => ¬ (state.thread p).mode.Exposed state.pipe.ring
  | _ => True

section Modes

omit [DecidableEq P]

@[simp]
theorem Thread.woken_killed (chan : Chan) (thread : Thread) :
    (thread.woken chan).killed = thread.killed := by
  unfold Thread.woken
  split <;> rfl

/-- `wakeup` changes no mode but a sleeping one. -/
theorem Thread.woken_mode (chan : Chan) (thread : Thread) : (thread.woken chan).mode = thread.mode ∨
      (∃ r asleep, thread.mode = .readSleep r asleep ∧
        (thread.woken chan).mode = .readSleep r false) ∨
      ∃ w asleep, thread.mode = .writeSleep w asleep ∧
        (thread.woken chan).mode = .writeSleep w false := by
  unfold Thread.woken
  split
  next r asleep hmode => exact Or.inr (Or.inl ⟨r, asleep, hmode, rfl⟩)
  next w asleep hmode => exact Or.inr (Or.inr ⟨w, asleep, hmode, rfl⟩)
  next => exact Or.inl rfl

theorem Thread.woken_locks {chan : Chan} {thread : Thread}
    (hlocks : (thread.woken chan).mode.Locks ∨ thread.mode.Locks) :
    (thread.woken chan).mode = thread.mode := by
  rcases thread.woken_mode chan with hsame | ⟨r, a, hold, hnew⟩ | ⟨w, a, hold, hnew⟩
  · exact hsame
  · rw [hold, hnew] at hlocks
    exact hlocks.elim False.elim False.elim
  · rw [hold, hnew] at hlocks
    exact hlocks.elim False.elim False.elim

theorem Thread.not_asleep_woken (chan : Chan) (thread : Thread) :
    ¬ (thread.woken chan).mode.AsleepOn chan := by
  cases chan <;> cases hmode : thread.mode <;>
    simp [Thread.woken, hmode, Mode.AsleepOn]

theorem Thread.asleep_of_woken {chan other : Chan} {thread : Thread}
    (hasleep : (thread.woken chan).mode.AsleepOn other) : thread.mode.AsleepOn other := by
  rcases thread.woken_mode chan with hsame | ⟨r, a, -, hnew⟩ | ⟨w, a, -, hnew⟩
  · rwa [hsame] at hasleep
  · rw [hnew] at hasleep
    cases other <;> simp [Mode.AsleepOn] at hasleep
  · rw [hnew] at hasleep
    cases other <;> simp [Mode.AsleepOn] at hasleep

theorem Mode.locks_of_since {mode : Mode} (hsince : 0 < mode.since) : mode.Locks := by
  cases mode <;> trivial

theorem Mode.Exposed.locks {mode : Mode} {ring : RingBuffer 32 UInt8}
    (hexposed : mode.Exposed ring) : mode.Locks := by
  cases mode <;> trivial

/-- Without the lock, nothing about the pipe is relied on. -/
theorem Mode.Fits.unlocked {mode : Mode} {pipe pipe' : Pipe} (hfits : mode.Fits pipe)
    (hfree : ¬ mode.Locks) : mode.Fits pipe' := by
  cases mode with
  | writeSleep w asleep => exact hfits
  | outside => trivial
  | readSleep r asleep => trivial
  | _ => exact absurd trivial hfree

theorem Mode.Fits.woken {thread : Thread} {pipe : Pipe} (chan : Chan)
    (hfits : thread.mode.Fits pipe) : (thread.woken chan).mode.Fits pipe := by
  rcases thread.woken_mode chan with hsame | ⟨r, a, -, hnew⟩ | ⟨w, a, hold, hnew⟩
  · rwa [hsame]
  · rw [hnew]
    trivial
  · rw [hnew]
    rw [hold] at hfits
    exact hfits

end Modes

theorem State.mode_setMode (state : State P) (p q : P) (mode : Mode) :
    ((state.setMode p mode).thread q).mode = if q = p then mode else (state.thread q).mode := by
  by_cases heq : q = p
  · subst heq
    simp [State.setMode]
  · simp [State.setMode, heq]

theorem State.killed_setMode (state : State P) (p q : P) (mode : Mode) :
    ((state.setMode p mode).thread q).killed = (state.thread q).killed := by
  by_cases heq : q = p
  · subst heq
    simp [State.setMode]
  · simp [State.setMode, heq]

variable {state : State P}

omit [DecidableEq P] in
theorem Signalled.wakeup (hsig : Signalled state)
    (chan : Chan) : Signalled (state.wakeup chan) := by
  have hmode : ∀ p, ((state.thread p).woken chan).mode.Locks ∨ (state.thread p).mode.Locks →
      ((state.thread p).woken chan).mode = (state.thread p).mode :=
    fun p hlocks => Thread.woken_locks hlocks
  constructor
  · intro p hlocks
    refine hsig.owner p ?_
    rw [← hmode p (Or.inl hlocks)]
    exact hlocks
  · intro p hexposed
    change ((state.thread p).woken chan).mode.Exposed _ at hexposed
    rw [hmode p (Or.inl hexposed.locks)] at hexposed
    exact (Thread.woken_killed chan _).trans (hsig.alive p hexposed)
  · exact fun p => (hsig.fits p).woken chan
  · intro p hasleep
    obtain ⟨hopen, hempty | ⟨q, hq⟩⟩ := hsig.reader p (Thread.asleep_of_woken hasleep)
    · exact ⟨hopen, Or.inl hempty⟩
    · refine ⟨hopen, Or.inr ⟨q, ?_⟩⟩
      change 0 < ((state.thread q).woken chan).mode.since
      rwa [hmode q (Or.inr (Mode.locks_of_since hq))]
  · intro p hasleep
    obtain ⟨hopen, hfull | ⟨q, r, hq⟩⟩ :=
      hsig.writer p (Thread.asleep_of_woken hasleep)
    · exact ⟨hopen, Or.inl hfull⟩
    · refine ⟨hopen, Or.inr ⟨q, r, ?_⟩⟩
      exact (hmode q (Or.inr (by rw [hq]; trivial))).trans hq

variable {next : State P} {p : P} {mode : Mode}

omit [DecidableEq P] in
theorem State.mode_wakeup (hlocks : (state.thread p).mode.Locks) (chan : Chan) :
    ((state.wakeup chan).thread p).mode = (state.thread p).mode :=
  Thread.woken_locks (Or.inr hlocks)

/-- The only process that can have the lock goes on to `mode`, and the pipe
becomes `pipe`. -/
theorem Signalled.move (hsig : Signalled state) (hsole : ∀ q, q ≠ p → ¬ (state.thread q).mode.Locks)
    (hmode : ∀ q, (next.thread q).mode = if q = p then mode else (state.thread q).mode)
    (hkilled : ∀ q, (next.thread q).killed = (state.thread q).killed)
    (hlock : mode.Locks → next.lock = some p)
    (halive : mode.Exposed next.pipe.ring → (state.thread p).killed = false)
    (hfits : mode.Fits next.pipe) (hreader : ∀ q, (next.thread q).mode.AsleepOn .nread →
      next.pipe.writeopen = true ∧ (next.pipe.ring.Empty ∨ 0 < mode.since))
    (hwriter : ∀ q, (next.thread q).mode.AsleepOn .nwrite →
      next.pipe.readopen = true ∧ (next.pipe.ring.Full PIPESIZE ∨
        ∃ r, mode = .copying r)) : Signalled next := by
  have hself : (next.thread p).mode = mode := by rw [hmode, if_pos rfl]
  constructor
  · intro q hlocks
    rw [hmode] at hlocks
    split at hlocks
    next heq =>
      rw [heq]
      exact hlock hlocks
    next hne => exact absurd hlocks (hsole q hne)
  · intro q hexposed
    rw [hmode] at hexposed
    rw [hkilled]
    split at hexposed
    next heq =>
      rw [heq]
      exact halive hexposed
    next hne => exact absurd hexposed.locks (hsole q hne)
  · intro q
    rw [hmode]
    split
    next => exact hfits
    next hne => exact (hsig.fits q).unlocked (hsole q hne)
  · intro q hasleep
    obtain ⟨hopen, hempty | hsince⟩ := hreader q hasleep
    · exact ⟨hopen, Or.inl hempty⟩
    · exact ⟨hopen, Or.inr ⟨p, by rwa [hself]⟩⟩
  · intro q hasleep
    obtain ⟨hopen, hfull | ⟨r, hr⟩⟩ := hwriter q hasleep
    · exact ⟨hopen, Or.inl hfull⟩
    · exact ⟨hopen, Or.inr ⟨p, r, hself.trans hr⟩⟩

omit [DecidableEq P] in
theorem Signalled.sole (hsig : Signalled state) (hlocks : (state.thread p).mode.Locks) (q : P)
    (hne : q ≠ p) : ¬ (state.thread q).mode.Locks := by
  intro hq
  have heq := (hsig.owner q hq).symm.trans (hsig.owner p hlocks)
  exact hne (Option.some.inj heq)

omit [DecidableEq P] in
theorem Signalled.unlocked (hsig : Signalled state)
    (hlock : state.lock = none) (q : P) : ¬ (state.thread q).mode.Locks := by
  intro hq
  rw [hsig.owner q hq] at hlock
  cases hlock

variable {q : P}

omit [DecidableEq P] in
/-- Readers that sleep while `p` has the lock. -/
theorem Signalled.reader_of_sole (hsig : Signalled state)
    (hsole : ∀ q, q ≠ p → ¬ (state.thread q).mode.Locks)
    (hasleep : (state.thread q).mode.AsleepOn .nread) :
    state.pipe.writeopen = true ∧ (state.pipe.ring.Empty ∨ 0 < (state.thread p).mode.since) := by
  obtain ⟨hopen, hempty | ⟨o, hsince⟩⟩ := hsig.reader q hasleep
  · exact ⟨hopen, Or.inl hempty⟩
  · by_cases heq : o = p
    · exact ⟨hopen, Or.inr (heq ▸ hsince)⟩
    · exact absurd (Mode.locks_of_since hsince) (hsole o heq)

omit [DecidableEq P] in
/-- Writers that sleep while `p` has the lock, unless it is a reader in its
copy loop. -/
theorem Signalled.writer_of_owner (hsig : Signalled state)
    (hsole : ∀ q, q ≠ p → ¬ (state.thread q).mode.Locks)
    (hquiet : ∀ r, (state.thread p).mode ≠ .copying r)
    (hasleep : (state.thread q).mode.AsleepOn .nwrite) :
    state.pipe.readopen = true ∧ state.pipe.ring.Full PIPESIZE := by
  obtain ⟨hopen, hfull | ⟨o, r, ho⟩⟩ := hsig.writer q hasleep
  · exact ⟨hopen, hfull⟩
  · by_cases heq : o = p
    · subst heq
      exact absurd ho (hquiet r)
    · exact absurd (by rw [ho]; trivial) (hsole o heq)

/-- A process that the step left asleep is the one that moved, or was asleep
before. -/
theorem asleep_setMode {chan : Chan}
    (hasleep : ((state.setMode p mode).thread q).mode.AsleepOn chan)
    (hawake : ¬ mode.AsleepOn chan) : (state.thread q).mode.AsleepOn chan := by
  rw [State.mode_setMode] at hasleep
  split at hasleep
  next => exact absurd hasleep hawake
  next => exact hasleep

/-- The process with the lock goes on and leaves the pipe as it is, with nothing
left to announce that it does not announce later. -/
theorem Signalled.goOn (hsig : Signalled state) (mode : Mode)
    (hsole : ∀ q, q ≠ p → ¬ (state.thread q).mode.Locks)
    (hnext : next.thread = (state.setMode p mode).thread) (hpipe : next.pipe = state.pipe)
    (hlock : mode.Locks → next.lock = some p) (hawake : ∀ chan, ¬ mode.AsleepOn chan)
    (halive : mode.Exposed state.pipe.ring → (state.thread p).killed = false)
    (hfits : mode.Fits state.pipe) (hsince : (∀ q, ¬ (state.thread q).mode.AsleepOn .nread) ∨
      (state.thread p).mode.since ≤ mode.since)
    (hcopying : (∃ r, mode = .copying r) ∨ (∀ q, ¬ (state.thread q).mode.AsleepOn .nwrite) ∨
      ∀ r, (state.thread p).mode ≠ .copying r) : Signalled next := by
  refine hsig.move hsole (fun q => by rw [hnext, State.mode_setMode])
    (fun q => by rw [hnext, State.killed_setMode]) hlock (by rwa [hpipe]) (by rwa [hpipe]) ?_ ?_
  · intro q hasleep
    rw [hnext] at hasleep
    have hq := asleep_setMode hasleep (hawake .nread)
    obtain ⟨hopen, hwhy⟩ := hsig.reader_of_sole hsole hq
    rw [hpipe]
    exact ⟨hopen, hwhy.imp_right fun hpos =>
      hpos.trans_le (hsince.resolve_left fun hnone => hnone q hq)⟩
  · intro q hasleep
    rw [hnext] at hasleep
    have hq := asleep_setMode hasleep (hawake .nwrite)
    rw [hpipe]
    rcases hcopying with hcopies | hnone | hquiet
    · exact ⟨(hsig.writer q hq).1, Or.inr hcopies⟩
    · exact absurd hq (hnone q)
    · obtain ⟨hopen, hfull⟩ := hsig.writer_of_owner hsole hquiet hq
      exact ⟨hopen, Or.inl hfull⟩

section Turns

variable {w : Write} {r : Read}

omit [DecidableEq P] in
theorem locks_of (hmode : (state.thread p).mode = mode) (hlocks : mode.Locks) :
    (state.thread p).mode.Locks := by
  rwa [hmode]

theorem Signalled.insert {ch : UInt8} (hsig : Signalled state)
    (hmode : (state.thread p).mode = .writePassed w) (hch : w.buf w.i = some ch)
    (hspace : ¬ state.pipe.ring.Full PIPESIZE) : Signalled (state.insert p w ch) := by
  have hlocks := locks_of hmode trivial
  have hsole := hsig.sole hlocks
  have hfits := hsig.fits p
  rw [hmode] at hfits
  refine hsig.move hsole (State.mode_setMode _ p · _)
    (State.killed_setMode _ p · _) (fun _ => hsig.owner p hlocks) ?_ (fun _ => hfits) ?_ ?_
  · rintro ⟨-, hmore⟩
    apply hsig.alive
    rw [hmode]
    exact ⟨hspace, by simp [hch], hmore⟩
  · intro q hasleep
    have hq := asleep_setMode hasleep id
    exact ⟨(hsig.reader q hq).1, Or.inr (Nat.succ_pos _)⟩
  · intro q hasleep
    have hkept := hsig.writer_of_owner hsole (by simp [hmode]) (asleep_setMode hasleep id)
    exact absurd hkept.2 hspace

/-- With the readers woken, `pipewrite` may return. -/
theorem Signalled.writeReturns (hsig : Signalled state) (hlocks : (state.thread p).mode.Locks)
    (hquiet : ∀ r, (state.thread p).mode ≠ .copying r) (result : Int) :
    Signalled ((state.wakeup .nread).writeReturns p w result) := by
  have hwoken := State.mode_wakeup hlocks .nread
  have hsig' := hsig.wakeup .nread
  exact hsig'.goOn .outside (hsig'.sole (hwoken ▸ hlocks)) rfl rfl False.elim
    (by simp [Mode.AsleepOn]) False.elim trivial
    (Or.inl fun q => Thread.not_asleep_woken .nread _) (Or.inr (Or.inr (by rwa [hwoken])))

theorem Signalled.writeTurn (hsig : Signalled state) (hmode : (state.thread p).mode = .writing w) :
    Signalled (state.writeTurn p w) := by
  have hlocks := locks_of hmode trivial
  have hquiet : ∀ r, (state.thread p).mode ≠ .copying r := by simp [hmode]
  have hfits := hsig.fits p
  have halive := hsig.alive p
  rw [hmode] at hfits halive
  unfold State.writeTurn
  split
  next hmore =>
    split
    next hstop =>
      -- nothing has been inserted, or the tests would have passed
      have hzero : w.since = 0 := by
        apply Nat.eq_zero_of_not_pos
        intro hsince
        rw [hfits hsince, halive ⟨hsince, hmore⟩] at hstop
        simp at hstop
      exact hsig.goOn .outside (hsig.sole hlocks) rfl rfl False.elim
        (by simp [Mode.AsleepOn]) False.elim trivial
        (Or.inr (by rw [hmode]; exact hzero.le)) (Or.inr (Or.inr hquiet))
    next hgo =>
      simp only [not_or, Bool.not_eq_false, Bool.not_eq_true] at hgo
      exact hsig.goOn (.writePassed w) (hsig.sole hlocks) rfl rfl (fun _ => hsig.owner p hlocks)
        (by simp [Mode.AsleepOn]) (fun _ => hgo.2) hgo.1
        (Or.inr (by rw [hmode]; exact Nat.le_refl _)) (Or.inr (Or.inr hquiet))
  next => exact hsig.writeReturns hlocks hquiet _

theorem Signalled.storeTurn (hsig : Signalled state)
    (hmode : (state.thread p).mode = .writePassed w) : Signalled (state.storeTurn p w) := by
  have hlocks := locks_of hmode trivial
  have hopen := hsig.fits p
  rw [hmode] at hopen
  unfold State.storeTurn
  split
  next hfull =>
    have hsig' := hsig.wakeup .nread
    have hwoken : ((state.wakeup .nread).thread p).mode.Locks := by
      rwa [State.mode_wakeup hlocks]
    refine hsig'.move (hsig'.sole hwoken) (State.mode_setMode _ p · _)
      (State.killed_setMode _ p · _) False.elim False.elim rfl ?_ ?_
    · intro q hasleep
      exact absurd (asleep_setMode hasleep id) (Thread.not_asleep_woken .nread _)
    · exact fun _ _ => ⟨hopen, Or.inl hfull⟩
  next hspace =>
    split
    next => exact hsig.writeReturns hlocks (by simp [hmode]) _
    next ch hch => exact hsig.insert hmode hch hspace

theorem Signalled.waitTurn (hsig : Signalled state) (hmode : (state.thread p).mode = .waiting r) :
    Signalled (state.waitTurn p r) := by
  have hlocks := locks_of hmode trivial
  have hsole := hsig.sole hlocks
  have hsince : ∀ count, (state.thread p).mode.since ≤ count := by
    rw [hmode]
    exact Nat.zero_le
  have hquiet : ∀ r, (state.thread p).mode ≠ .copying r := by simp [hmode]
  unfold State.waitTurn
  split
  next hempty =>
    split
    next =>
      exact hsig.goOn .outside hsole rfl rfl False.elim (by simp [Mode.AsleepOn])
        False.elim trivial (Or.inr (hsince _)) (Or.inr (Or.inr hquiet))
    next =>
      exact hsig.goOn (.waitPassed r) hsole rfl rfl (fun _ => hsig.owner p hlocks)
        (by simp [Mode.AsleepOn]) False.elim hempty (Or.inr (hsince _)) (Or.inr (Or.inr hquiet))
  next =>
    exact hsig.goOn (.copying r) hsole rfl rfl (fun _ => hsig.owner p hlocks)
      (by simp [Mode.AsleepOn]) False.elim trivial (Or.inr (hsince _)) (Or.inl ⟨r, rfl⟩)

/-- A reader goes to sleep on a pipe that is still empty. -/
theorem Signalled.readSleep (hsig : Signalled state)
    (hmode : (state.thread p).mode = .waitPassed r) :
    Signalled (state.release p (.readSleep r true)) := by
  have hlocks := locks_of hmode trivial
  have hempty := hsig.fits p
  rw [hmode] at hempty
  refine hsig.move (hsig.sole hlocks) (State.mode_setMode _ p · _)
    (State.killed_setMode _ p · _) False.elim False.elim trivial ?_ ?_
  · exact fun _ _ => ⟨hempty.2, Or.inl hempty.1⟩
  · intro q hasleep
    obtain ⟨hopen, hfull⟩ := hsig.writer_of_owner (hsig.sole hlocks) (by simp [hmode])
      (asleep_setMode hasleep id)
    exact ⟨hopen, Or.inl hfull⟩

/-- A reader in its copy loop takes a byte out: no reader sleeps then, and the
writers are woken before the lock is free. -/
theorem Signalled.remove {s : Read} (hsig : Signalled state)
    (hmode : (state.thread p).mode = .copying r) (hsome : ¬ state.pipe.ring.Empty) :
    Signalled (state.remove.setMode p (.copying s)) := by
  have hlocks := locks_of hmode trivial
  have hsole := hsig.sole hlocks
  refine hsig.move hsole (State.mode_setMode _ p · _)
    (State.killed_setMode _ p · _) (fun _ => hsig.owner p hlocks) False.elim trivial ?_ ?_
  · intro q hasleep
    obtain ⟨-, hempty | hsince⟩ := hsig.reader_of_sole hsole (asleep_setMode hasleep id)
    · exact absurd hempty hsome
    · rw [hmode] at hsince
      exact absurd hsince (Nat.lt_irrefl 0)
  · intro q hasleep
    exact ⟨(hsig.writer q (asleep_setMode hasleep id)).1, Or.inr ⟨s, rfl⟩⟩

theorem Signalled.copyReturns (hsig : Signalled state)
    (hmode : (state.thread p).mode = .copying r) :
    Signalled ((state.wakeup .nwrite).release p .outside) := by
  have hwoken : ((state.wakeup .nwrite).thread p).mode = .copying r := by
    rw [State.mode_wakeup (by rw [hmode]; trivial), hmode]
  have hsig' := hsig.wakeup .nwrite
  exact hsig'.goOn .outside (hsig'.sole (by rw [hwoken]; trivial)) rfl rfl False.elim
    (by simp [Mode.AsleepOn]) False.elim trivial (Or.inr (by rw [hwoken]; exact Nat.le_refl 0))
    (Or.inr (Or.inl fun q => Thread.not_asleep_woken .nwrite _))

theorem State.setMode_self {state : State P} {p : P} {mode : Mode}
    (hmode : (state.thread p).mode = mode) : state.setMode p mode = state := by
  subst hmode
  simp [State.setMode]

theorem Signalled.copyTurn (hsig : Signalled state) (hmode : (state.thread p).mode = .copying r) :
    Signalled (state.copyTurn p r) := by
  unfold State.copyTurn
  split
  next hmore =>
    split
    next => exact hsig.remove hmode hmore.2
    next =>
      have hremoved : Signalled state.remove := by
        have hsame := @Signalled.remove P _ state p r r hsig hmode hmore.2
        rwa [@State.setMode_self P _ state.remove p _ hmode] at hsame
      exact hremoved.copyReturns hmode
  next => exact hsig.copyReturns hmode

/-- A process gets the lock while it is free. -/
theorem Signalled.acquire {calls : Nat} (hsig : Signalled state) (hlock : state.lock = none)
    (hmode : (∃ w, mode = .writing w ∧ w.since = 0) ∨ ∃ r, mode = .waiting r) :
    Signalled ({ state with calls := calls }.acquire p mode) := by
  have hfree := hsig.unlocked hlock p
  refine hsig.goOn mode (fun q _ => hsig.unlocked hlock q) rfl rfl (fun _ => rfl) ?_ ?_ ?_
    (Or.inr ?_) (Or.inr (Or.inr fun r hr => hfree (by rw [hr]; trivial)))
  · rcases hmode with ⟨w, rfl, -⟩ | ⟨r, rfl⟩ <;> simp [Mode.AsleepOn]
  · rcases hmode with ⟨w, rfl, hzero⟩ | ⟨r, rfl⟩
    · exact fun hexposed => absurd hexposed.1 (by omega)
    · exact False.elim
  · rcases hmode with ⟨w, rfl, hzero⟩ | ⟨r, rfl⟩
    · exact fun hsince => absurd hsince (by omega)
    · trivial
  · rw [Nat.eq_zero_of_not_pos fun hsince => hfree (Mode.locks_of_since hsince)]
    exact Nat.zero_le _

omit [DecidableEq P] in
theorem Signalled.pipeclose (hsig : Signalled state) (hlock : state.lock = none) (writable : Bool) :
    Signalled (state.pipeclose writable) := by
  have hfree : ∀ chan q, ¬ ((state.thread q).woken chan).mode.Locks :=
    fun chan => (hsig.wakeup chan).unlocked hlock
  unfold State.pipeclose
  split
  next =>
    have hwoken := hsig.wakeup .nread
    exact ⟨hwoken.owner, hwoken.alive, fun q => (hwoken.fits q).unlocked (hfree _ q),
      fun p hasleep => absurd hasleep (Thread.not_asleep_woken .nread _), hwoken.writer⟩
  next =>
    have hwoken := hsig.wakeup .nwrite
    exact ⟨hwoken.owner, hwoken.alive, fun q => (hwoken.fits q).unlocked (hfree _ q),
      hwoken.reader, fun p hasleep => absurd hasleep (Thread.not_asleep_woken .nwrite _)⟩

end Turns

section Kill

omit [DecidableEq P]

theorem Thread.kill_locks {thread : Thread} (hlocks : thread.kill.mode.Locks ∨ thread.mode.Locks) :
    thread.kill.mode = thread.mode := by
  cases hmode : thread.mode <;>
    simp_all [Thread.kill, Mode.Locks]

theorem Thread.not_asleep_kill (thread : Thread) (chan : Chan) :
    ¬ thread.kill.mode.AsleepOn chan := by
  cases hmode : thread.mode <;> cases chan <;>
    simp [Thread.kill, hmode, Mode.AsleepOn]

theorem Mode.Fits.kill {thread : Thread} {pipe : Pipe} (hfits : thread.mode.Fits pipe) :
    thread.kill.mode.Fits pipe := by
  cases hmode : thread.mode <;> simp_all [Thread.kill, Mode.Fits]

end Kill

/-- `kkill` of a process that does not depend on living. -/
theorem Signalled.kkill (hsig : Signalled state)
    (hquiet : ¬ (state.thread p).mode.Exposed state.pipe.ring) : Signalled { state with
      thread := update state.thread p (state.thread p).kill } := by
  -- a process that has the lock keeps its mode
  have hkept : ∀ q, (update state.thread p (state.thread p).kill q).mode.Locks ∨
      (state.thread q).mode.Locks →
      (update state.thread p (state.thread p).kill q).mode = (state.thread q).mode := by
    intro q hlocks
    by_cases heq : q = p
    · subst heq
      rw [update_self] at hlocks ⊢
      exact Thread.kill_locks hlocks
    · rw [update_of_ne heq]
  have hasleep : ∀ q chan, (update state.thread p (state.thread p).kill q).mode.AsleepOn
        chan → (state.thread q).mode.AsleepOn chan := by
    intro q chan hq
    by_cases heq : q = p
    · subst heq
      rw [update_self] at hq
      exact absurd hq (Thread.not_asleep_kill _ chan)
    · rwa [update_of_ne heq] at hq
  constructor
  · intro q hlocks
    refine hsig.owner q ?_
    rw [← hkept q (Or.inl hlocks)]
    exact hlocks
  · intro q hexposed
    dsimp only at hexposed ⊢
    rw [hkept q (Or.inl hexposed.locks)] at hexposed
    have hne : q ≠ p := by
      rintro rfl
      exact hquiet hexposed
    rw [update_of_ne hne]
    exact hsig.alive q hexposed
  · intro q
    dsimp only
    by_cases heq : q = p
    · subst heq
      rw [update_self]
      exact (hsig.fits q).kill
    · rw [update_of_ne heq]
      exact hsig.fits q
  · intro q hq
    obtain ⟨hopen, hempty | ⟨o, hsince⟩⟩ := hsig.reader q (hasleep q .nread hq)
    · exact ⟨hopen, Or.inl hempty⟩
    · refine ⟨hopen, Or.inr ⟨o, ?_⟩⟩
      dsimp only
      rwa [hkept o (Or.inr (Mode.locks_of_since hsince))]
  · intro q hq
    obtain ⟨hopen, hfull | ⟨o, r, ho⟩⟩ := hsig.writer q (hasleep q .nwrite hq)
    · exact ⟨hopen, Or.inl hfull⟩
    · exact ⟨hopen, Or.inr ⟨o, r, (hkept o (Or.inr (by rw [ho]; trivial))).trans ho⟩⟩

theorem step_signalled {event : Event P}
    (hsig : Signalled state) (hok : NotBetweenBytes state event)
    (hstep : step state event = some next) : Signalled next := by
  cases event with
  | pipewrite p n buf =>
    simp only [step] at hstep
    split at hstep
    next hmode hlock =>
      cases hstep
      exact hsig.acquire hlock (Or.inl ⟨_, rfl, rfl⟩)
    next => cases hstep
  | piperead p n dst =>
    simp only [step] at hstep
    split at hstep
    next hmode hlock =>
      cases hstep
      exact hsig.acquire hlock (Or.inr ⟨_, rfl⟩)
    next => cases hstep
  | turn p =>
    simp only [step] at hstep
    split at hstep
    next w hmode =>
      cases hstep
      exact hsig.writeTurn hmode
    next w hmode =>
      cases hstep
      exact hsig.storeTurn hmode
    next r hmode =>
      cases hstep
      exact hsig.waitTurn hmode
    next r hmode =>
      cases hstep
      exact hsig.readSleep hmode
    next r hmode =>
      cases hstep
      exact hsig.copyTurn hmode
    next => cases hstep
  | resume p =>
    simp only [step] at hstep
    split at hstep
    next w hmode hlock =>
      cases hstep
      have hfits := hsig.fits p
      rw [hmode] at hfits
      exact hsig.acquire hlock (Or.inl ⟨w, rfl, hfits⟩)
    next r hmode hlock =>
      cases hstep
      exact hsig.acquire hlock (Or.inr ⟨r, rfl⟩)
    next => cases hstep
  | pipeclose writable =>
    simp only [step] at hstep
    split at hstep
    next hlock =>
      cases hstep
      exact hsig.pipeclose hlock writable
    next => cases hstep
  | kkill p =>
    cases hstep
    exact hsig.kkill hok

omit [DecidableEq P] in
theorem signalled_init : Signalled (State.init : State P) := by
  exact ⟨fun _ => False.elim, fun _ => False.elim, fun _ => trivial, fun _ => False.elim,
    fun _ => False.elim⟩

/-- No wakeup is lost on a pipe as long as no `kkill` lands between two bytes
of a `pipewrite`: whenever the lock is free, readers sleep only on an empty
pipe with an open write end, and writers only on a full one with an open read
end. -/
theorem no_lost_wakeup {events : List (Event P)} {state : State P}
    (hmeets : RunMeets step NotBetweenBytes State.init events)
    (hrun : run step State.init events = some state)
    (hlock : state.lock = none) : (∀ p, (state.thread p).mode.AsleepOn .nread →
      state.pipe.ring.Empty ∧ state.pipe.writeopen = true) ∧
    ∀ p, (state.thread p).mode.AsleepOn .nwrite →
      state.pipe.ring.Full PIPESIZE ∧ state.pipe.readopen = true := by
  have hsig : Signalled state := run_invariant
    (fun _ _ _ hsig hok hstep => step_signalled hsig hok hstep) signalled_init
    hmeets hrun
  refine ⟨fun p hasleep => ?_, fun p hasleep => ?_⟩
  · obtain ⟨hopen, hempty | ⟨q, hsince⟩⟩ := hsig.reader p hasleep
    · exact ⟨hempty, hopen⟩
    · exact absurd (Mode.locks_of_since hsince) (hsig.unlocked hlock q)
  · obtain ⟨hopen, hfull | ⟨q, r, hq⟩⟩ := hsig.writer p hasleep
    · exact ⟨hfull, hopen⟩
    · exact absurd (by rw [hq]; trivial) (hsig.unlocked hlock q)

/-- A reader sleeps; a writer is killed before its call and inserts nothing. -/
def killedBefore : List (Event (Fin 2)) :=
  [.piperead 0 1 (fun _ => true), .turn 0, .turn 0, .kkill 1, .pipewrite 1 2 (bytes [7, 8]),
    .turn 1]

theorem no_lost_wakeup_killedBefore : ∃ state, run step State.init killedBefore = some state ∧
      state.lock = none ∧ (state.thread 0).mode.AsleepOn .nread ∧
      state.pipe.ring.Empty ∧ state.pipe.writeopen = true := by
  refine ⟨_, rfl, rfl, rfl, ?_⟩
  have hmeets : RunMeets step NotBetweenBytes State.init killedBefore := by
    simp [killedBefore, RunMeets, NotBetweenBytes, Mode.Exposed, step, State.init,
      State.acquire, State.setMode, State.waitTurn, State.release, RingBuffer.Empty]
  exact (@no_lost_wakeup (Fin 2) _ killedBefore _ hmeets rfl rfl).1 0 rfl

/-- A reader sleeps on the empty pipe; a writer inserts the first of two bytes
and is killed before the second. -/
def killedBetweenBytes : List (Event (Fin 2)) :=
  [.piperead 0 1 (fun _ => true), .turn 0, .turn 0, .pipewrite 1 2 (bytes [7, 8]),
    .turn 1, .turn 1, .kkill 1, .turn 1]

/-- `pipewrite` returns -1 without a wakeup: the lock is free, a byte is there,
and the reader sleeps on. -/
theorem killedBetweenBytes_lost : ∃ state, run step State.init killedBetweenBytes = some state ∧
      state.lock = none ∧ (state.thread 0).mode.AsleepOn .nread ∧
      ¬ state.pipe.ring.Empty ∧ state.pipe.writeopen = true ∧
      state.inserted = [(0, 7)] ∧ state.removed = [] :=
  ⟨_, rfl, rfl, rfl, by decide, rfl, rfl, rfl⟩

end PipeRing

end CkptKernel
