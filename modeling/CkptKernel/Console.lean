/-
Console input: `consoleintr` and `consoleread` of kernel/console.c, against a
line editor that keeps what has been committed in a list.  An event is what
happens under `cons.lock` without a break: one interrupt, or a read from its
start or its wakeup until it sleeps or returns.
-/
import CkptKernel.Lib.RingBuffer

namespace CkptKernel.Console

def INPUT_BUF_SIZE : Nat := 128
def BACKSPACE : Nat := 0x100

def C (x : UInt8) : UInt8 := x - 64

def ctrlD : UInt8 := C 68
def ctrlH : UInt8 := C 72
def ctrlP : UInt8 := C 80
def ctrlU : UInt8 := C 85
def delete : UInt8 := 0x7f
def newline : UInt8 := 10
def carriage : UInt8 := 13

/-- `cons` without its lock, and the bytes sent to the uart. -/
structure Cons where
  buf : Nat → UInt8
  r : BitVec 32
  w : BitVec 32
  e : BitVec 32
  sent : List UInt8

def Cons.boot : Cons := ⟨fun _ => 0, 0, 0, 0, []⟩

def consputc (c : Nat) (cons : Cons) : Cons :=
  if c = BACKSPACE then { cons with sent := cons.sent ++ [8, 32, 8] }
  else { cons with sent := cons.sent ++ [UInt8.ofNat c] }

/-- The body of the two cases that erase a character. -/
def erase (cons : Cons) : Cons :=
  consputc BACKSPACE { cons with e := cons.e - 1 }

/-- The loop that kills a line; it is over when `e` has come down to `w`. -/
def killLine : Nat → Cons → Cons
  | 0, cons => cons
  | left + 1, cons =>
    if cons.e ≠ cons.w ∧ cons.buf ((cons.e - 1).toNat % INPUT_BUF_SIZE) ≠ newline then
      killLine left (erase cons)
    else cons

def store (c : UInt8) (cons : Cons) : Cons :=
  { cons with
    buf := Function.update cons.buf (cons.e.toNat % INPUT_BUF_SIZE) c
    e := cons.e + 1 }

/-- The default case: echo and store a character, and end the line at a newline,
at control-d and when the buffer is full. -/
def insert (c : UInt8) (cons : Cons) : Cons :=
  let cons := store c (consputc c.toNat cons)
  if c = newline ∨ c = ctrlD ∨ (cons.e - cons.r).toNat = INPUT_BUF_SIZE then
    { cons with w := cons.e }
  else cons

/-- `consoleintr`; printing the process list is left out. -/
def consoleintr (c : UInt8) (cons : Cons) : Cons :=
  if c = ctrlP then cons
  else if c = ctrlU then killLine (cons.e - cons.w).toNat cons
  else if c = ctrlH ∨ c = delete then
    if cons.e ≠ cons.w then erase cons else cons
  else if c ≠ 0 ∧ (cons.e - cons.r).toNat < INPUT_BUF_SIZE then
    insert (if c = carriage then newline else c) cons
  else cons

/-- Where a run of `consoleread` stops: `n` is still to be read. -/
inductive Stop where
  | asleep (n : Nat)
  | killed
  | returned (n : Nat)
deriving DecidableEq, Repr

/-- The loop of `consoleread`; `got` is what has been copied out. -/
def consoleread (killed : Bool) (target : Nat) : Nat → Cons → List UInt8 → Cons × List UInt8 × Stop
  | 0, cons, got => (cons, got, .returned 0)
  | n + 1, cons, got =>
    if cons.r = cons.w then
      (cons, got, if killed then .killed else .asleep (n + 1))
    else
      let c := cons.buf (cons.r.toNat % INPUT_BUF_SIZE)
      let cons := { cons with r := cons.r + 1 }
      if c = ctrlD then
        if n + 1 < target then
          ({ cons with r := cons.r - 1 }, got, .returned (n + 1))
        else (cons, got, .returned (n + 1))
      else if c = newline then (cons, got ++ [c], .returned n)
      else consoleread killed target n cons (got ++ [c])

/-- The line editor: all bytes ever committed, how many of them have been taken
out, and the line that is being edited. -/
structure Editor where
  log : List UInt8
  taken : Nat
  pending : List UInt8
deriving DecidableEq, Repr

def Editor.blank : Editor := ⟨[], 0, []⟩

def Editor.ready (editor : Editor) : List UInt8 := editor.log.drop editor.taken

def Editor.buffered (editor : Editor) : Nat :=
  editor.ready.length + editor.pending.length

def Editor.commit (editor : Editor) : Editor :=
  ⟨editor.log ++ editor.pending, editor.taken, []⟩

/-- One more character of the line; a newline, control-d or a full buffer ends
it. -/
def Editor.append (editor : Editor) (c : UInt8) : Editor :=
  let longer := { editor with pending := editor.pending ++ [c] }
  if c = newline ∨ c = ctrlD ∨ longer.buffered = INPUT_BUF_SIZE then
    longer.commit
  else longer

def Editor.key (c : UInt8) (editor : Editor) : Editor :=
  if c = 0 ∨ c = ctrlP then editor
  else if c = ctrlU then { editor with pending := [] }
  else if c = ctrlH ∨ c = delete then
    { editor with pending := editor.pending.dropLast }
  else if editor.buffered < INPUT_BUF_SIZE then
    editor.append (if c = carriage then newline else c)
  else editor

/-- A read takes committed bytes up to a newline, or up to a control-d, which
stays for the next read unless it is the first byte of this one. -/
def Editor.read (killed : Bool) (target : Nat) :
    Nat → Editor → List UInt8 → Editor × List UInt8 × Stop
  | 0, editor, got => (editor, got, .returned 0)
  | n + 1, editor, got =>
    match editor.ready with
    | [] => (editor, got, if killed then .killed else .asleep (n + 1))
    | c :: _ =>
      let after := { editor with taken := editor.taken + 1 }
      if c = ctrlD then
        (if n + 1 < target then editor else after, got, .returned (n + 1))
      else if c = newline then (after, got ++ [c], .returned n)
      else read killed target n after (got ++ [c])

structure Waiting where
  target : Nat
  n : Nat
  got : List UInt8
deriving DecidableEq, Repr

/-- A read that is over: `none` if the process was killed, and the bytes it was
given. -/
structure Call where
  reader : Nat
  result : Option Nat
  got : List UInt8
deriving DecidableEq, Repr

inductive Event where
  | intr (c : UInt8)
  /-- A process calls `consoleread` for `n` bytes. -/
  | read (reader : Nat) (n : Int) (killed : Bool)
  /-- A process that sleeps in `consoleread` runs again. -/
  | wake (reader : Nat) (killed : Bool)

/-- Queue, sleeping readers and what has happened: the reads that are over, and
the bytes handed out, oldest first. -/
structure System (Q : Type) where
  queue : Q
  waiting : Nat → Option Waiting
  calls : List Call
  handed : List UInt8

def System.start {Q : Type} (queue : Q) : System Q :=
  ⟨queue, fun _ => none, [], []⟩

section Step

variable {Q : Type} (key : UInt8 → Q → Q)
  (read : Bool → Nat → Nat → Q → List UInt8 → Q × List UInt8 × Stop)

def System.resume (system : System Q) (reader : Nat) (killed : Bool)
    (call : Waiting) : System Q :=
  let (queue, got, stop) := read killed call.target call.n system.queue call.got
  let handed := system.handed ++ got.drop call.got.length
  match stop with
  | .asleep n =>
    ⟨queue, Function.update system.waiting reader (some ⟨call.target, n, got⟩),
      system.calls, handed⟩
  | .killed =>
    ⟨queue, Function.update system.waiting reader none,
      system.calls ++ [⟨reader, none, got⟩], handed⟩
  | .returned n =>
    ⟨queue, Function.update system.waiting reader none,
      system.calls ++ [⟨reader, some (call.target - n), got⟩], handed⟩

def System.step (system : System Q) : Event → System Q
  | .intr c => { system with queue := key c system.queue }
  | .read reader n killed =>
    if system.waiting reader = none then
      system.resume read reader killed ⟨n.toNat, n.toNat, []⟩
    else system
  | .wake reader killed =>
    match system.waiting reader with
    | none => system
    | some call => system.resume read reader killed call

def System.run (system : System Q) (events : List Event) : System Q :=
  events.foldl (System.step key read) system

end Step

def consoleRun (events : List Event) : System Cons :=
  System.run consoleintr consoleread (.start .boot) events

/-- The line editor with the same readers. -/
def editorRun (events : List Event) : System Editor :=
  System.run Editor.key Editor.read (.start .blank) events

def Cons.ring (cons : Cons) : RingBuffer 32 UInt8 :=
  ⟨cons.buf, cons.r, cons.e⟩

@[simp] theorem consputc_ring (c : Nat) (cons : Cons) : (consputc c cons).ring = cons.ring := by
  unfold consputc
  split <;> rfl

@[simp] theorem consputc_w (c : Nat) (cons : Cons) : (consputc c cons).w = cons.w := by
  unfold consputc
  split <;> rfl

/-- The ring holds the bytes that the editor has committed or pending. -/
structure Holds (editor : Editor) (cons : Cons) : Prop where
  taken : editor.taken ≤ editor.log.length
  ring : RingBuffer.Replays INPUT_BUF_SIZE (editor.log ++ editor.pending)
    (editor.log.take editor.taken) cons.ring

/-- And `w` stands where the pending line begins. -/
structure Shows (editor : Editor) (cons : Cons) : Prop
    extends Holds editor cons where
  w : cons.w = BitVec.ofNat 32 editor.log.length
  unbroken : newline ∉ editor.pending

theorem fits : RingBuffer.Fits 32 INPUT_BUF_SIZE :=
  ⟨by decide, by decide, by decide⟩

theorem shows_boot : Shows .blank .boot :=
  ⟨⟨Nat.le_refl 0, ⟨List.nil_prefix, by decide, rfl, rfl,
    fun k hk => absurd hk (Nat.not_lt_zero k)⟩⟩, rfl, List.not_mem_nil⟩

namespace Holds

variable {editor : Editor} {cons : Cons}

variable (hholds : Holds editor cons)
include hholds

theorem ready_length : editor.taken + editor.ready.length = editor.log.length := by
  have htaken := hholds.taken
  rw [Editor.ready, List.length_drop]
  omega

theorem removed_length : (editor.log.take editor.taken).length = editor.taken :=
  List.length_take_of_le hholds.taken

theorem r : cons.r = BitVec.ofNat 32 editor.taken := by
  rw [← hholds.removed_length]
  exact hholds.ring.nread

theorem e : cons.e = BitVec.ofNat 32 (editor.log.length + editor.pending.length) := by
  rw [← List.length_append]
  exact hholds.ring.nwrite

theorem buffered_le : editor.buffered ≤ INPUT_BUF_SIZE := by
  have hbound := hholds.ring.bound
  have hready := hholds.ready_length
  rw [List.length_append, hholds.removed_length] at hbound
  unfold Editor.buffered
  omega

theorem buffered_count : (cons.e - cons.r).toNat = editor.buffered := by
  have hready := hholds.ready_length
  have hle := hholds.buffered_le
  unfold Editor.buffered at hle ⊢
  rw [hholds.e, hholds.r, fits.sub_toNat (by omega) (by omega)]
  omega

/-- The characters of the line being edited are not taken out. -/
theorem kept (more : List UInt8) :
    (editor.log.take editor.taken).length ≤ (editor.log ++ more).length := by
  rw [hholds.removed_length, List.length_append]
  exact Nat.le_add_right_of_le hholds.taken

/-- A character goes into the ring if it is not full. -/
theorem put (hspace : editor.buffered < INPUT_BUF_SIZE) (c : UInt8) :
    Holds { editor with pending := editor.pending ++ [c] }
      (store c cons) := by
  refine ⟨hholds.taken, ?_⟩
  have hready := hholds.ready_length
  have hfull : ¬ cons.ring.Full INPUT_BUF_SIZE := by
    rw [hholds.ring.full_iff fits, List.length_append, hholds.removed_length]
    unfold Editor.buffered at hspace
    omega
  have hput := hholds.ring.put fits hfull c
  rwa [List.append_assoc] at hput

/-- Committing moves `w` up to `e`. -/
theorem commit : Shows editor.commit { cons with w := cons.e } := by
  have htaken : editor.taken ≤ (editor.log ++ editor.pending).length := by
    rw [List.length_append]
    exact Nat.le_add_right_of_le hholds.taken
  refine ⟨⟨htaken, ?_⟩, ?_, List.not_mem_nil⟩
  · unfold Editor.commit
    rw [List.append_nil, List.take_append_of_le_length hholds.taken]
    exact hholds.ring
  · rw [Editor.commit, List.length_append]
    exact hholds.e

end Holds

namespace Shows

variable {editor : Editor} {cons : Cons}

section

variable (hshows : Shows editor cons)
include hshows

theorem pending_count : (cons.e - cons.w).toNat = editor.pending.length := by
  have hle := hshows.buffered_le
  unfold Editor.buffered at hle
  rw [hshows.e, hshows.w, fits.sub_toNat (by omega) (by omega)]
  omega

theorem ready_count : (cons.w - cons.r).toNat = editor.ready.length := by
  have hready := hshows.ready_length
  have hle := hshows.buffered_le
  unfold Editor.buffered at hle
  rw [hshows.w, hshows.r, fits.sub_toNat (by omega) (by omega)]
  omega

theorem pending_nil_iff : cons.e = cons.w ↔ editor.pending = [] := by
  have hle := hshows.buffered_le
  unfold Editor.buffered at hle
  rw [eq_comm, hshows.e, hshows.w, fits.ofNat_inj (by omega) (by omega), ← List.length_eq_zero_iff]
  omega

theorem ready_nil_iff : cons.r = cons.w ↔ editor.ready = [] := by
  have hready := hshows.ready_length
  have hle := hshows.buffered_le
  unfold Editor.buffered at hle
  rw [hshows.r, hshows.w, fits.ofNat_inj (by omega) (by omega), ← List.length_eq_zero_iff]
  omega

end

/-- Erasing takes the last pending character back. -/
theorem erase {log line : List UInt8} {taken : Nat} {c : UInt8}
    (hshows : Shows ⟨log, taken, line ++ [c]⟩ cons) : Shows ⟨log, taken, line⟩ (erase cons) := by
  have hring := hshows.ring
  rw [← List.append_assoc] at hring
  refine ⟨⟨hshows.taken, ?_⟩, ?_, fun hmem =>
    hshows.unbroken (List.mem_append_left _ hmem)⟩
  · unfold Console.erase
    rw [consputc_ring]
    exact hring.unput (hshows.kept line)
  · unfold Console.erase
    rw [consputc_w]
    exact hshows.w

/-- The loop meets no newline before it has erased the whole line. -/
theorem killLine {left : Nat} (hshows : Shows editor cons) (hleft : editor.pending.length ≤ left) :
    Shows { editor with pending := [] } (killLine left cons) := by
  obtain ⟨log, taken, pending⟩ := editor
  induction left generalizing pending cons with
  | zero =>
    obtain rfl := List.length_eq_zero_iff.mp (Nat.le_zero.mp hleft)
    exact hshows
  | succ left ih =>
    unfold Console.killLine
    rcases List.eq_nil_or_concat' pending with rfl | ⟨line, c, rfl⟩
    · rw [if_neg fun hloop => hloop.1 (hshows.pending_nil_iff.mpr rfl)]
      exact hshows
    have hring := hshows.ring
    rw [← List.append_assoc] at hring
    have hlast : cons.buf ((cons.e - 1).toNat % INPUT_BUF_SIZE) = c :=
      hring.last fits (hshows.kept line)
    have hnewline : c ≠ newline := fun heq =>
      hshows.unbroken (by simp [heq])
    have hsome : cons.e ≠ cons.w := fun heq =>
      absurd (hshows.pending_nil_iff.mp heq) (by simp)
    rw [if_pos ⟨hsome, hlast ▸ hnewline⟩]
    refine ih line hshows.erase ?_
    rw [List.length_append, List.length_singleton] at hleft
    exact Nat.le_of_succ_le_succ hleft

/-- Taking out a committed byte: it is the first one that is ready. -/
theorem take {c : UInt8} {rest : List UInt8} (hshows : Shows editor cons)
    (hready : editor.ready = c :: rest) : cons.buf (cons.r.toNat % INPUT_BUF_SIZE) = c ∧
      Shows { editor with taken := editor.taken + 1 }
        { cons with r := cons.r + 1 } := by
  have hlength := hshows.ready_length
  rw [hready, List.length_cons] at hlength
  have hlt : editor.taken < editor.log.length := by omega
  have hc : editor.log[editor.taken] = c := by
    have hdrop := hready
    rw [Editor.ready, List.drop_eq_getElem_cons hlt] at hdrop
    exact (List.cons.inj hdrop).1
  have hfront : cons.ring.front INPUT_BUF_SIZE = c := by
    have hdata := hshows.ring.data editor.taken
      (by rw [List.length_append]; omega) (by rw [hshows.removed_length])
    rw [List.getElem_append_left hlt, hc] at hdata
    unfold RingBuffer.front
    rw [hshows.ring.nread, hshows.removed_length, fits.slot]
    exact hdata
  have hsome : ¬ cons.ring.Empty := by
    rw [hshows.ring.empty_iff fits, hshows.removed_length, List.length_append]
    omega
  refine ⟨hfront, ⟨⟨hlt, ?_⟩, hshows.w, hshows.unbroken⟩⟩
  have hdrop := hshows.ring.drop fits hsome
  rw [hfront, ← hc, List.take_append_getElem hlt] at hdrop
  exact hdrop

end Shows

variable {editor : Editor} {cons : Cons}

theorem insert_shows (hshows : Shows editor cons) (hspace : editor.buffered < INPUT_BUF_SIZE)
    (c : UInt8) : Shows (editor.append c) (insert c cons) := by
  have hecho : Holds editor (consputc c.toNat cons) :=
    ⟨hshows.taken, by rw [consputc_ring]; exact hshows.ring⟩
  have hput := hecho.put hspace c
  unfold Editor.append insert
  dsimp only
  rw [hput.buffered_count]
  split
  · exact hput.commit
  rename_i hopen
  refine ⟨hput, (consputc_w _ _).trans hshows.w, fun hmem => ?_⟩
  rcases List.mem_append.mp hmem with hmem | hmem
  · exact hshows.unbroken hmem
  · exact hopen (Or.inl (List.mem_singleton.mp hmem).symm)

/-- One interrupt does what one key does to the editor. -/
theorem consoleintr_shows (hshows : Shows editor cons) (c : UInt8) :
    Shows (editor.key c) (consoleintr c cons) := by
  unfold Editor.key consoleintr
  by_cases hp : c = ctrlP
  · rw [if_pos (Or.inr hp), if_pos hp]
    exact hshows
  by_cases hzero : c = 0
  · subst hzero
    exact hshows
  rw [if_neg (by simp [hp, hzero]), if_neg hp]
  by_cases hu : c = ctrlU
  · rw [if_pos hu, if_pos hu]
    exact hshows.killLine hshows.pending_count.ge
  rw [if_neg hu, if_neg hu]
  by_cases hback : c = ctrlH ∨ c = delete
  · rw [if_pos hback, if_pos hback]
    obtain ⟨log, taken, pending⟩ := editor
    rcases List.eq_nil_or_concat' pending with rfl | ⟨line, last, rfl⟩
    · rw [if_neg (not_not.mpr (hshows.pending_nil_iff.mpr rfl))]
      exact hshows
    · have hsome : cons.e ≠ cons.w := fun heq =>
        absurd (hshows.pending_nil_iff.mp heq) (by simp)
      rw [if_pos hsome, List.dropLast_concat]
      exact hshows.erase
  rw [if_neg hback, if_neg hback, hshows.buffered_count]
  by_cases hspace : editor.buffered < INPUT_BUF_SIZE
  · have hstore : c ≠ 0 ∧ editor.buffered < INPUT_BUF_SIZE := ⟨hzero, hspace⟩
    rw [if_pos hspace, if_pos hstore]
    exact insert_shows hshows hspace _
  · rw [if_neg hspace, if_neg fun hstore => hspace hstore.2]
    exact hshows

/-- A read does what it does to the editor, and gives the same bytes. -/
theorem consoleread_shows (killed : Bool) (target n : Nat) (hshows : Shows editor cons)
    (got : List UInt8) : Shows (Editor.read killed target n editor got).1
        (consoleread killed target n cons got).1 ∧ (consoleread killed target n cons got).2 =
        (Editor.read killed target n editor got).2 := by
  induction n generalizing editor cons got with
  | zero => exact ⟨hshows, rfl⟩
  | succ n ih =>
    unfold Editor.read consoleread
    cases hready : editor.ready with
    | nil =>
      rw [if_pos (hshows.ready_nil_iff.mpr hready)]
      exact ⟨hshows, rfl⟩
    | cons c rest =>
      have hsome : cons.r ≠ cons.w := fun heq => by
        simp [hshows.ready_nil_iff.mp heq] at hready
      obtain ⟨hfront, hafter⟩ := hshows.take hready
      rw [if_neg hsome]
      dsimp only
      rw [hfront]
      by_cases heof : c = ctrlD
      · rw [if_pos heof, if_pos heof]
        split
        · -- the control-d is put back
          rw [BitVec.add_sub_cancel]
          exact ⟨hshows, rfl⟩
        · exact ⟨hafter, rfl⟩
      rw [if_neg heof, if_neg heof]
      by_cases hline : c = newline
      · rw [if_pos hline, if_pos hline]
        exact ⟨hafter, rfl⟩
      rw [if_neg hline, if_neg hline]
      exact ih hafter (got ++ [c])

/-- The bytes a reader is given: all but control-d. -/
def Editor.given (editor : Editor) : List UInt8 :=
  (editor.log.take editor.taken).filter (· ≠ ctrlD)

/-- What a read does to the editor: it takes out committed bytes and gives
them to the reader. -/
structure Editor.Reads (editor after : Editor) (more : List UInt8) : Prop where
  log : after.log = editor.log
  pending : after.pending = editor.pending
  given : after.given = editor.given ++ more

variable {rest : List UInt8}

theorem Editor.given_succ {c : UInt8} (hready : editor.ready = c :: rest) :
    Editor.given { editor with taken := editor.taken + 1 } =
      editor.given ++ [c].filter (· ≠ ctrlD) := by
  have hlt : editor.taken < editor.log.length := by
    have hlength := congrArg List.length hready
    rw [Editor.ready, List.length_drop, List.length_cons] at hlength
    omega
  have hc : editor.log[editor.taken] = c := by
    rw [Editor.ready, List.drop_eq_getElem_cons hlt] at hready
    exact (List.cons.inj hready).1
  unfold Editor.given
  dsimp only
  rw [List.take_succ_eq_append_getElem hlt, hc, List.filter_append]

theorem Editor.read_reads (killed : Bool) (target n : Nat) (editor : Editor) (got : List UInt8) :
    ∃ more, (Editor.read killed target n editor got).2.1 = got ++ more ∧
      Editor.Reads editor (Editor.read killed target n editor got).1 more := by
  induction n generalizing editor got with
  | zero => exact ⟨[], by simp [Editor.read], rfl, rfl, by simp [Editor.read]⟩
  | succ n ih =>
    unfold Editor.read
    cases hready : editor.ready with
    | nil => exact ⟨[], by simp, rfl, rfl, by simp⟩
    | cons c rest =>
      have hgiven := Editor.given_succ hready
      dsimp only
      by_cases heof : c = ctrlD
      · rw [if_pos heof]
        refine ⟨[], by simp, ?_⟩
        split
        · exact ⟨rfl, rfl, by simp⟩
        · exact ⟨rfl, rfl, by rw [hgiven]; simp [heof]⟩
      have hkeep : [c].filter (· ≠ ctrlD) = [c] := by simp [heof]
      rw [hkeep] at hgiven
      rw [if_neg heof]
      by_cases hline : c = newline
      · rw [if_pos hline]
        exact ⟨[c], rfl, rfl, rfl, hgiven⟩
      rw [if_neg hline]
      obtain ⟨more, hgot, hreads⟩ :=
        ih { editor with taken := editor.taken + 1 } (got ++ [c])
      refine ⟨c :: more, by simp [hgot], hreads.log, hreads.pending, ?_⟩
      rw [hreads.given, hgiven, List.append_assoc]
      rfl

/-- A read that finds a line ended by control-d is over; the control-d stays
if the reader has got something. -/
theorem Editor.read_ctrlD (killed : Bool) {target n : Nat}
    {got body : List UInt8} (hready : editor.ready = body ++ ctrlD :: rest)
    (hplain : ∀ c ∈ body, c ≠ ctrlD ∧ c ≠ newline) (hlong : body.length < n)
    (hcount : n + got.length = target) : ∃ after : Editor, Editor.read killed target n editor got =
        (after, got ++ body, .returned (n - body.length)) ∧
      after.ready = if got ++ body = [] then rest else ctrlD :: rest := by
  induction body generalizing editor n got with
  | nil =>
    obtain ⟨n, rfl⟩ : ∃ k, n = k + 1 := ⟨n - 1, by simp at hlong; omega⟩
    unfold Editor.read
    rw [hready]
    dsimp only [List.nil_append]
    rw [if_pos rfl, List.append_nil]
    by_cases hnone : got = []
    · subst hnone
      rw [if_neg (by simp at hcount; omega), if_pos rfl]
      refine ⟨_, rfl, ?_⟩
      have hdrop := congrArg (List.drop 1) hready
      simpa [Editor.ready, List.drop_drop] using hdrop
    · have hpos := List.length_pos_iff.mpr hnone
      rw [if_pos (by omega), if_neg hnone]
      exact ⟨editor, rfl, hready⟩
  | cons c body ih =>
    obtain ⟨n, rfl⟩ : ∃ k, n = k + 1 := ⟨n - 1, by simp at hlong; omega⟩
    obtain ⟨heof, hline⟩ := hplain c List.mem_cons_self
    unfold Editor.read
    rw [hready]
    dsimp only [List.cons_append]
    rw [if_neg heof, if_neg hline]
    have hnext : Editor.ready { editor with taken := editor.taken + 1 } =
        body ++ ctrlD :: rest := by
      have hdrop := congrArg (List.drop 1) hready
      simpa [Editor.ready, List.drop_drop] using hdrop
    rw [List.length_cons] at hlong
    have hcount' : n + (got ++ [c]).length = target := by
      rw [List.length_append, List.length_singleton]
      omega
    obtain ⟨after, hread, hafter⟩ := ih hnext
      (fun other hother => hplain other (List.mem_cons_of_mem c hother))
      (Nat.lt_of_succ_lt_succ hlong) hcount'
    refine ⟨after, ?_, ?_⟩
    · rw [hread, List.append_assoc, List.length_cons, Nat.add_sub_add_right]
      rfl
    · rw [hafter]
      simp

/-- A read that goes to sleep remembers how much it still has to read. -/
theorem Editor.read_asleep (killed : Bool) (target n left : Nat) (editor : Editor)
    (got : List UInt8) (hstop : (Editor.read killed target n editor got).2.2 = .asleep left) :
    left + (Editor.read killed target n editor got).2.1.length = n + got.length := by
  induction n generalizing editor got with
  | zero => simp [Editor.read] at hstop
  | succ n ih =>
    unfold Editor.read at hstop ⊢
    cases hready : editor.ready with
    | nil =>
      rw [hready] at hstop
      cases killed with
      | true => simp at hstop
      | false =>
        obtain rfl : n + 1 = left := by simpa using hstop
        rfl
    | cons c rest =>
      rw [hready] at hstop
      dsimp only at hstop ⊢
      by_cases heof : c = ctrlD
      · simp [heof] at hstop
      rw [if_neg heof] at hstop ⊢
      by_cases hline : c = newline
      · simp [hline] at hstop
      rw [if_neg hline] at hstop ⊢
      rw [ih _ _ hstop, List.length_append, List.length_singleton]
      omega

/-- A key never touches what has been committed. -/
theorem Editor.key_log (c : UInt8) (editor : Editor) : editor.log <+: (editor.key c).log ∧
      (editor.key c).taken = editor.taken := by
  unfold Editor.key Editor.append
  dsimp only
  split_ifs
  all_goals first
    | exact ⟨List.prefix_append _ _, rfl⟩
    | exact ⟨List.prefix_rfl, rfl⟩

theorem Editor.key_ready (htaken : editor.taken ≤ editor.log.length) (c : UInt8) :
    editor.ready <+: (editor.key c).ready := by
  obtain ⟨⟨more, hlog⟩, hsame⟩ := editor.key_log c
  unfold Editor.ready
  rw [hsame, ← hlog, List.drop_append_of_le_length htaken]
  exact List.prefix_append _ _

theorem Editor.key_given (htaken : editor.taken ≤ editor.log.length) (c : UInt8) :
    (editor.key c).given = editor.given := by
  obtain ⟨⟨more, hlog⟩, hsame⟩ := editor.key_log c
  unfold Editor.given
  rw [hsame, ← hlog, List.take_append_of_le_length htaken]

/-- The kernel's console and the line editor after the same events. -/
structure Follows (model : System Editor) (real : System Cons) : Prop where
  queue : Shows model.queue real.queue
  waiting : real.waiting = model.waiting
  calls : real.calls = model.calls
  handed : real.handed = model.handed
  given : model.handed = model.queue.given
  counted : ∀ reader call, model.waiting reader = some call → call.n + call.got.length = call.target

section Run

variable {model : System Editor} {real : System Cons}

variable (hfollows : Follows model real)
include hfollows

theorem Follows.counted_update (reader : Nat) {entry : Option Waiting}
    (hentry : ∀ call, entry = some call → call.n + call.got.length = call.target) :
    ∀ other call, Function.update model.waiting reader entry other =
      some call → call.n + call.got.length = call.target := by
  intro other call hcall
  by_cases hreader : other = reader
  · subst hreader
    rw [Function.update_self] at hcall
    exact hentry call hcall
  · rw [Function.update_of_ne hreader] at hcall
    exact hfollows.counted other call hcall

theorem Follows.resume (reader : Nat) (killed : Bool) {call : Waiting}
    (hcount : call.n + call.got.length = call.target) :
    Follows (model.resume Editor.read reader killed call)
      (real.resume consoleread reader killed call) := by
  obtain ⟨hqueue, houtcome⟩ :=
    consoleread_shows killed call.target call.n hfollows.queue call.got
  obtain ⟨more, hgot, hreads⟩ :=
    Editor.read_reads killed call.target call.n model.queue call.got
  have hasleep := fun left =>
    Editor.read_asleep killed call.target call.n left model.queue call.got
  unfold System.resume
  rw [hfollows.handed, hfollows.calls, hfollows.waiting]
  generalize Editor.read killed call.target call.n model.queue call.got =
    expected at hqueue houtcome hgot hreads hasleep ⊢
  generalize consoleread killed call.target call.n real.queue call.got = actual at hqueue houtcome ⊢
  obtain ⟨queue, got, stop⟩ := expected
  obtain ⟨ring, outcome⟩ := actual
  obtain rfl : outcome = (got, stop) := houtcome
  dsimp only at hqueue hgot hreads hasleep
  have hgiven : model.handed ++ got.drop call.got.length = queue.given := by
    rw [hgot, List.drop_left, hreads.given, hfollows.given]
  cases stop with
  | asleep left =>
    refine ⟨hqueue, rfl, rfl, rfl, hgiven, hfollows.counted_update reader fun next hnext => ?_⟩
    cases hnext
    exact (hasleep left rfl).trans hcount
  | killed =>
    exact ⟨hqueue, rfl, rfl, rfl, hgiven, hfollows.counted_update reader nofun⟩
  | returned left =>
    exact ⟨hqueue, rfl, rfl, rfl, hgiven, hfollows.counted_update reader nofun⟩

theorem Follows.step (event : Event) : Follows (model.step Editor.key Editor.read event)
      (real.step consoleintr consoleread event) := by
  cases event with
  | intr c =>
    refine ⟨consoleintr_shows hfollows.queue c, hfollows.waiting,
      hfollows.calls, hfollows.handed, ?_, hfollows.counted⟩
    exact hfollows.given.trans (Editor.key_given hfollows.queue.taken c).symm
  | read reader n killed =>
    unfold System.step
    dsimp only
    rw [hfollows.waiting]
    split
    · exact hfollows.resume reader killed rfl
    · exact hfollows
  | wake reader killed =>
    unfold System.step
    dsimp only
    rw [hfollows.waiting]
    cases hcall : model.waiting reader with
    | none => exact hfollows
    | some call =>
      exact hfollows.resume reader killed (hfollows.counted reader call hcall)

theorem Follows.run (events : List Event) : Follows (model.run Editor.key Editor.read events)
      (real.run consoleintr consoleread events) := by
  induction events generalizing model real with
  | nil => exact hfollows
  | cons event rest ih => exact ih (hfollows.step event)

end Run

theorem run_follows (events : List Event) : Follows (editorRun events) (consoleRun events) :=
  Follows.run ⟨shows_boot, rfl, rfl, rfl, rfl, fun _ _ hcall => by cases hcall⟩ events

theorem System.step_log (system : System Editor) (event : Event) : system.queue.log <+:
      (system.step Editor.key Editor.read event).queue.log := by
  have hresume : ∀ reader killed call, system.queue.log =
      (system.resume Editor.read reader killed call).queue.log := by
    intro reader killed call
    obtain ⟨more, -, hreads⟩ :=
      Editor.read_reads killed call.target call.n system.queue call.got
    unfold System.resume
    dsimp only
    split <;> exact hreads.log.symm
  cases event with
  | intr c => exact (Editor.key_log c system.queue).1
  | read reader n killed =>
    unfold System.step
    dsimp only
    split
    · rw [← hresume]
    · exact List.prefix_rfl
  | wake reader killed =>
    unfold System.step
    dsimp only
    split
    · exact List.prefix_rfl
    · rw [← hresume]

theorem System.run_log (system : System Editor) (events : List Event) : system.queue.log <+:
      (system.run Editor.key Editor.read events).queue.log := by
  induction events generalizing system with
  | nil => exact List.prefix_rfl
  | cons event rest ih => exact (system.step_log event).trans (ih _)

/-- The event lets `reader` go on with `call`, a new one or one that sleeps. -/
def System.Resumes {Q : Type} (system : System Q) (reader : Nat)
    (call : Waiting) : Event → Prop
  | .intr _ => False
  | .read caller n _ =>
    caller = reader ∧ system.waiting reader = none ∧ call = ⟨n.toNat, n.toNat, []⟩
  | .wake sleeper _ => sleeper = reader ∧ system.waiting reader = some call

variable {reader : Nat} {call : Waiting} {event : Event}

theorem System.step_of_resumes {Q : Type} (key : UInt8 → Q → Q)
    (read : Bool → Nat → Nat → Q → List UInt8 → Q × List UInt8 × Stop)
    {system : System Q} (hresumes : system.Resumes reader call event) :
    ∃ killed, system.step key read event = system.resume read reader killed call := by
  cases event with
  | intr c => exact hresumes.elim
  | read caller n killed =>
    obtain ⟨rfl, hnone, rfl⟩ := hresumes
    exact ⟨killed, if_pos hnone⟩
  | wake sleeper killed =>
    obtain ⟨rfl, hcall⟩ := hresumes
    refine ⟨killed, ?_⟩
    unfold System.step
    dsimp only
    rw [hcall]

theorem Follows.call_counted {model : System Editor} {real : System Cons}
    (hfollows : Follows model real) (hresumes : model.Resumes reader call event) :
    call.n + call.got.length = call.target := by
  cases event with
  | intr c => exact hresumes.elim
  | read caller n killed =>
    obtain ⟨-, -, rfl⟩ := hresumes
    rfl
  | wake sleeper killed => exact hfollows.counted reader call hresumes.2

/-- A read that meets a control-d is over. -/
theorem Follows.meets_ctrlD {model : System Editor} {real : System Cons}
    (hfollows : Follows model real) {body : List UInt8} (hresumes : model.Resumes reader call event)
    (hready : model.queue.ready = body ++ ctrlD :: rest)
    (hplain : ∀ c ∈ body, c ≠ ctrlD ∧ c ≠ newline) (hlong : body.length < call.n) :
    (model.step Editor.key Editor.read event).calls = model.calls ++
        [⟨reader, some (call.got ++ body).length, call.got ++ body⟩] ∧
      (model.step Editor.key Editor.read event).queue.ready =
        if call.got ++ body = [] then rest else ctrlD :: rest := by
  have hcount := hfollows.call_counted hresumes
  obtain ⟨killed, hstep⟩ :=
    System.step_of_resumes Editor.key Editor.read hresumes
  obtain ⟨after, hread, hafter⟩ :=
    Editor.read_ctrlD killed hready hplain hlong hcount
  have hresult : call.target - (call.n - body.length) = (call.got ++ body).length := by
    rw [List.length_append]
    omega
  rw [hstep, System.resume, hread]
  dsimp only
  rw [hresult]
  exact ⟨rfl, hafter⟩

theorem editorRun_append (events later : List Event) : editorRun (events ++ later) =
      (editorRun events).run Editor.key Editor.read later :=
  List.foldl_append

/-- After any events the indexes are in cyclic order and at most a buffer apart;
the readers have seen what the line editor shows them, which is what was
committed without the control-ds.  What is committed stays.  A read that meets
a control-d ends with the bytes it has; the control-d is used up if there are
none, and otherwise stays in front. -/
theorem console_edits_lines (events : List Event) : let real := consoleRun events
    let model := editorRun events
    ((real.queue.w - real.queue.r).toNat ≤ (real.queue.e - real.queue.r).toNat ∧
      (real.queue.e - real.queue.r).toNat ≤ INPUT_BUF_SIZE) ∧
    (real.handed = model.handed ∧ real.calls = model.calls ∧
      real.waiting = model.waiting) ∧ model.handed =
      (model.queue.log.take model.queue.taken).filter (· ≠ ctrlD) ∧
    (∀ later, model.queue.log <+: (editorRun (events ++ later)).queue.log) ∧
    (∀ c, model.queue.ready <+: (editorRun (events ++ [.intr c])).queue.ready) ∧
    ∀ event reader call body rest, real.Resumes reader call event →
      model.queue.ready = body ++ ctrlD :: rest →
      (∀ c ∈ body, c ≠ ctrlD ∧ c ≠ newline) → body.length < call.n →
      (consoleRun (events ++ [event])).calls = real.calls ++
          [⟨reader, some (call.got ++ body).length, call.got ++ body⟩] ∧
        (editorRun (events ++ [event])).queue.ready =
          if call.got ++ body = [] then rest else ctrlD :: rest := by
  intro real model
  have hfollows : Follows model real := run_follows events
  have hqueue := hfollows.queue
  refine ⟨⟨?_, ?_⟩, ⟨hfollows.handed, hfollows.calls, hfollows.waiting⟩,
    hfollows.given, fun later => ?_, fun c => ?_, ?_⟩
  · rw [hqueue.ready_count, hqueue.buffered_count]
    exact Nat.le_add_right _ _
  · rw [hqueue.buffered_count]
    exact hqueue.buffered_le
  · rw [editorRun_append]
    exact model.run_log later
  · rw [editorRun_append]
    exact Editor.key_ready hqueue.taken c
  · intro event reader call body rest hresumes hready hplain hlong
    have hmodel : model.Resumes reader call event := by
      unfold System.Resumes at hresumes ⊢
      rwa [hfollows.waiting] at hresumes
    obtain ⟨hcalls, hleft⟩ :=
      hfollows.meets_ctrlD hmodel hready hplain hlong
    rw [(run_follows (events ++ [event])).calls, hfollows.calls, editorRun_append]
    exact ⟨hcalls, hleft⟩

/-- `a`, control-d: a first read gets the `a`, the next one nothing. -/
theorem console_edits_lines_endOfFile :
    (consoleRun [.intr 97, .intr 4, .read 1 5 false, .read 2 5 false]).calls =
      [⟨1, some 1, [97]⟩, ⟨2, some 0, []⟩] := by
  have hfirst : (consoleRun [.intr 97, .intr 4, .read 1 5 false]).calls =
      [⟨1, some 1, [97]⟩] := by decide
  have hnext := (console_edits_lines
    [.intr 97, .intr 4, .read 1 5 false]).2.2.2.2.2 (.read 2 5 false) 2
    ⟨5, 5, []⟩ [] [] ⟨rfl, rfl, rfl⟩ (by decide) nofun (by decide)
  exact hnext.1.trans (by rw [hfirst]; rfl)

end CkptKernel.Console
