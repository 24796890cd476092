/-
The reading loop of user/grep.c.  Partial lines wait in a fixed buffer between
reads; a line that fills the buffer leaves no room for the next `read`, which
then looks like the end of the file.
-/
import CkptKernel.Grep.Matcher
import CkptKernel.Lib.CString
import Mathlib.Data.List.TakeWhile

namespace CkptKernel.Grep

open ByteMem CString
open Function (update update_eq_self update_idem update_of_ne update_self)

def newline : UInt8 := 10

def BUFSIZE : Nat := 1024

/-- What is left to read, and how the next reads split it: read `i` returns at
most `split i + 1` bytes. -/
structure Input where
  rest : List UInt8
  split : Nat → Nat

/-- How many bytes a `read` of `count` bytes returns. -/
def Input.given (input : Input) (count : Nat) : Nat :=
  min count (min (input.split 0 + 1) input.rest.length)

def Input.after (input : Input) (n : Nat) : Input :=
  ⟨input.rest.drop n, fun i => input.split (i + 1)⟩

/-- The buffer, and what has been written to file descriptor 1. -/
structure Output where
  buf : Bytes
  out : List UInt8

/-- The loop over the lines in the buffer; the result is the place of the
first byte that is not in a whole line. -/
def scanLines (pattern : List UInt8) : Nat → Nat → Output → Nat × Output
  | 0, p, state => (p, state)
  | fuel + 1, p, state =>
    match strchr state.buf newline BUFSIZE p with
    | none => (p, state)
    | some q =>
      let cut := update state.buf q 0
      if matchText pattern (stringAt cut BUFSIZE p) then
        let whole := update cut q newline
        scanLines pattern fuel (q + 1)
          ⟨whole, state.out ++ bytesAt whole (q + 1 - p) p⟩
      else scanLines pattern fuel (q + 1) ⟨cut, state.out⟩

theorem given_le_rest (input : Input) (count : Nat) : input.given count ≤ input.rest.length := by
  unfold Input.given
  omega

/-- The loop of `grep`, with `m` bytes of a line in the buffer. -/
def grepLoop (pattern : List UInt8) (input : Input) (m : Nat)
    (state : Output) : Output :=
  let n := input.given (BUFSIZE - m - 1)
  if 0 < n then
    let filled := blit state.buf m n (fun i => input.rest.getD i 0)
    let ended := update filled (m + n) 0
    let (p, scanned) := scanLines pattern BUFSIZE 0 ⟨ended, state.out⟩
    let left := m + n - p
    grepLoop pattern (input.after n) left
      ⟨blit scanned.buf 0 left (fun i => scanned.buf (p + i)), scanned.out⟩
  else state
termination_by input.rest.length
decreasing_by
  have hle := given_le_rest input (BUFSIZE - m - 1)
  simp only [Input.after, List.length_drop]
  omega

/-- `grep`: what the call writes, whatever the buffer held. -/
def grep (pattern : List UInt8) (buf : Bytes) (input : Input) : List UInt8 :=
  (grepLoop pattern input 0 ⟨buf, []⟩).out

/-- The lines of a stream that end with a newline. -/
def lines (stream : List UInt8) : List (List UInt8) :=
  (stream.splitOn newline).dropLast

def printed (pattern : List UInt8) (found : List (List UInt8)) : List UInt8 :=
  (found.filter (matchText pattern)).flatMap (· ++ [newline])

/-- A line that fits into the buffer with its newline. -/
def Short (line : List UInt8) : Prop := line.length < BUFSIZE - 1

instance : DecidablePred Short := fun _ => inferInstanceAs (Decidable (_ < _))

section Lines

variable {line more : List UInt8}

theorem lines_cons (hline : newline ∉ line) (more : List UInt8) :
    lines (line ++ newline :: more) = line :: lines more := by
  rw [lines, lines, List.splitOn_append_cons_self_of_not_mem hline,
    List.dropLast_cons_of_ne_nil (List.splitOn_ne_nil _ _)]

theorem lines_of_not_mem (hline : newline ∉ line) : lines line = [] := by
  rw [lines, List.splitOn_eq_singleton hline]
  rfl

/-- A line is shorter than its stream. -/
theorem length_lt_of_mem_lines {stream : List UInt8} (hline : line ∈ lines stream) :
    line.length < stream.length := by
  induction hlen : stream.length using Nat.strong_induction_on generalizing stream with
  | _ len ih =>
    by_cases hin : newline ∈ stream
    · obtain ⟨first, more, rfl, hfirst⟩ := List.eq_append_cons_of_mem hin
      rw [lines_cons hfirst] at hline
      simp only [List.length_append, List.length_cons] at hlen
      rcases List.mem_cons.mp hline with rfl | hline
      · omega
      · have hlt := ih more.length (by omega) hline rfl
        omega
    · rw [lines_of_not_mem hin] at hline
      cases hline

theorem printed_append (pattern : List UInt8) (left right : List (List UInt8)) :
    printed pattern (left ++ right) = printed pattern left ++ printed pattern right := by
  rw [printed, List.filter_append, List.flatMap_append]
  rfl

end Lines

/-- What is left of `todo` when its whole lines have been taken off. -/
structure Leaves (todo last : List UInt8) : Prop where
  suffix : ∃ front, todo = front ++ last
  unbroken : newline ∉ last
  splits : ∀ more, lines (todo ++ more) = lines todo ++ lines (last ++ more)

theorem Leaves.refl {todo : List UInt8} (htodo : newline ∉ todo) : Leaves todo todo :=
  ⟨⟨[], rfl⟩, htodo, fun more => by
    rw [lines_of_not_mem htodo]
    rfl⟩

theorem Leaves.cons {line more last : List UInt8} (hline : newline ∉ line)
    (hmore : Leaves more last) : Leaves (line ++ newline :: more) last := by
  obtain ⟨front, hfront⟩ := hmore.suffix
  refine ⟨⟨line ++ newline :: front, by simp [hfront]⟩, hmore.unbroken, ?_⟩
  intro next
  rw [lines_cons hline, List.append_assoc, List.cons_append, lines_cons hline, hmore.splits]
  rfl

/-- The inner loop prints the whole lines that match and stops behind the
last of them. -/
theorem scanLines_run (pattern : List UInt8) {fuel p : Nat} {buf : Bytes} {out todo : List UInt8}
    (hstored : StoredAt buf p todo) (hnul : ∀ b ∈ todo, b ≠ 0) (hfuel : todo.length < fuel)
    (hsize : todo.length < BUFSIZE) : ∃ q buf' last, scanLines pattern fuel p ⟨buf, out⟩ =
        (q, ⟨buf', out ++ printed pattern (lines todo)⟩) ∧
      StoredAt buf' q last ∧ q + last.length = p + todo.length ∧ Leaves todo last := by
  induction fuel generalizing p buf out todo with
  | zero => exact absurd hfuel (Nat.not_lt_zero _)
  | succ fuel ih =>
    by_cases hin : newline ∈ todo
    · obtain ⟨line, more, rfl, hline⟩ := List.eq_append_cons_of_mem hin
      rw [List.length_append, List.length_cons] at hfuel hsize
      have hfree : ∀ b ∈ line, b ≠ 0 ∧ b ≠ newline := fun b hb =>
        ⟨hnul b (List.mem_append_left _ hb), fun heq => hline (heq ▸ hb)⟩
      have hnul' : ∀ b ∈ more, b ≠ 0 := fun b hb =>
        hnul b (List.mem_append_right _ (List.mem_cons_of_mem _ hb))
      have hfound := hstored.strchr_some hfree (by decide) (show line.length < BUFSIZE by omega)
      have hcut := hstored.cut.stringAt (fun b hb => (hfree b hb).1)
        (show line.length < BUFSIZE by omega)
      have hnext : ∀ b, StoredAt (update buf
          (p + line.length) b) (p + line.length + 1) more := fun b =>
        hstored.drop.2.update (Or.inl (Nat.lt_succ_self _)) b
      have hend : p + line.length + 1 + more.length = p + (line ++ newline :: more).length := by
        rw [List.length_append, List.length_cons]
        omega
      rw [scanLines, hfound]
      dsimp only
      rw [hcut]
      split
      next hmatch =>
        have hwhole : update (update buf (p + line.length) 0) (p + line.length) newline = buf := by
          rw [update_idem, ← hstored.drop.1, update_eq_self]
        have hbytes : bytesAt buf (p + line.length + 1 - p) p = line ++ [newline] := by
          have hcount : p + line.length + 1 - p = (line ++ [newline]).length := by
            rw [List.length_append, List.length_singleton]
            omega
          have hstored' : StoredAt buf p ((line ++ [newline]) ++ more) := by
            rwa [List.append_assoc]
          rw [hcount, hstored'.bytesAt]
        rw [hwhole, hbytes]
        obtain ⟨q, buf', last, hrun, hlast, hlen, hleaves⟩ :=
          @ih _ _ (out ++ (line ++ [newline])) _ hstored.drop.2 hnul' (by omega) (by omega)
        refine ⟨q, buf', last, ?_, hlast, hlen.trans hend, hleaves.cons hline⟩
        rw [hrun, lines_cons hline]
        simp [printed, hmatch]
      next hmatch =>
        obtain ⟨q, buf', last, hrun, hlast, hlen, hleaves⟩ :=
          @ih _ _ out _ (hnext 0) hnul' (by omega) (by omega)
        refine ⟨q, buf', last, ?_, hlast, hlen.trans hend, hleaves.cons hline⟩
        rw [hrun, lines_cons hline]
        simp [printed, hmatch]
    · have hnone := @StoredAt.strchr_none _ _ _ newline BUFSIZE hstored
        fun b hb => ⟨hnul b hb, fun heq => hin (heq ▸ hb)⟩
      rw [scanLines, hnone]
      refine ⟨p, buf, todo, ?_, hstored, rfl, .refl hin⟩
      rw [lines_of_not_mem hin]
      simp [printed]

/-- The buffer holds `part` at its beginning. -/
def Output.Holds (state : Output) (part : List UInt8) : Prop :=
  ∀ i (h : i < part.length), state.buf i = part[i]

/-- What `read` puts behind a partial line, with the zero behind it. -/
theorem storedAt_filled {state : Output} {part rest : List UInt8} (hpart : state.Holds part)
    {n : Nat} (hn : n ≤ rest.length) : StoredAt (update (blit state.buf part.length n
      (fun i => rest.getD i 0)) (part.length + n) 0) 0 (part ++ rest.take n) := by
  have hlength : (part ++ rest.take n).length = part.length + n := by
    rw [List.length_append, List.length_take, Nat.min_eq_left hn]
  rw [storedAt_iff]
  refine ⟨fun i hi => ?_, ?_⟩
  rotate_left
  · rw [hlength, Nat.zero_add, update_self]
  rw [Nat.zero_add, update_of_ne (by omega)]
  by_cases hlow : i < part.length
  · rw [blit_outside _ _ (Or.inl hlow), List.getElem_append_left hlow]
    exact hpart i hlow
  · rw [blit_inside _ _ (by omega) (by omega),
      List.getElem_append_right (Nat.le_of_not_lt hlow), List.getElem_take,
      List.getD_eq_getElem?_getD, List.getElem?_eq_getElem (by omega), Option.getD_some]

/-- A line that has filled the buffer keeps everything behind it from being
read. -/
theorem lines_of_long {part : List UInt8} (hpart : newline ∉ part) (hlong : ¬ Short part)
    (rest : List UInt8) : (lines (part ++ rest)).takeWhile (Short ·) = [] := by
  by_cases hin : newline ∈ rest
  · obtain ⟨line, more, rfl, hline⟩ := List.eq_append_cons_of_mem hin
    have hfirst : newline ∉ part ++ line := by
      rw [List.mem_append]
      exact fun hmem => hmem.elim hpart hline
    rw [← List.append_assoc, lines_cons hfirst, List.takeWhile_cons, if_neg]
    simp only [Short, List.length_append, decide_eq_true_eq] at hlong ⊢
    omega
  · rw [lines_of_not_mem, List.takeWhile_nil]
    rw [List.mem_append]
    exact fun hmem => hmem.elim hpart hin

/-- The loop prints the lines that match, up to the first that does not fit
into the buffer. -/
theorem grepLoop_out (pattern : List UInt8) {input : Input} {part : List UInt8} {state : Output}
    (hpart : state.Holds part) (hline : newline ∉ part) (hnul : ∀ b ∈ part ++ input.rest, b ≠ 0)
    (hsize : part.length < BUFSIZE) : (grepLoop pattern input part.length state).out = state.out ++
      printed pattern ((lines (part ++ input.rest)).takeWhile (Short ·)) := by
  -- on what is left to read, which every turn of the loop shortens
  induction hlen : input.rest.length using Nat.strong_induction_on
    generalizing input part state with
  | _ len ih =>
    rw [grepLoop]
    dsimp only
    generalize hn : input.given (BUFSIZE - part.length - 1) = n
    have hle : n ≤ input.rest.length := hn ▸ given_le_rest _ _
    split
    next hpos =>
      have hcount : n ≤ BUFSIZE - part.length - 1 := by
        rw [← hn, Input.given]
        exact Nat.min_le_left _ _
      have hrest : part ++ input.rest = (part ++ input.rest.take n) ++ input.rest.drop n := by
        rw [List.append_assoc, List.take_append_drop]
      have htodo : (part ++ input.rest.take n).length = part.length + n := by
        rw [List.length_append, List.length_take, Nat.min_eq_left hle]
      obtain ⟨q, buf, last, hrun, hlast, hend, hleaves⟩ :=
        @scanLines_run pattern BUFSIZE 0 _ state.out _ (storedAt_filled hpart hle)
          (fun b hb => hnul b (hrest ▸ List.mem_append_left _ hb))
          (by omega) (by omega)
      rw [hrun]
      dsimp only
      obtain ⟨front, hfront⟩ := hleaves.suffix
      have hleft : part.length + n - q = last.length := by omega
      have hholds : Output.Holds ⟨blit buf 0 last.length (fun i => buf (q + i)), state.out ++
            printed pattern (lines (part ++ input.rest.take n))⟩ last := by
        intro i hi
        dsimp only
        rw [blit_inside _ _ (Nat.zero_le i) (by omega), Nat.sub_zero]
        exact (storedAt_iff.mp hlast).1 i hi
      have hshort : ∀ line ∈ lines (part ++ input.rest.take n), decide (Short line) = true := by
        intro line hmem
        have hlt := length_lt_of_mem_lines hmem
        rw [htodo] at hlt
        refine decide_eq_true ?_
        unfold Short
        omega
      have hnul' : ∀ b ∈ last ++ (input.after n).rest, b ≠ 0 := by
        intro b hb
        rw [hrest, hfront, List.append_assoc] at hnul
        exact hnul b (List.mem_append_right _ hb)
      rw [hleft, ih _ (by simp only [Input.after, List.length_drop]; omega)
        hholds hleaves.unbroken hnul' (by omega) rfl, hrest,
        hleaves.splits, List.takeWhile_append_of_pos hshort, printed_append, List.append_assoc]
      rfl
    next hzero =>
      have hstop : input.rest = [] ∨ BUFSIZE - part.length - 1 = 0 := by
        rw [← List.length_eq_zero_iff]
        simp only [Input.given] at hn
        omega
      have hnothing : (lines (part ++ input.rest)).takeWhile (Short ·) = [] := by
        rcases hstop with hempty | hfull
        · rw [hempty, List.append_nil, lines_of_not_mem hline, List.takeWhile_nil]
        · refine lines_of_long hline ?_ _
          simp only [Short]
          omega
      rw [hnothing]
      simp [printed]

theorem grep_out (pattern : List UInt8) (buf : Bytes) {input : Input}
    (hnul : ∀ b ∈ input.rest, b ≠ 0) : grep pattern buf input =
      printed pattern ((lines input.rest).takeWhile (Short ·)) :=
  @grepLoop_out pattern input [] ⟨buf, []⟩ nofun (List.not_mem_nil) hnul (by decide)

theorem printed_nil (found : List (List UInt8)) :
    printed [] found = found.flatMap (· ++ [newline]) := by
  rw [printed, List.filter_eq_self.mpr fun line _ => by
    cases line <;> simp [matchText, matchAny, matchhere]]

/-- `grep` prints exactly the lines that match, for every pattern, if and only
if every line is at least two bytes shorter than the buffer.  How `read` splits
the stream does not matter. -/
theorem grep_prints_lines (buf : Bytes) (input : Input) (hnul : ∀ b ∈ input.rest, b ≠ 0) :
    (∀ pattern, grep pattern buf input = printed pattern (lines input.rest)) ↔
      ∀ line ∈ lines input.rest, line.length < BUFSIZE - 1 := by
  constructor
  · intro hall line hmem
    have hempty := hall []
    rw [grep_out [] buf hnul, printed_nil, printed_nil] at hempty
    have hsplit := List.takeWhile_append_dropWhile (p := (Short ·)) (l := lines input.rest)
    rw [← congrArg (List.flatMap (· ++ [newline])) hsplit,
      List.flatMap_append, List.self_eq_append_right] at hempty
    have hnone : (lines input.rest).dropWhile (Short ·) = [] := by
      cases hdrop : (lines input.rest).dropWhile (Short ·) with
      | nil => rfl
      | cons head tail =>
        rw [hdrop] at hempty
        simp at hempty
    rw [List.dropWhile_eq_nil_iff] at hnone
    exact of_decide_eq_true (hnone line hmem)
  · intro hshort pattern
    rw [grep_out pattern buf hnul, List.takeWhile_eq_self_iff.mpr]
    exact fun line hmem => decide_eq_true (hshort line hmem)

/-- A stream of two short lines. -/
def twoLines : Input := ⟨[97, 10, 98, 10], fun _ => 0⟩

theorem grep_prints_lines_twoLines : (∀ line ∈ lines twoLines.rest, line.length < BUFSIZE - 1) ∧
      grep [98] (fun _ => 0) twoLines = printed [98] [[97], [98]] := by
  have hlines : lines twoLines.rest = [[97], [98]] := by decide
  have hshort : ∀ line ∈ lines twoLines.rest, line.length < BUFSIZE - 1 := by
    rw [hlines]
    decide
  refine ⟨hshort, ?_⟩
  rw [← hlines]
  exact (grep_prints_lines (fun _ => 0) twoLines (ne_zero_of_all (by decide))).mpr hshort [98]

/-- A line of as many bytes as the buffer takes, and the line `b`. -/
def longLine (count : Nat) : Input :=
  ⟨List.replicate count 97 ++ newline :: [98, 10], fun _ => 1022⟩

theorem longLine_lines (count : Nat) :
    lines (longLine count).rest = [List.replicate count 97, [98]] := by
  have hline : newline ∉ List.replicate count (97 : UInt8) := by
    rw [List.mem_replicate]
    exact fun h => absurd h.2 (by decide)
  have hsecond : lines [98, 10] = [[98]] := by decide
  rw [longLine, lines_cons hline, hsecond]

theorem longLine_nul (count : Nat) : ∀ b ∈ (longLine count).rest, b ≠ 0 := by
  have hlast : ∀ b ∈ [newline, 98, 10], b ≠ 0 := ne_zero_of_all (by decide)
  intro b hb
  rcases List.mem_append.mp hb with hb | hb
  · rw [(List.mem_replicate.mp hb).2]
    decide
  · exact hlast b hb

theorem matchAny_other (count : Nat) : matchAny [98] (List.replicate count 97) = false := by
  induction count with
  | zero => simp [matchAny, matchhere, dollar]
  | succ count ih =>
    rw [List.replicate_succ, matchAny, ih]
    simp [matchhere, dot]

theorem printed_longLine (count : Nat) : printed [98] (lines (longLine count).rest) = [98, 10] := by
  have hfirst : matchText [98] (List.replicate count 97) = false :=
    matchAny_other count
  have hsecond : matchText [98] [98] = true := by
    simp [matchText, matchAny, matchhere, caret]
  rw [longLine_lines, printed, List.filter_cons, hfirst, List.filter_cons, hsecond]
  rfl

/-- The line `b` behind a line of 1023 bytes is not printed. -/
theorem grep_stops_at_long_line : grep [98] (fun _ => 0) (longLine 1023) = [] ∧
      printed [98] (lines (longLine 1023).rest) = [98, 10] := by
  refine ⟨?_, printed_longLine 1023⟩
  have hlong : ¬ decide (Short (List.replicate 1023 97)) = true := by
    rw [decide_eq_true_eq, Short, List.length_replicate]
    decide
  rw [grep_out [98] _ (longLine_nul 1023), longLine_lines, List.takeWhile_cons, if_neg hlong]
  rfl

end CkptKernel.Grep
