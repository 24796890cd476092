/-
`parsecmd` as a whole: the length of the line, the descent, and the zero bytes
that `nulterminate` writes behind the words once the line has been parsed.
-/
import CkptKernel.Shell.Parser

namespace CkptKernel.Shell

open ByteMem CString Code

/-- `strlen`, which looks at no more than `size` bytes. -/
def strlen (mem : Bytes) : Nat → Nat → Nat
  | 0, _ => 0
  | size + 1, s => if mem s = 0 then 0 else strlen mem size (s + 1) + 1

def nulterminate : Cmd Span → Bytes → Bytes
  | .exec argv, mem =>
    argv.foldl (fun mem word => Function.update mem word.2 0) mem
  | .redir cmd file _ _, mem =>
    Function.update (nulterminate cmd mem) file.2 0
  | .pipe left right, mem | .list left right, mem =>
    nulterminate right (nulterminate left mem)
  | .back cmd, mem => nulterminate cmd mem

/-- The state is the memory; `size` bytes from `s` on belong to the line's
buffer. -/
def parsecmd (size s : Nat) : Code Bytes (Cmd Span) := fun mem =>
  let es := s + strlen mem size s
  match parseline mem es (4 * (es - s) + 4) s with
  | .error reason => .error reason
  | .ok (cmd, s) =>
    if skipSpace mem es s ≠ es then .error (.panic "syntax")
    else .ok (cmd, nulterminate cmd mem)

theorem strlen_eq {mem : Bytes} {s size : Nat} {line : List UInt8} (hline : StoredAt mem s line)
    (hfree : ∀ b ∈ line, b ≠ 0) (hsize : line.length < size) : strlen mem size s = line.length := by
  induction line generalizing s size with
  | nil =>
    obtain ⟨size, rfl⟩ : ∃ k, size = k + 1 := ⟨size - 1, by omega⟩
    have hend : mem s = 0 := hline
    rw [strlen, if_pos hend]
    rfl
  | cons b line ih =>
    rw [List.length_cons] at hsize
    obtain ⟨size, rfl⟩ : ∃ k, size = k + 1 := ⟨size - 1, by omega⟩
    have hb : mem s ≠ 0 := hline.1 ▸ hfree b List.mem_cons_self
    rw [strlen, if_neg hb, ih hline.2
      (fun c hc => hfree c (List.mem_cons_of_mem b hc)) (by omega), List.length_cons]

/-! ### Zero bytes behind words -/

theorem foldl_update_apply (spans : List Span) (mem : Bytes) (a : Nat) :
    spans.foldl (fun mem word => Function.update mem word.2 0) mem a =
      if ∃ span ∈ spans, span.2 = a then 0 else mem a := by
  induction spans generalizing mem with
  | nil => simp
  | cons span spans ih =>
    rw [List.foldl_cons, ih]
    by_cases hlater : ∃ other ∈ spans, other.2 = a
    · obtain ⟨other, hother, hend⟩ := hlater
      rw [if_pos ⟨other, hother, hend⟩, if_pos ⟨other, List.mem_cons_of_mem span hother, hend⟩]
    rw [if_neg hlater]
    by_cases hspan : span.2 = a
    · rw [hspan, Function.update_self, if_pos ⟨span, List.mem_cons_self, hspan⟩]
    rw [Function.update_of_ne (Ne.symm hspan), if_neg]
    rintro ⟨other, hother, hend⟩
    rcases List.mem_cons.mp hother with rfl | hother
    · exact hspan hend
    · exact hlater ⟨other, hother, hend⟩

/-- `nulterminate` writes a zero behind each word and nothing else. -/
theorem nulterminate_eq (cmd : Cmd Span) (mem : Bytes) : nulterminate cmd mem =
      cmd.words.foldl (fun mem word => Function.update mem word.2 0) mem := by
  induction cmd generalizing mem with
  | exec argv => rfl
  | redir cmd file mode fd ih =>
    rw [nulterminate, ih, Cmd.words, List.foldl_append]
    rfl
  | pipe left right ihl ihr =>
    rw [nulterminate, ihl, ihr, Cmd.words, List.foldl_append]
  | list left right ihl ihr =>
    rw [nulterminate, ihl, ihr, Cmd.words, List.foldl_append]
  | back cmd ih => exact ih mem

section Terminated

variable {mem : Bytes} {cmd : Cmd Span} {span : Span}

theorem length_wordOf (mem : Bytes) (span : Span) : (wordOf mem span).length = span.2 - span.1 :=
  length_bytesAt _ _ _

theorem getElem_wordOf (mem : Bytes) (span : Span) {i : Nat} (hi : i < (wordOf mem span).length) :
    (wordOf mem span)[i] = mem (span.1 + i) :=
  getElem_bytesAt mem span.1 hi

theorem WordAt.ne_zero (hword : WordAt mem span) : ∀ b ∈ wordOf mem span, b ≠ 0 := by
  intro b hb
  obtain ⟨i, hi, rfl⟩ := List.mem_iff_getElem.mp hb
  have hlt := hi
  rw [length_wordOf] at hlt
  rw [getElem_wordOf]
  exact (hword.inside (span.1 + i) (Nat.le_add_right _ _) (by omega)).2

/-- No zero falls into a word: a word's bytes are word bytes, and what stands
behind a word is not. -/
theorem storedAt_nulterminate (hwhole : ∀ span ∈ cmd.words, WordAt mem span)
    (hspan : span ∈ cmd.words) : StoredAt (nulterminate cmd mem) span.1 (wordOf mem span) := by
  have hword := hwhole span hspan
  have hle := hword.le
  rw [nulterminate_eq, storedAt_iff]
  constructor
  · intro i hi
    have hlt := hi
    rw [length_wordOf] at hlt
    rw [getElem_wordOf, foldl_update_apply, if_neg]
    rintro ⟨other, hother, hend⟩
    obtain ⟨hin, hne⟩ := hword.inside (span.1 + i) (Nat.le_add_right _ _) (by omega)
    rcases (hwhole other hother).after with hout | hzero
    · rw [hend, hin] at hout
      cases hout
    · exact hne (hend ▸ hzero)
  · rw [length_wordOf, foldl_update_apply, if_pos ⟨span, hspan, by omega⟩]

end Terminated

/-! ### The whole line -/

section Line

variable {mem : Bytes} {s es size : Nat} {line : List UInt8} {rest : List Token}

/-- The line is used up if and only if no token is left. -/
theorem TokensAt.skipSpace_eq_iff (htokens : TokensAt mem es s rest) :
    Shell.skipSpace mem es s = es ↔ rest = [] := by
  obtain ⟨bytes, hline, rfl, hhead⟩ := htokens.skipSpace
  have hfinish := hline.finish
  cases bytes with
  | nil =>
    rw [List.length_nil, Nat.add_zero] at hfinish
    rw [lex]
    exact iff_of_true hfinish rfl
  | cons b bytes =>
    obtain ⟨token, more, hheads⟩ := exists_heads bytes (hhead b bytes rfl)
    rw [List.length_cons] at hfinish
    rw [hheads.lex]
    exact iff_of_false (by omega) (List.cons_ne_nil _ _)

/-- A zero-terminated line at `s` in a buffer that holds it. -/
structure Input (mem : Bytes) (size s : Nat) (line : List UInt8) : Prop where
  stored : StoredAt mem s line
  free : ∀ b ∈ line, b ≠ 0
  room : line.length < size

theorem Input.tokensAt (hinput : Input mem size s line) :
    TokensAt mem (s + line.length) s (lex line) :=
  ⟨line, ⟨hinput.stored, rfl, hinput.free⟩, rfl⟩

theorem Input.parsecmd_eq (hinput : Input mem size s line) : parsecmd size s mem =
      match parseline mem (s + line.length) (4 * line.length + 4) s with
      | .error reason => .error reason
      | .ok (cmd, s') =>
        if skipSpace mem (s + line.length) s' ≠ s + line.length then
          .error (.panic "syntax")
        else .ok (cmd, nulterminate cmd mem) := by
  unfold parsecmd
  dsimp only
  rw [strlen_eq hinput.stored hinput.free hinput.room, Nat.add_sub_cancel_left]

theorem fuel_enough (line : List UInt8) : 4 * (lex line).length + 4 ≤ 4 * line.length + 4 := by
  have hle := lex_length_le line
  omega

/-- `parsecmd` panics or returns a tree of whole words that is derived. -/
theorem Input.ends_parsecmd (hinput : Input mem size s line) : ends (parsecmd size s) mem
      (fun cmd mem' => Derives .line (lex line) (cmd.map (wordOf mem)) ∧
        (∀ span ∈ cmd.words, WordAt mem span) ∧ mem' = nulterminate cmd mem) Panics := by
  have hline := (parser_sound mem (s + line.length) (4 * line.length + 4)).line
    s (lex line) hinput.tokensAt (fuel_enough line)
  unfold ends at hline ⊢
  rw [hinput.parsecmd_eq]
  cases hrun : parseline mem (s + line.length) (4 * line.length + 4) s with
  | error reason =>
    rw [hrun] at hline
    exact hline
  | ok result =>
    obtain ⟨cmd, s'⟩ := result
    rw [hrun] at hline
    obtain ⟨rest, hparsed⟩ := hline
    obtain ⟨used, hsplit, hderived⟩ := hparsed.used
    by_cases hend : skipSpace mem (s + line.length) s' = s + line.length
    · obtain rfl := hparsed.tokens.skipSpace_eq_iff.mp hend
      rw [List.append_nil] at hsplit
      dsimp only
      rw [if_neg (not_not.mpr hend), hsplit]
      exact ⟨hderived, hparsed.whole, rfl⟩
    · dsimp only
      rw [if_pos hend]
      exact ⟨_, rfl⟩

/-- A line that is derived is parsed, with the tree of the derivation. -/
theorem Input.parsecmd_of_derives (hinput : Input mem size s line)
    {tree : Cmd Word} (hderives : Derives .line (lex line) tree) :
    ∃ cmd mem', parsecmd size s mem = .ok (cmd, mem') ∧ cmd.map (wordOf mem) = tree := by
  have htokens := hinput.tokensAt
  rw [← List.append_nil (lex line)] at htokens
  have hfuel : fuelFor .line (lex line ++ []).length ≤ 4 * line.length + 4 := by
    rw [List.append_nil]
    exact fuel_enough line
  obtain ⟨cmd, s', hrun, hmap, hend⟩ :=
    wp_of_ends (hderives.complete htokens rfl hfuel)
  refine ⟨cmd, nulterminate cmd mem, ?_, hmap⟩
  rw [codeOf] at hrun
  rw [hinput.parsecmd_eq, hrun]
  exact if_neg (not_not.mpr (hend.skipSpace_eq_iff.mpr rfl))

end Line

/-- `parsecmd` panics or returns.  It returns a tree if and only if the line is
derived, and then the tree of the derivation; each argument and file name of
it, read as a string afterwards, is its word of the line; and wherever the
printed tree is stored, parsing it gives the tree again. -/
theorem parsecmd_grammar {mem : Bytes} {s size : Nat} {line : List UInt8}
    (hstored : StoredAt mem s line) (hfree : ∀ b ∈ line, b ≠ 0) (hsize : line.length < size) :
    ((∃ message, parsecmd size s mem = .error (.panic message)) ∨
      ∃ cmd mem', parsecmd size s mem = .ok (cmd, mem')) ∧ (∀ tree, Derives .line (lex line) tree ↔
      ∃ cmd mem', parsecmd size s mem = .ok (cmd, mem') ∧ cmd.map (wordOf mem) = tree) ∧
    ∀ cmd mem', parsecmd size s mem = .ok (cmd, mem') →
      (∀ span ∈ cmd.words, ∀ fuel, (wordOf mem span).length < fuel →
        stringAt mem' fuel span.1 = wordOf mem span) ∧ ∀ other p room,
        StoredAt other p (render (print .line (cmd.map (wordOf mem)))) →
        (render (print .line (cmd.map (wordOf mem)))).length < room →
        ∃ again after, parsecmd room p other = .ok (again, after) ∧
          again.map (wordOf other) = cmd.map (wordOf mem) := by
  have hinput : Input mem size s line := ⟨hstored, hfree, hsize⟩
  have hends := hinput.ends_parsecmd
  unfold ends at hends
  refine ⟨?_, fun tree => ⟨hinput.parsecmd_of_derives, ?_⟩, ?_⟩
  · cases hrun : parsecmd size s mem with
    | error reason =>
      rw [hrun] at hends
      obtain ⟨message, rfl⟩ := hends
      exact Or.inl ⟨message, rfl⟩
    | ok result => exact Or.inr ⟨result.1, result.2, rfl⟩
  · rintro ⟨cmd, mem', hrun, rfl⟩
    rw [hrun] at hends
    exact hends.1
  · intro cmd mem' hrun
    rw [hrun] at hends
    obtain ⟨hderived, hwhole, rfl⟩ := hends
    refine ⟨fun span hspan fuel hfuel => ?_, fun other p room hprinted hroom => ?_⟩
    · exact (storedAt_nulterminate hwhole hspan).stringAt (hwhole span hspan).ne_zero hfuel
    have hok := hderived.ok (lex_ok hfree)
    have hagain : Input other room p (render (print .line (cmd.map (wordOf mem)))) :=
      ⟨hprinted, render_ne_zero (print_ok hok .line), hroom⟩
    apply hagain.parsecmd_of_derives
    rw [lex_render (print_ok hok .line)]
    exact print_derives hok .line

/-- `a>b`: the tree that is returned is the one the grammar assigns. -/
theorem parsecmd_grammar_output : Derives .line (lex [97, 62, 98])
      (.redir (.exec [[97]]) [98] (O_WRONLY ||| O_CREATE ||| O_TRUNC) 1) := by
  have hline := @parsecmd_grammar (fun a => [97, 62, 98].getD a 0) 0 4
    [97, 62, 98] ⟨rfl, rfl, rfl, rfl⟩
    (ne_zero_of_all (by decide)) (by decide)
  exact (hline.2.1 _).mpr ⟨_, _, rfl, rfl⟩

end CkptKernel.Shell
