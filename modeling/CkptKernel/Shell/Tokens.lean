/-
The scanner of user/sh.c: `gettoken` and `peek` on a line in memory, and the
list of tokens that a line consists of.
-/
import CkptKernel.Lib.CString
import CkptKernel.Lib.Code
import Mathlib.Data.List.TakeWhile

namespace CkptKernel.Shell

open ByteMem CString

/-- `whitespace`: blank, tab, carriage return, newline, vertical tab. -/
def whitespace : List UInt8 := [32, 9, 13, 10, 11]

def less : UInt8 := 60
def bar : UInt8 := 124
def greater : UInt8 := 62
def ampersand : UInt8 := 38
def semicolon : UInt8 := 59
def leftParen : UInt8 := 40
def rightParen : UInt8 := 41

def symbols : List UInt8 :=
  [less, bar, greater, ampersand, semicolon, leftParen, rightParen]

/-- What `gettoken` returns for `>>` and for a word. -/
def plus : UInt8 := 43
def letterA : UInt8 := 97

def isSpace (b : UInt8) : Bool := whitespace.contains b

/-- The bytes a word goes on with. -/
def inWord (b : UInt8) : Bool := !whitespace.contains b && !symbols.contains b

/-- The addresses `q` of a word and `eq` of the byte behind it. -/
abbrev Span := Nat × Nat

section Scanner

variable (mem : Bytes) (es : Nat)

/-- A loop `while(s < es && p(*s)) s++`; `left` is at least `es - s`. -/
def skip (p : UInt8 → Bool) : Nat → Nat → Nat
  | 0, s => s
  | left + 1, s => if s < es ∧ p (mem s) then skip p left (s + 1) else s

def skipSpace (s : Nat) : Nat := skip mem es isSpace (es - s) s

/-- The switch of `gettoken`: what is returned, and the place behind it. -/
def tokenAt (s : Nat) : UInt8 × Nat :=
  if mem s = 0 then (0, s)
  else if mem s = bar ∨ mem s = leftParen ∨ mem s = rightParen ∨
      mem s = semicolon ∨ mem s = ampersand ∨ mem s = less then (mem s, s + 1)
  else if mem s = greater then
    if mem (s + 1) = greater then (plus, s + 2) else (greater, s + 1)
  else (letterA, skip mem es inWord (es - s) s)

def gettoken : Code Nat (UInt8 × Span) := fun s =>
  let q := skipSpace mem es s
  let (ret, eq) := tokenAt mem es q
  .ok ((ret, (q, eq)), skipSpace mem es eq)

def peek (toks : List UInt8) : Code Nat Bool := fun s =>
  let s := skipSpace mem es s
  .ok (mem s ≠ 0 && toks.contains (mem s), s)

end Scanner

inductive Op where
  | input
  | output
  | append
deriving DecidableEq, Repr

/-- The tokens of a line; a word is its text. -/
inductive Token where
  | bar
  | lparen
  | rparen
  | semi
  | amp
  | redir (op : Op)
  | word (text : List UInt8)
deriving DecidableEq, Repr

/-- The symbols that are one byte and nothing else. -/
def symbol? (b : UInt8) : Option Token :=
  if b = bar then some .bar
  else if b = leftParen then some .lparen
  else if b = rightParen then some .rparen
  else if b = semicolon then some .semi
  else if b = ampersand then some .amp
  else if b = less then some (.redir .input)
  else none

def lex : List UInt8 → List Token
  | [] => []
  | b :: rest =>
    if isSpace b then lex rest
    else if b = greater then
      match rest with
      | [] => [.redir .output]
      | c :: more =>
        if c = greater then .redir .append :: lex more
        else .redir .output :: lex (c :: more)
    else
      match symbol? b with
      | some token => token :: lex rest
      | none => .word (b :: rest.takeWhile inWord) ::
          lex (rest.dropWhile inWord)
termination_by bytes => bytes.length
decreasing_by
  all_goals simp only [List.length_cons]
  all_goals first
    | omega
    | exact Nat.lt_succ_of_le (List.dropWhile_suffix _).length_le

def Token.ret : Token → UInt8
  | .bar => Shell.bar
  | .lparen => leftParen
  | .rparen => rightParen
  | .semi => semicolon
  | .amp => ampersand
  | .redir .input => less
  | .redir .output => greater
  | .redir .append => plus
  | .word _ => letterA

/-- The token begins with one of these symbols. -/
def Token.within (toks : List UInt8) : Token → Bool
  | .redir .append => toks.contains greater
  | .word _ => false
  | token => toks.contains token.ret

structure LineAt (mem : Bytes) (es s : Nat) (bytes : List UInt8) : Prop where
  stored : StoredAt mem s bytes
  finish : s + bytes.length = es
  free : ∀ b ∈ bytes, b ≠ 0

def TokensAt (mem : Bytes) (es s : Nat) (tokens : List Token) : Prop :=
  ∃ bytes, LineAt mem es s bytes ∧ lex bytes = tokens

/-- The span of a whole word: what follows it is not part of a word. -/
structure WordAt (mem : Bytes) (span : Span) : Prop where
  le : span.1 ≤ span.2
  inside : ∀ a, span.1 ≤ a → a < span.2 → inWord (mem a) ∧ mem a ≠ 0
  after : inWord (mem span.2) = false ∨ mem span.2 = 0

def wordOf (mem : Bytes) (span : Span) : List UInt8 :=
  bytesAt mem (span.2 - span.1) span.1

section Scanning

variable {mem : Bytes} {es s : Nat} {bytes : List UInt8}

theorem LineAt.drop {front rest : List UInt8} (hline : LineAt mem es s (front ++ rest)) :
    LineAt mem es (s + front.length) rest := by
  refine ⟨hline.stored.drop, ?_, fun b hb =>
    hline.free b (List.mem_append_right _ hb)⟩
  have hfinish := hline.finish
  rw [List.length_append] at hfinish
  omega

variable {b : UInt8}

theorem LineAt.tail {rest : List UInt8}
    (hline : LineAt mem es s (b :: rest)) : LineAt mem es (s + 1) rest :=
  @LineAt.drop mem es s [b] rest hline

/-- The loop skips the bytes that satisfy `p`. -/
theorem skip_eq (p : UInt8 → Bool) {left : Nat} (hline : LineAt mem es s bytes)
    (hleft : bytes.length ≤ left) : skip mem es p left s = s + (bytes.takeWhile p).length := by
  have hfinish := hline.finish
  induction bytes generalizing s left with
  | nil =>
    rw [List.length_nil, Nat.add_zero] at hfinish
    cases left with
    | zero => rfl
    | succ left =>
      rw [skip, if_neg fun hgo => absurd hgo.1 (by omega)]
      rfl
  | cons b rest ih =>
    rw [List.length_cons] at hleft hfinish
    obtain ⟨left, rfl⟩ : ∃ k, left = k + 1 := ⟨left - 1, by omega⟩
    have hb : mem s = b := hline.stored.1
    rw [skip, List.takeWhile_cons, hb]
    by_cases hp : p b
    · rw [if_pos ⟨by omega, hp⟩, if_pos hp, ih hline.tail (by omega) (by omega), List.length_cons]
      omega
    · rw [if_neg fun hgo => hp hgo.2, if_neg hp]
      rfl

theorem LineAt.skip (p : UInt8 → Bool) (hline : LineAt mem es s bytes) :
    Shell.skip mem es p (es - s) s = s + (bytes.takeWhile p).length ∧
      LineAt mem es (Shell.skip mem es p (es - s) s) (bytes.dropWhile p) := by
  have hfinish := hline.finish
  have hleft : bytes.length ≤ es - s := by omega
  have hskip := skip_eq p hline hleft
  refine ⟨hskip, ?_⟩
  rw [hskip]
  refine LineAt.drop ?_
  rw [List.takeWhile_append_dropWhile]
  exact hline

theorem lex_dropSpace (bytes : List UInt8) : lex (bytes.dropWhile isSpace) = lex bytes := by
  induction bytes with
  | nil => rfl
  | cons b rest ih =>
    rw [List.dropWhile_cons]
    by_cases hspace : isSpace b
    · rw [if_pos hspace, ih]
      conv_rhs => rw [lex.eq_def]
      dsimp only
      rw [if_pos hspace]
    · rw [if_neg hspace]

/-- Blanks make no tokens. -/
theorem TokensAt.skipSpace {tokens : List Token} (htokens : TokensAt mem es s tokens) :
    ∃ bytes, LineAt mem es (skipSpace mem es s) bytes ∧ lex bytes = tokens ∧
      ∀ b rest, bytes = b :: rest → isSpace b = false := by
  obtain ⟨bytes, hline, rfl⟩ := htokens
  refine ⟨bytes.dropWhile isSpace, (hline.skip isSpace).2,
    lex_dropSpace bytes, fun b rest hcons => ?_⟩
  have hsome : bytes.dropWhile isSpace ≠ [] := by
    rw [hcons]
    exact List.cons_ne_nil b rest
  have hhead := List.head_dropWhile_not isSpace hsome
  simpa only [hcons, List.head_cons] using hhead

/-- How the first token of a line is read off its first byte. -/
inductive Heads : List UInt8 → Token → List UInt8 → Prop
  | symbol {b : UInt8} {token : Token} (rest : List UInt8)
      (hsymbol : symbol? b = some token) : Heads (b :: rest) token rest
  | output {rest : List UInt8} (hsingle : ∀ more, rest ≠ greater :: more) :
      Heads (greater :: rest) (.redir .output) rest
  | append (rest : List UInt8) :
      Heads (greater :: greater :: rest) (.redir .append) rest
  | word {b : UInt8} (rest : List UInt8) (hb : inWord b) :
      Heads (b :: rest) (.word (b :: rest.takeWhile inWord))
        (rest.dropWhile inWord)

variable {token : Token}

/-- A symbol stands for itself. -/
theorem ret_of_symbol (hsymbol : symbol? b = some token) :
    token.ret = b ∧ (∀ text, token ≠ .word text) ∧ token ≠ .redir .append ∧
      (b = bar ∨ b = leftParen ∨ b = rightParen ∨ b = semicolon ∨ b = ampersand ∨ b = less) := by
  unfold symbol? at hsymbol
  split_ifs at hsymbol with h₁ h₂ h₃ h₄ h₅ h₆
  all_goals
    cases hsymbol
    subst_vars
    exact ⟨rfl, nofun, nofun, by decide⟩

theorem not_symbol_of_inWord (hb : inWord b) : symbols.contains b = false := by
  unfold inWord at hb
  rw [Bool.and_eq_true] at hb
  exact Bool.not_eq_true' _ ▸ hb.2

theorem not_space_of_inWord (hb : inWord b) : isSpace b = false := by
  unfold inWord at hb
  rw [Bool.and_eq_true] at hb
  exact Bool.not_eq_true' _ ▸ hb.1

theorem exists_heads (rest : List UInt8) (hspace : isSpace b = false) :
    ∃ token more, Heads (b :: rest) token more := by
  by_cases hgreater : b = greater
  · subst hgreater
    by_cases htwice : ∃ more, rest = greater :: more
    · obtain ⟨more, rfl⟩ := htwice
      exact ⟨_, _, .append more⟩
    · exact ⟨_, _, .output fun more heq => htwice ⟨more, heq⟩⟩
  · cases hsymbol : symbol? b with
    | some token => exact ⟨_, _, .symbol rest hsymbol⟩
    | none =>
      refine ⟨_, _, .word rest ?_⟩
      unfold symbol? at hsymbol
      unfold isSpace at hspace
      split_ifs at hsymbol
      simp_all [inWord, symbols]

theorem symbol?_of_inWord (hb : inWord b) : symbol? b = none := by
  cases hsymbol : symbol? b with
  | none => rfl
  | some token =>
    obtain ⟨-, -, -, hsix⟩ := ret_of_symbol hsymbol
    rcases hsix with rfl | rfl | rfl | rfl | rfl | rfl <;>
      exact absurd hb (by decide)

theorem Heads.lex {more : List UInt8} (hheads : Heads bytes token more) :
    Shell.lex bytes = token :: Shell.lex more := by
  rw [Shell.lex.eq_def]
  cases hheads with
  | @symbol b _ rest hsymbol =>
    obtain ⟨-, -, -, hsix⟩ := ret_of_symbol hsymbol
    have hspace : isSpace b = false := by
      rcases hsix with rfl | rfl | rfl | rfl | rfl | rfl <;> rfl
    have hgreater : b ≠ greater := by
      rcases hsix with rfl | rfl | rfl | rfl | rfl | rfl <;> decide
    dsimp only
    rw [hspace, if_neg Bool.false_ne_true, if_neg hgreater, hsymbol]
  | @output _ hsingle =>
    dsimp only
    rw [if_neg (by decide), if_pos rfl]
    cases more with
    | nil => rw [Shell.lex]
    | cons c later =>
      have hc : c ≠ greater := fun heq => hsingle later (by rw [heq])
      dsimp only
      rw [if_neg hc]
  | append =>
    dsimp only
    rw [if_neg (by decide), if_pos rfl, if_pos rfl]
  | @word b rest hb =>
    have hgreater : b ≠ greater := by
      rintro rfl
      exact absurd hb (by decide)
    dsimp only
    rw [not_space_of_inWord hb, if_neg Bool.false_ne_true, if_neg hgreater, symbol?_of_inWord hb]

/-- A stretch of word bytes that cannot be made longer is a word. -/
theorem LineAt.wordAt {text rest : List UInt8}
    (hline : LineAt mem es s (text ++ rest)) (htext : ∀ b ∈ text, inWord b)
    (hrest : ∀ c more, rest = c :: more → inWord c = false) : WordAt mem (s, s + text.length) ∧
      wordOf mem (s, s + text.length) = text := by
  constructor
  · refine ⟨Nat.le_add_right _ _, fun a hlow hhigh => ?_, ?_⟩
    · obtain ⟨i, rfl⟩ := Nat.exists_eq_add_of_le hlow
      have hi : i < text.length := Nat.lt_of_add_lt_add_left hhigh
      have hbyte : mem (s + i) = text[i] := by
        rw [(storedAt_iff.mp hline.stored).1 i
          (by rw [List.length_append]; omega), List.getElem_append_left hi]
      rw [hbyte]
      exact ⟨htext _ (List.getElem_mem hi),
        hline.free _ (List.mem_append_left _ (List.getElem_mem hi))⟩
    · have hdrop := hline.stored.drop
      cases rest with
      | nil => exact Or.inr hdrop
      | cons c more => exact Or.inl (hdrop.1 ▸ hrest c more rfl)
  · unfold wordOf
    rw [Nat.add_sub_cancel_left]
    exact hline.stored.bytesAt

/-- The switch reads the first token. -/
theorem tokenAt_of_heads {more : List UInt8}
    (hline : LineAt mem es s bytes) (hheads : Heads bytes token more) :
    ∃ eq, tokenAt mem es s = (token.ret, eq) ∧ LineAt mem es eq more ∧ ∀ text, token = .word text →
        WordAt mem (s, eq) ∧ wordOf mem (s, eq) = text := by
  unfold tokenAt
  cases hheads with
  | @symbol b token rest hsymbol =>
    have hb : mem s = b := hline.stored.1
    have hzero : b ≠ 0 := hline.free b List.mem_cons_self
    obtain ⟨hret, hword, -, hsix⟩ := ret_of_symbol hsymbol
    rw [hb, if_neg hzero, if_pos hsix, hret]
    exact ⟨s + 1, rfl, hline.tail, fun text heq => absurd heq (hword text)⟩
  | @output _ hsingle =>
    have hb : mem s = greater := hline.stored.1
    have hnext : mem (s + 1) ≠ greater := by
      have htail := hline.tail.stored
      cases more with
      | nil =>
        rw [StoredAt] at htail
        rw [htail]
        decide
      | cons c later =>
        rw [htail.1]
        intro heq
        exact hsingle later (by rw [heq])
    rw [hb, if_neg (by decide), if_neg (by decide), if_pos rfl, if_neg hnext]
    exact ⟨s + 1, rfl, hline.tail, by simp⟩
  | append =>
    have hb : mem s = greater := hline.stored.1
    have hnext : mem (s + 1) = greater := hline.tail.stored.1
    rw [hb, hnext, if_neg (by decide), if_neg (by decide), if_pos rfl]
    exact ⟨s + 2, rfl, hline.tail.tail, by simp⟩
  | @word b rest hb =>
    have hmem : mem s = b := hline.stored.1
    have hzero : b ≠ 0 := hline.free b List.mem_cons_self
    have hout := not_symbol_of_inWord hb
    obtain ⟨hskip, hafter⟩ := hline.skip inWord
    rw [List.takeWhile_cons, if_pos hb] at hskip
    rw [List.dropWhile_cons, if_pos hb] at hafter
    have hsix : ¬ (b = bar ∨ b = leftParen ∨ b = rightParen ∨
        b = semicolon ∨ b = ampersand ∨ b = less) := by
      rintro (rfl | rfl | rfl | rfl | rfl | rfl) <;>
        exact absurd hout (by decide)
    have hgreater : b ≠ greater := by
      rintro rfl
      exact absurd hout (by decide)
    rw [hmem, if_neg hzero, if_neg hsix, if_neg hgreater]
    refine ⟨_, rfl, hafter, fun text heq => ?_⟩
    cases heq
    rw [hskip]
    have hsplit : LineAt mem es s ((b :: rest.takeWhile inWord) ++ rest.dropWhile inWord) := by
      rw [List.cons_append, List.takeWhile_append_dropWhile]
      exact hline
    apply hsplit.wordAt
    · intro c hc
      rcases List.mem_cons.mp hc with rfl | hc
      · exact hb
      · exact List.mem_takeWhile_imp hc
    · intro c later hcons
      have hsome : rest.dropWhile inWord ≠ [] := by
        rw [hcons]
        exact List.cons_ne_nil c later
      have hhead := List.head_dropWhile_not inWord hsome
      simpa only [hcons, List.head_cons] using hhead

variable {tokens : List Token}

theorem gettoken_nil (htokens : TokensAt mem es s []) :
    ∃ span s', gettoken mem es s = .ok ((0, span), s') ∧ TokensAt mem es s' [] := by
  obtain ⟨bytes, hline, hlex, hhead⟩ := htokens.skipSpace
  cases bytes with
  | nil =>
    have hzero : mem (skipSpace mem es s) = 0 := hline.stored
    refine ⟨(skipSpace mem es s, skipSpace mem es s), _, ?_, [], (hline.skip isSpace).2, hlex⟩
    unfold gettoken tokenAt
    dsimp only
    rw [if_pos hzero]
    rfl
  | cons b rest =>
    obtain ⟨token, more, hheads⟩ := exists_heads rest (hhead b rest rfl)
    rw [hheads.lex] at hlex
    cases hlex

theorem gettoken_cons (htokens : TokensAt mem es s (token :: tokens)) :
    ∃ span s', gettoken mem es s = .ok ((token.ret, span), s') ∧
      TokensAt mem es s' tokens ∧ ∀ text, token = .word text →
        WordAt mem span ∧ wordOf mem span = text := by
  obtain ⟨bytes, hline, hlex, hhead⟩ := htokens.skipSpace
  cases bytes with
  | nil =>
    rw [lex] at hlex
    cases hlex
  | cons b rest =>
    obtain ⟨first, more, hheads⟩ := exists_heads rest (hhead b rest rfl)
    rw [hheads.lex] at hlex
    obtain ⟨rfl, rfl⟩ := List.cons.inj hlex
    obtain ⟨eq, htoken, hafter, hword⟩ := tokenAt_of_heads hline hheads
    obtain ⟨bytes, hskipped, hsame, -⟩ :=
      TokensAt.skipSpace ⟨more, hafter, rfl⟩
    refine ⟨(skipSpace mem es s, eq), skipSpace mem es eq, ?_, ⟨bytes, hskipped, hsame⟩, hword⟩
    unfold gettoken
    dsimp only
    rw [htoken]

/-- `peek` tells whether the next token begins with one of some symbols. -/
theorem peek_eq (htokens : TokensAt mem es s tokens) {toks : List UInt8}
    (htoks : toks.all symbols.contains) : ∃ s', peek mem es toks s =
        .ok (tokens.head?.any (Token.within toks), s') ∧ TokensAt mem es s' tokens := by
  obtain ⟨bytes, hline, hlex, hhead⟩ := htokens.skipSpace
  refine ⟨skipSpace mem es s, ?_, bytes, hline, hlex⟩
  unfold peek
  dsimp only
  subst hlex
  cases bytes with
  | nil =>
    have hzero : mem (skipSpace mem es s) = 0 := hline.stored
    rw [hzero, lex]
    rfl
  | cons b rest =>
    obtain ⟨first, more, hheads⟩ := exists_heads rest (hhead b rest rfl)
    have hb : mem (skipSpace mem es s) = b := hline.stored.1
    have hzero : b ≠ 0 := hline.free b List.mem_cons_self
    have hwithin : first.within toks = toks.contains b := by
      cases hheads with
      | symbol _ hsymbol =>
        obtain ⟨hret, hword, happend, -⟩ := ret_of_symbol hsymbol
        rw [← hret]
        cases first with
        | redir op => cases op <;> first | rfl | exact absurd rfl happend
        | word text => exact absurd rfl (hword text)
        | _ => rfl
      | output => rfl
      | append => rfl
      | word _ hb =>
        have hout := not_symbol_of_inWord hb
        refine (Bool.eq_false_iff.mpr fun hmem => ?_).symm
        have hin := List.all_eq_true.mp htoks b (List.contains_iff_mem.mp hmem)
        rw [hout] at hin
        cases hin
    rw [hb, hheads.lex, List.head?_cons, Option.any_some, hwithin]
    simp [hzero]

end Scanning

end CkptKernel.Shell
