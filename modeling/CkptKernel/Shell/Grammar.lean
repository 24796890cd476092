/-
Command trees of user/sh.c, the grammar that assigns them to lists of tokens,
and printing a tree so that it can be read again.
-/
import CkptKernel.Shell.Tokens
import CkptKernel.Param

namespace CkptKernel.Shell

open List (append_assoc append_nil forall_mem_append forall_mem_cons mem_append mem_cons
  mem_cons_of_mem mem_cons_self)

/-- `execcmd.argv` has room for a null pointer behind the arguments. -/
def MAXARGS : Nat := 10

/-- `struct cmd` and its five extensions, with words of type `W`. -/
inductive Cmd (W : Type) where
  | exec (argv : List W)
  | redir (cmd : Cmd W) (file : W) (mode : UInt32) (fd : Nat)
  | pipe (left right : Cmd W)
  | list (left right : Cmd W)
  | back (cmd : Cmd W)
deriving DecidableEq, Repr

abbrev Word := List UInt8

namespace Cmd

variable {V W : Type}

def map (f : V → W) : Cmd V → Cmd W
  | .exec argv => .exec (argv.map f)
  | .redir cmd file mode fd => .redir (cmd.map f) (f file) mode fd
  | .pipe left right => .pipe (left.map f) (right.map f)
  | .list left right => .list (left.map f) (right.map f)
  | .back cmd => .back (cmd.map f)

def words : Cmd W → List W
  | .exec argv => argv
  | .redir cmd file _ _ => cmd.words ++ [file]
  | .pipe left right | .list left right => left.words ++ right.words
  | .back cmd => cmd.words

end Cmd

/-- How a redirection opens its file, and in the place of which descriptor. -/
def Op.mode : Op → UInt32
  | .input => O_RDONLY
  | .output => O_WRONLY ||| O_CREATE ||| O_TRUNC
  | .append => O_WRONLY ||| O_CREATE

def Op.fd : Op → Nat
  | .input => 0
  | .output | .append => 1

/-- Redirections wrap a command one after the other. -/
def redirect {W : Type} (cmd : Cmd W) (redirs : List (Op × W)) : Cmd W :=
  redirs.foldl (fun cmd r => .redir cmd r.2 r.1.mode r.1.fd) cmd

/-- redirs ::= (('<' | '>' | '>>') word)* -/
inductive Redirs : List Token → List (Op × Word) → Prop
  | nil : Redirs [] []
  | cons (op : Op) (file : Word) {tokens redirs}
      (hrest : Redirs tokens redirs) :
      Redirs (.redir op :: .word file :: tokens) ((op, file) :: redirs)

/-- (word redirs)*, with the words and the redirections apart. -/
inductive Args : List Token → List Word → List (Op × Word) → Prop
  | nil : Args [] [] []
  | cons (word : Word) {tokens redirs later argv more}
      (hredirs : Redirs tokens redirs) (hlater : Args later argv more) :
      Args (.word word :: (tokens ++ later)) (word :: argv) (redirs ++ more)

/-- The levels of the grammar, from the inside to the outside. -/
inductive Level where
  | exec
  | pipe
  | back
  | line
deriving DecidableEq, Repr

/-- The grammar, with the tree of each derivation. -/
inductive Derives : Level → List Token → Cmd Word → Prop
  /-- exec ::= redirs (word redirs)* -/
  | words {tokens redirs later argv more} (hredirs : Redirs tokens redirs)
      (hargs : Args later argv more) (hcount : argv.length < MAXARGS) :
      Derives .exec (tokens ++ later) (redirect (.exec argv) (redirs ++ more))
  /-- exec ::= '(' line ')' redirs -/
  | block {tokens cmd later redirs} (hline : Derives .line tokens cmd)
      (hredirs : Redirs later redirs) : Derives .exec (.lparen :: (tokens ++ .rparen :: later))
        (redirect cmd redirs)
  /-- pipe ::= exec ['|' pipe] -/
  | single {tokens cmd} (hexec : Derives .exec tokens cmd) :
      Derives .pipe tokens cmd
  | pipe {tokens cmd later right} (hexec : Derives .exec tokens cmd)
      (hpipe : Derives .pipe later right) :
      Derives .pipe (tokens ++ .bar :: later) (.pipe cmd right)
  /-- back ::= pipe '&'* -/
  | back {tokens cmd} (n : Nat) (hpipe : Derives .pipe tokens cmd) :
      Derives .back (tokens ++ List.replicate n .amp) (Nat.iterate .back n cmd)
  /-- line ::= back [';' line] -/
  | last {tokens cmd} (hback : Derives .back tokens cmd) :
      Derives .line tokens cmd
  | list {tokens cmd later right} (hback : Derives .back tokens cmd)
      (hline : Derives .line later right) :
      Derives .line (tokens ++ .semi :: later) (.list cmd right)

/-! ### Words -/

/-- A word as the scanner delivers it. -/
def WordOk (word : Word) : Prop :=
  word ≠ [] ∧ ∀ b ∈ word, inWord b ∧ b ≠ 0

def Token.Ok : Token → Prop
  | .word text => WordOk text
  | _ => True

theorem Heads.ok {bytes more : List UInt8} {token : Token} (hheads : Heads bytes token more)
    (hfree : ∀ b ∈ bytes, b ≠ 0) : token.Ok ∧ ∀ b ∈ more, b ≠ 0 := by
  cases hheads with
  | @symbol b _ _ hsymbol =>
    refine ⟨?_, fun c hc => hfree c (mem_cons_of_mem _ hc)⟩
    obtain ⟨-, hword, -⟩ := ret_of_symbol hsymbol
    cases token with
    | word text => exact absurd rfl (hword text)
    | _ => trivial
  | output =>
    exact ⟨trivial, fun c hc => hfree c (mem_cons_of_mem _ hc)⟩
  | append =>
    exact ⟨trivial, fun c hc =>
      hfree c (mem_cons_of_mem _ (mem_cons_of_mem _ hc))⟩
  | @word b rest hb =>
    refine ⟨⟨List.cons_ne_nil _ _, fun c hc => ?_⟩, fun c hc => ?_⟩
    · rcases mem_cons.mp hc with rfl | hc
      · exact ⟨hb, hfree c mem_cons_self⟩
      · exact ⟨List.mem_takeWhile_imp hc, hfree c (mem_cons_of_mem _
          ((List.takeWhile_prefix inWord).subset hc))⟩
    · exact hfree c (mem_cons_of_mem _ ((List.dropWhile_suffix inWord).subset hc))

theorem Heads.length_lt {bytes more : List UInt8} {token : Token}
    (hheads : Heads bytes token more) : more.length < bytes.length := by
  cases hheads with
  | symbol => exact Nat.lt_succ_self _
  | output => exact Nat.lt_succ_self _
  | append => exact Nat.lt_succ_of_lt (Nat.lt_succ_self _)
  | word => exact Nat.lt_succ_of_le (List.dropWhile_suffix _).length_le

/-- What is true of the line with its first token removed goes for the line. -/
theorem lex_induction {P : List UInt8 → Prop} (hnil : P [])
    (hspace : ∀ b rest, isSpace b → P rest → P (b :: rest))
    (hheads : ∀ bytes token more, Heads bytes token more → P more → P bytes)
    (bytes : List UInt8) : P bytes := by
  induction hlength : bytes.length using Nat.strong_induction_on generalizing bytes with
  | _ n ih =>
    subst hlength
    cases bytes with
    | nil => exact hnil
    | cons b rest =>
      cases hb : isSpace b with
      | true => exact hspace b rest hb (ih _ (Nat.lt_succ_self _) rest rfl)
      | false =>
        obtain ⟨token, more, hfirst⟩ := exists_heads rest hb
        exact hheads _ token more hfirst (ih _ hfirst.length_lt more rfl)

theorem lex_space {b : UInt8} (rest : List UInt8) (hspace : isSpace b) :
    lex (b :: rest) = lex rest := by
  rw [← lex_dropSpace (b :: rest), List.dropWhile_cons, if_pos hspace, lex_dropSpace]

theorem lex_ok {bytes : List UInt8} (hfree : ∀ b ∈ bytes, b ≠ 0) :
    ∀ token ∈ lex bytes, token.Ok := by
  induction bytes using lex_induction with
  | hnil => simp [lex]
  | hspace b rest hspace ih =>
    rw [lex_space rest hspace]
    exact ih fun c hc => hfree c (mem_cons_of_mem _ hc)
  | hheads bytes first more hheads ih =>
    obtain ⟨hfirst, hmore⟩ := hheads.ok hfree
    rw [hheads.lex]
    intro token htoken
    rcases mem_cons.mp htoken with rfl | htoken
    · exact hfirst
    · exact ih hmore token htoken

theorem lex_length_le (bytes : List UInt8) : (lex bytes).length ≤ bytes.length := by
  induction bytes using lex_induction with
  | hnil => simp [lex]
  | hspace b rest hspace ih =>
    rw [lex_space rest hspace]
    exact Nat.le_succ_of_le ih
  | hheads bytes first more hheads ih =>
    rw [hheads.lex]
    exact Nat.lt_of_le_of_lt ih hheads.length_lt

/-! ### Printing -/

def Token.text : Token → List UInt8
  | .bar => [Shell.bar]
  | .lparen => [leftParen]
  | .rparen => [rightParen]
  | .semi => [semicolon]
  | .amp => [ampersand]
  | .redir .input => [less]
  | .redir .output => [greater]
  | .redir .append => [greater, greater]
  | .word text => text

def blank : UInt8 := 32

/-- Tokens with a blank behind each. -/
def render (tokens : List Token) : List UInt8 :=
  tokens.flatMap fun token => token.text ++ [blank]

theorem lex_text {token : Token} (hok : token.Ok) (rest : List UInt8) :
    lex (token.text ++ blank :: rest) = token :: lex rest := by
  have hheads : Heads (token.text ++ blank :: rest) token (blank :: rest) := by
    cases token with
    | redir op =>
      cases op with
      | input => exact .symbol _ rfl
      | output => exact .output nofun
      | append => exact .append _
    | word text =>
      obtain ⟨hne, hall⟩ := hok
      obtain ⟨b, text, rfl⟩ := List.exists_cons_of_ne_nil hne
      have hword := Heads.word (text ++ blank :: rest) (hall b mem_cons_self).1
      have htext : ∀ c ∈ text, inWord c := fun c hc =>
        (hall c (mem_cons_of_mem b hc)).1
      have hblank : inWord blank = false := by decide
      rw [List.takeWhile_append_of_pos htext,
        List.dropWhile_append_of_pos htext, List.takeWhile_cons,
        List.dropWhile_cons, hblank] at hword
      simpa [Token.text] using hword
    | _ => exact .symbol _ rfl
  rw [hheads.lex, lex_space rest (by decide)]

theorem lex_render {tokens : List Token} (hok : ∀ token ∈ tokens, token.Ok) :
    lex (render tokens) = tokens := by
  induction tokens with
  | nil => simp [render, lex]
  | cons token tokens ih =>
    have hrest := ih fun other hother => hok other (mem_cons_of_mem _ hother)
    rw [render, List.flatMap_cons, append_assoc]
    exact (lex_text (hok token mem_cons_self) _).trans (congrArg (token :: ·) hrest)

theorem text_ne_zero {token : Token} (hok : token.Ok) : ∀ b ∈ token.text, b ≠ 0 := by
  cases token with
  | word text => exact fun b hb => (hok.2 b hb).2
  | redir op => cases op <;> exact CString.ne_zero_of_all (by decide)
  | _ => exact CString.ne_zero_of_all (by decide)

theorem render_ne_zero {tokens : List Token}
    (hok : ∀ token ∈ tokens, token.Ok) : ∀ b ∈ render tokens, b ≠ 0 := by
  intro b hb
  obtain ⟨token, htoken, hb⟩ := List.mem_flatMap.mp hb
  rcases mem_append.mp hb with hb | hb
  · exact text_ne_zero (hok token htoken) b hb
  · obtain rfl := List.mem_singleton.mp hb
    decide

/-- The redirection that opens its file in this mode. -/
def redirOp (mode : UInt32) : Op :=
  if mode = O_RDONLY then .input
  else if mode = O_WRONLY ||| O_CREATE ||| O_TRUNC then .output
  else .append

theorem redirOp_mode (op : Op) : redirOp op.mode = op := by
  cases op <;> decide

def parens (needed : Bool) (tokens : List Token) : List Token :=
  if needed then .lparen :: (tokens ++ [.rparen]) else tokens

/-- The tokens of a tree where a command of some level is expected. -/
def print : Level → Cmd Word → List Token
  | _, .exec argv => argv.map .word
  | _, .redir cmd file mode _ =>
    print .exec cmd ++ [.redir (redirOp mode), .word file]
  | level, .pipe left right =>
    parens (level = .exec) (print .exec left ++ .bar :: print .pipe right)
  | level, .back cmd =>
    parens (level = .exec || level = .pipe) (print .back cmd ++ [.amp])
  | level, .list left right =>
    parens (level ≠ .line) (print .back left ++ .semi :: print .line right)

/-- A tree the parser can build. -/
def Cmd.Ok : Cmd Word → Prop
  | .exec argv => argv.length < MAXARGS ∧ ∀ w ∈ argv, WordOk w
  | .redir cmd file mode fd =>
    cmd.Ok ∧ WordOk file ∧ ∃ op : Op, mode = op.mode ∧ fd = op.fd
  | .pipe left right | .list left right => left.Ok ∧ right.Ok
  | .back cmd => cmd.Ok

section Trees

variable {tokens later : List Token} {cmd : Cmd Word}
  {redirs : List (Op × Word)}

theorem redirect_append {W : Type} (cmd : Cmd W) (first more : List (Op × W)) :
    redirect cmd (first ++ more) = redirect (redirect cmd first) more :=
  List.foldl_append

theorem Redirs.snoc (hredirs : Redirs tokens redirs) (op : Op) (file : Word) :
    Redirs (tokens ++ [.redir op, .word file]) (redirs ++ [(op, file)]) := by
  induction hredirs with
  | nil => exact .cons op file .nil
  | cons first name hrest ih => exact .cons first name ih

theorem Args.snoc {argv : List Word} (hargs : Args tokens argv redirs) (hsome : argv ≠ []) (op : Op)
    (file : Word) : Args (tokens ++ [.redir op, .word file]) argv (redirs ++ [(op, file)]) := by
  induction hargs with
  | nil => exact absurd rfl hsome
  | @cons word tokens redirs later argv more hredirs hlater ih =>
    rw [List.cons_append, append_assoc, append_assoc]
    by_cases hlast : argv = []
    · subst hlast
      cases hlater
      rw [List.nil_append, List.nil_append]
      have hargs := Args.cons word (hredirs.snoc op file) .nil
      rwa [append_nil, append_nil] at hargs
    · exact .cons word hredirs (ih hlast)

theorem Derives.redirect (hexec : Derives .exec tokens cmd) (op : Op)
    (file : Word) : Derives .exec (tokens ++ [.redir op, .word file])
      (.redir cmd file op.mode op.fd) := by
  cases hexec with
  | @words tokens redirs later argv more hredirs hargs hcount =>
    rw [append_assoc]
    by_cases hnone : argv = []
    · subst hnone
      cases hargs
      have hwords := Derives.words (hredirs.snoc op file) .nil hcount
      rw [append_nil, append_nil, redirect_append] at hwords
      rw [append_nil]
      exact hwords
    · have hwords :=
        Derives.words hredirs (hargs.snoc hnone op file) hcount
      rw [← append_assoc redirs, redirect_append] at hwords
      exact hwords
  | @block tokens inner later redirs hline hredirs =>
    have hblock := Derives.block hline (hredirs.snoc op file)
    rw [redirect_append] at hblock
    rw [List.cons_append, append_assoc]
    exact hblock

theorem Derives.pipe_back (hpipe : Derives .pipe tokens cmd) : Derives .back tokens cmd := by
  have hback := Derives.back 0 hpipe
  rwa [List.replicate_zero, append_nil] at hback

/-- An inner command stands at every level. -/
theorem Derives.lift (hexec : Derives .exec tokens cmd) (level : Level) :
    Derives level tokens cmd := by
  cases level with
  | exec => exact hexec
  | pipe => exact .single hexec
  | back => exact (Derives.single hexec).pipe_back
  | line => exact .last (Derives.single hexec).pipe_back

theorem Derives.parens (hline : Derives .line tokens cmd) :
    Derives .exec (parens true tokens) cmd :=
  .block hline .nil

theorem Derives.amp (hback : Derives .back tokens cmd) :
    Derives .back (tokens ++ [.amp]) (.back cmd) := by
  cases hback with
  | @back tokens cmd n hpipe =>
    have hmore := Derives.back (n + 1) hpipe
    rw [List.replicate_succ', ← append_assoc, Function.iterate_succ_apply'] at hmore
    exact hmore

theorem args_of_words (argv : List Word) : Args (argv.map .word) argv [] := by
  induction argv with
  | nil => exact .nil
  | cons word argv ih => exact .cons word .nil ih

/-- A printed tree is derived, with the same tree. -/
theorem print_derives (hok : cmd.Ok) (level : Level) : Derives level (print level cmd) cmd := by
  induction cmd generalizing level with
  | exec argv =>
    exact (Derives.words .nil (args_of_words argv) hok.1).lift level
  | redir cmd file mode fd ih =>
    obtain ⟨hcmd, -, op, rfl, rfl⟩ := hok
    rw [print, redirOp_mode]
    exact ((ih hcmd .exec).redirect op file).lift level
  | pipe left right ihl ihr =>
    have hpipe := Derives.pipe (ihl hok.1 .exec) (ihr hok.2 .pipe)
    cases level with
    | exec => exact (Derives.last hpipe.pipe_back).parens
    | pipe => exact hpipe
    | back => exact hpipe.pipe_back
    | line => exact .last hpipe.pipe_back
  | list left right ihl ihr =>
    have hlist := Derives.list (ihl hok.1 .back) (ihr hok.2 .line)
    cases level with
    | line => exact hlist
    | _ => exact hlist.parens.lift _
  | back cmd ih =>
    have hback := (ih hok .back).amp
    cases level with
    | exec => exact (Derives.last hback).parens
    | pipe => exact .single (Derives.last hback).parens
    | back => exact hback
    | line => exact .last hback

theorem parens_ok {needed : Bool} (hok : ∀ token ∈ tokens, token.Ok) :
    ∀ token ∈ parens needed tokens, token.Ok := by
  intro token htoken
  unfold parens at htoken
  split at htoken
  · simp only [mem_cons, mem_append, List.not_mem_nil, or_false] at htoken
    rcases htoken with rfl | htoken | rfl
    · trivial
    · exact hok token htoken
    · trivial
  · exact hok token htoken

/-- Two lists of tokens with a symbol between them. -/
theorem ok_append_cons {middle : Token} (hleft : ∀ token ∈ tokens, token.Ok) (hmiddle : middle.Ok)
    (hright : ∀ token ∈ later, token.Ok) : ∀ token ∈ tokens ++ middle :: later, token.Ok := by
  intro token htoken
  rcases mem_append.mp htoken with htoken | htoken
  · exact hleft token htoken
  · rcases mem_cons.mp htoken with rfl | htoken
    · exact hmiddle
    · exact hright token htoken

theorem print_ok (hok : cmd.Ok) (level : Level) : ∀ token ∈ print level cmd, token.Ok := by
  induction cmd generalizing level with
  | exec argv =>
    intro token htoken
    obtain ⟨word, hword, rfl⟩ := List.mem_map.mp htoken
    exact hok.2 word hword
  | redir cmd file mode fd ih =>
    refine ok_append_cons (ih hok.1 .exec) trivial fun token htoken => ?_
    obtain rfl := List.mem_singleton.mp htoken
    exact hok.2.1
  | pipe left right ihl ihr =>
    exact parens_ok (ok_append_cons (ihl hok.1 _) trivial (ihr hok.2 _))
  | list left right ihl ihr =>
    exact parens_ok (ok_append_cons (ihl hok.1 _) trivial (ihr hok.2 _))
  | back cmd ih =>
    exact parens_ok (ok_append_cons (ih hok _) trivial nofun)

theorem redirect_ok (hcmd : cmd.Ok) (hredirs : ∀ r ∈ redirs, WordOk r.2) :
    (redirect cmd redirs).Ok := by
  induction redirs generalizing cmd with
  | nil => exact hcmd
  | cons r redirs ih =>
    have hr : Cmd.Ok (.redir cmd r.2 r.1.mode r.1.fd) :=
      ⟨hcmd, hredirs r mem_cons_self, r.1, rfl, rfl⟩
    exact ih hr fun other hother =>
      hredirs other (mem_cons_of_mem r hother)

theorem Redirs.ok (hredirs : Redirs tokens redirs)
    (hok : ∀ token ∈ tokens, token.Ok) : ∀ r ∈ redirs, WordOk r.2 := by
  induction hredirs with
  | nil => nofun
  | cons op file hrest ih =>
    rw [forall_mem_cons, forall_mem_cons] at hok
    rw [forall_mem_cons]
    exact ⟨hok.2.1, ih hok.2.2⟩

theorem Args.ok {argv : List Word} (hargs : Args tokens argv redirs)
    (hok : ∀ token ∈ tokens, token.Ok) : (∀ w ∈ argv, WordOk w) ∧ ∀ r ∈ redirs, WordOk r.2 := by
  induction hargs with
  | nil => exact ⟨nofun, nofun⟩
  | cons word hredirs hlater ih =>
    rw [forall_mem_cons, forall_mem_append] at hok
    rw [forall_mem_cons, forall_mem_append]
    have hrest := ih hok.2.2
    exact ⟨⟨hok.1, hrest.1⟩, hredirs.ok hok.2.1, hrest.2⟩

/-- Derived trees can be printed. -/
theorem Derives.ok {level : Level} (hderives : Derives level tokens cmd)
    (hok : ∀ token ∈ tokens, token.Ok) : cmd.Ok := by
  induction hderives with
  | words hredirs hargs hcount =>
    rw [forall_mem_append] at hok
    have hwords := hargs.ok hok.2
    refine redirect_ok ⟨hcount, hwords.1⟩ ?_
    rw [forall_mem_append]
    exact ⟨hredirs.ok hok.1, hwords.2⟩
  | block hline hredirs ih =>
    rw [forall_mem_cons, forall_mem_append, forall_mem_cons] at hok
    exact redirect_ok (ih hok.2.1) (hredirs.ok hok.2.2.2)
  | single hexec ih => exact ih hok
  | pipe hexec hpipe ihl ihr =>
    rw [forall_mem_append, forall_mem_cons] at hok
    exact ⟨ihl hok.1, ihr hok.2.2⟩
  | back n hpipe ih =>
    rw [forall_mem_append] at hok
    exact @Function.Iterate.rec _ Cmd.Ok _ (ih hok.1) Cmd.back (fun _ hcmd => hcmd) n
  | last hback ih => exact ih hok
  | list hback hline ihl ihr =>
    rw [forall_mem_append, forall_mem_cons] at hok
    exact ⟨ihl hok.1, ihr hok.2.2⟩

end Trees

end CkptKernel.Shell
