/-
The recursive descent of user/sh.c over a line in memory.  The state of the
code is the pointer `*ps`.  `fuel` bounds the depth of the recursion and the
turns of the loops; `stop .sleep` is reached only if it is too small.
-/
import CkptKernel.Shell.Grammar

namespace CkptKernel.Shell

open ByteMem CString Code
open List (append_assoc append_nil cons_append head?_cons length_append length_cons map_append
  map_cons)

/-- Write `argv[argc]` of the command that `parseexec` has made; `ret` may
have wrapped it in redirections since. -/
def Cmd.addArg {W : Type} (word : W) : Cmd W → Cmd W
  | .exec argv => .exec (argv ++ [word])
  | .redir cmd file mode fd => .redir (cmd.addArg word) file mode fd
  | cmd => cmd

def redircmd (tok : UInt8) (cmd : Cmd Span) (file : Span) : Cmd Span :=
  if tok = less then .redir cmd file O_RDONLY 0
  else if tok = greater then
    .redir cmd file (O_WRONLY ||| O_CREATE ||| O_TRUNC) 1
  else if tok = plus then .redir cmd file (O_WRONLY ||| O_CREATE) 1
  else cmd

section Code

variable (mem : Bytes) (es : Nat)

def parseredirs : Nat → Cmd Span → Code Nat (Cmd Span)
  | 0, _ => stop .sleep
  | fuel + 1, cmd => do
    if ← peek mem es [less, greater] then
      let (tok, _) ← gettoken mem es
      let (kind, file) ← gettoken mem es
      if kind ≠ letterA then panic "missing file for redirection"
      else parseredirs fuel (redircmd tok cmd file)
    else return cmd

def parseargs : Nat → Nat → Cmd Span → Code Nat (Cmd Span)
  | 0, _, _ => stop .sleep
  | fuel + 1, argc, ret => do
    if ← peek mem es [bar, rightParen, ampersand, semicolon] then return ret
    else
      let (tok, word) ← gettoken mem es
      if tok = 0 then return ret
      else if tok ≠ letterA then panic "syntax"
      else if argc + 1 ≥ MAXARGS then panic "too many args"
      else
        let ret ← parseredirs mem es fuel (ret.addArg word)
        parseargs fuel (argc + 1) ret

def parseback : Nat → Cmd Span → Code Nat (Cmd Span)
  | 0, _ => stop .sleep
  | fuel + 1, cmd => do
    if ← peek mem es [ampersand] then
      let _ ← gettoken mem es
      parseback fuel (.back cmd)
    else return cmd

mutual

def parseline : Nat → Code Nat (Cmd Span)
  | 0 => stop .sleep
  | fuel + 1 => do
    let cmd ← parsepipe fuel
    let cmd ← parseback mem es fuel cmd
    if ← peek mem es [semicolon] then
      let _ ← gettoken mem es
      let right ← parseline fuel
      return .list cmd right
    else return cmd

def parsepipe : Nat → Code Nat (Cmd Span)
  | 0 => stop .sleep
  | fuel + 1 => do
    let cmd ← parseexec fuel
    if ← peek mem es [bar] then
      let _ ← gettoken mem es
      let right ← parsepipe fuel
      return .pipe cmd right
    else return cmd

def parseblock : Nat → Code Nat (Cmd Span)
  | 0 => stop .sleep
  | fuel + 1 => do
    if ← peek mem es [leftParen] then
      let _ ← gettoken mem es
      let cmd ← parseline fuel
      if ← peek mem es [rightParen] then
        let _ ← gettoken mem es
        parseredirs mem es fuel cmd
      else panic "syntax - missing )"
    else panic "parseblock"

def parseexec : Nat → Code Nat (Cmd Span)
  | 0 => stop .sleep
  | fuel + 1 => do
    if ← peek mem es [leftParen] then parseblock fuel
    else
      let ret ← parseredirs mem es fuel (.exec [])
      parseargs mem es fuel 0 ret

end

end Code

/-! ### Tokens and what the code asks about them -/

variable {token : Token}

theorem within_redir
    (hwithin : token.within [less, greater] = true) : ∃ op, token = .redir op := by
  cases token with
  | redir op => exact ⟨op, rfl⟩
  | word text => cases hwithin
  | _ => exact absurd hwithin (by decide)

/-- A symbol that is peeked for alone is the token. -/
theorem within_single {b : UInt8}
    (hsymbol : symbol? b = some token) : [b].all symbols.contains ∧
      ∀ other : Token, other.within [b] = true ↔ other = token := by
  unfold symbol? at hsymbol
  split_ifs at hsymbol <;> cases hsymbol <;> subst b <;>
    refine ⟨by decide, fun other => ?_⟩
  all_goals
    cases other with
    | redir op => cases op <;> decide
    | word text => simp [Token.within]
    | _ => decide

@[simp] theorem within_redir_self (op : Op) : (Token.redir op).within [less, greater] = true := by
  cases op <;> decide

theorem redircmd_ret (op : Op) (cmd : Cmd Span) (file : Span) :
    redircmd (Token.redir op).ret cmd file = .redir cmd file op.mode op.fd := by
  cases op <;> rfl

theorem ret_word (text : Word) : (Token.word text).ret = letterA := rfl

theorem ret_ne_zero (token : Token) : token.ret ≠ 0 := by
  cases token with
  | redir op => cases op <;> decide
  | word text => exact (by decide : letterA ≠ 0)
  | _ => decide

theorem word_of_ret (hret : token.ret = letterA) : ∃ text, token = .word text := by
  cases token with
  | word text => exact ⟨text, rfl⟩
  | redir op => cases op <;> exact absurd hret (by decide)
  | _ => exact absurd hret (by decide)

theorem head_any {tokens : List Token} {p : Token → Bool} (hany : tokens.head?.any p = true) :
    ∃ token rest, tokens = token :: rest ∧ p token = true := by
  cases tokens with
  | nil => cases hany
  | cons token rest => exact ⟨token, rest, rfl, hany⟩

theorem addArg_redirect {W : Type} (argv : List W) (redirs : List (Op × W))
    (word : W) : (redirect (.exec argv) redirs).addArg word =
      redirect (.exec (argv ++ [word])) redirs := by
  induction redirs using List.reverseRecOn with
  | nil => rfl
  | append_singleton redirs r ih =>
    rw [redirect_append, redirect_append]
    exact congrArg (fun cmd => Cmd.redir cmd r.2 r.1.mode r.1.fd) ih

/-- The text of a redirection's file name. -/
def redirOf (mem : Bytes) (r : Op × Span) : Op × Word := (r.1, wordOf mem r.2)

theorem map_redirect (mem : Bytes) (cmd : Cmd Span)
    (redirs : List (Op × Span)) : (redirect cmd redirs).map (wordOf mem) =
      redirect (cmd.map (wordOf mem)) (redirs.map (redirOf mem)) := by
  induction redirs generalizing cmd with
  | nil => rfl
  | cons r redirs ih => exact ih _

theorem mem_words_redirect {W : Type} {cmd : Cmd W} {redirs : List (Op × W)} {word : W}
    (hword : word ∈ (redirect cmd redirs).words) : word ∈ cmd.words ∨ ∃ r ∈ redirs, r.2 = word := by
  induction redirs generalizing cmd with
  | nil => exact Or.inl hword
  | cons r redirs ih =>
    rcases ih hword with hword | ⟨other, hother, rfl⟩
    · rcases List.mem_append.mp hword with hword | hword
      · exact Or.inl hword
      · obtain rfl := List.mem_singleton.mp hword
        exact Or.inr ⟨r, List.mem_cons_self, rfl⟩
    · exact Or.inr ⟨other, List.mem_cons_of_mem r hother, rfl⟩

theorem map_iterate_back {V W : Type} (f : V → W) (n : Nat) (cmd : Cmd V) :
    (Nat.iterate Cmd.back n cmd).map f = Nat.iterate Cmd.back n (cmd.map f) := by
  induction n generalizing cmd with
  | zero => rfl
  | succ n ih => exact ih (.back cmd)

theorem words_iterate_back {W : Type} (n : Nat) (cmd : Cmd W) :
    (Nat.iterate Cmd.back n cmd).words = cmd.words := by
  induction n generalizing cmd with
  | zero => rfl
  | succ n ih => exact ih (.back cmd)

def Panics (reason : Stop) : Prop := ∃ message, reason = .panic message

/-! ### What is returned is derived -/

section Sound

variable {mem : Bytes} {es s : Nat} {tokens : List Token} {stops : Stop → Prop}

/-- Run code up to the answer of `peek`. -/
theorem ends_peek {A : Type} {toks : List UInt8} {next : Bool → Code Nat A} {post : A → Nat → Prop}
    (htokens : TokensAt mem es s tokens) (htoks : toks.all symbols.contains)
    (hnext : ∀ s', TokensAt mem es s' tokens →
      ends (next (tokens.head?.any (Token.within toks))) s' post stops) :
    ends (peek mem es toks >>= next) s post stops := by
  obtain ⟨s', hpeek, hafter⟩ := peek_eq htokens htoks
  rw [ends_bind]
  exact ends_of_eq hpeek (hnext s' hafter)

/-- Run code up to the token it gets. -/
theorem ends_gettoken {A : Type} {next : UInt8 × Span → Code Nat A}
    {post : A → Nat → Prop} (htokens : TokensAt mem es s (token :: tokens))
    (hnext : ∀ span s', TokensAt mem es s' tokens →
      (∀ text, token = .word text → WordAt mem span ∧ wordOf mem span = text) →
      ends (next (token.ret, span)) s' post stops) :
    ends (gettoken mem es >>= next) s post stops := by
  obtain ⟨span, s', hget, hafter, hword⟩ := gettoken_cons htokens
  rw [ends_bind]
  exact ends_of_eq hget (hnext span s' hafter hword)

theorem ends_gettoken_nil {A : Type} {next : UInt8 × Span → Code Nat A} {post : A → Nat → Prop}
    (htokens : TokensAt mem es s [])
    (hnext : ∀ span s', TokensAt mem es s' [] → ends (next (0, span)) s' post stops) :
    ends (gettoken mem es >>= next) s post stops := by
  obtain ⟨span, s', hget, hafter⟩ := gettoken_nil htokens
  rw [ends_bind]
  exact ends_of_eq hget (hnext span s' hafter)

/-- Get a symbol if it is there. -/
abbrev accept {A : Type} (mem : Bytes) (es : Nat) (b : UInt8)
    (taken : UInt8 × Span → Code Nat A) (other : Code Nat A) : Code Nat A := do
  if ← peek mem es [b] then gettoken mem es >>= taken else other

section Accept

variable {A : Type} {b : UInt8} {token : Token}
  {taken : UInt8 × Span → Code Nat A} {other : Code Nat A}
  {post : A → Nat → Prop} {stops : Stop → Prop}

theorem ends_taken (htokens : TokensAt mem es s (token :: tokens))
    (hsymbol : symbol? b = some token) (htaken : ∀ span s', TokensAt mem es s' tokens →
      ends (taken (token.ret, span)) s' post stops) :
    ends (accept mem es b taken other) s post stops := by
  obtain ⟨hin, hwithin⟩ := within_single hsymbol
  refine ends_peek htokens hin fun s₁ hafter => ?_
  rw [head?_cons, Option.any_some, (hwithin token).mpr rfl, if_pos rfl]
  exact ends_gettoken hafter fun span s₂ hlater _ => htaken span s₂ hlater

theorem ends_other (htokens : TokensAt mem es s tokens)
    (hsymbol : symbol? b = some token) (hhead : tokens.head? ≠ some token)
    (hother : ∀ s', TokensAt mem es s' tokens → ends other s' post stops) :
    ends (accept mem es b taken other) s post stops := by
  obtain ⟨hin, hwithin⟩ := within_single hsymbol
  refine ends_peek htokens hin fun s₁ hafter => ?_
  rw [if_neg]
  · exact hother s₁ hafter
  · intro hany
    obtain ⟨first, rest, rfl, hfirst⟩ := head_any hany
    exact hhead (congrArg some ((hwithin first).mp hfirst))

theorem ends_accept (htokens : TokensAt mem es s tokens) (hsymbol : symbol? b = some token)
    (htaken : ∀ rest span s', tokens = token :: rest → TokensAt mem es s' rest →
      ends (taken (token.ret, span)) s' post stops)
    (hother : ∀ s', TokensAt mem es s' tokens → ends other s' post stops) :
    ends (accept mem es b taken other) s post stops := by
  by_cases hhead : tokens.head? = some token
  · obtain ⟨rest, rfl⟩ := List.head?_eq_some_iff.mp hhead
    exact ends_taken htokens hsymbol fun span s' => htaken rest span s' rfl
  · exact ends_other htokens hsymbol hhead hother

end Accept

/-- What `parseredirs` has done: redirections of whole words. -/
structure Redirected (mem : Bytes) (es : Nat) (tokens : List Token)
    (redirs : List (Op × Span)) (s : Nat) (rest : List Token) : Prop where
  used : ∃ used, tokens = used ++ rest ∧ Redirs used (redirs.map (redirOf mem))
  whole : ∀ r ∈ redirs, WordAt mem r.2
  tokens : TokensAt mem es s rest

variable {fuel : Nat}

theorem ends_parseredirs (htokens : TokensAt mem es s tokens)
    (hfuel : tokens.length + 1 ≤ fuel) (cmd : Cmd Span) : ends (parseredirs mem es fuel cmd) s
      (fun result s' => ∃ redirs rest, result = redirect cmd redirs ∧
        Redirected mem es tokens redirs s' rest) Panics := by
  induction fuel generalizing s tokens cmd with
  | zero => exact absurd hfuel (Nat.not_succ_le_zero _)
  | succ fuel ih =>
    unfold parseredirs
    refine ends_peek htokens (by decide) fun s' hafter => ?_
    cases hredir : tokens.head?.any (Token.within [less, greater]) with
    | false =>
      exact ⟨[], tokens, rfl, ⟨[], rfl, .nil⟩, nofun, hafter⟩
    | true =>
      obtain ⟨token, rest, rfl, hwithin⟩ := head_any hredir
      obtain ⟨op, rfl⟩ := within_redir hwithin
      refine ends_gettoken hafter fun _ s₁ hfile _ => ?_
      cases rest with
      | nil =>
        refine ends_gettoken_nil hfile fun span s₂ _ => ?_
        exact ⟨_, rfl⟩
      | cons token rest =>
        refine ends_gettoken hfile fun span s₂ hlater hword => ?_
        dsimp only
        by_cases hkind : token.ret = letterA
        · obtain ⟨file, rfl⟩ := word_of_ret hkind
          obtain ⟨hwhole, hread⟩ := hword file rfl
          rw [if_neg (not_not.mpr hkind), redircmd_ret]
          simp only [length_cons] at hfuel
          refine ends_mono (ih hlater (by omega) _) ?_
          rintro result s₃ ⟨redirs, left, rfl, hdone⟩
          obtain ⟨used, rfl, hderived⟩ := hdone.used
          refine ⟨(op, span) :: redirs, left, rfl,
            ⟨.redir op :: .word file :: used, rfl, ?_⟩, ?_, hdone.tokens⟩
          · rw [map_cons, redirOf, hread]
            exact .cons op file hderived
          · rw [List.forall_mem_cons]
            exact ⟨hwhole, hdone.whole⟩
        · rw [if_pos hkind]
          exact ⟨_, rfl⟩

/-- What the loop of `parseexec` has done. -/
structure Argued (mem : Bytes) (es : Nat) (tokens : List Token)
    (argv : List Span) (redirs : List (Op × Span)) (s : Nat)
    (rest : List Token) : Prop where
  used : ∃ used, tokens = used ++ rest ∧
    Args used (argv.map (wordOf mem)) (redirs.map (redirOf mem))
  whole : (∀ span ∈ argv, WordAt mem span) ∧ ∀ r ∈ redirs, WordAt mem r.2
  tokens : TokensAt mem es s rest

theorem Argued.nil (htokens : TokensAt mem es s tokens) : Argued mem es tokens [] [] s tokens :=
  ⟨⟨[], rfl, .nil⟩, ⟨nofun, nofun⟩, htokens⟩

theorem ends_parseargs {argc : Nat} (htokens : TokensAt mem es s tokens)
    (hfuel : tokens.length + 1 ≤ fuel) (before : List Span)
    (hargc : before.length = argc) (hcount : argc < MAXARGS) (wrapped : List (Op × Span)) :
    ends (parseargs mem es fuel argc (redirect (.exec before) wrapped)) s
      (fun result s' => ∃ argv redirs rest,
        result = redirect (.exec (before ++ argv)) (wrapped ++ redirs) ∧
        (before ++ argv).length < MAXARGS ∧ Argued mem es tokens argv redirs s' rest) Panics := by
  induction fuel generalizing s tokens argc before wrapped with
  | zero => exact absurd hfuel (Nat.not_succ_le_zero _)
  | succ fuel ih =>
    unfold parseargs
    have hstay : ∀ s', TokensAt mem es s' tokens →
        ∃ argv redirs rest, redirect (.exec before) wrapped =
            redirect (.exec (before ++ argv)) (wrapped ++ redirs) ∧
          (before ++ argv).length < MAXARGS ∧ Argued mem es tokens argv redirs s' rest := by
      intro s' hafter
      refine ⟨[], [], tokens, ?_, ?_, .nil hafter⟩
      · rw [append_nil, append_nil]
      · rw [append_nil, hargc]
        exact hcount
    refine ends_peek htokens (by decide) fun s' hafter => ?_
    cases tokens.head?.any (Token.within [bar, rightParen, ampersand, semicolon]) with
    | true => exact hstay s' hafter
    | false =>
      cases tokens with
      | nil =>
        exact ends_gettoken_nil hafter fun _ s₁ hend => hstay s₁ hend
      | cons token rest =>
        refine ends_gettoken hafter fun span s₁ hlater hword => ?_
        dsimp only
        rw [if_neg (ret_ne_zero token)]
        by_cases hkind : token.ret = letterA
        · obtain ⟨text, rfl⟩ := word_of_ret hkind
          obtain ⟨hwhole, hread⟩ := hword text rfl
          rw [if_neg (not_not.mpr hkind)]
          by_cases hmany : argc + 1 ≥ MAXARGS
          · rw [if_pos hmany]
            exact ⟨_, rfl⟩
          rw [if_neg hmany, addArg_redirect, ends_bind]
          rw [length_cons] at hfuel
          refine ends_mono (ends_parseredirs hlater (by omega) _) ?_
          rintro result s₂ ⟨more, left, rfl, hdone⟩
          obtain ⟨used, rfl, hredirs⟩ := hdone.used
          rw [length_append] at hfuel
          rw [← redirect_append]
          refine ends_mono (ih hdone.tokens (by omega) (before ++ [span])
            (by simp [hargc]) (by omega) (wrapped ++ more)) ?_
          rintro result s₃ ⟨argv, redirs, after, rfl, hroom, hargs⟩
          obtain ⟨taken, rfl, hderived⟩ := hargs.used
          rw [append_assoc] at hroom
          refine ⟨span :: argv, more ++ redirs, after, ?_, hroom,
            ⟨.word text :: (used ++ taken), ?_, ?_⟩, ⟨?_, ?_⟩, hargs.tokens⟩
          · rw [append_assoc, append_assoc]
            rfl
          · rw [cons_append, append_assoc]
          · rw [map_cons, map_append, hread]
            exact .cons text hredirs hderived
          · rw [List.forall_mem_cons]
            exact ⟨hwhole, hargs.whole.1⟩
          · rw [List.forall_mem_append]
            exact ⟨hdone.whole, hargs.whole.2⟩
        · rw [if_pos hkind]
          exact ⟨_, rfl⟩

theorem ends_parseback (htokens : TokensAt mem es s tokens)
    (hfuel : tokens.length + 1 ≤ fuel) (cmd : Cmd Span) : ends (parseback mem es fuel cmd) s
      (fun result s' => ∃ n rest, result = Nat.iterate .back n cmd ∧
        tokens = List.replicate n .amp ++ rest ∧ TokensAt mem es s' rest) Panics := by
  induction fuel generalizing s tokens cmd with
  | zero => exact absurd hfuel (Nat.not_succ_le_zero _)
  | succ fuel ih =>
    unfold parseback
    refine ends_accept htokens rfl ?_ fun s' hafter =>
      ⟨0, tokens, rfl, rfl, hafter⟩
    · rintro rest _ s₁ rfl hlater
      rw [length_cons] at hfuel
      refine ends_mono (ih hlater (by omega) _) ?_
      rintro result s₂ ⟨n, left, rfl, rfl, hleft⟩
      exact ⟨n + 1, left, rfl, rfl, hleft⟩

/-- A command of some level has been read. -/
structure Parsed (mem : Bytes) (es : Nat) (tokens : List Token)
    (level : Level) (cmd : Cmd Span) (s : Nat) (rest : List Token) : Prop where
  used : ∃ used, tokens = used ++ rest ∧ Derives level used (cmd.map (wordOf mem))
  whole : ∀ span ∈ cmd.words, WordAt mem span
  tokens : TokensAt mem es s rest

/-- With enough fuel each function returns a derived command or panics. -/
structure ParserSound (mem : Bytes) (es fuel : Nat) : Prop where
  line : ∀ s tokens, TokensAt mem es s tokens → 4 * tokens.length + 4 ≤ fuel →
    ends (parseline mem es fuel) s
      (fun cmd s' => ∃ rest, Parsed mem es tokens .line cmd s' rest) Panics
  pipe : ∀ s tokens, TokensAt mem es s tokens → 4 * tokens.length + 3 ≤ fuel →
    ends (parsepipe mem es fuel) s
      (fun cmd s' => ∃ rest, Parsed mem es tokens .pipe cmd s' rest) Panics
  exec : ∀ s tokens, TokensAt mem es s tokens → 4 * tokens.length + 2 ≤ fuel →
    ends (parseexec mem es fuel) s
      (fun cmd s' => ∃ rest, Parsed mem es tokens .exec cmd s' rest) Panics
  block : ∀ s tokens, TokensAt mem es s tokens → 4 * tokens.length + 1 ≤ fuel →
    ends (parseblock mem es fuel) s
      (fun cmd s' => ∃ rest, Parsed mem es tokens .exec cmd s' rest) Panics

namespace ParserSound

variable {fuel : Nat}

variable (hsound : ParserSound mem es fuel) (htokens : TokensAt mem es s tokens)
include hsound htokens

theorem step_line (hfuel : 4 * tokens.length + 4 ≤ fuel + 1) : ends (parseline mem es (fuel + 1)) s
      (fun cmd s' => ∃ rest, Parsed mem es tokens .line cmd s' rest) Panics := by
  unfold parseline
  refine ends_seq (hsound.pipe s tokens htokens (by omega)) ?_
  rintro cmd s₁ ⟨rest, hpipe⟩
  obtain ⟨used, rfl, hderived⟩ := hpipe.used
  rw [length_append] at hfuel
  refine ends_seq (ends_parseback hpipe.tokens (by omega) cmd) ?_
  rintro result s₂ ⟨n, left, rfl, rfl, hleft⟩
  have hback : Derives .back (used ++ List.replicate n .amp)
      ((Nat.iterate Cmd.back n cmd).map (wordOf mem)) := by
    rw [map_iterate_back]
    exact .back n hderived
  have hwhole : ∀ span ∈ (Nat.iterate Cmd.back n cmd).words, WordAt mem span := by
    rw [words_iterate_back]
    exact hpipe.whole
  rw [← append_assoc]
  refine ends_accept hleft rfl ?_ fun s₃ hafter =>
    ⟨left, ⟨_, rfl, .last hback⟩, hwhole, hafter⟩
  rintro later _ s₄ rfl hlater
  rw [length_append, length_cons] at hfuel
  refine ends_seq (hsound.line s₄ later hlater (by omega)) ?_
  rintro right s₅ ⟨final, hline⟩
  obtain ⟨more, rfl, hright⟩ := hline.used
  refine ⟨final, ⟨_, (append_assoc _ (.semi :: more) final).symm,
    .list hback hright⟩, ?_, hline.tokens⟩
  exact List.forall_mem_append.mpr ⟨hwhole, hline.whole⟩

theorem step_pipe (hfuel : 4 * tokens.length + 3 ≤ fuel + 1) : ends (parsepipe mem es (fuel + 1)) s
      (fun cmd s' => ∃ rest, Parsed mem es tokens .pipe cmd s' rest) Panics := by
  unfold parsepipe
  refine ends_seq (hsound.exec s tokens htokens (by omega)) ?_
  rintro cmd s₁ ⟨rest, hexec⟩
  obtain ⟨used, rfl, hderived⟩ := hexec.used
  refine ends_accept hexec.tokens rfl ?_ fun s₂ hafter =>
    ⟨rest, ⟨used, rfl, .single hderived⟩, hexec.whole, hafter⟩
  rintro later _ s₃ rfl hlater
  rw [length_append, length_cons] at hfuel
  refine ends_seq (hsound.pipe s₃ later hlater (by omega)) ?_
  rintro right s₄ ⟨final, hpipe⟩
  obtain ⟨more, rfl, hright⟩ := hpipe.used
  refine ⟨final, ⟨_, (append_assoc _ (.bar :: more) final).symm,
    .pipe hderived hright⟩, ?_, hpipe.tokens⟩
  exact List.forall_mem_append.mpr ⟨hexec.whole, hpipe.whole⟩

theorem step_block (hfuel : 4 * tokens.length + 1 ≤ fuel + 1) :
    ends (parseblock mem es (fuel + 1)) s
      (fun cmd s' => ∃ rest, Parsed mem es tokens .exec cmd s' rest) Panics := by
  unfold parseblock
  refine ends_accept htokens rfl ?_ fun _ _ => ⟨_, rfl⟩
  rintro inner _ s₂ rfl hinner
  rw [length_cons] at hfuel
  refine ends_seq (hsound.line s₂ inner hinner (by omega)) ?_
  rintro cmd s₃ ⟨rest, hline⟩
  obtain ⟨used, rfl, hderived⟩ := hline.used
  refine ends_accept hline.tokens rfl ?_ fun _ _ => ⟨_, rfl⟩
  rintro later _ s₅ rfl hlater
  rw [length_append, length_cons] at hfuel
  refine ends_mono (ends_parseredirs hlater (by omega) cmd) ?_
  rintro result s₆ ⟨redirs, final, rfl, hdone⟩
  obtain ⟨more, rfl, hredirs⟩ := hdone.used
  refine ⟨final, ⟨.lparen :: (used ++ .rparen :: more), ?_, ?_⟩, ?_, hdone.tokens⟩
  · rw [cons_append, append_assoc]
    rfl
  · rw [map_redirect]
    exact .block hderived hredirs
  · intro span hspan
    rcases mem_words_redirect hspan with hspan | ⟨r, hr, rfl⟩
    · exact hline.whole span hspan
    · exact hdone.whole r hr

theorem step_exec (hfuel : 4 * tokens.length + 2 ≤ fuel + 1) : ends (parseexec mem es (fuel + 1)) s
      (fun cmd s' => ∃ rest, Parsed mem es tokens .exec cmd s' rest) Panics := by
  unfold parseexec
  refine ends_peek htokens (by decide) fun s₁ hafter => ?_
  cases hparen : tokens.head?.any (Token.within [leftParen]) with
  | true => exact hsound.block s₁ tokens hafter (by omega)
  | false =>
    refine ends_bind.mpr (ends_mono (ends_parseredirs hafter (by omega) _) ?_)
    rintro result s₂ ⟨redirs, rest, rfl, hdone⟩
    obtain ⟨used, rfl, hredirs⟩ := hdone.used
    rw [length_append] at hfuel
    refine ends_mono (ends_parseargs hdone.tokens (by omega) [] rfl (by decide) redirs) ?_
    rintro result s₃ ⟨argv, more, final, rfl, hroom, hargs⟩
    obtain ⟨taken, rfl, hderived⟩ := hargs.used
    refine ⟨final, ⟨used ++ taken, (append_assoc _ _ _).symm, ?_⟩, ?_, hargs.tokens⟩
    · rw [map_redirect, map_append]
      refine .words hredirs hderived ?_
      rw [List.length_map]
      exact hroom
    · intro span hspan
      rcases mem_words_redirect hspan with hspan | ⟨r, hr, rfl⟩
      · exact hargs.whole.1 span hspan
      · rcases List.mem_append.mp hr with hr | hr
        · exact hdone.whole r hr
        · exact hargs.whole.2 r hr

end ParserSound

theorem parser_sound (mem : Bytes) (es fuel : Nat) : ParserSound mem es fuel := by
  induction fuel with
  | zero =>
    refine ⟨?_, ?_, ?_, ?_⟩ <;>
      exact fun _ _ _ hfuel => absurd hfuel (Nat.not_succ_le_zero _)
  | succ fuel ih =>
    exact ⟨fun _ _ => ih.step_line, fun _ _ => ih.step_pipe,
      fun _ _ => ih.step_exec, fun _ _ => ih.step_block⟩

end Sound

/-! ### What is derived is returned -/

/-- The tokens that can follow a command of some level. -/
def Token.follows : Level → Token → Bool
  | .exec, token => token = .bar || token = .rparen || token = .amp ||
      token = .semi
  | .pipe, token => token = .rparen || token = .amp || token = .semi
  | .back, token => token = .rparen || token = .semi
  | .line, token => token = .rparen

/-- A line, or the rest of one, in which such a command has ended. -/
def Ended (level : Level) (rest : List Token) : Prop :=
  rest.head?.all (Token.follows level) = true

variable {level : Level} {rest : List Token}

theorem Ended.mono {outer : Level} (hended : Ended outer rest)
    (himp : ∀ token, Token.follows outer token → Token.follows level token) : Ended level rest := by
  cases rest with
  | nil => rfl
  | cons token rest => exact himp token hended

theorem Ended.head_ne
    (hended : Ended level rest) (hother : Token.follows level token = false) :
    rest.head? ≠ some token := by
  intro hhead
  unfold Ended at hended
  rw [hhead, Option.all_some, hother] at hended
  cases hended

theorem Ended.peek {toks : List UInt8}
    (hended : Ended level rest) (hother : ∀ token, Token.follows level token →
      token.within toks = false) : rest.head?.any (Token.within toks) = false := by
  cases rest with
  | nil => rfl
  | cons token rest => exact hother token hended

section Complete

variable {mem : Bytes} {es s : Nat} {used rest : List Token}
  {redirs : List (Op × Word)}

abbrev Never (_ : Stop) : Prop := False

theorem Redirs.complete (hredirs : Redirs used redirs)
    (htokens : TokensAt mem es s (used ++ rest))
    (hended : rest.head?.any (Token.within [less, greater]) = false)
    (hfuel : used.length + 1 ≤ fuel) (cmd : Cmd Span) : ends (parseredirs mem es fuel cmd) s
      (fun result s' => ∃ spans, result = Shell.redirect cmd spans ∧
        spans.map (redirOf mem) = redirs ∧ TokensAt mem es s' rest) Never := by
  induction hredirs generalizing s fuel cmd with
  | nil =>
    obtain ⟨fuel, rfl⟩ : ∃ k, fuel = k + 1 := ⟨fuel - 1, by omega⟩
    unfold parseredirs
    refine ends_peek htokens (by decide) fun s' hafter => ?_
    rw [List.nil_append] at hafter ⊢
    rw [hended]
    exact ⟨[], rfl, rfl, hafter⟩
  | cons op file hrest ih =>
    rw [length_cons, length_cons] at hfuel
    obtain ⟨fuel, rfl⟩ : ∃ k, fuel = k + 1 := ⟨fuel - 1, by omega⟩
    unfold parseredirs
    refine ends_peek htokens (by decide) fun s' hafter => ?_
    rw [cons_append, head?_cons, Option.any_some, within_redir_self]
    refine ends_gettoken hafter fun _ s₁ hfile _ => ?_
    refine ends_gettoken hfile fun span s₂ hlater hword => ?_
    obtain ⟨-, hread⟩ := hword file rfl
    dsimp only
    rw [if_neg (not_not.mpr (ret_word file)), redircmd_ret]
    refine ends_mono (ih hlater (by omega) _) ?_
    rintro result s₃ ⟨spans, rfl, rfl, hdone⟩
    refine ⟨(op, span) :: spans, rfl, ?_, hdone⟩
    rw [map_cons, redirOf, hread]

variable {argv : List Word}

/-- Neither arguments nor what follows a command begin with a redirection. -/
theorem Args.peek_redir (hargs : Args used argv redirs)
    (hended : Ended .exec rest) :
    (used ++ rest).head?.any (Token.within [less, greater]) = false := by
  cases hargs with
  | nil =>
    refine hended.peek fun token hfollows => ?_
    cases token with
    | redir op => cases hfollows
    | word text => rfl
    | _ => rfl
  | cons => rfl

theorem Args.complete (hargs : Args used argv redirs) {argc : Nat}
    (htokens : TokensAt mem es s (used ++ rest)) (hended : Ended .exec rest)
    (hfuel : used.length + 1 ≤ fuel) (before : List Span) (hargc : before.length = argc)
    (hroom : argc + argv.length < MAXARGS) (wrapped : List (Op × Span)) :
    ends (parseargs mem es fuel argc (redirect (.exec before) wrapped)) s
      (fun result s' => ∃ words spans,
        result = redirect (.exec (before ++ words)) (wrapped ++ spans) ∧
        words.map (wordOf mem) = argv ∧ spans.map (redirOf mem) = redirs ∧
        TokensAt mem es s' rest) Never := by
  induction hargs generalizing s fuel argc before wrapped with
  | nil =>
    obtain ⟨fuel, rfl⟩ : ∃ k, fuel = k + 1 := ⟨fuel - 1, by omega⟩
    have hstay : redirect (.exec before) wrapped =
        redirect (.exec (before ++ [])) (wrapped ++ []) := by
      rw [append_nil, append_nil]
    unfold parseargs
    refine ends_peek htokens (by decide) fun s' hafter => ?_
    rw [List.nil_append] at hafter ⊢
    cases rest with
    | nil =>
      refine ends_gettoken_nil hafter fun _ s₁ hend => ?_
      exact ⟨[], [], hstay, rfl, rfl, hend⟩
    | cons token rest =>
      have hstop : token.within [bar, rightParen, ampersand, semicolon] = true := by
        cases token with
        | redir op => cases hended
        | word text => cases hended
        | lparen => cases hended
        | _ => rfl
      rw [head?_cons, Option.any_some, hstop]
      exact ⟨[], [], hstay, rfl, rfl, hafter⟩
  | @cons word tokens redirs later argv more hredirs hlater ih =>
    rw [length_cons, length_append] at hfuel
    rw [length_cons] at hroom
    obtain ⟨fuel, rfl⟩ : ∃ k, fuel = k + 1 := ⟨fuel - 1, by omega⟩
    unfold parseargs
    refine ends_peek htokens (by decide) fun s' hafter => ?_
    refine ends_gettoken hafter fun span s₁ hrest hword => ?_
    obtain ⟨-, hread⟩ := hword word rfl
    have hfew : ¬ argc + 1 ≥ MAXARGS := by omega
    dsimp only
    rw [if_neg (ret_ne_zero _), if_neg (not_not.mpr (ret_word word)), if_neg hfew,
      addArg_redirect, ends_bind]
    have hrest : TokensAt mem es s₁ (tokens ++ (later ++ rest)) := by
      rw [← append_assoc]
      exact hrest
    refine ends_mono (hredirs.complete hrest (hlater.peek_redir hended) (by omega) _) ?_
    rintro result s₂ ⟨spans, rfl, rfl, hdone⟩
    rw [← redirect_append]
    refine ends_mono (ih hdone (by omega) (before ++ [span])
      (by simp [hargc]) (by omega) (wrapped ++ spans)) ?_
    rintro result s₃ ⟨words, spans', rfl, rfl, rfl, hend⟩
    refine ⟨span :: words, spans ++ spans', ?_, ?_, ?_, hend⟩
    · rw [append_assoc, append_assoc]
      rfl
    · rw [map_cons, hread]
    · rw [map_append]

theorem parseback_complete {n : Nat}
    (htokens : TokensAt mem es s (List.replicate n .amp ++ rest))
    (hended : rest.head? ≠ some .amp) (hfuel : n + 1 ≤ fuel) (cmd : Cmd Span) :
    ends (parseback mem es fuel cmd) s (fun result s' => result = Nat.iterate .back n cmd ∧
      TokensAt mem es s' rest) Never := by
  induction n generalizing s fuel cmd with
  | zero =>
    obtain ⟨fuel, rfl⟩ : ∃ k, fuel = k + 1 := ⟨fuel - 1, by omega⟩
    unfold parseback
    exact ends_other htokens rfl hended fun s' hafter => ⟨rfl, hafter⟩
  | succ n ih =>
    obtain ⟨fuel, rfl⟩ : ∃ k, fuel = k + 1 := ⟨fuel - 1, by omega⟩
    unfold parseback
    refine ends_taken htokens rfl fun _ s₁ hlater => ?_
    exact ih hlater (by omega) (.back cmd)

/-- The code for each level, and the fuel it needs for `n` tokens. -/
def codeOf (mem : Bytes) (es : Nat) : Level → Nat → Code Nat (Cmd Span)
  | .exec, fuel => parseexec mem es fuel
  | .pipe, fuel => parsepipe mem es fuel
  | .back, fuel => parsepipe mem es fuel >>= parseback mem es fuel
  | .line, fuel => parseline mem es fuel

def fuelFor : Level → Nat → Nat
  | .exec, n => 4 * n + 2
  | .pipe, n | .back, n => 4 * n + 3
  | .line, n => 4 * n + 4

/-- A command that begins with a redirection or a word has no parenthesis. -/
theorem Redirs.peek_lparen {later : List Token} {more : List (Op × Word)}
    (hredirs : Redirs used redirs) (hargs : Args later argv more) (hended : Ended .exec rest) :
    (used ++ (later ++ rest)).head?.any (Token.within [leftParen]) = false := by
  cases hredirs with
  | cons op file => cases op <;> rfl
  | nil =>
    cases hargs with
    | cons => rfl
    | nil =>
      refine hended.peek fun token hfollows => ?_
      cases token with
      | lparen => cases hfollows
      | redir op => cases hfollows
      | word text => rfl
      | _ => rfl

section Cases

variable {later : List Token} {tree right : Cmd Word} {fuel : Nat}

/-- What `Derives.complete` says of one derivation. -/
def Completes (mem : Bytes) (es : Nat) (level : Level) (used : List Token)
    (tree : Cmd Word) : Prop :=
  ∀ {s fuel : Nat} {rest : List Token}, TokensAt mem es s (used ++ rest) →
    Ended level rest → fuelFor level (used ++ rest).length ≤ fuel →
    ends (codeOf mem es level fuel) s
      (fun cmd s' => cmd.map (wordOf mem) = tree ∧ TokensAt mem es s' rest)
      Never

theorem Completes.words {argv : List Word} {more : List (Op × Word)}
    (hredirs : Redirs used redirs) (hargs : Args later argv more)
    (hcount : argv.length < MAXARGS) : Completes mem es .exec (used ++ later)
      (redirect (.exec argv) (redirs ++ more)) := by
  intro s fuel rest htokens hended hfuel
  rw [fuelFor] at hfuel
  rw [append_assoc] at htokens hfuel
  rw [length_append, length_append] at hfuel
  obtain ⟨fuel, rfl⟩ : ∃ k, fuel = k + 1 := ⟨fuel - 1, by omega⟩
  unfold codeOf parseexec
  refine ends_peek htokens (by decide) fun s₁ hafter => ?_
  rw [hredirs.peek_lparen hargs hended]
  refine ends_bind.mpr (ends_mono (hredirs.complete hafter
    (hargs.peek_redir hended) (by omega) (.exec [])) ?_)
  rintro result s₂ ⟨spans, rfl, rfl, hdone⟩
  refine ends_mono (hargs.complete hdone hended (by omega) [] rfl
    (by rwa [List.length_nil, Nat.zero_add]) spans) ?_
  rintro result s₃ ⟨words, spans', rfl, rfl, rfl, hend⟩
  rw [map_redirect, map_append]
  exact ⟨rfl, hend⟩

theorem Completes.block (hline : Completes mem es .line used tree) (hredirs : Redirs later redirs) :
    Completes mem es .exec (.lparen :: (used ++ .rparen :: later)) (redirect tree redirs) := by
  intro s fuel rest htokens hended hfuel
  rw [fuelFor] at hfuel
  rw [cons_append, append_assoc, cons_append] at htokens hfuel
  rw [length_cons] at hfuel
  obtain ⟨fuel, rfl⟩ : ∃ k, fuel = k + 2 := ⟨fuel - 2, by omega⟩
  unfold codeOf parseexec
  refine ends_peek htokens (by decide) fun s₁ hopened => ?_
  rw [head?_cons, Option.any_some, if_pos (by rfl)]
  unfold parseblock
  refine ends_taken hopened rfl fun _ s₃ hinner => ?_
  refine ends_seq (hline hinner rfl (by rw [fuelFor]; omega)) ?_
  rintro cmd s₄ ⟨rfl, hclose⟩
  refine ends_taken hclose rfl fun _ s₆ hlater => ?_
  rw [length_append, length_cons, length_append] at hfuel
  refine ends_mono (hredirs.complete hlater (Args.nil.peek_redir hended) (by omega) cmd) ?_
  rintro result s₇ ⟨spans, rfl, rfl, hdone⟩
  exact ⟨map_redirect mem cmd spans, hdone⟩

theorem follows_pipe_exec (token : Token) :
    Token.follows .pipe token → Token.follows .exec token := by
  cases token <;> simp [Token.follows]

theorem follows_back_pipe (token : Token) :
    Token.follows .back token → Token.follows .pipe token := by
  cases token <;> simp [Token.follows]

theorem follows_line_back (token : Token) :
    Token.follows .line token → Token.follows .back token := by
  cases token <;> simp [Token.follows]

theorem Completes.single (hexec : Completes mem es .exec used tree) :
    Completes mem es .pipe used tree := by
  intro s fuel rest htokens hended hfuel
  rw [fuelFor] at hfuel
  obtain ⟨fuel, rfl⟩ : ∃ k, fuel = k + 1 := ⟨fuel - 1, by omega⟩
  unfold codeOf parsepipe
  refine ends_seq (hexec htokens (hended.mono follows_pipe_exec) (by rw [fuelFor]; omega)) ?_
  rintro cmd s₁ ⟨rfl, hrest⟩
  exact ends_other hrest rfl (hended.head_ne rfl) fun s₂ hafter => ⟨rfl, hafter⟩

theorem Completes.pipe (hexec : Completes mem es .exec used tree)
    (hpipe : Completes mem es .pipe later right) :
    Completes mem es .pipe (used ++ .bar :: later) (.pipe tree right) := by
  intro s fuel rest htokens hended hfuel
  rw [fuelFor] at hfuel
  rw [append_assoc, cons_append] at htokens hfuel
  obtain ⟨fuel, rfl⟩ : ∃ k, fuel = k + 1 := ⟨fuel - 1, by omega⟩
  unfold codeOf parsepipe
  refine ends_seq (hexec htokens rfl (by rw [fuelFor]; omega)) ?_
  rintro cmd s₁ ⟨rfl, hrest⟩
  refine ends_taken hrest rfl fun _ s₃ hlater => ?_
  rw [length_append, length_cons] at hfuel
  refine ends_seq (hpipe hlater hended (by rw [fuelFor]; omega)) ?_
  rintro other s₄ ⟨rfl, hend⟩
  exact ⟨rfl, hend⟩

theorem Completes.back (n : Nat) (hpipe : Completes mem es .pipe used tree) :
    Completes mem es .back (used ++ List.replicate n .amp) (Nat.iterate .back n tree) := by
  intro s fuel rest htokens hended hfuel
  rw [fuelFor] at hfuel
  rw [append_assoc] at htokens hfuel
  have hnext : Ended .pipe (List.replicate n .amp ++ rest) := by
    cases n with
    | zero => exact hended.mono follows_back_pipe
    | succ n => rfl
  unfold codeOf
  refine ends_seq (hpipe htokens hnext hfuel) ?_
  rintro cmd s₁ ⟨rfl, hrest⟩
  rw [length_append, length_append, List.length_replicate] at hfuel
  refine ends_mono (parseback_complete hrest (hended.head_ne rfl) (by omega) cmd) ?_
  rintro result s₂ ⟨rfl, hend⟩
  exact ⟨map_iterate_back _ n cmd, hend⟩

theorem Completes.last (hback : Completes mem es .back used tree) :
    Completes mem es .line used tree := by
  intro s fuel rest htokens hended hfuel
  rw [fuelFor] at hfuel
  obtain ⟨fuel, rfl⟩ : ∃ k, fuel = k + 1 := ⟨fuel - 1, by omega⟩
  have hinner := hback htokens (hended.mono follows_line_back) (Nat.le_of_succ_le_succ hfuel)
  unfold codeOf parseline
  refine ends_seq (ends_bind.mp hinner) fun first s₁ hfirst => ?_
  refine ends_seq hfirst ?_
  rintro cmd s₂ ⟨rfl, hrest⟩
  exact ends_other hrest rfl (hended.head_ne rfl) fun s₃ hafter => ⟨rfl, hafter⟩

theorem Completes.list (hback : Completes mem es .back used tree)
    (hline : Completes mem es .line later right) :
    Completes mem es .line (used ++ .semi :: later) (.list tree right) := by
  intro s fuel rest htokens hended hfuel
  rw [fuelFor] at hfuel
  rw [append_assoc, cons_append] at htokens hfuel
  obtain ⟨fuel, rfl⟩ : ∃ k, fuel = k + 1 := ⟨fuel - 1, by omega⟩
  have hinner := hback htokens rfl (Nat.le_of_succ_le_succ hfuel)
  unfold codeOf parseline
  refine ends_seq (ends_bind.mp hinner) fun first s₁ hfirst => ?_
  refine ends_seq hfirst ?_
  rintro cmd s₂ ⟨rfl, hrest⟩
  refine ends_taken hrest rfl fun _ s₄ hlater => ?_
  rw [length_append, length_cons] at hfuel
  refine ends_seq (hline hlater hended (by rw [fuelFor]; omega)) ?_
  rintro other s₅ ⟨rfl, hend⟩
  exact ⟨rfl, hend⟩

end Cases

/-- A derivation is followed by the code, whatever comes behind it. -/
theorem Derives.complete {tree : Cmd Word}
    (hderives : Derives level used tree) : Completes mem es level used tree := by
  induction hderives with
  | words hredirs hargs hcount => exact Completes.words hredirs hargs hcount
  | block hline hredirs ih => exact Completes.block ih hredirs
  | single hexec ih => exact Completes.single ih
  | pipe hexec hpipe ihl ihr => exact Completes.pipe ihl ihr
  | back n hpipe ih => exact Completes.back n ih
  | last hback ih => exact Completes.last ih
  | list hback hline ihl ihr => exact Completes.list ihl ihr

end Complete

end CkptKernel.Shell
