/-
The pattern matcher of user/grep.c, against the regular language that a
pattern stands for.  C strings are lists of the bytes before the terminator.
-/
import Mathlib.Computability.Language

namespace CkptKernel.Grep

open scoped Computability

def caret : UInt8 := 94
def dollar : UInt8 := 36
def dot : UInt8 := 46
def asterisk : UInt8 := 42

mutual

/-- `matchhere`: search for `re` at the beginning of `text`. -/
def matchhere (re text : List UInt8) : Bool :=
  match re with
  | [] => true
  | c :: rest =>
    if rest.head? = some asterisk then matchstar c rest.tail text
    else if c = dollar ∧ rest = [] then text.isEmpty
    else
      match text with
      | [] => false
      | t :: text => if c = dot ∨ c = t then matchhere rest text else false
termination_by (2 * re.length, text.length)
decreasing_by
  · apply Prod.Lex.left
    simp only [List.length_tail, List.length_cons]
    omega
  · apply Prod.Lex.left
    simp only [List.length_cons]
    omega

/-- `matchstar`: search for `c*re` at the beginning of `text`. -/
def matchstar (c : UInt8) (re text : List UInt8) : Bool :=
  if matchhere re text then true
  else
    match text with
    | [] => false
    | t :: text => if t = c ∨ c = dot then matchstar c re text else false
termination_by (2 * re.length + 1, text.length)
decreasing_by
  · apply Prod.Lex.left
    omega
  · apply Prod.Lex.right
    simp only [List.length_cons]
    omega

end

/-- The loop of `match` over the places of the text, its end included. -/
def matchAny (re : List UInt8) : List UInt8 → Bool
  | [] => matchhere re []
  | t :: text => if matchhere re (t :: text) then true else matchAny re text

/-- `match`: search for `re` anywhere in `text`. -/
def matchText (re text : List UInt8) : Bool :=
  if re.head? = some caret then matchhere re.tail text else matchAny re text

/-- Parts of a pattern: a character, or a repeated one. -/
inductive Item where
  | one (c : UInt8)
  | star (c : UInt8)
deriving DecidableEq, Repr

/-- A pattern read from left to right. -/
def readItems : List UInt8 → List Item
  | [] => []
  | c :: rest =>
    match rest with
    | [] => [.one c]
    | d :: more =>
      if d = asterisk then .star c :: readItems more
      else .one c :: readItems (d :: more)

/-- What a character of a pattern stands for. -/
def Stands (c x : UInt8) : Prop := c = dot ∨ c = x

instance (c x : UInt8) : Decidable (Stands c x) :=
  inferInstanceAs (Decidable (_ ∨ _))

/-- The words of one character that `c` stands for. -/
def single (c : UInt8) : Language UInt8 := {word | ∃ x, Stands c x ∧ word = [x]}

def Item.lang : Item → Language UInt8
  | .one c => single c
  | .star c => (single c)∗

/-- A pattern: its items, and whether a match must begin at the beginning or
reach the end of the text. -/
structure Pattern where
  start : Bool
  items : List Item
  finish : Bool
deriving DecidableEq, Repr

def Pattern.lang (pattern : Pattern) : Language UInt8 :=
  (pattern.items.map Item.lang).prod

/-- A pattern without `^`; a last item `$` that is not repeated stands for the
end. -/
def readBody (re : List UInt8) : Pattern :=
  if (readItems re).getLast? = some (.one dollar) then
    ⟨false, (readItems re).dropLast, true⟩
  else ⟨false, readItems re, false⟩

def readPattern (re : List UInt8) : Pattern :=
  if re.head? = some caret then { readBody re.tail with start := true }
  else readBody re

section Reading

variable {c : UInt8} {rest : List UInt8}

theorem readItems_one (hrest : rest.head? ≠ some asterisk) :
    readItems (c :: rest) = .one c :: readItems rest := by
  cases rest with
  | nil => rfl
  | cons d more =>
    have hne : d ≠ asterisk := fun heq => hrest (by rw [heq]; rfl)
    rw [readItems, if_neg hne]

/-- An item in front of a pattern that is not its end. -/
theorem body_cons {item : Item} {re : List UInt8} (hitems : readItems re = item :: readItems rest)
    (hlast : rest = [] → item ≠ .one dollar) : readBody re = { readBody rest with
      items := item :: (readBody rest).items } := by
  have hempty : readItems rest = [] → rest = [] := by
    intro hnil
    cases rest with
    | nil => rfl
    | cons d more =>
      rw [readItems.eq_def] at hnil
      dsimp only at hnil
      split at hnil
      · cases hnil
      · split at hnil <;> cases hnil
  unfold readBody
  rw [hitems]
  cases hrest : readItems rest with
  | nil =>
    have hne := hlast (hempty hrest)
    simp [hne]
  | cons next more =>
    rw [List.getLast?_cons_cons]
    split <;> rfl

theorem readBody_star (c : UInt8) (rest : List UInt8) :
    readBody (c :: asterisk :: rest) = { readBody rest with
      items := .star c :: (readBody rest).items } :=
  body_cons (by rw [readItems, if_pos rfl]) fun _ heq => nomatch heq

theorem readBody_one (hrest : rest.head? ≠ some asterisk) (hlast : ¬ (c = dollar ∧ rest = [])) :
    readBody (c :: rest) = { readBody rest with
      items := .one c :: (readBody rest).items } :=
  body_cons (readItems_one hrest) fun hnil heq =>
    hlast ⟨Item.one.inj heq, hnil⟩

end Reading

/-- A word of the pattern stands at the beginning of the text, and at its end
if the pattern asks for that. -/
def Pattern.Here (pattern : Pattern) (text : List UInt8) : Prop :=
  ∃ found after, text = found ++ after ∧ found ∈ pattern.lang ∧ (pattern.finish = true → after = [])

theorem mem_single_star {c : UInt8} {word : List UInt8} :
    word ∈ (single c)∗ ↔ ∀ x ∈ word, Stands c x := by
  constructor
  · rintro ⟨words, rfl, hwords⟩ x hx
    obtain ⟨word, hword, hin⟩ := List.mem_flatten.mp hx
    obtain ⟨y, hy, rfl⟩ := hwords word hword
    rw [List.mem_singleton.mp hin]
    exact hy
  · intro hall
    refine ⟨word.map fun x => [x], ?_, ?_⟩
    · rw [← List.flatMap_def, List.flatMap_singleton']
    · intro chunk hchunk
      obtain ⟨x, hx, rfl⟩ := List.mem_map.mp hchunk
      exact ⟨x, hall x hx, rfl⟩

section Here

variable {c : UInt8} {items : List Item} {start finish : Bool}
  {text : List UInt8}

theorem here_one : (Pattern.mk start (.one c :: items) finish).Here text ↔
    ∃ t rest, text = t :: rest ∧ Stands c t ∧ (Pattern.mk start items finish).Here rest := by
  constructor
  · rintro ⟨found, after, rfl, hfound, hafter⟩
    obtain ⟨first, ⟨t, ht, rfl⟩, more, hmore, rfl⟩ := Language.mem_mul.mp hfound
    exact ⟨t, more ++ after, rfl, ht, more, after, rfl, hmore, hafter⟩
  · rintro ⟨t, rest, rfl, ht, found, after, rfl, hfound, hafter⟩
    exact ⟨t :: found, after, rfl,
      Language.mem_mul.mpr ⟨[t], ⟨t, ht, rfl⟩, found, hfound, rfl⟩, hafter⟩

theorem here_star : (Pattern.mk start (.star c :: items) finish).Here text ↔
    ∃ run rest, text = run ++ rest ∧ (∀ x ∈ run, Stands c x) ∧
      (Pattern.mk start items finish).Here rest := by
  constructor
  · rintro ⟨found, after, rfl, hfound, hafter⟩
    obtain ⟨run, hrun, more, hmore, rfl⟩ := Language.mem_mul.mp hfound
    exact ⟨run, more ++ after, List.append_assoc .., mem_single_star.mp hrun,
      more, after, rfl, hmore, hafter⟩
  · rintro ⟨run, rest, rfl, hrun, found, after, rfl, hfound, hafter⟩
    exact ⟨run ++ found, after, (List.append_assoc ..).symm,
      Language.mem_mul.mpr ⟨run, mem_single_star.mpr hrun, found, hfound, rfl⟩, hafter⟩

end Here

/-- `matchstar` tries every run of characters that `c` stands for. -/
theorem matchstar_iff (c : UInt8) (re text : List UInt8) :
    matchstar c re text = true ↔ ∃ run rest, text = run ++ rest ∧
      (∀ x ∈ run, Stands c x) ∧ matchhere re rest = true := by
  induction text with
  | nil =>
    rw [matchstar]
    constructor
    · intro hmatch
      refine ⟨[], [], rfl, by simp, ?_⟩
      split at hmatch
      · assumption
      · cases hmatch
    · rintro ⟨run, rest, hnil, _, hrest⟩
      obtain ⟨rfl, rfl⟩ := List.append_eq_nil_iff.mp hnil.symm
      rw [if_pos hrest]
  | cons t text ih =>
    rw [matchstar]
    by_cases hhere : matchhere re (t :: text) = true
    · rw [if_pos hhere]
      exact ⟨fun _ => ⟨[], t :: text, rfl, by simp, hhere⟩, fun _ => rfl⟩
    rw [if_neg hhere]
    constructor
    · intro hmatch
      split at hmatch
      next hstands =>
        obtain ⟨run, rest, rfl, hrun, hrest⟩ := ih.mp hmatch
        refine ⟨t :: run, rest, rfl, ?_, hrest⟩
        intro x hx
        rcases List.mem_cons.mp hx with rfl | hx
        · exact hstands.symm.imp_right Eq.symm
        · exact hrun x hx
      · cases hmatch
    · rintro ⟨run, rest, heq, hrun, hrest⟩
      cases run with
      | nil =>
        rw [heq] at hhere
        exact (hhere hrest).elim
      | cons x run =>
        obtain ⟨rfl, rfl⟩ := List.cons.inj heq
        have hstands := hrun t List.mem_cons_self
        rw [if_pos (hstands.symm.imp_left Eq.symm)]
        exact ih.mpr ⟨run, rest, rfl, fun y hy => hrun y (List.mem_cons_of_mem t hy), hrest⟩

/-- `matchhere` finds exactly the words of the pattern. -/
theorem matchhere_iff (re text : List UInt8) :
    matchhere re text = true ↔ (readBody re).Here text := by
  -- on the length of the pattern, which each item shortens by one or two
  induction hlen : re.length using Nat.strong_induction_on generalizing re text with
  | _ len ih =>
    cases re with
    | nil =>
      rw [matchhere]
      exact ⟨fun _ => ⟨[], text, rfl, rfl, nofun⟩, fun _ => rfl⟩
    | cons c rest =>
      rw [matchhere.eq_def]
      dsimp only
      by_cases hstar : rest.head? = some asterisk
      · obtain ⟨more, rfl⟩ : ∃ more, rest = asterisk :: more := by
          cases rest with
          | nil => cases hstar
          | cons d more => exact ⟨more, by rw [Option.some.inj hstar]⟩
        rw [if_pos hstar, readBody_star, here_star, matchstar_iff]
        have hshort : more.length < len := by
          simp only [← hlen, List.length_cons]
          omega
        simp only [List.tail_cons, ih _ hshort more _ rfl]
      rw [if_neg hstar]
      by_cases hend : c = dollar ∧ rest = []
      · obtain ⟨rfl, rfl⟩ := hend
        rw [if_pos ⟨rfl, rfl⟩]
        constructor
        · intro hempty
          exact ⟨[], text, rfl, rfl, fun _ => List.isEmpty_iff.mp hempty⟩
        · rintro ⟨found, after, rfl, hfound, hafter⟩
          have hnil : found = [] := hfound
          rw [hnil, hafter rfl]
          rfl
      rw [if_neg hend, readBody_one hstar hend, here_one]
      have hshort : rest.length < len := by
        simp only [← hlen, List.length_cons]
        omega
      cases text with
      | nil => exact ⟨nofun, fun ⟨_, _, heq, _⟩ => nomatch heq⟩
      | cons t text =>
        dsimp only
        constructor
        · intro hmatch
          split at hmatch
          next hstands =>
            exact ⟨t, text, rfl, hstands, (ih _ hshort rest text rfl).mp hmatch⟩
          · cases hmatch
        · rintro ⟨x, after, heq, hstands, hrest⟩
          obtain ⟨rfl, rfl⟩ := List.cons.inj heq
          rw [if_pos (show c = dot ∨ c = t from hstands)]
          exact (ih _ hshort rest text rfl).mpr hrest

/-- The loop of `match` looks at every rest of the text. -/
theorem matchAny_iff (re text : List UInt8) : matchAny re text = true ↔
      ∃ before rest, text = before ++ rest ∧ matchhere re rest = true := by
  induction text with
  | nil =>
    rw [matchAny]
    constructor
    · exact fun hmatch => ⟨[], [], rfl, hmatch⟩
    · rintro ⟨before, rest, hnil, hrest⟩
      obtain ⟨rfl, rfl⟩ := List.append_eq_nil_iff.mp hnil.symm
      exact hrest
  | cons t text ih =>
    rw [matchAny]
    split
    next hhere => exact ⟨fun _ => ⟨[], _, rfl, hhere⟩, fun _ => rfl⟩
    next hhere =>
      constructor
      · intro hmatch
        obtain ⟨before, rest, rfl, hrest⟩ := ih.mp hmatch
        exact ⟨t :: before, rest, rfl, hrest⟩
      rintro ⟨before, rest, heq, hrest⟩
      cases before with
      | nil =>
        rw [heq] at hhere
        exact (hhere hrest).elim
      | cons x before =>
        obtain ⟨rfl, rfl⟩ := List.cons.inj heq
        exact ih.mpr ⟨before, rest, rfl, hrest⟩

/-- `match` returns 1 exactly when a part of the text is a word of the
pattern, at the beginning of the text if the pattern begins with `^` and at
its end if the pattern ends with `$`. -/
theorem matchText_iff (re text : List UInt8) : matchText re text = true ↔ ∃ before found after,
      text = before ++ found ++ after ∧ found ∈ (readPattern re).lang ∧
      ((readPattern re).start = true → before = []) ∧
      ((readPattern re).finish = true → after = []) := by
  have hstart : ∀ body, (readBody body).start = false := by
    intro body
    unfold readBody
    split <;> rfl
  unfold matchText readPattern
  split
  · rw [matchhere_iff]
    constructor
    · rintro ⟨found, after, rfl, hfound, hafter⟩
      exact ⟨[], found, after, rfl, hfound, fun _ => rfl, hafter⟩
    · rintro ⟨before, found, after, rfl, hfound, hbefore, hafter⟩
      rw [hbefore rfl]
      exact ⟨found, after, rfl, hfound, hafter⟩
  · rw [matchAny_iff]
    constructor
    · rintro ⟨before, rest, rfl, hrest⟩
      obtain ⟨found, after, rfl, hfound, hafter⟩ := (matchhere_iff _ _).mp hrest
      refine ⟨before, found, after, (List.append_assoc ..).symm, hfound, ?_, hafter⟩
      rw [hstart]
      exact nofun
    · rintro ⟨before, found, after, rfl, hfound, _, hafter⟩
      exact ⟨before, found ++ after, List.append_assoc ..,
        (matchhere_iff _ _).mpr ⟨found, after, rfl, hfound, hafter⟩⟩

/-- `^*$`: a first `*` and a `$` that is not last are themselves. -/
example : readPattern [94, 42, 36] = ⟨true, [.one 42], true⟩ ∧
    readPattern [36, 42, 36, 97] = ⟨false, [.star 36, .one 36, .one 97], false⟩ := by
  decide

end CkptKernel.Grep
