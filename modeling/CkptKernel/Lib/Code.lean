/-
Imperative code over a state, with the two ways a call can fail to return: it
halts the machine with a message, or it sleeps until someone else acts.  The
rules below compute the weakest precondition of a call from its text, once for
calls that must return (`wp`) and once for calls that may stop (`wlp`).
-/
import Mathlib.Logic.Basic
import Mathlib.Order.Defs.Unbundled

/-- Why a call does not return. -/
inductive Stop where
  | panic (message : String)
  | sleep
deriving Repr, DecidableEq

/-- Code with state `S` and result `A`. -/
def Code (S A : Type) := S → Except Stop (A × S)

namespace Code

variable {S T A B : Type}

def ret (value : A) : Code S A := fun state => .ok (value, state)

def seq (first : Code S A) (next : A → Code S B) : Code S B := fun state =>
  match first state with
  | .ok (value, state') => next value state'
  | .error stop => .error stop

instance : Monad (Code S) where
  pure := ret
  bind := seq

def read : Code S S := fun state => .ok (state, state)

def update (change : S → S) : Code S Unit := fun state =>
  .ok ((), change state)

def stop (reason : Stop) : Code S A := fun _ => .error reason

def panic (message : String) : Code S A := stop (.panic message)

def when (cond : Prop) [Decidable cond] (code : Code S Unit) : Code S Unit :=
  if cond then code else pure ()

/-- A statement for a pointer that may be null. -/
def whenSome (value : Option B) (body : B → Code S Unit) : Code S Unit :=
  match value with
  | some value => body value
  | none => pure ()

def forEach (body : B → Code S Unit) : List B → Code S Unit
  | [] => pure ()
  | value :: rest => body value >>= fun _ => forEach body rest

def within (part : S → T) (put : T → S → S) (code : Code T A) : Code S A :=
  fun state =>
    match code (part state) with
    | .ok (value, inner) => .ok (value, put inner state)
    | .error reason => .error reason

/-- The call returns, with a result and a state as `post` says. -/
def wp (code : Code S A) (state : S) (post : A → S → Prop) : Prop :=
  ∃ value state', code state = .ok (value, state') ∧ post value state'

/-- If the call returns, its result and state are as `post` says. -/
def wlp (code : Code S A) (state : S) (post : A → S → Prop) : Prop :=
  ∀ value state', code state = .ok (value, state') → post value state'

/-- If the call returns, its result and state are as `post` says; if it stops,
its reason is as `stops` says. -/
def ends (code : Code S A) (state : S) (post : A → S → Prop)
    (stops : Stop → Prop) : Prop :=
  match code state with
  | .ok (value, state') => post value state'
  | .error reason => stops reason

variable {state : S} {post : A → S → Prop} {code : Code S A}
  {first : Code S A} {next : A → Code S B} {change : S → S} {reason : Stop}

/-! ### Running -/

theorem bind_eq_ok {value : B} {final : S} : (first >>= next) state = .ok (value, final) ↔
      ∃ middle state', first state = .ok (middle, state') ∧
        next middle state' = .ok (value, final) := by
  change seq first next state = _ ↔ _
  unfold seq
  cases hfirst : first state with
  | error reason => simp
  | ok result =>
    obtain ⟨middle, state'⟩ := result
    constructor
    · intro hnext
      exact ⟨middle, state', rfl, hnext⟩
    · rintro ⟨_, _, heq, hnext⟩
      cases heq
      exact hnext

/-- Run the rest after a part that returns. -/
theorem bind_of_ok {middle : A} {state' : S} (hfirst : first state = .ok (middle, state')) :
    (first >>= next) state = next middle state' := by
  change seq first next state = _
  simp [seq, hfirst]

theorem bind_of_error (hfirst : first state = .error reason) :
    (first >>= next) state = .error reason := by
  change seq first next state = _
  simp [seq, hfirst]

theorem pure_run (value : A) : (pure value : Code S A) state = .ok (value, state) := rfl

theorem read_bind {next : S → Code S B} : (read >>= next) state = next state state := rfl

theorem update_bind {next : Unit → Code S B} :
    (update change >>= next) state = next () (change state) := rfl

/-! ### How a call ends -/

section Ends

variable {stops : Stop → Prop}

@[simp] theorem ends_pure (value : A) :
    ends (pure value : Code S A) state post stops ↔ post value state := Iff.rfl

@[simp] theorem ends_bind {post : B → S → Prop} : ends (first >>= next) state post stops ↔
      ends first state (fun value state' => ends (next value) state' post stops) stops := by
  change ends (seq first next) state post stops ↔ _
  unfold ends seq
  cases first state with
  | error reason => exact Iff.rfl
  | ok result => exact Iff.rfl

@[simp] theorem ends_read {post : S → S → Prop} :
    ends (read : Code S S) state post stops ↔ post state state := Iff.rfl

@[simp] theorem ends_update {post : Unit → S → Prop} :
    ends (update change) state post stops ↔ post () (change state) := Iff.rfl

@[simp] theorem ends_stop : ends (stop reason : Code S A) state post stops ↔ stops reason := Iff.rfl

@[simp] theorem ends_panic {message : String} : ends (panic message : Code S A) state post stops ↔
      stops (.panic message) := Iff.rfl

@[simp] theorem ends_ite {cond : Prop} [Decidable cond] {yes no : Code S A} :
    ends (if cond then yes else no) state post stops ↔
      if cond then ends yes state post stops else ends no state post stops := by
  split <;> rfl

@[simp] theorem ends_within {part : S → T} {put : T → S → S} {code : Code T A} :
    ends (within part put code) state post stops ↔
      ends code (part state) (fun value inner => post value (put inner state)) stops := by
  unfold ends within
  cases code (part state) with
  | error reason => exact Iff.rfl
  | ok result => exact Iff.rfl

/-- A part whose result is known. -/
theorem ends_of_eq {value : A} {state' : S} (hrun : code state = .ok (value, state'))
    (hpost : post value state') : ends code state post stops := by
  unfold ends
  rw [hrun]
  exact hpost

/-- Both halves, from separate arguments. -/
theorem ends_of_wlp (hcode : wlp code state post)
    (hstops : ∀ reason, code state = .error reason → stops reason) :
    ends code state post stops := by
  unfold ends
  cases hrun : code state with
  | error reason => exact hstops reason hrun
  | ok result => exact hcode _ _ hrun

section

variable (hcode : ends code state post stops)
include hcode

theorem wlp_of_ends : wlp code state post := by
  intro value state' hrun
  unfold ends at hcode
  rw [hrun] at hcode
  exact hcode

theorem ends_error (hrun : code state = .error reason) : stops reason := by
  unfold ends at hcode
  rw [hrun] at hcode
  exact hcode

variable {weaker : A → S → Prop}

theorem ends_imp {stops' : Stop → Prop}
    (himp : ∀ value state', post value state' → weaker value state')
    (hstops : ∀ reason, stops reason → stops' reason) : ends code state weaker stops' :=
  ends_of_wlp (fun value state' hrun =>
      himp value state' (wlp_of_ends hcode value state' hrun))
    fun reason hrun => hstops reason (ends_error hcode hrun)

end

theorem ends_mono (hcode : ends code state post stops)
    (himp : ∀ value state', post value state' → weaker value state') :
    ends code state weaker stops :=
  ends_imp hcode himp fun _ hreason => hreason

variable {middle : A → S → Prop}

/-- The rule of composition. -/
theorem ends_seq {post : B → S → Prop}
    (hfirst : ends first state middle stops) (hnext : ∀ value state', middle value state' →
      ends (next value) state' post stops) : ends (first >>= next) state post stops :=
  ends_bind.mpr (ends_mono hfirst hnext)

/-- What is known of the result may be used for what is known of it besides. -/
theorem ends_and {known : A → S → Prop}
    (hcode : ends code state post stops) (hknown : wlp code state known) :
    ends code state (fun value state' => known value state' ∧ post value state') stops :=
  ends_of_wlp (fun value state' hrun =>
      ⟨hknown value state' hrun, wlp_of_ends hcode value state' hrun⟩)
    fun _ => ends_error hcode

theorem ends_of_wp (hcode : wp code state post) : ends code state post stops := by
  obtain ⟨value, state', hrun, hpost⟩ := hcode
  exact ends_of_eq hrun hpost

/-- Code that stops for no reason returns. -/
theorem wp_of_ends (hcode : ends code state post (fun _ => False)) : wp code state post := by
  cases hrun : code state with
  | error reason => exact (ends_error hcode hrun).elim
  | ok result => exact ⟨_, _, hrun, wlp_of_ends hcode _ _ hrun⟩

end Ends

/-! ### Calls that return, and calls that may stop -/

theorem wp_iff_ends : wp code state post ↔ ends code state post (fun _ => False) :=
  ⟨ends_of_wp, wp_of_ends⟩

theorem wlp_iff_ends : wlp code state post ↔ ends code state post (fun _ => True) :=
  ⟨fun hcode => ends_of_wlp hcode fun _ _ => trivial, wlp_of_ends⟩

@[simp] theorem wp_pure (value : A) :
    wp (pure value : Code S A) state post ↔ post value state := wp_iff_ends

@[simp] theorem wlp_pure (value : A) :
    wlp (pure value : Code S A) state post ↔ post value state := wlp_iff_ends

@[simp] theorem wp_bind {post : B → S → Prop} : wp (first >>= next) state post ↔
      wp first state (fun value state' => wp (next value) state' post) := by
  simp only [wp_iff_ends, ends_bind]

@[simp] theorem wlp_bind {post : B → S → Prop} : wlp (first >>= next) state post ↔
      wlp first state (fun value state' => wlp (next value) state' post) := by
  simp only [wlp_iff_ends, ends_bind]

@[simp] theorem wp_read {post : S → S → Prop} :
    wp (read : Code S S) state post ↔ post state state := wp_iff_ends

@[simp] theorem wlp_read {post : S → S → Prop} :
    wlp (read : Code S S) state post ↔ post state state := wlp_iff_ends

@[simp] theorem wp_update {post : Unit → S → Prop} :
    wp (update change) state post ↔ post () (change state) := wp_iff_ends

@[simp] theorem wlp_update {post : Unit → S → Prop} :
    wlp (update change) state post ↔ post () (change state) := wlp_iff_ends

@[simp] theorem wlp_stop : wlp (stop reason : Code S A) state post ↔ True := wlp_iff_ends

@[simp] theorem wlp_panic {message : String} :
    wlp (panic message : Code S A) state post ↔ True := wlp_iff_ends

@[simp] theorem wp_within {part : S → T} {put : T → S → S} {code : Code T A} :
    wp (within part put code) state post ↔ wp code (part state)
        (fun value inner => post value (put inner state)) := by
  rw [wp_iff_ends, ends_within, wp_iff_ends]

@[simp] theorem wlp_within {part : S → T} {put : T → S → S} {code : Code T A} :
    wlp (within part put code) state post ↔ wlp code (part state)
        (fun value inner => post value (put inner state)) := by
  rw [wlp_iff_ends, ends_within, wlp_iff_ends]

@[simp] theorem wp_ite {cond : Prop} [Decidable cond] {yes no : Code S A} :
    wp (if cond then yes else no) state post ↔
      if cond then wp yes state post else wp no state post := by
  split <;> rfl

@[simp] theorem wlp_ite {cond : Prop} [Decidable cond] {yes no : Code S A} :
    wlp (if cond then yes else no) state post ↔
      if cond then wlp yes state post else wlp no state post := by
  split <;> rfl

theorem wp_mono (hcode : wp code state post)
    (himp : ∀ value state', post value state' → weaker value state') : wp code state weaker :=
  wp_of_ends (ends_mono (ends_of_wp hcode) himp)

theorem wlp_mono (hcode : wlp code state post)
    (himp : ∀ value state', post value state' → weaker value state') :
    wlp code state weaker := fun value state' heq =>
  himp value state' (hcode value state' heq)

theorem wp_seq {post : B → S → Prop} (hfirst : wp first state middle)
    (hnext : ∀ value state', middle value state' → wp (next value) state' post) :
    wp (first >>= next) state post :=
  wp_bind.mpr (wp_mono hfirst hnext)

theorem wlp_seq {post : B → S → Prop} (hfirst : wlp first state middle)
    (hnext : ∀ value state', middle value state' → wlp (next value) state' post) :
    wlp (first >>= next) state post :=
  wlp_bind.mpr (wlp_mono hfirst hnext)

theorem wlp_of_wp (hcode : wp code state post) : wlp code state post :=
  wlp_iff_ends.mpr (ends_of_wp hcode)

theorem wlp_and {post' : A → S → Prop} (hleft : wlp code state post)
    (hright : wlp code state post') : wlp code state (fun value state' => post value state' ∧
      post' value state') := fun value state' hrun =>
  ⟨hleft value state' hrun, hright value state' hrun⟩

section Leads

variable {stops : Stop → Prop} {pre : S → Prop} {middle : A → S → Prop}
  {after : B → S → Prop}

/-- A loop whose invariant speaks of the values that are left. -/
theorem ends_forEach {body : B → Code S Unit} {Inv : List B → S → Prop}
    (hbody : ∀ value rest state, Inv (value :: rest) state →
      ends (body value) state (fun _ => Inv rest) stops) {values : List B} {state : S}
    (hstart : Inv values state) : ends (forEach body values) state (fun _ => Inv []) stops := by
  induction values generalizing state with
  | nil => exact hstart
  | cons value rest ih =>
    rw [forEach, ends_bind]
    exact ends_mono (hbody value rest state hstart) fun _ _ hrest => ih hrest

/-- The code leads from `pre` to `after`, and it stops for no reason outside
`stops`. -/
def Leads (stops : Stop → Prop) (pre : S → Prop) (after : A → S → Prop)
    (code : Code S A) : Prop :=
  ∀ state, pre state → ends code state after stops

abbrev Keeps (stops : Stop → Prop) (Inv : S → Prop) (code : Code S A) : Prop :=
  Leads stops Inv (fun _ => Inv) code

theorem leads_pure (value : A) : Keeps stops pre (pure value : Code S A) :=
  fun _ hpre => hpre

theorem leads_bind (hfirst : Leads stops pre middle first)
    (hnext : ∀ value, Leads stops (middle value) after (next value)) :
    Leads stops pre after (first >>= next) := fun state hpre =>
  ends_seq (hfirst state hpre) hnext

theorem leads_read_bind {next : S → Code S B}
    (hnext : ∀ state, Leads stops pre after (next state)) :
    Leads stops pre after (read >>= next) := fun state => hnext state state

theorem leads_stop (hreason : stops reason) :
    Leads stops pre after (stop reason) := fun _ _ => hreason

theorem leads_panic {message : String} (hmessage : stops (.panic message)) :
    Leads stops pre after (panic message) := fun _ _ => hmessage

theorem leads_ite {cond : Prop} [Decidable cond] {yes no : Code S B}
    (hyes : Leads stops pre after yes) (hno : Leads stops pre after no) :
    Leads stops pre after (if cond then yes else no) := by
  split
  · exact hyes
  · exact hno

theorem leads_when {cond : Prop} [Decidable cond] {code : Code S Unit}
    (hcode : Keeps stops pre code) : Keeps stops pre (when cond code) :=
  leads_ite hcode (leads_pure ())

variable {body : B → Code S Unit}

theorem leads_whenSome (hbody : ∀ value, Keeps stops pre (body value))
    (value : Option B) : Keeps stops pre (whenSome value body) := by
  cases value with
  | none => exact leads_pure ()
  | some value => exact hbody value

theorem leads_forEach (hbody : ∀ value, Keeps stops pre (body value))
    (values : List B) : Keeps stops pre (forEach body values) := by
  induction values with
  | nil => exact leads_pure ()
  | cons value rest ih => exact leads_bind (hbody value) fun _ => ih

theorem Leads.imp {after : A → S → Prop} (hcode : Leads stops pre middle code)
    (himp : ∀ value state, middle value state → after value state) :
    Leads stops pre after code := fun state hpre =>
  ends_mono (hcode state hpre) himp

/-- Code that never stops for a reason outside `stops`, from any state. -/
abbrev Quiet (stops : Stop → Prop) (code : Code S A) : Prop :=
  Keeps stops (fun _ => True) code

theorem quiet_update (change : S → S) : Quiet stops (update change) :=
  fun _ _ => trivial

/-- Quiet code ends as its partial correctness says. -/
theorem Quiet.ends (hquiet : Quiet stops code) (hcode : wlp code state post) :
    ends code state post stops :=
  ends_of_wlp hcode fun _ hrun => ends_error (hquiet state trivial) hrun

end Leads

/-- Code whose effect on the state is within the relation `R`. -/
def Respects (R : S → S → Prop) (code : Code S A) : Prop :=
  ∀ state, wlp code state (fun _ state' => R state state')

section Respects

variable {R : S → S → Prop}

/-- The state that was read may be used in the argument. -/
theorem respects_read_bind {next : S → Code S B} (hnext : ∀ state, Respects R (next state)) :
    Respects R (read >>= next) := fun state => hnext state state

theorem respects_update {change : S → S} (hchange : ∀ state, R state (change state)) :
    Respects R (update change) := fun state => wlp_update.mpr (hchange state)

theorem respects_panic (message : String) :
    Respects R (panic message : Code S A) := fun _ => wlp_panic.mpr trivial

theorem respects_ite {cond : Prop} [Decidable cond] {yes no : Code S A}
    (hyes : Respects R yes) (hno : Respects R no) : Respects R (if cond then yes else no) := by
  split
  · exact hyes
  · exact hno

variable [IsPreorder S R]

theorem respects_pure (value : A) : Respects R (pure value : Code S A) :=
  fun state => (wlp_pure value).mpr (refl state)

theorem respects_bind {first : Code S A} {next : A → Code S B} (hfirst : Respects R first)
    (hnext : ∀ value, Respects R (next value)) : Respects R (first >>= next) := fun state =>
  wlp_bind.mpr (wlp_mono (hfirst state) fun value middle hmiddle =>
    wlp_mono (hnext value middle) fun _ _ hfinal => trans_of R hmiddle hfinal)

theorem respects_whenSome (hbody : ∀ value, Respects R (body value))
    (value : Option B) : Respects R (whenSome value body) := by
  cases value with
  | none => exact respects_pure ()
  | some value => exact hbody value

end Respects

/-- A Hoare triple whose postcondition does not speak of the result. -/
def Triple (pre after : S → Prop) (code : Code S A) : Prop :=
  ∀ state, pre state → wlp code state (fun _ => after)

section Triple

variable {pre middle after : S → Prop}

theorem triple_pure (value : A) : Triple pre pre (pure value : Code S A) :=
  fun _ hpre => (wlp_pure value).mpr hpre

theorem triple_panic (message : String) : Triple pre after (panic message : Code S A) := fun _ _ =>
  wlp_panic.mpr trivial

theorem triple_bind (hfirst : Triple pre middle first)
    (hnext : ∀ value, Triple middle after (next value)) :
    Triple pre after (first >>= next) := fun state hpre =>
  wlp_seq (hfirst state hpre) hnext

theorem triple_read_bind {next : S → Code S B} (hnext : ∀ state, Triple pre after (next state)) :
    Triple pre after (read >>= next) := fun state => hnext state state

theorem triple_ite {cond : Prop} [Decidable cond] {yes no : Code S A} (hyes : Triple pre after yes)
    (hno : Triple pre after no) : Triple pre after (if cond then yes else no) := by
  split
  · exact hyes
  · exact hno

/-- A loop keeps what each of its iterations keeps. -/
theorem triple_forEach (hbody : ∀ value, Triple pre pre (body value))
    (values : List B) : Triple pre pre (forEach body values) := by
  induction values with
  | nil => exact triple_pure ()
  | cons value rest ih => exact triple_bind (hbody value) fun _ => ih

end Triple

instance wp.decidable [∀ value state, Decidable (post value state)] :
    Decidable (wp code state post) :=
  match hcode : code state with
  | .ok (value, state') => decidable_of_iff (post value state')
      ⟨fun hpost => ⟨value, state', hcode, hpost⟩, fun ⟨_, _, hrun, hpost⟩ => by
        cases hcode.symm.trans hrun
        exact hpost⟩
  | .error _ => isFalse fun ⟨_, _, hrun, _⟩ => by cases hcode.symm.trans hrun

/-- What `view` shows of a run that returns. -/
def outcome (view : A → S → B) (run : Except Stop (A × S)) : Option B :=
  match run with
  | .ok (value, state) => some (view value state)
  | .error _ => none

theorem outcome_eq_some {view : A → S → B} {run : Except Stop (A × S)}
    {seen : B} (hseen : outcome view run = some seen) :
    ∃ value state, run = .ok (value, state) ∧ view value state = seen := by
  cases run with
  | error reason => cases hseen
  | ok result =>
    obtain ⟨value, state⟩ := result
    exact ⟨value, state, rfl, Option.some.inj hseen⟩

/-- Why a run did not return. -/
def stopped (run : Except Stop (A × S)) : Option Stop :=
  match run with
  | .ok _ => none
  | .error reason => some reason

theorem stopped_eq_some {run : Except Stop (A × S)}
    (hstopped : stopped run = some reason) : run = .error reason := by
  cases run with
  | ok result => cases hstopped
  | error other =>
    cases hstopped
    rfl

/-- A counting loop that returns: iteration `i` leads from `Inv i` to
`Inv (i + 1)`. -/
theorem wp_forEach_range {body : Nat → Code S Unit} {count : Nat} {Inv : Nat → S → Prop}
    (hbody : ∀ i < count, ∀ state, Inv i state → wp (body i) state (fun _ => Inv (i + 1)))
    {state : S} (hstart : Inv 0 state) :
    wp (forEach body (List.range count)) state (fun _ => Inv count) := by
  have hfrom : ∀ left start state, start + left ≤ count → Inv start state →
      wp (forEach body (List.range' start left)) state (fun _ => Inv (start + left)) := by
    intro left
    induction left with
    | zero => exact fun start state _ hinv => (wp_pure ()).mpr hinv
    | succ left ih =>
      intro start state hle hinv
      rw [List.range'_succ, forEach, wp_bind]
      refine wp_mono (hbody start (by omega) state hinv) ?_
      intro _ middle hmiddle
      have hrest := ih (start + 1) middle (by omega) hmiddle
      rwa [show start + 1 + left = start + (left + 1) by omega] at hrest
  rw [List.range_eq_range']
  simpa using hfrom count 0 state (by omega) hstart

end Code
