/-
Descriptor tables: descriptors refer to open objects, and an object has a
position that every transfer through one of its descriptors moves.  Two tables
answer every sequence of calls alike exactly if the same descriptors share.
-/
import Mathlib.Logic.Function.Basic

namespace Descriptors

open Function (update_of_ne update_self)

variable {Fd Obj Obj' Attr Pos Req Resp World : Type}

/-- A descriptor is free, refers to an object, or is taken by something that has
no position. -/
@[ext]
structure Table (Fd Obj Attr Pos : Type) where
  slot : Fd → Option (Option Obj)
  attr : Obj → Attr
  pos : Obj → Pos

inductive Call (Fd Req : Type) where
  | transfer (i : Fd) (req : Req)
  | dup (i : Fd)
  | close (i : Fd)

inductive Answer (Fd Resp : Type) where
  | moved (resp : Resp)
  | opened (i : Fd)
  | closed
  | failed
deriving DecidableEq

/-- What a transfer does: the answer, the new position and the new state of what
is outside the table. -/
def Transfer (Attr Pos Req Resp World : Type) : Type :=
  Attr → Pos → Req → World → Resp × Pos × World

def Table.move [DecidableEq Obj] (table : Table Fd Obj Attr Pos) (o : Obj)
    (pos : Pos) : Table Fd Obj Attr Pos :=
  { table with pos := Function.update table.pos o pos }

def Table.put [DecidableEq Fd] (table : Table Fd Obj Attr Pos) (i : Fd)
    (entry : Option (Option Obj)) : Table Fd Obj Attr Pos :=
  { table with slot := Function.update table.slot i entry }

/-- The first descriptor of `fds` that is free. -/
def Table.lowest (table : Table Fd Obj Attr Pos) (fds : List Fd) : Option Fd :=
  fds.find? (fun i => (table.slot i).isNone)

section Step

variable [DecidableEq Fd] [DecidableEq Obj]

/-- One call.  `dup` takes the first free descriptor of `fds`. -/
def step (io : Transfer Attr Pos Req Resp World) (fds : List Fd)
    (table : Table Fd Obj Attr Pos) (world : World) :
    Call Fd Req → Answer Fd Resp × Table Fd Obj Attr Pos × World
  | .transfer i req =>
    match table.slot i with
    | some (some o) =>
      let result := io (table.attr o) (table.pos o) req world
      (.moved result.1, table.move o result.2.1, result.2.2)
    | _ => (.failed, table, world)
  | .dup i =>
    match table.slot i with
    | none => (.failed, table, world)
    | some entry =>
      match table.lowest fds with
      | none => (.failed, table, world)
      | some j => (.opened j, table.put j (some entry), world)
  | .close i =>
    match table.slot i with
    | none => (.failed, table, world)
    | some _ => (.closed, table.put i none, world)

def answers (io : Transfer Attr Pos Req Resp World) (fds : List Fd) :
    Table Fd Obj Attr Pos → World → List (Call Fd Req) → List (Answer Fd Resp)
  | _, _, [] => []
  | table, world, call :: rest =>
    let next := step io fds table world call
    next.1 :: answers io fds next.2.1 next.2.2 rest

end Step

/-- Entry by entry the tables are the same, but for the objects. -/
structure Table.Matches (table : Table Fd Obj Attr Pos)
    (table' : Table Fd Obj' Attr Pos) : Prop where
  free : ∀ i, table.slot i = none ↔ table'.slot i = none
  plain : ∀ i, table.slot i = some none ↔ table'.slot i = some none
  attr : ∀ i o o', table.slot i = some (some o) →
    table'.slot i = some (some o') → table'.attr o' = table.attr o
  pos : ∀ i o o', table.slot i = some (some o) →
    table'.slot i = some (some o') → table'.pos o' = table.pos o

/-- The same descriptors share an object. -/
def Table.SharesLike (table : Table Fd Obj Attr Pos)
    (table' : Table Fd Obj' Attr Pos) : Prop :=
  ∀ i j o q o' q', table.slot i = some (some o) → table.slot j = some (some q) →
    table'.slot i = some (some o') → table'.slot j = some (some q') → (o = q ↔ o' = q')

section Alike

variable {table : Table Fd Obj Attr Pos} {table' : Table Fd Obj' Attr Pos}

/-- A descriptor of the one table and that of the other. -/
theorem Table.Matches.slots (hmatch : table.Matches table') (i : Fd) :
    (table.slot i = none ∧ table'.slot i = none) ∨
      (table.slot i = some none ∧ table'.slot i = some none) ∨
      ∃ o o', table.slot i = some (some o) ∧ table'.slot i = some (some o') := by
  rcases hslot : table.slot i with _ | _ | o
  · exact Or.inl ⟨rfl, (hmatch.free i).mp hslot⟩
  · exact Or.inr (Or.inl ⟨rfl, (hmatch.plain i).mp hslot⟩)
  · rcases hslot' : table'.slot i with _ | _ | o'
    · rw [(hmatch.free i).mpr hslot'] at hslot
      cases hslot
    · rw [(hmatch.plain i).mpr hslot'] at hslot
      cases hslot
    · exact Or.inr (Or.inr ⟨o, o', rfl, rfl⟩)

theorem Table.Matches.lowest (hmatch : table.Matches table') (fds : List Fd) :
    table'.lowest fds = table.lowest fds := by
  have hsame : (fun i => (table'.slot i).isNone) = fun i => (table.slot i).isNone := by
    funext i
    rw [Bool.eq_iff_iff, Option.isNone_iff_eq_none, Option.isNone_iff_eq_none]
    exact (hmatch.free i).symm
  rw [Table.lowest, Table.lowest, hsame]

/-- An object is moved in both. -/
theorem Table.Matches.move [DecidableEq Obj] [DecidableEq Obj'] (hmatch : table.Matches table')
    (hshare : table.SharesLike table') {i : Fd} {o : Obj} {o' : Obj'}
    (ho : table.slot i = some (some o)) (ho' : table'.slot i = some (some o')) (pos : Pos) :
    (table.move o pos).Matches (table'.move o' pos) := by
  refine ⟨hmatch.free, hmatch.plain, hmatch.attr, ?_⟩
  intro k q q' hq hq'
  have hsame := hshare i k o q o' q' ho hq ho' hq'
  by_cases heq : o = q
  · simp [Table.move, ← heq, ← hsame.mp heq]
  · have hne : o' ≠ q' := fun h => heq (hsame.mpr h)
    simp only [Table.move, update_of_ne (Ne.symm heq), update_of_ne (Ne.symm hne)]
    exact hmatch.pos k q q' hq hq'

/-- A descriptor is closed in both. -/
theorem Table.Matches.close [DecidableEq Fd] (hmatch : table.Matches table')
    (hshare : table.SharesLike table') (i : Fd) : (table.put i none).Matches (table'.put i none) ∧
      (table.put i none).SharesLike (table'.put i none) := by
  have hput : ∀ k o, (table.put i none).slot k = some (some o) → table.slot k = some (some o) := by
    intro k o hslot
    by_cases hk : k = i
    · rw [hk] at hslot
      simp [Table.put] at hslot
    · simpa [Table.put, update_of_ne hk] using hslot
  have hput' : ∀ k o, (table'.put i none).slot k = some (some o) →
      table'.slot k = some (some o) := by
    intro k o hslot
    by_cases hk : k = i
    · rw [hk] at hslot
      simp [Table.put] at hslot
    · simpa [Table.put, update_of_ne hk] using hslot
  refine ⟨⟨?_, ?_, ?_, ?_⟩, ?_⟩
  · intro k
    by_cases hk : k = i
    · simp [Table.put, hk]
    · simpa [Table.put, update_of_ne hk] using hmatch.free k
  · intro k
    by_cases hk : k = i
    · simp [Table.put, hk]
    · simpa [Table.put, update_of_ne hk] using hmatch.plain k
  · exact fun k o o' ho ho' => hmatch.attr k o o' (hput k o ho) (hput' k o' ho')
  · exact fun k o o' ho ho' => hmatch.pos k o o' (hput k o ho) (hput' k o' ho')
  · exact fun k l o q o' q' ho hq ho' hq' => hshare k l o q o' q' (hput k o ho)
      (hput l q hq) (hput' k o' ho') (hput' l q' hq')

/-- A descriptor is dupped in both. -/
theorem Table.Matches.dup [DecidableEq Fd] (hmatch : table.Matches table')
    (hshare : table.SharesLike table') {i j : Fd} {entry : Option Obj} {entry' : Option Obj'}
    (hentry : table.slot i = some entry) (hentry' : table'.slot i = some entry') :
    (table.put j (some entry)).Matches (table'.put j (some entry')) ∧
      (table.put j (some entry)).SharesLike (table'.put j (some entry')) := by
  -- every descriptor of the new tables stands for one of the old ones
  let old := fun k => if k = j then i else k
  have hold : ∀ k, (table.put j (some entry)).slot k = table.slot (old k) := by
    intro k
    by_cases hk : k = j
    · simp [Table.put, old, hk, hentry]
    · simp [Table.put, old, hk]
  have hold' : ∀ k, (table'.put j (some entry')).slot k = table'.slot (old k) := by
    intro k
    by_cases hk : k = j
    · simp [Table.put, old, hk, hentry']
    · simp [Table.put, old, hk]
  refine ⟨⟨?_, ?_, ?_, ?_⟩, ?_⟩
  · intro k
    rw [hold, hold']
    exact hmatch.free (old k)
  · intro k
    rw [hold, hold']
    exact hmatch.plain (old k)
  · intro k o o' ho ho'
    rw [hold] at ho
    rw [hold'] at ho'
    exact hmatch.attr (old k) o o' ho ho'
  · intro k o o' ho ho'
    rw [hold] at ho
    rw [hold'] at ho'
    exact hmatch.pos (old k) o o' ho ho'
  · intro k l o q o' q' ho hq ho' hq'
    rw [hold] at ho hq
    rw [hold'] at ho' hq'
    exact hshare (old k) (old l) o q o' q' ho hq ho' hq'

variable [DecidableEq Fd] [DecidableEq Obj] [DecidableEq Obj']

/-- Tables that match and share alike answer alike. -/
theorem answers_eq (io : Transfer Attr Pos Req Resp World) (fds : List Fd)
    (calls : List (Call Fd Req)) (world : World)
    (hmatch : table.Matches table') (hshare : table.SharesLike table') :
    answers io fds table' world calls = answers io fds table world calls := by
  induction calls generalizing table table' world with
  | nil => rfl
  | cons call rest ih =>
    unfold answers
    cases call with
    | transfer i req =>
      rcases hmatch.slots i with ⟨h, h'⟩ | ⟨h, h'⟩ | ⟨o, o', h, h'⟩
      · simp only [step, h, h']
        rw [ih world hmatch hshare]
      · simp only [step, h, h']
        rw [ih world hmatch hshare]
      · simp only [step, h, h', hmatch.attr i o o' h h', hmatch.pos i o o' h h']
        rw [ih _ (hmatch.move hshare h h' _) hshare]
    | dup i =>
      rcases hmatch.slots i with ⟨h, h'⟩ | ⟨h, h'⟩ | ⟨o, o', h, h'⟩
      · simp only [step, h, h']
        rw [ih world hmatch hshare]
      all_goals
        simp only [step, h, h', hmatch.lowest fds]
        cases table.lowest fds with
        | none => rw [ih world hmatch hshare]
        | some j =>
          obtain ⟨hnext, hshare'⟩ := @Table.Matches.dup _ _ _ _ _ _ _ _ hmatch hshare i j _ _ h h'
          rw [ih world hnext hshare']
    | close i =>
      obtain ⟨hnext, hshare'⟩ := hmatch.close hshare i
      rcases hmatch.slots i with ⟨h, h'⟩ | ⟨h, h'⟩ | ⟨o, o', h, h'⟩
      · simp only [step, h, h']
        rw [ih world hmatch hshare]
      all_goals
        simp only [step, h, h']
        rw [ih world hnext hshare']

/-- Positions can be seen: a transfer that reports the position and moves on
tells whether two descriptors share. -/
theorem sharesLike_of_answers (fds : List Fd) (hmatch : table.Matches table')
    {next : Pos → Pos} (hnext : ∀ pos, next pos ≠ pos) (hanswers : ∀ calls : List (Call Fd Unit),
      answers (fun _ pos _ (world : Unit) => (pos, next pos, world)) fds table' () calls =
      answers (fun _ pos _ (world : Unit) => (pos, next pos, world)) fds table
        () calls) : table.SharesLike table' := by
  intro i j o q o' q' ho hq ho' hq'
  have hseen := hanswers [.transfer i (), .transfer j ()]
  simp only [answers, step, ho, ho', Table.move, hq, hq', List.cons.injEq,
    Answer.moved.injEq, and_true] at hseen
  obtain ⟨hfirst, hsecond⟩ := hseen
  by_cases heq : o = q
  · by_cases heq' : o' = q'
    · exact ⟨fun _ => heq', fun _ => heq⟩
    · subst heq
      rw [update_self, update_of_ne (Ne.symm heq'), hmatch.pos j o q' hq hq'] at hsecond
      exact absurd hsecond.symm (hnext _)
  · by_cases heq' : o' = q'
    · subst heq'
      rw [update_self, update_of_ne (Ne.symm heq), ← hmatch.pos j q o' hq hq'] at hsecond
      exact absurd hsecond (hnext _)
    · exact ⟨fun h => absurd h heq, fun h => absurd h heq'⟩

end Alike

end Descriptors
