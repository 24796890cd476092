/-
What directories are for: a tree of names over the inodes.  An inode is seen
here without its data, and a directory as the list of its entries.
-/
import CkptKernel.Directory

namespace CkptKernel

/-- A directory entry.  The inode number of an empty place is zero. -/
structure Entry where
  name : Name
  inum : Nat
deriving DecidableEq, Repr

def Entry.empty : Entry := ⟨[], 0⟩

/-- Write place `k` of a list of entries, which may be the one after the last.
-/
def putEntry (k : Nat) (e : Entry) (entries : List Entry) : List Entry :=
  entries.take k ++ e :: entries.drop (k + 1)

/-- The list around place `k`. -/
theorem split_at (k : Nat) (entries : List Entry) :
    entries = entries.take k ++ (entries[k]?.toList ++ entries.drop (k + 1)) := by
  conv_lhs => rw [← List.take_append_drop k entries]
  congr 1
  rcases Nat.lt_or_ge k entries.length with hlt | hge
  · rw [List.getElem?_eq_getElem hlt, List.drop_eq_getElem_cons hlt]
    rfl
  · rw [List.getElem?_eq_none hge, List.drop_eq_nil_of_le hge,
      List.drop_eq_nil_of_le (Nat.le_succ_of_le hge)]
    rfl

/-- An inode without its data. -/
structure Node where
  kind : UInt16
  links : UInt16
  entries : List Entry
deriving DecidableEq

namespace Node

def free : Node := ⟨0, 0, []⟩

def put (node : Node) (k : Nat) (e : Entry) (links : UInt16) : Node :=
  ⟨node.kind, links, putEntry k e node.entries⟩

def withLinks (node : Node) (links : UInt16) : Node :=
  ⟨node.kind, links, node.entries⟩

end Node

/-- The inodes of a disk, by number. -/
abbrev View := Nat → Node

namespace View

def lookup (v : View) (d : Nat) (name : Name) : Option Entry :=
  (v d).entries.find? (fun e => decide (e.inum ≠ 0 ∧ e.name = cname name))

/-- Follow a path from inode `x`: the inode it names, or its parent and the
last element. -/
def walk (v : View) (parent : Bool) : Nat → Nat → Name → Option (Nat × Name)
  | 0, _, _ => none
  | fuel + 1, x, path =>
    match skipelem path with
    | none => if parent then none else some (x, [])
    | some (name, rest) =>
      if (v x).kind ≠ T_DIR then none
      else if parent = true ∧ rest = [] then some (x, name)
      else
        match v.lookup x name with
        | none => none
        | some e => v.walk parent fuel e.inum rest

/-- Every entry of every directory names an allocated inode. -/
def Closed (v : View) : Prop :=
  ∀ d, (v d).kind = T_DIR → ∀ e ∈ (v d).entries, e.inum ≠ 0 → (v e.inum).kind ≠ 0

/-- Where `dirlink` may write the name `name`: at an empty place or the end of
a directory that does not have the name. -/
structure Room (node : Node) (k : Nat) (name : Name) : Prop where
  kind : node.kind = T_DIR
  inside : k ≤ node.entries.length
  empty : ∀ e, node.entries[k]? = some e → e.inum = 0
  fresh : ∀ e ∈ node.entries, e.inum ≠ 0 → e.name ≠ name

/-- A name is written to place `k` of directory `d`. -/
def enter (v : View) (d k : Nat) (e : Entry) : View :=
  Function.update v d ((v d).put k e (v d).links)

theorem fresh_of_lookup {v : View} {d : Nat} {name : Name} (hnone : v.lookup d name = none) :
    ∀ e ∈ (v d).entries, e.inum ≠ 0 → e.name ≠ cname name := by
  intro e hmem hne heq
  have hnot := List.find?_eq_none.mp hnone e hmem
  rw [decide_eq_true_eq] at hnot
  exact hnot ⟨hne, heq⟩

end View

end CkptKernel
