/-
Radix trees in a store of nodes.  A node has a word for every index.  Above the
lowest level a word may refer to a node of the level below; at the lowest level
the valid words are the values.  Keys give an index at every level.
-/
import CkptKernel.Lib.TableSum

namespace RadixTree

open Function (update update_of_ne update_self)

/-- What the nodes hold, and the nodes that are free. -/
structure Heap (Node Index Word : Type) where
  store : Node → Index → Word
  free : List Node

/-- How words and keys are read. -/
structure Scheme (Node Index Word Key : Type) where
  /-- The node that a valid word refers to. -/
  child : Word → Option Node
  index : Nat → Key → Index
  /-- Words that may stand above the lowest level. -/
  bare : Word → Prop

variable {Node Index Word Key : Type} [DecidableEq Node]

/-- Store the same word at every index of a node. -/
def Heap.fill (heap : Heap Node Index Word) (node : Node) (word : Word) : Heap Node Index Word :=
  { heap with store := update heap.store node fun _ => word }

def Heap.set [DecidableEq Index] (heap : Heap Node Index Word) (node : Node)
    (i : Index) (word : Word) : Heap Node Index Word :=
  { heap with
    store := update heap.store node
      (update (heap.store node) i word) }

namespace Scheme

variable (L : Scheme Node Index Word Key) (heap : Heap Node Index Word)

/-- Where the value of a key is, if there are nodes on the way to it. -/
def place : Nat → Node → Key → Option (Node × Index)
  | 0, root, key => some (root, L.index 0 key)
  | level + 1, root, key =>
    (L.child (heap.store root (L.index (level + 1) key))).bind fun next =>
      place level next key

def valid (word : Word) : Option Word := (L.child word).map fun _ => word

def look (level : Nat) (root : Node) (key : Key) : Option Word :=
  (L.place heap level root key).bind fun slot =>
    L.valid (heap.store slot.1 slot.2)

/-- Every word that refers to a node from above the lowest level is bare. -/
def Shaped : Nat → Node → Prop
  | 0, _ => True
  | level + 1, root => ∀ i next, L.child (heap.store root i) = some next →
      L.bare (heap.store root i) ∧ Shaped level next

def Leafless : Nat → Node → Prop
  | 0, root => ∀ i, L.child (heap.store root i) = none
  | level + 1, root => ∀ i next, L.child (heap.store root i) = some next →
      Leafless level next

/-- How often a node occurs in the tree below `root`. -/
def occurs [Fintype Index] : Nat → Node → Node → Nat
  | 0, root, node => if node = root then 1 else 0
  | level + 1, root, node => (if node = root then 1 else 0) +
      ∑ i, (L.child (heap.store root i)).elim 0 fun next =>
        occurs level next node

/-- How often a node occurs below one index. -/
def below [Fintype Index] (level : Nat) (root : Node) (i : Index)
    (node : Node) : Nat :=
  (L.child (heap.store root i)).elim 0 fun next =>
    L.occurs heap level next node

/-- A tree, of which no node is shared or free. -/
structure Tree [Fintype Index] (level : Nat) (root : Node) : Prop where
  shaped : L.Shaped heap level root
  once : ∀ node, L.occurs heap level root node + heap.free.count node ≤ 1

variable {L heap} {heap' : Heap Node Index Word} {level : Nat} {root : Node}
  {i : Index} {next node : Node} {key : Key} {values : Key → Option Word}

omit [DecidableEq Node] in
theorem look_succ : L.look heap (level + 1) root key =
    (L.child (heap.store root (L.index (level + 1) key))).bind fun next =>
      L.look heap level next key :=
  Option.bind_assoc _ _ _

omit [DecidableEq Node] in
theorem Leafless.look (hleafless : L.Leafless heap level root) (key : Key) :
    L.look heap level root key = none := by
  induction level generalizing root with
  | zero => simp [Scheme.look, place, valid, hleafless (L.index 0 key)]
  | succ level ih =>
    rw [look_succ]
    cases hnext : L.child (heap.store root (L.index (level + 1) key)) with
    | none => rfl
    | some next => exact ih (hleafless _ next hnext)

section Occurs

variable [Fintype Index]

theorem occurs_root : 0 < L.occurs heap level root root := by
  cases level <;> simp [occurs]

theorem below_eq (hnext : L.child (heap.store root i) = some next) :
    L.below heap level root i node = L.occurs heap level next node := by
  rw [below, hnext]
  rfl

variable (L heap level root node)

theorem root_add_below_le (i : Index) :
    (if node = root then 1 else 0) + L.below heap level root i node ≤
      L.occurs heap (level + 1) root node :=
  Nat.add_le_add_left (TableSum.le_sum (fun j => L.below heap level root j node) id i) _

/-- What is below one index, and below the others. -/
theorem occurs_split [DecidableEq Index] (i : Index) :
    L.occurs heap (level + 1) root node = (if node = root then 1 else 0) +
      (L.below heap level root i node +
        ∑ j ∈ Finset.univ.erase i, L.below heap level root j node) := by
  rw [Finset.add_sum_erase _ (fun j => L.below heap level root j node) (Finset.mem_univ i)]
  rfl

theorem below_add_below_le [DecidableEq Index] {i j : Index} (hne : j ≠ i) :
    (if node = root then 1 else 0) + (L.below heap level root i node +
      L.below heap level root j node) ≤ L.occurs heap (level + 1) root node :=
  Nat.add_le_add_left (TableSum.add_le_sum (fun j => L.below heap level root j node) id hne) _

variable {L heap level root node}

/-- A node without children. -/
theorem occurs_blank (hblank : ∀ i, L.child (heap.store root i) = none) :
    L.occurs heap level root node = if node = root then 1 else 0 := by
  cases level <;> simp [occurs, hblank]

theorem Tree.child (htree : L.Tree heap (level + 1) root)
    (hnext : L.child (heap.store root i) = some next) : L.Tree heap level next where
  shaped := (htree.shaped i next hnext).2
  once node := by
    have hle := L.root_add_below_le heap level root node i
    have := htree.once node
    rw [below_eq hnext] at hle
    omega

theorem occurs_place {slot : Node × Index} (hplace : L.place heap level root key = some slot) :
    0 < L.occurs heap level root slot.1 := by
  induction level generalizing root with
  | zero =>
    cases hplace
    exact occurs_root
  | succ level ih =>
    obtain ⟨next, hnext, hplace⟩ := Option.bind_eq_some_iff.mp hplace
    have hle := L.root_add_below_le heap level root slot.1 (L.index (level + 1) key)
    have := ih hplace
    rw [below_eq hnext] at hle
    omega

/-- Keys with one place are the same at every level. -/
theorem Tree.place_inj (htree : L.Tree heap level root) {key' : Key}
    {slot : Node × Index} (hplace : L.place heap level root key = some slot)
    (hplace' : L.place heap level root key' = some slot) :
    ∀ l ≤ level, L.index l key = L.index l key' := by
  classical
  induction level generalizing root with
  | zero =>
    cases hplace
    intro l hl
    rw [Nat.le_zero.mp hl]
    exact (congrArg Prod.snd (Option.some.inj hplace')).symm
  | succ level ih =>
    obtain ⟨next, hnext, hplace⟩ := Option.bind_eq_some_iff.mp hplace
    obtain ⟨next', hnext', hplace'⟩ := Option.bind_eq_some_iff.mp hplace'
    have hindex : L.index (level + 1) key = L.index (level + 1) key' := by
      by_contra hne
      have hle := L.below_add_below_le heap level root slot.1 hne
      have hpos := occurs_place hplace
      have hpos' := occurs_place hplace'
      have := htree.once slot.1
      rw [below_eq hnext, below_eq hnext'] at hle
      omega
    rw [← hindex, hnext] at hnext'
    cases hnext'
    intro l hl
    rcases Nat.le_succ_iff.mp hl with hl | rfl
    · exact ih (htree.child hnext) hplace hplace' l hl
    · exact hindex

/-! ### Editing -/

variable (L heap heap' level root)

/-- A tree that is not touched. -/
structure Same : Prop where
  occurs : L.occurs heap' level root = L.occurs heap level root
  look : L.look heap' level root = L.look heap level root
  shaped : L.Shaped heap level root → L.Shaped heap' level root

/-- A tree after an edit that moves nodes between it and the free list only.
Its values are `values` now. -/
structure Edited (values : Key → Option Word) : Prop where
  shaped : L.Shaped heap' level root
  look : ∀ key, L.look heap' level root key = values key
  count : ∀ node, L.occurs heap' level root node + heap'.free.count node =
    L.occurs heap level root node + heap.free.count node
  keeps : ∀ node, L.occurs heap level root node = 0 →
    heap.free.count node = 0 → heap'.store node = heap.store node

variable {L heap heap' level root}

theorem same_of_agree (hagree : ∀ node, 0 < L.occurs heap level root node →
    heap'.store node = heap.store node) : L.Same heap heap' level root := by
  have hroot := hagree root occurs_root
  induction level generalizing root with
  | zero =>
    refine ⟨rfl, funext fun key => ?_, id⟩
    simp only [Scheme.look, place, Option.bind_some, hroot]
  | succ level ih =>
    have hchild : ∀ i next, L.child (heap.store root i) = some next →
        L.Same heap heap' level next := by
      intro i next hnext
      have hsub : ∀ node, 0 < L.occurs heap level next node →
          heap'.store node = heap.store node := by
        intro node hpos
        have hle := L.root_add_below_le heap level root node i
        rw [below_eq hnext] at hle
        exact hagree node (by omega)
      exact ih hsub (hsub next occurs_root)
    refine ⟨funext fun node => ?_, funext fun key => ?_, fun hshaped i next hnext => ?_⟩
    · unfold Scheme.occurs
      rw [hroot]
      refine congrArg _ (Finset.sum_congr rfl fun i _ => ?_)
      cases hnext : L.child (heap.store root i) with
      | none => rfl
      | some next => exact congrFun (hchild i next hnext).occurs node
    · rw [look_succ, look_succ, hroot]
      cases hnext : L.child (heap.store root (L.index (level + 1) key)) with
      | none => rfl
      | some next => exact congrFun (hchild _ next hnext).look key
    · rw [hroot] at hnext ⊢
      obtain ⟨hbare, hbelow⟩ := hshaped i next hnext
      exact ⟨hbare, (hchild i next hnext).shaped hbelow⟩

theorem Edited.refl (htree : L.Tree heap level root) :
    L.Edited heap heap level root (L.look heap level root) :=
  ⟨htree.shaped, fun _ => rfl, fun _ => rfl, fun _ _ _ => rfl⟩

theorem Edited.tree (hedit : L.Edited heap heap' level root values)
    (htree : L.Tree heap level root) : L.Tree heap' level root :=
  ⟨hedit.shaped, fun node => hedit.count node ▸ htree.once node⟩

theorem Edited.trans {heap₂ : Heap Node Index Word} {values₂ : Key → Option Word}
    (hfirst : L.Edited heap heap' level root values)
    (hnext : L.Edited heap' heap₂ level root values₂) : L.Edited heap heap₂ level root values₂ where
  shaped := hnext.shaped
  look := hnext.look
  count node := (hnext.count node).trans (hfirst.count node)
  keeps node hout hfree := by
    have := hfirst.count node
    rw [hnext.keeps node (by omega) (by omega), hfirst.keeps node hout hfree]

variable [DecidableEq Index]

/-- An edit below one index of the root. -/
theorem Tree.edit (htree : L.Tree heap (level + 1) root) (i : Index)
    (hroot : ∀ j, j ≠ i → heap'.store root j = heap.store root j)
    (hkeeps : ∀ node, node ≠ root → L.below heap level root i node = 0 →
      heap.free.count node = 0 → heap'.store node = heap.store node)
    (hcount : ∀ node, L.below heap' level root i node + heap'.free.count node =
      L.below heap level root i node + heap.free.count node)
    (hshaped : ∀ next, L.child (heap'.store root i) = some next →
      L.bare (heap'.store root i) ∧ L.Shaped heap' level next)
    (hlook : ∀ key, L.index (level + 1) key = i → L.look heap' (level + 1) root key = values key)
    (hrest : ∀ key, L.index (level + 1) key ≠ i → values key = L.look heap (level + 1) root key) :
    L.Edited heap heap' (level + 1) root values := by
  have hother : ∀ j, j ≠ i → ∀ next, L.child (heap.store root j) = some next →
      L.Same heap heap' level next := by
    intro j hne next hnext
    refine same_of_agree fun node hpos => ?_
    have hle := L.below_add_below_le heap level root node hne
    have := htree.once node
    rw [below_eq hnext] at hle
    refine hkeeps node (fun heq => ?_) (by omega) (by omega)
    rw [if_pos heq] at hle
    omega
  refine ⟨fun j next hnext => ?_, fun key => ?_, fun node => ?_, fun node hout hfree => ?_⟩
  · by_cases hji : j = i
    · subst hji
      exact hshaped next hnext
    · rw [hroot j hji] at hnext ⊢
      obtain ⟨hbare, hbelow⟩ := htree.shaped j next hnext
      exact ⟨hbare, (hother j hji next hnext).shaped hbelow⟩
  · by_cases hi : L.index (level + 1) key = i
    · exact hlook key hi
    · rw [hrest key hi, look_succ, look_succ, hroot _ hi]
      cases hnext : L.child (heap.store root (L.index (level + 1) key)) with
      | none => rfl
      | some next => exact congrFun (hother _ hi next hnext).look key
  · have hsum : ∑ j ∈ Finset.univ.erase i, L.below heap' level root j node =
        ∑ j ∈ Finset.univ.erase i, L.below heap level root j node := by
      refine Finset.sum_congr rfl fun j hj => ?_
      have hji := Finset.ne_of_mem_erase hj
      unfold below
      rw [hroot j hji]
      cases hnext : L.child (heap.store root j) with
      | none => rfl
      | some next => exact congrFun (hother j hji next hnext).occurs node
    have := hcount node
    rw [L.occurs_split heap' level root node i, hsum, L.occurs_split heap level root node i]
    omega
  · have hle := L.root_add_below_le heap level root node i
    refine hkeeps node (fun heq => ?_) (by omega) hfree
    rw [if_pos heq] at hle
    omega

section

variable (htree : L.Tree heap (level + 1) root) (hnext : L.child (heap.store root i) = some next)
  (hedit : L.Edited heap heap' level next values)
include htree hnext hedit

omit [DecidableEq Index] in
theorem Edited.root_eq : heap'.store root = heap.store root := by
  have hle := L.root_add_below_le heap level root root i
  have := htree.once root
  rw [below_eq hnext, if_pos rfl] at hle
  exact hedit.keeps root (by omega) (by omega)

/-- An edit of the tree below one index. -/
theorem Edited.child : L.Edited heap heap' (level + 1) root (fun key =>
      if L.index (level + 1) key = i then values key else L.look heap (level + 1) root key) := by
  have hroot := hedit.root_eq htree hnext
  have hnext' : L.child (heap'.store root i) = some next := by
    rw [hroot, hnext]
  refine htree.edit i (fun j _ => congrFun hroot j) ?_ ?_ ?_ ?_ ?_
  · intro node _ hout hfree
    exact hedit.keeps node (below_eq hnext ▸ hout) hfree
  · intro node
    rw [below_eq hnext', below_eq hnext]
    exact hedit.count node
  · intro other hother
    rw [hroot] at hother ⊢
    rw [hnext] at hother
    cases hother
    exact ⟨(htree.shaped i next hnext).1, hedit.shaped⟩
  · intro key hkey
    rw [if_pos hkey, look_succ, hkey, hnext']
    exact hedit.look key
  · exact fun key hkey => if_neg hkey

end

/-- A free node becomes a child. -/
theorem Tree.graft (htree : L.Tree heap (level + 1) root)
    (hnone : L.child (heap.store root i) = none) {rest : List Node}
    (hfree : heap.free = next :: rest) {word zero : Word}
    (hword : L.child word = some next) (hbare : L.bare word) (hzero : L.child zero = none) :
    L.Edited heap (({ heap with free := rest }.fill next zero).set root i word)
      (level + 1) root (L.look heap (level + 1) root) := by
  have hne : next ≠ root := by
    rintro rfl
    have hpos : 0 < L.occurs heap (level + 1) next next := occurs_root
    have := htree.once next
    rw [hfree, List.count_cons_self] at this
    omega
  have hkept : (({ heap with free := rest } : Heap Node Index Word).fill next
      zero).store root = heap.store root := update_of_ne hne.symm _ _
  generalize hedited : ({ heap with free := rest }.fill next zero).set root i word = heap'
  have hroot : heap'.store root = update (heap.store root) i word := by
    rw [← hedited, ← hkept]
    exact update_self _ _ _
  have hchild : L.child (heap'.store root i) = some next := by
    rw [hroot, update_self, hword]
  have hblank : ∀ j, L.child (heap'.store next j) = none := by
    intro j
    have hnew : heap'.store next = fun _ => zero := by
      rw [← hedited]
      exact (update_of_ne hne _ _).trans (update_self _ _ _)
    rw [hnew, hzero]
  refine htree.edit i ?_ ?_ ?_ ?_ ?_ fun _ _ => rfl
  · intro j hj
    rw [hroot, update_of_ne hj]
  · intro node hnode _ hcount
    rw [← hedited]
    refine (update_of_ne hnode _ _).trans (update_of_ne ?_ _ _)
    rintro rfl
    rw [hfree, List.count_cons_self] at hcount
    omega
  · intro node
    rw [below_eq hchild, occurs_blank hblank, below, hnone, hfree, List.count_cons, ← hedited]
    simp only [beq_iff_eq, Option.elim_none, eq_comm (a := node), Heap.set, Heap.fill]
    omega
  · intro other hother
    rw [hchild] at hother
    cases hother
    refine ⟨by rwa [hroot, update_self], ?_⟩
    cases level with
    | zero => trivial
    | succ level => exact fun j other hj => by simp [hblank j] at hj
  · intro key hkey
    rw [look_succ, look_succ, hkey, hchild, hnone]
    cases level with
    | zero => simp [look, place, valid, hblank]
    | succ level => simp [look_succ, hblank]

/-- The value of one key changes. -/
theorem Tree.put (htree : L.Tree heap level root) {slot : Node × Index}
    (hplace : L.place heap level root key = some slot) (word : Word) :
    L.Edited heap (heap.set slot.1 slot.2 word) level root (fun key' =>
      if ∀ l ≤ level, L.index l key' = L.index l key then L.valid word
      else L.look heap level root key') := by
  induction level generalizing root with
  | zero =>
    cases hplace
    refine ⟨trivial, fun key' => ?_, fun _ => rfl, fun node hout _ => ?_⟩
    · simp only [look, place, Option.bind_some, Heap.set, update_self, Nat.le_zero, forall_eq]
      by_cases hkey : L.index 0 key' = L.index 0 key
      · rw [if_pos hkey, hkey, update_self]
      · rw [if_neg hkey, update_of_ne hkey]
    · refine update_of_ne (fun heq => ?_) _ _
      rw [heq] at hout
      exact absurd hout occurs_root.ne'
  | succ level ih =>
    obtain ⟨next, hnext, hplace⟩ := Option.bind_eq_some_iff.mp hplace
    have hedit := Edited.child htree hnext (ih (htree.child hnext) hplace)
    refine ⟨hedit.shaped, fun key' => (hedit.look key').trans ?_, hedit.count, hedit.keeps⟩
    by_cases hkey : L.index (level + 1) key' = L.index (level + 1) key
    · rw [if_pos hkey, look_succ, hkey, hnext]
      refine if_congr ⟨fun hsame l hl => ?_, fun hsame l hl =>
        hsame l (Nat.le_succ_of_le hl)⟩ rfl rfl
      rcases Nat.le_succ_iff.mp hl with hl | rfl
      · exact hsame l hl
      · exact hkey
    · rw [if_neg hkey, if_neg fun hsame => hkey (hsame _ (Nat.le_refl _))]

end Occurs

end Scheme

end RadixTree
