/-
The free list of user/umalloc.c: a ring of blocks in the order of their
addresses, which `free` finds its place in and joins with its neighbours.
-/
import CkptKernel.Malloc.Arena

namespace CkptKernel.Malloc

open Code LinkedCells
open List (length_cons mem_append mem_cons mem_cons_of_mem mem_cons_self pairwise_append
  pairwise_cons)

/-- The address of a header and the number of headers in its block. -/
abbrev Block := Nat × Nat

/-- The end of a block; its header is part of it in any case. -/
def finish (block : Block) : Nat := block.1 + 16 * max 1 block.2

/-- The blocks are in order, and neither overlap nor touch. -/
def Gap (block other : Block) : Prop :=
  block.1 + 16 * block.2 < other.1 ∧ block.1 + 16 ≤ other.1

def Apart (block other : Block) : Prop :=
  finish block ≤ other.1 ∨ finish other ≤ block.1

instance (block other : Block) : Decidable (Gap block other) :=
  inferInstanceAs (Decidable (_ ∧ _))

instance (block other : Block) : Decidable (Apart block other) :=
  inferInstanceAs (Decidable (_ ∨ _))

/-- The ring of free blocks, from the static header on. -/
structure FreeList (base : Nat) (arena : Arena) (blocks : List Block) : Prop where
  head : ∃ rest, blocks = (base, 0) :: rest
  linked : Linked arena.ptr arena.size base blocks base
  sorted : blocks.Pairwise Gap
  freep : ∃ n, (arena.freep, n) ∈ blocks

section Place

variable {base bp limit : Nat} {arena : Arena} {blocks : List Block}

theorem Gap.lt {block other : Block} (hgap : Gap block other) : block.1 < other.1 := by
  unfold Gap at hgap
  omega

theorem FreeList.base_le (hlist : FreeList base arena blocks) {block : Block}
    (hblock : block ∈ blocks) : base ≤ block.1 := by
  obtain ⟨rest, rfl⟩ := hlist.head
  rcases mem_cons.mp hblock with rfl | hblock
  · exact Nat.le_refl _
  · exact Nat.le_of_lt ((pairwise_cons.mp hlist.sorted).1 block hblock).lt

/-- The loop of `free` ends at `p`. -/
def Ends (arena : Arena) (bp p : Nat) : Prop :=
  (p < bp ∧ bp < arena.ptr p) ∨ (arena.ptr p ≤ p ∧ (p < bp ∨ bp < arena.ptr p))

theorem findPlace_turn (arena : Arena) (bp turns p : Nat) : (Ends arena bp p →
      findPlace bp (turns + 1) p arena = .ok (p, arena)) ∧
    (¬ Ends arena bp p → findPlace bp (turns + 1) p arena =
      findPlace bp turns (arena.ptr p) arena) := by
  have hturn : findPlace bp (turns + 1) p arena =
      (if p < bp ∧ bp < arena.ptr p then (pure p : Code Arena Nat)
      else if arena.ptr p ≤ p ∧ (p < bp ∨ bp < arena.ptr p) then pure p
      else findPlace bp turns (arena.ptr p)) arena := rfl
  rw [hturn]
  unfold Ends
  constructor
  · intro hends
    split_ifs with hfirst hsecond
    · rfl
    · rfl
    · exact absurd hends (not_or.mpr ⟨hfirst, hsecond⟩)
  · intro hends
    obtain ⟨hfirst, hsecond⟩ := not_or.mp hends
    rw [if_neg hfirst, if_neg hsecond]

/-- Walking along cells, the loop ends at one of them if it can. -/
theorem findPlace_walk {cells : List Block} {p stop turns : Nat}
    (hlinked : Linked arena.ptr arena.size p cells stop)
    (hsome : ∃ cell ∈ cells, Ends arena bp cell.1)
    (hturns : cells.length ≤ turns) : ∃ cell ∈ cells, Ends arena bp cell.1 ∧
      findPlace bp turns p arena = .ok (cell.1, arena) := by
  induction cells generalizing p turns with
  | nil =>
    obtain ⟨cell, hcell, -⟩ := hsome
    cases hcell
  | cons first cells ih =>
    rw [length_cons] at hturns
    obtain ⟨turns, rfl⟩ : ∃ k, turns = k + 1 := ⟨turns - 1, by omega⟩
    obtain ⟨rfl, -, hrest⟩ := hlinked
    obtain ⟨hstop, hgo⟩ := findPlace_turn arena bp turns first.1
    by_cases hends : Ends arena bp first.1
    · exact ⟨first, mem_cons_self, hends, hstop hends⟩
    have hlater : ∃ cell ∈ cells, Ends arena bp cell.1 := by
      obtain ⟨cell, hcell, hcellEnds⟩ := hsome
      rcases mem_cons.mp hcell with rfl | hcell
      · exact absurd hcellEnds hends
      · exact ⟨cell, hcell, hcellEnds⟩
    have hroom : cells.length ≤ turns := Nat.le_of_succ_le_succ hturns
    obtain ⟨cell, hcell, hcellEnds, hfound⟩ := ih hrest hlater hroom
    rw [hgo hends]
    exact ⟨cell, mem_cons_of_mem first hcell, hcellEnds, hfound⟩

/-- Where the loop ends, the address of `bp` lies between two neighbours. -/
theorem FreeList.between (hlist : FreeList base arena blocks)
    (hbp : base < bp) {cell : Block} (hcell : cell ∈ blocks) (hends : Ends arena bp cell.1) :
    ∃ before rest, blocks = before ++ cell :: rest ∧ cell.1 < bp ∧
      ∀ block ∈ rest, bp < block.1 := by
  have hbase := hlist.base_le hcell
  unfold Ends at hends
  rcases hlist.linked.successor hcell with
    ⟨before, rfl, hnext⟩ | ⟨before, follower, rest, rfl, hnext⟩
  · exact ⟨before, [], rfl, by omega, nofun⟩
  have hsorted := hlist.sorted
  rw [pairwise_append, pairwise_cons, pairwise_cons] at hsorted
  obtain ⟨-, ⟨hcellGap, hfollower, -⟩, -⟩ := hsorted
  have hlt := (hcellGap follower mem_cons_self).lt
  refine ⟨before, follower :: rest, rfl, by omega, fun block hblock => ?_⟩
  rcases mem_cons.mp hblock with rfl | hblock
  · omega
  · have := (hfollower block hblock).lt
    omega

/-- Along cells that begin below `bp` there is a place for it. -/
theorem exists_ends_of_linked {first : Block} {cells : List Block} {p : Nat}
    (hlinked : Linked arena.ptr arena.size p (first :: cells) base)
    (hbase : ∀ cell ∈ first :: cells, base ≤ cell.1 ∧ cell.1 ≠ bp) (hfirst : first.1 < bp) :
    ∃ cell ∈ first :: cells, Ends arena bp cell.1 := by
  induction cells generalizing first p with
  | nil =>
    have hnext : arena.ptr first.1 = base := hlinked.2.2
    refine ⟨first, mem_cons_self, Or.inr ⟨?_, Or.inl hfirst⟩⟩
    rw [hnext]
    exact (hbase first mem_cons_self).1
  | cons follower cells ih =>
    have hnext : arena.ptr first.1 = follower.1 := hlinked.2.2.1
    by_cases hbelow : follower.1 < bp
    · obtain ⟨cell, hcell, hends⟩ := ih hlinked.2.2
        (fun cell hcell => hbase cell (mem_cons_of_mem first hcell))
        hbelow
      exact ⟨cell, mem_cons_of_mem first hcell, hends⟩
    · have hne := (hbase follower (by simp)).2
      refine ⟨first, mem_cons_self, Or.inl ⟨hfirst, ?_⟩⟩
      rw [hnext]
      omega

variable (hlist : FreeList base arena blocks) (hbp : base < bp)
  (hnew : ∀ block ∈ blocks, block.1 ≠ bp)
include hlist hbp hnew

theorem FreeList.exists_ends : ∃ cell ∈ blocks, Ends arena bp cell.1 := by
  have hbase : ∀ cell ∈ blocks, base ≤ cell.1 ∧ cell.1 ≠ bp :=
    fun cell hcell => ⟨hlist.base_le hcell, hnew cell hcell⟩
  have hlinked := hlist.linked
  obtain ⟨rest, rfl⟩ := hlist.head
  exact exists_ends_of_linked hlinked hbase hbp

/-- The loop finds the place of a new block. -/
theorem FreeList.findPlace_eq (hlimit : blocks.length ≤ limit) :
    ∃ before cell rest, blocks = before ++ cell :: rest ∧ cell.1 < bp ∧
      (∀ block ∈ rest, bp < block.1) ∧
      findPlace bp limit arena.freep arena = .ok (cell.1, arena) := by
  obtain ⟨n, hfreep⟩ := hlist.freep
  obtain ⟨others, hperm, hwalk⟩ := hlist.linked.around hfreep
  obtain ⟨target, htarget, htargetEnds⟩ := hlist.exists_ends hbp hnew
  obtain ⟨cell, hcell, hends, hfound⟩ := findPlace_walk hwalk
    ⟨target, hperm.mem_iff.mpr htarget, htargetEnds⟩
    (Nat.le_trans (Nat.le_of_eq hperm.length_eq) hlimit)
  obtain ⟨before, rest, hsplit, hlt, hrest⟩ :=
    hlist.between hbp (hperm.mem_iff.mp hcell) hends
  exact ⟨before, cell, rest, hsplit, hlt, hrest, hfound⟩

end Place

/-! ### Joining -/

section Join

variable {base bp n : Nat} {arena : Arena}

namespace Arena

theorem ptr_set_of_ne {p a : Nat} (header : Header) (hne : a ≠ p) :
    (arena.set p header).ptr a = arena.ptr a :=
  congrArg Header.ptr (Function.update_of_ne hne _ _)

theorem size_set_of_ne {p a : Nat} (header : Header) (hne : a ≠ p) :
    (arena.set p header).size a = arena.size a :=
  congrArg Header.size (Function.update_of_ne hne _ _)

@[simp] theorem ptr_set_self (p : Nat) (header : Header) :
    (arena.set p header).ptr p = header.ptr :=
  congrArg Header.ptr (Function.update_self _ _ _)

@[simp] theorem size_set_self (p : Nat) (header : Header) :
    (arena.set p header).size p = header.size :=
  congrArg Header.size (Function.update_self _ _ _)

end Arena

/-- Cells are not affected by a header elsewhere. -/
theorem linked_set {p stop a : Nat} {cells : List Block} {header : Header}
    (hlinked : Linked arena.ptr arena.size p cells stop) (hother : ∀ cell ∈ cells, cell.1 ≠ a) :
    Linked (arena.set a header).ptr (arena.set a header).size p cells stop :=
  hlinked.congr fun cell hcell =>
    ⟨Arena.ptr_set_of_ne header (hother cell hcell),
      Arena.size_set_of_ne header (hother cell hcell)⟩

/-- The new block with its right neighbour taken in, if they touch: `m` is its
size and `left` is what remains to the right. -/
structure Joined (bp n : Nat) (rest : List Block) (m : Nat)
    (left : List Block) : Prop where
  sublist : left.Sublist rest
  gap : ∀ block ∈ left, Gap (bp, m) block
  apart : ∀ block : Block, 1 ≤ block.2 → Apart block (bp, n) →
    (∀ other ∈ rest, Apart block other) → Apart block (bp, m)
  bound : ∀ high, bp + 16 * n ≤ high → (∀ other ∈ rest, finish other ≤ high) → finish (bp, m) ≤ high
  grows : (∀ other ∈ rest, n + other.2 < 2 ^ 32) → n ≤ m ∧ (m = n ∨ ∃ other ∈ rest, m = n + other.2)

theorem Joined.touch {block : Block} {rest : List Block} (hn : 1 ≤ n)
    (hsorted : (block :: rest).Pairwise Gap) (htouch : bp + 16 * n = block.1) :
    Joined bp n (block :: rest) ((n + block.2) % 2 ^ 32) rest := by
  have hmod := Nat.mod_le (n + block.2) (2 ^ 32)
  generalize hm : (n + block.2) % 2 ^ 32 = m at hmod
  refine ⟨List.sublist_cons_self _ _, fun other hother => ?_, ?_, ?_, ?_⟩
  · have hgap := (pairwise_cons.mp hsorted).1 other hother
    unfold Gap at hgap ⊢
    dsimp only
    omega
  · intro other hpos hnew hall
    have hblock := hall block mem_cons_self
    unfold Apart finish at hnew hblock ⊢
    dsimp only at hnew ⊢
    omega
  · intro high _ hall
    have hblock := hall block mem_cons_self
    unfold finish at hblock ⊢
    dsimp only
    omega
  · intro hsmall
    have hlt := hsmall block mem_cons_self
    rw [Nat.mod_eq_of_lt hlt] at hm
    exact ⟨by omega, Or.inr ⟨block, mem_cons_self, hm.symm⟩⟩

theorem Joined.same {rest : List Block} (hn : 1 ≤ n)
    (hgap : ∀ block ∈ rest, Gap (bp, n) block) : Joined bp n rest n rest := by
  refine ⟨List.Sublist.refl _, hgap, fun _ _ hnew _ => hnew, ?_,
    fun _ => ⟨Nat.le_refl n, Or.inl rfl⟩⟩
  intro high hhigh _
  unfold finish
  dsimp only
  omega

/-- A list of free blocks after the block `(bp, n)` has been put into it. -/
structure Inserted (base bp n : Nat) (blocks blocks' : List Block) : Prop where
  head : ∃ rest, blocks' = (base, 0) :: rest
  sorted : blocks'.Pairwise Gap
  length : blocks'.length ≤ blocks.length + 1
  apart : ∀ block : Block, 1 ≤ block.2 → Apart block (bp, n) →
    (∀ other ∈ blocks, Apart block other) → ∀ other ∈ blocks', Apart block other
  bound : ∀ low high, low ≤ bp → bp + 16 * n ≤ high →
    (∀ block ∈ blocks, base < block.1 → low ≤ block.1 ∧ finish block ≤ high) →
    ∀ block ∈ blocks', base < block.1 → low ≤ block.1 ∧ finish block ≤ high
  grows : (∀ block ∈ blocks, ∀ other ∈ blocks,
    block.2 + (n + other.2) < 2 ^ 32) → ∃ block ∈ blocks', n ≤ block.2

section Insert

variable {before rest left : List Block} {cell : Block} {m : Nat}

/-- The parts of a sorted list around one of its blocks. -/
theorem sorted_around (hsorted : (before ++ cell :: rest).Pairwise Gap) :
    before.Pairwise Gap ∧ (∀ block ∈ before, Gap block cell) ∧
      (∀ block ∈ before, ∀ other ∈ rest, Gap block other) ∧
      (∀ block ∈ rest, Gap cell block) ∧ rest.Pairwise Gap := by
  rw [pairwise_append, pairwise_cons] at hsorted
  obtain ⟨hbefore, ⟨hcell, hrest⟩, hacross⟩ := hsorted
  exact ⟨hbefore, fun block hblock =>
    hacross block hblock cell mem_cons_self, fun block hblock other hother =>
    hacross block hblock other (mem_cons_of_mem cell hother), hcell, hrest⟩

/-- A block that keeps its place and does not grow leaves the list sorted. -/
theorem sorted_shrink (hsorted : (before ++ cell :: rest).Pairwise Gap)
    (hm : m ≤ cell.2) : (before ++ (cell.1, m) :: rest).Pairwise Gap := by
  obtain ⟨hbefore, hbeforeCell, hacross, hcellRest, hrest⟩ :=
    sorted_around hsorted
  rw [pairwise_append, pairwise_cons]
  refine ⟨hbefore, ⟨fun other hother => ?_, hrest⟩, fun block hblock other hother => ?_⟩
  · have hgap := hcellRest other hother
    unfold Gap at hgap ⊢
    dsimp only
    omega
  · rcases mem_cons.mp hother with rfl | hother
    · exact hbeforeCell block hblock
    · exact hacross block hblock other hother

theorem head_cases {tail : List Block} (hhead : before ++ cell :: rest = (base, 0) :: tail) :
    (before = [] ∧ cell = (base, 0)) ∨ ∃ others, before = (base, 0) :: others := by
  cases before with
  | nil => exact Or.inl ⟨rfl, (List.cons.inj hhead).1⟩
  | cons first others =>
    rw [(List.cons.inj hhead).1]
    exact Or.inr ⟨others, rfl⟩

variable (hsorted : (before ++ cell :: rest).Pairwise Gap)
  (hhead : ∃ tail, before ++ cell :: rest = (base, 0) :: tail)
include hsorted hhead

theorem base_le_cell : base ≤ cell.1 := by
  obtain ⟨tail, htail⟩ := hhead
  rcases head_cases htail with ⟨-, rfl⟩ | ⟨others, rfl⟩
  · exact Nat.le_refl _
  · exact Nat.le_of_lt ((sorted_around hsorted).2.1 _ mem_cons_self).lt

/-- The new block stands behind `cell`, which it does not touch. -/
theorem Inserted.behind (hcell : Gap cell (bp, n)) (hjoined : Joined bp n rest m left) :
    Inserted base bp n (before ++ cell :: rest) (before ++ cell :: (bp, m) :: left) := by
  obtain ⟨hbefore, hbeforeCell, hacross, hcellRest, hrest⟩ :=
    sorted_around hsorted
  have hsub := hjoined.sublist.subset
  have hbp := hcell.lt
  have hlow := base_le_cell hsorted hhead
  refine ⟨?_, ?_, ?_, ?_, ?_, ?_⟩
  · obtain ⟨tail, htail⟩ := hhead
    rcases head_cases htail with ⟨rfl, rfl⟩ | ⟨others, rfl⟩
    · exact ⟨_, rfl⟩
    · exact ⟨_, rfl⟩
  · rw [pairwise_append, pairwise_cons, pairwise_cons]
    refine ⟨hbefore, ⟨?_, hjoined.gap, hrest.sublist hjoined.sublist⟩, ?_⟩
    · intro block hblock
      rcases mem_cons.mp hblock with rfl | hblock
      · exact hcell
      · exact hcellRest block (hsub hblock)
    · intro block hblock other hother
      have hgap := hbeforeCell block hblock
      simp only [mem_cons] at hother
      rcases hother with rfl | rfl | hother
      · exact hgap
      · unfold Gap at hgap ⊢
        dsimp only at hbp ⊢
        omega
      · exact hacross block hblock other (hsub hother)
  · have hshort := hjoined.sublist.length_le
    simp only [List.length_append, length_cons]
    omega
  · intro block hpos hnew hall other hother
    simp only [mem_append, mem_cons] at hall hother
    rcases hother with hother | rfl | rfl | hother
    · exact hall other (Or.inl hother)
    · exact hall other (Or.inr (Or.inl rfl))
    · exact hjoined.apart block hpos hnew fun other hother =>
        hall other (Or.inr (Or.inr hother))
    · exact hall other (Or.inr (Or.inr (hsub hother)))
  · intro low high hbpLow hhigh hall block hblock hbase
    simp only [mem_append, mem_cons] at hall hblock
    rcases hblock with hblock | rfl | rfl | hblock
    · exact hall block (Or.inl hblock) hbase
    · exact hall block (Or.inr (Or.inl rfl)) hbase
    · refine ⟨hbpLow, hjoined.bound high hhigh fun other hother => ?_⟩
      have hlt := (hcellRest other hother).lt
      exact (hall other (Or.inr (Or.inr hother)) (by omega)).2
    · exact hall block (Or.inr (Or.inr (hsub hblock))) hbase
  · intro hsmall
    have hgrows := hjoined.grows fun other hother => by
      have := hsmall cell (by simp) other (by simp [hother])
      omega
    exact ⟨(bp, m), by simp, hgrows.1⟩

/-- The new block becomes part of `cell`, which it touches. -/
theorem Inserted.within (hcell : finish cell ≤ bp) (htouch : cell.1 + 16 * cell.2 = bp)
    (hjoined : Joined bp n rest m left) : Inserted base bp n (before ++ cell :: rest)
      (before ++ (cell.1, (cell.2 + m) % 2 ^ 32) :: left) := by
  obtain ⟨hbefore, hbeforeCell, hacross, hcellRest, hrest⟩ :=
    sorted_around hsorted
  have hsub := hjoined.sublist.subset
  have hlow := base_le_cell hsorted hhead
  have hmod := Nat.mod_le (cell.2 + m) (2 ^ 32)
  have hpos : 1 ≤ cell.2 := by
    unfold finish at hcell
    omega
  generalize hk : (cell.2 + m) % 2 ^ 32 = k at hmod
  refine ⟨?_, ?_, ?_, ?_, ?_, ?_⟩
  · obtain ⟨tail, htail⟩ := hhead
    rcases head_cases htail with ⟨-, rfl⟩ | ⟨others, rfl⟩
    · exact absurd hpos (Nat.not_succ_le_zero 0)
    · exact ⟨_, rfl⟩
  · rw [pairwise_append, pairwise_cons]
    refine ⟨hbefore, ⟨?_, hrest.sublist hjoined.sublist⟩, ?_⟩
    · intro block hblock
      have hgap := hjoined.gap block hblock
      unfold Gap at hgap ⊢
      dsimp only at hgap ⊢
      omega
    · intro block hblock other hother
      rcases mem_cons.mp hother with rfl | hother
      · exact hbeforeCell block hblock
      · exact hacross block hblock other (hsub hother)
  · have hshort := hjoined.sublist.length_le
    simp only [List.length_append, length_cons]
    omega
  · intro block hblockPos hnew hall other hother
    simp only [mem_append, mem_cons] at hall hother
    rcases hother with hother | rfl | hother
    · exact hall other (Or.inl hother)
    · have hold := hall cell (Or.inr (Or.inl rfl))
      have hright := hjoined.apart block hblockPos hnew fun other hother =>
        hall other (Or.inr (Or.inr hother))
      unfold Apart finish at hold hright ⊢
      dsimp only at hright ⊢
      omega
    · exact hall other (Or.inr (Or.inr (hsub hother)))
  · intro low high hbpLow hhigh hall block hblock hbase
    simp only [mem_append, mem_cons] at hall hblock
    rcases hblock with hblock | rfl | hblock
    · exact hall block (Or.inl hblock) hbase
    · have hold := hall cell (Or.inr (Or.inl rfl)) hbase
      have hright := hjoined.bound high hhigh fun other hother => by
        have hlt := (hcellRest other hother).lt
        exact (hall other (Or.inr (Or.inr hother)) (by omega)).2
      unfold finish at hold hright ⊢
      dsimp only at hright ⊢
      omega
    · exact hall block (Or.inr (Or.inr (hsub hblock))) hbase
  · intro hsmall
    obtain ⟨hle, hm⟩ := hjoined.grows fun other hother => by
      have := hsmall cell (by simp) other (by simp [hother])
      omega
    have hlt : cell.2 + m < 2 ^ 32 := by
      rcases hm with rfl | ⟨other, hother, rfl⟩
      · have := hsmall cell (by simp) cell (by simp)
        omega
      · exact hsmall cell (by simp) other (by simp [hother])
    rw [Nat.mod_eq_of_lt hlt] at hk
    exact ⟨(cell.1, k), by simp, by dsimp only; omega⟩

end Insert

/-- What a call of `free` does to the list and to the headers. -/
structure Released (base bp n : Nat) (arena arena' : Arena)
    (blocks blocks' : List Block) : Prop where
  list : FreeList base arena' blocks'
  inserted : Inserted base bp n blocks blocks'
  brk : arena'.brk = arena.brk
  frame : ∀ a, a ≠ bp → (∀ block ∈ blocks, block.1 ≠ a) → arena'.hdr a = arena.hdr a

section Free

variable {before rest : List Block} {cell : Block}

/-- The new block is linked to what follows, or takes it in. -/
theorem joinNext_eq (hlinked : Linked arena.ptr arena.size base (before ++ cell :: rest) base)
    (hsorted : (before ++ cell :: rest).Pairwise Gap) (hbase : base < bp) (hn : 1 ≤ arena.size bp)
    (hapart : ∀ block ∈ rest, finish (bp, arena.size bp) ≤ block.1) :
    ∃ m left next, Joined bp (arena.size bp) rest m left ∧
      joinNext bp cell.1 arena = arena.set bp ⟨next, m⟩ ∧
      Linked arena.ptr arena.size next left base := by
  obtain ⟨-, -, -, -, hrestSorted⟩ := sorted_around hsorted
  obtain ⟨_, -, -, -, hrest⟩ := linked_append.mp hlinked
  unfold joinNext
  dsimp only
  cases rest with
  | nil =>
    have hnext : arena.ptr cell.1 = base := hrest
    have hne : bp + 16 * arena.size bp ≠ arena.ptr cell.1 := by omega
    rw [if_neg hne]
    exact ⟨_, [], _, .same hn nofun, rfl, hrest⟩
  | cons block rest =>
    have hnext : arena.ptr cell.1 = block.1 := hrest.1
    have hsize : arena.size block.1 = block.2 := hrest.2.1
    by_cases htouch : bp + 16 * arena.size bp = arena.ptr cell.1
    · rw [if_pos htouch, hnext, hsize]
      exact ⟨_, rest, _, .touch hn hrestSorted (htouch.trans hnext), rfl, hrest.2.2⟩
    rw [if_neg htouch]
    refine ⟨_, block :: rest, _, .same hn fun other hother => ?_, rfl, hrest⟩
    have hend := hapart block mem_cons_self
    have hafter : block.1 ≤ other.1 := by
      rcases mem_cons.mp hother with rfl | hother
      · exact Nat.le_refl _
      · exact Nat.le_of_lt ((pairwise_cons.mp hrestSorted).1 other hother).lt
    rw [hnext] at htouch
    unfold finish at hend
    unfold Gap
    dsimp only at hend ⊢
    omega

end Free

end Join

/-- `free` puts a block into the list, wherever the search begins. -/
theorem FreeList.free_eq {base bp limit : Nat} {arena : Arena} {blocks : List Block}
    (hlist : FreeList base arena blocks) (hbase : base < bp) (hn : 1 ≤ arena.size bp)
    (hapart : ∀ block ∈ blocks, Apart (bp, arena.size bp) block) (hlimit : blocks.length ≤ limit) :
    ∃ arena' blocks', free limit (bp + 16) arena = .ok ((), arena') ∧
      Released base bp (arena.size bp) arena arena' blocks blocks' := by
  have hnew : ∀ block ∈ blocks, block.1 ≠ bp := by
    intro block hblock heq
    have happly := hapart block hblock
    unfold Apart finish at happly
    dsimp only at happly
    omega
  obtain ⟨before, cell, rest, rfl, hlt, hrest, hfound⟩ :=
    hlist.findPlace_eq hbase hnew hlimit
  have hcell : finish cell ≤ bp := by
    have happly := hapart cell (by simp)
    unfold Apart finish at happly
    unfold finish
    dsimp only at happly
    omega
  have hright : ∀ block ∈ rest, finish (bp, arena.size bp) ≤ block.1 := by
    intro block hblock
    have happly := hapart block (by simp [hblock])
    have hafter := hrest block hblock
    unfold Apart finish at happly
    unfold finish
    dsimp only at happly ⊢
    omega
  obtain ⟨m, left, next, hjoined, hnext, hleft⟩ :=
    joinNext_eq hlist.linked hlist.sorted hbase hn hright
  have hrun : free limit (bp + 16) arena = .ok ((),
      { joinPrev bp cell.1 (joinNext bp cell.1 arena) with
        freep := cell.1 }) := by
    unfold free
    rw [Nat.add_sub_cancel, read_bind, bind_of_ok hfound]
    rfl
  rw [hnext] at hrun
  obtain ⟨-, hbeforeCell, -, hcellRest, -⟩ := sorted_around hlist.sorted
  obtain ⟨_, hbefore, rfl, hsize, -⟩ := linked_append.mp hlist.linked
  -- neither header that changes belongs to the blocks on the two sides
  have hbeforeNe : ∀ block ∈ before, block.1 ≠ cell.1 ∧ block.1 ≠ bp := by
    intro block hblock
    have := (hbeforeCell block hblock).lt
    omega
  have hleftNe : ∀ block ∈ left, block.1 ≠ cell.1 ∧ block.1 ≠ bp := by
    intro block hblock
    have := hrest block (hjoined.sublist.subset hblock)
    omega
  have hlinkedBefore : ∀ header header', Linked ((arena.set bp header).set cell.1 header').ptr
      ((arena.set bp header).set cell.1 header').size base before cell.1 :=
    fun _ _ => linked_set (linked_set hbefore fun block hblock => (hbeforeNe block hblock).2)
      fun block hblock => (hbeforeNe block hblock).1
  have hlinkedLeft : ∀ header header', Linked ((arena.set bp header).set cell.1 header').ptr
      ((arena.set bp header).set cell.1 header').size next left base :=
    fun _ _ => linked_set (linked_set hleft fun block hblock => (hleftNe block hblock).2)
      fun block hblock => (hleftNe block hblock).1
  have hframe : ∀ header header' a, a ≠ bp → (∀ block ∈ before ++ cell :: rest, block.1 ≠ a) →
      ((arena.set bp header).set cell.1 header').hdr a = arena.hdr a := by
    intro header header' a hbp hblocks
    exact (Function.update_of_ne (hblocks cell (by simp)).symm _ _).trans
      (Function.update_of_ne hbp _ _)
  have hcellSize : (arena.set bp ⟨next, m⟩).size cell.1 = cell.2 :=
    (Arena.size_set_of_ne _ (by omega)).trans hsize
  unfold joinPrev at hrun
  rw [hcellSize, Arena.ptr_set_self, Arena.size_set_self] at hrun
  by_cases htouch : cell.1 + 16 * cell.2 = bp
  · rw [if_pos htouch] at hrun
    have hinserted :=
      Inserted.within hlist.sorted hlist.head hcell htouch hjoined
    have hring : ∀ k, Linked ((arena.set bp ⟨next, m⟩).set cell.1 ⟨next, k⟩).ptr
        ((arena.set bp ⟨next, m⟩).set cell.1 ⟨next, k⟩).size base
        (before ++ (cell.1, k) :: left) base := by
      intro k
      refine linked_append.mpr ⟨cell.1, hlinkedBefore _ _, rfl, Arena.size_set_self _ _, ?_⟩
      rw [Arena.ptr_set_self]
      exact hlinkedLeft _ _
    exact ⟨_, _, hrun, ⟨hinserted.head, hring _, hinserted.sorted,
      _, List.mem_append_right _ mem_cons_self⟩, hinserted, rfl, hframe _ _⟩
  · rw [if_neg htouch] at hrun
    have hgap : Gap cell (bp, arena.size bp) := by
      unfold finish at hcell
      unfold Gap
      dsimp only
      omega
    have hinserted := Inserted.behind hlist.sorted hlist.head hgap hjoined
    have hne : bp ≠ cell.1 := by omega
    have hring : Linked ((arena.set bp ⟨next, m⟩).set cell.1 ⟨bp, cell.2⟩).ptr
        ((arena.set bp ⟨next, m⟩).set cell.1 ⟨bp, cell.2⟩).size base
        (before ++ cell :: (bp, m) :: left) base := by
      refine linked_append.mpr ⟨cell.1, hlinkedBefore _ _, rfl, Arena.size_set_self _ _, ?_, ?_, ?_⟩
      · exact Arena.ptr_set_self _ _
      · exact (Arena.size_set_of_ne _ hne).trans (Arena.size_set_self _ _)
      · rw [Arena.ptr_set_of_ne _ hne, Arena.ptr_set_self]
        exact hlinkedLeft _ _
    exact ⟨_, _, hrun, ⟨hinserted.head, hring, hinserted.sorted,
      _, List.mem_append_right _ mem_cons_self⟩, hinserted, rfl, hframe _ _⟩

end CkptKernel.Malloc
