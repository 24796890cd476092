/-
Runs of user/umalloc.c: calls of `malloc` and `free` and stores into live
blocks, in any order.
-/
import CkptKernel.Lib.Machine
import CkptKernel.Malloc.FreeList
import Mathlib.Data.List.Pairwise

namespace CkptKernel.Malloc

open Code LinkedCells Machine
open List (append_assoc forall_mem_cons length_cons map_cons mem_append mem_cons mem_cons_of_mem
  mem_cons_self mem_map_of_mem mem_singleton pairwise_cons)

/-! ### Taking a block -/

/-- What is taken out of the free list: the block `(q, nunits)`. -/
structure Taken (base nunits q : Nat) (arena arena' : Arena)
    (blocks blocks' : List Block) : Prop where
  list : FreeList base arena' blocks'
  size : arena'.size q = nunits
  length : blocks'.length ≤ blocks.length
  inside : ∃ block ∈ blocks, base < block.1 ∧ block.1 ≤ q ∧ q + 16 * nunits ≤ block.1 + 16 * block.2
  apart : ∀ block ∈ blocks', Apart (q, nunits) block
  shrinks : ∀ block ∈ blocks', ∃ whole ∈ blocks, whole.1 = block.1 ∧ block.2 ≤ whole.2
  brk : arena'.brk = arena.brk
  frame : ∀ a, a ≠ q → (∀ block ∈ blocks, block.1 ≠ a) → arena'.hdr a = arena.hdr a

section Take

variable {base nunits : Nat} {arena : Arena} {before rest : List Block}
  {prev block : Block}

variable {block other : Block}

theorem Gap.apart (hgap : Gap block other) : Apart block other := by
  unfold Gap at hgap
  unfold Apart finish
  omega

/-- What is apart from a block is apart from every part of it. -/
theorem Apart.inside {q n : Nat} (hapart : Apart other block) (hn : 1 ≤ n) (hlow : block.1 ≤ q)
    (hhigh : q + 16 * n ≤ block.1 + 16 * block.2) : Apart other (q, n) := by
  unfold Apart finish at hapart ⊢
  dsimp only
  omega

theorem Apart.symm (hapart : Apart block other) : Apart other block := Or.symm hapart

variable (hlist : FreeList base arena (before ++ prev :: block :: rest))
include hlist

/-- The blocks of the list apart from one have other addresses. -/
theorem FreeList.around : (∀ other ∈ before, Gap other prev ∧ Gap other block) ∧ Gap prev block ∧
      (∀ other ∈ rest, Gap prev other ∧ Gap block other) ∧ base < block.1 := by
  obtain ⟨-, hbefore, hacross, hprev, hrest⟩ := sorted_around hlist.sorted
  have hgap := hprev block mem_cons_self
  have hbase := base_le_cell hlist.sorted hlist.head
  refine ⟨fun other hother => ⟨hbefore other hother,
    hacross other hother block mem_cons_self⟩, hgap,
    fun other hother => ⟨hprev other (mem_cons_of_mem block hother),
      (pairwise_cons.mp hrest).1 other hother⟩, ?_⟩
  exact Nat.lt_of_le_of_lt hbase hgap.lt

/-- A block that fits exactly leaves the list. -/
theorem take_all (hexact : block.2 = nunits) : ∃ arena' blocks',
      take nunits prev.1 block.1 arena = .ok (some (block.1 + 16), arena') ∧
      Taken base nunits block.1 arena arena' (before ++ prev :: block :: rest) blocks' := by
  have hsize : arena.size block.1 = block.2 := hlist.linked.value_eq (by simp)
  have hprevSize : arena.size prev.1 = prev.2 :=
    hlist.linked.value_eq (by simp)
  obtain ⟨hbefore, hgap, hrest, hbase⟩ := hlist.around
  have hsub : (before ++ prev :: rest).Sublist (before ++ prev :: block :: rest) := by simp
  obtain ⟨_, hfront, rfl, -, hfollow⟩ := linked_append.mp hlist.linked
  have hring : Linked (arena.set prev.1 ⟨arena.ptr block.1, prev.2⟩).ptr
      (arena.set prev.1 ⟨arena.ptr block.1, prev.2⟩).size base
      (before ++ prev :: rest) base := by
    refine linked_append.mpr ⟨prev.1, linked_set hfront fun other hother =>
      Nat.ne_of_lt (hbefore other hother).1.lt, rfl, Arena.size_set_self _ _, ?_⟩
    rw [Arena.ptr_set_self]
    exact linked_set hfollow.2.2 fun other hother =>
      Nat.ne_of_gt (hrest other hother).1.lt
  refine ⟨{ arena.set prev.1 ⟨arena.ptr block.1, prev.2⟩ with
    freep := prev.1 }, before ++ prev :: rest, ?_, ⟨?_, hring,
    hlist.sorted.sublist hsub, prev.2, by simp⟩, ?_, hsub.length_le,
    ⟨block, by simp, hbase, Nat.le_refl _, by omega⟩, ?_,
    fun other hother => ⟨other, hsub.subset hother, rfl, Nat.le_refl _⟩, rfl, ?_⟩
  · unfold take
    rw [read_bind, if_pos (hsize.trans hexact), ← hprevSize]
    rfl
  · obtain ⟨tail, htail⟩ := hlist.head
    rcases head_cases htail with ⟨rfl, rfl⟩ | ⟨others, rfl⟩
    · exact ⟨rest, rfl⟩
    · exact ⟨_, rfl⟩
  · exact (Arena.size_set_of_ne _ (Nat.ne_of_gt hgap.lt)).trans (hsize.trans hexact)
  · intro other hother
    rw [← hexact]
    simp only [mem_append, mem_cons] at hother
    rcases hother with hother | rfl | hother
    · exact (hbefore other hother).2.apart.symm
    · exact hgap.apart.symm
    · exact (hrest other hother).2.apart
  · intro a _ hother
    exact Function.update_of_ne (hother prev (by simp)).symm _ _

/-- A larger block keeps its front. -/
theorem take_part (hnunits : 1 ≤ nunits) (hlarge : nunits < block.2) : ∃ q arena' blocks',
      take nunits prev.1 block.1 arena = .ok (some (q + 16), arena') ∧
      Taken base nunits q arena arena' (before ++ prev :: block :: rest) blocks' := by
  have hsize : arena.size block.1 = block.2 := hlist.linked.value_eq (by simp)
  obtain ⟨hbefore, hgap, hrest, hbase⟩ := hlist.around
  obtain ⟨q, hq⟩ : ∃ q, q = block.1 + 16 * (block.2 - nunits) := ⟨_, rfl⟩
  obtain ⟨k, hk⟩ : ∃ k, k = block.2 - nunits := ⟨_, rfl⟩
  have hqBefore : ∀ other ∈ before ++ [prev], other.1 ≠ block.1 ∧ other.1 ≠ q := by
    intro other hother
    have hlt : other.1 < block.1 := by
      rcases mem_append.mp hother with hother | hother
      · exact (hbefore other hother).2.lt
      · rw [mem_singleton.mp hother]
        exact hgap.lt
    omega
  have hqRest : ∀ other ∈ rest, other.1 ≠ block.1 ∧ other.1 ≠ q := by
    intro other hother
    have hafter := (hrest other hother).2
    unfold Gap at hafter
    omega
  have hqBlock : block.1 ≠ q := by omega
  have hlinked := hlist.linked
  rw [← List.singleton_append, ← append_assoc] at hlinked
  obtain ⟨_, hfront, rfl, -, hfollow⟩ := linked_append.mp hlinked
  have hring : ∀ header, Linked ((arena.set block.1 ⟨arena.ptr block.1, k⟩).set q header).ptr
      ((arena.set block.1 ⟨arena.ptr block.1, k⟩).set q header).size base
      (before ++ prev :: (block.1, k) :: rest) base := by
    intro header
    rw [← List.singleton_append, ← append_assoc]
    refine linked_append.mpr ⟨block.1, linked_set (linked_set hfront
      fun other hother => (hqBefore other hother).1)
      fun other hother => (hqBefore other hother).2, rfl, ?_, ?_⟩
    · rw [Arena.size_set_of_ne _ hqBlock, Arena.size_set_self]
    · rw [Arena.ptr_set_of_ne _ hqBlock, Arena.ptr_set_self]
      exact linked_set (linked_set hfollow fun other hother => (hqRest other hother).1)
        fun other hother => (hqRest other hother).2
  refine ⟨q, { (arena.set block.1 ⟨arena.ptr block.1, k⟩).set q
      ⟨(arena.set block.1 ⟨arena.ptr block.1, k⟩).ptr q, nunits⟩ with
      freep := prev.1 }, before ++ prev :: (block.1, k) :: rest, ?_,
    ⟨?_, hring _, ?_, prev.2, by simp⟩, Arena.size_set_self _ _, by simp,
    ⟨block, by simp, hbase, by omega, by omega⟩, ?_, ?_, rfl, ?_⟩
  · unfold take
    rw [read_bind, hsize, if_neg (Nat.ne_of_gt hlarge), hq, hk, ← hsize]
    rfl
  · obtain ⟨tail, htail⟩ := hlist.head
    rcases head_cases htail with ⟨rfl, rfl⟩ | ⟨others, rfl⟩
    · exact ⟨_, rfl⟩
    · exact ⟨_, rfl⟩
  · have hsorted := hlist.sorted
    rw [← List.singleton_append, ← append_assoc] at hsorted ⊢
    exact sorted_shrink hsorted (by omega)
  · intro other hother
    have hinside : ∀ other, Apart other block → Apart (q, nunits) other :=
      fun other hother =>
        (hother.inside hnunits (by omega) (by omega)).symm
    simp only [mem_append, mem_cons] at hother
    rcases hother with hother | rfl | rfl | hother
    · exact hinside other (hbefore other hother).2.apart
    · exact hinside other hgap.apart
    · unfold Apart finish
      dsimp only
      omega
    · exact hinside other (hrest other hother).2.apart.symm
  · intro other hother
    simp only [mem_append, mem_cons] at hother
    rcases hother with hother | rfl | rfl | hother
    · exact ⟨other, by simp [hother], rfl, Nat.le_refl _⟩
    · exact ⟨other, by simp, rfl, Nat.le_refl _⟩
    · exact ⟨block, by simp, rfl, by dsimp only; omega⟩
    · exact ⟨other, by simp [hother], rfl, Nat.le_refl _⟩
  · intro a ha hother
    exact (Function.update_of_ne ha _ _).trans
      (Function.update_of_ne (hother block (by simp)).symm _ _)

end Take

/-- A block large enough that follows a block of the list can be taken. -/
theorem FreeList.take_eq {base nunits : Nat} {arena : Arena} {blocks : List Block}
    (hlist : FreeList base arena blocks) (hnunits : 1 ≤ nunits) {prev : Block}
    (hprev : prev ∈ blocks) (hfits : nunits ≤ arena.size (arena.ptr prev.1)) : ∃ q arena' blocks',
      take nunits prev.1 (arena.ptr prev.1) arena = .ok (some (q + 16), arena') ∧
      Taken base nunits q arena arena' blocks blocks' := by
  rcases hlist.linked.successor hprev with
    ⟨before, -, hnext⟩ | ⟨before, block, rest, rfl, hnext⟩
  · -- the static header has no room
    obtain ⟨rest, rfl⟩ := hlist.head
    have hzero : arena.size base = 0 :=
      hlist.linked.value_eq mem_cons_self
    rw [hnext, hzero] at hfits
    omega
  · have hsize : arena.size block.1 = block.2 :=
      hlist.linked.value_eq (by simp)
    rw [hnext, hsize] at hfits
    rw [hnext]
    rcases Nat.eq_or_lt_of_le hfits with hexact | hlarge
    · exact ⟨block.1, take_all hlist hexact.symm⟩
    · exact take_part hlist hnunits hlarge

/-! ### The heap as a whole -/

/-- Free and live blocks: all lie in the memory from `start` to the break, none
overlaps another, and a live block's header has its size. -/
structure Sound (base start : Nat) (arena : Arena)
    (blocks live : List Block) : Prop where
  list : FreeList base arena blocks
  static : base + 16 ≤ start
  grown : start ≤ arena.brk
  freeIn : ∀ block ∈ blocks, base < block.1 → start ≤ block.1 ∧ finish block ≤ arena.brk
  liveIn : ∀ block ∈ live, 1 ≤ block.2 ∧ arena.size block.1 = block.2 ∧
    start ≤ block.1 ∧ finish block ≤ arena.brk
  apart : ∀ block ∈ live, ∀ other ∈ blocks, Apart block other
  disjoint : live.Pairwise Apart

section Heap

variable {base start limit : Nat} {arena arena' : Arena}
  {blocks blocks' live : List Block}

theorem Apart.ne {block other : Block} (hapart : Apart block other) : block.1 ≠ other.1 := by
  unfold Apart finish at hapart
  omega

variable {nunits : Nat}

/-- A taken block is live. -/
theorem Sound.take {q : Nat} (hsound : Sound base start arena blocks live) (hnunits : 1 ≤ nunits)
    (htaken : Taken base nunits q arena arena' blocks blocks') :
    Sound base start arena' blocks' ((q, nunits) :: live) := by
  obtain ⟨whole, hwhole, hbase, hlow, hhigh⟩ := htaken.inside
  obtain ⟨hstart, hend⟩ := hsound.freeIn whole hwhole hbase
  have hnew : ∀ block ∈ live, Apart block (q, nunits) := fun block hblock =>
    (hsound.apart block hblock whole hwhole).inside hnunits hlow hhigh
  refine ⟨htaken.list, hsound.static, ?_, ?_, ?_, ?_, ?_⟩
  · rw [htaken.brk]
    exact hsound.grown
  · intro block hblock hblockBase
    obtain ⟨larger, hlarger, hsame, hsize⟩ := htaken.shrinks block hblock
    have hold := hsound.freeIn larger hlarger (by omega)
    rw [htaken.brk]
    unfold finish at hold ⊢
    omega
  · rw [forall_mem_cons]
    refine ⟨⟨hnunits, htaken.size, by omega, ?_⟩, fun block hblock => ?_⟩
    · rw [htaken.brk]
      unfold finish at hend ⊢
      dsimp only
      omega
    · obtain ⟨hpos, hsize, hin⟩ := hsound.liveIn block hblock
      have hkept : arena'.size block.1 = arena.size block.1 :=
        congrArg Header.size (htaken.frame block.1 (hnew block hblock).ne
          fun other hother => (hsound.apart block hblock other hother).ne.symm)
      rw [htaken.brk]
      exact ⟨hpos, hkept.trans hsize, hin⟩
  · rw [forall_mem_cons]
    refine ⟨htaken.apart, fun block hblock other hother => ?_⟩
    obtain ⟨larger, hlarger, hsame, hsize⟩ := htaken.shrinks other hother
    have hold := hsound.apart block hblock larger hlarger
    unfold Apart finish at hold ⊢
    omega
  · exact pairwise_cons.mpr ⟨fun block hblock => (hnew block hblock).symm, hsound.disjoint⟩

/-- Blocks that stay live when another one goes into the free list. -/
theorem Sound.released {bp n : Nat} {kept : List Block}
    (hsound : Sound base start arena blocks live)
    (hreleased : Released base bp n arena arena' blocks blocks') (hlow : start ≤ bp)
    (hhigh : bp + 16 * n ≤ arena.brk) (hkept : kept.Sublist live)
    (hapart : ∀ block ∈ kept, Apart block (bp, n)) : Sound base start arena' blocks' kept := by
  refine ⟨hreleased.list, hsound.static, ?_, ?_, ?_, ?_, ?_⟩
  · rw [hreleased.brk]
    exact hsound.grown
  · rw [hreleased.brk]
    exact hreleased.inserted.bound start arena.brk hlow hhigh hsound.freeIn
  · intro block hblock
    obtain ⟨hpos, hsize, hin⟩ := hsound.liveIn block (hkept.subset hblock)
    have hsame : arena'.size block.1 = arena.size block.1 :=
      congrArg Header.size (hreleased.frame block.1 (hapart block hblock).ne
        fun other hother => (hsound.apart block (hkept.subset hblock) other hother).ne.symm)
    rw [hreleased.brk]
    exact ⟨hpos, hsame.trans hsize, hin⟩
  · intro block hblock
    exact hreleased.inserted.apart block
      (hsound.liveIn block (hkept.subset hblock)).1 (hapart block hblock)
      (hsound.apart block (hkept.subset hblock))
  · exact hsound.disjoint.sublist hkept

/-- Freeing a live block. -/
theorem Sound.free_eq {bp n : Nat} {before after : List Block}
    (hsound : Sound base start arena blocks (before ++ (bp, n) :: after))
    (hlimit : blocks.length ≤ limit) :
    ∃ arena' blocks', Malloc.free limit (bp + 16) arena = .ok ((), arena') ∧
      blocks'.length ≤ blocks.length + 1 ∧ Sound base start arena' blocks' (before ++ after) := by
  obtain ⟨hpos, hsize, hlow, hhigh⟩ := hsound.liveIn (bp, n) (by simp)
  dsimp only at hpos hsize hlow
  subst hsize
  have hstatic := hsound.static
  obtain ⟨arena', blocks', hrun, hreleased⟩ := hsound.list.free_eq
    (by omega) hpos (hsound.apart (bp, arena.size bp) (by simp)) hlimit
  have hdisjoint := hsound.disjoint
  rw [List.pairwise_append, pairwise_cons] at hdisjoint
  refine ⟨arena', blocks', hrun, hreleased.inserted.length,
    hsound.released hreleased hlow ?_ (by simp) fun block hblock => ?_⟩
  · unfold finish at hhigh
    dsimp only at hhigh
    omega
  · rcases mem_append.mp hblock with hblock | hblock
    · exact hdisjoint.2.2 block hblock _ mem_cons_self
    · exact (hdisjoint.2.1.1 block hblock).symm

/-- Nothing but headers of blocks and the break matter, and the break may
grow. -/
theorem Sound.congr (hsound : Sound base start arena blocks live)
    (hhdr : ∀ block, block ∈ blocks ∨ block ∈ live → arena'.hdr block.1 = arena.hdr block.1)
    (hfreep : arena'.freep = arena.freep) (hbrk : arena.brk ≤ arena'.brk) :
    Sound base start arena' blocks live := by
  refine ⟨⟨hsound.list.head, ?_, hsound.list.sorted, ?_⟩, hsound.static,
    Nat.le_trans hsound.grown hbrk, ?_, ?_, hsound.apart, hsound.disjoint⟩
  · exact hsound.list.linked.congr fun block hblock =>
      ⟨congrArg Header.ptr (hhdr block (Or.inl hblock)),
        congrArg Header.size (hhdr block (Or.inl hblock))⟩
  · rw [hfreep]
    exact hsound.list.freep
  · intro block hblock hbase
    obtain ⟨hlow, hhigh⟩ := hsound.freeIn block hblock hbase
    exact ⟨hlow, Nat.le_trans hhigh hbrk⟩
  · intro block hblock
    obtain ⟨hpos, hsize, hlow, hhigh⟩ := hsound.liveIn block hblock
    exact ⟨hpos, (congrArg Header.size (hhdr block (Or.inr hblock))).trans
      hsize, hlow, Nat.le_trans hhigh hbrk⟩

/-- Every block ends below the break. -/
theorem Sound.finish_le (hsound : Sound base start arena blocks live)
    {block : Block} (hblock : block ∈ blocks ∨ block ∈ live) : finish block ≤ arena.brk := by
  rcases hblock with hblock | hblock
  · have hstatic := hsound.static
    have hgrown := hsound.grown
    by_cases hbase : base < block.1
    · exact (hsound.freeIn block hblock hbase).2
    obtain ⟨rest, rfl⟩ := hsound.list.head
    rcases mem_cons.mp hblock with rfl | hblock
    · unfold finish
      dsimp only
      omega
    · exact absurd ((pairwise_cons.mp hsound.list.sorted).1 block hblock).lt hbase
  · exact (hsound.liveIn block hblock).2.2.2

/-- A size in bytes that an `int` can hold. -/
theorem toInt_bytes {bytes : Nat} (hsmall : bytes < 2 ^ 31) :
    (BitVec.ofNat 32 bytes).toInt = bytes := by
  have hmod : bytes % 2 ^ 32 = bytes := Nat.mod_eq_of_lt (by omega)
  rw [BitVec.toInt_eq_toNat_of_lt, BitVec.toNat_ofNat, hmod]
  rw [BitVec.toNat_ofNat, hmod]
  omega

/-- New memory from the break on goes into the list. -/
theorem Sound.morecore_eq (hsound : Sound base start arena blocks live)
    (hsmall : 16 * nunits < 2 ^ 31) (hnone : ∀ block ∈ blocks, block.2 < nunits)
    (hlimit : blocks.length ≤ limit) : (∃ arena', morecore limit nunits arena = .ok (none, arena') ∧
      Sound base start arena' blocks live) ∨ ∃ arena' blocks',
      morecore limit nunits arena = .ok (some arena'.freep, arena') ∧
      Sound base start arena' blocks' live ∧ blocks'.length ≤ blocks.length + 1 ∧
      ∃ block ∈ blocks', nunits ≤ block.2 := by
  obtain ⟨nu, hnu⟩ : ∃ nu, nu = if nunits < 4096 then 4096 else nunits :=
    ⟨_, rfl⟩
  have hle : nunits ≤ nu := by
    rw [hnu]
    split <;> omega
  have hbytes : nu * 16 < 2 ^ 31 := by
    rw [hnu]
    split <;> omega
  have hpos : 1 ≤ nu := by
    rw [hnu]
    split <;> omega
  unfold morecore
  rw [← hnu, toInt_bytes hbytes]
  cases hgrant : arena.grants 0 with
  | false =>
    left
    refine ⟨{ arena with grants := fun i => arena.grants (i + 1) }, ?_,
      hsound.congr (fun _ _ => rfl) rfl (Nat.le_refl _)⟩
    have hrun : sbrk ((nu * 16 : Nat) : Int) arena =
        .ok (none, { arena with grants := fun i => arena.grants (i + 1) }) := by
      unfold sbrk
      dsimp only
      rw [hgrant]
      rfl
    rw [bind_of_ok hrun]
    rfl
  | true =>
    right
    -- the arena when `free` is called for the new block
    obtain ⟨fresh, hfresh⟩ : ∃ fresh : Arena, fresh = Arena.set { arena with
          grants := fun i => arena.grants (i + 1)
          brk := arena.brk + nu * 16 } arena.brk
        ⟨arena.ptr arena.brk, nu⟩ := ⟨_, rfl⟩
    have hrun : sbrk ((nu * 16 : Nat) : Int) arena = .ok (some arena.brk, { arena with
          grants := fun i => arena.grants (i + 1)
          brk := arena.brk + nu * 16 }) := by
      unfold sbrk
      dsimp only
      rw [hgrant]
      rfl
    have hsize : fresh.size arena.brk = nu := by
      rw [hfresh]
      exact Arena.size_set_self _ _
    have hfreshBrk : fresh.brk = arena.brk + nu * 16 := by rw [hfresh]; rfl
    have hends : ∀ block, block ∈ blocks ∨ block ∈ live →
        finish block ≤ arena.brk := fun block => hsound.finish_le
    have hgrown : Sound base start fresh blocks live := by
      refine hsound.congr (fun block hblock => ?_) (by rw [hfresh]; rfl) (by omega)
      have hend := hends block hblock
      rw [hfresh]
      refine Function.update_of_ne ?_ _ _
      unfold finish at hend
      omega
    have hstatic := hsound.static
    have hstart := hsound.grown
    have hapart : ∀ block ∈ blocks, Apart (arena.brk, fresh.size arena.brk) block :=
      fun block hblock => Or.inr (hends block (Or.inl hblock))
    obtain ⟨arena', blocks', hfree, hreleased⟩ := hgrown.list.free_eq
      (by omega) (by rw [hsize]; exact hpos) hapart hlimit
    have hsound' := hgrown.released hreleased hstart (by rw [hsize]; omega) (List.Sublist.refl live)
      fun block hblock => Or.inl (hends block (Or.inr hblock))
    refine ⟨arena', blocks', ?_, hsound', hreleased.inserted.length, ?_⟩
    · rw [bind_of_ok hrun]
      dsimp only
      rw [update_bind]
      subst hfresh
      exact bind_of_ok hfree
    · rw [hsize] at hreleased
      obtain ⟨block, hblock, hlarge⟩ := hreleased.inserted.grows (by
        intro block hblock other hother
        have := hnone block hblock
        have := hnone other hother
        omega)
      exact ⟨block, hblock, Nat.le_trans hle hlarge⟩

/-- The loop of `malloc` after a whole round without success. -/
def searchMore (limit nunits turns : Nat) : Code Arena (Option Nat) := do
  match ← morecore limit nunits with
  | none => return none
  | some p =>
    let arena ← read
    search limit nunits turns p (arena.ptr p)

theorem search_turn (limit nunits turns prevp p : Nat) (arena : Arena) :
    search limit nunits (turns + 1) prevp p arena =
      if nunits ≤ arena.size p then take nunits prevp p arena
      else if p = arena.freep then searchMore limit nunits turns arena
      else search limit nunits turns p (arena.ptr p) arena := by
  conv_lhs => unfold search
  rw [read_bind]
  split_ifs <;> rfl

/-- One round of the search, from a block of the list on. -/
theorem search_walk {turns : Nat} {todo : List Block} {prev : Block} (hprev : prev ∈ blocks)
    (hlinked : Linked arena.ptr arena.size (arena.ptr prev.1) todo arena.freep)
    (htodo : ∀ block ∈ todo, block ∈ blocks ∧ block.1 ≠ arena.freep) :
    (∃ before ∈ blocks, nunits ≤ arena.size (arena.ptr before.1) ∧
      search limit nunits (todo.length + 1 + turns) prev.1 (arena.ptr prev.1)
        arena = take nunits before.1 (arena.ptr before.1) arena) ∨
    ((∀ block ∈ todo, block.2 < nunits) ∧ arena.size arena.freep < nunits ∧
      search limit nunits (todo.length + 1 + turns) prev.1 (arena.ptr prev.1)
        arena = searchMore limit nunits turns arena) := by
  induction todo generalizing prev with
  | nil =>
    have hnext : arena.ptr prev.1 = arena.freep := hlinked
    rw [List.length_nil, Nat.zero_add, Nat.add_comm, search_turn]
    by_cases hfits : nunits ≤ arena.size (arena.ptr prev.1)
    · exact Or.inl ⟨prev, hprev, hfits, if_pos hfits⟩
    · rw [if_neg hfits, if_pos hnext]
      rw [hnext] at hfits
      exact Or.inr ⟨nofun, Nat.lt_of_not_le hfits, rfl⟩
  | cons block todo ih =>
    obtain ⟨hnext, hsize, hrest⟩ := hlinked
    obtain ⟨hblock, hfreep⟩ := htodo block mem_cons_self
    have hturns : (block :: todo).length + 1 + turns = todo.length + 1 + turns + 1 := by
      rw [length_cons]
      omega
    rw [hturns, search_turn]
    by_cases hfits : nunits ≤ arena.size (arena.ptr prev.1)
    · exact Or.inl ⟨prev, hprev, hfits, if_pos hfits⟩
    rw [if_neg hfits, hnext, if_neg hfreep]
    rw [hnext, hsize] at hfits
    rcases ih hblock hrest fun other hother =>
        htodo other (mem_cons_of_mem block hother) with
      hfound | ⟨hsmall, hlast, hmore⟩
    · exact Or.inl hfound
    · refine Or.inr ⟨?_, hlast, hmore⟩
      rw [forall_mem_cons]
      exact ⟨Nat.lt_of_not_le hfits, hsmall⟩

/-- One round of the search, from `freep` on: a block is found, or none of the
list is large enough. -/
theorem FreeList.search_round (hlist : FreeList base arena blocks) (limit nunits turns : Nat) :
    (∃ before ∈ blocks, nunits ≤ arena.size (arena.ptr before.1) ∧
      search limit nunits (blocks.length + turns) arena.freep (arena.ptr arena.freep) arena =
          take nunits before.1 (arena.ptr before.1) arena) ∨ ((∀ block ∈ blocks, block.2 < nunits) ∧
      search limit nunits (blocks.length + turns) arena.freep
        (arena.ptr arena.freep) arena = searchMore limit nunits turns arena) := by
  obtain ⟨n, hfreep⟩ := hlist.freep
  obtain ⟨others, hperm, -, hsize, hwalk⟩ := hlist.linked.around hfreep
  have hdistinct : ((arena.freep, n) :: others).Pairwise fun block other => block.1 ≠ other.1 :=
    (hperm.pairwise_iff Ne.symm).mpr (hlist.sorted.imp fun hgap => Nat.ne_of_lt hgap.lt)
  have htodo : ∀ block ∈ others, block ∈ blocks ∧ block.1 ≠ arena.freep :=
    fun block hblock => ⟨hperm.mem_iff.mp (mem_cons_of_mem _ hblock),
      ((pairwise_cons.mp hdistinct).1 block hblock).symm⟩
  have hlength : blocks.length = others.length + 1 := by
    rw [← hperm.length_eq, length_cons]
  rw [hlength]
  rcases search_walk hfreep hwalk htodo with
    hfound | ⟨hsmall, hlast, hmore⟩
  · exact Or.inl hfound
  refine Or.inr ⟨fun block hblock => ?_, hmore⟩
  rcases mem_cons.mp (hperm.mem_iff.mpr hblock) with rfl | hblock
  · rw [← hsize]
    exact hlast
  · exact hsmall block hblock

/-- What a call of `malloc` leaves behind. -/
def Allocated (base start nunits count : Nat) (live : List Block)
    (result : Option Nat) (arena : Arena) : Prop :=
  ∃ blocks, blocks.length ≤ count ∧ match result with
    | none => Sound base start arena blocks live
    | some ap => 16 ≤ ap ∧
        Sound base start arena blocks ((ap - 16, nunits) :: live)

variable (hsound : Sound base start arena blocks live) (hnunits : 1 ≤ nunits)
include hsound hnunits

theorem Sound.take_eq {prev : Block} (hprev : prev ∈ blocks)
    (hfits : nunits ≤ arena.size (arena.ptr prev.1)) :
    wp (Malloc.take nunits prev.1 (arena.ptr prev.1)) arena
      (Allocated base start nunits blocks.length live) := by
  obtain ⟨q, arena', blocks', hrun, htaken⟩ :=
    hsound.list.take_eq hnunits hprev hfits
  refine ⟨some (q + 16), arena', hrun, blocks', htaken.length, Nat.le_add_left 16 q, ?_⟩
  rw [Nat.add_sub_cancel]
  exact hsound.take hnunits htaken

/-- If no block is large enough, new memory is asked for once. -/
theorem Sound.searchMore_eq {turns : Nat} (hsmall : 16 * nunits < 2 ^ 31)
    (hnone : ∀ block ∈ blocks, block.2 < nunits) (hlimit : blocks.length ≤ limit)
    (hturns : blocks.length + 1 ≤ turns) : wp (searchMore limit nunits turns) arena
      (Allocated base start nunits (blocks.length + 1) live) := by
  unfold searchMore
  rw [wp_bind]
  rcases hsound.morecore_eq hsmall hnone hlimit with
    ⟨arena', hrun, hsound'⟩ |
    ⟨arena', blocks', hrun, hsound', hlength, block, hblock, hlarge⟩
  · exact ⟨none, arena', hrun, none, arena', rfl, blocks, Nat.le_succ _, hsound'⟩
  refine ⟨some arena'.freep, arena', hrun, ?_⟩
  change wp (search limit nunits turns arena'.freep (arena'.ptr arena'.freep)) arena' _
  obtain ⟨spare, rfl⟩ : ∃ spare, turns = blocks'.length + spare :=
    ⟨turns - blocks'.length, by omega⟩
  rcases hsound'.list.search_round limit nunits spare with
    ⟨prev, hprev, hfits, hsearch⟩ | ⟨hall, -⟩
  · obtain ⟨result, final, htake, blocks'', hcount, hresult⟩ :=
      hsound'.take_eq hnunits hprev hfits
    exact ⟨result, final, hsearch.trans htake, blocks'', Nat.le_trans hcount hlength, hresult⟩
  · have := hall block hblock
    omega

theorem Sound.search_eq (hsmall : 16 * nunits < 2 ^ 31) (hlimit : 2 * blocks.length + 1 ≤ limit) :
    wp (search limit nunits limit arena.freep (arena.ptr arena.freep)) arena
      (Allocated base start nunits (blocks.length + 1) live) := by
  have hround := hsound.list.search_round limit nunits (limit - blocks.length)
  rw [Nat.add_sub_cancel' (by omega)] at hround
  rcases hround with ⟨prev, hprev, hfits, hsearch⟩ | ⟨hall, hmore⟩
  · obtain ⟨result, final, htake, blocks', hcount, hresult⟩ :=
      hsound.take_eq hnunits hprev hfits
    exact ⟨result, final, hsearch.trans htake, blocks', Nat.le_succ_of_le hcount, hresult⟩
  · have hfirst : blocks.length ≤ limit := by omega
    have hsecond : blocks.length + 1 ≤ limit - blocks.length := by omega
    obtain ⟨result, final, hrun, hresult⟩ :=
      hsound.searchMore_eq hnunits hsmall hall hfirst hsecond
    exact ⟨result, final, hmore.trans hrun, hresult⟩

end Heap

/-! ### Events -/

/-- The arena, and the live blocks: the pointers returned and the bytes asked
for. -/
structure State where
  arena : Arena
  live : List (Nat × Nat)

inductive Event where
  | malloc (nbytes : UInt32)
  | free (ap : Nat)
  /-- The program stores into its blocks. -/
  | store (cells : Nat → Header)

/-- The block behind a pointer. -/
def blockOf (arena : Arena) (ap : Nat) : Block := (ap - 16, arena.size (ap - 16))

/-- A header at `a` would have a byte in the data of a live block. -/
def State.InData (state : State) (a : Nat) : Prop :=
  ∃ entry ∈ state.live, entry.1 < a + 16 ∧ a < finish (blockOf state.arena entry.1)

instance (state : State) (a : Nat) : Decidable (state.InData a) :=
  inferInstanceAs (Decidable (∃ entry ∈ _, _))

/-- One event; `none` if a loop does not end.  A pointer that is not live is
not freed. -/
def step (base limit : Nat) (state : State) : Event → Option State
  | .malloc nbytes =>
    match malloc base limit nbytes.toNat state.arena with
    | .ok (some ap, arena) =>
      some ⟨arena, (ap, nbytes.toNat) :: state.live⟩
    | .ok (none, arena) => some ⟨arena, state.live⟩
    | .error _ => none
  | .free ap =>
    if state.live.any (·.1 = ap) then
      match free limit ap state.arena with
      | .ok (_, arena) => some ⟨arena, state.live.eraseP (·.1 = ap)⟩
      | .error _ => none
    else some state
  | .store cells =>
    some ⟨{ state.arena with
      hdr := fun a =>
        if state.InData a then cells a else state.arena.hdr a }, state.live⟩

/-- Before the first call, with the break at `start`. -/
def boot (start : Nat) (hdr : Nat → Header) (grants : Nat → Bool) : State :=
  ⟨⟨hdr, 0, start, grants⟩, []⟩

/-- The free list is a ring in the order of the addresses whose blocks do not
overlap or touch; every live block is as large as was asked for, lies in the
memory obtained from `sbrk`, and overlaps no other block, live or free. -/
structure Usable (base start : Nat) (state : State) : Prop where
  list : state.arena.freep = 0 ∨ ∃ blocks, FreeList base state.arena blocks ∧
    ∀ entry ∈ state.live, ∀ block ∈ blocks, Apart (blockOf state.arena entry.1) block
  large : ∀ entry ∈ state.live, entry.1 + entry.2 ≤ finish (blockOf state.arena entry.1)
  inside : ∀ entry ∈ state.live, start + 16 ≤ entry.1 ∧
    finish (blockOf state.arena entry.1) ≤ state.arena.brk
  disjoint : state.live.Pairwise fun entry other =>
    Apart (blockOf state.arena entry.1) (blockOf state.arena other.1)

/-- The invariant of runs; `count` bounds the length of the free list. -/
def Invariant (base start count : Nat) (state : State) : Prop :=
  (state.arena.freep = 0 ∧ state.live = [] ∧ start ≤ state.arena.brk) ∨
  ∃ blocks, blocks.length ≤ count ∧ Sound base start state.arena blocks
      (state.live.map fun entry => blockOf state.arena entry.1) ∧
    ∀ entry ∈ state.live, 16 ≤ entry.1 ∧ entry.1 + entry.2 ≤ finish (blockOf state.arena entry.1)

theorem Invariant.usable {base start count : Nat} {state : State}
    (hinv : Invariant base start count state) : Usable base start state := by
  rcases hinv with ⟨hfreep, hlive, -⟩ | ⟨blocks, -, hsound, hlive⟩
  · refine ⟨Or.inl hfreep, ?_, ?_, ?_⟩
    · simp [hlive]
    · simp [hlive]
    · simp [hlive]
  · have hmem : ∀ entry ∈ state.live, blockOf state.arena entry.1 ∈
        state.live.map fun entry => blockOf state.arena entry.1 :=
      fun entry hentry => mem_map_of_mem hentry
    refine ⟨Or.inr ⟨blocks, hsound.list, fun entry hentry =>
      hsound.apart _ (hmem entry hentry)⟩, fun entry hentry =>
      (hlive entry hentry).2, fun entry hentry => ?_, List.pairwise_map.mp hsound.disjoint⟩
    obtain ⟨-, -, hlow, hhigh⟩ := hsound.liveIn _ (hmem entry hentry)
    have hap := (hlive entry hentry).1
    unfold blockOf at hlow
    exact ⟨by omega, hhigh⟩

section Steps

variable {base start limit count : Nat} {state : State}

/-- The blocks of live pointers, when their headers still have their sizes. -/
theorem map_blockOf_eq {arena arena' : Arena} {live : List (Nat × Nat)}
    (hsame : ∀ block ∈ live.map fun entry => blockOf arena entry.1, arena'.size block.1 = block.2) :
    (live.map fun entry => blockOf arena' entry.1) = live.map fun entry => blockOf arena entry.1 :=
  List.map_congr_left fun _ hentry =>
    Prod.ext rfl (hsame _ (mem_map_of_mem hentry))

theorem blockOf_eq {arena arena' : Arena} {live : List (Nat × Nat)}
    (hsame : ∀ block ∈ live.map fun entry => blockOf arena entry.1,
      arena'.size block.1 = block.2) {entry : Nat × Nat}
    (hentry : entry ∈ live) : blockOf arena' entry.1 = blockOf arena entry.1 :=
  Prod.ext rfl (hsame _ (mem_map_of_mem hentry))

theorem unitsFor_bounds {nbytes : Nat} (hsmall : nbytes ≤ 2147483616) :
    1 ≤ unitsFor nbytes ∧ 16 * unitsFor nbytes < 2 ^ 31 ∧ nbytes + 16 ≤ 16 * unitsFor nbytes := by
  unfold unitsFor
  omega

section

variable (hinv : Invariant base start count state)
include hinv

/-- After `initBase` there is a free list. -/
theorem Invariant.initBase (hbase : 0 < base) (hstart : base + 16 ≤ start) :
    ∃ arena blocks, Malloc.initBase base state.arena = .ok ((), arena) ∧
      blocks.length ≤ max 1 count ∧ Sound base start arena blocks
        (state.live.map fun entry => blockOf state.arena entry.1) := by
  unfold Malloc.initBase
  rw [read_bind]
  rcases hinv with ⟨hfreep, hlive, hbrk⟩ | ⟨blocks, hcount, hsound, -⟩
  · refine ⟨{ state.arena.set base ⟨base, 0⟩ with freep := base },
      [(base, 0)], ?_, Nat.le_max_left 1 count, ?_⟩
    · unfold when
      rw [if_pos hfreep]
      rfl
    rw [hlive]
    refine ⟨⟨⟨[], rfl⟩, ⟨rfl, ?_, ?_⟩, List.pairwise_singleton _ _, 0,
      mem_singleton.mpr rfl⟩, hstart, hbrk, ?_, nofun, nofun, .nil⟩
    · exact @Arena.size_set_self state.arena base ⟨base, 0⟩
    · exact @Arena.ptr_set_self state.arena base ⟨base, 0⟩
    · intro block hblock hlt
      rw [mem_singleton.mp hblock] at hlt
      exact absurd hlt (Nat.lt_irrefl base)
  · obtain ⟨n, hfreep⟩ := hsound.list.freep
    have hne : state.arena.freep ≠ 0 := by
      have := hsound.list.base_le hfreep
      dsimp only at this
      omega
    refine ⟨state.arena, blocks, ?_, by omega, hsound⟩
    unfold when
    rw [if_neg hne]
    rfl

theorem Invariant.malloc (hbase : 0 < base) (hstart : base + 16 ≤ start) {nbytes : UInt32}
    (hsmall : nbytes.toNat ≤ 2147483616) (hcount : 1 ≤ count) (hlimit : 2 * count + 1 ≤ limit) :
    ∃ next, step base limit state (.malloc nbytes) = some next ∧
      Invariant base start (count + 1) next := by
  obtain ⟨hunits, hbytes, hlarge⟩ := unitsFor_bounds hsmall
  obtain ⟨arena, blocks, hinit, hlength, hsound⟩ := hinv.initBase hbase hstart
  obtain ⟨result, final, hsearch, blocks', hlength', hfinal⟩ :=
    hsound.search_eq hunits hbytes (by omega : 2 * blocks.length + 1 ≤ limit)
  have hentries : ∀ entry ∈ state.live, 16 ≤ entry.1 ∧
      entry.1 + entry.2 ≤ finish (blockOf state.arena entry.1) := by
    rcases hinv with ⟨-, hlive, -⟩ | ⟨-, -, -, hentries⟩
    · simp [hlive]
    · exact hentries
  have hrun : Malloc.malloc base limit nbytes.toNat state.arena = .ok (result, final) := by
    unfold Malloc.malloc
    rw [bind_of_ok hinit, read_bind]
    exact hsearch
  unfold step
  dsimp only
  rw [hrun]
  cases result with
  | none =>
    have hsame := fun block hblock => (hfinal.liveIn block hblock).2.1
    refine ⟨_, rfl, Or.inr ⟨blocks', by omega, ?_, fun entry hentry => ?_⟩⟩
    · rw [map_blockOf_eq hsame]
      exact hfinal
    · rw [blockOf_eq hsame hentry]
      exact hentries entry hentry
  | some ap =>
    obtain ⟨hap, hfinal⟩ := hfinal
    have hsame := fun block hblock =>
      (hfinal.liveIn block (mem_cons_of_mem _ hblock)).2.1
    have hnew : blockOf final ap = (ap - 16, unitsFor nbytes.toNat) :=
      Prod.ext rfl (hfinal.liveIn _ mem_cons_self).2.1
    refine ⟨_, rfl, Or.inr ⟨blocks', by omega, ?_, ?_⟩⟩
    · rw [map_cons, map_blockOf_eq hsame, hnew]
      exact hfinal
    rw [forall_mem_cons]
    refine ⟨⟨hap, ?_⟩, fun entry hentry => ?_⟩
    · rw [hnew]
      unfold finish
      dsimp only
      omega
    · rw [blockOf_eq hsame hentry]
      exact hentries entry hentry

theorem Invariant.free (ap : Nat) (hlimit : count ≤ limit) :
    ∃ next, step base limit state (.free ap) = some next ∧
      Invariant base start (count + 1) next := by
  unfold step
  dsimp only
  by_cases hlive : state.live.any (·.1 = ap)
  · rw [if_pos hlive]
    rcases hinv with ⟨-, hnone, -⟩ | ⟨blocks, hcount, hsound, hentries⟩
    · simp [hnone] at hlive
    obtain ⟨entry, hentry, hpointer⟩ := List.any_eq_true.mp hlive
    obtain ⟨freed, before, after, -, hfreed, hsplit, herase⟩ :=
      List.exists_of_eraseP (p := fun entry => decide (entry.1 = ap)) hentry hpointer
    obtain rfl : freed.1 = ap := of_decide_eq_true hfreed
    have hpointerLow : 16 ≤ freed.1 :=
      (hentries freed (by rw [hsplit]; simp)).1
    rw [hsplit, List.map_append, map_cons] at hsound
    obtain ⟨arena, blocks', hrun, hlength, hsound'⟩ :=
      hsound.free_eq (Nat.le_trans hcount hlimit)
    rw [← List.map_append] at hsound'
    have hsame := fun block hblock => (hsound'.liveIn block hblock).2.1
    rw [Nat.sub_add_cancel hpointerLow] at hrun
    rw [hrun, herase]
    refine ⟨_, rfl, Or.inr ⟨blocks', by omega, ?_, fun entry hentry => ?_⟩⟩
    · rw [map_blockOf_eq hsame]
      exact hsound'
    rw [blockOf_eq hsame hentry]
    refine hentries entry ?_
    rw [hsplit]
    rcases mem_append.mp hentry with hentry | hentry
    · exact List.mem_append_left _ hentry
    · exact List.mem_append_right _ (mem_cons_of_mem _ hentry)
  · rw [if_neg hlive]
    refine ⟨state, rfl, hinv.imp_right ?_⟩
    rintro ⟨blocks, hcount, hrest⟩
    exact ⟨blocks, Nat.le_succ_of_le hcount, hrest⟩

end

/-- Headers of blocks are not in the data of live blocks. -/
theorem Sound.not_inData {blocks : List Block} (hsound : Sound base start state.arena blocks
      (state.live.map fun entry => blockOf state.arena entry.1))
    (hentries : ∀ entry ∈ state.live, 16 ≤ entry.1) {block : Block}
    (hblock : block ∈ blocks ∨ block ∈ state.live.map fun entry => blockOf state.arena entry.1) :
    ¬ state.InData block.1 := by
  rintro ⟨entry, hentry, hlow, hhigh⟩
  have hap := hentries entry hentry
  have hmem := mem_map_of_mem (f := fun entry : Nat × Nat => blockOf state.arena entry.1) hentry
  have hcases : block = blockOf state.arena entry.1 ∨
      Apart (blockOf state.arena entry.1) block := by
    rcases hblock with hblock | hblock
    · exact Or.inr (hsound.apart _ hmem block hblock)
    · by_cases heq : block = blockOf state.arena entry.1
      · exact Or.inl heq
      · have hsymm : Std.Symm Apart := ⟨fun _ _ => Apart.symm⟩
        exact Or.inr (hsound.disjoint.forall hmem hblock (Ne.symm heq))
  rcases hcases with rfl | hapart
  · unfold blockOf at hlow
    dsimp only at hlow
    omega
  · unfold Apart finish blockOf at hapart
    unfold finish blockOf at hhigh
    dsimp only at hapart hhigh
    omega

theorem Invariant.store (hinv : Invariant base start count state) (cells : Nat → Header) :
    ∃ next, step base limit state (.store cells) = some next ∧
      Invariant base start (count + 1) next := by
  refine ⟨_, rfl, ?_⟩
  rcases hinv with ⟨hfreep, hlive, hbrk⟩ | ⟨blocks, hcount, hsound, hentries⟩
  · exact Or.inl ⟨hfreep, hlive, hbrk⟩
  have hhdr : ∀ block, (block ∈ blocks ∨ block ∈
      state.live.map fun entry => blockOf state.arena entry.1) →
      (if state.InData block.1 then cells block.1
        else state.arena.hdr block.1) = state.arena.hdr block.1 :=
    fun block hblock => if_neg (hsound.not_inData
      (fun entry hentry => (hentries entry hentry).1) hblock)
  have hsound' : Sound base start
      { state.arena with
        hdr := fun address => if state.InData address then cells address
          else state.arena.hdr address }
      blocks (state.live.map fun entry => blockOf state.arena entry.1) :=
    hsound.congr hhdr rfl (Nat.le_refl _)
  have hsame := fun block hblock => (hsound'.liveIn block hblock).2.1
  refine Or.inr ⟨blocks, Nat.le_succ_of_le hcount, ?_, fun entry hentry => ?_⟩
  · rw [map_blockOf_eq hsame]
    exact hsound'
  · rw [blockOf_eq hsame hentry]
    exact hentries entry hentry

end Steps

section Run

variable {base start limit : Nat}

theorem Invariant.run {events : List Event} {count : Nat} {state : State}
    (hinv : Invariant base start count state) (hbase : 0 < base)
    (hstart : base + 16 ≤ start) (hcount : 1 ≤ count)
    (hsmall : ∀ nbytes, Event.malloc nbytes ∈ events → nbytes.toNat ≤ 2147483616)
    (hlimit : 2 * (count + events.length) + 1 ≤ limit) :
    ∃ final, Machine.run (step base limit) state events = some final ∧
      Invariant base start (count + events.length) final := by
  induction events generalizing count state with
  | nil => exact ⟨state, rfl, hinv⟩
  | cons event events ih =>
    rw [length_cons] at hlimit ⊢
    have hstep : ∃ next, step base limit state event = some next ∧
        Invariant base start (count + 1) next := by
      cases event with
      | malloc nbytes =>
        exact hinv.malloc hbase hstart (hsmall nbytes mem_cons_self) hcount (by omega)
      | free ap => exact hinv.free ap (by omega)
      | store cells => exact hinv.store cells
    obtain ⟨next, hnext, hinv'⟩ := hstep
    obtain ⟨final, hrun, hfinal⟩ := ih hinv' (by omega)
      (fun nbytes hnbytes => hsmall nbytes (mem_cons_of_mem event hnbytes))
      (by omega)
    refine ⟨final, ?_, ?_⟩
    · rw [Machine.run, hnext]
      exact hrun
    · rwa [Nat.add_assoc, Nat.add_comm 1] at hfinal

end Run

/-- In every run whose requests have sizes in bytes that fit an `int`, the loops
end and every block is usable. -/
theorem malloc_blocks_usable {base start : Nat} (hbase : 0 < base)
    (hstart : base + 16 ≤ start) (hdr : Nat → Header) (grants : Nat → Bool)
    {events : List Event} (hsmall : ∀ nbytes, Event.malloc nbytes ∈ events →
      nbytes.toNat ≤ 2147483616) {limit : Nat} (hlimit : 2 * (1 + events.length) + 1 ≤ limit) :
    ∃ final, run (step base limit) (boot start hdr grants) events =
      some final ∧ Usable base start final := by
  have hinv : Invariant base start 1 (boot start hdr grants) :=
    Or.inl ⟨rfl, rfl, Nat.le_refl start⟩
  obtain ⟨final, hrun, hfinal⟩ :=
    hinv.run hbase hstart (Nat.le_refl 1) hsmall hlimit
  exact ⟨final, hrun, hfinal.usable⟩

theorem malloc_blocks_usable_reuse :
    ∃ final, run (step 16 9) (boot 32 (fun _ => ⟨0, 0⟩) fun _ => true)
      [.malloc 5, .free 65552, .malloc 100] = some final ∧ Usable 16 32 final := by
  have hsmall : ∀ nbytes, Event.malloc nbytes ∈ [.malloc 5, .free 65552, .malloc 100] →
      nbytes.toNat ≤ 2147483616 := by
    intro nbytes hnbytes
    rcases List.mem_cons.mp hnbytes with hfirst | hnbytes
    · cases hfirst
      decide
    · rcases List.mem_cons.mp hnbytes with hfree | hnbytes
      · cases hfree
      · cases List.mem_singleton.mp hnbytes
        decide
  exact malloc_blocks_usable (by decide) (by decide) (fun _ => ⟨0, 0⟩)
    (fun _ => true) hsmall (by decide)

/-- A request of 2^32 - 1 bytes: `sbrk` is asked for 16 bytes, the block has
2^28 + 1 headers. -/
theorem malloc_beyond_break : ∃ final, run (step 16 9) (boot 32 (fun _ => ⟨0, 0⟩) fun _ => true)
      [.malloc 4294967295] = some final ∧ ¬ Usable 16 32 final := by
  refine ⟨_, rfl, fun husable => ?_⟩
  have hend := (husable.inside _ List.mem_cons_self).2
  exact absurd hend (by decide)

end CkptKernel.Malloc
