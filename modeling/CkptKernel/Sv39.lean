/-
Page tables in memory: `walk`, `mappages`, `uvmunmap` and `freewalk` of
kernel/vm.c on pages of 512 words, with the packing of kernel/riscv.h.
-/
import Mathlib.Algebra.BigOperators.Fin
import CkptKernel.Lib.RadixTree
import CkptKernel.PageMap

namespace CkptKernel.Sv39

open Code RadixTree

/-! ### The code -/

/-- Physical memory by page address, and `kmem.freelist`. -/
abbrev Ram := Heap Nat (Fin 512) Nat

def PTE_V : Nat := 1
def PTE_R : Nat := 2
def PTE_W : Nat := 4
def PTE_X : Nat := 8

/-- Shift a physical address to the right place for a PTE. -/
def PA2PTE (pa : Nat) : Nat := pa >>> 12 <<< 10

def PTE2PA (pte : Nat) : Nat := pte >>> 10 <<< 12 % 2 ^ 64

def PTE_FLAGS (pte : Nat) : Nat := pte &&& 0x3FF

def PHYSTOP : Nat := 0x80000000 + 128 * 1024 * 1024

def kalloc : Code Ram (Option Nat) := fun ram =>
  match ram.free with
  | [] => .ok (none, ram)
  | page :: rest => .ok (some page, { ram with free := rest })

/-- The loop of `walk`: the address of the leaf PTE, as a page and an index. -/
def walkFrom (alloc : Bool) : Nat → Nat → Nat → Code Ram (Option (Nat × Fin 512))
  | 0, pagetable, va => pure (some (pagetable, PX 0 va))
  | level + 1, pagetable, va => do
    let ram ← read
    let pte := ram.store pagetable (PX (level + 1) va)
    if pte &&& PTE_V ≠ 0 then walkFrom alloc level (PTE2PA pte) va
    else if alloc = false then pure none
    else do
      let page ← kalloc
      match page with
      | none => pure none
      | some page => do
        update (fun ram => ram.fill page 0)
        update (fun ram => ram.set pagetable (PX (level + 1) va)
          (PA2PTE page ||| PTE_V))
        walkFrom alloc level page va

/-- The address of the PTE for `va`; `none` stands for 0. -/
def walk (pagetable va : Nat) (alloc : Bool) : Code Ram (Option (Nat × Fin 512)) :=
  if MAXVA ≤ va then .panic "walk" else walkFrom alloc 2 pagetable va

/-- The loop of `mappages`.  After `size / PGSIZE` iterations the address is
`last` or has passed `MAXVA`. -/
def mappagesFrom (pagetable perm last : Nat) : Nat → Nat → Nat → Code Ram Bool
  | 0, _, _ => pure false
  | left + 1, a, pa => do
    let slot ← walk pagetable a true
    match slot with
    | none => pure false
    | some slot => do
      let ram ← read
      if ram.store slot.1 slot.2 &&& PTE_V ≠ 0 then
        .panic "mappages: remap"
      else do
        update (fun ram => ram.set slot.1 slot.2
          (PA2PTE pa ||| perm ||| PTE_V))
        if a = last then pure true
        else
          mappagesFrom pagetable perm last left ((a + PGSIZE) % 2 ^ 64)
            ((pa + PGSIZE) % 2 ^ 64)

/-- Create PTEs for virtual addresses from `va` on that refer to physical
addresses from `pa` on; false stands for -1. -/
def mappages (pagetable va size pa perm : Nat) : Code Ram Bool :=
  if va % PGSIZE ≠ 0 then .panic "mappages: va not aligned"
  else if size % PGSIZE ≠ 0 then .panic "mappages: size not aligned"
  else if size = 0 then .panic "mappages: size"
  else mappagesFrom pagetable perm ((va + size - PGSIZE) % 2 ^ 64)
    (size / PGSIZE) va pa

section Free

-- the address of `end`, which the linker chooses
variable (kernelEnd : Nat)

/-- Pages that `kfree` takes. -/
def IsPage (pa : Nat) : Prop :=
  pa % PGSIZE = 0 ∧ kernelEnd ≤ pa ∧ pa < PHYSTOP

instance (pa : Nat) : Decidable (IsPage kernelEnd pa) :=
  inferInstanceAs (Decidable (_ ∧ _))

def kfree (pa : Nat) : Code Ram Unit :=
  if IsPage kernelEnd pa then
    update (fun ram => { ram with free := pa :: ram.free })
  else .panic "kfree"

def uvmunmapFrom (pagetable : Nat) (doFree : Bool) : Nat → Nat → Code Ram Unit
  | 0, _ => pure ()
  | left + 1, a => do
    let slot ← walk pagetable a false
    match slot with
    | none => uvmunmapFrom pagetable doFree left (a + PGSIZE)
    | some slot => do
      let ram ← read
      let pte := ram.store slot.1 slot.2
      if pte &&& PTE_V = 0 then
        uvmunmapFrom pagetable doFree left (a + PGSIZE)
      else if PTE_FLAGS pte = PTE_V then .panic "uvmunmap: not a leaf"
      else do
        when (doFree = true) (kfree kernelEnd (PTE2PA pte))
        update (fun ram => ram.set slot.1 slot.2 0)
        uvmunmapFrom pagetable doFree left (a + PGSIZE)

/-- Remove `npages` of mappings starting from `va`. -/
def uvmunmap (pagetable va npages : Nat) (doFree : Bool) : Code Ram Unit :=
  if va % PGSIZE ≠ 0 then .panic "uvmunmap: not aligned"
  else uvmunmapFrom kernelEnd pagetable doFree
    (((va + npages * PGSIZE) % 2 ^ 64 - va) / PGSIZE) va

/-- One iteration of `freewalk`, with the recursive call. -/
def freeEntry (free : Nat → Code Ram Unit) (pagetable : Nat) (i : Fin 512) : Code Ram Unit := do
  let ram ← read
  let pte := ram.store pagetable i
  if pte &&& PTE_V ≠ 0 ∧ pte &&& (PTE_R ||| PTE_W ||| PTE_X) = 0 then do
    free (PTE2PA pte)
    update (fun ram => ram.set pagetable i 0)
  else if pte &&& PTE_V ≠ 0 then .panic "freewalk: leaf"
  else pure ()

/-- Recursively free page-table pages.  A page table has three levels, so a
depth of three is enough. -/
def freewalk : Nat → Nat → Code Ram Unit
  | 0, _ => .panic "stack"
  | depth + 1, pagetable => do
    forEach (freeEntry (freewalk depth) pagetable) (List.finRange 512)
    kfree kernelEnd pagetable

end Free

/-! ### Packing -/

/-- A physical page and flags do not get into each other's way. -/
theorem pte_packed {pa perm : Nat} (hpa : pa % PGSIZE = 0) (hlt : pa < 2 ^ 64)
    (hperm : perm < 2 ^ 10) : PTE2PA (PA2PTE pa ||| perm ||| PTE_V) = pa ∧
      PTE_FLAGS (PA2PTE pa ||| perm ||| PTE_V) = perm ||| PTE_V ∧
      (PA2PTE pa ||| perm ||| PTE_V) &&& PTE_V ≠ 0 := by
  have hflags : perm ||| PTE_V < 2 ^ 10 := Nat.or_lt_two_pow hperm (by decide)
  have hsum : PA2PTE pa ||| perm ||| PTE_V = 2 ^ 10 * (pa / 4096) + (perm ||| PTE_V) := by
    rw [Nat.or_assoc, Nat.two_pow_add_eq_or_of_lt hflags, PA2PTE,
      Nat.shiftLeft_eq, Nat.shiftRight_eq_div_pow, Nat.mul_comm]
  refine ⟨?_, ?_, ?_⟩
  · rw [hsum, PTE2PA, Nat.shiftRight_eq_div_pow, Nat.shiftLeft_eq]
    simp only [PGSIZE] at hpa
    omega
  · rw [PTE_FLAGS, show (0x3FF : Nat) = 2 ^ 10 - 1 from rfl, Nat.and_two_pow_sub_one_eq_mod, hsum]
    omega
  · rw [Nat.and_or_distrib_right]
    simp [PTE_V]

/-- A PTE for a page-table page has no other flags. -/
theorem pointer_bare (page : Nat) :
    (PA2PTE page ||| PTE_V) &&& (PTE_R ||| PTE_W ||| PTE_X) = 0 := by
  have hmod : PA2PTE page % 2 ^ 4 = 0 := by
    rw [PA2PTE, Nat.shiftLeft_eq]
    omega
  have hmask : PA2PTE page &&& 14 = (PA2PTE page &&& 14) % 2 ^ 4 :=
    (Nat.mod_eq_of_lt (Nat.and_lt_two_pow _ (by decide))).symm
  rw [Nat.and_or_distrib_right, show PTE_R ||| PTE_W ||| PTE_X = 14 from rfl,
    hmask, Nat.and_mod_two_pow, hmod]
  rfl

theorem PX_eq_iff {va va' : Nat} (hva : va < MAXVA) (hva' : va' < MAXVA) :
    (∀ level ≤ 2, PX level va' = PX level va) ↔ va' / PGSIZE = va / PGSIZE := by
  constructor
  · intro hsame
    have hlow := congrArg Fin.val (hsame 0 (by omega))
    have hmid := congrArg Fin.val (hsame 1 (by omega))
    have htop := congrArg Fin.val (hsame 2 (by omega))
    simp only [PX, PGSIZE, MAXVA] at *
    omega
  · intro hpage level _
    simp only [PX, ← Nat.div_div_eq_div_mul, hpage]

/-! ### Page tables -/

def layout : Scheme Nat (Fin 512) Nat Nat where
  child pte := if pte &&& PTE_V ≠ 0 then some (PTE2PA pte) else none
  index := PX
  bare pte := pte &&& (PTE_R ||| PTE_W ||| PTE_X) = 0

/-- The slot of the leaf PTE of `va`, if its tables exist. -/
def slot (ram : Ram) (root va : Nat) : Option (Nat × Fin 512) :=
  layout.place ram 2 root va

def lookup (ram : Ram) (root va : Nat) : Option Nat := layout.look ram 2 root va

def tables (ram : Ram) (root page : Nat) : Nat := layout.occurs ram 2 root page

/-- A page table: no page-table page is shared or free. -/
structure Wf (kernelEnd : Nat) (ram : Ram) (root : Nat) : Prop where
  tree : layout.Tree ram 2 root
  pages : ∀ page, 0 < tables ram root page + ram.free.count page → IsPage kernelEnd page

variable {kernelEnd root va level pagetable : Nat} {ram ram₁ : Ram}

theorem child_valid {pte : Nat} (hvalid : pte &&& PTE_V ≠ 0) :
    layout.child pte = some (PTE2PA pte) := if_pos hvalid

theorem child_invalid {pte : Nat} (hvalid : pte &&& PTE_V = 0) :
    layout.child pte = none := if_neg (not_not.mpr hvalid)

theorem walkFrom_false (level pagetable : Nat) : walkFrom false level pagetable va ram =
      .ok (layout.place ram level pagetable va, ram) := by
  induction level generalizing pagetable with
  | zero => rfl
  | succ level ih =>
    unfold walkFrom Scheme.place
    rw [read_bind, show layout.index = PX from rfl]
    by_cases hvalid : ram.store pagetable (PX (level + 1) va) &&& PTE_V = 0
    · rw [child_invalid hvalid, if_neg (not_not.mpr hvalid)]
      rfl
    · rw [child_valid hvalid, if_pos hvalid]
      exact ih _

/-- Tables are made on the way, and no mapping changes. -/
theorem wp_walkFrom (htree : layout.Tree ram level pagetable)
    (hpages : ∀ page ∈ ram.free, page % PGSIZE = 0 ∧ page < 2 ^ 64) :
    wp (walkFrom true level pagetable va) ram (fun slot ram' =>
      layout.Edited ram ram' level pagetable (layout.look ram level pagetable) ∧
      ∀ s, slot = some s → layout.place ram' level pagetable va = some s) := by
  induction level generalizing ram pagetable with
  | zero =>
    refine (wp_pure _).mpr ⟨.refl htree, fun s hs => ?_⟩
    exact hs
  | succ level ih =>
    -- the rest of the way, from a table that has a child
    have hdown : ∀ (ram₁ : Ram) next, layout.Tree ram₁ (level + 1) pagetable →
        (∀ page ∈ ram₁.free, page % PGSIZE = 0 ∧ page < 2 ^ 64) →
        layout.child (ram₁.store pagetable (PX (level + 1) va)) = some next →
        wp (walkFrom true level next va) ram₁ (fun slot ram' =>
          layout.Edited ram₁ ram' (level + 1) pagetable
            (layout.look ram₁ (level + 1) pagetable) ∧ ∀ s, slot = some s →
            layout.place ram' (level + 1) pagetable va = some s) := by
      intro ram₁ next htree₁ hpages₁ hnext
      refine wp_mono (ih (htree₁.child hnext) hpages₁) ?_
      rintro slot ram' ⟨hedit, hslot⟩
      have hlift := Scheme.Edited.child htree₁ hnext hedit
      refine ⟨⟨hlift.shaped, fun key => (hlift.look key).trans ?_,
        hlift.count, hlift.keeps⟩, fun s hs => ?_⟩
      · split
        next hkey =>
          rw [Scheme.look_succ, hkey, hnext]
          rfl
        · rfl
      · unfold Scheme.place
        rw [hedit.root_eq htree₁ hnext, show layout.index = PX from rfl, hnext]
        exact hslot s hs
    unfold walkFrom
    rw [wp_bind, wp_read, wp_ite]
    split
    next hvalid =>
      exact hdown ram _ htree hpages (child_valid hvalid)
    rename_i hvalid
    rw [if_neg (by decide), wp_bind]
    cases hfree : ram.free with
    | nil =>
      refine ⟨none, ram, by rw [kalloc, hfree], ?_⟩
      exact (wp_pure _).mpr ⟨.refl htree, by simp⟩
    | cons page rest =>
      refine ⟨some page, { ram with free := rest }, by rw [kalloc, hfree], ?_⟩
      dsimp only
      rw [wp_bind, wp_update, wp_bind, wp_update]
      obtain ⟨hpage, hlt⟩ := hpages page (by simp [hfree])
      have hpacked := pte_packed hpage hlt (show 0 < 2 ^ 10 by decide)
      rw [Nat.or_zero] at hpacked
      have hchild : layout.child (PA2PTE page ||| PTE_V) = some page := by
        rw [child_valid hpacked.2.2, hpacked.1]
      have hgraft := htree.graft (child_invalid (not_not.mp hvalid)) hfree
        hchild (pointer_bare page) (child_invalid (Nat.zero_and PTE_V))
      refine wp_mono (hdown _ page (hgraft.tree htree) ?_ ?_) ?_
      · intro other hother
        exact hpages other (by rw [hfree]; exact List.mem_cons_of_mem _ hother)
      · simp only [Heap.set, Function.update_self, hchild]
      · rintro slot ram' ⟨hedit, hslot⟩
        have hsame := funext hgraft.look
        exact ⟨hsame ▸ hgraft.trans hedit, hslot⟩

/-! ### Whole page tables -/

theorem Wf.free_pages (hwf : Wf kernelEnd ram root) :
    ∀ page ∈ ram.free, page % PGSIZE = 0 ∧ page < 2 ^ 64 := by
  intro page hmem
  have hpos := List.count_pos_iff.mpr hmem
  obtain ⟨haligned, _, hlt⟩ := hwf.pages page (by omega)
  exact ⟨haligned, hlt.trans (by decide)⟩

theorem Wf.edit (hwf : Wf kernelEnd ram root) {values : Nat → Option Nat}
    (hedit : layout.Edited ram ram₁ 2 root values) : Wf kernelEnd ram₁ root :=
  ⟨hedit.tree hwf.tree, fun page hpos =>
    hwf.pages page (hedit.count page ▸ hpos)⟩

/-- One leaf PTE is written. -/
theorem Wf.put (hwf : Wf kernelEnd ram root) (hva : va < MAXVA) {s : Nat × Fin 512}
    (hslot : slot ram root va = some s) (pte : Nat) : Wf kernelEnd (ram.set s.1 s.2 pte) root ∧
      (∀ page, tables (ram.set s.1 s.2 pte) root page = tables ram root page) ∧
      ∀ va' < MAXVA, lookup (ram.set s.1 s.2 pte) root va' =
        if va' / PGSIZE = va / PGSIZE then layout.valid pte else lookup ram root va' := by
  have hedit := hwf.tree.put hslot pte
  refine ⟨hwf.edit hedit, fun page => Nat.add_right_cancel (hedit.count page),
    fun va' hva' => (hedit.look va').trans ?_⟩
  exact if_congr (PX_eq_iff hva hva') rfl rfl

theorem lookup_slot {s : Nat × Fin 512} (hslot : slot ram root va = some s) :
    lookup ram root va = layout.valid (ram.store s.1 s.2) := by
  unfold lookup Scheme.look
  rw [show layout.place ram 2 root va = some s from hslot]
  rfl

theorem lookup_page {va' : Nat} (hpage : va' / PGSIZE = va / PGSIZE) :
    lookup ram root va' = lookup ram root va := by
  have hPX : ∀ level, PX level va' = PX level va := by
    intro level
    simp only [PX, ← Nat.div_div_eq_div_mul, hpage]
  simp only [lookup, Scheme.look, Scheme.place, layout, hPX]

theorem walk_false (hva : va < MAXVA) : walk root va false ram = .ok (slot ram root va, ram) := by
  rw [walk, if_neg (Nat.not_le.mpr hva)]
  exact walkFrom_false 2 root

/-- `n` pages from `va` on are mapped to pages from `pa` on, and nothing else
has changed. -/
structure Mapped (kernelEnd root va pa perm n : Nat) (ram ram' : Ram) : Prop where
  wf : Wf kernelEnd ram' root
  inside : ∀ k < n, ∃ pte, lookup ram' root (va + k * PGSIZE) = some pte ∧
    PTE2PA pte = (pa + k * PGSIZE) % 2 ^ 64 ∧ PTE_FLAGS pte = perm ||| PTE_V
  outside : ∀ va' < MAXVA, (∀ k < n, va' / PGSIZE ≠ va / PGSIZE + k) →
    lookup ram' root va' = lookup ram root va'

variable {pa perm a : Nat}

/-- One more page. -/
theorem Mapped.snoc {n pte : Nat} {ram₂ : Ram} (hdone : Mapped kernelEnd root va pa perm n ram ram₁)
    (hend : va + n * PGSIZE < MAXVA) (hwf : Wf kernelEnd ram₂ root)
    (hlook : ∀ va' < MAXVA, lookup ram₂ root va' =
      if va' / PGSIZE = (va + n * PGSIZE) / PGSIZE then some pte
      else lookup ram₁ root va') (hpte : PTE2PA pte = (pa + n * PGSIZE) % 2 ^ 64)
    (hflags : PTE_FLAGS pte = perm ||| PTE_V) :
    Mapped kernelEnd root va pa perm (n + 1) ram ram₂ := by
  simp only [Nat.add_mul_div_right _ _ (show 0 < PGSIZE by decide)] at hlook
  refine ⟨hwf, fun k hk => ?_, fun va' hva' hout => ?_⟩
  · have hle := Nat.mul_le_mul_right PGSIZE (Nat.le_of_lt_succ hk)
    rw [hlook _ (by omega), Nat.add_mul_div_right _ _ (by decide)]
    by_cases heq : k = n
    · rw [if_pos (by omega), heq]
      exact ⟨pte, rfl, hpte, hflags⟩
    · rw [if_neg (by omega)]
      exact hdone.inside k (by omega)
  · rw [hlook va' hva', if_neg (hout n (Nat.lt_succ_self n))]
    exact hdone.outside va' hva' fun k hk => hout k (by omega)

/-- The loop ends in its last iteration, and not before. -/
theorem last_iff {n left total : Nat} (htotal : total = n + (left + 1))
    (hva : va + n * PGSIZE < MAXVA) (hlt : total * PGSIZE < 2 ^ 64) :
    va + n * PGSIZE = (va + total * PGSIZE - PGSIZE) % 2 ^ 64 ↔ left = 0 := by
  simp only [MAXVA, PGSIZE] at *
  omega

/-- The loop of `mappages` after `n` pages. -/
theorem wlp_mappagesFrom {n left total : Nat} (hpa : pa % PGSIZE = 0)
    (hperm : perm < 2 ^ 10) (hlt : total * PGSIZE < 2 ^ 64) (hpos : 0 < left)
    (htotal : total = n + left) (hdone : Mapped kernelEnd root va pa perm n ram ram₁) :
    wlp (mappagesFrom root perm ((va + total * PGSIZE - PGSIZE) % 2 ^ 64) left
      (va + n * PGSIZE) ((pa + n * PGSIZE) % 2 ^ 64)) ram₁ (fun ok ram' =>
        ∃ m ≤ total, (ok = true ↔ m = total) ∧ Mapped kernelEnd root va pa perm m ram ram') := by
  induction left generalizing n ram₁ with
  | zero => omega
  | succ left ih =>
    unfold mappagesFrom
    rw [wlp_bind, walk, wlp_ite]
    split
    · exact wlp_panic.mpr trivial
    rename_i hva
    have hva := Nat.not_le.mp hva
    refine wlp_of_wp (wp_mono (wp_walkFrom hdone.wf.tree hdone.wf.free_pages) ?_)
    rintro found ram₂ ⟨hedit, hslot⟩
    have hwf := hdone.wf.edit hedit
    have hlook : ∀ va', lookup ram₂ root va' = lookup ram₁ root va' :=
      hedit.look
    cases found with
    | none =>
      exact (wlp_pure _).mpr ⟨n, by omega, by simp; omega, hwf,
        fun k hk => hlook _ ▸ hdone.inside k hk,
        fun va' hva' hout => (hlook va').trans (hdone.outside va' hva' hout)⟩
    | some s =>
      dsimp only
      rw [wlp_bind, wlp_read, wlp_ite]
      split
      · exact wlp_panic.mpr trivial
      rw [wlp_bind, wlp_update]
      have hdvd : PGSIZE ∣ 2 ^ 64 := by decide
      have haligned : (pa + n * PGSIZE) % 2 ^ 64 % PGSIZE = 0 :=
        (Nat.mod_mod_of_dvd _ hdvd).trans ((Nat.add_mul_mod_self_right pa n PGSIZE).trans hpa)
      obtain ⟨hpte, hflags, hvalid⟩ :=
        pte_packed haligned (Nat.mod_lt _ (by decide)) hperm
      obtain ⟨hwf', _, hlook'⟩ := hwf.put hva (hslot s rfl)
        (PA2PTE ((pa + n * PGSIZE) % 2 ^ 64) ||| perm ||| PTE_V)
      simp only [hlook, Scheme.valid, child_valid hvalid, Option.map_some] at hlook'
      have hmore := hdone.snoc hva hwf' hlook' hpte hflags
      rw [wlp_ite]
      split
      next hend =>
        have hone := (last_iff htotal hva hlt).mp hend
        exact (wlp_pure _).mpr ⟨n + 1, by omega, by simp; omega, hmore⟩
      rename_i hend
      have hmany : 0 < left := Nat.pos_of_ne_zero fun hzero =>
        hend ((last_iff htotal hva hlt).mpr hzero)
      have hnext : (va + n * PGSIZE + PGSIZE) % 2 ^ 64 = va + (n + 1) * PGSIZE := by
        rw [Nat.succ_mul, ← Nat.add_assoc]
        refine Nat.mod_eq_of_lt ?_
        simp only [MAXVA, PGSIZE] at hva ⊢
        omega
      rw [hnext, Nat.mod_add_mod, Nat.add_assoc, ← Nat.succ_mul]
      exact ih hmany (by omega) hmore

theorem wlp_mappages {size : Nat} (hwf : Wf kernelEnd ram root)
    (hsize : size < 2 ^ 64) (hpa : pa % PGSIZE = 0) (hlt : pa < 2 ^ 64) (hperm : perm < 2 ^ 10) :
    wlp (mappages root va size pa perm) ram (fun ok ram' =>
      ∃ n ≤ size / PGSIZE, (ok = true ↔ n = size / PGSIZE) ∧
        Mapped kernelEnd root va pa perm n ram ram') := by
  unfold mappages
  rw [wlp_ite]
  split
  · exact wlp_panic.mpr trivial
  rw [wlp_ite]
  split
  · exact wlp_panic.mpr trivial
  rename_i haligned
  rw [wlp_ite]
  split
  · exact wlp_panic.mpr trivial
  rename_i hne
  have hexact := Nat.div_mul_cancel (Nat.dvd_of_mod_eq_zero (not_not.mp haligned))
  have hpos : 0 < size / PGSIZE := by
    refine Nat.pos_of_ne_zero fun hzero => hne ?_
    rw [← hexact, hzero, Nat.zero_mul]
  have hloop := @wlp_mappagesFrom kernelEnd root va ram ram pa perm 0
    (size / PGSIZE) (size / PGSIZE) hpa hperm (by rwa [hexact]) hpos
    (Nat.zero_add _).symm ⟨hwf, by simp, fun _ _ _ => rfl⟩
  rwa [hexact, Nat.zero_mul, Nat.add_zero, Nat.add_zero, Nat.mod_eq_of_lt hlt] at hloop

/-! ### Unmapping -/

/-- The pages that are mapped from `va` on are neither page-table pages nor
free, and none is mapped twice. -/
def Data (ram : Ram) (root va npages : Nat) : Prop :=
  ∀ k < npages, ∀ pte, lookup ram root (va + k * PGSIZE) = some pte →
    tables ram root (PTE2PA pte) + ram.free.count (PTE2PA pte) = 0 ∧
    ∀ j < npages, ∀ pte', lookup ram root (va + j * PGSIZE) = some pte' →
      PTE2PA pte' = PTE2PA pte → j = k

/-- Something is mapped from `va` on that is no leaf, or no page to be freed. -/
def Stuck (kernelEnd root va npages : Nat) (doFree : Bool) (ram : Ram) : Prop :=
  ∃ k < npages, ∃ pte, lookup ram root (va + k * PGSIZE) = some pte ∧
    (PTE_FLAGS pte = PTE_V ∨ doFree = true ∧ ¬ IsPage kernelEnd (PTE2PA pte))

/-- `n` pages from `va` on are not mapped, and nothing else has changed. -/
structure Unmapped (kernelEnd root va n : Nat) (ram ram' : Ram) : Prop where
  wf : Wf kernelEnd ram' root
  look : ∀ va' < MAXVA, lookup ram' root va' =
    if va / PGSIZE ≤ va' / PGSIZE ∧ va' / PGSIZE < va / PGSIZE + n then none
    else lookup ram root va'
  tables : ∀ page, tables ram' root page = tables ram root page
  freed : ∀ page, ram'.free.count page = ram.free.count page ∨
    ∃ k < n, ∃ pte, lookup ram root (va + k * PGSIZE) = some pte ∧ PTE2PA pte = page

/-- A page goes to the free list. -/
theorem Wf.free {page : Nat} (hwf : Wf kernelEnd ram root) (hpage : IsPage kernelEnd page)
    (hunused : tables ram root page + ram.free.count page = 0) :
    Wf kernelEnd { ram with free := page :: ram.free } root := by
  have hsame : layout.Same ram { ram with free := page :: ram.free } 2 root :=
    Scheme.same_of_agree fun _ _ => rfl
  refine ⟨⟨hsame.shaped hwf.tree.shaped, fun other => ?_⟩, fun other hpos => ?_⟩
  · have honce := hwf.tree.once other
    unfold tables at hunused
    rw [hsame.occurs, List.count_cons]
    split
    next heq =>
      rw [← eq_of_beq heq]
      omega
    · exact honce
  · by_cases heq : other = page
    · exact heq ▸ hpage
    · refine hwf.pages other ?_
      rwa [tables, hsame.occurs, List.count_cons_of_ne (Ne.symm heq)] at hpos

/-- One more page. -/
theorem Unmapped.snoc {n : Nat} {ram₂ : Ram} (hdone : Unmapped kernelEnd root va n ram ram₁)
    (hwf : Wf kernelEnd ram₂ root) (hlook : ∀ va' < MAXVA, lookup ram₂ root va' =
      if va' / PGSIZE = va / PGSIZE + n then none else lookup ram₁ root va')
    (htables : ∀ page, Sv39.tables ram₂ root page = Sv39.tables ram₁ root page)
    (hfreed : ∀ page, ram₂.free.count page = ram₁.free.count page ∨
      ∃ pte, lookup ram root (va + n * PGSIZE) = some pte ∧
        PTE2PA pte = page) : Unmapped kernelEnd root va (n + 1) ram ram₂ := by
  refine ⟨hwf, fun va' hva' => ?_, fun page =>
    (htables page).trans (hdone.tables page), fun page => ?_⟩
  · rw [hlook va' hva', hdone.look va' hva']
    by_cases hat : va' / PGSIZE = va / PGSIZE + n
    · rw [if_pos hat, if_pos (by omega)]
    · rw [if_neg hat]
      exact if_congr (by omega) rfl rfl
  · rcases hfreed page with heq | hnew
    · rw [heq]
      exact (hdone.freed page).imp_right fun ⟨k, hk, hold⟩ => ⟨k, by omega, hold⟩
    · exact Or.inr ⟨n, Nat.lt_succ_self n, hnew⟩

/-- The loop of `uvmunmap` after `n` pages. -/
theorem ends_uvmunmapFrom {n left npages : Nat} {doFree : Bool}
    (hend : va + npages * PGSIZE ≤ MAXVA) (hdata : doFree = true → Data ram root va npages)
    (hnpages : npages = n + left) (hdone : Unmapped kernelEnd root va n ram ram₁) :
    ends (uvmunmapFrom kernelEnd root doFree left (va + n * PGSIZE)) ram₁
      (fun _ => Unmapped kernelEnd root va npages ram)
      (fun _ => Stuck kernelEnd root va npages doFree ram) := by
  induction left generalizing n ram₁ with
  | zero => exact (ends_pure _).mpr (hnpages ▸ hdone)
  | succ left ih =>
    have hva : va + n * PGSIZE < MAXVA := by
      have := Nat.mul_le_mul_right PGSIZE (show n + 1 ≤ npages by omega)
      rw [Nat.succ_mul] at this
      simp only [PGSIZE] at *
      omega
    have hpage : (va + n * PGSIZE) / PGSIZE = va / PGSIZE + n :=
      Nat.add_mul_div_right _ _ (by decide)
    have hsame : lookup ram₁ root (va + n * PGSIZE) = lookup ram root (va + n * PGSIZE) := by
      rw [hdone.look _ hva, hpage, if_neg (by omega)]
    have hrest : ∀ ram₂, Unmapped kernelEnd root va (n + 1) ram ram₂ →
        ends (uvmunmapFrom kernelEnd root doFree left (va + n * PGSIZE + PGSIZE)) ram₂
          (fun _ => Unmapped kernelEnd root va npages ram)
          (fun _ => Stuck kernelEnd root va npages doFree ram) := by
      intro ram₂ hmore
      rw [Nat.add_assoc, ← Nat.succ_mul]
      exact ih (by omega) hmore
    have hskip : lookup ram₁ root (va + n * PGSIZE) = none →
        Unmapped kernelEnd root va (n + 1) ram ram₁ := by
      intro hnone
      refine hdone.snoc hdone.wf (fun va' _ => ?_) (fun _ => rfl) fun _ => Or.inl rfl
      by_cases hat : va' / PGSIZE = va / PGSIZE + n
      · rw [if_pos hat, lookup_page (hat.trans hpage.symm), hnone]
      · rw [if_neg hat]
    unfold uvmunmapFrom
    rw [ends_bind]
    refine ends_of_eq (walk_false hva) ?_
    cases hslot : slot ram₁ root (va + n * PGSIZE) with
    | none =>
      refine hrest _ (hskip ?_)
      unfold lookup Scheme.look
      rw [show layout.place ram₁ 2 root _ = none from hslot]
      rfl
    | some s =>
      have hleaf := lookup_slot hslot
      dsimp only
      rw [ends_bind, ends_read, ends_ite]
      generalize ram₁.store s.1 s.2 = pte at hleaf ⊢
      split
      next hvalid =>
        rw [Scheme.valid, child_invalid hvalid] at hleaf
        exact hrest _ (hskip hleaf)
      rename_i hvalid
      rw [hsame, Scheme.valid, child_valid hvalid, Option.map_some] at hleaf
      rw [ends_ite]
      split
      next hflags =>
        exact ⟨n, by omega, pte, hleaf, Or.inl hflags⟩
      -- the entry is cleared, with the page freed or not
      have hclear : ∀ free, Wf kernelEnd ⟨ram₁.store, free⟩ root →
          (∀ page, free.count page = ram₁.free.count page ∨ PTE2PA pte = page) →
          Unmapped kernelEnd root va (n + 1) ram (Heap.set ⟨ram₁.store, free⟩ s.1 s.2 0) := by
        intro free hwf hfree
        obtain ⟨hwf', htables', hlook'⟩ := hwf.put hva hslot 0
        rw [hpage] at hlook'
        exact hdone.snoc hwf' hlook' htables' fun page =>
          (hfree page).imp_right fun heq => ⟨pte, hleaf, heq⟩
      rw [ends_bind]
      cases doFree with
      | false => exact hrest _ (hclear ram₁.free hdone.wf fun _ => Or.inl rfl)
      | true =>
        unfold when kfree
        rw [if_pos rfl, ends_ite]
        split
        next hfreed =>
          obtain ⟨hunused, hinj⟩ := hdata rfl n (by omega) pte hleaf
          have hunused₁ : tables ram₁ root (PTE2PA pte) + ram₁.free.count (PTE2PA pte) = 0 := by
            rw [hdone.tables]
            rcases hdone.freed (PTE2PA pte) with heq | ⟨k, hk, pte', h, h'⟩
            · rwa [heq]
            · have := hinj k (by omega) pte' h h'
              omega
          refine hrest _ (hclear _ (hdone.wf.free hfreed hunused₁) fun page => ?_)
          by_cases heq : PTE2PA pte = page
          · exact Or.inr heq
          · exact Or.inl (List.count_cons_of_ne heq)
        next hkept =>
          exact ⟨n, by omega, pte, hleaf, Or.inr ⟨rfl, hkept⟩⟩

/-! ### Freeing the tables -/

/-- What freeing below one entry does: every page of `share` gets free. -/
def Frees (ram : Ram) (share : Nat → Nat) (code : Code Ram Unit) : Prop :=
  ∀ ram₁ : Ram, (∀ page, 0 < share page → ram₁.store page = ram.store page) →
    wp code ram₁ (fun _ ram₂ =>
      (∀ page, ram₂.free.count page = ram₁.free.count page + share page) ∧
      ∀ page, share page = 0 → ram₂.store page = ram₁.store page)

/-- Entries `rest` of a table are still to be freed. -/
structure Freeing (ram ram₁ : Ram) (pagetable : Nat)
    (share : Fin 512 → Nat → Nat) (total : Nat → Nat) (rest : List (Fin 512))
    (ram₂ : Ram) : Prop where
  nodup : rest.Nodup
  word : ∀ i ∈ rest, ram₂.store pagetable i = ram.store pagetable i
  agree : ∀ i ∈ rest, ∀ page, 0 < share i page → ram₂.store page = ram.store page
  count : ∀ page, ram₂.free.count page + (rest.map (share · page)).sum =
    ram₁.free.count page + ∑ i, share i page
  keeps : ∀ page, total page = 0 → ram₂.store page = ram₁.store page

section Table

variable {free : Nat → Code Ram Unit} {share : Fin 512 → Nat → Nat}
  {total : Nat → Nat}
  (htotal : ∀ page, total page = (if page = pagetable then 1 else 0) + ∑ i, share i page)
  (honce : ∀ page, total page ≤ 1)
  (hentry : ∀ i, layout.child (ram.store pagetable i) = none ∧ (∀ page, share i page = 0) ∨
    ∃ next, layout.child (ram.store pagetable i) = some next ∧
      layout.bare (ram.store pagetable i) ∧ Frees ram (share i) (free next))

include htotal honce hentry

theorem ends_freeEntry {i : Fin 512} {rest : List (Fin 512)} {ram₂ : Ram}
    (hinv : Freeing ram ram₁ pagetable share total (i :: rest) ram₂) :
    ends (freeEntry free pagetable i) ram₂ (fun _ => Freeing ram ram₁ pagetable share total rest)
      (fun _ => False) := by
  have hnodup := List.nodup_cons.mp hinv.nodup
  have hword := fun j hj => hinv.word j (List.mem_cons_of_mem i hj)
  have hagree := fun j hj => hinv.agree j (List.mem_cons_of_mem i hj)
  have hcount := hinv.count
  simp only [List.map_cons, List.sum_cons] at hcount
  unfold freeEntry
  rw [ends_bind, ends_read, hinv.word i List.mem_cons_self]
  by_cases hvalid : ram.store pagetable i &&& PTE_V = 0
  · rw [if_neg (fun h => h.1 hvalid), if_neg (not_not.mpr hvalid)]
    refine (ends_pure _).mpr ⟨hnodup.2, hword, hagree, fun page => ?_, hinv.keeps⟩
    rcases hentry i with ⟨_, hzero⟩ | ⟨next, hnext, _⟩
    · have := hcount page
      have := hzero page
      omega
    · rw [child_invalid hvalid] at hnext
      cases hnext
  · obtain ⟨hnone, _⟩ | ⟨next, hnext, hbare, hfrees⟩ := hentry i
    · rw [child_valid hvalid] at hnone
      cases hnone
    rw [child_valid hvalid, Option.some.injEq] at hnext
    subst hnext
    rw [if_pos ⟨hvalid, hbare⟩, ends_bind]
    refine ends_of_wp (wp_mono (hfrees ram₂ (hinv.agree i List.mem_cons_self)) ?_)
    rintro _ ram₃ ⟨hcount₃, hkeeps₃⟩
    have hshare := fun page => TableSum.le_sum (share · page) id i
    dsimp only [id] at hshare
    -- what is neither the table nor below this entry
    have hother : ∀ page, page ≠ pagetable → share i page = 0 →
        (ram₃.set pagetable i 0).store page = ram₂.store page :=
      fun page hne hzero => (Function.update_of_ne hne _ _).trans (hkeeps₃ page hzero)
    refine ⟨hnodup.2, fun j hj => ?_, fun j hj page hpos => ?_, fun page => ?_,
      fun page hzero => ?_⟩
    · have hle := honce pagetable
      have := hshare pagetable
      rw [htotal, if_pos rfl] at hle
      simp only [Heap.set, Function.update_self]
      rw [Function.update_of_ne (fun heq : j = i => hnodup.1 (heq ▸ hj)),
        hkeeps₃ pagetable (by omega)]
      exact hword j hj
    · have hpair := TableSum.add_le_sum (share · page) id (fun heq : j = i => hnodup.1 (heq ▸ hj))
      have hle := honce page
      rw [htotal] at hle
      dsimp only [id] at hpair
      rw [hother page (fun heq => ?_) (by omega)]
      · exact hagree j hj page hpos
      · rw [if_pos heq] at hle
        omega
    · have := hcount page
      have := hcount₃ page
      change ram₃.free.count page + _ = _
      omega
    · have hsum := htotal page
      have := hshare page
      rw [hother page (fun heq => ?_) (by omega), hinv.keeps page hzero]
      rw [if_pos heq] at hsum
      omega

/-- The loop of `freewalk`, and the table itself. -/
theorem frees_table (hpage : IsPage kernelEnd pagetable) : Frees ram total (do
      forEach (freeEntry free pagetable) (List.finRange 512)
      kfree kernelEnd pagetable) := by
  intro ram₁ hsame
  have hstart : Freeing ram ram₁ pagetable share total (List.finRange 512) ram₁ := by
    refine ⟨List.nodup_finRange 512, fun i _ => ?_, fun i _ page hpos => ?_,
      fun page => ?_, fun _ _ => rfl⟩
    · rw [hsame pagetable (by rw [htotal, if_pos rfl]; omega)]
    · have := TableSum.le_sum (share · page) id i
      dsimp only [id] at this
      exact hsame page (by rw [htotal]; omega)
    · rw [Fin.sum_univ_def]
  generalize List.finRange 512 = entries at hstart ⊢
  have hloop := @ends_forEach Ram (Fin 512) _ (freeEntry free pagetable)
    (Freeing ram ram₁ pagetable share total)
    (fun _ _ _ hinv => ends_freeEntry htotal honce hentry hinv) _ _ hstart
  refine wp_seq (wp_of_ends hloop) fun _ ram₂ hdone => ?_
  unfold kfree
  rw [if_pos hpage, wp_update]
  refine ⟨fun page => ?_, hdone.keeps⟩
  have hcount := hdone.count page
  simp only [List.map_nil, List.sum_nil, Nat.add_zero] at hcount
  rw [List.count_cons, htotal, hcount]
  simp only [beq_iff_eq, eq_comm (a := pagetable)]
  omega

end Table

theorem frees_freewalk {depth : Nat} (hdepth : level < depth)
    (hshaped : layout.Shaped ram level pagetable)
    (honce : ∀ page, layout.occurs ram level pagetable page ≤ 1)
    (hpages : ∀ page, 0 < layout.occurs ram level pagetable page → IsPage kernelEnd page)
    (hleafless : layout.Leafless ram level pagetable) :
    Frees ram (layout.occurs ram level pagetable) (freewalk kernelEnd depth pagetable) := by
  have hpage := hpages pagetable Scheme.occurs_root
  induction level generalizing depth pagetable with
  | zero =>
    obtain ⟨depth, rfl⟩ := Nat.exists_eq_succ_of_ne_zero hdepth.ne'
    exact frees_table (fun page => by simp [Scheme.occurs]) honce
      (fun i => Or.inl ⟨hleafless i, fun _ => rfl⟩) hpage
  | succ level ih =>
    obtain ⟨depth, rfl⟩ := Nat.exists_eq_succ_of_ne_zero (Nat.ne_of_gt (Nat.zero_lt_of_lt hdepth))
    refine frees_table (fun _ => rfl) honce (fun i => ?_) hpage
    cases hnext : layout.child (ram.store pagetable i) with
    | none => exact Or.inl ⟨rfl, fun _ => rfl⟩
    | some next =>
      obtain ⟨hbare, hbelow⟩ := hshaped i next hnext
      refine Or.inr ⟨next, rfl, hbare, ?_⟩
      have hle : ∀ page, layout.occurs ram level next page ≤
          layout.occurs ram (level + 1) pagetable page := by
        intro page
        have := layout.root_add_below_le ram level pagetable page i
        rw [Scheme.below_eq hnext] at this
        omega
      exact ih (by omega) hbelow (fun page => (hle page).trans (honce page))
        (fun page hpos => hpages page (hpos.trans_le (hle page)))
        (hleafless i next hnext)
        (hpages next (Scheme.occurs_root.trans_le (hle next)))

theorem ends_uvmunmap {npages : Nat} {doFree : Bool} (hwf : Wf kernelEnd ram root)
    (hva : va % PGSIZE = 0) (hend : va + npages * PGSIZE ≤ MAXVA)
    (hdata : doFree = true → Data ram root va npages) :
    ends (uvmunmap kernelEnd root va npages doFree) ram
      (fun _ => Unmapped kernelEnd root va npages ram)
      (fun _ => Stuck kernelEnd root va npages doFree ram) := by
  have hcount : ((va + npages * PGSIZE) % 2 ^ 64 - va) / PGSIZE = npages := by
    rw [Nat.mod_eq_of_lt (hend.trans_lt (by decide)), Nat.add_sub_cancel_left]
    exact Nat.mul_div_cancel npages (by decide)
  rw [uvmunmap, if_neg (not_not.mpr hva), hcount]
  have hloop := @ends_uvmunmapFrom kernelEnd root va ram ram 0 npages npages doFree hend hdata
    (Nat.zero_add _).symm ⟨hwf, fun _ _ => by rw [if_neg (by omega)], fun _ => rfl,
      fun _ => Or.inl rfl⟩
  simpa using hloop

/-- A page table is a finite map from pages to PTEs: no two pages share a slot,
`mappages` adds a range or part of one, `uvmunmap` takes a range away, and
`freewalk` gives every page-table page back once. -/
theorem pagetable_is_map (hwf : Wf kernelEnd ram root) :
    (∀ va < MAXVA, walk root va false ram = .ok (slot ram root va, ram)) ∧
    (∀ va < MAXVA, ∀ va' < MAXVA, ∀ s, slot ram root va = some s →
      slot ram root va' = some s → va' / PGSIZE = va / PGSIZE) ∧
    (∀ va size pa perm, size < 2 ^ 64 → pa % PGSIZE = 0 → pa < 2 ^ 64 →
      perm < 2 ^ 10 → wlp (mappages root va size pa perm) ram (fun ok ram' =>
        ∃ n ≤ size / PGSIZE, (ok = true ↔ n = size / PGSIZE) ∧
          Mapped kernelEnd root va pa perm n ram ram')) ∧
    (∀ va npages doFree, va % PGSIZE = 0 → va + npages * PGSIZE ≤ MAXVA →
      (doFree = true → Data ram root va npages) →
      ends (uvmunmap kernelEnd root va npages doFree) ram
        (fun _ => Unmapped kernelEnd root va npages ram)
        (fun _ => Stuck kernelEnd root va npages doFree ram)) ∧
    (layout.Leafless ram 2 root → ∀ depth, 3 ≤ depth →
      wp (freewalk kernelEnd depth root) ram (fun _ ram' => ∀ page,
        tables ram root page ≤ 1 ∧ ram'.free.count page =
          ram.free.count page + tables ram root page)) := by
  have honce : ∀ page, tables ram root page ≤ 1 := fun page =>
    (Nat.le_add_right _ _).trans (hwf.tree.once page)
  refine ⟨fun va hva => walk_false hva, fun va hva va' hva' s hs hs' =>
    (PX_eq_iff hva hva').mp (hwf.tree.place_inj hs' hs), fun va size pa perm =>
    wlp_mappages hwf, fun va npages doFree => ends_uvmunmap hwf, fun hleafless depth hdepth => ?_⟩
  refine wp_mono (frees_freewalk hdepth hwf.tree.shaped honce (fun page hpos =>
    hwf.pages page (Nat.add_pos_left hpos _)) hleafless ram fun _ _ => rfl) ?_
  exact fun _ ram' hfreed page => ⟨honce page, hfreed.1 page⟩

/-- An empty page table at the bottom of memory, and two free pages. -/
def fresh : Ram := ⟨fun _ _ => 0, [0x80001000, 0x80002000]⟩

theorem fresh_wf : Wf 0x80000000 fresh 0x80000000 := by
  have hblank : ∀ i, layout.child (fresh.store 0x80000000 i) = none :=
    fun _ => child_invalid (Nat.zero_and PTE_V)
  have hcount : ∀ page, layout.occurs fresh 2 0x80000000 page +
      fresh.free.count page = (0x80000000 :: fresh.free).count page := by
    intro page
    rw [Scheme.occurs_blank hblank, List.count_cons, Nat.add_comm]
    simp only [beq_iff_eq, eq_comm (a := page)]
  refine ⟨⟨fun i next hnext => ?_, fun page => ?_⟩, fun page hpos => ?_⟩
  · rw [hblank i] at hnext
    cases hnext
  · rw [hcount]
    exact List.nodup_iff_count_le_one.mp (by decide) page
  · rw [tables, hcount] at hpos
    have hall : ∀ page ∈ 0x80000000 :: fresh.free, IsPage 0x80000000 page := by
      decide
    exact hall page (List.count_pos_iff.mp hpos)

/-- A table with `next` below its first entry and nothing below the others. -/
def OnlyFirst (ram : Ram) (pagetable : Nat) (next : Option Nat) : Prop :=
  ∀ i, layout.child (ram.store pagetable i) = if i.val = 0 then next else none

instance (ram : Ram) (pagetable : Nat) (next : Option Nat) :
    Decidable (OnlyFirst ram pagetable next) :=
  inferInstanceAs (Decidable (∀ _, _))

/-- Two pages are mapped, looked up and unmapped with their frames; then the three
page-table pages are freed. -/
theorem pagetable_is_map_twoPages : Wf 0x80000000 fresh 0x80000000 ∧
    ∃ ram₁ ram₂ ram₃,
      mappages 0x80000000 0 (2 * PGSIZE) 0x80003000 (PTE_R ||| PTE_W) fresh = .ok (true, ram₁) ∧
      (lookup ram₁ 0x80000000 PGSIZE).map PTE2PA = some 0x80004000 ∧
      uvmunmap 0x80000000 0x80000000 0 2 true ram₁ = .ok ((), ram₂) ∧
      lookup ram₂ 0x80000000 PGSIZE = none ∧
      freewalk 0x80000000 3 0x80000000 ram₂ = .ok ((), ram₃) ∧
      ∀ page, tables ram₂ 0x80000000 page ≤ 1 ∧
        ram₃.free.count page = ram₂.free.count page + tables ram₂ 0x80000000 page := by
  have hseen : wp (mappages 0x80000000 0 (2 * PGSIZE) 0x80003000 (PTE_R ||| PTE_W)) fresh
      (fun ok ram₁ => ok = true ∧ ram₁.free = [] ∧ lookup ram₁ 0x80000000 0 = some 0x20000c07 ∧
        lookup ram₁ 0x80000000 PGSIZE = some 0x20001007 ∧
        tables ram₁ 0x80000000 0x80003000 = 0 ∧ tables ram₁ 0x80000000 0x80004000 = 0 ∧
        wp (uvmunmap 0x80000000 0x80000000 0 2 true) ram₁ (fun _ ram₂ =>
          OnlyFirst ram₂ 0x80000000 (some 0x80001000) ∧
          OnlyFirst ram₂ 0x80001000 (some 0x80002000) ∧ OnlyFirst ram₂ 0x80002000 none)) := by
    decide +kernel
  obtain ⟨_, ram₁, hmap, rfl, hfree, hfirst, hsecond, htable, htable', _, ram₂, hunmap, htop, hmid,
    hlow⟩ := hseen
  obtain ⟨-, -, hmaps, -, -⟩ := pagetable_is_map fresh_wf
  obtain ⟨n, -, -, hmapped⟩ := hmaps _ _ _ _ (by decide) (by decide) (by decide) (by decide) _ _
    hmap
  -- the two data pages are in no table, and different
  have hdata : Data ram₁ 0x80000000 0 2 := by
    have hpage : ∀ k < 2, ∀ pte, lookup ram₁ 0x80000000 (0 + k * PGSIZE) = some pte →
        PTE2PA pte = 0x80003000 + k * PGSIZE := by
      intro k hk pte hpte
      obtain rfl | rfl : k = 0 ∨ k = 1 := by omega
      · cases hfirst.symm.trans hpte
        rfl
      · cases hsecond.symm.trans hpte
        rfl
    intro k hk pte hpte
    refine ⟨?_, fun j hj pte' hpte' hsame => ?_⟩
    · rw [hpage k hk pte hpte, hfree]
      obtain rfl | rfl : k = 0 ∨ k = 1 := by omega
      · rw [show 0x80003000 + 0 * PGSIZE = 0x80003000 by decide, htable]
        rfl
      · rw [show 0x80003000 + 1 * PGSIZE = 0x80004000 by decide, htable']
        rfl
    · rw [hpage k hk pte hpte, hpage j hj pte' hpte', PGSIZE] at hsame
      omega
  obtain ⟨-, -, -, hunmaps, -⟩ := pagetable_is_map hmapped.wf
  have hgone := wlp_of_ends (hunmaps 0 2 true (by decide) (by decide) fun _ => hdata) _ _ hunmap
  have hleafless : layout.Leafless ram₂ 2 0x80000000 := by
    intro i mid hi
    rw [htop i] at hi
    split at hi <;> cases hi
    intro j low hj
    rw [hmid j] at hj
    split at hj <;> cases hj
    intro l
    rw [hlow l, ite_self]
  obtain ⟨-, -, -, -, hfrees⟩ := pagetable_is_map hgone.wf
  obtain ⟨_, ram₃, hwalk, hcount⟩ := hfrees hleafless 3 (Nat.le_refl 3)
  refine ⟨fresh_wf, ram₁, ram₂, ram₃, hmap, by rw [hsecond]; rfl, hunmap, ?_, hwalk, hcount⟩
  exact hgone.look PGSIZE (by decide)

/-- A physical address inside a page is not what is mapped. -/
theorem mappages_drops_offset : Wf 0x80000000 fresh 0x80000000 ∧
    ∃ ram' pte, mappages 0x80000000 0 PGSIZE 0x80003001 PTE_R fresh =
      .ok (true, ram') ∧ lookup ram' 0x80000000 0 = some pte ∧ PTE2PA pte = 0x80003000 := by
  have hseen : wp (mappages 0x80000000 0 PGSIZE 0x80003001 PTE_R) fresh (fun ok ram' => ok = true ∧
      ∃ pte ∈ lookup ram' 0x80000000 0, PTE2PA pte = 0x80003000) := by
    decide +kernel
  obtain ⟨_, ram', hrun, rfl, pte, hpte, hpa⟩ := hseen
  exact ⟨fresh_wf, ram', pte, hrun, hpte, hpa⟩

/-! ### The page tables of processes -/

section Shows

variable {pt : PageTable} {mem : Mem} {k : Nat}

def PTE_U : Nat := 16

/-- The physical page at an address, with the trampoline for those in the kernel. -/
def physOf (kernelEnd pa : Nat) : Phys :=
  if h : IsPage kernelEnd pa then .frame ⟨(pa - 0x80000000) / PGSIZE, by
    have := h.2.2
    simp only [PHYSTOP, NFRAME, PGSIZE] at *
    omega⟩
  else .trampoline

def permOf (flags : Nat) : Perm where
  r := flags &&& PTE_R ≠ 0
  w := flags &&& PTE_W ≠ 0
  x := flags &&& PTE_X ≠ 0
  u := flags &&& PTE_U ≠ 0

def pteOf (kernelEnd pte : Nat) : Pte := ⟨physOf kernelEnd (PTE2PA pte), permOf (PTE_FLAGS pte)⟩

/-- The page table in memory has the mappings of `pt`. -/
def Shows (kernelEnd : Nat) (ram : Ram) (root : Nat) (pt : PageTable) : Prop :=
  ∀ k < NPAGE, (lookup ram root (k * PGSIZE)).map (pteOf kernelEnd) = pt.page k

theorem shows_walk (hshows : Shows kernelEnd ram root pt) (hk : k < NPAGE) :
    wp (walk root (k * PGSIZE) false) ram (fun slot _ =>
      CkptKernel.walk pt (k * PGSIZE) mem = .ok ((slot.bind fun s =>
        layout.valid (ram.store s.1 s.2)).map (pteOf kernelEnd), mem)) := by
  refine ⟨_, _, walk_false (page_lt_MAXVA hk), ?_⟩
  rw [walk_page pt hk, ← hshows k hk]
  rfl

variable (hwf : Wf kernelEnd ram root) (hshows : Shows kernelEnd ram root pt)
include hwf hshows

/-- One page is mapped in both. -/
theorem shows_mappages (hk : k < NPAGE) (hpa : pa % PGSIZE = 0) (hlt : pa < 2 ^ 64)
    (hperm : perm < 2 ^ 10) : wlp (mappages root (k * PGSIZE) PGSIZE pa perm) ram (fun ok ram' =>
      wlp (CkptKernel.mappages pt (k * PGSIZE) (physOf kernelEnd pa) (permOf (perm ||| PTE_V))) mem
        (fun result _ => result.2 = ok → Shows kernelEnd ram' root result.1)) := by
  refine wlp_mono (wlp_mappages hwf (by decide) hpa hlt hperm) ?_
  rintro ok ram' ⟨n, hn, hok, hmapped⟩
  refine wlp_mono (wlp_of_ends (ends_mappages pt hk _ _ mem)) ?_
  rintro result mem' hmapping rfl j hj
  rw [Nat.div_self (by decide)] at hn hok
  rw [hmapping.pages j (hj.trans_le NPAGE_le)]
  split
  next hdone =>
    obtain ⟨pte, hlook, hpage, hflags⟩ := hmapped.inside 0 (by have := hok.mp hdone.1; omega)
    rw [Nat.zero_mul, Nat.add_zero] at hlook hpage
    rw [hdone.2, hlook, Option.map_some, pteOf, hpage, hflags, Nat.mod_eq_of_lt hlt]
  next hother =>
    rw [← hshows j hj, hmapped.outside _ (page_lt_MAXVA hj)]
    intro i hi
    rw [Nat.mul_div_cancel _ (by decide), Nat.mul_div_cancel _ (by decide)]
    rintro rfl
    exact hother ⟨hok.mpr (by omega), by omega⟩

/-- Pages are taken away in both, from where the kernel does it. -/
theorem shows_uvmunmap {n : Nat} {doFree : Bool} (hpt : pt.Removable doFree k n)
    (hdata : doFree = true → Data ram root (k * PGSIZE) n) :
    wlp (uvmunmap kernelEnd root (k * PGSIZE) n doFree) ram (fun _ ram' =>
      wp (CkptKernel.uvmunmap doFree pt (k * PGSIZE) n) mem
        (fun pt' _ => Shows kernelEnd ram' root pt')) := by
  have hend : k * PGSIZE + n * PGSIZE ≤ MAXVA := by
    rw [← Nat.add_mul]
    exact (Nat.mul_le_mul_right PGSIZE hpt.le).trans (by decide)
  refine wlp_mono (wlp_of_ends (ends_uvmunmap hwf (by simp) hend hdata)) ?_
  intro _ ram' hgone
  rw [uvmunmap_page]
  refine wp_mono (wp_uvmunmapFrom hpt) ?_
  rintro pt' _ ⟨_, _, _, hpages⟩ j hj
  rw [hpages j (hj.trans_le NPAGE_le), hgone.look _ (page_lt_MAXVA hj), ← hshows j hj,
    Nat.mul_div_cancel _ (by decide), Nat.mul_div_cancel _ (by decide)]
  split <;> rfl

/-- Where `freewalk` meets no leaf in memory, it meets none in the other either.
Nothing is mapped above `MAXVA`. -/
theorem shows_freewalk (hleafless : layout.Leafless ram 2 root)
    (hhigh : ∀ k < NSLOT, NPAGE ≤ k → pt.page k = none) :
    (∃ ram', freewalk kernelEnd 3 root ram = .ok ((), ram')) ∧
      ∃ mem', CkptKernel.freewalk pt mem = .ok ((), mem') := by
  have hnone : ∀ k < NSLOT, pt.page k = none := by
    intro k hk
    by_cases hlow : k < NPAGE
    · rw [← hshows k hlow, lookup, hleafless.look]
      rfl
    · exact hhigh k hk (Nat.le_of_not_lt hlow)
  obtain ⟨_, ram', hrun, _⟩ := frees_freewalk (Nat.lt_succ_self 2) hwf.tree.shaped
    (fun page => (Nat.le_add_right _ _).trans (hwf.tree.once page))
    (fun page hpos => hwf.pages page (Nat.add_pos_left hpos _)) hleafless ram fun _ _ => rfl
  obtain ⟨_, mem', hrun', _⟩ := wp_freewalk hnone mem
  exact ⟨⟨ram', hrun⟩, mem', hrun'⟩

end Shows

end CkptKernel.Sv39
