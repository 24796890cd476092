/-
What the page-table code does, page by page: the mapping of each page number,
the frames that the tables and the user mappings hold, and how frames go
between the free list and a page table.
-/
import CkptKernel.Lib.TableSum
import CkptKernel.Memory

namespace CkptKernel

open ByteMem Code TableSum

/-- The pages below `MAXVA`. -/
def NPAGE : Nat := MAXVA / PGSIZE

/-- The leaf PTEs of a page table.  The tables have twice the entries that
addresses below `MAXVA` can reach. -/
def NSLOT : Nat := 512 ^ 3

theorem NPAGE_le : NPAGE ≤ NSLOT := by decide

/-- The page number of `TRAPFRAME`. -/
def TOP : Nat := NPAGE - 2

theorem TRAPFRAME_eq : TRAPFRAME = TOP * PGSIZE := by decide

theorem TRAMPOLINE_eq : TRAMPOLINE = (TOP + 1) * PGSIZE := by decide

theorem TOP_lt : TOP + 1 < NPAGE := by decide

theorem TOP_lt_NSLOT : TOP < NSLOT := by decide

def PageTable.page (pt : PageTable) (k : Nat) : Option Pte :=
  pt.leaf (k * PGSIZE)

theorem PX_page (level k : Nat) : (PX level (k * PGSIZE)).val = k / 512 ^ level % 512 := by
  simp only [PX]
  rw [Nat.mul_comm k, Nat.mul_div_mul_left _ _ (by decide)]

variable {j k : Nat}

theorem page_lt_MAXVA (hk : k < NPAGE) : k * PGSIZE < MAXVA := by
  simp only [NPAGE, MAXVA, PGSIZE] at hk ⊢
  omega

theorem walk_page (pt : PageTable) (hk : k < NPAGE) : walk pt (k * PGSIZE) = pure (pt.page k) :=
  if_neg (Nat.not_le.mpr (page_lt_MAXVA hk))

/-! ### Tables -/

/-- One for the frame itself. -/
def only (frame f : Frame) : Nat := if frame = f then 1 else 0

theorem count_cons_frame (frame f : Frame) (rest : List Frame) :
    (frame :: rest).count f = rest.count f + only frame f := by
  rw [List.count_cons]
  simp only [only, beq_iff_eq]

/-- How often `f` is the page of a table or of one below it. -/
def Table.tables {A : Type} (below : A → Frame → Nat) (table : Table A)
    (f : Frame) : Nat :=
  only table.frame f + ∑ i, (table.entry i).elim 0 (fun entry => below entry f)

def PageTable.tables (pt : PageTable) : Frame → Nat :=
  Table.tables (Table.tables (Table.tables fun _ _ => 0)) pt

theorem Table.tables_set {A : Type} (below : A → Frame → Nat) (table : Table A) (i : Fin 512)
    (value : A) (f : Frame) : (table.set i (some value)).tables below f +
        (table.entry i).elim 0 (fun entry => below entry f) =
      table.tables below f + below value f := by
  have hsum := sum_update_add (fun entry : Option A => entry.elim 0 (fun entry => below entry f))
    table.entry i (some value)
  simp only [Table.tables, Table.set, Option.elim_some] at hsum ⊢
  omega

theorem Table.tables_zeroed {A : Type} (below : A → Frame → Nat) (frame f : Frame) :
    (Table.zeroed frame : Table A).tables below f = only frame f := by
  simp [Table.tables, Table.zeroed]

/-- The lowest tables have no tables below. -/
theorem Table.tables_low (low : Table Pte) (f : Frame) :
    low.tables (fun _ _ => 0) f = only low.frame f := by
  have hzero : ∀ entry : Option Pte, entry.elim 0 (fun _ => 0) = 0 := by
    intro entry
    cases entry <;> rfl
  simp [Table.tables, hzero]

/-- `table` is what stands at `entry`, or an empty table to put there. -/
def Under {A : Type} (entry : Option (Table A)) (table : Table A) : Prop :=
  entry = some table ∨ entry = none ∧ ∀ i, table.entry i = none

theorem Under.bind_entry {A : Type} {entry : Option (Table A)}
    {table : Table A} (hunder : Under entry table) (i : Fin 512) :
    (entry.bind fun table => table.entry i) = table.entry i := by
  rcases hunder with rfl | ⟨rfl, hempty⟩
  · rfl
  · exact (hempty i).symm

theorem wp_walkDown {A : Type} (entry : Option (Table A)) (mem : Mem) :
    wp (walkDown entry) mem (fun result mem' => mem'.page = mem.page ∧ mem'.free <:+ mem.free ∧
      (result = none → mem' = mem ∧ entry = none ∧ mem.free = []) ∧
      ∀ table, result = some table → Under entry table ∧
        mem'.free.length + (if entry.isNone then 1 else 0) = mem.free.length ∧
        ∀ (below : A → Frame → Nat) f, mem'.free.count f + table.tables below f = mem.free.count f +
              entry.elim 0 (fun table => table.tables below f)) := by
  cases entry with
  | some table =>
    refine (wp_pure _).mpr ⟨rfl, List.suffix_refl _, by simp, ?_⟩
    rintro _ ⟨⟩
    exact ⟨Or.inl rfl, rfl, fun _ _ => rfl⟩
  | none =>
    unfold walkDown
    dsimp only
    rw [wp_bind]
    cases hfree : mem.free with
    | nil =>
      refine ⟨none, mem, by simp [kalloc, hfree], ?_⟩
      exact (wp_pure _).mpr ⟨rfl, hfree ▸ List.suffix_refl _,
        fun _ => ⟨rfl, rfl, rfl⟩, fun _ h => nomatch h⟩
    | cons frame rest =>
      refine ⟨some frame, { mem with free := rest }, by simp [kalloc, hfree], ?_⟩
      refine (wp_pure _).mpr ⟨rfl, List.suffix_cons _ _, by simp, ?_⟩
      rintro _ ⟨⟩
      refine ⟨Or.inr ⟨rfl, fun _ => rfl⟩, rfl, fun below f => ?_⟩
      rw [Table.tables_zeroed, count_cons_frame]
      rfl

/-! ### Leaves -/

/-- A leaf PTE by its three indices. -/
def PageTable.slot (pt : PageTable) (top mid low : Fin 512) : Option Pte :=
  ((pt.entry top).bind fun table => table.entry mid).bind
    fun table => table.entry low

theorem PageTable.page_eq_slot (pt : PageTable) (k : Nat) :
    pt.page k = pt.slot (PX 2 (k * PGSIZE)) (PX 1 (k * PGSIZE)) (PX 0 (k * PGSIZE)) := by
  unfold PageTable.page PageTable.leaf PageTable.slot
  cases pt.entry (PX 2 (k * PGSIZE)) <;> rfl

theorem Table.set_self {A : Type} (table : Table A) (i : Fin 512)
    (value : Option A) : (table.set i value).entry i = value := by
  simp [Table.set]

theorem Table.set_of_ne {A : Type} (table : Table A) {i j : Fin 512}
    (hne : j ≠ i) (value : Option A) : (table.set i value).entry j = table.entry j := by
  simp [Table.set, hne]

variable {pt : PageTable}

/-- A table put where `Under` allows it changes no leaf. -/
theorem PageTable.slot_set {top : Fin 512}
    {mid : Table (Table Pte)} (hmid : Under (pt.entry top) mid) (a b c : Fin 512) :
    PageTable.slot (pt.set top (some mid)) a b c = pt.slot a b c := by
  unfold PageTable.slot
  by_cases ha : a = top
  · subst ha
    rw [Table.set_self, hmid.bind_entry]
    rfl
  · rw [Table.set_of_ne _ ha]

/-- The lowest table for an address. -/
def PageTable.low (pt : PageTable) (top mid : Fin 512) : Option (Table Pte) :=
  (pt.entry top).bind fun table => table.entry mid

/-- The tables that `walk` has to make on the way to page `k`. -/
def PageTable.missing (pt : PageTable) (k : Nat) : Nat :=
  (if (pt.entry (PX 2 (k * PGSIZE))).isNone then 1 else 0) +
    if (pt.low (PX 2 (k * PGSIZE)) (PX 1 (k * PGSIZE))).isNone then 1 else 0

/-- What tables there are once page `k` has been mapped. -/
structure Reached (pt : PageTable) (k : Nat) (pt' : PageTable) : Prop where
  top : ∀ i, (pt'.entry i).isNone → (pt.entry i).isNone ∧ i ≠ PX 2 (k * PGSIZE)
  low : ∀ i j, (pt'.low i j).isNone →
    (pt.low i j).isNone ∧ (i, j) ≠ (PX 2 (k * PGSIZE), PX 1 (k * PGSIZE))

variable {low : Table Pte}

theorem PageTable.slot_put {va : Nat} {mid : Table (Table Pte)}
    (hmid : Under (pt.entry (PX 2 va)) mid) (hlow : Under (mid.entry (PX 1 va)) low)
    (pte : Option Pte) (a b c : Fin 512) : (pt.put va mid low pte).slot a b c =
      if a = PX 2 va ∧ b = PX 1 va ∧ c = PX 0 va then pte else pt.slot a b c := by
  unfold PageTable.put PageTable.slot
  by_cases ha : a = PX 2 va
  · subst ha
    rw [Table.set_self, hmid.bind_entry]
    simp only [Option.bind_some]
    by_cases hb : b = PX 1 va
    · subst hb
      rw [Table.set_self, Option.bind_some]
      by_cases hc : c = PX 0 va
      · subst hc
        simp [Table.set_self]
      · simp only [Table.set_of_ne _ hc, hc, and_false, if_false]
        exact (hlow.bind_entry c).symm
    · simp only [Table.set_of_ne _ hb, hb, false_and, and_false, if_false]
  · simp only [Table.set_of_ne _ ha, ha, false_and, if_false]

theorem PageTable.page_put {mid : Table (Table Pte)}
    (hmid : Under (pt.entry (PX 2 (k * PGSIZE))) mid)
    (hlow : Under (mid.entry (PX 1 (k * PGSIZE))) low) (pte : Option Pte)
    (hk : k < NSLOT) (hj : j < NSLOT) : (pt.put (k * PGSIZE) mid low pte).page j =
      if j = k then pte else pt.page j := by
  rw [page_eq_slot, slot_put hmid hlow, ← page_eq_slot]
  by_cases heq : j = k
  · subst heq
    simp
  · rw [if_neg heq, if_neg]
    rintro ⟨htop, hmid, hlow⟩
    simp only [Fin.ext_iff, PX_page] at htop hmid hlow
    simp only [NSLOT] at hj hk
    omega

/-- Writing a leaf takes no table page. -/
theorem PageTable.tables_put (pt : PageTable) (va : Nat) (mid : Table (Table Pte)) (low : Table Pte)
    (pte : Option Pte) (f : Frame) : (pt.put va mid low pte).tables f + (pt.entry (PX 2 va)).elim 0
          (fun table => table.tables (Table.tables fun _ _ => 0) f) + (mid.entry (PX 1 va)).elim 0
          (fun table => table.tables (fun _ _ => 0) f) =
      pt.tables f + mid.tables (Table.tables fun _ _ => 0) f + low.tables (fun _ _ => 0) f := by
  have htop := Table.tables_set (Table.tables (Table.tables fun _ _ => 0)) pt
    (PX 2 va) (mid.set (PX 1 va) (some (low.set (PX 0 va) pte))) f
  have hmid := Table.tables_set (Table.tables fun _ _ => 0) mid (PX 1 va) (low.set (PX 0 va) pte) f
  have hlow : (low.set (PX 0 va) pte).tables (fun _ _ => 0) f = low.tables (fun _ _ => 0) f := by
    rw [Table.tables_low, Table.tables_low]
    rfl
  unfold PageTable.put PageTable.tables
  omega

/-! ### Assigning a leaf -/

theorem PageTable.page_assign {pte : Pte}
    (hpage : pt.page k = some pte) (value : Option Pte) (hk : k < NSLOT) (hj : j < NSLOT) :
    (pt.assign (k * PGSIZE) value).page j = if j = k then value else pt.page j := by
  unfold PageTable.assign
  cases htop : pt.entry (PX 2 (k * PGSIZE)) with
  | none => simp [page, leaf, htop] at hpage
  | some mid =>
    cases hmid : mid.entry (PX 1 (k * PGSIZE)) with
    | none => simp [page, leaf, htop, hmid] at hpage
    | some low =>
      simp only [hmid]
      exact page_put (Or.inl htop) (Or.inl hmid) value hk hj

theorem PageTable.tables_assign (pt : PageTable) (va : Nat) (value : Option Pte) (f : Frame) :
    (pt.assign va value).tables f = pt.tables f := by
  unfold PageTable.assign
  cases htop : pt.entry (PX 2 va) with
  | none => rfl
  | some mid =>
    cases hmid : mid.entry (PX 1 va) with
    | none => simp only [hmid]
    | some low =>
      have hput := pt.tables_put va mid low value f
      rw [htop, hmid] at hput
      simp only [Option.elim_some] at hput
      simp only [hmid]
      omega

/-! ### Frames that a page table holds -/

/-- One if a PTE maps frame `f`. -/
def mapped (pte : Option Pte) (f : Frame) : Nat :=
  match pte with
  | some ⟨.frame frame, _⟩ => only frame f
  | _ => 0

/-- How often `f` is a page-table page or below `TRAPFRAME` the page of a
mapping. -/
def PageTable.owns (pt : PageTable) (f : Frame) : Nat :=
  pt.tables f + ∑ k ∈ Finset.range TOP, mapped (pt.page k) f

/-- Two page tables with the same user mappings. -/
theorem PageTable.owns_of_page_eq {pt' : PageTable} (hpage : ∀ k < TOP, pt'.page k = pt.page k)
    (f : Frame) : pt'.owns f + pt.tables f = pt.owns f + pt'.tables f := by
  have hsum : ∑ k ∈ Finset.range TOP, mapped (pt'.page k) f =
      ∑ k ∈ Finset.range TOP, mapped (pt.page k) f :=
    Finset.sum_congr rfl fun k hk => by rw [hpage k (Finset.mem_range.mp hk)]
  unfold PageTable.owns
  omega

/-- One mapping is changed. -/
theorem PageTable.owns_of_page_update {pt' : PageTable} (hk : k < TOP) {value : Option Pte}
    (hpage : ∀ j < TOP, pt'.page j = if j = k then value else pt.page j)
    (f : Frame) : pt'.owns f + pt.tables f + mapped (pt.page k) f =
      pt.owns f + pt'.tables f + mapped value f := by
  have hsum : ∑ j ∈ Finset.range TOP, mapped (pt'.page j) f =
      ∑ j ∈ Finset.range TOP, mapped (Function.update pt.page k value j) f := by
    refine Finset.sum_congr rfl fun j hj => ?_
    rw [hpage j (Finset.mem_range.mp hj), Function.update_apply]
  have hupdate := sum_update_add_of_mem (fun pte => mapped pte f) pt.page
    (Finset.mem_range.mpr hk) value
  unfold PageTable.owns
  omega

/-! ### Mapping and unmapping -/

theorem PageTable.reached_put {mid : Table (Table Pte)} {low : Table Pte}
    (hmid : Under (pt.entry (PX 2 (k * PGSIZE))) mid) (pte : Option Pte) :
    Reached pt k (pt.put (k * PGSIZE) mid low pte) := by
  refine ⟨fun i hi => ?_, fun i j hij => ?_⟩
  · by_cases heq : i = PX 2 (k * PGSIZE)
    · subst heq
      simp [PageTable.put, Table.set_self] at hi
    · simp only [PageTable.put, Table.set_of_ne _ heq] at hi
      exact ⟨hi, heq⟩
  · unfold PageTable.low PageTable.put at hij
    by_cases heq : i = PX 2 (k * PGSIZE)
    · subst heq
      simp only [Table.set_self, Option.bind_some] at hij
      by_cases heq' : j = PX 1 (k * PGSIZE)
      · subst heq'
        simp [Table.set_self] at hij
      · rw [Table.set_of_ne _ heq'] at hij
        refine ⟨?_, by simp [heq']⟩
        rw [PageTable.low, hmid.bind_entry]
        exact hij
    · rw [Table.set_of_ne _ heq] at hij
      exact ⟨hij, by simp [heq]⟩

/-- What `mappages` does for page `k`. -/
structure Mapping (pt : PageTable) (k : Nat) (pte : Pte) (mem : Mem)
    (result : PageTable × Bool) (mem' : Mem) : Prop where
  data : mem'.page = mem.page
  suffix : mem'.free <:+ mem.free
  tables : ∀ f, mem'.free.count f + result.1.tables f = mem.free.count f + pt.tables f
  pages : ∀ j < NSLOT, result.1.page j = if result.2 = true ∧ j = k then some pte else pt.page j
  fresh : result.2 = true → pt.page k = none
  short : result.2 = false → mem.free.length < pt.missing k
  paid : result.2 = true → mem'.free.length + pt.missing k = mem.free.length ∧ Reached pt k result.1

/-- Map one page.  The call stops only where there is a mapping already. -/
theorem ends_mappages (pt : PageTable) (hk : k < NPAGE) (pa : Phys)
    (perm : Perm) (mem : Mem) : ends (mappages pt (k * PGSIZE) pa perm) mem
      (Mapping pt k ⟨pa, perm⟩ mem) (fun _ => (pt.page k).isSome) := by
  unfold mappages
  rw [if_neg (by simp), if_neg (Nat.not_le.mpr (page_lt_MAXVA hk)), ends_bind]
  obtain ⟨mid, mem₁, hrun₁, hdata₁, hfree₁, hnone₁, hsome₁⟩ :=
    wp_walkDown (pt.entry (PX 2 (k * PGSIZE))) mem
  refine ends_of_eq hrun₁ ?_
  cases mid with
  | none =>
    obtain ⟨rfl, htop, hempty⟩ := hnone₁ rfl
    refine ⟨rfl, List.suffix_refl _, fun _ => rfl, by simp, by simp, fun _ => ?_, by simp⟩
    rw [hempty, PageTable.missing, htop]
    simp
  | some mid =>
    obtain ⟨hmid, hlen₁, hcount₁⟩ := hsome₁ mid rfl
    have hlower : pt.low (PX 2 (k * PGSIZE)) (PX 1 (k * PGSIZE)) =
        mid.entry (PX 1 (k * PGSIZE)) := hmid.bind_entry _
    dsimp only
    rw [ends_bind]
    obtain ⟨low, mem₂, hrun₂, hdata₂, hfree₂, hnone₂, hsome₂⟩ :=
      wp_walkDown (mid.entry (PX 1 (k * PGSIZE))) mem₁
    refine ends_of_eq hrun₂ ?_
    cases low with
    | none =>
      obtain ⟨rfl, hentry, hempty⟩ := hnone₂ rfl
      refine ⟨hdata₁, hfree₁, fun f => ?_, fun j _ => ?_, by simp, fun _ => ?_, by simp⟩
      · have hset := Table.tables_set (Table.tables (Table.tables fun _ _ => 0)) pt
          (PX 2 (k * PGSIZE)) mid f
        have hcount := hcount₁ (Table.tables fun _ _ => 0) f
        unfold PageTable.tables
        dsimp only
        omega
      · simp only [Bool.false_eq_true, false_and, if_false]
        rw [PageTable.page_eq_slot, PageTable.slot_set hmid, ← PageTable.page_eq_slot]
      · rw [PageTable.missing, hlower, hentry, ← hlen₁, hempty]
        simp
    | some low =>
      obtain ⟨hlow, hlen₂, hcount₂⟩ := hsome₂ low rfl
      have hpage : pt.page k = low.entry (PX 0 (k * PGSIZE)) := by
        rw [PageTable.page_eq_slot, PageTable.slot, hmid.bind_entry, hlow.bind_entry]
      dsimp only
      rw [ends_ite]
      split
      next hremap =>
        exact hpage ▸ hremap
      rename_i hfresh
      have hnone : pt.page k = none := by
        rw [hpage]
        exact Option.not_isSome_iff_eq_none.mp hfresh
      refine ⟨hdata₂.trans hdata₁, hfree₂.trans hfree₁, fun f => ?_,
        fun j hj => ?_, fun _ => hnone, by simp, fun _ => ⟨?_, PageTable.reached_put hmid _⟩⟩
      · have hput := pt.tables_put (k * PGSIZE) mid low (some ⟨pa, perm⟩) f
        have hmids := hcount₁ (Table.tables fun _ _ => 0) f
        have hlows := hcount₂ (fun _ _ => 0) f
        dsimp only
        omega
      · simp only [true_and]
        exact PageTable.page_put hmid hlow _ (hk.trans_le NPAGE_le) hj
      · rw [PageTable.missing, hlower]
        omega

/-- Pages that `uvmunmap` may take away: user pages with their frames, or pages
above user memory without. -/
structure PageTable.Removable (pt : PageTable) (doFree : Bool) (k n : Nat) : Prop where
  le : k + n ≤ NPAGE
  leaf : ∀ j, k ≤ j → j < k + n → ∀ pte, pt.page j = some pte → pte.perm.r = true
  frame : doFree = true → k + n ≤ TOP ∧ ∀ j, k ≤ j → j < k + n → ∀ pte,
    pt.page j = some pte → ∃ frame, pte.pa = .frame frame
  keep : doFree = false → TOP ≤ k

/-- What `uvmunmap` does to `n` pages from page `k` on. -/
structure PageTable.Cleared (pt : PageTable) (k n : Nat) (mem : Mem) (pt' : PageTable)
    (mem' : Mem) : Prop where
  data : mem'.page = mem.page
  count : ∀ f, mem'.free.count f + pt'.owns f = mem.free.count f + pt.owns f
  tables : ∀ f, pt'.tables f = pt.tables f
  pages : ∀ j < NSLOT, pt'.page j = if k ≤ j ∧ j < k + n then none else pt.page j

theorem wp_uvmunmapFrom {doFree : Bool} {n : Nat} {mem : Mem} (hpt : pt.Removable doFree k n) :
    wp (uvmunmapFrom doFree pt (k * PGSIZE) n) mem (pt.Cleared k n mem) := by
  induction n generalizing pt k mem with
  | zero =>
    refine (wp_pure pt).mpr ⟨rfl, fun _ => rfl, fun _ => rfl, fun j _ => ?_⟩
    rw [if_neg (by omega)]
  | succ n ih =>
    have hn := hpt.le
    have hk : k < NPAGE := by omega
    have hnext : k * PGSIZE + PGSIZE = (k + 1) * PGSIZE :=
      (Nat.succ_mul k PGSIZE).symm
    -- whatever has become of page `k`, the rest of the loop clears the others
    have hdone : ∀ (pt₁ : PageTable) (mem₁ : Mem),
        (∀ j < NSLOT, pt₁.page j = if j = k then none else pt.page j) →
        (∀ f, pt₁.tables f = pt.tables f) → mem₁.page = mem.page →
        (∀ f, mem₁.free.count f + pt₁.owns f = mem.free.count f + pt.owns f) →
        wp (uvmunmapFrom doFree pt₁ ((k + 1) * PGSIZE) n) mem₁ (pt.Cleared k (n + 1) mem) := by
      intro pt₁ mem₁ hpages₁ htables₁ hdata₁ hcount₁
      have hsame : ∀ j, k + 1 ≤ j → j < k + 1 + n → pt₁.page j = pt.page j := by
        intro j hlo hhi
        rw [hpages₁ j (by have := NPAGE_le; omega), if_neg (by omega)]
      refine wp_mono (ih ⟨by omega,
        fun j hlo hhi => hsame j hlo hhi ▸ hpt.leaf j (by omega) (by omega),
        fun hfree => ⟨by have := (hpt.frame hfree).1; omega, fun j hlo hhi => hsame j hlo hhi ▸
          (hpt.frame hfree).2 j (by omega) (by omega)⟩,
        fun hkept => by have := hpt.keep hkept; omega⟩) ?_
      rintro pt' mem' ⟨hdata, hcount, htables, hpages⟩
      refine ⟨hdata.trans hdata₁, fun f => (hcount f).trans (hcount₁ f),
        fun f => (htables f).trans (htables₁ f), fun j hj => ?_⟩
      rw [hpages j hj, hpages₁ j hj]
      by_cases heq : j = k
      · rw [if_pos heq, ite_self, if_pos (by omega)]
      · rw [if_neg heq]
        by_cases hin : k + 1 ≤ j ∧ j < k + 1 + n
        · rw [if_pos hin, if_pos (by omega)]
        · rw [if_neg hin, if_neg (by omega)]
    unfold uvmunmapFrom
    rw [walk_page pt hk, wp_bind, wp_pure, hnext]
    cases hpage : pt.page k with
    | none =>
      refine hdone pt mem (fun j _ => ?_) (fun _ => rfl) rfl fun _ => rfl
      split
      next heq =>
        rw [heq, hpage]
      · rfl
    | some pte =>
      have hread := hpt.leaf k (Nat.le_refl k) (by omega) pte hpage
      have hassign : ∀ j < NSLOT, (pt.assign (k * PGSIZE) none).page j =
          if j = k then none else pt.page j :=
        fun j hj => PageTable.page_assign hpage none (hk.trans_le NPAGE_le) hj
      have htables := pt.tables_assign (k * PGSIZE) none
      dsimp only
      rw [if_neg (fun hbare => by rw [hbare.1] at hread; cases hread), wp_bind]
      cases doFree with
      | false =>
        have htop := hpt.keep rfl
        refine (wp_pure ()).mpr (hdone _ mem hassign htables rfl fun f => ?_)
        have howns := PageTable.owns_of_page_eq (fun j (hj : j < TOP) => (hassign j
            (hj.trans TOP_lt_NSLOT)).trans (if_neg (by omega))) f
        have := htables f
        omega
      | true =>
        obtain ⟨frame, hpa⟩ := (hpt.frame rfl).2 k (Nat.le_refl k) (by omega) pte hpage
        have hlt : k < TOP := by
          have := (hpt.frame rfl).1
          omega
        simp only [when, if_true]
        rw [hpa, kfree, wp_update]
        refine hdone _ _ hassign htables rfl fun f => ?_
        have howns := PageTable.owns_of_page_update hlt (fun j (hj : j < TOP) => hassign j
            (hj.trans TOP_lt_NSLOT)) f
        have := htables f
        have hmapped : mapped (pt.page k) f = only frame f := by
          rw [hpage]
          obtain ⟨pa, perm⟩ := pte
          cases hpa
          rfl
        have hnone : mapped none f = 0 := rfl
        simp only [count_cons_frame]
        omega

theorem uvmunmap_page (doFree : Bool) (pt : PageTable) (k n : Nat) :
    uvmunmap doFree pt (k * PGSIZE) n = uvmunmapFrom doFree pt (k * PGSIZE) n :=
  if_neg (by simp)

/-! ### Freeing tables -/

theorem wp_forEach_frees {A : Type} {body : A → Code Mem Unit} {freed : A → Frame → Nat}
    (hbody : ∀ x mem, wp (body x) mem (fun _ mem' => mem'.page = mem.page ∧
      ∀ f, mem'.free.count f = mem.free.count f + freed x f)) (list : List A) (mem : Mem) :
    wp (forEach body list) mem (fun _ mem' => mem'.page = mem.page ∧ ∀ f, mem'.free.count f =
        mem.free.count f + (list.map (freed · f)).sum) := by
  induction list generalizing mem with
  | nil => exact (wp_pure ()).mpr ⟨rfl, fun _ => rfl⟩
  | cons x rest ih =>
    rw [forEach, wp_bind]
    refine wp_mono (hbody x mem) ?_
    rintro _ mem₁ ⟨hdata₁, hcount₁⟩
    refine wp_mono (ih mem₁) ?_
    rintro _ mem' ⟨hdata, hcount⟩
    refine ⟨hdata.trans hdata₁, fun f => ?_⟩
    rw [hcount f, hcount₁ f, List.map_cons, List.sum_cons, Nat.add_assoc]

/-- Free a table whose entries can be freed. -/
theorem wp_freeTable {A : Type} {child : A → Code Mem Unit} {below : A → Frame → Nat}
    {table : Table A} (hchild : ∀ i entry, table.entry i = some entry → ∀ mem,
      wp (child entry) mem (fun _ mem' => mem'.page = mem.page ∧
        ∀ f, mem'.free.count f = mem.free.count f + below entry f)) (mem : Mem) :
    wp (freeTable child table) mem (fun _ mem' => mem'.page = mem.page ∧
      ∀ f, mem'.free.count f = mem.free.count f + table.tables below f) := by
  unfold freeTable
  refine wp_seq (@wp_forEach_frees _ _ (fun i f => (table.entry i).elim 0
    (below · f)) (fun i mem => ?_) (List.finRange 512) mem) ?_
  · cases hentry : table.entry i with
    | none => exact (wp_pure ()).mpr ⟨rfl, fun _ => rfl⟩
    | some entry => exact hchild i entry hentry mem
  rintro _ mem₁ ⟨hdata₁, hcount₁⟩
  rw [kfree, wp_update]
  refine ⟨hdata₁, fun f => ?_⟩
  rw [count_cons_frame, hcount₁ f, Table.tables, ← List.sum_toFinset _
    (List.nodup_finRange 512), List.toFinset_finRange]
  omega

/-- Every leaf is that of a page. -/
theorem PageTable.slot_eq_page (pt : PageTable) (a b c : Fin 512) :
    ∃ k < NSLOT, pt.slot a b c = pt.page k := by
  refine ⟨a.val * 512 ^ 2 + b.val * 512 + c.val, ?_, ?_⟩
  · simp only [NSLOT]
    omega
  have htop : PX 2 ((a.val * 512 ^ 2 + b.val * 512 + c.val) * PGSIZE) = a :=
    Fin.ext (by rw [PX_page]; omega)
  have hmid : PX 1 ((a.val * 512 ^ 2 + b.val * 512 + c.val) * PGSIZE) = b :=
    Fin.ext (by rw [PX_page]; omega)
  have hlow : PX 0 ((a.val * 512 ^ 2 + b.val * 512 + c.val) * PGSIZE) = c :=
    Fin.ext (by rw [PX_page]; omega)
  rw [page_eq_slot, htop, hmid, hlow]

/-- A page table without leaves can be freed. -/
theorem wp_freewalk (hnone : ∀ k < NSLOT, pt.page k = none) (mem : Mem) :
    wp (freewalk pt) mem (fun _ mem' => mem'.page = mem.page ∧
      ∀ f, mem'.free.count f = mem.free.count f + pt.tables f) := by
  refine wp_freeTable (fun a mid hmid => wp_freeTable fun b low hlow =>
    wp_freeTable fun c pte hpte => ?_) mem
  obtain ⟨k, hk, hslot⟩ := pt.slot_eq_page a b c
  rw [hnone k hk, PageTable.slot, hmid, Option.bind_some, hlow, Option.bind_some, hpte] at hslot
  cases hslot

end CkptKernel
