/-
User address spaces: a page table with mappings below the process size and,
above, exactly the trapframe and the trampoline.  The code of kernel/vm.c that
grows, shrinks, copies and frees one keeps that shape and moves every frame
either to the free list or to the page table.
-/
import CkptKernel.PageMap

namespace CkptKernel

open ByteMem Code

def trapframePerm : Perm := ⟨true, true, false, false⟩

def trampolinePerm : Perm := ⟨true, false, true, false⟩

/-- The page table of a process with `n` user pages, some of them not yet
allocated, and trapframe `tf`. -/
structure PageTable.Space (pt : PageTable) (n : Nat) (tf : Frame) : Prop where
  le : n ≤ TOP
  user : ∀ k < n, ∀ pte, pt.page k = some pte → pte.perm.r = true ∧ ∃ frame, pte.pa = .frame frame
  gap : ∀ k < NSLOT, n ≤ k → k ≠ TOP → k ≠ TOP + 1 → pt.page k = none
  trapframe : pt.page TOP = some ⟨.frame tf, trapframePerm⟩
  trampoline : pt.page (TOP + 1) = some ⟨.trampoline, trampolinePerm⟩

/-- What `before` lists is in the free list and in `after` now. -/
def Conserves (mem mem' : Mem) (before after : Frame → Nat) : Prop :=
  ∀ f, mem'.free.count f + after f = mem.free.count f + before f

variable {mem : Mem}

theorem Conserves.rfl {held : Frame → Nat} : Conserves mem mem held held := fun _ => Eq.refl _

variable {mem₁ : Mem}

theorem Conserves.trans {mem₂ : Mem} {held held₁ held₂ : Frame → Nat}
    (hfirst : Conserves mem mem₁ held held₁) (hsecond : Conserves mem₁ mem₂ held₁ held₂) :
    Conserves mem mem₂ held held₂ := fun f => (hsecond f).trans (hfirst f)

@[simp] theorem pagesOf_page (k : Nat) : pagesOf (k * PGSIZE) = k := by
  simp only [pagesOf, PGSIZE]
  omega

variable {sz : Nat}

theorem pagesOf_mono {sz' : Nat} (hle : sz ≤ sz') : pagesOf sz ≤ pagesOf sz' := by
  simp only [pagesOf, PGSIZE]
  omega

/-- Sizes up to `TRAPFRAME` are those of at most `TOP` pages. -/
theorem pagesOf_le_TOP : pagesOf sz ≤ TOP ↔ sz ≤ TRAPFRAME := by
  rw [TRAPFRAME_eq]
  simp only [pagesOf, PGSIZE]
  omega

namespace PageTable.Space

variable {pt pt' : PageTable} {n m k : Nat} {tf : Frame}

variable (hspace : pt.Space n tf)
include hspace

theorem lt_NPAGE (hk : k ≤ n) : k < NPAGE := by
  have := hspace.le
  have := TOP_lt
  omega

/-- A page of user memory may be not yet allocated. -/
theorem extend (hle : n ≤ m) (hm : m ≤ TOP) : pt.Space m tf where
  le := hm
  user k hk pte hpage := by
    by_cases hlt : k < n
    · exact hspace.user k hlt pte hpage
    · have := TOP_lt_NSLOT
      rw [hspace.gap k (by omega) (by omega) (by omega) (by omega)] at hpage
      cases hpage
  gap k hk hmk := hspace.gap k hk (by omega)
  trapframe := hspace.trapframe
  trampoline := hspace.trampoline

/-- One more page is mapped. -/
theorem map (hk : k < m) (hle : n ≤ m) (hm : m ≤ TOP) {frame : Frame} {perm : Perm}
    (hr : perm.r = true)
    (hpages : ∀ j < NSLOT, pt'.page j = if j = k then some ⟨.frame frame, perm⟩ else pt.page j) :
    pt'.Space m tf := by
  have htop := TOP_lt_NSLOT
  have hext := hspace.extend hle hm
  refine ⟨hm, fun j hj pte hpage => ?_, fun j hj hmj hne hne' => ?_, ?_, ?_⟩
  · rw [hpages j (by omega)] at hpage
    split at hpage
    · cases hpage
      exact ⟨hr, frame, rfl⟩
    · exact hext.user j hj pte hpage
  · rw [hpages j hj, if_neg (by omega)]
    exact hext.gap j hj hmj hne hne'
  · rw [hpages TOP htop, if_neg (by omega)]
    exact hext.trapframe
  · rw [hpages (TOP + 1) (by have := TOP_lt; have := NPAGE_le; omega), if_neg (by omega)]
    exact hext.trampoline

/-- Pages from `m` on are unmapped. -/
theorem cut (hle : m ≤ n)
    (hpages : ∀ j < NSLOT, pt'.page j = if m ≤ j ∧ j < n then none else pt.page j) :
    pt'.Space m tf := by
  have htop := TOP_lt_NSLOT
  have hn := hspace.le
  refine ⟨by omega, fun j hj pte hpage => ?_, fun j hj hmj hne hne' => ?_, ?_, ?_⟩
  · rw [hpages j (by omega), if_neg (by omega)] at hpage
    exact hspace.user j (by omega) pte hpage
  · rw [hpages j hj]
    split
    · rfl
    · exact hspace.gap j hj (by omega) hne hne'
  · rw [hpages TOP htop, if_neg (by omega)]
    exact hspace.trapframe
  · rw [hpages (TOP + 1) (by have := TOP_lt; have := NPAGE_le; omega), if_neg (by omega)]
    exact hspace.trampoline

theorem congr (hpages : ∀ j < NSLOT, pt'.page j = pt.page j) : pt'.Space n tf :=
  hspace.cut (Nat.le_refl n) fun j hj => by rw [hpages j hj, if_neg (by omega)]

/-- Address spaces of one shape differ in user pages only. -/
theorem page_eq (hspace' : pt'.Space n tf) (hbelow : ∀ j < n, pt'.page j = pt.page j) :
    ∀ j < NSLOT, pt'.page j = pt.page j := by
  intro j hj
  by_cases hlt : j < n
  · exact hbelow j hlt
  by_cases htop : j = TOP
  · rw [htop, hspace.trapframe, hspace'.trapframe]
  by_cases hnext : j = TOP + 1
  · rw [hnext, hspace.trampoline, hspace'.trampoline]
  · rw [hspace.gap j hj (by omega) htop hnext, hspace'.gap j hj (by omega) htop hnext]

/-- Unmap and free the pages from `m` on. -/
theorem wp_unmap (hle : m ≤ n) (mem : Mem) :
    wp (uvmunmapFrom true pt (m * PGSIZE) (n - m)) mem (fun pt' mem' =>
      mem'.page = mem.page ∧ Conserves mem mem' pt.owns pt'.owns ∧
      pt'.Space m tf ∧ (∀ j < m, pt'.page j = pt.page j) ∧ ∀ f, pt'.tables f = pt.tables f) := by
  have hn := hspace.le
  have htop := TOP_lt_NSLOT
  have hend : m + (n - m) = n := by omega
  refine wp_mono (wp_uvmunmapFrom ⟨?_, ?_, ?_, ?_⟩) ?_
  · rw [hend]
    exact (hspace.lt_NPAGE (Nat.le_refl n)).le
  · intro j _ hj pte hpage
    exact (hspace.user j (by omega) pte hpage).1
  · refine fun _ => ⟨by omega, fun j _ hj pte hpage => ?_⟩
    exact (hspace.user j (by omega) pte hpage).2
  · exact fun h => by cases h
  · rintro pt' mem' ⟨hdata, hcount, htables, hpages⟩
    rw [hend] at hpages
    refine ⟨hdata, hcount, hspace.cut hle hpages, fun j hj => ?_, htables⟩
    rw [hpages j (by omega), if_neg (by omega)]

end PageTable.Space

section Sizes

variable {pt : PageTable} {tf : Frame} {mem : Mem}

theorem wp_uvmdealloc {oldsz : Nat} (hspace : pt.Space (pagesOf oldsz) tf)
    (newsz : Nat) : wp (uvmdealloc pt oldsz newsz) mem (fun pt' mem' =>
      mem'.page = mem.page ∧ Conserves mem mem' pt.owns pt'.owns ∧
      pt'.Space (pagesOf (min oldsz newsz)) tf ∧ (∀ j < pagesOf newsz, pt'.page j = pt.page j) ∧
      ∀ f, pt'.tables f = pt.tables f) := by
  unfold uvmdealloc
  rw [wp_ite]
  split
  next hle =>
    rw [wp_pure, Nat.min_eq_left hle]
    exact ⟨rfl, Conserves.rfl, hspace, fun _ _ => rfl, fun _ => rfl⟩
  next hlt =>
    rw [uvmunmap_page, Nat.min_eq_right (by omega)]
    exact hspace.wp_unmap (pagesOf_mono (by omega)) mem

/-- What the loop of `uvmalloc` does from page `k` on: all of `left` more
pages, or back to the first `first` pages. -/
structure Filled (perm : Perm) (first k left : Nat) (pt : PageTable)
    (tf : Frame) (mem : Mem) (result : PageTable × Bool) (mem' : Mem) : Prop where
  data : mem'.page = mem.page
  count : Conserves mem mem' pt.owns result.1.owns
  below : ∀ j < first, result.1.page j = pt.page j
  failed : result.2 = false → result.1.Space first tf
  done : result.2 = true → result.1.Space (k + left) tf
  kept : result.2 = true → ∀ j < k, result.1.page j = pt.page j
  fresh : result.2 = true → ∀ j, k ≤ j → j < k + left →
    ∃ frame ∈ mem.free, result.1.page j = some ⟨.frame frame, perm⟩

/-- The loop of `uvmalloc` gives back what it has mapped. -/
theorem wp_uvmalloc_undo {perm : Perm} {first k left : Nat} {pt₁ : PageTable} {mem₁ : Mem}
    (hfirst : first ≤ k) (hspace₁ : pt₁.Space k tf) (hdata₁ : mem₁.page = mem.page)
    (hcount₁ : Conserves mem mem₁ pt.owns pt₁.owns)
    (hbelow₁ : ∀ j < first, pt₁.page j = pt.page j) : wp (do
      let pt ← uvmdealloc pt₁ (k * PGSIZE) (first * PGSIZE)
      pure (pt, false)) mem₁ (Filled perm first k left pt tf mem) := by
  refine wp_seq (@wp_uvmdealloc pt₁ tf mem₁ (k * PGSIZE)
    (by rwa [pagesOf_page]) (first * PGSIZE)) ?_
  rintro pt₂ mem₂ ⟨hdata₂, hcount₂, hspace₂, hbelow₂, _⟩
  rw [Nat.min_eq_right (Nat.mul_le_mul_right _ hfirst), pagesOf_page] at hspace₂
  rw [pagesOf_page] at hbelow₂
  refine (wp_pure _).mpr ⟨hdata₂.trans hdata₁, hcount₁.trans hcount₂,
    fun j hj => (hbelow₂ j hj).trans (hbelow₁ j hj), fun _ => hspace₂, ?_, ?_, ?_⟩ <;> simp

/-- A frame from the free list becomes a user page. -/
theorem conserves_of_mapped {pt₁ : PageTable} {mem₁ : Mem} {k : Nat} {frame : Frame} {perm : Perm}
    {rest : Frame → Nat} (hlt : k < TOP) (hnone : pt.page k = none)
    (hpages : ∀ j < NSLOT, pt₁.page j = if j = k then some ⟨.frame frame, perm⟩ else pt.page j)
    (htables : ∀ f, mem₁.free.count f + pt₁.tables f = rest f + pt.tables f)
    (hrest : ∀ f, mem.free.count f = rest f + only frame f) :
    Conserves mem mem₁ pt.owns pt₁.owns := by
  intro f
  have howns := PageTable.owns_of_page_update hlt
    (fun j (hj : j < TOP) => hpages j (hj.trans TOP_lt_NSLOT)) f
  have hnew : mapped (some ⟨.frame frame, perm⟩) f = only frame f := rfl
  have hold : mapped (pt.page k) f = 0 := by rw [hnone]; rfl
  have := htables f
  have := hrest f
  omega

/-- The loop of `uvmalloc` on a page table with `k` user pages.  It stops only
if it gets as far as the trapframe. -/
theorem ends_uvmallocFrom {perm : Perm} (hr : perm.r = true) {first k : Nat}
    (hfirst : first ≤ k) (hspace : pt.Space k tf) (left : Nat) :
    ends (uvmallocFrom perm first left pt k) mem (Filled perm first k left pt tf mem)
      (fun _ => TOP < k + left ∧ TOP - k < mem.free.length) := by
  induction left generalizing pt k mem with
  | zero =>
    exact ⟨rfl, Conserves.rfl, fun _ _ => rfl, by simp, fun _ => hspace,
      fun _ _ _ => rfl, fun _ j hlo hhi => by omega⟩
  | succ left ih =>
    unfold uvmallocFrom
    rw [ends_bind]
    cases hfree : mem.free with
    | nil =>
      refine ends_of_eq (by rw [kalloc, hfree]) ?_
      exact ends_of_wp (wp_uvmalloc_undo hfirst hspace rfl Conserves.rfl fun _ _ => rfl)
    | cons frame rest =>
      refine ends_of_eq (by rw [kalloc, hfree]) ?_
      dsimp only
      rw [ends_bind]
      have hkTOP := hspace.le
      have hTOP := TOP_lt_NSLOT
      refine ends_imp (ends_mappages pt (hspace.lt_NPAGE (Nat.le_refl k)) _ perm _) ?_ ?_
      · rintro ⟨pt₁, ok⟩ mem₁ ⟨hdata₁, hsuffix₁, htables₁, hpages₁, hnone₁⟩
        cases ok with
        | true =>
          have hnone := hnone₁ rfl
          have hlt : k < TOP := by
            refine Nat.lt_of_le_of_ne hkTOP fun htop => ?_
            rw [htop, hspace.trapframe] at hnone
            cases hnone
          simp only [true_and] at hpages₁
          have hspace₁ : pt₁.Space (k + 1) tf :=
            hspace.map (Nat.lt_succ_self k) (Nat.le_succ k) hlt hr hpages₁
          simp only [if_true]
          refine ends_imp (ih (Nat.le_succ_of_le hfirst) hspace₁) ?_ ?_
          · intro result mem₂ hrest
            have hend : k + 1 + left = k + (left + 1) := by omega
            have hcount₁ : Conserves mem mem₁ pt.owns pt₁.owns :=
              conserves_of_mapped hlt hnone hpages₁ htables₁
                fun f => by rw [hfree, count_cons_frame]
            have hsame : ∀ j, j ≠ k → j < TOP → pt₁.page j = pt.page j := fun j hne hj => by
              rw [hpages₁ j (hj.trans hTOP), if_neg hne]
            refine ⟨hrest.data.trans hdata₁, hcount₁.trans hrest.count,
              fun j hj => (hrest.below j hj).trans (hsame j (by omega) (by omega)), hrest.failed,
              fun hok => hend ▸ hrest.done hok, fun hok j hj =>
                (hrest.kept hok j (by omega)).trans (hsame j (by omega) (by omega)), ?_⟩
            intro hok j hlo hhi
            by_cases heq : j = k
            · subst heq
              refine ⟨frame, by rw [hfree]; exact List.mem_cons_self, ?_⟩
              rw [hrest.kept hok j (Nat.lt_succ_self j), hpages₁ j (hlt.trans hTOP), if_pos rfl]
            · obtain ⟨other, hmem, hpage⟩ :=
                hrest.fresh hok j (by omega) (by omega)
              refine ⟨other, ?_, hpage⟩
              rw [hfree]
              exact List.mem_cons_of_mem _ (hsuffix₁.mem hmem)
          · rintro _ ⟨hover, hmany⟩
            have := hsuffix₁.length_le
            simp only [List.length_cons] at this ⊢
            omega
        | false =>
          simp only [Bool.false_eq_true, if_false]
          rw [ends_bind, kfree, ends_update]
          simp only [Bool.false_eq_true, false_and, if_false] at hpages₁
          refine ends_of_wp (wp_uvmalloc_undo hfirst (hspace.congr hpages₁) hdata₁ ?_ fun j hj =>
              hpages₁ j (by omega))
          intro f
          have howns := PageTable.owns_of_page_eq
            (fun j (hj : j < TOP) => hpages₁ j (hj.trans hTOP)) f
          have htables := htables₁ f
          rw [hfree, count_cons_frame, count_cons_frame]
          dsimp only at htables howns ⊢
          omega
      · intro _ hsome
        have htop : k = TOP := by
          by_contra hne
          rw [hspace.gap k (by omega) (Nat.le_refl k) hne (by omega)] at hsome
          cases hsome
        simp only [List.length_cons]
        omega

/-- What `uvmalloc` returns: 0 with the pages there were, or the larger size
with frames from the free list for the pages in between. -/
structure Grown (xperm : Perm) (oldsz newsz : Nat) (pt : PageTable)
    (tf : Frame) (mem : Mem) (result : PageTable × Nat) (mem' : Mem) : Prop where
  data : mem'.page = mem.page
  count : Conserves mem mem' pt.owns result.1.owns
  below : ∀ j < pagesOf oldsz, result.1.page j = pt.page j
  ends : result.2 = 0 ∧ result.1.Space (pagesOf oldsz) tf ∨
    result.2 = max oldsz newsz ∧ result.1.Space (pagesOf (max oldsz newsz)) tf ∧
    ∀ j, pagesOf oldsz ≤ j → j < pagesOf newsz → ∃ frame ∈ mem.free,
      result.1.page j = some ⟨.frame frame, { xperm with r := true, u := true }⟩

/-- `uvmalloc` stops only if it gets as far as the trapframe. -/
theorem ends_uvmalloc {oldsz : Nat} (hspace : pt.Space (pagesOf oldsz) tf)
    (newsz : Nat) (xperm : Perm) : ends (uvmalloc pt oldsz newsz xperm) mem
      (Grown xperm oldsz newsz pt tf mem) (fun _ => TRAPFRAME < newsz ∧
        TOP - pagesOf oldsz < mem.free.length) := by
  unfold uvmalloc
  rw [ends_ite]
  split
  next hlt =>
    have hmax : max oldsz newsz = oldsz := Nat.max_eq_left hlt.le
    refine ⟨rfl, Conserves.rfl, fun _ _ => rfl, Or.inr ?_⟩
    rw [hmax]
    refine ⟨rfl, hspace, fun j hlo hhi => ?_⟩
    have := pagesOf_mono hlt.le
    omega
  next hle =>
    have hpages : pagesOf oldsz ≤ pagesOf newsz := pagesOf_mono (by omega)
    have hend : pagesOf oldsz + (pagesOf newsz - pagesOf oldsz) = pagesOf newsz := by omega
    rw [ends_bind]
    refine ends_imp (@ends_uvmallocFrom pt tf mem
      { xperm with r := true, u := true } rfl _ _ (Nat.le_refl _) hspace
      (pagesOf newsz - pagesOf oldsz)) ?_ ?_
    · rintro ⟨pt', ok⟩ mem' hfilled
      refine (ends_pure _).mpr ⟨hfilled.data, hfilled.count, hfilled.below, ?_⟩
      rw [Nat.max_eq_right (by omega)]
      cases ok with
      | false => exact Or.inl ⟨rfl, hfilled.failed rfl⟩
      | true =>
        exact Or.inr ⟨rfl, hend ▸ hfilled.done rfl, fun j hlo hhi =>
          hfilled.fresh rfl j hlo (by omega)⟩
    · rintro _ ⟨hover, hmany⟩
      refine ⟨?_, hmany⟩
      by_contra hfits
      have := pagesOf_le_TOP.mpr (Nat.not_lt.mp hfits)
      omega

end Sizes

/-! ### Making and freeing page tables -/

variable {pt : PageTable}

/-- A page table without user mappings holds its tables only. -/
theorem PageTable.owns_of_none (hnone : ∀ k < TOP, pt.page k = none) (f : Frame) :
    pt.owns f = pt.tables f := by
  unfold PageTable.owns
  rw [Finset.sum_eq_zero, Nat.add_zero]
  intro k hk
  rw [hnone k (Finset.mem_range.mp hk)]
  rfl

theorem wp_uvmfree (hsz : pagesOf sz ≤ TOP) (huser : ∀ k < pagesOf sz, ∀ pte, pt.page k = some pte →
      pte.perm.r = true ∧ ∃ frame, pte.pa = .frame frame)
    (hgap : ∀ k < NSLOT, pagesOf sz ≤ k → pt.page k = none) (mem : Mem) :
    wp (uvmfree pt sz) mem (fun _ mem' => mem'.page = mem.page ∧
      Conserves mem mem' pt.owns (fun _ => 0)) := by
  have hTOP := TOP_lt_NSLOT
  have hfree : ∀ (pt₁ : PageTable) (mem₁ : Mem), mem₁.page = mem.page →
      Conserves mem mem₁ pt.owns pt₁.owns → (∀ k < NSLOT, pt₁.page k = none) →
      wp (freewalk pt₁) mem₁ (fun _ mem' => mem'.page = mem.page ∧
        Conserves mem mem' pt.owns (fun _ => 0)) := by
    intro pt₁ mem₁ hdata₁ hcount₁ hnone₁
    refine wp_mono (wp_freewalk hnone₁ mem₁) ?_
    rintro _ mem₂ ⟨hdata₂, hcount₂⟩
    refine ⟨hdata₂.trans hdata₁, fun f => ?_⟩
    rw [hcount₂ f, ← PageTable.owns_of_none (fun k hk => hnone₁ k (hk.trans hTOP)) f, Nat.add_zero]
    exact hcount₁ f
  unfold uvmfree
  dsimp only
  rw [wp_ite]
  split
  · rw [wp_bind, show (0 : Nat) = 0 * PGSIZE from (Nat.zero_mul _).symm, uvmunmap_page]
    refine wp_mono (wp_uvmunmapFrom ⟨?_, ?_, ?_, ?_⟩) ?_
    · have := TOP_lt
      omega
    · exact fun j _ hj pte hpage => (huser j (by omega) pte hpage).1
    · exact fun _ => ⟨by omega, fun j _ hj pte hpage =>
        (huser j (by omega) pte hpage).2⟩
    · exact fun h => by cases h
    · rintro pt₁ mem₁ ⟨hdata₁, hcount₁, _, hpages₁⟩
      refine hfree pt₁ mem₁ hdata₁ hcount₁ fun k hk => ?_
      rw [hpages₁ k hk]
      split
      · rfl
      · exact hgap k hk (by omega)
  next hzero =>
    have hpages : pagesOf sz = 0 := by
      rw [show sz = 0 by omega]
      decide
    rw [wp_bind, wp_pure]
    exact hfree pt mem rfl Conserves.rfl fun k hk => hgap k hk (by omega)

variable {k : Nat}

/-- Unmap a page above user memory. -/
theorem wp_uvmunmap_high (hk : TOP ≤ k) (hlt : k < NPAGE)
    (hleaf : ∀ pte, pt.page k = some pte → pte.perm.r = true) (mem : Mem) :
    wp (uvmunmap false pt (k * PGSIZE) 1) mem (fun pt' mem' =>
      mem'.page = mem.page ∧ Conserves mem mem' pt.owns pt'.owns ∧
      ∀ j < NSLOT, pt'.page j = if j = k then none else pt.page j) := by
  rw [uvmunmap_page]
  refine wp_mono (wp_uvmunmapFrom ⟨hlt, ?_, ?_, fun _ => hk⟩) ?_
  · intro j hlo hhi pte hpage
    rw [show j = k by omega] at hpage
    exact hleaf pte hpage
  · exact fun h => by cases h
  · rintro pt' mem' ⟨hdata, hcount, _, hpages⟩
    refine ⟨hdata, hcount, fun j hj => ?_⟩
    rw [hpages j hj]
    by_cases heq : j = k
    · rw [if_pos heq, if_pos (by omega)]
    · rw [if_neg heq, if_neg (by omega)]

variable {tf : Frame}

/-- Everything in an address space goes back to the free list. -/
theorem wp_procFreepagetable (hspace : pt.Space (pagesOf sz) tf) (mem : Mem) :
    wp (procFreepagetable pt sz) mem (fun _ mem' => mem'.page = mem.page ∧
      Conserves mem mem' pt.owns (fun _ => 0)) := by
  have hTOP := TOP_lt
  have hslots := NPAGE_le
  have hle := hspace.le
  unfold procFreepagetable
  rw [wp_bind, TRAMPOLINE_eq]
  refine wp_mono (wp_uvmunmap_high (Nat.le_succ TOP) hTOP ?_ mem) ?_
  · intro pte hpage
    rw [hspace.trampoline] at hpage
    cases hpage
    rfl
  rintro pt₁ mem₁ ⟨hdata₁, hcount₁, hpages₁⟩
  rw [wp_bind, TRAPFRAME_eq]
  refine wp_mono (wp_uvmunmap_high (Nat.le_refl TOP) (by omega) ?_ mem₁) ?_
  · intro pte hpage
    rw [hpages₁ TOP (by omega), if_neg (by omega), hspace.trapframe] at hpage
    cases hpage
    rfl
  rintro pt₂ mem₂ ⟨hdata₂, hcount₂, hpages₂⟩
  refine wp_mono (wp_uvmfree hle ?_ ?_ mem₂) ?_
  · intro k hk pte hpage
    rw [hpages₂ k (by omega), if_neg (by omega), hpages₁ k (by omega), if_neg (by omega)] at hpage
    exact hspace.user k hk pte hpage
  · intro k hk hlo
    rw [hpages₂ k hk]
    split
    · rfl
    rename_i hne
    rw [hpages₁ k hk]
    split
    · rfl
    next hne' =>
      exact hspace.gap k hk hlo hne hne'
  · rintro _ mem₃ ⟨hdata₃, hcount₃⟩
    exact ⟨hdata₃.trans (hdata₂.trans hdata₁), (hcount₁.trans hcount₂).trans hcount₃⟩

/-- Map a page that has no mapping. -/
theorem wp_mappages (hk : k < NPAGE) (hnone : pt.page k = none) (pa : Phys) (perm : Perm)
    (mem : Mem) : wp (mappages pt (k * PGSIZE) pa perm) mem (Mapping pt k ⟨pa, perm⟩ mem) := by
  refine wp_of_ends (ends_imp (ends_mappages pt hk pa perm mem)
    (fun _ _ hmapping => hmapping) fun _ hsome => ?_)
  rw [hnone] at hsome
  cases hsome

/-- What `proc_pagetable` returns for trapframe `tf`. -/
structure Created (tf : Frame) (mem : Mem) (result : Option PageTable)
    (mem' : Mem) : Prop where
  data : mem'.page = mem.page
  failed : result = none → Conserves mem mem' (fun _ => 0) (fun _ => 0)
  space : ∀ pt, result = some pt → pt.Space 0 tf
  count : ∀ pt, result = some pt → Conserves mem mem' (fun _ => 0) pt.owns

/-- The error exits of `proc_pagetable`. -/
theorem wp_create_failed (hnone : ∀ k < NSLOT, pt.page k = none) (hdata : mem₁.page = mem.page)
    (hcount : Conserves mem mem₁ (fun _ => 0) pt.owns) : wp (do
      uvmfree pt 0
      pure none) mem₁ (Created tf mem) := by
  refine wp_seq (wp_uvmfree (by decide) ?_ ?_ mem₁) ?_
  · intro k hk
    rw [show pagesOf 0 = 0 by decide] at hk
    omega
  · exact fun k hk _ => hnone k hk
  · rintro _ mem₂ ⟨hdata₂, hcount₂⟩
    exact (wp_pure none).mpr ⟨hdata₂.trans hdata, fun _ => hcount.trans hcount₂, by simp, by simp⟩

theorem wp_procPagetable (tf : Frame) (mem : Mem) : wp (procPagetable tf) mem (Created tf mem) := by
  have hTOP := TOP_lt
  have hslots := NPAGE_le
  unfold procPagetable uvmcreate
  rw [wp_bind, wp_bind]
  cases hfree : mem.free with
  | nil =>
    refine ⟨none, mem, by rw [kalloc, hfree], ?_⟩
    exact (wp_pure _).mpr ((wp_pure _).mpr ⟨rfl, fun _ => Conserves.rfl, by simp, by simp⟩)
  | cons frame rest =>
    refine ⟨some frame, { mem with free := rest }, by rw [kalloc, hfree], ?_⟩
    dsimp only
    rw [wp_pure]
    simp only [Option.map_some]
    rw [wp_bind, TRAMPOLINE_eq, TRAPFRAME_eq]
    refine wp_mono (wp_mappages hTOP rfl _ _ _) ?_
    rintro ⟨pt₁, ok₁⟩ mem₁ ⟨hdata₁, hsuffix₁, htables₁, hpages₁⟩
    have hempty : ∀ k, PageTable.page (Table.zeroed frame) k = none :=
      fun _ => rfl
    simp only [hempty] at hpages₁
    have hcount₁ : ∀ f, mem₁.free.count f + pt₁.tables f = mem.free.count f := by
      intro f
      rw [hfree, count_cons_frame]
      exact (htables₁ f).trans (congrArg _ (Table.tables_zeroed _ _ f))
    dsimp only
    rw [wp_ite]
    split
    next hfailed =>
      refine wp_create_failed (fun k hk => ?_) hdata₁ fun f => ?_
      · rw [hpages₁ k hk, if_neg (by simp [hfailed])]
      · rw [PageTable.owns_of_none (fun k hk => by
          rw [hpages₁ k (by omega), if_neg (by simp [hfailed])])]
        exact hcount₁ f
    next hok₁ =>
      simp only [Bool.not_eq_false] at hok₁
      subst hok₁
      simp only [true_and] at hpages₁
      refine wp_seq (wp_mappages (by omega) (by
        rw [hpages₁ TOP (by omega), if_neg (by omega)]) _ _ _) ?_
      rintro ⟨pt₂, ok₂⟩ mem₂ ⟨hdata₂, hsuffix₂, htables₂, hpages₂⟩
      have howns₂ : ∀ f, pt₂.owns f = pt₂.tables f := by
        refine PageTable.owns_of_none fun k hk => ?_
        rw [hpages₂ k (by omega), if_neg (by omega), hpages₁ k (by omega), if_neg (by omega)]
      have hcount₂ : Conserves mem mem₂ (fun _ => 0) pt₂.owns := by
        intro f
        have := htables₂ f
        have := hcount₁ f
        rw [howns₂ f]
        dsimp only at *
        omega
      dsimp only
      rw [wp_ite]
      split
      next hfailed =>
        refine wp_seq (wp_uvmunmap_high (Nat.le_succ TOP) hTOP ?_ mem₂) ?_
        · intro pte hpage
          rw [hpages₂ _ (by omega), if_neg (by omega), hpages₁ _ (by omega), if_pos rfl] at hpage
          cases hpage
          rfl
        rintro pt₃ mem₃ ⟨hdata₃, hcount₃, hpages₃⟩
        refine wp_create_failed (fun k hk => ?_)
          (hdata₃.trans (hdata₂.trans hdata₁)) (hcount₂.trans hcount₃)
        rw [hpages₃ k hk]
        split
        · rfl
        next hne =>
          rw [hpages₂ k hk, if_neg (by simp [hfailed]), hpages₁ k hk, if_neg hne]
      next hok₂ =>
        simp only [Bool.not_eq_false] at hok₂
        subst hok₂
        simp only [true_and] at hpages₂
        refine (wp_pure _).mpr ⟨hdata₂.trans hdata₁, by simp, ?_, ?_⟩
        · rintro _ ⟨⟩
          refine ⟨Nat.zero_le TOP, fun k hk => by omega, ?_, ?_, ?_⟩
          · intro k hk _ hne hne'
            rw [hpages₂ k hk, if_neg hne, hpages₁ k hk, if_neg hne']
          · rw [hpages₂ TOP (by omega), if_pos rfl]
            rfl
          · rw [hpages₂ (TOP + 1) (by omega), if_neg (by omega),
              hpages₁ (TOP + 1) (by omega), if_pos rfl]
            rfl
        · rintro _ ⟨⟩
          exact hcount₂

/-! ### Copying an address space -/

/-- What `uvmcopy` has done: all `n` pages, or none. -/
structure Copied (n : Nat) (new : PageTable) (tf : Frame) (mem : Mem)
    (result : PageTable × Bool) (mem' : Mem) : Prop where
  data : ∀ f, f ∉ mem.free → mem'.page f = mem.page f
  count : Conserves mem mem' new.owns result.1.owns
  failed : result.2 = false → result.1.Space 0 tf
  done : result.2 = true → result.1.Space n tf

variable {new : PageTable}

/-- The error exit of `uvmcopy`. -/
theorem wp_copy_failed {n : Nat} {new₁ : PageTable} (hspace : new₁.Space k tf)
    (hdata : ∀ f, f ∉ mem.free → mem₁.page f = mem.page f)
    (hcount : Conserves mem mem₁ new.owns new₁.owns) : wp (do
      let new ← uvmunmap true new₁ 0 k
      pure (new, false)) mem₁ (Copied n new tf mem) := by
  rw [wp_bind, show (0 : Nat) = 0 * PGSIZE from (Nat.zero_mul _).symm, uvmunmap_page]
  refine wp_mono (hspace.wp_unmap (Nat.zero_le k) mem₁) ?_
  rintro new₂ mem₂ ⟨hdata₂, hcount₂, hspace₂, _⟩
  exact (wp_pure _).mpr ⟨fun f hf => by rw [hdata₂, hdata f hf],
    hcount.trans hcount₂, fun _ => hspace₂, by simp⟩

theorem wp_uvmcopyFrom {old : PageTable} {n left : Nat} {otf : Frame} (hold : old.Space n otf)
    (hnew : new.Space k tf) (hend : k + left = n) :
    wp (uvmcopyFrom old left new k) mem (Copied n new tf mem) := by
  have hTOP := TOP_lt_NSLOT
  induction left generalizing new k mem with
  | zero =>
    obtain rfl : k = n := hend
    exact (wp_pure _).mpr ⟨fun _ _ => rfl, Conserves.rfl, by simp, fun _ => hnew⟩
  | succ left ih =>
    have hkn : k < n := by omega
    have hk := hold.lt_NPAGE hkn.le
    have hn := hold.le
    unfold uvmcopyFrom
    rw [walk_page old hk, wp_bind, wp_pure]
    cases hpage : old.page k with
    | none =>
      exact ih (hnew.extend (Nat.le_succ k) (by omega)) (by omega)
    | some pte =>
      obtain ⟨hr, source, hpa⟩ := hold.user k hkn pte hpage
      dsimp only
      rw [wp_bind]
      cases hfree : mem.free with
      | nil =>
        refine ⟨none, mem, by rw [kalloc, hfree], ?_⟩
        exact wp_copy_failed hnew (fun _ _ => rfl) Conserves.rfl
      | cons frame rest =>
        refine ⟨some frame, { mem with free := rest }, by rw [kalloc, hfree], ?_⟩
        dsimp only
        rw [wp_bind, wp_read, hpa]
        dsimp only
        rw [wp_bind, setPage, wp_update]
        refine wp_seq (wp_mappages hk (hnew.gap k (by omega)
          (Nat.le_refl k) (by omega) (by omega)) _ _ _) ?_
        rintro ⟨new₁, ok⟩ mem₁ ⟨hdata₁, hsuffix₁, htables₁, hpages₁⟩
        have hkeep : ∀ f, f ∉ mem.free → mem₁.page f = mem.page f := by
          intro f hf
          rw [hdata₁]
          refine Function.update_of_ne (fun heq => hf ?_) _ _
          rw [hfree, heq]
          exact List.mem_cons_self
        cases ok with
        | false =>
          simp only [Bool.false_eq_true, if_false]
          simp only [Bool.false_eq_true, false_and, if_false] at hpages₁
          rw [wp_bind, kfree, wp_update]
          refine wp_copy_failed (hnew.congr hpages₁) hkeep fun f => ?_
          have howns := PageTable.owns_of_page_eq
            (fun j (hj : j < TOP) => hpages₁ j (hj.trans hTOP)) f
          have htables := htables₁ f
          rw [hfree, count_cons_frame, count_cons_frame]
          dsimp only at htables howns ⊢
          omega
        | true =>
          simp only [if_true]
          simp only [true_and] at hpages₁
          have hcount₁ : Conserves mem mem₁ new.owns new₁.owns :=
            conserves_of_mapped (by omega) (hnew.gap k (by omega)
              (Nat.le_refl k) (by omega) (by omega)) hpages₁ htables₁
              fun f => by rw [hfree, count_cons_frame]
          refine wp_mono (ih (hnew.map (Nat.lt_succ_self k)
            (Nat.le_succ k) (by omega) hr hpages₁) (by omega)) ?_
          intro result mem₂ hrest
          refine ⟨fun f hf => ?_, hcount₁.trans hrest.count, hrest.failed, hrest.done⟩
          rw [hrest.data f, hkeep f hf]
          intro hmem
          refine hf ?_
          rw [hfree]
          exact List.mem_cons_of_mem _ (hsuffix₁.mem hmem)

end CkptKernel
