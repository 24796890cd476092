/-
Lazily grown memory.  What a process sees of its memory is the same before and
after a page that it has not touched yet is allocated: `copyin` and `copyout`
allocate such pages on the way.
-/
import CkptKernel.AddressSpace
import CkptKernel.HeaderFormat
import CkptKernel.UserMemory

namespace CkptKernel

open ByteMem Code

variable {vm : Vm}

@[simp] theorem wp_onMem {A : Type} {code : Code Mem A} {post : A → Vm → Prop} :
    wp (onMem code) vm post ↔ wp code vm.mem (fun value mem => post value { vm with mem := mem }) :=
  wp_within

variable {va : Nat}

theorem PGROUNDDOWN_page : PGROUNDDOWN va = va / PGSIZE * PGSIZE :=
  rfl

/-- Addresses below the size are on the pages of user memory. -/
theorem page_lt_pagesOf {sz : Nat} (hva : va < sz) : va / PGSIZE < pagesOf sz := by
  simp only [pagesOf, PGSIZE]
  omega

/-! ### Page faults -/

/-- What `vmfault` on page `k` does. -/
structure Faulted (tf : Frame) (k : Nat) (vm : Vm) (result : Option Phys)
    (vm' : Vm) : Prop where
  sz : vm'.sz = vm.sz
  space : vm'.pagetable.Space (pagesOf vm.sz) tf
  count : Conserves vm.mem vm'.mem vm.pagetable.owns vm'.pagetable.owns
  data : ∀ f, f ∉ vm.mem.free → vm'.mem.page f = vm.mem.page f
  pages : ∀ j < NSLOT, j ≠ k → vm'.pagetable.page j = vm.pagetable.page j
  failed : result = none → vm'.pagetable.page k = vm.pagetable.page k
  done : ∀ pa, result = some pa → vm.pagetable.page k = none ∧
    ∃ frame ∈ vm.mem.free, pa = .frame frame ∧
      vm'.pagetable.page k = some ⟨.frame frame, faultPerm⟩ ∧ vm'.mem.page frame = fun _ => 0

variable {tf : Frame}

theorem Faulted.refused (k : Nat) (hspace : vm.pagetable.Space (pagesOf vm.sz) tf) :
    Faulted tf k vm none vm :=
  ⟨rfl, hspace, Conserves.rfl, fun _ _ => rfl, fun _ _ _ => rfl, fun _ => rfl, by simp⟩

/-- The fault is on a page that is not there, and there are free pages for it. -/
def Vm.Supplied (vm : Vm) (va : Nat) : Prop :=
  va < vm.sz ∧ vm.pagetable.page (va / PGSIZE) = none ∧
    1 + vm.pagetable.missing (va / PGSIZE) ≤ vm.mem.free.length

/-- A fault on the process's own page table. -/
theorem wp_vmfault (hspace : vm.pagetable.Space (pagesOf vm.sz) tf) (va : Nat) :
    wp (vmfault none va) vm (fun result vm' =>
      Faulted tf (va / PGSIZE) vm result vm' ∧ (vm.Supplied va → result ≠ none ∧
        vm'.mem.free.length + (1 + vm.pagetable.missing (va / PGSIZE)) = vm.mem.free.length ∧
        Reached vm.pagetable (va / PGSIZE) vm'.pagetable)) := by
  have hTOP := TOP_lt_NSLOT
  unfold vmfault
  rw [wp_bind, wp_read, wp_ite]
  split
  · exact (wp_pure none).mpr ⟨Faulted.refused _ hspace, fun h => by
      have := h.1
      omega⟩
  rename_i hlt
  unfold Vm.Supplied
  have hpages : va / PGSIZE < pagesOf vm.sz := page_lt_pagesOf (by omega)
  have hk := hspace.lt_NPAGE hpages.le
  have hle := hspace.le
  simp only [Vm.table, Option.getD_none, PGROUNDDOWN_page]
  generalize va / PGSIZE = k at hpages hk ⊢
  rw [wp_bind, wp_onMem, ismapped, walk_page _ hk, wp_bind, wp_pure, wp_pure, wp_ite]
  split
  next hmapped =>
    exact (wp_pure none).mpr ⟨Faulted.refused _ hspace, fun h => by
      simp [h.2.1] at hmapped⟩
  rename_i hmapped
  have hnone : vm.pagetable.page k = none :=
    Option.not_isSome_iff_eq_none.mp hmapped
  rw [wp_bind, wp_onMem]
  cases hfree : vm.mem.free with
  | nil =>
    refine ⟨none, vm.mem, by rw [kalloc, hfree], ?_⟩
    refine (wp_pure none).mpr ⟨Faulted.refused _ hspace, fun h => ?_⟩
    have hlen := h.2.2
    rw [List.length_nil] at hlen
    omega
  | cons frame rest =>
    refine ⟨some frame, { vm.mem with free := rest }, by rw [kalloc, hfree], ?_⟩
    dsimp only
    rw [wp_bind, wp_onMem, setPage, wp_update, wp_bind, wp_onMem]
    refine wp_mono (wp_mappages hk hnone _ _ _) ?_
    rintro ⟨pt₁, ok⟩ mem₁ ⟨hdata₁, _, htables₁, hpages₁, _, hshort, hpaid⟩
    rw [wp_bind, wp_update]
    dsimp only at hdata₁ htables₁ hpages₁ hshort hpaid ⊢
    rw [List.length_cons]
    have hkeep : ∀ f, f ∉ vm.mem.free → mem₁.page f = vm.mem.page f := by
      intro f hf
      rw [hdata₁]
      refine Function.update_of_ne (fun heq => hf ?_) _ _
      rw [hfree, heq]
      exact List.mem_cons_self
    cases ok with
    | false =>
      simp only [Bool.false_eq_true, false_and, if_false] at hpages₁ ⊢
      rw [wp_bind, wp_onMem, kfree, wp_update, wp_pure]
      refine ⟨⟨rfl, hspace.congr hpages₁, fun f => ?_, hkeep,
        fun j hj _ => hpages₁ j hj, fun _ => hpages₁ k (by omega), by simp⟩, fun h => ?_⟩
      rotate_left
      · have := hshort rfl
        have := h.2.2
        omega
      have howns := PageTable.owns_of_page_eq (fun j (hj : j < TOP) => hpages₁ j (hj.trans hTOP)) f
      have htables := htables₁ f
      rw [hfree, count_cons_frame, count_cons_frame]
      dsimp only
      omega
    | true =>
      simp only [true_and, if_true] at hpages₁ ⊢
      rw [wp_pure]
      obtain ⟨hpaid, hreached⟩ := hpaid rfl
      refine ⟨⟨rfl, hspace.map hpages (Nat.le_refl _) hle rfl hpages₁, ?_,
        hkeep, fun j hj hne => ?_, by simp, ?_⟩, fun _ => ⟨by simp, by dsimp only; omega, hreached⟩⟩
      · exact conserves_of_mapped (by omega) hnone hpages₁ htables₁
          fun f => by rw [hfree, count_cons_frame]
      · exact (hpages₁ j hj).trans (if_neg hne)
      · rintro _ ⟨⟩
        refine ⟨hnone, frame, by rw [hfree]; exact List.mem_cons_self, rfl,
          (hpages₁ k (by omega)).trans (if_pos rfl), ?_⟩
        change mem₁.page frame = _
        rw [hdata₁]
        exact Function.update_self _ _ _

/-- A fault on a page that is there is refused. -/
theorem wp_vmfault_mapped {vm : Vm} {va : Nat} (hk : va / PGSIZE < NPAGE)
    (hsome : vm.pagetable.page (va / PGSIZE) ≠ none) :
    wp (vmfault none va) vm (fun result vm' => result = none ∧ vm' = vm) := by
  unfold vmfault
  simp only [Vm.table, Option.getD_none, PGROUNDDOWN_page]
  rw [wp_bind, wp_read, wp_ite]
  split
  · exact (wp_pure none).mpr ⟨rfl, rfl⟩
  · rw [wp_bind, wp_onMem, ismapped, walk_page _ hk, wp_bind, wp_pure, wp_pure,
      if_pos (Option.isSome_iff_ne_none.mpr hsome)]
    exact (wp_pure none).mpr ⟨rfl, rfl⟩

/-! ### Supply of free pages -/

/-- The free pages that it takes to map every one of `pages`: one for each and
one for each table that is missing. -/
def PageTable.need (pt : PageTable) (pages : Finset Nat) : Nat :=
  pages.card + ((pages.image fun k => PX 2 (k * PGSIZE)).filter fun top =>
      (pt.entry top).isNone).card +
    ((pages.image fun k => (PX 2 (k * PGSIZE), PX 1 (k * PGSIZE))).filter
      fun path => (pt.low path.1 path.2).isNone).card

/-- Three free pages for each are always enough. -/
theorem PageTable.need_le (pt : PageTable) (pages : Finset Nat) :
    pt.need pages ≤ 3 * pages.card := by
  have hkey : ∀ {A : Type} [DecidableEq A] (key : Nat → A) (gone : A → Bool),
      ((pages.image key).filter (fun a => gone a)).card ≤ pages.card :=
    fun key gone => (Finset.card_filter_le _ _).trans Finset.card_image_le
  have htop := hkey (fun k => PX 2 (k * PGSIZE)) (fun top => (pt.entry top).isNone)
  have hlow := hkey (fun k => (PX 2 (k * PGSIZE), PX 1 (k * PGSIZE)))
    (fun path => (pt.low path.1 path.2).isNone)
  unfold PageTable.need
  omega

variable {pt : PageTable} {k : Nat}

/-- Mapping a page pays for its share of the pages that are needed. -/
theorem Reached.need {pt' : PageTable} (hreached : Reached pt k pt') {pages : Finset Nat}
    (hk : k ∈ pages) : pt'.need (pages.erase k) + (1 + pt.missing k) ≤ pt.need pages := by
  have hdrop : ∀ {A : Type} [DecidableEq A] (key : Nat → A)
      (gone gone' : A → Bool), (∀ a, gone' a = true → gone a = true ∧ a ≠ key k) →
      (((pages.erase k).image key).filter (fun a => gone' a)).card +
          (if gone (key k) = true then 1 else 0) ≤
        ((pages.image key).filter (fun a => gone a)).card := by
    intro A _ key gone gone' hgone
    have hsub : ((pages.erase k).image key).filter (fun a => gone' a) ⊆
        ((pages.image key).filter (fun a => gone a)).erase (key k) := by
      intro a ha
      obtain ⟨himage, hgone'⟩ := Finset.mem_filter.mp ha
      obtain ⟨j, hj, rfl⟩ := Finset.mem_image.mp himage
      obtain ⟨hold, hne⟩ := hgone _ hgone'
      exact Finset.mem_erase.mpr ⟨hne, Finset.mem_filter.mpr
        ⟨Finset.mem_image_of_mem key (Finset.mem_of_mem_erase hj), hold⟩⟩
    have hcard := Finset.card_le_card hsub
    split
    next hthere =>
      have hmem : key k ∈ (pages.image key).filter (fun a => gone a) :=
        Finset.mem_filter.mpr ⟨Finset.mem_image_of_mem key hk, hthere⟩
      rw [Finset.card_erase_of_mem hmem] at hcard
      have := Finset.card_pos.mpr ⟨_, hmem⟩
      omega
    · exact hcard.trans (Finset.card_le_card (Finset.erase_subset _ _))
  have htop := hdrop (fun k => PX 2 (k * PGSIZE))
    (fun top => (pt.entry top).isNone) (fun top => (pt'.entry top).isNone)
    hreached.top
  have hlow := hdrop (fun k => (PX 2 (k * PGSIZE), PX 1 (k * PGSIZE)))
    (fun path => (pt.low path.1 path.2).isNone)
    (fun path => (pt'.low path.1 path.2).isNone)
    fun path => hreached.low path.1 path.2
  dsimp only at hlow
  have hcard := Finset.card_erase_of_mem hk
  have hpos := Finset.card_pos.mpr ⟨k, hk⟩
  unfold PageTable.need PageTable.missing
  omega

/-! ### What a process sees -/

/-- The flags and the contents of a page that is mapped. -/
def Vm.shows (vm : Vm) (k : Nat) : Option (Perm × Bytes) :=
  (vm.pagetable.page k).map fun pte => (pte.perm, vm.mem.physBytes pte.pa)

def zeroPage : Perm × Bytes := (faultPerm, fun _ => 0)

abbrev UserView := Nat → Perm × Bytes

/-- User memory with every page that is not there read as zeroes. -/
def Vm.filled (vm : Vm) : UserView := fun k =>
  if k < pagesOf vm.sz then (vm.shows k).getD zeroPage else zeroPage

/-- The address space of a process: no frame is used twice. -/
structure Vm.Wf (vm : Vm) (tf : Frame) : Prop where
  space : vm.pagetable.Space (pagesOf vm.sz) tf
  once : ∀ f, vm.mem.free.count f + vm.pagetable.owns f ≤ 1

theorem mapped_le_owns (pt : PageTable) (hk : k < TOP) (f : Frame) :
    mapped (pt.page k) f ≤ pt.owns f := by
  have hle := Finset.single_le_sum (f := fun k => mapped (pt.page k) f)
    (fun _ _ => Nat.zero_le _) (Finset.mem_range.mpr hk)
  unfold PageTable.owns
  omega

/-- A page table that has given up the mapping of `frame` at page `k`, and
perhaps others. -/
theorem PageTable.owns_lt {pt pt' : PageTable} {frame : Frame} {perm : Perm}
    (htables : ∀ f, pt'.tables f = pt.tables f)
    (hpages : ∀ j < TOP, pt'.page j = none ∨ pt'.page j = pt.page j)
    (hk : k < TOP) (hgone : pt'.page k = none) (hpage : pt.page k = some ⟨.frame frame, perm⟩) :
    pt'.owns frame < pt.owns frame := by
  unfold PageTable.owns
  rw [htables frame]
  refine Nat.add_lt_add_left (Finset.sum_lt_sum (fun j hj => ?_) ⟨k, Finset.mem_range.mpr hk, ?_⟩) _
  · obtain hnone | hsame := hpages j (Finset.mem_range.mp hj)
    · rw [hnone]
      exact Nat.zero_le _
    · rw [hsame]
  · have hone : mapped (some ⟨.frame frame, perm⟩) frame = 1 := if_pos rfl
    rw [hgone, hpage, hone]
    exact Nat.one_pos

namespace Vm.Wf

variable {vm : Vm} {tf : Frame}

variable {k : Nat}

/-- A mapped frame is not free. -/
theorem not_free (hwf : vm.Wf tf) (hk : k < TOP) {frame : Frame} {perm : Perm}
    (hpage : vm.pagetable.page k = some ⟨.frame frame, perm⟩) : frame ∉ vm.mem.free := by
  intro hmem
  have hpos := List.count_pos_iff.mpr hmem
  have hle := mapped_le_owns vm.pagetable hk frame
  have hone : mapped (vm.pagetable.page k) frame = 1 := by
    rw [hpage]
    exact if_pos rfl
  have := hwf.once frame
  omega

/-- A frame is mapped at one page only. -/
theorem page_unique (hwf : vm.Wf tf) {j : Nat} (hj : j < TOP) (hk : k < TOP)
    {frame : Frame} {perm perm' : Perm} (hpage : vm.pagetable.page k = some ⟨.frame frame, perm⟩)
    (hpage' : vm.pagetable.page j = some ⟨.frame frame, perm'⟩) : j = k := by
  by_contra hne
  have hsub : ({j, k} : Finset Nat) ⊆ Finset.range TOP := by
    intro i hi
    rcases Finset.mem_insert.mp hi with rfl | hi
    · exact Finset.mem_range.mpr hj
    · rw [Finset.mem_singleton.mp hi]
      exact Finset.mem_range.mpr hk
  have hle := Finset.sum_le_sum_of_subset (f := fun k => mapped (vm.pagetable.page k) frame) hsub
  have hones : mapped (vm.pagetable.page j) frame = 1 ∧ mapped (vm.pagetable.page k) frame = 1 := by
    rw [hpage, hpage']
    exact ⟨if_pos rfl, if_pos rfl⟩
  rw [Finset.sum_pair hne, hones.1, hones.2] at hle
  have := hwf.once frame
  unfold PageTable.owns at this
  omega

/-- The page of a user mapping. -/
theorem shows_eq (hwf : vm.Wf tf) (hk : k < pagesOf vm.sz)
    {pte : Pte} (hpage : vm.pagetable.page k = some pte) : ∃ frame, pte.pa = .frame frame ∧
      vm.shows k = some (pte.perm, vm.mem.page frame) := by
  obtain ⟨_, frame, hpa⟩ := hwf.space.user k hk pte hpage
  exact ⟨frame, hpa, by rw [Vm.shows, hpage, Option.map_some, hpa]; rfl⟩

end Vm.Wf

/-- Lazily grown pages have been allocated, and nothing else has changed. -/
structure Touched (tf : Frame) (vm vm' : Vm) : Prop where
  wf : vm'.Wf tf
  sz : vm'.sz = vm.sz
  filled : vm'.filled = vm.filled
  stays : ∀ k < pagesOf vm.sz, vm.pagetable.page k ≠ none →
    vm'.pagetable.page k = vm.pagetable.page k

theorem Touched.rfl (hwf : vm.Wf tf) :
    Touched tf vm vm := ⟨hwf, Eq.refl _, Eq.refl _, fun _ _ _ => Eq.refl _⟩

theorem Touched.trans {vm₁ vm₂ : Vm} (hfirst : Touched tf vm vm₁) (hsecond : Touched tf vm₁ vm₂) :
    Touched tf vm vm₂ where
  wf := hsecond.wf
  sz := hsecond.sz.trans hfirst.sz
  filled := hsecond.filled.trans hfirst.filled
  stays k hk hsome := by
    have hstays := hfirst.stays k hk hsome
    rw [← hstays]
    exact hsecond.stays k (hfirst.sz ▸ hk) (hstays ▸ hsome)

/-- A fault changes nothing that the process sees. -/
theorem Faulted.touched {vm' : Vm} {result : Option Phys} (hwf : vm.Wf tf) (hk : k < pagesOf vm.sz)
    (hfault : Faulted tf k vm result vm') : Touched tf vm vm' := by
  have hle := hwf.space.le
  have hTOP := TOP_lt_NSLOT
  have hpage : ∀ j < pagesOf vm.sz, vm.pagetable.page j ≠ none →
      vm'.pagetable.page j = vm.pagetable.page j := by
    intro j hj hsome
    by_cases heq : j = k
    · subst heq
      cases result with
      | none => exact hfault.failed (Eq.refl _)
      | some pa => exact absurd (hfault.done pa (Eq.refl _)).1 hsome
    · exact hfault.pages j (by omega) heq
  refine ⟨⟨hfault.sz ▸ hfault.space, fun f => ?_⟩, hfault.sz, ?_, hpage⟩
  · have := hfault.count f
    have := hwf.once f
    omega
  funext j
  unfold Vm.filled
  rw [hfault.sz]
  split
  next hj =>
    cases hold : vm.pagetable.page j with
    | some pte =>
      have hnew := hpage j hj (by simp [hold])
      obtain ⟨frame, hpa, hshows⟩ := hwf.shows_eq hj hold
      have hframe : vm.pagetable.page j = some ⟨.frame frame, pte.perm⟩ := by
        rw [hold, ← hpa]
      have hfree : frame ∉ vm.mem.free := hwf.not_free (by omega) hframe
      rw [hshows, Vm.shows, hnew, hold, Option.map_some, hpa,
        Mem.physBytes, hfault.data frame hfree]
    | none =>
      have hnone : vm.shows j = none := by rw [Vm.shows, hold]; rfl
      rw [hnone, Vm.shows]
      by_cases heq : j = k
      · subst heq
        cases result with
        | none => rw [hfault.failed (Eq.refl _), hold]; rfl
        | some pa =>
          obtain ⟨_, frame, _, _, hnew, hzero⟩ :=
            hfault.done pa (Eq.refl _)
          rw [hnew, Option.map_some, Mem.physBytes, hzero]
          rfl
      · rw [hfault.pages j (by omega) heq, hold]
        rfl
  · rfl

/-- The pages from `lo` to `hi` that are not there. -/
def PageTable.absent (pt : PageTable) (lo hi : Nat) : Finset Nat :=
  (Finset.range hi).filter fun k => lo ≤ k ∧ (pt.page k).isNone

/-- The free pages that it takes to touch every page from `lo` to `hi`. -/
def Vm.need (vm : Vm) (lo hi : Nat) : Nat :=
  vm.pagetable.need (vm.pagetable.absent lo hi)

theorem PageTable.missing_lt_need {pages : Finset Nat} (hk : k ∈ pages) :
    1 + pt.missing k ≤ pt.need pages := by
  have hpos := Finset.card_pos.mpr ⟨k, hk⟩
  have hkey : ∀ {A : Type} [DecidableEq A] (key : Nat → A) (gone : A → Bool),
      (if gone (key k) = true then 1 else 0) ≤
        ((pages.image key).filter (fun a => gone a)).card := by
    intro A _ key gone
    split
    next hthere =>
      exact Finset.card_pos.mpr ⟨key k, Finset.mem_filter.mpr
        ⟨Finset.mem_image_of_mem key hk, hthere⟩⟩
    · exact Nat.zero_le _
  have htop := hkey (fun k => PX 2 (k * PGSIZE)) (fun top => (pt.entry top).isNone)
  have hlow := hkey (fun k => (PX 2 (k * PGSIZE), PX 1 (k * PGSIZE)))
    (fun path => (pt.low path.1 path.2).isNone)
  dsimp only at hlow
  unfold PageTable.need PageTable.missing
  omega

/-- The absent pages after page `lo` has been dealt with. -/
theorem PageTable.absent_succ {pt pt' : PageTable} {lo hi : Nat}
    (hpages : ∀ j, lo < j → j < hi → pt'.page j = pt.page j) :
    pt'.absent (lo + 1) hi = (pt.absent lo hi).erase lo := by
  ext j
  simp only [absent, Finset.mem_filter, Finset.mem_range, Finset.mem_erase]
  constructor
  · rintro ⟨hhi, hlo, hnone⟩
    rw [hpages j (by omega) hhi] at hnone
    exact ⟨by omega, hhi, by omega, hnone⟩
  · rintro ⟨hne, hhi, hlo, hnone⟩
    rw [← hpages j (by omega) hhi] at hnone
    exact ⟨hhi, by omega, hnone⟩

/-- What `userPage` gives for page `k`. -/
structure Found (tf : Frame) (k hi : Nat) (vm : Vm) (result : Option Phys)
    (vm' : Vm) : Prop where
  touched : Touched tf vm vm'
  need : vm'.need (k + 1) hi ≤ vm'.mem.free.length
  refused : result = none → (vm.filled k).1.u = false
  found : ∀ pa, result = some pa → (vm.filled k).1.u = true ∧ ∃ frame, pa = .frame frame ∧
      vm'.pagetable.page k = some ⟨.frame frame, (vm.filled k).1⟩ ∧
      vm'.mem.page frame = (vm.filled k).2

theorem wp_userPage (hwf : vm.Wf tf) {hi : Nat} (hk : k < hi) (hhi : hi ≤ pagesOf vm.sz)
    (hneed : vm.need k hi ≤ vm.mem.free.length) :
    wp (userPage none (k * PGSIZE)) vm (Found tf k hi vm) := by
  have hle := hwf.space.le
  have hTOP := TOP_lt_NSLOT
  have hlt : k < pagesOf vm.sz := by omega
  have hmax := page_lt_MAXVA (hwf.space.lt_NPAGE hlt.le)
  have hdiv : k * PGSIZE / PGSIZE = k := Nat.mul_div_cancel k (by decide)
  unfold userPage
  rw [wp_bind, wp_read]
  simp only [Vm.table, Option.getD_none, walkaddr, Nat.not_le.mpr hmax, if_false]
  cases hpage : vm.pagetable.page k with
  | some pte =>
    have hleaf : vm.pagetable.leaf (k * PGSIZE) = some pte := hpage
    obtain ⟨frame, hpa, hshows⟩ := hwf.shows_eq hlt hpage
    have hfilled : vm.filled k = (pte.perm, vm.mem.page frame) := by
      rw [Vm.filled, if_pos hlt, hshows]
      rfl
    have hnext : vm.need (k + 1) hi ≤ vm.mem.free.length := by
      have herase := @PageTable.absent_succ vm.pagetable vm.pagetable k hi fun j _ _ => Eq.refl _
      have hmem : k ∉ vm.pagetable.absent k hi := by
        simp [PageTable.absent, hpage]
      rw [Vm.need, herase, Finset.erase_eq_of_notMem hmem]
      exact hneed
    simp only [hleaf]
    cases hu : pte.perm.u with
    | true =>
      simp only [if_true]
      refine (wp_pure _).mpr ⟨Touched.rfl hwf, hnext, by simp, ?_⟩
      rintro _ ⟨⟩
      rw [hfilled]
      refine ⟨hu, frame, hpa, ?_, Eq.refl _⟩
      rw [hpage, ← hpa]
    | false =>
      simp only [Bool.false_eq_true, if_false]
      refine wp_mono (@wp_vmfault_mapped vm (k * PGSIZE) ?_ ?_) ?_
      · rw [hdiv]
        exact hwf.space.lt_NPAGE hlt.le
      · rw [hdiv, hpage]
        simp
      · rintro _ _ ⟨rfl, rfl⟩
        exact ⟨Touched.rfl hwf, hnext, fun _ => hfilled ▸ hu, by simp⟩
  | none =>
    have hleaf : vm.pagetable.leaf (k * PGSIZE) = none := hpage
    have hmem : k ∈ vm.pagetable.absent k hi := by
      simp [PageTable.absent, hpage, hk]
    have hfilled : vm.filled k = zeroPage := by
      rw [Vm.filled, if_pos hlt, Vm.shows, hpage]
      rfl
    have hva : k * PGSIZE < vm.sz := by
      simp only [pagesOf, PGSIZE] at hlt ⊢
      omega
    simp only [hleaf]
    refine wp_mono (wp_vmfault hwf.space (k * PGSIZE)) ?_
    unfold Vm.Supplied
    rw [hdiv]
    rintro result vm' ⟨hfault, hsupplied⟩
    obtain ⟨hsome, hlen, hreached⟩ := hsupplied ⟨hva, hpage,
      (PageTable.missing_lt_need hmem).trans hneed⟩
    refine ⟨hfault.touched hwf hlt, ?_, fun hnone => absurd hnone hsome, ?_⟩
    · rw [Vm.need, PageTable.absent_succ fun j hlo hhi' =>
        hfault.pages j (by omega) (by omega)]
      have := hreached.need hmem
      rw [Vm.need] at hneed
      omega
    · intro pa hpa
      obtain ⟨_, frame, _, hframe, hnew, hzero⟩ := hfault.done pa hpa
      rw [hfilled]
      exact ⟨Eq.refl _, frame, hframe, hnew, hzero⟩

/-! ### Copying -/

/-- What `copyin` reads of user memory in which every page is there. -/
def UserView.fetch (view : UserView) : Nat → Bytes → Nat → Nat → Nat → Bool × Bytes
  | 0, dst, _, _, _ => (true, dst)
  | fuel + 1, dst, off, srcva, len =>
    if len = 0 then (true, dst)
    else if (view (srcva / PGSIZE)).1.u then
      let n := min (PGSIZE - srcva % PGSIZE) len
      view.fetch fuel (blit dst off n
          (fun i => (view (srcva / PGSIZE)).2 (srcva % PGSIZE + i)))
        (off + n) (PGROUNDDOWN srcva + PGSIZE) (len - n)
    else (false, dst)

/-- What `copyout` makes of user memory in which every page is there. -/
def UserView.store (view : UserView) : Nat → Nat → Bytes → Nat → Bool × UserView
  | 0, _, _, _ => (true, view)
  | fuel + 1, dstva, src, len =>
    if len = 0 then (true, view)
    else if (view (dstva / PGSIZE)).1.u ∧ (view (dstva / PGSIZE)).1.w then
      let n := min (PGSIZE - dstva % PGSIZE) len
      UserView.store (Function.update view (dstva / PGSIZE)
          ((view (dstva / PGSIZE)).1, blit (view (dstva / PGSIZE)).2
            (dstva % PGSIZE) n src))
        fuel (PGROUNDDOWN dstva + PGSIZE) (fun i => src (n + i)) (len - n)
    else (false, view)

/-- The next page of a range, and that it is in the range. -/
theorem next_page {len sz : Nat} (hpos : 0 < len) (hend : va + len ≤ sz) :
    va / PGSIZE < pagesOf sz ∧ (PGROUNDDOWN va + PGSIZE) / PGSIZE = va / PGSIZE + 1 ∧
      (0 < len - min (PGSIZE - va % PGSIZE) len →
        PGROUNDDOWN va + PGSIZE + (len - min (PGSIZE - va % PGSIZE) len) ≤ sz) ∧
      len - min (PGSIZE - va % PGSIZE) len < len := by
  refine ⟨page_lt_pagesOf (by omega), ?_, ?_, ?_⟩ <;>
    simp only [PGROUNDDOWN, PGSIZE] <;> omega

section Copies

variable {vm : Vm} {tf : Frame} {bound : Nat}

theorem wp_copyinFrom (fuel : Nat) {dst : Bytes} {off srcva len : Nat} (hwf : vm.Wf tf)
    (hbound : bound ≤ vm.sz) (hfuel : len ≤ fuel) (hend : 0 < len → srcva + len ≤ bound)
    (hneed : vm.need (srcva / PGSIZE) (pagesOf bound) ≤ vm.mem.free.length) :
    wp (copyinFrom none fuel dst off srcva len) vm (fun result vm' =>
      result = vm.filled.fetch fuel dst off srcva len ∧ Touched tf vm vm') := by
  induction fuel generalizing vm dst off srcva len with
  | zero => exact (wp_pure _).mpr ⟨rfl, Touched.rfl hwf⟩
  | succ fuel ih =>
    unfold copyinFrom UserView.fetch
    rw [wp_ite]
    split
    · exact (wp_pure _).mpr ⟨rfl, Touched.rfl hwf⟩
    rename_i hlen
    obtain ⟨hk, hnext, hmore, hless⟩ := next_page (Nat.pos_of_ne_zero hlen)
      (hend (Nat.pos_of_ne_zero hlen))
    refine wp_seq (wp_userPage hwf hk (pagesOf_mono hbound) hneed) ?_
    intro result vm₁ hfound
    cases result with
    | none =>
      rw [hfound.refused rfl]
      exact (wp_pure _).mpr ⟨rfl, hfound.touched⟩
    | some pa =>
      obtain ⟨hu, frame, rfl, _, hbytes⟩ := hfound.found pa rfl
      dsimp only
      rw [wp_bind, wp_read, if_pos hu, ← hbytes, ← hfound.touched.filled]
      refine wp_mono (ih hfound.touched.wf (hfound.touched.sz.symm ▸ hbound) (by omega) hmore
        (hnext.symm ▸ hfound.need)) ?_
      rintro result vm₂ ⟨hresult, htouched⟩
      exact ⟨hresult, hfound.touched.trans htouched⟩

/-- Writing into a page that is there. -/
theorem Vm.Wf.write (hwf : vm.Wf tf) {k : Nat} (hk : k < pagesOf vm.sz) {frame : Frame}
    {perm : Perm} (hpage : vm.pagetable.page k = some ⟨.frame frame, perm⟩) (bytes : Bytes) :
    ({ vm with mem := { vm.mem with
      page := Function.update vm.mem.page frame bytes } } : Vm).filled =
      Function.update vm.filled k (perm, bytes) := by
  have hle := hwf.space.le
  funext j
  unfold Vm.filled Vm.shows
  dsimp only
  by_cases heq : j = k
  · subst heq
    rw [Function.update_self, if_pos hk, hpage]
    simp [Mem.physBytes]
  rw [Function.update_of_ne heq]
  split
  next hj =>
    cases hold : vm.pagetable.page j with
    | none => rfl
    | some pte =>
      obtain ⟨_, other, hpa⟩ := hwf.space.user j hj pte hold
      have hother : vm.pagetable.page j = some ⟨.frame other, pte.perm⟩ := by
        rw [hold, ← hpa]
      have hne : other ≠ frame := by
        rintro rfl
        exact heq (hwf.page_unique (by omega) (by omega) hpage hother)
      simp [hpa, Mem.physBytes, Function.update_of_ne hne]
  · rfl

theorem wp_copyoutFrom (fuel : Nat) {src : Bytes} {dstva len : Nat} (hwf : vm.Wf tf)
    (hbound : bound ≤ vm.sz) (hfuel : len ≤ fuel) (hend : 0 < len → dstva + len ≤ bound)
    (hneed : vm.need (dstva / PGSIZE) (pagesOf bound) ≤ vm.mem.free.length) :
    wp (copyoutFrom none fuel dstva src len) vm (fun ok vm' =>
      (ok, vm'.filled) = vm.filled.store fuel dstva src len ∧ vm'.Wf tf ∧ vm'.sz = vm.sz ∧
      ∀ k < pagesOf vm.sz, vm.pagetable.page k ≠ none →
        vm'.pagetable.page k = vm.pagetable.page k) := by
  induction fuel generalizing vm src dstva len with
  | zero => exact (wp_pure _).mpr ⟨rfl, hwf, rfl, fun _ _ _ => rfl⟩
  | succ fuel ih =>
    unfold copyoutFrom UserView.store
    rw [wp_ite]
    split
    · exact (wp_pure _).mpr ⟨rfl, hwf, rfl, fun _ _ _ => rfl⟩
    rename_i hlen
    obtain ⟨hk, hnext, hmore, hless⟩ := next_page (Nat.pos_of_ne_zero hlen)
      (hend (Nat.pos_of_ne_zero hlen))
    have hksz := hk.trans_le (pagesOf_mono hbound)
    have hkN := hwf.space.lt_NPAGE hksz.le
    rw [PGROUNDDOWN_page, if_neg (Nat.not_le.mpr (page_lt_MAXVA hkN))]
    refine wp_seq (wp_userPage hwf hk (pagesOf_mono hbound) hneed) ?_
    intro result vm₁ hfound
    have htouched := hfound.touched
    cases result with
    | none =>
      rw [if_neg (by simp [hfound.refused rfl])]
      refine (wp_pure _).mpr ⟨?_, htouched.wf, htouched.sz, htouched.stays⟩
      rw [htouched.filled]
    | some pa =>
      obtain ⟨hu, frame, rfl, hpage, hbytes⟩ := hfound.found pa rfl
      dsimp only
      rw [wp_bind, wp_read, wp_bind, wp_onMem]
      simp only [Vm.table, Option.getD_none]
      rw [walk_page _ hkN, wp_pure, hpage, Option.any_some, wp_ite]
      split
      next hw =>
        rw [if_pos ⟨hu, hw⟩, wp_bind, wp_onMem, setPhys, wp_bind, wp_read, setPage, wp_update]
        have hview := htouched.wf.write (htouched.sz.symm ▸ hksz) hpage
          (blit (vm₁.mem.page frame) (dstva % PGSIZE) (min (PGSIZE - dstva % PGSIZE) len) src)
        rw [htouched.filled] at hview
        conv at hview => rhs; rw [hbytes]
        rw [← hview]
        refine wp_mono (ih ⟨htouched.wf.space, htouched.wf.once⟩
          (htouched.sz.symm ▸ hbound) (by omega) hmore
          (hnext.symm ▸ hfound.need)) ?_
        rintro ok vm₂ ⟨hresult, hwf₂, hsz₂, hstays₂⟩
        refine ⟨hresult, hwf₂, hsz₂.trans htouched.sz, fun j hj hsome => ?_⟩
        have hstays := htouched.stays j hj hsome
        rw [← hstays]
        exact hstays₂ j (htouched.sz.symm ▸ hj) (hstays ▸ hsome)
      next hw =>
        rw [if_neg (fun h => hw h.2)]
        refine (wp_pure _).mpr ⟨?_, htouched.wf, htouched.sz, htouched.stays⟩
        rw [htouched.filled]

/-- What `copyinstr` reads of the pages that are there. -/
def scan (shows : Nat → Option (Perm × Bytes)) : Nat → Bytes → Nat → Nat → Nat → Bool × Bytes
  | 0, dst, _, _, _ => (false, dst)
  | fuel + 1, dst, off, srcva, max =>
    if max = 0 then (false, dst)
    else
      match shows (srcva / PGSIZE) with
      | none => (false, dst)
      | some (perm, bytes) =>
        let src := fun i => bytes (srcva % PGSIZE + i)
        let n := min (PGSIZE - srcva % PGSIZE) max
        let len := strlen src n
        if perm.u = false then (false, dst)
        else if len < n then
          (true, Function.update (blit dst off len src) (off + len) 0)
        else
          scan shows fuel (blit dst off n src) (off + n)
            (PGROUNDDOWN srcva + PGSIZE) (max - n)

theorem copyinstrFrom_eq (fuel : Nat) {dst : Bytes} {off srcva max : Nat} (hwf : vm.Wf tf)
    (hend : 0 < max → srcva + max ≤ vm.sz) : copyinstrFrom none fuel dst off srcva max vm =
      .ok (scan vm.shows fuel dst off srcva max, vm) := by
  induction fuel generalizing dst off srcva max with
  | zero => rfl
  | succ fuel ih =>
    unfold copyinstrFrom scan
    split
    · rfl
    rename_i hmax
    obtain ⟨hk, _, hmore, _⟩ := next_page (Nat.pos_of_ne_zero hmax) (hend (Nat.pos_of_ne_zero hmax))
    have hva := page_lt_MAXVA (hwf.space.lt_NPAGE hk.le)
    rw [read_bind]
    simp only [Vm.table, Option.getD_none, walkaddr, PGROUNDDOWN_page, Nat.not_le.mpr hva, if_false]
    cases hpage : vm.pagetable.page (srcva / PGSIZE) with
    | none =>
      have hleaf : vm.pagetable.leaf (srcva / PGSIZE * PGSIZE) = none :=
        hpage
      simp only [hleaf, Vm.shows, hpage]
      rfl
    | some pte =>
      have hleaf : vm.pagetable.leaf (srcva / PGSIZE * PGSIZE) = some pte := hpage
      simp only [hleaf, Vm.shows, hpage, Option.map_some]
      cases hu : pte.perm.u with
      | false => rfl
      | true =>
        simp only [if_true, Bool.true_eq_false, if_false]
        split
        · rfl
        · exact ih hmore

end Copies

/-- The byte at a user address, if the user may read it. -/
def Vm.byteAt (vm : Vm) (va : Nat) : Option UInt8 :=
  (vm.shows (va / PGSIZE)).bind fun page =>
    if page.1.u then some (page.2 (va % PGSIZE)) else none

/-- Every page that the string at `srcva` reaches, up to its end and within
`max` bytes, is there. -/
def Vm.StringThere (vm : Vm) (srcva max : Nat) : Prop :=
  ∀ i < max, (∀ j < i, ∃ byte, vm.byteAt (srcva + j) = some byte ∧ byte ≠ 0) →
    vm.pagetable.page ((srcva + i) / PGSIZE) ≠ none

theorem strlen_zero (n : Nat) : strlen (fun _ => 0) n = 0 := by
  cases n <;> simp [strlen]

variable {srcva max : Nat}

/-- A string that goes on past the end of a page. -/
theorem Vm.stringThere_next (vm : Vm) (hpage : vm.pagetable.page (srcva / PGSIZE) ≠ none)
    (hchars : ∀ i < min (PGSIZE - srcva % PGSIZE) max,
      ∃ byte, vm.byteAt (srcva + i) = some byte ∧ byte ≠ 0) :
    vm.StringThere srcva max ↔ vm.StringThere (PGROUNDDOWN srcva + PGSIZE)
      (max - min (PGSIZE - srcva % PGSIZE) max) := by
  have hnext : PGROUNDDOWN srcva + PGSIZE = srcva + (PGSIZE - srcva % PGSIZE) := by
    simp only [PGROUNDDOWN, PGSIZE]
    omega
  have hsame : ∀ i, i < PGSIZE - srcva % PGSIZE → (srcva + i) / PGSIZE = srcva / PGSIZE := by
    intro i hi
    simp only [PGSIZE] at hi ⊢
    omega
  rw [hnext]
  generalize PGSIZE - srcva % PGSIZE = room at hchars hsame ⊢
  constructor
  · intro hthere i hi hbefore
    rw [Nat.add_assoc]
    refine hthere (room + i) (by omega) fun j hj => ?_
    by_cases hin : j < room
    · exact hchars j (by omega)
    · have hread := hbefore (j - room) (by omega)
      rwa [Nat.add_assoc, Nat.add_sub_cancel' (by omega)] at hread
  · intro hthere i hi hbefore
    by_cases hin : i < room
    · rw [hsame i hin]
      exact hpage
    · have hpages := hthere (i - room) (by omega) fun j hj => by
        rw [Nat.add_assoc]
        exact hbefore (room + j) (by omega)
      rwa [Nat.add_assoc, Nat.add_sub_cancel' (by omega)] at hpages

/-- Reading a string tells a page that is not there from one of zeroes. -/
theorem scan_filled_iff (fuel : Nat) {dst : Bytes} {off : Nat} (hfuel : max ≤ fuel)
    (hend : 0 < max → srcva + max ≤ vm.sz) : scan vm.shows fuel dst off srcva max =
        scan (fun k => some (vm.filled k)) fuel dst off srcva max ↔ vm.StringThere srcva max := by
  induction fuel generalizing dst off srcva max with
  | zero =>
    refine ⟨fun _ i hi => by omega, fun _ => rfl⟩
  | succ fuel ih =>
    unfold scan
    split
    next hmax =>
      exact ⟨fun _ i hi => by omega, fun _ => rfl⟩
    rename_i hmax
    obtain ⟨hk, _, hmore, hless⟩ := next_page (Nat.pos_of_ne_zero hmax)
      (hend (Nat.pos_of_ne_zero hmax))
    cases hpage : vm.pagetable.page (srcva / PGSIZE) with
    | none =>
      have hshows : vm.shows (srcva / PGSIZE) = none := by
        rw [Vm.shows, hpage]
        rfl
      have hfilled : vm.filled (srcva / PGSIZE) = zeroPage := by
        rw [Vm.filled, if_pos hk, hshows]
        rfl
      have hpos : 0 < min (PGSIZE - srcva % PGSIZE) max := by
        simp only [PGSIZE]
        omega
      simp only [hshows, hfilled, zeroPage, faultPerm, strlen_zero,
        if_pos hpos, Bool.true_eq_false, if_false, Prod.mk.injEq,
        Bool.false_eq_true, false_and, false_iff]
      intro hthere
      exact hthere 0 (Nat.pos_of_ne_zero hmax) (by simp) hpage
    | some pte =>
      have hshows : vm.shows (srcva / PGSIZE) = some (pte.perm, vm.mem.physBytes pte.pa) := by
        rw [Vm.shows, hpage]
        rfl
      have hfilled : vm.filled (srcva / PGSIZE) = (pte.perm, vm.mem.physBytes pte.pa) := by
        rw [Vm.filled, if_pos hk, hshows]
        rfl
      have hsame : ∀ i, i < PGSIZE - srcva % PGSIZE → (srcva + i) / PGSIZE = srcva / PGSIZE ∧
          (srcva + i) % PGSIZE = srcva % PGSIZE + i := by
        intro i hi
        simp only [PGSIZE] at hi ⊢
        omega
      have hbyte : ∀ i, i < PGSIZE - srcva % PGSIZE → vm.byteAt (srcva + i) = if pte.perm.u then
            some (vm.mem.physBytes pte.pa (srcva % PGSIZE + i)) else
            none := by
        intro i hi
        rw [Vm.byteAt, (hsame i hi).1, (hsame i hi).2, hshows]
        rfl
      have hpos : 0 < PGSIZE - srcva % PGSIZE := by
        simp only [PGSIZE]
        omega
      simp only [hshows, hfilled]
      cases hu : pte.perm.u with
      | false =>
        simp only [if_true, true_iff]
        intro i hi hbefore
        by_cases hzero : i = 0
        · rw [hzero, Nat.add_zero, hpage]
          simp
        · obtain ⟨byte, hread, _⟩ := hbefore 0 (by omega)
          rw [hbyte 0 hpos, hu] at hread
          cases hread
      | true =>
        simp only [Bool.true_eq_false, if_false]
        split
        next hnul =>
          simp only [true_iff]
          intro i hi hbefore
          by_cases hin : i < PGSIZE - srcva % PGSIZE
          · rw [(hsame i hin).1, hpage]
            simp
          obtain ⟨byte, hread, hne⟩ := hbefore (strlen (fun i => vm.mem.physBytes pte.pa
              (srcva % PGSIZE + i))
              (min (PGSIZE - srcva % PGSIZE) max)) (by omega)
          have hzero := strlen_end hnul
          rw [hbyte _ (by omega), hu, if_pos rfl, hzero] at hread
          exact absurd (Option.some.inj hread).symm hne
        next hfull =>
          rw [ih (by omega) hmore]
          exact (vm.stringThere_next (by simp [hpage]) fun i hi =>
            ⟨_, by rw [hbyte i (by omega), hu]; rfl, @strlen_chars (fun i => vm.mem.physBytes pte.pa
                (srcva % PGSIZE + i)) _ i
                (hi.trans_le (Nat.not_lt.mp hfull))⟩).symm

/-- Pages outside the range do not matter. -/
theorem scan_congr (fuel : Nat) {shows shows' : Nat → Option (Perm × Bytes)}
    {bound : Nat} (hsame : ∀ k < pagesOf bound, shows k = shows' k)
    {dst : Bytes} {off : Nat} (hend : 0 < max → srcva + max ≤ bound) :
    scan shows fuel dst off srcva max = scan shows' fuel dst off srcva max := by
  induction fuel generalizing dst off srcva max with
  | zero => rfl
  | succ fuel ih =>
    unfold scan
    split
    · rfl
    rename_i hmax
    obtain ⟨hk, _, hmore, _⟩ := next_page (Nat.pos_of_ne_zero hmax) (hend (Nat.pos_of_ne_zero hmax))
    rw [hsame _ hk]
    split
    · rfl
    dsimp only
    split
    · rfl
    split
    · rfl
    · exact ih hmore

/-- `full` is `vm` with every page that is not there yet allocated and zero, for
the user to read and write. -/
structure Populates (vm full : Vm) : Prop where
  sz : full.sz = vm.sz
  page : ∀ k < pagesOf vm.sz, full.shows k = some (vm.filled k)

theorem populates_iff {full : Vm} : Populates vm full ↔ full.sz = vm.sz ∧ full.filled = vm.filled ∧
      ∀ k < pagesOf vm.sz, full.pagetable.page k ≠ none := by
  constructor
  · intro hpop
    refine ⟨hpop.sz, funext fun k => ?_, fun k hk hnone => ?_⟩
    · by_cases hk : k < pagesOf vm.sz
      · rw [Vm.filled, hpop.sz, if_pos hk, hpop.page k hk, Option.getD_some]
      · rw [Vm.filled, Vm.filled, hpop.sz, if_neg hk, if_neg hk]
    · have hpage := hpop.page k hk
      rw [Vm.shows, hnone] at hpage
      cases hpage
  · rintro ⟨hsz, hfilled, hthere⟩
    refine ⟨hsz, fun k hk => ?_⟩
    obtain ⟨pte, hpage⟩ := Option.ne_none_iff_exists'.mp (hthere k hk)
    rw [← hfilled, Vm.filled, hsz, if_pos hk, Vm.shows, hpage]
    rfl

/-- A populated address space takes no free pages. -/
theorem Populates.need {full : Vm} (hpop : Populates vm full) {lo hi : Nat}
    (hhi : hi ≤ pagesOf vm.sz) : full.need lo hi = 0 := by
  have hnone : full.pagetable.absent lo hi = ∅ := by
    refine Finset.filter_eq_empty_iff.mpr ?_
    intro k hk
    have hthere := (populates_iff.mp hpop).2.2 k ((Finset.mem_range.mp hk).trans_le hhi)
    simp [hthere]
  rw [Vm.need, hnone]
  rfl

/-- Free pages for a small address space. -/
def lazyMem : Mem := ⟨(List.finRange 16).map (Fin.castLE (by decide)), fun _ _ => 7⟩

/-- A process with one page that it has not touched, and the same process after
a fault on that page. -/
theorem exists_lazy_page (tf : Frame) : ∃ vm full : Vm, vm.Wf tf ∧
    full.Wf tf ∧ Populates vm full ∧ vm.sz = PGSIZE ∧
    vm.pagetable.page 0 = none ∧ 3 ≤ vm.mem.free.length := by
  obtain ⟨result, mem, hrun, hcreated⟩ := wp_procPagetable tf lazyMem
  have hview : outcome (fun result mem => (result.isSome, mem.free.length))
      (procPagetable tf lazyMem) = some (true, 13) := rfl
  rw [hrun] at hview
  simp only [outcome, Option.some.injEq, Prod.mk.injEq] at hview
  obtain ⟨pt, rfl⟩ := Option.isSome_iff_exists.mp hview.1
  have hone : pagesOf PGSIZE = 1 := by decide
  have hspace := hcreated.space pt rfl
  have hnone : pt.page 0 = none :=
    hspace.gap 0 (by decide) (Nat.le_refl 0) (by decide) (by decide)
  have hwf : Vm.Wf ⟨mem, PGSIZE, pt⟩ tf := by
    refine ⟨hspace.extend (Nat.zero_le _) (show pagesOf PGSIZE ≤ TOP by decide), fun f => ?_⟩
    have hcount := hcreated.count pt rfl f
    have hnodup : lazyMem.free.Nodup := by decide
    have := List.nodup_iff_count_le_one.mp hnodup f
    dsimp only at hcount ⊢
    omega
  have hmissing : pt.missing 0 ≤ 2 := by
    unfold PageTable.missing
    split <;> split <;> decide
  have hsupply : 1 + pt.missing 0 ≤ mem.free.length := by omega
  obtain ⟨pa, full, _, hfault, hsupplied⟩ := wp_vmfault hwf.space 0
  obtain ⟨hsome, _⟩ := hsupplied ⟨show 0 < PGSIZE by decide, hnone, hsupply⟩
  have htouched := hfault.touched hwf (show 0 / PGSIZE < pagesOf PGSIZE by decide)
  refine ⟨⟨mem, PGSIZE, pt⟩, full, hwf, htouched.wf, populates_iff.mpr
    ⟨htouched.sz, htouched.filled, fun k hk => ?_⟩, rfl, hnone,
    show 3 ≤ mem.free.length by omega⟩
  obtain ⟨pa, rfl⟩ := Option.ne_none_iff_exists'.mp hsome
  obtain ⟨_, frame, _, _, hpage, _⟩ := hfault.done pa rfl
  obtain rfl : k = 0 := by
    have : k < pagesOf PGSIZE := hk
    omega
  exact hpage ▸ by simp

/-- Lazy allocation is transparent to `copyin` and `copyout`, and to `copyinstr`
exactly if the string reaches no page that is not there. -/
theorem lazy_pages_transparent {vm full : Vm} {tf tf' : Frame}
    (hwf : vm.Wf tf) (hfull : full.Wf tf') (hpop : Populates vm full) :
    (∀ dst srcva len, srcva + len ≤ vm.sz →
      vm.need (srcva / PGSIZE) (pagesOf (srcva + len)) ≤ vm.mem.free.length →
      ∃ result vm' full', copyin none dst srcva len vm = .ok (result, vm') ∧
        copyin none dst srcva len full = .ok (result, full') ∧
        Populates vm' full') ∧ (∀ dstva src len, dstva + len ≤ vm.sz →
      vm.need (dstva / PGSIZE) (pagesOf (dstva + len)) ≤ vm.mem.free.length →
      ∃ ok vm' full', copyout none dstva src len vm = .ok (ok, vm') ∧
        copyout none dstva src len full = .ok (ok, full') ∧
        Populates vm' full') ∧ ∀ dst srcva max, srcva + max ≤ vm.sz → ((∃ result vm' full',
          copyinstr none dst srcva max vm = .ok (result, vm') ∧
          copyinstr none dst srcva max full = .ok (result, full') ∧
          Populates vm' full') ↔ vm.StringThere srcva max) := by
  obtain ⟨hsz, hfilled, hthere⟩ := populates_iff.mp hpop
  refine ⟨?_, ?_, ?_⟩
  · intro dst srcva len hend hneed
    obtain ⟨result, vm', hrun, hresult, htouched⟩ :=
      @wp_copyinFrom vm tf (srcva + len) len dst 0 srcva len hwf hend
        (Nat.le_refl len) (fun _ => Nat.le_refl _) hneed
    obtain ⟨result', full', hrun', hresult', htouched'⟩ :=
      @wp_copyinFrom full tf' (srcva + len) len dst 0 srcva len hfull
        (hsz ▸ hend) (Nat.le_refl len) (fun _ => Nat.le_refl _)
        (by rw [hpop.need (pagesOf_mono hend)]; exact Nat.zero_le _)
    rw [hfilled, ← hresult] at hresult'
    subst hresult'
    refine ⟨_, vm', full', hrun, hrun', populates_iff.mpr ⟨by rw [htouched'.sz, htouched.sz, hsz],
        by rw [htouched'.filled, htouched.filled, hfilled], ?_⟩⟩
    rw [htouched.sz]
    intro k hk
    rw [htouched'.stays k (hsz ▸ hk) (hthere k hk)]
    exact hthere k hk
  · intro dstva src len hend hneed
    obtain ⟨ok, vm', hrun, hresult, _, hsz', _⟩ :=
      @wp_copyoutFrom vm tf (dstva + len) len src dstva len hwf hend
        (Nat.le_refl len) (fun _ => Nat.le_refl _) hneed
    obtain ⟨ok', full', hrun', hresult', _, hsz'', hstays⟩ :=
      @wp_copyoutFrom full tf' (dstva + len) len src dstva len hfull
        (hsz ▸ hend) (Nat.le_refl len) (fun _ => Nat.le_refl _)
        (by rw [hpop.need (pagesOf_mono hend)]; exact Nat.zero_le _)
    rw [hfilled, ← hresult, Prod.mk.injEq] at hresult'
    obtain ⟨rfl, hview⟩ := hresult'
    refine ⟨_, vm', full', hrun, hrun', populates_iff.mpr ⟨by rw [hsz'', hsz', hsz], hview, ?_⟩⟩
    rw [hsz']
    intro k hk
    rw [hstays k (hsz ▸ hk) (hthere k hk)]
    exact hthere k hk
  · intro dst srcva max hend
    have hrun := @copyinstrFrom_eq vm tf max dst 0 srcva max hwf fun _ => hend
    have hrun' := @copyinstrFrom_eq full tf' max dst 0 srcva max hfull fun _ => hsz ▸ hend
    have hsame : scan full.shows max dst 0 srcva max =
        scan (fun k => some (vm.filled k)) max dst 0 srcva max :=
      scan_congr max (fun k hk => hpop.page k
        (hk.trans_le (pagesOf_mono hend))) fun _ => Nat.le_refl _
    rw [← scan_filled_iff max (Nat.le_refl max) fun _ => hend, ← hsame]
    unfold copyinstr
    rw [hrun, hrun']
    constructor
    · rintro ⟨result, vm', full', hleft, hright, _⟩
      simp only [Except.ok.injEq, Prod.mk.injEq] at hleft hright
      exact hleft.1.trans hright.1.symm
    · intro heq
      exact ⟨_, vm, full, rfl, by rw [heq], hpop⟩

/-- A process copies a byte to a page that it has not touched, and back. -/
theorem lazy_pages_transparent_onePage : ∃ vm full : Vm,
    vm.Wf 0 ∧ full.Wf 0 ∧ Populates vm full ∧ vm.pagetable.page 0 = none ∧
    ∃ ok vm' full', copyout none 5 (fun _ => 3) 1 vm = .ok (ok, vm') ∧
      copyout none 5 (fun _ => 3) 1 full = .ok (ok, full') ∧ Populates vm' full' := by
  obtain ⟨vm, full, hwf, hfull, hpop, hsz, hnone, hfree⟩ := exists_lazy_page 0
  refine ⟨vm, full, hwf, hfull, hpop, hnone,
    (lazy_pages_transparent hwf hfull hpop).2.1 5 _ 1 ?_ ?_⟩
  · rw [hsz]
    decide
  have hcard : (vm.pagetable.absent (5 / PGSIZE) (pagesOf (5 + 1))).card ≤ 1 :=
    (Finset.card_filter_le _ _).trans (by rw [Finset.card_range]; decide)
  have := vm.pagetable.need_le (vm.pagetable.absent (5 / PGSIZE) (pagesOf (5 + 1)))
  unfold Vm.need
  omega

/-- `copyinstr` fails on a page that the process has not touched; the page reads
as the empty string once it is there. -/
theorem copyinstr_refuses_lazy_page : ∃ vm full : Vm,
    vm.Wf 0 ∧ full.Wf 0 ∧ Populates vm full ∧ vm.sz = PGSIZE ∧
    copyinstr none (fun _ => 7) 0 1 vm = .ok ((false, fun _ => 7), vm) ∧
    ∃ dst, copyinstr none (fun _ => 7) 0 1 full = .ok ((true, dst), full) := by
  obtain ⟨vm, full, hwf, hfull, hpop, hsz, hnone, _⟩ := exists_lazy_page 0
  refine ⟨vm, full, hwf, hfull, hpop, hsz, ?_, ?_⟩
  · unfold copyinstr
    rw [@copyinstrFrom_eq vm 0 1 _ 0 0 1 hwf fun _ => by rw [hsz]; decide]
    have hshows : vm.shows 0 = none := by
      rw [Vm.shows, hnone]
      rfl
    simp [scan, hshows]
  · unfold copyinstr
    rw [@copyinstrFrom_eq full 0 1 _ 0 0 1 hfull fun _ => by
      rw [hpop.sz, hsz]; decide]
    have hshows : full.shows 0 = some zeroPage := by
      rw [hpop.page 0 (by rw [hsz]; decide), Vm.filled,
        if_pos (by rw [hsz]; decide), Vm.shows, hnone]
      rfl
    refine ⟨Function.update (blit (fun _ => 7) 0 0 fun _ => 0) 0 0, ?_⟩
    simp [scan, hshows, zeroPage, faultPerm, strlen_zero, PGSIZE]

end CkptKernel
