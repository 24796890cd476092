/-
Calls that change an address space: `sbrk`, page faults, `wait` and `pipe`,
which store their results in user memory, and `exec`, which builds a new address
space next to the old one.
-/
import CkptKernel.SpaceCalls

namespace CkptKernel

open ByteMem Code TableSum

/-! ### Code on one address space -/

/-- The address space is in order, with the frames of before. -/
structure Vm.Kept (tf : Frame) (vm vm' : Vm) : Prop where
  space : vm'.pagetable.Space (pagesOf vm'.sz) tf
  count : Conserves vm.mem vm'.mem vm.pagetable.owns vm'.pagetable.owns

theorem Vm.Kept.refl {vm : Vm} {tf : Frame}
    (hspace : vm.pagetable.Space (pagesOf vm.sz) tf) : vm.Kept tf vm :=
  ⟨hspace, Conserves.rfl⟩

section Orderly

variable {base : Vm} {tf : Frame}

theorem orderly_vmfault (va : Nat) : Keeps Sane (base.Kept tf) (vmfault none va) := fun _ hkept =>
  ends_of_wp (wp_mono (wp_vmfault hkept.space va) fun _ _ hdone =>
    ⟨hdone.1.sz ▸ hdone.1.space, hkept.count.trans hdone.1.count⟩)

theorem orderly_userPage (va0 : Nat) : Keeps Sane (base.Kept tf) (userPage none va0) := by
  refine leads_read_bind fun vm => ?_
  split
  · exact leads_pure _
  · exact orderly_vmfault va0

theorem orderly_walk (pt : PageTable) {va : Nat} (hva : va < MAXVA) :
    Keeps Sane (base.Kept tf) (onMem (walk pt va)) := by
  intro vm hkept
  rwa [onMem, ends_within, walk, if_neg (Nat.not_le.mpr hva)]

theorem orderly_setPhys (pa : Phys) (off count : Nat) (src : Bytes) :
    Keeps Sane (base.Kept tf) (onMem (setPhys pa off count src)) := by
  intro vm hkept
  cases pa with
  | frame frame => exact ⟨hkept.space, hkept.count⟩
  | trampoline => exact hkept

theorem orderly_copyoutFrom (fuel dstva : Nat) (src : Bytes) (len : Nat) :
    Keeps Sane (base.Kept tf) (copyoutFrom none fuel dstva src len) := by
  induction fuel generalizing dstva src len with
  | zero => exact leads_pure _
  | succ fuel ih =>
    refine leads_ite (leads_pure _) ?_
    by_cases hva : MAXVA ≤ PGROUNDDOWN dstva
    · rw [if_pos hva]
      exact leads_pure _
    rw [if_neg hva]
    refine leads_bind (orderly_userPage _) fun pa0 => ?_
    cases pa0 with
    | none => exact leads_pure _
    | some pa0 =>
      exact leads_read_bind fun _ =>
        leads_bind (orderly_walk _ (by omega)) fun _ =>
        leads_ite (leads_bind (orderly_setPhys _ _ _ _) fun _ =>
          ih _ _ _) (leads_pure _)

theorem orderly_copyinFrom (fuel : Nat) (dst : Bytes) (off srcva len : Nat) :
    Keeps Sane (base.Kept tf) (copyinFrom none fuel dst off srcva len) := by
  induction fuel generalizing dst off srcva len with
  | zero => exact leads_pure _
  | succ fuel ih =>
    refine leads_ite (leads_pure _) ?_
    refine leads_bind (orderly_userPage _) fun pa0 => ?_
    cases pa0 with
    | none => exact leads_pure _
    | some pa0 => exact leads_read_bind fun _ => ih _ _ _ _

theorem orderly_copyinstrFrom (fuel : Nat) (dst : Bytes) (off srcva max : Nat) :
    Keeps Sane (base.Kept tf) (copyinstrFrom none fuel dst off srcva max) := by
  induction fuel generalizing dst off srcva max with
  | zero => exact leads_pure _
  | succ fuel ih =>
    refine leads_ite (leads_pure _) (leads_read_bind fun vm => ?_)
    split
    · exact leads_pure _
    · exact leads_ite (leads_pure _) (ih _ _ _ _)

theorem orderly_fetchaddr (addr : Nat) : Keeps Sane (base.Kept tf) (fetchaddr addr) :=
  leads_read_bind fun _ => leads_ite (leads_pure _)
    (leads_bind (orderly_copyinFrom _ _ _ _ _) fun _ => leads_pure _)

end Orderly

/-! ### Growing and shrinking -/

/-- Eager growth that gets as far as the trapframe. -/
def Vm.Overgrows (vm : Vm) (n t : Int32) : Prop :=
  t = SBRK_EAGER ∧ 0 < n ∧ TRAPFRAME < addSz vm.sz n ∧ TOP - pagesOf vm.sz < vm.mem.free.length

instance (vm : Vm) (n t : Int32) : Decidable (vm.Overgrows n t) :=
  inferInstanceAs (Decidable (_ ∧ _))

/-- Lazy growth asks for no more than there is below the trapframe. -/
def LazyFits (sz : Nat) (n t : Int32) : Prop :=
  t ≠ SBRK_EAGER → 0 ≤ n → addSz sz n ≤ TRAPFRAME

instance (sz : Nat) (n t : Int32) : Decidable (LazyFits sz n t) :=
  inferInstanceAs (Decidable (_ → _ → _))

/-- An address space of size `newsz`, with the pages below both sizes as before
and the frames of those above given up, or the one there was. -/
structure Vm.Resized (newsz : Nat) (vm : Vm) (ok : Bool) (vm' : Vm) : Prop where
  size : ok = true → vm'.sz = newsz
  kept : ok = true → ∀ va < min vm.sz newsz, vm'.shows (va / PGSIZE) = vm.shows (va / PGSIZE)
  freed : ok = true → ∀ k < TOP, pagesOf newsz ≤ k → vm'.pagetable.page k = none ∧ ∀ frame perm,
      vm.pagetable.page k = some ⟨.frame frame, perm⟩ → frame ∈ vm'.mem.free
  failed : ok = false → vm'.sz = vm.sz ∧ (∀ k < NSLOT, vm'.pagetable.page k = vm.pagetable.page k ∧
      vm'.shows k = vm.shows k) ∧ ∀ f, vm'.mem.free.count f + vm'.pagetable.tables f =
      vm.mem.free.count f + vm.pagetable.tables f

theorem Vm.shows_congr {vm vm' : Vm} {k : Nat} (hdata : vm'.mem.page = vm.mem.page)
    (hpage : vm'.pagetable.page k = vm.pagetable.page k) : vm'.shows k = vm.shows k := by
  unfold Vm.shows Mem.physBytes
  rw [hpage, hdata]

section Growproc

variable {vm : Vm} {tf : Frame} {n : Int32}

/-- The pages that `uvmdealloc` leaves out give up their frames. -/
theorem Vm.resized_of_cut {vm' : Vm} (hdata : vm'.mem.page = vm.mem.page) (hkept : vm.Kept tf vm')
    (hbelow : ∀ j < pagesOf vm'.sz, vm'.pagetable.page j = vm.pagetable.page j)
    (htables : ∀ f, vm'.pagetable.tables f = vm.pagetable.tables f) :
    vm.Resized vm'.sz true vm' := by
  have hNSLOT := TOP_lt_NSLOT
  have hgone : ∀ k < TOP, pagesOf vm'.sz ≤ k → vm'.pagetable.page k = none :=
    fun k hk hle => hkept.space.gap k (by omega) hle (by omega) (by omega)
  refine ⟨fun _ => rfl,
    fun _ va hva => Vm.shows_congr hdata (hbelow _ (page_lt_pagesOf (by omega))),
    fun _ k hk hle => ⟨hgone k hk hle, fun frame perm hpage => ?_⟩, by simp⟩
  have hlt := PageTable.owns_lt htables (fun j hj => ?_) hk (hgone k hk hle) hpage
  · have hcount := hkept.count frame
    exact List.count_pos_iff.mp (by omega)
  · by_cases hj' : j < pagesOf vm'.sz
    · exact Or.inr (hbelow j hj')
    · exact Or.inl (hgone j hj (by omega))

/-- The size that `growproc` asks for. -/
def Vm.resize (vm : Vm) (n : Int32) : Nat :=
  if 0 < n then max vm.sz (addSz vm.sz n) else min vm.sz (addSz vm.sz n)

theorem addSz_eq {sz : Nat} (hlo : 0 ≤ sz + n.toInt)
    (hhi : sz + n.toInt < 2 ^ 64) : addSz sz n = (sz + n.toInt).toNat := by
  rw [addSz, Int.emod_eq_of_lt hlo hhi]

theorem TRAPFRAME_small : TRAPFRAME < 2 ^ 38 := by decide

/-- A size below zero wraps around to a larger one than there is. -/
theorem Vm.resize_eq (hsz : vm.sz ≤ TRAPFRAME) (hfits : vm.sz + n.toInt ≤ TRAPFRAME) : vm.resize n =
      if 0 ≤ vm.sz + n.toInt then (vm.sz + n.toInt).toNat else vm.sz := by
  have hsmall := TRAPFRAME_small
  have hn := n.le_toInt
  unfold Vm.resize
  by_cases hpos : 0 < n
  · have hpos' : 0 < n.toInt := Int32.lt_iff_toInt_lt.mp hpos
    rw [if_pos hpos, if_pos (by omega), addSz_eq (by omega) (by omega)]
    exact Nat.max_eq_right (by omega)
  have hneg : n.toInt ≤ 0 :=
    Int.not_lt.mp fun h => hpos (Int32.lt_iff_toInt_lt.mpr h)
  rw [if_neg hpos]
  split
  · rw [addSz_eq (by omega) (by omega)]
    exact Nat.min_eq_right (by omega)
  · refine Nat.min_eq_left ?_
    rw [addSz]
    omega

theorem ends_growproc (hspace : vm.pagetable.Space (pagesOf vm.sz) tf)
    (n : Int32) : ends (growproc n) vm (fun ok vm' => vm.Kept tf vm' ∧
      vm.Resized (vm.resize n) ok vm') (fun _ => 0 < n ∧ TRAPFRAME < addSz vm.sz n ∧
        TOP - pagesOf vm.sz < vm.mem.free.length) := by
  have hNSLOT := TOP_lt_NSLOT
  unfold growproc Vm.resize
  rw [ends_bind, ends_read, ends_ite]
  split
  next hpos =>
    rw [ends_bind, onMem, ends_within]
    refine ends_imp (ends_uvmalloc hspace (addSz vm.sz n) permW) ?_ fun _ h => ⟨hpos, h⟩
    rintro ⟨grown, sz⟩ mem hgrown
    rw [ends_bind, ends_update, ends_ite]
    dsimp only
    split
    next hzero =>
      have hsame : grown.Space (pagesOf vm.sz) tf := by
        obtain ⟨_, hsame⟩ | ⟨hsz, hlarger, _⟩ := hgrown.ends
        · exact hsame
        · rw [← hsz, hzero] at hlarger
          have hold : vm.sz = 0 := by omega
          exact hold ▸ hlarger
      have hpages : ∀ k < NSLOT, grown.page k = vm.pagetable.page k :=
        hspace.page_eq hsame hgrown.below
      refine ⟨⟨hsame, hgrown.count⟩, by simp, by simp, by simp, fun _ =>
        ⟨rfl, fun k hk => ⟨hpages k hk, Vm.shows_congr hgrown.data (hpages k hk)⟩, fun f => ?_⟩⟩
      have howns := PageTable.owns_of_page_eq (fun k (hk : k < TOP) => hpages k (hk.trans hNSLOT)) f
      have hcount := hgrown.count f
      dsimp only at hcount howns ⊢
      omega
    next hne =>
      rw [ends_bind, ends_update]
      obtain ⟨hzero, _⟩ | ⟨rfl, hlarger, _⟩ := hgrown.ends
      · exact absurd hzero hne
      refine ⟨⟨hlarger, hgrown.count⟩, fun _ => rfl, fun _ va hva =>
        Vm.shows_congr hgrown.data (hgrown.below _ (page_lt_pagesOf (by omega))), ?_, by simp⟩
      intro _ k hk hle
      have hle' := pagesOf_mono (Nat.le_max_left vm.sz (addSz vm.sz n))
      refine ⟨hlarger.gap k (by omega) hle (by omega) (by omega), fun frame perm hpage => ?_⟩
      rw [hspace.gap k (by omega) (by omega) (by omega) (by omega)] at hpage
      cases hpage
  · rw [ends_ite]
    split
    · rw [ends_bind, onMem, ends_within]
      refine ends_of_wp (wp_mono (wp_uvmdealloc hspace (addSz vm.sz n)) ?_)
      rintro pt mem ⟨hdata, hcount, hcut, hbelow, htables⟩
      rw [ends_bind, ends_update]
      have hkept : vm.Kept tf ⟨mem, min vm.sz (addSz vm.sz n), pt⟩ :=
        ⟨hcut, hcount⟩
      refine ⟨hkept, Vm.resized_of_cut hdata hkept (fun j hj => hbelow j ?_) htables⟩
      exact hj.trans_le (pagesOf_mono (Nat.min_le_right _ _))
    next hpos hneg =>
      have hzero : n.toInt = 0 := by
        rw [Int32.lt_iff_toInt_lt] at hpos hneg
        exact Int.le_antisymm (Int.not_lt.mp hpos) (Int.not_lt.mp hneg)
      have hsz := pagesOf_le_TOP.mp hspace.le
      have hsmall := TRAPFRAME_small
      rw [addSz_eq (by omega) (by omega), hzero, Int.add_zero, Int.toNat_natCast, Nat.min_self]
      exact ⟨Vm.Kept.refl hspace, Vm.resized_of_cut rfl (Vm.Kept.refl hspace)
        (fun _ _ => rfl) fun _ => rfl⟩

/-- Resizing to at most `TRAPFRAME` bytes does so exactly, or not at all. -/
theorem growproc_exact (hspace : vm.pagetable.Space (pagesOf vm.sz) tf)
    (hfits : vm.sz + n.toInt ≤ TRAPFRAME) : wp (growproc n) vm (vm.Resized
      (if 0 ≤ vm.sz + n.toInt then (vm.sz + n.toInt).toNat else vm.sz)) := by
  have hsz := pagesOf_le_TOP.mp hspace.le
  have hsmall := TRAPFRAME_small
  have hresize := vm.resize_eq hsz hfits
  rw [← hresize]
  refine wp_of_ends (ends_imp (ends_growproc hspace n) (fun _ _ h => h.2) ?_)
  rintro _ ⟨hpos, hover, _⟩
  have hpos' : 0 < n.toInt := Int32.lt_iff_toInt_lt.mp hpos
  rw [addSz_eq (by omega) (by omega)] at hover
  omega

/-- A process gives up its only page, which is there. -/
theorem growproc_exact_onePage : ∃ vm : Vm, vm.sz = PGSIZE ∧ vm.pagetable.page 0 ≠ none ∧
    wp (growproc (-4096)) vm (vm.Resized 0) := by
  obtain ⟨_, vm, _, hwf, hpop, hsz, _, _⟩ := exists_lazy_page 0
  obtain ⟨hsame, -, hthere⟩ := populates_iff.mp hpop
  have hsz : vm.sz = PGSIZE := hsame.trans hsz
  have hexact := growproc_exact (n := -4096) hwf.space (by rw [hsz]; decide)
  rw [hsz] at hexact
  exact ⟨vm, hsz, hthere 0 (by rw [← hsame, hsz]; decide), hexact⟩

end Growproc

theorem ends_sysSbrk {vm : Vm} {tf : Frame} {n t : Int32}
    (hspace : vm.pagetable.Space (pagesOf vm.sz) tf) (hlazy : LazyFits vm.sz n t) :
    ends (sysSbrk n t) vm (fun _ => vm.Kept tf) (fun _ => vm.Overgrows n t) := by
  unfold sysSbrk
  rw [ends_bind, ends_read, ends_ite]
  split
  next heager =>
    rw [ends_bind]
    refine ends_imp (ends_growproc hspace n) (fun _ _ h => h.1) ?_
    rintro _ ⟨hpos, hover⟩
    refine ⟨heager.resolve_right ?_, hpos, hover⟩
    exact fun hneg => absurd hpos (by
      rw [Int32.lt_iff_toInt_lt] at hneg ⊢
      omega)
  next hnot =>
    obtain ⟨hne, hneg⟩ := not_or.mp hnot
    rw [ends_ite]
    split
    · exact ⟨hspace, Conserves.rfl⟩
    rename_i hle
    rw [ends_bind, ends_update]
    refine ⟨hspace.extend (pagesOf_mono (Nat.not_lt.mp hle)) (pagesOf_le_TOP.mpr ?_), Conserves.rfl⟩
    refine hlazy hne ?_
    rw [Int32.le_iff_toInt_le]
    rw [Int32.lt_iff_toInt_lt] at hneg
    omega

/-! ### On behalf of a process -/

section Process

variable {total : Pool} {extra : Frame → Int} {p : Slot}
  {kernel : Kernel}

/-- Memory and process `p` change together. -/
theorem Kernel.Spaces.withVm {vm vm' : Vm} {tf : Frame} (hspaces : kernel.Spaces total extra none)
    (hmem : vm.mem = kernel.mem) (hpagetable : (kernel.proc p).pagetable = some vm.pagetable)
    (htrapframe : (kernel.proc p).trapframe = some tf) (hkept : vm.Kept tf vm') :
    Kernel.Spaces total extra none { kernel with
      mem := vm'.mem
      proc := Function.update kernel.proc p { kernel.proc p with
        sz := vm'.sz, pagetable := some vm'.pagetable } } := by
  have hsound : ProcSpace.Sound ⟨(kernel.proc p).state, vm'.sz,
      some vm'.pagetable, (kernel.proc p).trapframe⟩ := by
    refine ⟨?_, by simp, fun hunused => ?_⟩
    · rintro _ ⟨⟩
      exact ⟨tf, htrapframe, hkept.space⟩
    have hempty := (hspaces.sound p (by simp)).unused hunused
    have hnone : (kernel.proc p).pagetable = none :=
      congrArg ProcSpace.pagetable hempty
    rw [hpagetable] at hnone
    cases hnone
  have hstart := Kernel.Working.start hspaces p
  have hmoved : kernel.Working total
      (fun f => extra f + vm'.pagetable.owns f - vm.pagetable.owns f) p
      (kernel.proc p).space { kernel with mem := vm'.mem } :=
    ⟨hstart.spaces.withMem (hmem ▸ hkept.count.moves extra), hstart.others, hstart.self⟩
  have hset := @Kernel.Working.set total _ p _ kernel _
    (fun proc => { proc with sz := vm'.sz, pagetable := some vm'.pagetable })
    Sane hmoved extra (fun space => { space with
      sz := vm'.sz, pagetable := some vm'.pagetable }) (fun _ => ⟨rfl, rfl⟩) fun f => by
        simp only [ProcSpace.uses, Proc.space, hpagetable, ownedBy_some]
        push_cast
        ring
  exact Kernel.Working.finish hset hsound

/-- Code has worked on the address space of `p`. -/
structure Kernel.SpacesWith (total : Pool) (extra : Frame → Int)
    (p : Slot) (kernel kernel' : Kernel) : Prop where
  spaces : kernel'.Spaces total extra none
  state : (kernel'.proc p).state = (kernel.proc p).state
  trapframe : (kernel'.proc p).trapframe = (kernel.proc p).trapframe

theorem ends_inVm {A : Type} {code : Code Vm A} {stops : Stop → Prop}
    (hspaces : kernel.Spaces total extra none) (hnull : stops (.panic "null pagetable"))
    (hcode : ∀ vm tf, vm.mem = kernel.mem → vm.sz = (kernel.proc p).sz →
      vm.pagetable.Space (pagesOf vm.sz) tf →
      ends code vm (fun _ => vm.Kept tf) stops) : ends (inVm p code) kernel
      (fun _ => kernel.SpacesWith total extra p) stops := by
  unfold inVm
  rw [ends_bind, ends_read]
  cases hpt : (kernel.proc p).pagetable with
  | none => exact hnull
  | some pt =>
    obtain ⟨tf, htf, hspace⟩ := (hspaces.sound p (by simp)).shaped pt hpt
    dsimp only
    rw [ends_within]
    refine ends_mono (hcode ⟨kernel.mem, (kernel.proc p).sz, pt⟩ tf rfl rfl
      hspace) fun _ vm' hkept => ⟨hspaces.withVm rfl hpt htf hkept, ?_, ?_⟩
    · dsimp only
      rw [Function.update_self]
    · dsimp only
      rw [Function.update_self]

theorem ends_inVm_orderly {A : Type} {code : Code Vm A}
    (hcode : ∀ vm tf, Keeps Sane (Vm.Kept tf vm) code) (hspaces : kernel.Spaces total extra none) :
    ends (inVm p code) kernel (fun _ => kernel.SpacesWith total extra p) Sane :=
  ends_inVm hspaces (sane_panic (by decide)) fun vm tf _ _ hspace =>
    hcode vm tf vm (.refl hspace)

theorem keeps_inVm {A : Type} {code : Code Vm A}
    (hcode : ∀ vm tf, Keeps Sane (Vm.Kept tf vm) code) :
    Keeps Sane (Kernel.Spaces total extra none) (inVm p code) :=
  fun _ hspaces => ends_mono (ends_inVm_orderly hcode hspaces) fun _ _ hwith => hwith.spaces

/-! ### Page faults, wait and pipe -/

theorem ends_usertrapFault (hspaces : kernel.Spaces total extra none)
    (hlive : (kernel.proc p).state ≠ .UNUSED) (va : Nat) : ends (usertrapFault p va) kernel
      (fun _ => Kernel.Spaces total extra none) Sane := by
  unfold usertrapFault
  refine ends_seq (ends_inVm_orderly (fun _ _ => orderly_vmfault va) hspaces)
    fun pa kernel₁ hkept => ?_
  rw [when, ends_ite]
  split
  · have hset : Keeps Sane (kernel₁.AtRest total extra) (setProc p (fun proc =>
        { proc with killed := true })) := keeps_setProc p fun _ => ⟨rfl, rfl⟩
    refine ends_seq (hset kernel₁ (.refl hkept.spaces)) fun _ kernel₂ hrest => ?_
    have hstate : (kernel₂.proc p).state = (kernel₁.proc p).state :=
      congrArg ProcSpace.state (hrest.same p)
    refine ends_kexit hrest.spaces ?_ (-1)
    rw [hstate, hkept.state]
    exact hlive
  · exact hkept.spaces

theorem keeps_kwaitReap (pp : Slot) (addr : Nat) :
    Keeps Sane (Kernel.Spaces total extra none) (kwaitReap p pp addr) := by
  have hend (pid : Nat) (ok : Bool) :
      Keeps Sane (Kernel.Spaces total extra none) (if ok = true then do
          freeproc pp
          release (.proc pp)
          release .wait
          pure (some pid)
        else do
          release (.proc pp)
          release .wait
          pure none) :=
    leads_ite (fun _ hspaces => (Kernel.Working.start hspaces pp).free_release
        (hspaces.sound pp (by simp)).shaped
        (leads_bind (keeps_release _) fun _ => leads_pure _))
      (leads_bind (keeps_release _) fun _ =>
        leads_bind (keeps_release _) fun _ => leads_pure none)
  refine leads_read_bind fun kernel => ?_
  dsimp only
  split
  · exact leads_bind (keeps_inVm fun _ _ => orderly_copyoutFrom _ _ _ _) (hend _)
  · exact leads_bind (leads_pure true) (hend _)

theorem keeps_kwaitFrom (addr : Nat) (slots : List Slot) (havekids : Bool) :
    Keeps Sane (Kernel.Spaces total extra none) (kwaitFrom p addr slots havekids) := by
  induction slots generalizing havekids with
  | nil =>
    exact leads_read_bind fun _ => leads_ite (leads_bind (keeps_release _)
      fun _ => leads_pure none) (leads_stop sane_sleep)
  | cons pp rest ih =>
    exact leads_read_bind fun _ => leads_ite (leads_bind (keeps_acquire _)
      fun _ => leads_ite (keeps_kwaitReap pp addr)
        (leads_bind (keeps_release _) fun _ => ih true)) (ih havekids)

theorem respects_inVm {A : Type} (p : Slot) (code : Code Vm A) :
    Respects Kernel.SameRefs (inVm p code) := by
  unfold inVm
  refine respects_read_bind fun kernel => ?_
  cases (kernel.proc p).pagetable with
  | none => exact respects_panic _
  | some pt =>
    intro kernel₁
    rw [wlp_within]
    exact fun _ vm _ => .set rfl rfl rfl rfl rfl

/-- The descriptors `fds` and both files of a new pipe are given up. -/
theorem ends_pipeUndo {kernel₁ : Kernel} {gain : FileRef → Int} {fds : List (Fin NOFILE)}
    {rf wf : FileRef} (hspaces : kernel.Spaces total extra none)
    (hmoves : kernel.Moves gain kernel₁) (hfds : fds.Nodup)
    (hgain : ∀ f, pipeGain (some (rf, wf)) f ≤
      gain f + (fds.map fun fd => fdIs ((kernel₁.proc p).ofile fd) f).sum) :
    ends (pipeUndo p fds rf wf) kernel₁ (fun _ => Kernel.Spaces total extra none) Sane := by
  have hloop : ends (forEach (fun fd => setOfile p fd none) fds) kernel₁ (fun _ kernel' =>
      ∃ gain, kernel.Moves gain kernel' ∧ ∀ f, pipeGain (some (rf, wf)) f ≤ gain f) Sane := by
    induction fds generalizing kernel₁ gain with
    | nil => exact ⟨gain, hmoves, fun f => by simpa using hgain f⟩
    | cons fd rest ih =>
      obtain ⟨hnot, hrest⟩ := List.nodup_cons.mp hfds
      rw [forEach, ends_bind, ends_setOfile]
      refine ih (hmoves.trans (kernel₁.moves_withOfile p fd none)) hrest fun f => ?_
      have hsame : (rest.map fun j => fdIs (((kernel₁.withOfile p fd none).proc p).ofile j) f) =
          rest.map fun j => fdIs ((kernel₁.proc p).ofile j) f := by
        refine List.map_congr_left fun j hj => ?_
        rw [withOfile_ofile, Function.update_of_ne (ne_of_mem_of_not_mem hj hnot)]
      have hle := hgain f
      rw [List.map_cons, List.sum_cons] at hle
      rw [hsame, fdIs_none]
      omega
  refine ends_seq hloop ?_
  rintro _ kernel₂ ⟨left, hmoves₂, hleft⟩
  refine @ends_closeBoth _ _ _ (rf, wf) hmoves₂ _ _ _ fun kernel' _ hdone =>
    SpaceInv.moves hspaces hdone fun f => ?_
  have := hleft f
  omega

theorem keeps_sysPipe (hsole : total.Sole extra) (fdarray : Nat) :
    Keeps Sane (Kernel.Spaces total extra none) (sysPipe p fdarray) := by
  intro kernel hspaces
  refine ends_seq (ends_pipealloc fun _ => hspaces.pipe_of_free hsole) ?_
  rintro (_ | ⟨rf, wf⟩) kernel₁ ⟨hproc, hmoves⟩
  · exact SpaceInv.moves hspaces hmoves fun _ => Int.le_refl 0
  refine ends_seq (Quiet.ends (quiet_fdalloc p rf) (wlp_fdalloc p rf)) ?_
  rintro (_ | fd0) kernel₂ hfd0
  · subst hfd0
    exact ends_pipeUndo hspaces hmoves List.nodup_nil fun f => by simp
  obtain ⟨_, rfl⟩ := hfd0
  have hmoves₂ := hmoves.trans (kernel₁.moves_withOfile p fd0 (some rf))
  have hself0 : ((kernel₁.withOfile p fd0 (some rf)).proc p).ofile fd0 = some rf := by
    rw [withOfile_ofile, Function.update_self]
  refine ends_seq (Quiet.ends (quiet_fdalloc p wf) (wlp_fdalloc p wf)) ?_
  rintro (_ | fd1) kernel₃ hfd1
  · subst hfd1
    refine ends_pipeUndo hspaces hmoves₂ (List.nodup_singleton fd0) fun f => ?_
    rw [List.map_singleton, List.sum_singleton, hself0]
    omega
  obtain ⟨hfree1, rfl⟩ := hfd1
  have hne : fd0 ≠ fd1 := by
    rintro rfl
    rw [hself0] at hfree1
    cases hfree1
  have hspaces₃ := SpaceInv.moves hspaces (hmoves₂.trans
    (Kernel.moves_withOfile _ p fd1 (some wf))) fun f => by
      dsimp only [pipeGain, Option.elim]
      omega
  have hself1 : (((kernel₁.withOfile p fd0 (some rf)).withOfile p fd1 (some wf)).proc p).ofile =
      Function.update ((kernel₁.withOfile p fd0 (some rf)).proc p).ofile fd1 (some wf) :=
    withOfile_ofile _
  generalize (kernel₁.withOfile p fd0 (some rf)).withOfile p fd1 (some wf) = kernel₃
    at hspaces₃ hself1 ⊢
  -- the descriptors are still there after the copies
  have hend : ∀ (ok : Bool) kernel₄, kernel₃.SameRefs kernel₄ → kernel₄.Spaces total extra none →
      ends (if ok = true then pure true else pipeUndo p [fd0, fd1] rf wf) kernel₄
        (fun _ => Kernel.Spaces total extra none) Sane := by
    intro ok kernel₄ hsame hspaces₄
    rw [ends_ite]
    split
    · exact hspaces₄
    refine ends_pipeUndo hspaces₄ (.same rfl rfl rfl fun _ => ⟨rfl, rfl⟩) (by simp [hne])
      fun f => ?_
    rw [hsame.ofile p, hself1]
    simp only [List.map_cons, List.map_nil, List.sum_cons, List.sum_nil, Function.update_self,
      Function.update_of_ne hne, hself0, pipeGain, Option.elim, Pi.zero_apply]
    omega
  refine ends_seq (ends_and (keeps_inVm (fun _ _ => orderly_copyoutFrom _ _ _ _) _ hspaces₃)
    (respects_inVm p _ _)) ?_
  rintro ok kernel₄ ⟨hsame₄, hspaces₄⟩
  split
  · refine ends_seq (ends_and (keeps_inVm (fun _ _ => orderly_copyoutFrom _ _ _ _) _ hspaces₄)
      (respects_inVm p _ _)) ?_
    rintro ok kernel₅ ⟨hsame₅, hspaces₅⟩
    exact hend ok kernel₅ (trans_of Kernel.SameRefs hsame₄ hsame₅) hspaces₅
  · exact hend false kernel₄ hsame₄ hspaces₄

end Process

/-! ### Exec -/

/-- An image under construction: every page below its size is there, and the
user may access it. -/
structure Image.Full (image : Image) (tf : Frame) : Prop where
  space : image.pagetable.Space (pagesOf image.sz) tf
  full : ∀ k < pagesOf image.sz, ∃ frame perm,
    image.pagetable.page k = some ⟨.frame frame, perm⟩ ∧ perm.u = true

variable {pt : PageTable} {k : Nat}

theorem walkaddr_page (hk : k < NPAGE) {pte : Pte} (hpage : pt.page k = some pte)
    (hu : pte.perm.u = true) : walkaddr pt (k * PGSIZE) = some pte.pa := by
  rw [walkaddr, if_neg (Nat.not_le.mpr (page_lt_MAXVA hk))]
  rw [show pt.leaf (k * PGSIZE) = some pte from hpage]
  exact if_pos hu

/-- No more pages than frames. -/
theorem Image.Full.pages_le {image : Image} {tf : Frame} (hfull : image.Full tf)
    (honce : ∀ f, image.pagetable.owns f ≤ 1) : pagesOf image.sz ≤ NFRAME := by
  have hwf : Vm.Wf ⟨⟨[], fun _ _ => 0⟩, image.sz, image.pagetable⟩ tf :=
    ⟨hfull.space, fun f => by simpa using honce f⟩
  have hle := hfull.space.le
  choose frame perm hpage _ using fun k : Fin (pagesOf image.sz) =>
    hfull.full k.val k.isLt
  have hinj : Function.Injective frame := by
    intro j k heq
    have hpage' := hpage j
    rw [heq] at hpage'
    exact Fin.ext (hwf.page_unique (by omega) (by omega) (hpage k) hpage')
  have hcard := Fintype.card_le_of_injective frame hinj
  rwa [Fintype.card_fin, Fintype.card_fin] at hcard

/-- Store bytes on one page of a given page table. -/
theorem copyout_page {vm : Vm} {frame : Frame} {perm : Perm} (hk : k < NPAGE)
    (hpage : pt.page k = some ⟨.frame frame, perm⟩) (hu : perm.u = true) (hw : perm.w = true)
    {dstva len : Nat} (hlo : k * PGSIZE ≤ dstva) (hhi : dstva + len ≤ (k + 1) * PGSIZE)
    (src : Bytes) : wp (copyout (some pt) dstva src len) vm (fun ok vm' => ok = true ∧
      vm'.sz = vm.sz ∧ vm'.pagetable = vm.pagetable ∧ vm'.mem.free = vm.mem.free ∧
      vm'.mem.page = Function.update vm.mem.page frame
        (blit (vm.mem.page frame) (dstva % PGSIZE) len src)) := by
  cases len with
  | zero =>
    refine (wp_pure true).mpr ⟨rfl, rfl, rfl, rfl, ?_⟩
    have hsame : blit (vm.mem.page frame) (dstva % PGSIZE) 0 src =
        vm.mem.page frame := funext fun addr => blit_outside _ _ (by omega)
    rw [hsame, Function.update_eq_self]
  | succ len =>
    have hdown : PGROUNDDOWN dstva = k * PGSIZE := by
      simp only [PGROUNDDOWN, PGSIZE] at hlo hhi ⊢
      omega
    have hcount : min (PGSIZE - dstva % PGSIZE) (len + 1) = len + 1 := by
      simp only [PGSIZE] at hlo hhi ⊢
      omega
    have hrest : ∀ fuel va (src : Bytes) (vm : Vm),
        copyoutFrom (some pt) fuel va src 0 vm = .ok (true, vm) := by
      intro fuel va src vm
      cases fuel with
      | zero => rfl
      | succ fuel => rfl
    have hleaf : walk pt (k * PGSIZE) = pure (some ⟨.frame frame, perm⟩) := by
      rw [walk_page pt hk, hpage]
    unfold copyout copyoutFrom
    rw [if_neg (Nat.succ_ne_zero len), hdown,
      if_neg (Nat.not_le.mpr (page_lt_MAXVA hk)), wp_bind, userPage, wp_bind,
      wp_read, Vm.table, Option.getD_some, walkaddr_page hk hpage hu]
    dsimp only
    rw [wp_pure]
    dsimp only
    rw [wp_bind, wp_read, wp_bind, Vm.table, Option.getD_some, hleaf, wp_onMem, wp_pure]
    rw [if_pos (by simpa using hw), hcount, wp_bind, wp_onMem, setPhys, wp_bind,
      wp_read, setPage, wp_update, Nat.sub_self]
    exact ⟨true, _, hrest _ _ _ _, rfl, rfl, rfl, rfl, rfl⟩

section Exec

variable {total : Pool} {extra : Frame → Int} {p : Slot} {tf : Frame}
  {kernel : Kernel}

/-- The image belongs to nobody yet. -/
structure Kernel.Loading (total : Pool) (extra : Frame → Int)
    (p : Slot) (tf : Frame) (pt : PageTable) (kernel : Kernel) : Prop where
  spaces : kernel.Spaces total (fun f => extra f + pt.owns f) none
  trapframe : (kernel.proc p).trapframe = some tf

variable {pt pt' : PageTable} {Inv : Kernel → Prop} [SpaceInv Inv]

instance : SpaceInv (Kernel.Loading total extra p tf pt) where
  counted := total.counted
  congr hload hmoves hgain := ⟨hload.spaces.congr hmoves hgain,
    (congrArg ProcSpace.trapframe (hmoves.spaces p)).trans hload.trapframe⟩

/-- The image has changed, with frames from the free list. -/
theorem Kernel.Loading.move {mem : Mem} (hload : kernel.Loading total extra p tf pt)
    (hcount : Conserves kernel.mem mem pt.owns pt'.owns) :
    Kernel.Loading total extra p tf pt' { kernel with mem := mem } := by
  refine ⟨hload.spaces.withMem fun f => ?_, hload.trapframe⟩
  rw [← hcount.moves (fun f => extra f + pt.owns f) f]
  ring

/-- The image is given up. -/
theorem Kernel.Loading.free {sz : Nat} (hload : kernel.Loading total extra p tf pt)
    (hspace : pt.Space (pagesOf sz) tf) : ends (inMem (procFreepagetable pt sz)) kernel
      (fun _ => Kernel.Spaces total extra none) Sane := by
  rw [inMem, ends_within]
  refine ends_of_wp (wp_mono (wp_procFreepagetable hspace kernel.mem) ?_)
  rintro _ mem ⟨_, hcount⟩
  refine hload.spaces.withMem fun f => ?_
  rw [← hcount.moves (fun f => extra f + pt.owns f) f]
  push_cast
  ring

theorem keeps_fillPhys (pa : Phys) (bytes : Bytes) :
    Keeps Sane Inv (inMem (fillPhys pa bytes)) := by
  cases pa with
  | frame frame => exact keeps_setPage frame bytes
  | trampoline => exact fun _ hinv => hinv

theorem keeps_loadsegFrom {image : Image} (hfull : image.Full tf)
    (ip : InodeRef) (k offset sz left i : Nat) (hend : k + i + left ≤ pagesOf image.sz) :
    Keeps Sane Inv (loadsegFrom image.pagetable (k * PGSIZE) ip offset sz left (i * PGSIZE)) := by
  induction left generalizing i with
  | zero => exact leads_pure _
  | succ left ih =>
    obtain ⟨frame, perm, hpage, hu⟩ := hfull.full (k + i) (by omega)
    have hk := hfull.space.lt_NPAGE (k := k + i) (by omega)
    have hwalk := walkaddr_page hk hpage hu
    unfold loadsegFrom
    rw [← Nat.add_mul, hwalk]
    dsimp only
    refine leads_read_bind fun _ =>
      leads_bind (keeps_inFs (quiet_readi _ _ _)) fun _ =>
      leads_bind (keeps_fillPhys _ _) fun _ => leads_ite (leads_pure _) ?_
    have hnext := ih (i + 1) (by omega)
    rw [Nat.add_mul i 1, Nat.one_mul] at hnext
    exact hnext

/-- What `execSegment` and the loop over segments return. -/
structure Kernel.Segment (total : Pool) (extra : Frame → Int)
    (p : Slot) (tf : Frame) (result : Bool × Image) (kernel : Kernel) : Prop where
  load : kernel.Loading total extra p tf result.2.pagetable
  space : result.2.pagetable.Space (pagesOf result.2.sz) tf
  full : result.1 = true → result.2.Full tf

variable (hsole : total.Sole extra)

include hsole

variable {image : Image}

/-- There are more pages below the trapframe than an image can have and there
are frames left. -/
theorem Kernel.Loading.room (hload : kernel.Loading total extra p tf image.pagetable)
    (hfull : image.Full tf) : ¬ TOP - pagesOf image.sz < kernel.mem.free.length := by
  have honce : ∀ f, image.pagetable.owns f ≤ 1 := by
    intro f
    have hframes := hload.spaces.frames f
    have htotal := hsole.le_one f
    have hextra := hsole.nonneg f
    generalize image.pagetable.owns f = owns at hframes ⊢
    generalize kernel.uses f = uses at hframes
    omega
  have hpages := hfull.pages_le honce
  have hfree := hload.spaces.free_le ⟨hsole.le_one, fun f => by
    have hextra := hsole.nonneg f
    generalize image.pagetable.owns f = owns
    omega⟩
  have hlt : 2 * NFRAME < TOP := by decide
  omega

variable {result : PageTable × Nat}

omit hsole in
/-- A larger image. -/
theorem Image.Full.grow (hfull : image.Full tf) {newsz : Nat}
    {xperm : Perm} {mem mem' : Mem}
    (hgrown : Grown xperm image.sz newsz image.pagetable tf mem result mem') (hok : result.2 ≠ 0) :
    result.2 = max image.sz newsz ∧ Image.Full ⟨result.1, result.2⟩ tf := by
  obtain ⟨hzero, _⟩ | ⟨hsz, hspace, hfresh⟩ := hgrown.ends
  · exact absurd hzero hok
  refine ⟨hsz, hsz ▸ hspace, fun k hk => ?_⟩
  by_cases hlow : k < pagesOf image.sz
  · rw [hgrown.below k hlow]
    exact hfull.full k hlow
  have hlt : k < pagesOf newsz := by
    dsimp only at hk
    rw [hsz] at hk
    rcases Nat.le_total image.sz newsz with hle | hle
    · rwa [Nat.max_eq_right hle] at hk
    · rw [Nat.max_eq_left hle] at hk
      exact absurd hk hlow
  obtain ⟨frame, _, hpage⟩ := hfresh k (Nat.not_lt.mp hlow) hlt
  exact ⟨frame, _, hpage, rfl⟩

omit hsole in
/-- An image that could not be made larger. -/
theorem Grown.failed {xperm : Perm} {oldsz newsz : Nat} {pt : PageTable} {mem mem' : Mem}
    (hgrown : Grown xperm oldsz newsz pt tf mem result mem')
    (hzero : result.2 = 0) : result.1.Space (pagesOf oldsz) tf := by
  obtain ⟨_, hspace⟩ | ⟨hsz, hspace, _⟩ := hgrown.ends
  · exact hspace
  · have hold : oldsz = max oldsz newsz := by omega
    rwa [← hold] at hspace

theorem ends_execSegment (ip : InodeRef) (ph : Proghdr)
    (hload : kernel.Loading total extra p tf image.pagetable) (hfull : image.Full tf) :
    ends (execSegment ip ph image) kernel (Kernel.Segment total extra p tf) Sane := by
  have hroom := hload.room hsole hfull
  have hpure : ∀ ok, ends (pure (ok, image)) kernel (Kernel.Segment total extra p tf) Sane :=
    fun _ => ⟨hload, hfull.space, fun _ => hfull⟩
  unfold execSegment
  rw [ends_ite]
  split
  · exact hpure true
  rw [ends_ite]
  split
  · exact hpure false
  rw [ends_ite]
  split
  · exact hpure false
  rw [ends_ite]
  split
  · exact hpure false
  rename_i hsizes hbound haligned
  rw [ends_bind, inMem, ends_within]
  refine ends_imp (ends_uvmalloc hfull.space (ph.vaddr + ph.memsz)
    (flags2perm ph.flags)) ?_ fun _ h => (hroom h.2).elim
  rintro ⟨grown, sz⟩ mem hgrown
  have hload₁ := hload.move hgrown.count
  rw [ends_ite]
  split
  next hzero =>
    exact ⟨hload₁, hgrown.failed hzero, by simp⟩
  rename_i hok
  obtain ⟨hsz, hfull₁⟩ := hfull.grow hgrown hok
  obtain ⟨k, hk⟩ : ∃ k, ph.vaddr = k * PGSIZE :=
    ⟨ph.vaddr / PGSIZE, (Nat.div_mul_cancel (Nat.dvd_of_mod_eq_zero (not_not.mp haligned))).symm⟩
  have hend : k + 0 + pagesOf (ph.filesz % 2 ^ 32) ≤ pagesOf sz := by
    have hmod := Nat.mod_le ph.filesz (2 ^ 32)
    have hle : k * PGSIZE + ph.filesz % 2 ^ 32 ≤ sz := by
      dsimp only at hsz
      omega
    have hmono := pagesOf_mono hle
    generalize ph.filesz % 2 ^ 32 = count at hmono ⊢
    simp only [pagesOf, PGSIZE] at hmono ⊢
    omega
  rw [ends_bind, hk]
  have hseg := @keeps_loadsegFrom tf (Kernel.Loading total extra p tf grown) _
    ⟨grown, sz⟩ hfull₁ ip k (ph.off % 2 ^ 32) (ph.filesz % 2 ^ 32) _ 0 hend
  rw [Nat.zero_mul] at hseg
  exact ends_mono (hseg _ hload₁) fun ok kernel₂ hload₂ =>
    ⟨hload₂, hfull₁.space, fun _ => hfull₁⟩

theorem ends_execSegments (ip : InodeRef) (left off : Nat)
    (hload : kernel.Loading total extra p tf image.pagetable)
    (hfull : image.Full tf) : ends (execSegments ip left off image) kernel
      (Kernel.Segment total extra p tf) Sane := by
  induction left generalizing kernel image off with
  | zero => exact ⟨hload, hfull.space, fun _ => hfull⟩
  | succ left ih =>
    unfold execSegments
    refine ends_seq (keeps_inFs (quiet_readi _ _ _) _ hload) fun bytes kernel₁ hload₁ => ?_
    rw [ends_ite]
    split
    · exact ⟨hload₁, hfull.space, by simp⟩
    refine ends_seq (ends_execSegment hsole ip _ hload₁ hfull) fun loaded kernel₂ hseg => ?_
    rw [ends_ite]
    split
    next hok =>
      exact ih _ hseg.load (hseg.full hok)
    · exact ⟨hseg.load, hseg.space, by simp⟩

end Exec

section Stack

variable {total : Pool} {extra : Frame → Int} {p : Slot} {tf : Frame}
  {kernel : Kernel}

/-- The image has a stack of one page, `k`, and other pages below. -/
structure Image.Stacked (image : Image) (tf : Frame) (k : Nat) : Prop where
  pos : 0 < k
  space : image.pagetable.Space (pagesOf image.sz) tf
  sz : image.sz = (k + 1) * PGSIZE
  page : ∃ frame perm, image.pagetable.page k = some ⟨.frame frame, perm⟩ ∧
    perm.u = true ∧ perm.w = true

variable {image : Image}

/-- Store bytes on the new stack. -/
theorem ends_pushBytes {k : Nat} (hload : kernel.Loading total extra p tf image.pagetable)
    (hstack : image.Stacked tf k) {sp len : Nat} (hlo : k * PGSIZE ≤ sp) (hhi : sp + len ≤ image.sz)
    (src : Bytes) : ends (inVm p (copyout (some image.pagetable) sp src len)) kernel
      (fun _ => Kernel.Loading total extra p tf image.pagetable) Sane := by
  obtain ⟨frame, perm, hpage, hu, hw⟩ := hstack.page
  have hpages : pagesOf image.sz = k + 1 := by
    rw [hstack.sz, pagesOf_page]
  have hk : k < NPAGE := hstack.space.lt_NPAGE (by omega)
  rw [hstack.sz] at hhi
  refine ends_mono (ends_inVm hload.spaces (sane_panic (by decide)) ?_)
    fun _ kernel' hwith => ⟨hwith.spaces, hwith.trapframe.trans hload.trapframe⟩
  intro vm tf' _ _ hspace
  refine ends_of_wp (wp_mono (copyout_page hk hpage hu hw hlo hhi src) ?_)
  rintro _ vm' ⟨_, hsz, hpt, hfree, _⟩
  refine ⟨?_, fun f => ?_⟩
  · rwa [hsz, hpt]
  · rw [hfree, hpt]

theorem ends_pushArgs {k : Nat} (hload : kernel.Loading total extra p tf image.pagetable)
    (hstack : image.Stacked tf k) (argv : List Frame) {sp : Nat} (hsp : sp ≤ image.sz)
    (ustack : List Nat) : ends (pushArgs p image.pagetable (k * PGSIZE) argv sp ustack) kernel
      (fun result kernel' => kernel'.Loading total extra p tf image.pagetable ∧
        ∀ pushed, result = some pushed → pushed.1 ≤ image.sz) Sane := by
  induction argv generalizing kernel sp ustack with
  | nil =>
    refine ⟨hload, ?_⟩
    rintro _ ⟨⟩
    exact hsp
  | cons arg rest ih =>
    unfold pushArgs
    rw [ends_ite]
    split
    · exact ⟨hload, by simp⟩
    rw [ends_bind, ends_read]
    dsimp only
    rw [ends_ite]
    split
    · exact ⟨hload, by simp⟩
    rename_i hlo
    have hpos : 0 < k * PGSIZE := Nat.mul_pos hstack.pos (by decide)
    generalize strlen (kernel.mem.page arg) PGSIZE + 1 = len at hlo ⊢
    refine ends_seq (ends_pushBytes hload hstack (Nat.not_lt.mp hlo)
      (by omega) _) fun ok kernel₁ hload₁ => ?_
    rw [ends_ite]
    split
    · exact ih hload₁ (by omega) _
    · exact ⟨hload₁, by simp⟩

theorem ends_execStack {image : Image} {k : Nat}
    (hload : kernel.Loading total extra p tf image.pagetable)
    (hstack : image.Stacked tf k) (argv : List Frame) : ends (execStack p image argv) kernel
      (fun _ => Kernel.Loading total extra p tf image.pagetable) Sane := by
  have hbase : image.sz - USERSTACK * PGSIZE = k * PGSIZE := by
    rw [hstack.sz, USERSTACK, Nat.one_mul, Nat.add_mul, Nat.one_mul, Nat.add_sub_cancel]
  have hpos : 0 < k * PGSIZE := Nat.mul_pos hstack.pos (by decide)
  unfold execStack
  dsimp only
  rw [hbase]
  refine ends_seq (ends_pushArgs hload hstack argv (Nat.le_refl _) [])
    fun pushed kernel₁ hpushed => ?_
  cases pushed with
  | none => exact hpushed.1
  | some pushed =>
    obtain ⟨sp, ustack⟩ := pushed
    have hsp := hpushed.2 _ rfl
    dsimp only at hsp ⊢
    rw [ends_ite]
    split
    · exact hpushed.1
    next hlo =>
      exact ends_seq (ends_pushBytes hpushed.1 hstack (Nat.not_lt.mp hlo)
        (by omega) _) fun _ _ hload₂ => hload₂

/-! ### The end of exec -/

theorem keeps_setReg {Inv : Kernel → Prop} [SpaceInv Inv] (p : Slot)
    (off value : Nat) : Keeps Sane Inv (setReg p off value) := by
  refine leads_read_bind fun kernel => ?_
  split
  · exact keeps_panic (by decide)
  · exact keeps_setPage _ _

/-- The image is the address space from now on, and the old one is freed. -/
theorem ends_execCommit (path : Name) (entry argc sp : Nat)
    (hload : kernel.Loading total extra p tf image.pagetable)
    (hspace : image.pagetable.Space (pagesOf image.sz) tf) :
    ends (execCommit p path image entry argc sp) kernel
      (fun _ => Kernel.Spaces total extra none) Sane := by
  unfold execCommit
  refine ends_seq (keeps_setReg p 120 sp _ hload) fun _ kernel₁ hload₁ => ?_
  have hsound := hload₁.spaces.sound p (by simp)
  have hstart := Kernel.Working.start hload₁.spaces p
  have hlive : (kernel₁.proc p).state ≠ .UNUSED := by
    intro hunused
    have hnone : (kernel₁.proc p).trapframe = none :=
      congrArg ProcSpace.trapframe (hsound.unused hunused)
    rw [hload₁.trapframe] at hnone
    cases hnone
  obtain ⟨old, hold⟩ := Option.ne_none_iff_exists'.mp (hsound.live hlive)
  obtain ⟨otf, _, holdspace⟩ := hsound.shaped old hold
  rw [ends_bind, ends_read]
  refine ends_seq (hstart.set (fun f => extra f + old.owns f) (fun space =>
    { space with pagetable := some image.pagetable, sz := image.sz })
    (fun _ => ⟨rfl, rfl⟩) fun f => ?_) fun _ kernel₂ hwork₂ => ?_
  · simp only [ProcSpace.uses, ownedBy_some, hold]
    push_cast
    ring
  refine ends_seq (keeps_setReg p 24 entry _ hwork₂) fun _ kernel₃ hwork₃ => ?_
  refine ends_seq (keeps_setReg p 48 sp _ hwork₃) fun _ kernel₄ hwork₄ => ?_
  rw [show (kernel₁.proc p).pagetable = some old from hold]
  dsimp only
  refine ends_seq (hwork₄.free_space holdspace) fun _ kernel₅ hwork₅ => ?_
  have hextra : (fun f => extra f + (old.owns f : Int) - old.owns f) = extra :=
    funext fun f => by ring
  rw [hextra] at hwork₅
  refine hwork₅.finish ⟨?_, by simp, fun h => (hlive h).elim⟩
  rintro _ ⟨⟩
  exact ⟨tf, hload₁.trapframe, hspace⟩

end Stack

/-- Clear `PTE_U` of a page that is there. -/
theorem wp_uvmclear {pte : Pte} (hk : k < NPAGE) (hpage : pt.page k = some pte) (mem : Mem) :
    wp (uvmclear pt (k * PGSIZE)) mem (fun pt' mem' => mem' = mem ∧
      (∀ f, pt'.tables f = pt.tables f) ∧ ∀ j < NSLOT, pt'.page j =
        if j = k then some { pte with perm := { pte.perm with u := false } }
        else pt.page j) := by
  have hleaf : pt.leaf (k * PGSIZE) = some pte := hpage
  unfold PageTable.leaf at hleaf
  unfold uvmclear
  rw [if_neg (Nat.not_le.mpr (page_lt_MAXVA hk))]
  cases hmid : pt.entry (PX 2 (k * PGSIZE)) with
  | none =>
    rw [hmid] at hleaf
    cases hleaf
  | some mid =>
    rw [hmid, Option.bind_some] at hleaf
    rw [Option.bind_some]
    cases hlow : mid.entry (PX 1 (k * PGSIZE)) with
    | none =>
      rw [hlow] at hleaf
      cases hleaf
    | some low =>
      rw [hlow, Option.bind_some] at hleaf
      dsimp only
      rw [hleaf, Option.map_some, wp_pure]
      exact ⟨rfl, fun f => pt.tables_assign _ _ f, fun j hj =>
        PageTable.page_assign hpage _ (hk.trans_le NPAGE_le) hj⟩

section Exec

variable {total : Pool} {extra : Frame → Int} {p : Slot} {tf : Frame}
  {kernel : Kernel} (hsole : total.Sole extra)

omit hsole in
/-- The page below the stack is taken from the user. -/
theorem wp_stackGuard {pt : PageTable} {n : Nat} {mem mem' : Mem}
    (hgrown : Grown permW (n * PGSIZE) ((n + 2) * PGSIZE) pt tf mem result mem')
    (hok : result.2 ≠ 0) : result.2 = (n + 2) * PGSIZE ∧
    wp (uvmclear result.1 (n * PGSIZE)) mem' (fun pt' mem'' => mem'' = mem' ∧
      (∀ f, pt'.owns f = result.1.owns f) ∧ Image.Stacked ⟨pt', (n + 2) * PGSIZE⟩ tf (n + 1)) := by
  have hTOP := TOP_lt_NSLOT
  have hmax : max (n * PGSIZE) ((n + 2) * PGSIZE) = (n + 2) * PGSIZE :=
    Nat.max_eq_right (Nat.mul_le_mul_right _ (by omega))
  obtain ⟨hzero, _⟩ | ⟨hsz, hspace, hfresh⟩ := hgrown.ends
  · exact absurd hzero hok
  rw [hmax] at hsz hspace
  rw [pagesOf_page] at hspace
  rw [pagesOf_page, pagesOf_page] at hfresh
  obtain ⟨guard, _, hguard⟩ := hfresh n (by omega) (by omega)
  obtain ⟨stack, _, hstack⟩ := hfresh (n + 1) (by omega) (by omega)
  have hle := hspace.le
  have hn : n < NPAGE := hspace.lt_NPAGE (by omega)
  refine ⟨hsz, wp_mono (wp_uvmclear hn hguard mem') ?_⟩
  rintro pt' _ ⟨rfl, htables, hpages⟩
  refine ⟨rfl, fun f => ?_, ⟨Nat.succ_pos n, ?_, rfl, stack,
    { permW with r := true, u := true }, ?_, rfl, rfl⟩⟩
  · have howns := PageTable.owns_of_page_update (by omega : n < TOP)
      (fun j hj => hpages j (by omega)) f
    rw [htables f, hguard] at howns
    dsimp only [mapped] at howns
    omega
  · dsimp only
    rw [pagesOf_page]
    exact hspace.map (by omega : n < n + 2) (Nat.le_refl _) hle rfl hpages
  · dsimp only
    rw [hpages (n + 1) (by omega), if_neg (by omega), hstack]

include hsole

variable (path : Name) (argv : List Frame)

theorem ends_execRun {image : Image} (entry : Nat)
    (hload : kernel.Loading total extra p tf image.pagetable) (hfull : image.Full tf) :
    ends (execRun p path argv image entry) kernel
      (fun _ => Kernel.Spaces total extra none) Sane := by
  have hroom := hload.room hsole hfull
  have hTOP := TOP_lt_NSLOT
  unfold execRun
  dsimp only
  generalize hn : pagesOf image.sz = n at hroom ⊢
  have hpages : pagesOf (n * PGSIZE) = n := pagesOf_page n
  have hspace : image.pagetable.Space (pagesOf (n * PGSIZE)) tf := by
    rw [hpages, ← hn]
    exact hfull.space
  rw [ends_bind, inMem, ends_within]
  have hsz : n * PGSIZE + (USERSTACK + 1) * PGSIZE = (n + 2) * PGSIZE := by
    rw [USERSTACK, ← Nat.add_mul]
  rw [hsz]
  refine ends_imp (ends_uvmalloc hspace ((n + 2) * PGSIZE) permW) ?_ ?_
  · rintro ⟨grown, sz⟩ mem hgrown
    have hload₁ := hload.move hgrown.count
    rw [ends_ite]
    split
    next hzero =>
      have hspace : grown.Space (pagesOf (n * PGSIZE)) tf := hgrown.failed hzero
      exact ends_seq (hload₁.free hspace) fun _ _ hspaces => hspaces
    rename_i hok
    have hend := (wp_stackGuard hgrown hok).1
    have hguard := (wp_stackGuard hgrown hok).2
    have hbase : (n + 2) * PGSIZE - (USERSTACK + 1) * PGSIZE = n * PGSIZE := by
      rw [← hsz, Nat.add_sub_cancel]
    dsimp only at hend
    rw [hend, hbase, ends_bind, inMem, ends_within]
    refine ends_of_wp (wp_mono hguard ?_)
    rintro pt mem₂ ⟨hmem₂, howns, hstack⟩
    rw [hmem₂]
    have hload₂ := @Kernel.Loading.move _ _ _ _ _ grown pt mem hload₁ fun f => by rw [howns f]
    refine ends_seq (@ends_execStack total extra p tf _ ⟨pt, (n + 2) * PGSIZE⟩ _ hload₂ hstack argv)
      fun stack kernel₃ hload₃ => ?_
    cases stack with
    | none => exact ends_seq (hload₃.free hstack.space) fun _ _ hspaces => hspaces
    | some stack =>
      exact ends_execCommit path entry stack.1 stack.2 hload₃ hstack.space
  · intro _ h
    rw [hpages] at h
    exact (hroom h.2).elim

theorem ends_execLoad (ip : InodeRef) (elf : Elfhdr) (hspaces : kernel.Spaces total extra none) :
    ends (execLoad p path argv ip elf) kernel
      (fun _ => Kernel.Spaces total extra none) Sane := by
  have hend : Keeps Sane (Kernel.Spaces total extra none) (execEnd ip) :=
    leads_bind (keeps_inFs (quiet_iunlockput sane_free)) fun _ =>
      keeps_end _
  have hzero : pagesOf 0 = 0 := by decide
  unfold execLoad
  rw [ends_bind, ends_read]
  cases htf : (kernel.proc p).trapframe with
  | none => exact sane_panic (by decide)
  | some tf =>
    dsimp only
    rw [ends_bind, inMem, ends_within]
    refine ends_of_wp (wp_mono (wp_procPagetable tf kernel.mem) ?_)
    intro result mem hcreated
    cases result with
    | none =>
      refine hend _ (hspaces.withMem fun f => ?_)
      rw [← (hcreated.failed rfl).moves extra f]
      push_cast
      ring
    | some pt =>
      have hload : Kernel.Loading total extra p tf pt
          { kernel with mem := mem } := by
        refine ⟨hspaces.withMem fun f => ?_, htf⟩
        rw [← (hcreated.count pt rfl).moves extra f]
        push_cast
        ring
      have hfull : Image.Full ⟨pt, 0⟩ tf := by
        refine ⟨hzero ▸ hcreated.space pt rfl, fun k hk => ?_⟩
        rw [show pagesOf (Image.mk pt 0).sz = 0 from hzero] at hk
        omega
      dsimp only
      refine ends_seq (ends_execSegments hsole ip _ _ hload hfull)
        fun loaded kernel₁ hseg => ?_
      rw [ends_ite]
      split
      next hok =>
        exact ends_seq (keeps_inFs (quiet_iunlockput sane_free) _ hseg.load)
          fun _ _ hload₂ => ends_seq (keeps_inFs quiet_endOp _ hload₂)
            fun _ _ hload₃ => ends_execRun hsole path argv elf.entry hload₃ (hseg.full hok)
      · exact ends_seq (hseg.load.free hseg.space) fun _ => hend

theorem keeps_kexec : Keeps Sane (Kernel.Spaces total extra none) (kexec p path argv) := by
  refine leads_bind (keeps_inFs quiet_beginOp) fun _ =>
    leads_read_bind fun _ =>
    leads_bind (keeps_inFs (quiet_namei sane_free sane_lock _ _)) fun found => ?_
  cases found with
  | none => exact keeps_end none
  | some ip =>
    exact leads_bind (keeps_inFs (quiet_ilock sane_lock ip)) fun _ =>
      leads_bind (keeps_inFs (quiet_readi _ _ _)) fun bytes =>
      leads_ite (leads_bind (keeps_inFs (quiet_iunlockput sane_free)) fun _ =>
        keeps_end none)
        fun _ => ends_execLoad hsole path argv ip _

end Exec

/-! ### Arguments of exec -/

section Arguments

variable {total : Pool} {extra : Frame → Int} {p : Slot}
  {kernel : Kernel}

/-- The pages of the arguments belong to `sys_exec`. -/
def withArgs (extra : Frame → Int) (argv : List Frame) (f : Frame) : Int :=
  extra f + argv.count f

theorem ends_fetchArgs (uargv left : Nat) (argv : List Frame)
    (hspaces : kernel.Spaces total (withArgs extra argv) none) :
    ends (fetchArgs p uargv left argv) kernel (fun result kernel' =>
      kernel'.Spaces total (withArgs extra result.2) none) Sane := by
  induction left generalizing kernel argv with
  | zero => exact hspaces
  | succ left ih =>
    unfold fetchArgs
    refine ends_seq (keeps_inVm (fun _ _ => orderly_fetchaddr _) _ hspaces)
      fun uarg kernel₁ hspaces₁ => ?_
    cases uarg with
    | none => exact hspaces₁
    | some uarg =>
      dsimp only
      rw [ends_ite]
      split
      · exact hspaces₁
      rw [ends_bind, inMem, ends_within]
      refine ends_mono (ends_kalloc _) fun page mem hcount => ?_
      cases page with
      | none =>
        refine hspaces₁.withMem fun f => ?_
        rw [← hcount f, pageIs_none, Nat.add_zero]
      | some page =>
        have hspaces₂ : Kernel.Spaces total (withArgs extra (argv ++ [page])) none
            { kernel₁ with mem := mem } := by
          refine hspaces₁.withMem fun f => ?_
          rw [← hcount f, pageIs_some, withArgs, withArgs, List.count_append, count_cons_frame]
          simp only [List.count_nil, zero_add]
          push_cast
          ring
        dsimp only
        rw [ends_bind, ends_read]
        refine ends_seq (keeps_inVm (fun _ _ => orderly_copyinstrFrom _ _ _ _ _)
          _ hspaces₂) fun str kernel₃ hspaces₃ => ?_
        refine ends_seq (keeps_setPage _ _ _ hspaces₃) fun _ kernel₄ hspaces₄ => ?_
        rw [ends_ite]
        split
        · exact ih (argv ++ [page]) hspaces₄
        · exact hspaces₄

theorem ends_freeArgs (argv : List Frame)
    (hspaces : kernel.Spaces total (withArgs extra argv) none) :
    ends (forEach (fun page => inMem (kfree (.frame page))) argv) kernel
      (fun _ => Kernel.Spaces total extra none) Sane := by
  induction argv generalizing kernel with
  | nil =>
    have hnone : withArgs extra [] = extra := funext fun f => by
      simp [withArgs]
    rw [hnone] at hspaces
    exact hspaces
  | cons page rest ih =>
    unfold forEach
    rw [ends_bind, inMem, ends_within, kfree, ends_update]
    refine ih (hspaces.withMem fun f => ?_)
    simp only [withArgs, count_cons_frame]
    push_cast
    ring

theorem keeps_sysExec (hsole : total.Sole extra) (path : Name)
    (uargv : Nat) : Keeps Sane (Kernel.Spaces total extra none) (sysExec p path uargv) := by
  have hnone : withArgs extra [] = extra := funext fun f => by
    simp [withArgs]
  intro kernel hspaces
  refine ends_seq (ends_fetchArgs uargv MAXARG [] (hnone.symm ▸ hspaces))
    fun argv kernel₁ hspaces₁ => ?_
  have hpages : total.Sole (withArgs extra argv.2) := ⟨hsole.le_one, fun f => by
    have := hsole.nonneg f
    unfold withArgs
    omega⟩
  have hend (result : Option Nat) : Leads Sane (Kernel.Spaces total (withArgs extra argv.2) none)
        (fun _ => Kernel.Spaces total extra none) (do
          forEach (fun page => inMem (kfree (.frame page))) argv.2
          pure result) :=
    leads_bind (fun _ => ends_freeArgs argv.2) fun _ => leads_pure result
  dsimp only
  split
  · exact leads_bind (keeps_kexec hpages path argv.2) hend _ hspaces₁
  · exact leads_bind (leads_pure none) hend _ hspaces₁

end Arguments

end CkptKernel
