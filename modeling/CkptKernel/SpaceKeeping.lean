/-
Address spaces in the kernel.  Every process has a page table of the shape its
size says, and every frame is on the free list or in one use: as a page-table
page or a user page of one process, a trapframe or a pipe.  Code that deals with
files and names only leaves address spaces alone.
-/
import CkptKernel.FileCounts
import CkptKernel.LazyPages
import CkptKernel.Exec
import CkptKernel.QuietCalls

namespace CkptKernel

open ByteMem Code TableSum
open Function (update_of_ne update_self)

/-- The panics of kernel/vm.c and kernel/kalloc.c, and that of `loadseg`. -/
def vmPanics : List String :=
  ["walk", "mappages: va not aligned", "mappages: remap",
    "uvmunmap: not aligned", "uvmunmap: not a leaf", "freewalk: leaf",
    "kfree", "uvmclear", "loadseg: address should exist"]

/-- A reason to stop other than these panics. -/
def Sane (reason : Stop) : Prop := ∀ message ∈ vmPanics, reason ≠ .panic message

theorem sane_panic {message : String} (hnot : message ∉ vmPanics) : Sane (.panic message) :=
  fun _ hmem heq => hnot (Stop.panic.inj heq ▸ hmem)

theorem sane_sleep : Sane .sleep := fun _ _ heq => Stop.noConfusion heq

instance : Mild Sane where
  sleep := sane_sleep
  panic message hmem := by
    have hnone : ∀ message ∈ fsPanics, message ∉ vmPanics := by decide
    exact sane_panic (hnone message hmem)

/-- What a process has of memory. -/
structure ProcSpace where
  state : ProcState
  sz : Nat
  pagetable : Option PageTable
  trapframe : Option Frame

def Proc.space (proc : Proc) : ProcSpace :=
  ⟨proc.state, proc.sz, proc.pagetable, proc.trapframe⟩

/-- How often `f` is a page of the address space, if there is one. -/
def ownedBy : Option PageTable → Frame → Nat
  | none, _ => 0
  | some pt, f => pt.owns f

/-- How often `f` is the page, if there is one. -/
def pageIs : Option Frame → Frame → Nat
  | none, _ => 0
  | some frame, f => only frame f

@[simp] theorem ownedBy_none (f : Frame) : ownedBy none f = 0 := rfl

@[simp] theorem ownedBy_some (pt : PageTable) (f : Frame) : ownedBy (some pt) f = pt.owns f := rfl

@[simp] theorem pageIs_none (f : Frame) : pageIs none f = 0 := rfl

@[simp] theorem pageIs_some (frame f : Frame) : pageIs (some frame) f = only frame f := rfl

/-- How often `f` is one of the pages that a process has. -/
def ProcSpace.uses (space : ProcSpace) (f : Frame) : Nat :=
  ownedBy space.pagetable f + pageIs space.trapframe f

/-- A page table has the shape that the size says. -/
def ProcSpace.Shaped (space : ProcSpace) : Prop :=
  ∀ pt, space.pagetable = some pt → ∃ tf, space.trapframe = some tf ∧ pt.Space (pagesOf space.sz) tf

/-- What an UNUSED process has. -/
def ProcSpace.empty : ProcSpace := ⟨.UNUSED, 0, none, none⟩

/-- The memory of a process between calls. -/
structure ProcSpace.Sound (space : ProcSpace) : Prop where
  shaped : space.Shaped
  live : space.state ≠ .UNUSED → space.pagetable ≠ none
  unused : space.state = .UNUSED → space = .empty

theorem ProcSpace.empty_sound : ProcSpace.empty.Sound where
  shaped _ h := nomatch h
  live h := absurd rfl h
  unused _ := rfl

def Kernel.uses (kernel : Kernel) (f : Frame) : Nat :=
  (∑ p, (kernel.proc p).space.uses f) + (kernel.pipe f).elim 0 fun _ => 1

/-- What a run has from its start: how often each frame is there, and whether
the file table agrees with the pipes and covers the descriptors. -/
structure Pool where
  frames : Frame → Nat
  piped : Prop
  counted : Prop

instance : CoeFun Pool fun _ => Frame → Nat := ⟨Pool.frames⟩

/-- No frame is there twice, and none is in use that has been freed. -/
structure Pool.Sole (total : Pool) (extra : Frame → Int) : Prop where
  le_one : ∀ f, total f ≤ 1
  nonneg : ∀ f, 0 ≤ extra f

/-- Every frame is free, in use, or one of `extra`, as often as `total` says;
every process but `busy` is as it is between calls.  A frame that has been freed
and is still in use counts negatively in `extra`. -/
structure Kernel.Spaces (total : Pool) (extra : Frame → Int)
    (busy : Option Slot) (kernel : Kernel) : Prop where
  sound : ∀ p, busy ≠ some p → (kernel.proc p).space.Sound
  frames : ∀ f, (kernel.mem.free.count f : Int) + kernel.uses f + extra f = total f
  pipes : total.piped → kernel.PipesOk
  slack : total.counted → ∀ f, 0 ≤ kernel.slack f

/-- The same frames, with nothing said about the counts of files. -/
def Pool.uncounted (total : Pool) : Pool := { total with counted := False }

/-- Every process has the memory it had. -/
def Kernel.SameSpaces (kernel kernel' : Kernel) : Prop :=
  ∀ p, (kernel'.proc p).space = (kernel.proc p).space

/-- Every process but `p` has the memory it had. -/
def Kernel.SameOthers (p : Slot) (kernel kernel' : Kernel) : Prop :=
  ∀ q, q ≠ p → (kernel'.proc q).space = (kernel.proc q).space

variable {kernel : Kernel}

theorem Kernel.Spaces.uncounted {total : Pool} {extra : Frame → Int} {busy : Option Slot}
    (hspaces : kernel.Spaces total extra busy) : kernel.Spaces total.uncounted extra busy :=
  ⟨hspaces.sound, hspaces.frames, hspaces.pipes, False.elim⟩

theorem Kernel.SameOthers.trans {p : Slot} {kernel₁ kernel₂ : Kernel}
    (hfirst : kernel.SameOthers p kernel₁)
    (hnext : kernel₁.SameOthers p kernel₂) : kernel.SameOthers p kernel₂ :=
  fun q hq => (hnext q hq).trans (hfirst q hq)

theorem Kernel.SameSpaces.others {kernel' : Kernel} (hsame : kernel.SameSpaces kernel') (p : Slot) :
    kernel.SameOthers p kernel' := fun q _ => hsame q

/-- How often `f` is free or a pipe. -/
def Kernel.spare (kernel : Kernel) (f : Frame) : Nat :=
  kernel.mem.free.count f + (kernel.pipe f).elim 0 fun _ => 1

/-- What code on files does: processes keep their memory, frames move between
the free list and the pipes, and `gain` references to each file are left over
for descriptors. -/
structure Kernel.Moves (gain : FileRef → Int) (kernel kernel' : Kernel) : Prop where
  spare : kernel'.spare = kernel.spare
  spaces : kernel.SameSpaces kernel'
  pipes : kernel.PipesOk → kernel'.PipesOk
  slack : ∀ f, kernel.slack f + gain f ≤ kernel'.slack f

/-- An invariant about address spaces, which such code keeps.  If it says that
descriptors are counted, none may be left without a reference. -/
class SpaceInv (Inv : Kernel → Prop) where
  counted : Prop
  congr : ∀ {kernel kernel' : Kernel} {gain : FileRef → Int}, Inv kernel →
    kernel.Moves gain kernel' → (counted → ∀ f, 0 ≤ gain f) → Inv kernel'

section Moves

variable {gain gain' : FileRef → Int} {kernel₁ kernel' : Kernel}

theorem Kernel.Moves.trans (hfirst : kernel.Moves gain kernel₁)
    (hnext : kernel₁.Moves gain' kernel') : kernel.Moves (fun f => gain f + gain' f) kernel' where
  spare := hnext.spare.trans hfirst.spare
  spaces p := (hnext.spaces p).trans (hfirst.spaces p)
  pipes hok := hnext.pipes (hfirst.pipes hok)
  slack f := by
    have hone := hfirst.slack f
    have htwo := hnext.slack f
    omega

theorem Kernel.Moves.mono (hmoves : kernel.Moves gain kernel')
    (hle : ∀ f, gain' f ≤ gain f) : kernel.Moves gain' kernel' :=
  { hmoves with slack := fun f => (Int.add_le_add_left (hle f) _).trans (hmoves.slack f) }

/-- Nothing happens to files. -/
theorem Kernel.Moves.same (hspare : kernel'.spare = kernel.spare)
    (hfile : kernel'.file = kernel.file) (hpipe : kernel'.pipe = kernel.pipe)
    (hproc : ∀ p, (kernel'.proc p).space = (kernel.proc p).space ∧
      (kernel'.proc p).ofile = (kernel.proc p).ofile) : kernel.Moves 0 kernel' where
  spare := hspare
  spaces p := (hproc p).1
  pipes hok := by rwa [Kernel.PipesOk, hfile, hpipe]
  slack f := by
    rw [Kernel.slack_congr hfile fun p => (hproc p).2]
    exact (Int.add_zero _).le

theorem Kernel.moves_withOfile (kernel : Kernel) (p : Slot) (i : Fin NOFILE)
    (entry : Option FileRef) :
    kernel.Moves (fun f => fdIs ((kernel.proc p).ofile i) f - fdIs entry f)
      (kernel.withOfile p i entry) where
  spare := rfl
  spaces q := by
    by_cases heq : q = p
    · rw [heq, Kernel.withOfile, withProc_self]
      rfl
    · rw [Kernel.withOfile, withProc_of_ne heq]
  pipes hok := hok
  slack f := by
    rw [slack_withOfile]
    omega

theorem Kernel.moves_withFile {f : FileRef} {file : File} {more : Int}
    (href : (file.ref : Int) = (kernel.file f).ref + more)
    (hpipes : kernel.PipesOk → (kernel.withFile f file).PipesOk) :
    kernel.Moves (fun g => more * fdIs (some f) g) (kernel.withFile f file) where
  spare := rfl
  spaces _ := rfl
  pipes := hpipes
  slack g := (slack_withFile href g).ge

/-- A file is taken into use, as anything but a pipe. -/
theorem Kernel.moves_taken {f : FileRef} (file : File) (hfree : (kernel.file f).ref = 0)
    (href : file.ref = 1) (htype : file.type = (kernel.file f).type ∨ file.type ≠ .pipe) :
    kernel.Moves (fun g => 1 * fdIs (some f) g) (kernel.withFile f file) := by
  refine kernel.moves_withFile (by rw [href, hfree]; rfl) fun hok => ?_
  have hold := hok.closed f hfree
  exact hok.plain hold (htype.elim (fun h => h ▸ hold) id)

theorem Kernel.moves_dup (kernel : Kernel) (f : FileRef) :
    kernel.Moves (fun g => 1 * fdIs (some f) g)
      (kernel.withFile f { kernel.file f with ref := (kernel.file f).ref + 1 }) :=
  kernel.moves_withFile (by push_cast; ring) fun hok =>
    hok.withFile (fun _ _ => rfl) fun hzero => by cases hzero

/-- Enough references are left over. -/
theorem SpaceInv.moves {Inv : Kernel → Prop} [SpaceInv Inv] (hinv : Inv kernel)
    (hmoves : kernel.Moves gain kernel') (hgain : ∀ f, 0 ≤ gain f) : Inv kernel' :=
  SpaceInv.congr hinv hmoves fun _ => hgain

theorem SpaceInv.same {Inv : Kernel → Prop} [SpaceInv Inv] (hinv : Inv kernel)
    (hmoves : kernel.Moves 0 kernel') : Inv kernel' :=
  SpaceInv.moves hinv hmoves fun _ => Int.le_refl 0

theorem ends_setFile {f : FileRef} {change : File → File} {post : Unit → Kernel → Prop}
    {stops : Stop → Prop} : ends (setFile f change) kernel post stops ↔
      post () (kernel.withFile f (change (kernel.file f))) := ends_update

theorem ends_setOfile {p : Slot} {i : Fin NOFILE} {entry : Option FileRef}
    {post : Unit → Kernel → Prop} {stops : Stop → Prop} :
    ends (setOfile p i entry) kernel post stops ↔ post () (kernel.withOfile p i entry) :=
  ends_update

end Moves

section Keeps

variable {total : Pool} {extra : Frame → Int} {busy : Option Slot}
  {Inv : Kernel → Prop} [SpaceInv Inv] {kernel : Kernel}

theorem Kernel.Spaces.congr {kernel' : Kernel} {gain : FileRef → Int}
    (hspaces : kernel.Spaces total extra busy) (hmoves : kernel.Moves gain kernel')
    (hgain : total.counted → ∀ f, 0 ≤ gain f) : kernel'.Spaces total extra busy where
  sound p hp := hmoves.spaces p ▸ hspaces.sound p hp
  frames f := by
    have hsum : ∑ p, (kernel'.proc p).space.uses f = ∑ p, (kernel.proc p).space.uses f :=
      Finset.sum_congr rfl fun p _ => by rw [hmoves.spaces p]
    have hframes := hspaces.frames f
    have hspare := congrFun hmoves.spare f
    unfold Kernel.spare at hspare
    unfold Kernel.uses at hframes ⊢
    omega
  pipes hpiped := hmoves.pipes (hspaces.pipes hpiped)
  slack hcounted f := (Int.add_nonneg (hspaces.slack hcounted f) (hgain hcounted f)).trans
    (hmoves.slack f)

instance : SpaceInv (Kernel.Spaces total extra busy) := ⟨total.counted, Kernel.Spaces.congr⟩

omit [SpaceInv Inv] in
/-- File system code, for what does not depend on the file system. -/
theorem keeps_withFs {A : Type} {code : Code Fs A} (hquiet : Quiet Sane code)
    (hfs : ∀ kernel fs, Inv kernel → Inv (kernel.withFs fs)) : Keeps Sane Inv (inFs code) := by
  intro kernel hinv
  rw [inFs, ends_within]
  exact ends_mono (hquiet kernel.fs trivial) fun _ fs _ => hfs kernel fs hinv

theorem keeps_inFs {A : Type} {code : Code Fs A} (hquiet : Quiet Sane code) :
    Keeps Sane Inv (inFs code) :=
  keeps_withFs hquiet fun _ _ hinv =>
    SpaceInv.same hinv (.same rfl rfl rfl fun _ => ⟨rfl, rfl⟩)

/-- A change of a part of the state that has nothing to do with memory. -/
theorem keeps_update {change : Kernel → Kernel}
    (hsame : ∀ kernel : Kernel, kernel.Moves 0 (change kernel)) : Keeps Sane Inv (update change) :=
  fun kernel hinv => SpaceInv.same hinv (hsame kernel)

omit [SpaceInv Inv] in
theorem keeps_panic {A : Type} {message : String} (hnot : message ∉ vmPanics) :
    Keeps Sane Inv (Code.panic message : Code Kernel A) :=
  leads_panic (sane_panic hnot)

/-- The fields that matter of an open file stay as they are. -/
theorem keeps_setFile (f : FileRef) {change : File → File}
    (hsame : ∀ file, (change file).ref = file.ref ∧ (change file).type = file.type ∧
      (change file).pipe = file.pipe ∧ (change file).writable = file.writable) :
    Keeps Sane Inv (setFile f change) := by
  intro kernel hinv
  obtain ⟨href, htype, hpipe, hwritable⟩ := hsame (kernel.file f)
  refine SpaceInv.moves hinv (@Kernel.moves_withFile _ f _ 0 (by rw [href, add_zero])
    fun hok => ?_) fun g => by simp
  refine hok.withFile (fun _ _ => ?_) fun hzero => ?_
  · simp only [File.endOn, htype, hpipe, hwritable]
  · rw [htype]
    exact hok.closed f (href ▸ hzero)

theorem keeps_setProc (p : Slot) {change : Proc → Proc}
    (hsame : ∀ proc, (change proc).space = proc.space ∧ (change proc).ofile = proc.ofile) :
    Keeps Sane Inv (setProc p change) := by
  refine keeps_update fun kernel => .same rfl rfl rfl fun q => ?_
  by_cases heq : q = p
  · subst heq
    dsimp only
    rw [update_self]
    exact hsame _
  · dsimp only
    rw [update_of_ne heq]
    exact ⟨rfl, rfl⟩

theorem keeps_clearOfile (p : Slot) (fd : Fin NOFILE) : Keeps Sane Inv (setOfile p fd none) :=
  fun kernel hinv => SpaceInv.moves hinv (kernel.moves_withOfile p fd none) fun f => by simp

theorem keeps_setPage (frame : Frame) (bytes : Bytes) :
    Keeps Sane Inv (inMem (setPage frame bytes)) := by
  intro kernel hinv
  rw [inMem, ends_within, setPage, ends_update]
  exact SpaceInv.same hinv (.same rfl rfl rfl fun _ => ⟨rfl, rfl⟩)

theorem keeps_acquire (lock : Lock) : Keeps Sane Inv (acquire lock) :=
  leads_read_bind fun _ => leads_ite (keeps_panic (by decide))
    (keeps_update fun _ => .same rfl rfl rfl fun _ => ⟨rfl, rfl⟩)

theorem keeps_release (lock : Lock) : Keeps Sane Inv (release lock) :=
  leads_read_bind fun _ => leads_ite (keeps_update fun _ => .same rfl rfl rfl fun _ => ⟨rfl, rfl⟩)
    (keeps_panic (by decide))

/-! ### Files -/

theorem quiet_filealloc {stops : Stop → Prop} : Quiet stops filealloc := by
  refine leads_read_bind fun kernel => ?_
  split
  · exact leads_pure _
  · exact leads_bind (quiet_update _) fun _ => leads_pure _

/-- Take a frame out of use, or put one into use. -/
theorem Kernel.spare_withPipe (kernel : Kernel) (pi : Frame) (pipe : Option Pipe) (mem : Mem)
    (hframes : ∀ f, mem.free.count f + (pipe.elim 0 fun _ => only pi f) =
      kernel.mem.free.count f + ((kernel.pipe pi).elim 0 fun _ => only pi f)) :
    Kernel.spare { kernel with
      mem := mem
      pipe := Function.update kernel.pipe pi pipe } = kernel.spare := by
  funext f
  have hnew := hframes f
  simp only [Kernel.spare]
  by_cases heq : f = pi
  · subst heq
    simpa only [only, if_true, update_self] using hnew
  have hne : pi ≠ f := fun h => heq h.symm
  have hzero : ∀ pipe : Option Pipe, pipe.elim 0 (fun _ => only pi f) = 0 := by
    intro pipe
    cases pipe with
    | none => rfl
    | some _ => exact if_neg hne
  rw [hzero, hzero] at hnew
  rw [update_of_ne heq]
  omega

/-- One reference to `f` less, and nothing else that a process has. -/
structure Kernel.Closes (f : FileRef) (kernel kernel' : Kernel) : Prop where
  moves : kernel.Moves (fun g => -1 * fdIs (some f) g) kernel'
  proc : kernel'.proc = kernel.proc

/-- The last reference to an end of a pipe goes, and the end with it. -/
theorem ends_pipeclose {f : FileRef} (htype : (kernel.file f).type = .pipe)
    (hlast : (kernel.file f).ref = 1) :
    ends (pipeclose (kernel.file f).pipe (decide ((kernel.file f).writable ≠ 0)))
      (kernel.withFile f (kernel.file f).released) (fun _ => kernel.Closes f) Sane := by
  unfold pipeclose
  rw [ends_bind, ends_read]
  have hsame : (kernel.withFile f (kernel.file f).released).pipe = kernel.pipe := rfl
  dsimp only
  rw [hsame]
  cases hpipe : kernel.pipe (kernel.file f).pipe with
  | none => exact sane_panic (by decide)
  | some pipe =>
    -- what is left in the table of pipes
    have hdone : ∀ (left : Option Pipe) (mem : Mem),
        openEnd left (decide ((kernel.file f).writable ≠ 0)) = 0 →
        openEnd left (!decide ((kernel.file f).writable ≠ 0)) =
          openEnd (some pipe) (!decide ((kernel.file f).writable ≠ 0)) →
        left ≠ some ⟨false, false⟩ →
        (∀ g, mem.free.count g + (left.elim 0 fun _ => only (kernel.file f).pipe g) =
          kernel.mem.free.count g + only (kernel.file f).pipe g) →
        kernel.Closes f { kernel.withFile f (kernel.file f).released with
          mem := mem
          pipe := Function.update kernel.pipe (kernel.file f).pipe left } := by
      intro left mem hself hother hlive hframes
      have hgain := @slack_withFile kernel f (kernel.file f).released (-1) (by rw [hlast]; rfl)
      refine ⟨⟨?_, fun _ => rfl, fun hok => ?_, fun g => (hgain g).ge⟩, rfl⟩
      · exact kernel.spare_withPipe _ left mem fun g => by rw [hpipe]; exact hframes g
      · exact hok.close htype (by simp [File.released]) hself (by rw [hother, hpipe]) hlive
    generalize decide ((kernel.file f).writable ≠ 0) = writes at hdone ⊢
    have hself : openEnd (some (if writes then { pipe with writeopen := false }
        else { pipe with readopen := false })) writes = 0 := by cases writes <;> rfl
    have hother : openEnd (some (if writes then { pipe with writeopen := false }
        else { pipe with readopen := false })) (!writes) = openEnd (some pipe) (!writes) := by
      cases writes <;> rfl
    dsimp only
    generalize (if writes = true then { pipe with writeopen := false }
      else { pipe with readopen := false } : Pipe) = closed at hself hother ⊢
    rw [ends_ite]
    split
    next hboth =>
      obtain ⟨_, _⟩ := closed
      obtain ⟨rfl, rfl⟩ := hboth
      rw [ends_bind, setPipe, ends_update, inMem, ends_within, kfree, ends_update]
      refine hdone none _ rfl (hother ▸ by cases writes <;> rfl) (by simp) fun g => ?_
      rw [count_cons_frame]
      rfl
    next hopen =>
      rw [setPipe, ends_update]
      refine hdone (some closed) kernel.mem hself hother ?_ fun g => rfl
      rintro ⟨⟩
      exact hopen ⟨rfl, rfl⟩

theorem ends_fileclose (f : FileRef) :
    ends (fileclose f) kernel (fun _ => kernel.Closes f) Sane := by
  unfold fileclose
  rw [ends_bind, ends_read, ends_ite]
  split
  · exact sane_panic (by decide)
  next hopen =>
  rw [ends_ite]
  split
  next hmany =>
    rw [ends_setFile]
    refine ⟨kernel.moves_withFile (by push_cast [Nat.le_of_lt hmany]; ring) fun hok => ?_, rfl⟩
    exact hok.withFile (fun _ _ => rfl) fun hzero => by dsimp only at hzero; omega
  next hlast =>
    have hone : (kernel.file f).ref = 1 := by omega
    rw [ends_bind, ends_setFile]
    change ends _ (kernel.withFile f (kernel.file f).released) _ _
    have hplain : (kernel.file f).type ≠ .pipe →
        kernel.Closes f (kernel.withFile f (kernel.file f).released) := fun hne =>
      ⟨kernel.moves_withFile (by rw [hone]; rfl) fun hok => hok.plain hne (by simp [File.released]),
        rfl⟩
    have hput : (kernel.file f).type ≠ .pipe →
        ends (do inFs beginOp; inFs (iput (kernel.file f).ip); inFs endOp)
          (kernel.withFile f (kernel.file f).released) (fun _ => kernel.Closes f) Sane := by
      intro hne
      have hfs : ∀ kernel' fs, kernel.Closes f kernel' →
          kernel.Closes f (kernel'.withFs fs) := fun _ _ hcloses =>
        ⟨⟨hcloses.moves.spare, hcloses.moves.spaces, hcloses.moves.pipes, hcloses.moves.slack⟩,
          hcloses.proc⟩
      exact leads_bind (keeps_withFs quiet_beginOp hfs) (fun _ =>
        leads_bind (keeps_withFs (quiet_iput (sane_panic (by decide))) hfs) fun _ =>
          keeps_withFs quiet_endOp hfs) _ (hplain hne)
    cases htype : (kernel.file f).type with
    | none => exact hplain (by simp [htype])
    | pipe => exact ends_pipeclose htype hone
    | inode => exact hput (by simp [htype])
    | device => exact hput (by simp [htype])

/-! ### One process at work -/

theorem Kernel.Spaces.work (hspaces : kernel.Spaces total extra none) (p : Slot) :
    kernel.Spaces total extra (some p) :=
  { hspaces with sound := fun q _ => hspaces.sound q (by simp) }

/-- What a piece of code does for process `p`, which is at work: its memory,
and the frames that nobody else knows of, are afterwards as they say. -/
structure Kernel.Working (total : Pool) (extra : Frame → Int)
    (p : Slot) (space : ProcSpace) (kernel kernel' : Kernel) : Prop where
  spaces : kernel'.Spaces total extra (some p)
  others : kernel.SameOthers p kernel'
  self : (kernel'.proc p).space = space

/-- No process is at work, and each has the memory it had. -/
structure Kernel.AtRest (total : Pool) (extra : Frame → Int)
    (kernel kernel' : Kernel) : Prop where
  spaces : kernel'.Spaces total extra none
  same : kernel.SameSpaces kernel'

theorem Kernel.AtRest.refl (hspaces : kernel.Spaces total extra none) :
    kernel.AtRest total extra kernel := ⟨hspaces, fun _ => rfl⟩

variable {p : Slot} {space : ProcSpace} {kernel kernel₁ : Kernel}

instance : SpaceInv (kernel.AtRest total extra) where
  counted := total.counted
  congr hrest hmoves hgain := ⟨hrest.spaces.congr hmoves hgain,
    fun p => (hmoves.spaces p).trans (hrest.same p)⟩

theorem Kernel.AtRest.work (hrest : kernel.AtRest total extra kernel₁)
    (p : Slot) : kernel.Working total extra p (kernel.proc p).space kernel₁ :=
  ⟨hrest.spaces.work p, hrest.same.others p, hrest.same p⟩

theorem Kernel.Working.start (hspaces : kernel.Spaces total extra none) (p : Slot) :
    kernel.Working total extra p (kernel.proc p).space kernel :=
  (Kernel.AtRest.refl hspaces).work p

theorem Kernel.Working.finish (hwork : kernel.Working total extra p space kernel₁)
    (hsound : space.Sound) : kernel₁.Spaces total extra none := by
  refine { hwork.spaces with sound := fun q _ => ?_ }
  by_cases heq : q = p
  · rw [heq, hwork.self]
    exact hsound
  · exact hwork.spaces.sound q fun h => heq (Option.some.inj h).symm

instance : SpaceInv (kernel.Working total extra p space) where
  counted := total.counted
  congr hwork hmoves hgain := ⟨hwork.spaces.congr hmoves hgain,
    hwork.others.trans (hmoves.spaces.others p), (hmoves.spaces p).trans hwork.self⟩

/-- An assignment to fields of the process. -/
theorem Kernel.Working.set {change : Proc → Proc} {stops : Stop → Prop}
    (hwork : kernel.Working total extra p space kernel₁) (extra' : Frame → Int)
    (into : ProcSpace → ProcSpace)
    (hchange : ∀ proc, (change proc).space = into proc.space ∧ (change proc).ofile = proc.ofile)
    (hframes : ∀ f, ((into space).uses f : Int) + extra' f = space.uses f + extra f) :
    ends (setProc p change) kernel₁
      (fun _ => kernel.Working total extra' p (into space)) stops := by
  rw [setProc, ends_update]
  have hself : (change (kernel₁.proc p)).space = into space := by
    rw [(hchange _).1, hwork.self]
  refine ⟨⟨fun q hq => ?_, fun f => ?_, hwork.spaces.pipes, fun hcounted f => ?_⟩,
    hwork.others.trans fun q hq => ?_, ?_⟩
  · have hne : q ≠ p := fun h => hq (h ▸ rfl)
    dsimp only
    rw [update_of_ne hne]
    exact hwork.spaces.sound q hq
  · have hold := hwork.spaces.frames f
    have hnew := hframes f
    have hsum := sum_update_add (fun proc => proc.space.uses f) kernel₁.proc p
      (change (kernel₁.proc p))
    rw [hself, hwork.self] at hsum
    unfold Kernel.uses at hold ⊢
    dsimp only at hsum ⊢
    omega
  · have hslack := congrFun (slack_withProc (hchange (kernel₁.proc p)).2) f
    exact (hwork.spaces.slack hcounted f).trans hslack.ge
  · dsimp only
    rw [update_of_ne hq]
  · dsimp only
    rw [update_self, hself]

/-- Frames come from the free list or go back to it. -/
theorem Kernel.Spaces.withMem {extra' : Frame → Int} {mem : Mem}
    (hspaces : kernel.Spaces total extra busy)
    (hframes : ∀ f, (mem.free.count f : Int) + extra' f = kernel.mem.free.count f + extra f) :
    Kernel.Spaces total extra' busy { kernel with mem := mem } := by
  refine ⟨hspaces.sound, fun f => ?_, hspaces.pipes, hspaces.slack⟩
  have hold := hspaces.frames f
  have hnew := hframes f
  unfold Kernel.uses at hold ⊢
  dsimp only
  omega

variable {stops : Stop → Prop}

/-- Memory management for the process. -/
theorem Kernel.Working.memory {A : Type} {code : Code Mem A}
    {post : A → Mem → Prop} (hwork : kernel.Working total extra p space kernel₁)
    (hcode : ends code kernel₁.mem post stops) : ends (inMem code) kernel₁ (fun value kernel₂ =>
      post value kernel₂.mem ∧ ∀ extra' : Frame → Int,
        (∀ f, (kernel₂.mem.free.count f : Int) + extra' f = kernel₁.mem.free.count f + extra f) →
        kernel.Working total extra' p space kernel₂) stops := by
  rw [inMem, ends_within]
  refine ends_mono hcode fun value mem hpost => ⟨hpost, ?_⟩
  exact fun extra' hframes =>
    ⟨hwork.spaces.withMem hframes, hwork.others, hwork.self⟩

/-- What has become of the frames that nobody else knows of. -/
theorem Conserves.moves {mem mem' : Mem} {before after : Frame → Nat}
    (hcount : Conserves mem mem' before after) (extra : Frame → Int)
    (f : Frame) : (mem'.free.count f : Int) + (extra f + after f - before f) =
      mem.free.count f + extra f := by
  have hcount : mem'.free.count f + after f = mem.free.count f + before f :=
    hcount f
  generalize after f = new at hcount ⊢
  generalize before f = old at hcount ⊢
  omega

theorem ends_kalloc (mem : Mem) : ends kalloc mem (fun result mem' => ∀ f, mem'.free.count f +
      pageIs result f = mem.free.count f) stops := by
  cases hfree : mem.free with
  | nil =>
    refine ends_of_eq (by rw [kalloc, hfree]) fun f => ?_
    rw [hfree]
    rfl
  | cons frame rest =>
    refine ends_of_eq (by rw [kalloc, hfree]) fun f => ?_
    rw [count_cons_frame, pageIs_some]

theorem Kernel.Working.kfree (frame : Frame) (hwork : kernel.Working total extra p space kernel₁) :
    ends (inMem (kfree (.frame frame))) kernel₁ (fun _ =>
      kernel.Working total (fun f => extra f - only frame f) p space) stops := by
  have hfree : ends (CkptKernel.kfree (.frame frame)) kernel₁.mem
      (fun _ mem => ∀ f, mem.free.count f = kernel₁.mem.free.count f + only frame f) stops := by
    rw [CkptKernel.kfree, ends_update]
    exact fun f => count_cons_frame frame f _
  refine ends_mono (hwork.memory hfree) ?_
  rintro _ kernel₂ ⟨hcount, hstep⟩
  refine hstep _ fun f => ?_
  rw [hcount f]
  push_cast
  ring

/-- A whole address space goes back to the free list. -/
theorem Kernel.Working.free_space {pt : PageTable} {sz : Nat} {tf : Frame}
    (hspace : pt.Space (pagesOf sz) tf) (hwork : kernel.Working total extra p space kernel₁) :
    ends (inMem (procFreepagetable pt sz)) kernel₁ (fun _ =>
      kernel.Working total (fun f => extra f - pt.owns f) p space) stops := by
  refine ends_mono (hwork.memory (ends_of_wp (wp_procFreepagetable hspace kernel₁.mem))) ?_
  rintro _ kernel₂ ⟨⟨_, hcount⟩, hstep⟩
  refine hstep _ fun f => ?_
  rw [← hcount.moves extra f, Nat.cast_zero, add_zero]

/-- Everything the process has goes back to the free list. -/
theorem Kernel.Working.freeproc (hwork : kernel.Working total extra p space kernel₁)
    (hshaped : space.Shaped) : ends (freeproc p) kernel₁
      (fun _ => kernel.Working total extra p .empty) stops := by
  have htrapframe : (kernel₁.proc p).trapframe = space.trapframe :=
    congrArg ProcSpace.trapframe hwork.self
  have hpagetable : (kernel₁.proc p).pagetable = space.pagetable :=
    congrArg ProcSpace.pagetable hwork.self
  have hsz : (kernel₁.proc p).sz = space.sz := congrArg ProcSpace.sz hwork.self
  unfold CkptKernel.freeproc
  rw [ends_bind, ends_read, htrapframe, hpagetable, hsz, ends_bind]
  have hframe : ends (whenSome space.trapframe (fun frame =>
      inMem (CkptKernel.kfree (.frame frame)))) kernel₁ (fun _ =>
        kernel.Working total (fun f => extra f - pageIs space.trapframe f) p space) stops := by
    cases space.trapframe with
    | none =>
      refine (ends_pure ()).mpr ?_
      simpa using hwork
    | some tf => exact hwork.kfree tf
  refine ends_mono hframe fun _ kernel₂ hwork₂ => ?_
  refine ends_seq (hwork₂.set extra
    (fun space => { space with trapframe := none }) (fun _ => ⟨rfl, rfl⟩)
    fun f => ?_) ?_
  · simp only [ProcSpace.uses, pageIs_none]
    push_cast
    ring
  intro _ kernel₃ hwork₃
  rw [ends_bind]
  have htable : ends (whenSome space.pagetable (fun pt =>
      inMem (procFreepagetable pt space.sz))) kernel₃ (fun _ =>
        kernel.Working total (fun f => extra f - ownedBy space.pagetable f) p
          { space with trapframe := none }) stops := by
    cases hpt : space.pagetable with
    | none =>
      refine (ends_pure ()).mpr ?_
      simpa [hpt] using hwork₃
    | some pt =>
      obtain ⟨tf, _, hspace⟩ := hshaped pt hpt
      rw [hpt] at hwork₃
      unfold whenSome
      dsimp only
      exact hwork₃.free_space hspace
  refine ends_mono htable fun _ kernel₄ hwork₄ => ?_
  refine hwork₄.set extra (fun space => ⟨.UNUSED, 0, none, space.trapframe⟩)
    (fun _ => ⟨rfl, rfl⟩) fun f => ?_
  simp only [ProcSpace.uses, pageIs_none, ownedBy_none]
  push_cast
  ring

/-! ### New processes -/

/-- A new process: an address space without user memory. -/
structure ProcSpace.New (space : ProcSpace) : Prop where
  state : space.state ≠ .UNUSED
  sz : space.sz = 0
  space : ∃ tf pt, space.trapframe = some tf ∧ space.pagetable = some pt ∧ pt.Space 0 tf

theorem ProcSpace.New.sound (hnew : space.New) : space.Sound := by
  obtain ⟨tf, pt, htf, hpt, hspace⟩ := hnew.space
  refine ⟨fun pt' hpt' => ⟨tf, htf, ?_⟩, fun _ => ?_, fun h => (hnew.state h).elim⟩
  · rw [hpt] at hpt'
    cases hpt'
    rw [hnew.sz]
    exact hspace
  · rw [hpt]
    simp

/-- What `allocproc` leaves behind. -/
def Kernel.Allocated (total : Pool) (extra : Frame → Int)
    (kernel : Kernel) (result : Option Slot) (kernel' : Kernel) : Prop :=
  match result with
  | none => kernel.AtRest total extra kernel'
  | some np => (kernel.proc np).state = .UNUSED ∧ ∃ space : ProcSpace,
      space.New ∧ kernel.Working total extra np space kernel'

/-- The error exits of `allocproc`. -/
theorem Kernel.Working.alloc_failed (hempty : (kernel.proc p).space = .empty)
    (hwork : kernel.Working total extra p space kernel₁) (hshaped : space.Shaped) : ends (do
      CkptKernel.freeproc p
      release (.proc p)
      pure none) kernel₁ (kernel.Allocated total extra) Sane := by
  refine ends_seq (hwork.freeproc hshaped) fun _ kernel₂ hwork₂ => ?_
  refine ends_seq (keeps_release _ _ hwork₂) fun _ kernel₃ hwork₃ => ?_
  refine ⟨hwork₃.finish ProcSpace.empty_sound, fun q => ?_⟩
  by_cases heq : q = p
  · rw [heq, hwork₃.self, hempty]
  · exact hwork₃.others q heq

theorem keeps_allocpid : Keeps Sane Inv allocpid :=
  leads_read_bind fun _ => leads_bind
    (keeps_update fun _ => .same rfl rfl rfl fun _ => ⟨rfl, rfl⟩) fun _ => leads_pure _

theorem ends_allocprocFound (hrest : kernel.AtRest total extra kernel₁)
    (hunused : (kernel₁.proc p).state = .UNUSED) :
    ends (allocprocFound p) kernel₁ (kernel.Allocated total extra) Sane := by
  have hsame := hrest.same p
  have hempty : (kernel.proc p).space = .empty :=
    hsame ▸ (hrest.spaces.sound p (by simp)).unused hunused
  have hstart := hrest.work p
  rw [hempty] at hstart
  unfold allocprocFound
  refine ends_seq (keeps_allocpid _ hstart) fun pid kernel₁ hwork₁ => ?_
  refine ends_seq (hwork₁.set extra (fun space => { space with
    state := .USED }) (fun _ => ⟨rfl, rfl⟩) fun _ => rfl) fun _ kernel₂ hwork₂ => ?_
  refine ends_seq (hwork₂.memory (ends_kalloc _)) ?_
  rintro trapframe kernel₃ ⟨hcount, hstep₃⟩
  have hwork₃ := hstep₃ (fun f => extra f + pageIs trapframe f) fun f => by
    rw [← hcount f]
    push_cast
    ring
  refine ends_seq (hwork₃.set extra (fun space => { space with
    trapframe := trapframe }) (fun _ => ⟨rfl, rfl⟩) fun f => ?_)
    fun _ kernel₄ hwork₄ => ?_
  · simp only [ProcSpace.uses, ProcSpace.empty, pageIs_none, ownedBy_none]
    push_cast
    ring
  cases trapframe with
  | none => exact hwork₄.alloc_failed hempty fun _ h => nomatch h
  | some tf =>
    dsimp only
    refine ends_seq (hwork₄.memory (ends_of_wp (wp_procPagetable tf _))) ?_
    rintro pagetable kernel₅ ⟨hcreated, hstep₅⟩
    have hwork₅ := hstep₅ (fun f => extra f + ownedBy pagetable f) fun f => by
      cases pagetable with
      | none =>
        rw [← (hcreated.failed rfl).moves extra f, ownedBy_none, Nat.cast_zero, sub_zero]
      | some pt =>
        rw [← (hcreated.count pt rfl).moves extra f, ownedBy_some, Nat.cast_zero, sub_zero]
    refine ends_seq (hwork₅.set extra (fun space => { space with
      pagetable := pagetable }) (fun _ => ⟨rfl, rfl⟩) fun f => ?_)
      fun _ kernel₆ hwork₆ => ?_
    · simp only [ProcSpace.uses, ProcSpace.empty, ownedBy_none]
      push_cast
      ring
    cases pagetable with
    | none => exact hwork₆.alloc_failed hempty fun _ h => nomatch h
    | some pt =>
      exact ⟨congrArg ProcSpace.state hempty, _, ⟨by simp, rfl, tf, pt, rfl, rfl,
        hcreated.space pt rfl⟩, hwork₆⟩

theorem ends_allocprocFrom (slots : List Slot) (hrest : kernel.AtRest total extra kernel₁) :
    ends (allocprocFrom slots) kernel₁ (kernel.Allocated total extra) Sane := by
  induction slots generalizing kernel₁ with
  | nil => exact hrest
  | cons p rest ih =>
    unfold allocprocFrom
    refine ends_seq (keeps_acquire _ _ hrest) fun _ kernel₂ hrest₂ => ?_
    rw [ends_bind, ends_read, ends_ite]
    split
    next hunused =>
      exact ends_allocprocFound hrest₂ hunused
    · exact ends_seq (keeps_release _ _ hrest₂) fun _ _ hrest₃ => ih hrest₃

theorem ends_allocproc (hspaces : kernel.Spaces total extra none) :
    ends allocproc kernel (kernel.Allocated total extra) Sane :=
  ends_allocprocFrom _ (.refl hspaces)

end Keeps

end CkptKernel
