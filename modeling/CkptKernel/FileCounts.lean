/-
The file table beside the pipes and the descriptors.  Each open end of a pipe is
one open file, and a pipe is gone once both ends are closed.  A file has a
reference for every descriptor on it.
-/
import CkptKernel.SafeCalls

namespace CkptKernel

open TableSum
open Function (update update_of_ne update_self)

/-- Whether a file is that end of pipe `pi`: the end for writing or the other. -/
def File.endOn (file : File) (pi : Frame) (writes : Bool) : Nat :=
  if file.type = .pipe ∧ file.pipe = pi ∧ decide (file.writable ≠ 0) = writes then 1 else 0

def openEnd (pipe : Option Pipe) (writes : Bool) : Nat :=
  pipe.elim 0 fun pipe => (if writes then pipe.writeopen else pipe.readopen).toNat

/-- The ends of pipes that are open are the files of type `FD_PIPE`. -/
structure PipesOk (file : FileRef → File) (pipe : Frame → Option Pipe) : Prop where
  closed : ∀ f, (file f).ref = 0 → (file f).type ≠ .pipe
  ends : ∀ pi writes, ∑ f, (file f).endOn pi writes = openEnd (pipe pi) writes
  live : ∀ pi, pipe pi ≠ some ⟨false, false⟩

abbrev Kernel.PipesOk (kernel : Kernel) : Prop := CkptKernel.PipesOk kernel.file kernel.pipe

structure Kernel.FilesClosed (kernel : Kernel) : Prop where
  ref : ∀ f, (kernel.file f).ref = 0
  type : ∀ f, (kernel.file f).type = .none
  ofile : ∀ p i, (kernel.proc p).ofile i = none

section Ends

variable {file : FileRef → File} {pipe : Frame → Option Pipe} {f g : FileRef}
  {pi : Frame} {writes : Bool} {new new' : File}

theorem File.endOn_of_ne (hplain : new.type ≠ .pipe) : new.endOn pi writes = 0 :=
  if_neg fun hend => hplain hend.1

theorem File.endOn_self (htype : new.type = .pipe) :
    new.endOn new.pipe (decide (new.writable ≠ 0)) = 1 := if_pos ⟨htype, rfl, rfl⟩

/-- A file that is open on that end. -/
structure File.IsEnd (file : File) (pi : Frame) (writes : Bool) : Prop where
  ref : file.ref ≠ 0
  type : file.type = .pipe
  pipe : file.pipe = pi
  flag : decide (file.writable ≠ 0) = writes

theorem File.IsEnd.endOn (hend : new.IsEnd pi writes) (pi' : Frame) (writes' : Bool) :
    new.endOn pi' writes' = if pi = pi' ∧ writes = writes' then 1 else 0 := by
  simp only [File.endOn, hend.type, hend.pipe, hend.flag, true_and]

theorem openEnd_le (pipe : Option Pipe) (writes : Bool) : openEnd pipe writes ≤ 1 := by
  cases pipe with
  | none => exact Nat.zero_le 1
  | some pipe => exact Bool.toNat_le _

theorem PipesOk.start (hfile : ∀ f, (file f).type = .none) (hpipe : ∀ pi, pipe pi = none) :
    PipesOk file pipe := by
  have hplain : ∀ f, (file f).type ≠ .pipe := fun f => by simp [hfile f]
  refine ⟨fun f _ => hplain f, fun pi writes => ?_, fun pi => by simp [hpipe pi]⟩
  rw [hpipe pi]
  exact Finset.sum_eq_zero fun f _ => File.endOn_of_ne (hplain f)

theorem closed_update (hold : ∀ f, (file f).ref = 0 → (file f).type ≠ .pipe)
    (hnew : new.ref = 0 → new.type ≠ .pipe) (g : FileRef) :
    (update file f new g).ref = 0 → (update file f new g).type ≠ .pipe := by
  by_cases heq : g = f
  · rwa [heq, update_self]
  · rw [update_of_ne heq]
    exact hold g

variable (hok : PipesOk file pipe)
include hok

/-- An entry is replaced by one that is the same end, or no end either. -/
theorem PipesOk.withFile (hends : ∀ pi writes, new.endOn pi writes = (file f).endOn pi writes)
    (hclosed : new.ref = 0 → new.type ≠ .pipe) : PipesOk (update file f new) pipe where
  closed := closed_update hok.closed hclosed
  ends pi writes := by
    have hsum := sum_update_add (fun file => File.endOn file pi writes) file f new
    have hold := hok.ends pi writes
    rw [hends] at hsum
    omega
  live := hok.live

theorem PipesOk.plain (hold : (file f).type ≠ .pipe) (hnew : new.type ≠ .pipe) :
    PipesOk (update file f new) pipe :=
  hok.withFile (fun _ _ => by rw [File.endOn_of_ne hold, File.endOn_of_ne hnew]) fun _ => hnew

/-- The file of one end is closed, and so is the end. -/
theorem PipesOk.close (htype : (file f).type = .pipe) (hnew : new.type ≠ .pipe) {left : Option Pipe}
    (hself : openEnd left (decide ((file f).writable ≠ 0)) = 0)
    (hother : openEnd left (!decide ((file f).writable ≠ 0)) =
      openEnd (pipe (file f).pipe) (!decide ((file f).writable ≠ 0)))
    (hlive : left ≠ some ⟨false, false⟩) :
    PipesOk (update file f new) (update pipe (file f).pipe left) where
  closed := closed_update hok.closed fun _ => hnew
  ends pi writes := by
    have hsum := sum_update_add (fun file => File.endOn file pi writes) file f new
    have hold := hok.ends pi writes
    rw [File.endOn_of_ne hnew] at hsum
    by_cases hpi : pi = (file f).pipe
    · subst hpi
      rw [update_self]
      by_cases hend : writes = decide ((file f).writable ≠ 0)
      · subst hend
        have hle := openEnd_le (pipe (file f).pipe) (decide ((file f).writable ≠ 0))
        rw [File.endOn_self htype] at hsum
        omega
      · have hnot : (file f).endOn (file f).pipe writes = 0 := if_neg fun h => hend h.2.2.symm
        rw [(Bool.eq_not_of_ne hend)] at hold hsum hnot ⊢
        omega
    · have hnot : (file f).endOn pi writes = 0 := if_neg fun h => hpi h.2.1.symm
      rw [update_of_ne hpi]
      omega
  live := (Function.forall_update_iff pipe fun _ left => left ≠ some ⟨false, false⟩).mpr
    ⟨hlive, fun pi _ => hok.live pi⟩

/-- A new pipe, with a file for each end. -/
theorem PipesOk.open (hne : g ≠ f) (hf : (file f).type ≠ .pipe) (hg : (file g).type ≠ .pipe)
    (hfree : pipe pi = none) (hread : new.IsEnd pi false) (hwrite : new'.IsEnd pi true) :
    PipesOk (update (update file f new) g new') (update pipe pi (some ⟨true, true⟩)) where
  closed := closed_update (closed_update hok.closed fun hzero => (hread.ref hzero).elim)
    fun hzero => (hwrite.ref hzero).elim
  ends pi' writes := by
    have hfirst := sum_update_add (fun file => File.endOn file pi' writes) file f new
    have hnext := sum_update_add (fun file => File.endOn file pi' writes) (update file f new) g new'
    have hold := hok.ends pi' writes
    rw [File.endOn_of_ne hf, hread.endOn] at hfirst
    rw [update_of_ne hne, File.endOn_of_ne hg, hwrite.endOn] at hnext
    by_cases hpi : pi' = pi
    · subst hpi
      have hnone : openEnd none writes = 0 := rfl
      have hone : openEnd (some ⟨true, true⟩) writes = 1 := by cases writes <;> rfl
      rw [hfree, hnone] at hold
      rw [update_self, hone]
      cases writes <;> simp only [true_and, reduceCtorEq, if_true, if_false] at hfirst hnext <;>
        omega
    · simp only [Ne.symm hpi, false_and, if_false] at hfirst hnext
      rw [update_of_ne hpi]
      omega
  live := (Function.forall_update_iff pipe fun _ left => left ≠ some ⟨false, false⟩).mpr
    ⟨by decide, fun pi _ => hok.live pi⟩

/-- Two files are not the same end. -/
theorem PipesOk.sole (hf : (file f).endOn pi writes = 1) (hg : (file g).endOn pi writes = 1) :
    f = g := by
  by_contra hne
  have hsum := add_le_sum (fun file => File.endOn file pi writes) file (Ne.symm hne)
  have hle := openEnd_le (pipe pi) writes
  rw [hok.ends] at hsum
  omega

/-- The pipes that have not been freed are those with an open file. -/
theorem PipesOk.isSome_iff (pi : Frame) : (pipe pi).isSome ↔
    ∃ f, 0 < (file f).ref ∧ (file f).type = .pipe ∧ (file f).pipe = pi := by
  constructor
  · intro hsome
    obtain ⟨left, hleft⟩ := Option.isSome_iff_exists.mp hsome
    have hend : ∃ writes, 0 < openEnd (pipe pi) writes := by
      have hlive := hok.live pi
      rw [hleft] at hlive ⊢
      obtain ⟨_ | _, _ | _⟩ := left
      · exact (hlive rfl).elim
      · exact ⟨true, Nat.one_pos⟩
      · exact ⟨false, Nat.one_pos⟩
      · exact ⟨true, Nat.one_pos⟩
    obtain ⟨writes, hpos⟩ := hend
    rw [← hok.ends] at hpos
    obtain ⟨f, hf⟩ := @exists_pos_of_sum_pos _ _ _ (fun file => File.endOn file pi writes) file hpos
    unfold File.endOn at hf
    split at hf
    next hend =>
      exact ⟨f, Nat.pos_of_ne_zero fun hzero => hok.closed f hzero hend.1, hend.1, hend.2.1⟩
    next => cases hf
  · rintro ⟨f, _, htype, rfl⟩
    have hle := le_sum (fun new => File.endOn new (file f).pipe (decide ((file f).writable ≠ 0)))
      file f
    rw [File.endOn_self htype, hok.ends] at hle
    cases hpipe : pipe (file f).pipe with
    | none => simp [hpipe, openEnd] at hle
    | some _ => rfl

end Ends

/-! ### References and descriptors -/

/-- Whether an entry of a descriptor table is `f`. -/
def fdIs (entry : Option FileRef) (f : FileRef) : Nat := if entry = some f then 1 else 0

/-- How many descriptors a process has on `f`. -/
def Proc.fdsOn (proc : Proc) (f : FileRef) : Nat := ∑ i, fdIs (proc.ofile i) f

/-- How many references to `f` no descriptor accounts for. -/
def Kernel.slack (kernel : Kernel) (f : FileRef) : Int :=
  (kernel.file f).ref - (∑ p, (kernel.proc p).fdsOn f : Nat)

section Slack

variable {kernel : Kernel}

@[simp] theorem fdIs_none (f : FileRef) : fdIs none f = 0 := rfl

theorem Kernel.slack_congr {kernel' : Kernel} (hfile : kernel'.file = kernel.file)
    (hofile : ∀ p, (kernel'.proc p).ofile = (kernel.proc p).ofile) :
    kernel'.slack = kernel.slack := by
  funext f
  simp only [Kernel.slack, Proc.fdsOn, hfile, hofile]

theorem slack_withProc {p : Slot} {proc : Proc} (hofile : proc.ofile = (kernel.proc p).ofile) :
    (kernel.withProc p proc).slack = kernel.slack := by
  refine Kernel.slack_congr rfl fun q => ?_
  by_cases heq : q = p
  · rw [heq, withProc_self, hofile]
  · rw [withProc_of_ne heq]

theorem slack_withFile {g : FileRef} {file : File} {gain : Int}
    (href : (file.ref : Int) = (kernel.file g).ref + gain) (f : FileRef) :
    (kernel.withFile g file).slack f = kernel.slack f + gain * fdIs (some g) f := by
  unfold Kernel.slack fdIs
  change (((kernel.withFile g file).file f).ref : Int) - (∑ p, (kernel.proc p).fdsOn f : Nat) = _
  by_cases heq : g = f
  · subst heq
    rw [withFile_self, href, if_pos rfl]
    ring
  · rw [withFile_of_ne (Ne.symm heq), if_neg fun h => heq (Option.some.inj h)]
    ring

theorem slack_withOfile (p : Slot) (i : Fin NOFILE) (entry : Option FileRef) (f : FileRef) :
    (kernel.withOfile p i entry).slack f =
      kernel.slack f + fdIs ((kernel.proc p).ofile i) f - fdIs entry f := by
  have hfds := sum_update_add (fun entry => fdIs entry f) (kernel.proc p).ofile i entry
  have hsum := sum_update_add (fun proc => Proc.fdsOn proc f) kernel.proc p
    { kernel.proc p with ofile := update (kernel.proc p).ofile i entry }
  unfold Kernel.slack
  unfold Kernel.withOfile Kernel.withProc
  dsimp only at hsum ⊢
  unfold Proc.fdsOn at hsum ⊢
  dsimp only at hsum ⊢
  omega

theorem withOfile_ofile {np : Slot} {i : Fin NOFILE} (entry : Option FileRef) :
    ((kernel.withOfile np i entry).proc np).ofile = update (kernel.proc np).ofile i entry := by
  rw [Kernel.withOfile, withProc_self]

end Slack

end CkptKernel
