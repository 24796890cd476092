/-
Which descriptors of a restored process share an open file.  Each descriptor
gets a file of its own, so what descriptors of the checkpointed process shared,
an offset, is no longer shared.
-/
import CkptKernel.DescriptorCalls
import CkptKernel.RestoreFiles
import CkptKernel.RestoreMemory

namespace CkptKernel

open ByteMem Code Descriptors Machine

section RoundTrip

variable {total total' : Pool} {extra extra' : Frame → Int}
  {p cur np : Slot} {path : Name} {stack : Bytes}
  {kernel kernel₁ kernel₂ kernel₃ : Kernel} {pt : PageTable} {inum pid : Nat}
  {capture : Capture} {hdr : CkptHeader} {i : Fin NOFILE} {f : FileRef}

/-- A descriptor that was free is free. -/
theorem Kernel.Rebuilt.free (hrebuilt : kernel₃.Rebuilt hdr np)
    (hsaved : kernel.SavedFds p capture) (hfds : hdr.fds = capture.fds)
    (hfree : (kernel.proc p).ofile i = none) : (kernel₃.proc np).ofile i = none := by
  have hentry := hsaved.closed i hfree
  rw [← hfds] at hentry
  refine hrebuilt.closed i ?_ ?_
  · rintro (hon | hon) <;> rw [hentry] at hon <;> cases hon
  · rw [hentry]
    decide

theorem Kernel.SavedFds.onInode (hsaved : kernel.SavedFds p capture)
    (hfds : hdr.fds = capture.fds) (hopen : (kernel.proc p).ofile i = some f)
    (htype : (kernel.file f).type = .inode) : (hdr.fds i).OnInode := by
  have hkind := (hsaved.opened i f hopen).type.1
  rw [htype] at hkind
  rw [hfds]
  exact Or.inl hkind

section

variable (hrebuilt : kernel₃.Rebuilt hdr np) (hsaved : kernel.SavedFds p capture)
  (hfds : hdr.fds = capture.fds)
include hrebuilt hsaved hfds

/-- A descriptor that was open on an inode is open on that inode, as it was. -/
theorem Kernel.Rebuilt.onInode (hopen : (kernel.proc p).ofile i = some f)
    (htype : (kernel.file f).type = .inode) :
    ∃ g, (kernel₃.proc np).ofile i = some g ∧ (kernel₃.file g).type = .inode ∧
      (kernel₃.fdTable np).attr g = (kernel.fdTable p).attr f ∧
      (kernel₃.file g).off = (kernel.file f).off := by
  have hentry := hsaved.opened i f hopen
  unfold SavedAs at hentry
  rw [htype, ← hfds] at hentry
  obtain ⟨g, hg, hfile⟩ := hrebuilt.opened i (hsaved.onInode hfds hopen htype)
  rw [hentry] at hfile
  refine ⟨g, hg, hfile.type, ?_, ?_⟩
  · simp only [Kernel.fdTable, FdAttr.mk.injEq]
    exact ⟨hfile.readable, hfile.writable, hfile.inum⟩
  · rw [hfile.off]
    exact UInt32.ofNat_toNat

/-- A descriptor of another kind is of another kind. -/
theorem Kernel.Rebuilt.offInode (hopen : (kernel.proc p).ofile i = some f)
    (htype : (kernel.file f).type ≠ .inode) :
    ∃ g, (kernel₃.proc np).ofile i = some g ∧ (kernel₃.file g).type ≠ .inode := by
  have hentry := hsaved.opened i f hopen
  obtain ⟨hkind, hnone⟩ := hentry.type
  rw [← hfds] at hkind
  cases hfile : (kernel.file f).type with
  | none => exact absurd hfile hnone
  | inode => exact absurd hfile htype
  | device =>
    rw [hfile] at hkind
    obtain ⟨g, hg, hmade⟩ := hrebuilt.opened i (Or.inr hkind)
    have hnot : ¬ FileType.toNat .device = FD_INODE := by decide
    refine ⟨g, hg, ?_⟩
    rw [hmade.type, hkind, if_neg hnot]
    decide
  | pipe =>
    rw [hfile] at hkind
    obtain ⟨g, hg, hmade⟩ := hrebuilt.pipe i hkind
    refine ⟨g, hg, ?_⟩
    rw [hmade]
    decide

/-- Entry by entry the restored table is the saved one. -/
theorem Kernel.Rebuilt.matches : (kernel.fdTable p).Matches (kernel₃.fdTable np) := by
  -- what a descriptor of the one table is in the other
  have hback : ∀ i g, (kernel₃.proc np).ofile i = some g → ∃ f, (kernel.proc p).ofile i = some f ∧
        ((kernel₃.file g).type = .inode ↔ (kernel.file f).type = .inode) := by
    intro i g hg
    cases hopen : (kernel.proc p).ofile i with
    | none =>
      rw [hrebuilt.free hsaved hfds hopen] at hg
      cases hg
    | some f =>
      refine ⟨f, rfl, ?_⟩
      by_cases htype : (kernel.file f).type = .inode
      · obtain ⟨g', hg', htype', _⟩ := hrebuilt.onInode hsaved hfds hopen htype
        rw [hg] at hg'
        cases hg'
        exact ⟨fun _ => htype, fun _ => htype'⟩
      · obtain ⟨g', hg', htype'⟩ := hrebuilt.offInode hsaved hfds hopen htype
        rw [hg] at hg'
        cases hg'
        exact ⟨fun h => absurd h htype', fun h => absurd h htype⟩
  have hopened : ∀ i f g, (kernel.fdTable p).slot i = some (some f) →
      (kernel₃.fdTable np).slot i = some (some g) →
      (kernel₃.fdTable np).attr g = (kernel.fdTable p).attr f ∧
        (kernel₃.file g).off = (kernel.file f).off := by
    intro i f g hslot hslot'
    obtain ⟨hopen, htype⟩ := fdTable_slot_open.mp hslot
    obtain ⟨g', hg', _, hattr, hoff⟩ := hrebuilt.onInode hsaved hfds hopen htype
    rw [(fdTable_slot_open.mp hslot').1] at hg'
    cases hg'
    exact ⟨hattr, hoff⟩
  refine ⟨fun i => ?_, fun i => ?_, fun i f g h h' => (hopened i f g h h').1,
    fun i f g h h' => (hopened i f g h h').2⟩
  · rw [fdTable_slot_free, fdTable_slot_free]
    refine ⟨hrebuilt.free hsaved hfds, fun hfree => ?_⟩
    cases hopen : (kernel.proc p).ofile i with
    | none => rfl
    | some f =>
      by_cases htype : (kernel.file f).type = .inode
      · obtain ⟨g, hg, _⟩ := hrebuilt.onInode hsaved hfds hopen htype
        rw [hfree] at hg
        cases hg
      · obtain ⟨g, hg, _⟩ := hrebuilt.offInode hsaved hfds hopen htype
        rw [hfree] at hg
        cases hg
  · rw [fdTable_slot_plain, fdTable_slot_plain]
    constructor
    · rintro ⟨f, hopen, htype⟩
      exact hrebuilt.offInode hsaved hfds hopen htype
    · rintro ⟨g, hg, htype⟩
      obtain ⟨f, hopen, hkind⟩ := hback i g hg
      exact ⟨f, hopen, fun h => htype (hkind.mpr h)⟩

end

/-- Two descriptors of `np` in `kernel'` are one open file exactly if they were
one in process `p` of `kernel`. -/
def SameSharing (kernel : Kernel) (p : Slot) (kernel' : Kernel) (np : Slot) : Prop :=
  ∀ i j f g, (kernel.proc p).ofile i = some f → (kernel.proc p).ofile j = some g →
    (kernel.file f).type = .inode → (kernel.file g).type = .inode →
    ((kernel'.proc np).ofile i = (kernel'.proc np).ofile j ↔ f = g)

/-- No two descriptors of `p` are the same open file on an inode. -/
def Kernel.Unshared (kernel : Kernel) (p : Slot) : Prop :=
  ∀ i j f, (kernel.proc p).ofile i = some f → (kernel.proc p).ofile j = some f →
    (kernel.file f).type = .inode → i = j

/-- Every sequence of transfers, `dup` and `close` calls is answered alike,
whatever a transfer does with the inode and the offset. -/
def SameAnswers (kernel : Kernel) (p : Slot) (kernel' : Kernel) (np : Slot) : Prop :=
  ∀ (Req Resp World : Type) (io : Transfer FdAttr UInt32 Req Resp World)
    (world : World) (calls : List (Descriptors.Call (Fin NOFILE) Req)),
    answers io (List.finRange NOFILE) (kernel'.fdTable np) world calls =
      answers io (List.finRange NOFILE) (kernel.fdTable p) world calls

section

variable (hrebuilt : kernel₃.Rebuilt hdr np) (hsaved : kernel.SavedFds p capture)
  (hfds : hdr.fds = capture.fds)
include hrebuilt hsaved hfds

/-- Each descriptor of a restored process has a file of its own. -/
theorem Kernel.Rebuilt.sameSharing_iff : SameSharing kernel p kernel₃ np ↔ kernel.Unshared p := by
  constructor
  · intro hsame i j f hi hj htype
    obtain ⟨g, hg, _⟩ := hrebuilt.onInode hsaved hfds hi htype
    have heq := (hsame i j f f hi hj htype htype).mpr rfl
    exact hrebuilt.alone i j g (hsaved.onInode hfds hi htype) (hsaved.onInode hfds hj htype)
      hg (heq ▸ hg)
  · intro halone i j f g hi hj htype htype'
    obtain ⟨f', hf', _⟩ := hrebuilt.onInode hsaved hfds hi htype
    constructor
    · intro heq
      have hij := hrebuilt.alone i j f' (hsaved.onInode hfds hi htype)
        (hsaved.onInode hfds hj htype') hf' (heq ▸ hf')
      rw [hij, hj] at hi
      exact (Option.some.inj hi).symm
    · rintro rfl
      rw [halone i j f hi hj htype]

/-- The same, of the tables. -/
theorem Kernel.Rebuilt.sharesLike_iff :
    (kernel.fdTable p).SharesLike (kernel₃.fdTable np) ↔ kernel.Unshared p := by
  rw [← hrebuilt.sameSharing_iff hsaved hfds]
  constructor
  · intro hshare i j f g hi hj htype htype'
    obtain ⟨f', hf', hkind, _⟩ := hrebuilt.onInode hsaved hfds hi htype
    obtain ⟨g', hg', hkind', _⟩ := hrebuilt.onInode hsaved hfds hj htype'
    rw [hf', hg', Option.some.injEq]
    exact (hshare i j f g f' g' (fdTable_slot_open.mpr ⟨hi, htype⟩)
      (fdTable_slot_open.mpr ⟨hj, htype'⟩) (fdTable_slot_open.mpr ⟨hf', hkind⟩)
      (fdTable_slot_open.mpr ⟨hg', hkind'⟩)).symm
  · intro hsame i j f g f' g' hi hj hi' hj'
    obtain ⟨hi, htype⟩ := fdTable_slot_open.mp hi
    obtain ⟨hj, htype'⟩ := fdTable_slot_open.mp hj
    have hiff := hsame i j f g hi hj htype htype'
    rw [(fdTable_slot_open.mp hi').1, (fdTable_slot_open.mp hj').1, Option.some.injEq] at hiff
    exact hiff.symm

theorem Kernel.Rebuilt.sameAnswers_iff : SameAnswers kernel p kernel₃ np ↔ kernel.Unshared p := by
  have hmatch := hrebuilt.matches hsaved hfds
  rw [← hrebuilt.sharesLike_iff hsaved hfds]
  constructor
  · intro hsame
    have hnext : ∀ off : UInt32, off + 1 ≠ off := by
      intro off heq
      exact absurd (add_eq_left.mp heq) (by decide)
    exact sharesLike_of_answers (List.finRange NOFILE) hmatch hnext
      fun calls => hsame Unit UInt32 Unit _ () calls
  · intro hshare Req Resp World io world calls
    exact answers_eq io (List.finRange NOFILE) calls world hmatch hshare

end

/-- Restore keeps the sharing of open files, and the answers to later calls,
exactly if nothing was shared. -/
theorem restore_sharing_iff (hrunning : kernel.Running p pt)
    (hinodes : kernel.fs.sb.ninodes ≤ 2 ^ 32)
    (hckpt : checkpointProc p path stack kernel = .ok (true, kernel₁))
    (hkept : CkptKept kernel kernel₁ kernel₂ p cur path inum)
    (hfs : kernel₂.FsOk) (hspaces₂ : kernel₂.Spaces total' extra' none)
    (htotal : ∀ f, total' f ≤ 1) (hextra : ∀ f, 0 ≤ extra' f)
    (hrestore : restoreProc cur path kernel₂ = .ok (some pid, kernel₃)) :
    ∃ np, (kernel₂.proc np).state = .UNUSED ∧ (kernel₃.proc np).pid = pid ∧
      (SameSharing kernel p kernel₃ np ↔ kernel.Unshared p) ∧
      (SameAnswers kernel p kernel₃ np ↔ kernel.Unshared p) := by
  obtain ⟨trace, hof⟩ := restoreProc_eq_some hrestore
  obtain ⟨capture, hrereads⟩ := hof.rereads hrunning hckpt hkept hfs
  have hsaved := captureFds_saved hrereads.captured
  have hfds : trace.hdr.fds = capture.fds :=
    getHeader_fds (hsaved.fits hrunning.fs hrunning.fds hinodes) stack hrereads.header
  obtain ⟨tf, hmapped⟩ := hof.mapped hfs hspaces₂ ⟨htotal, hextra⟩
  have hrebuilt := hof.rebuilt hfs
  exact ⟨trace.np, hmapped.unused, hmapped.pid,
    hrebuilt.sameSharing_iff hsaved hfds, hrebuilt.sameAnswers_iff hsaved hfds⟩

/-- The first process opens the file `c` twice and grows by a page. -/
def twoOpens : List (Slot × Trap) :=
  [(initproc, .syscall (.sysOpen [99] O_RDWR)), (initproc, .syscall (.sysOpen [99] O_RDWR)),
    (initproc, .sbrk 4096 SBRK_LAZY)]

theorem restore_sharing_two : ∃ first kernel kernel₁ kernel₃ pid np f g,
    started wideKernel = some first ∧ run trapStep first twoOpens = some kernel ∧
    (kernel.proc initproc).ofile ⟨0, by decide⟩ = some f ∧ (kernel.file f).type = .inode ∧
    (kernel.proc initproc).ofile ⟨1, by decide⟩ = some g ∧ (kernel.file g).type = .inode ∧
    f ≠ g ∧ checkpointProc initproc [99, 107] (fun _ => 0) kernel = .ok (true, kernel₁) ∧
    restoreProc initproc [99, 107] kernel₁ = .ok (some pid, kernel₃) ∧
    (kernel₃.proc np).pid = pid ∧ SameSharing kernel initproc kernel₃ np ∧
    SameAnswers kernel initproc kernel₃ np := by
  have hseen : ∃ first ∈ started wideKernel, RunMeets trapStep GrowsBelow first twoOpens ∧
      RunMeets trapStep (TrapsPresent False) first twoOpens ∧
      ∃ kernel ∈ run trapStep first twoOpens,
        (∃ f ∈ (kernel.proc initproc).ofile ⟨0, by decide⟩, (kernel.file f).type = .inode ∧
          ∃ g ∈ (kernel.proc initproc).ofile ⟨1, by decide⟩, (kernel.file g).type = .inode ∧
            f ≠ g) ∧
        (∀ i, ∀ f ∈ (kernel.proc initproc).ofile i, 0 < (kernel.file f).ref ∧
          ∀ j, (kernel.proc initproc).ofile j = some f → i = j) ∧
        (kernel.proc initproc).pagetable.isSome ∧ kernel.fs.sb.ninodes ≤ 2 ^ 32 ∧
        kernel.RoundTrips initproc [99, 107] := by
    decide +kernel
  obtain ⟨first, hstart, hgrows, hpresent, kernel, hrun, ⟨f, hf, hf', g, hg, hg', hne⟩, hfds, hpt,
    hinodes, htrips⟩ := hseen
  obtain ⟨hsafe, hspaces⟩ := wideKernel_run hstart hgrows hpresent hrun
  obtain ⟨pt, hpt⟩ := Option.isSome_iff_exists.mp hpt
  obtain ⟨inum, kernel₁, pid, kernel₃, hckpt, hkept, hfs₁, hspaces₁, hrestore⟩ :=
    htrips.kept hsafe hspaces
  have hrunning : kernel.Running initproc pt :=
    ⟨hsafe.fsOk, fun i f hopen => (hfds i f hopen).1, hpt⟩
  obtain ⟨np, _, hpid, hsharing, hanswers⟩ := restore_sharing_iff hrunning hinodes hckpt hkept
    hfs₁ hspaces₁ (poolOf_le wideKernel_spaces.frames) (takenBy_nonneg []) hrestore
  have hunshared : kernel.Unshared initproc := fun i j f hi hj _ => (hfds i f hi).2 j hj
  exact ⟨first, kernel, kernel₁, kernel₃, pid, np, f, g, hstart, hrun, hf, hf', hg, hg', hne,
    hckpt, hrestore, hpid, hsharing.mpr hunshared, hanswers.mpr hunshared⟩

/-- The first process opens the file `c`, dups the descriptor and grows by a
page. -/
def dupped : List (Slot × Trap) :=
  [(initproc, .syscall (.sysOpen [99] O_RDWR)),
    (initproc, .syscall (.sysDup 0)), (initproc, .sbrk 4096 SBRK_LAZY)]

/-- The offset that descriptor 1 sees after one byte is written through
descriptor 0. -/
def offAfterWrite (p : Slot) (kernel : Kernel) : Option UInt32 :=
  (outcome (fun _ kernel' => kernel')
    (sysWrite p 0 (fun _ => .kernel (fun _ => 65)) 1 0 kernel)).bind
    (fun kernel' => ((kernel'.proc p).ofile ⟨1, by decide⟩).map
      (fun f => (kernel'.file f).off))

/-- In the restored process the two descriptors have offsets of their own. -/
theorem restore_splits_dup : ∃ first kernel kernel₁ kernel₃ pid f g g',
    started wideKernel = some first ∧ run trapStep first dupped = some kernel ∧
    (kernel.proc initproc).ofile ⟨0, by decide⟩ = some f ∧
    (kernel.proc initproc).ofile ⟨1, by decide⟩ = some f ∧ (kernel.file f).type = .inode ∧
    checkpointProc initproc [99, 107] (fun _ => 0) kernel = .ok (true, kernel₁) ∧
    restoreProc initproc [99, 107] kernel₁ = .ok (some pid, kernel₃) ∧
    (kernel₃.proc secondProc).pid = pid ∧ (kernel₃.proc secondProc).ofile ⟨0, by decide⟩ = some g ∧
    (kernel₃.proc secondProc).ofile ⟨1, by decide⟩ = some g' ∧ g ≠ g' ∧
    offAfterWrite initproc kernel₃ = some 1 ∧ offAfterWrite secondProc kernel₃ = some 0 := by
  have hseen : ∃ first ∈ started wideKernel, ∃ kernel ∈ run trapStep first dupped,
      (kernel.proc initproc).ofile ⟨0, by decide⟩ = some 0 ∧
      (kernel.proc initproc).ofile ⟨1, by decide⟩ = some 0 ∧ (kernel.file 0).type = .inode ∧
      kernel.RestoresTo fun kernel₃ => (kernel₃.proc secondProc).ofile ⟨0, by decide⟩ = some 1 ∧
        (kernel₃.proc secondProc).ofile ⟨1, by decide⟩ = some 2 ∧
        offAfterWrite initproc kernel₃ = some 1 ∧ offAfterWrite secondProc kernel₃ = some 0 := by
    decide +kernel
  obtain ⟨first, hstart, kernel, hrun, hopen, hdup, htype, _, kernel₁, hckpt, rfl, _, kernel₃,
    hrestore, rfl, hg, hg', hmoved, hstayed⟩ := hseen
  exact ⟨first, kernel, kernel₁, kernel₃, _, 0, 1, 2, hstart, hrun, hopen, hdup, htype, hckpt,
    hrestore, rfl, hg, hg', by decide, hmoved, hstayed⟩

end RoundTrip

end CkptKernel
