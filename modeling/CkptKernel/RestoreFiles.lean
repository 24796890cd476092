/-
The descriptor table that `restore_proc` builds: each saved entry of an inode or
a device gets an open file of its own, each saved pipe end one of a new pipe.
-/
import CkptKernel.CaptureTable
import CkptKernel.RestoreRun

namespace CkptKernel

open ByteMem Code
open List (mem_append mem_finRange mem_singleton not_mem_nil)

/-- References to inodes that are held stay what they are. -/
def Fs.KeepsInums (fs fs' : Fs) : Prop :=
  ∀ e, 0 < (fs.inode e).ref → (fs'.inode e).inum = (fs.inode e).inum ∧ 0 < (fs'.inode e).ref

theorem iget_keepsInums {fs fs' : Fs} {inum : Nat} {ip : InodeRef}
    (hrun : iget inum fs = .ok (ip, fs')) : fs.KeepsInums fs' := by
  intro e hpos
  rcases iget_cases hrun with ⟨_, _, rfl⟩ | ⟨hzero, _, rfl⟩
  · by_cases heq : e = ip
    · subst heq
      rw [withInode_self]
      exact ⟨rfl, by dsimp only; omega⟩
    · rw [withInode_of_ne _ _ _ heq]
      exact ⟨rfl, hpos⟩
  · have hne : e ≠ ip := by
      rintro rfl
      omega
    rw [withInode_of_ne _ _ _ hne]
    exact ⟨rfl, hpos⟩

/-- The file that stands for the saved entry of an inode or a device. -/
structure CkptFd.Reopened (fd : CkptFd) (fs : Fs) (file : File) : Prop where
  ref : 0 < file.ref
  type : file.type = if fd.type = FD_INODE then .inode else .device
  readable : file.readable = fd.readable
  writable : file.writable = fd.writable
  off : file.off = UInt32.ofNat fd.off
  major : file.major = fd.major
  inum : (fs.inode file.ip).inum = fd.inum

/-- That file while the table is built; nothing drops its reference. -/
structure CkptFd.Opened (fd : CkptFd) (fs : Fs) (file : File) : Prop
    extends fd.Reopened fs file where
  held : 0 < (fs.inode file.ip).ref

theorem CkptFd.Opened.keep {fd : CkptFd} {fs fs' : Fs} {file : File}
    (hopened : fd.Opened fs file) (hkeeps : fs.KeepsInums fs') : fd.Opened fs' file := by
  obtain ⟨hinum, hpos⟩ := hkeeps _ hopened.held
  exact { hopened with held := hpos, inum := hinum.trans hopened.inum }

/-- What an entry has become.  A pipe end may still be missing. -/
def CkptFd.Made (fd : CkptFd) (kernel : Kernel) : Option FileRef → Prop
  | none => ¬ fd.OnInode
  | some f => (fd.OnInode ∧ fd.Opened kernel.fs (kernel.file f)) ∨
      (fd.type = FD_PIPE ∧ 0 < (kernel.file f).ref ∧ (kernel.file f).type = .pipe)

/-- Open files stay what they are, and so do the inodes that are held. -/
structure Kernel.KeepsOpen (kernel kernel' : Kernel) : Prop where
  ok : kernel'.fs.Ok
  fs : kernel.fs.KeepsInums kernel'.fs
  file : ∀ f, 0 < (kernel.file f).ref → kernel'.file f = kernel.file f

section Entries

variable {kernel kernel' : Kernel} {fd : CkptFd} {f : FileRef} {entry : Option FileRef}

theorem CkptFd.Made.ref (hmade : fd.Made kernel (some f)) : 0 < (kernel.file f).ref := by
  rcases hmade with ⟨_, hopened⟩ | ⟨_, href, _⟩
  · exact hopened.ref
  · exact href

theorem CkptFd.Made.keep (hmade : fd.Made kernel entry) (hkeeps : kernel.KeepsOpen kernel') :
    fd.Made kernel' entry := by
  cases entry with
  | none => exact hmade
  | some f =>
    have hfile := hkeeps.file f hmade.ref
    simp only [CkptFd.Made, hfile] at hmade ⊢
    exact hmade.imp_left fun hon => ⟨hon.1, hon.2.keep hkeeps.fs⟩

theorem Kernel.keepsOpen_withOfile (hok : kernel.fs.Ok) (np : Slot) (i : Fin NOFILE) :
    kernel.KeepsOpen (kernel.withOfile np i entry) :=
  ⟨hok, fun _ hpos => ⟨rfl, hpos⟩, fun _ _ => rfl⟩

theorem CkptFd.OnInode.not_pipe (hon : fd.OnInode) : fd.type ≠ FD_PIPE := by
  rcases hon with hon | hon <;> rw [hon] <;> decide

end Entries

/-- The table when the entries `done` have been dealt with. -/
structure TableMade (np : Slot) (hdr : CkptHeader) (done : List (Fin NOFILE))
    (kernel : Kernel) : Prop where
  ok : kernel.fs.Ok
  made : ∀ i ∈ done, (hdr.fds i).Made kernel ((kernel.proc np).ofile i)
  alone : ∀ i ∈ done, ∀ j ∈ done, ∀ f, (hdr.fds i).OnInode → (hdr.fds j).OnInode →
    (kernel.proc np).ofile i = some f → (kernel.proc np).ofile j = some f → i = j

section Loops

variable {kernel kernel' : Kernel} {np : Slot} {hdr : CkptHeader}
  {done : List (Fin NOFILE)} {i : Fin NOFILE}

theorem TableMade.keep (htable : TableMade np hdr done kernel) (hkeeps : kernel.KeepsOpen kernel')
    (hofile : (kernel'.proc np).ofile = (kernel.proc np).ofile) :
    TableMade np hdr done kernel' := by
  refine ⟨hkeeps.ok, ?_, ?_⟩
  · intro j hj
    rw [hofile]
    exact (htable.made j hj).keep hkeeps
  · rw [hofile]
    exact htable.alone

/-- One more entry, or one entry again.  The file of an inode was free before. -/
theorem TableMade.put (htable : TableMade np hdr done kernel)
    (hkeeps : kernel.KeepsOpen kernel') {entry : Option FileRef}
    (hofile : (kernel'.proc np).ofile = Function.update (kernel.proc np).ofile i entry)
    (hmade : (hdr.fds i).Made kernel' entry)
    (hnew : (hdr.fds i).OnInode → ∀ f, entry = some f → (kernel.file f).ref = 0)
    {done' : List (Fin NOFILE)} (hdone : ∀ j ∈ done', j = i ∨ j ∈ done) :
    TableMade np hdr done' kernel' := by
  have hself : (kernel'.proc np).ofile i = entry := by rw [hofile, Function.update_self]
  have hother : ∀ j, j ≠ i → (kernel'.proc np).ofile j = (kernel.proc np).ofile j :=
    fun j hne => by rw [hofile, Function.update_of_ne hne]
  -- the files of the other entries are open
  have hfresh : ∀ j ∈ done, ∀ f, j ≠ i → (hdr.fds i).OnInode → entry = some f →
      (kernel'.proc np).ofile j ≠ some f := by
    intro j hj f hne hon hentry hopen
    have hfile := htable.made j hj
    rw [hother j hne] at hopen
    rw [hopen] at hfile
    exact absurd (hnew hon f hentry) (Nat.pos_iff_ne_zero.mp hfile.ref)
  refine ⟨hkeeps.ok, ?_, ?_⟩
  · intro j hj
    by_cases heq : j = i
    · rw [heq, hself]
      exact hmade
    · rw [hother j heq]
      exact (htable.made j ((hdone j hj).resolve_left heq)).keep hkeeps
  · intro j hj k hk f honj honk hf hf'
    by_cases hji : j = i <;> by_cases hki : k = i
    · rw [hji, hki]
    · subst hji
      exact absurd hf' (hfresh k ((hdone k hk).resolve_left hki) f hki honj (hself.symm.trans hf))
    · subst hki
      exact absurd hf (hfresh j ((hdone j hj).resolve_left hji) f hji honk (hself.symm.trans hf'))
    · rw [hother j hji] at hf
      rw [hother k hki] at hf'
      exact htable.alone j ((hdone j hj).resolve_left hji) k
        ((hdone k hk).resolve_left hki) f honj honk hf hf'

/-- A loop over descriptors, with what has been done so far. -/
theorem wlp_eachFd_done {body : Fin NOFILE → Code Kernel Bool}
    {Inv : List (Fin NOFILE) → Kernel → Prop} (hbody : ∀ done i kernel, Inv done kernel →
      wlp (body i) kernel (fun ok kernel' => ok = true → Inv (done ++ [i]) kernel'))
    (fds : List (Fin NOFILE)) (hstart : Inv done kernel) :
    wlp (eachFd body fds) kernel (fun ok kernel' => ok = true → Inv (done ++ fds) kernel') := by
  induction fds generalizing done kernel with
  | nil =>
    rw [List.append_nil]
    exact (wlp_pure true).mpr fun _ => hstart
  | cons i rest ih =>
    rw [List.append_cons]
    unfold eachFd
    refine wlp_seq (hbody done i kernel hstart) fun ok kernel₁ hinv => ?_
    cases ok with
    | false => exact (wlp_pure false).mpr fun h => by cases h
    | true => exact ih (hinv rfl)

theorem wlp_restoreFd_made (htable : TableMade np hdr done kernel) :
    wlp (restoreFd np hdr i) kernel (fun ok kernel' => ok = true →
      TableMade np hdr (done ++ [i]) kernel') := by
  have hdone : ∀ j ∈ done ++ [i], j = i ∨ j ∈ done := by
    intro j hj
    exact (mem_append.mp hj).symm.imp_left mem_singleton.mp
  unfold restoreFd
  rw [wlp_bind, wlp_setOfile]
  dsimp only
  rw [wlp_ite]
  split
  next hnone =>
    have hoff : ¬ (hdr.fds i).OnInode := by
      rintro (hon | hon) <;> rw [hon] at hnone <;> exact absurd hnone (by decide)
    refine (wlp_pure _).mpr fun _ => ?_
    exact htable.put (kernel.keepsOpen_withOfile htable.ok np i)
      (withOfile_ofile none) hoff (fun hon => absurd hon hoff) hdone
  next =>
    refine wlp_seq wlp_filealloc ?_
    rintro found kernel₁ (⟨rfl, _⟩ | ⟨f, rfl, hfree, rfl⟩)
    · exact (wlp_pure _).mpr fun h => by cases h
    dsimp only
    rw [wlp_bind, wlp_setOfile, wlp_bind, wlp_setFile, wlp_ite]
    split
    next => exact (wlp_pure _).mpr fun h => by cases h
    next hon =>
      rw [not_and_or, not_not, not_not] at hon
      rw [wlp_bind, wlp_setFile, withFile_self, withFile_withFile, wlp_bind, wlp_inFs]
      intro ip fs higet
      rw [wlp_bind, wlp_setFile, wlp_pure]
      have higet : iget (hdr.fds i).inum kernel.fs = .ok (ip, fs) := higet
      have hfree : (kernel.file f).ref = 0 := hfree
      obtain ⟨hinum, href, hnn⟩ := iget_self higet
      have hheld : kernel.fs.Held 0 := fun e => htable.ok.ref e
      have hopened : (hdr.fds i).Opened fs ((kernel.file f).taken.restored (hdr.fds i) ip) :=
        ⟨⟨Nat.one_pos, rfl, rfl, rfl, rfl, rfl, hinum⟩, by
          change 0 < (fs.inode ip).ref
          omega⟩
      let final := ((kernel.withOfile np i (some f)).withFile f
        ((kernel.file f).taken.restored (hdr.fds i) ip)).withFs fs
      have hself : final.file f = (kernel.file f).taken.restored (hdr.fds i) ip :=
        withFile_self _
      have hkeeps : kernel.KeepsOpen final := by
        refine ⟨(iget_looks htable.ok hheld higet).ok, iget_keepsInums higet, fun g hpos => ?_⟩
        exact withFile_of_ne (fun heq => by rw [heq] at hpos; omega) _
      have hnext := htable.put hkeeps (withOfile_ofile (some f))
        (Or.inl ⟨hon, by rw [hself]; exact hopened⟩)
        (fun _ g hg => Option.some.inj hg ▸ hfree) hdone
      intro _
      simpa [final, Kernel.withFile, Kernel.withFs, Kernel.withOfile, Kernel.withProc,
        File.restored, File.taken] using hnext

theorem wlp_restoreCwd_made (htable : TableMade np hdr done kernel) :
    wlp (restoreCwd np hdr) kernel (fun _ => TableMade np hdr done) := by
  unfold restoreCwd
  rw [wlp_bind, wlp_setProc, wlp_bind, wlp_inFs]
  intro ip fs higet
  have higet : iget hdr.cwd kernel.fs = .ok (ip, fs) := higet
  have hheld : kernel.fs.Held 0 := fun e => htable.ok.ref e
  rw [wlp_setProc]
  refine htable.keep ⟨(iget_looks htable.ok hheld higet).ok, iget_keepsInums higet,
    fun _ _ => rfl⟩ ?_
  rw [withProc_self, withFs_proc, withProc_self]

/-- What `pipealloc` has done when it returns two files. -/
structure PipeMade (kernel kernel' : Kernel) (made : FileRef × FileRef) : Prop where
  ends : ∀ f, f = made.1 ∨ f = made.2 → 0 < (kernel'.file f).ref ∧ (kernel'.file f).type = .pipe
  others : ∀ f, 0 < (kernel.file f).ref → kernel'.file f = kernel.file f
  proc : kernel'.proc = kernel.proc
  fs : kernel'.fs = kernel.fs

theorem wlp_pipealloc_made : wlp pipealloc kernel (fun found kernel' =>
    ∀ made, found = some made → PipeMade kernel kernel' made) := by
  unfold pipealloc
  refine wlp_seq wlp_filealloc ?_
  rintro found kernel₁ (⟨rfl, _⟩ | ⟨f0, rfl, hfree0, rfl⟩)
  · exact (wlp_pure _).mpr fun _ h => by cases h
  dsimp only
  refine wlp_seq wlp_filealloc ?_
  rintro found kernel₂ (⟨rfl, _⟩ | ⟨f1, rfl, hfree1, rfl⟩)
  · simp only [wlp_bind, wlp_pure]
    exact fun _ _ _ _ h => by cases h
  dsimp only
  have hne : f1 ≠ f0 := by
    rintro rfl
    rw [withFile_self] at hfree1
    cases hfree1
  rw [withFile_of_ne hne] at hfree1
  rw [wlp_bind, wlp_inMem]
  intro pi mem _
  cases pi with
  | none =>
    simp only [wlp_bind, wlp_pure]
    exact fun _ _ _ _ _ _ _ h => by cases h
  | some pi =>
    dsimp only
    rw [wlp_bind]
    intro _ kernel₃ hpipe
    cases hpipe
    rw [wlp_bind, wlp_setFile, wlp_bind, wlp_setFile, wlp_pure]
    rintro _ ⟨⟩
    refine ⟨?_, ?_, rfl, rfl⟩
    · rintro f (rfl | rfl)
      · simp [Kernel.withFile, Function.update_of_ne hne.symm, File.taken]
      · simp [Kernel.withFile, Function.update_of_ne hne, File.taken]
    · intro f hpos
      have hne0 : f ≠ f0 := by rintro rfl; omega
      have hne1 : f ≠ f1 := by rintro rfl; omega
      simp [Kernel.withFile, Function.update_of_ne hne0, Function.update_of_ne hne1]

theorem pipeEnd_mem {fd : CkptFd} {made : FileRef × FileRef} {f : FileRef}
    (hend : fd.pipeEnd made = some f) : f = made.1 ∨ f = made.2 := by
  unfold CkptFd.pipeEnd at hend
  split at hend
  · exact Or.inl (Option.some.inj hend).symm
  · split at hend
    · exact Or.inr (Option.some.inj hend).symm
    · cases hend

/-- A descriptor becomes an end of the new pipe. -/
theorem TableMade.putPipe (htable : TableMade np hdr (List.finRange NOFILE) kernel)
    (htype : (hdr.fds i).type = FD_PIPE) {f : FileRef}
    (hend : 0 < (kernel.file f).ref ∧ (kernel.file f).type = .pipe) :
    TableMade np hdr (List.finRange NOFILE) (kernel.withOfile np i (some f)) :=
  htable.put (kernel.keepsOpen_withOfile htable.ok np i) (withOfile_ofile (some f))
    (Or.inr ⟨htype, hend⟩) (fun hon => absurd htype hon.not_pipe) fun j _ => Or.inr (mem_finRange j)

/-- The whole table, and no pipe end of `done` is missing. -/
def PipesSet (np : Slot) (hdr : CkptHeader) (done : List (Fin NOFILE)) (kernel : Kernel) : Prop :=
  TableMade np hdr (List.finRange NOFILE) kernel ∧
    ∀ i ∈ done, (hdr.fds i).type = FD_PIPE → (kernel.proc np).ofile i ≠ none

/-- A new descriptor does not make another go away. -/
theorem withOfile_ne_none {j : Fin NOFILE} {f : FileRef}
    (hopen : j = i ∨ (kernel.proc np).ofile j ≠ none) :
    ((kernel.withOfile np i (some f)).proc np).ofile j ≠ none := by
  rw [withOfile_ofile]
  by_cases heq : j = i
  · rw [heq, Function.update_self]
    simp
  · rw [Function.update_of_ne heq]
    exact hopen.resolve_left heq

theorem wlp_restorePipe_made (hset : PipesSet np hdr done kernel) :
    wlp (restorePipe np hdr i) kernel (fun ok kernel' => ok = true →
      PipesSet np hdr (done ++ [i]) kernel') := by
  obtain ⟨htable, hset⟩ := hset
  unfold restorePipe
  rw [wlp_bind, wlp_read, wlp_ite]
  split
  next hskip =>
    refine (wlp_pure _).mpr fun _ => ⟨htable, fun j hj htype => ?_⟩
    rcases mem_append.mp hj with hj | hj
    · exact hset j hj htype
    · rw [mem_singleton.mp hj] at htype ⊢
      exact hskip.resolve_left (not_not.mpr htype)
  next hgo =>
    rw [not_or, not_not, not_not] at hgo
    cases hpair : pairOf hdr (kernel.proc np).ofile i with
    | none => exact (wlp_pure _).mpr fun h => by cases h
    | some j =>
      have hfound := hpair
      unfold pairOf at hfound
      have hfound := List.find?_some hfound
      rw [decide_eq_true_eq] at hfound
      dsimp only
      refine wlp_seq wlp_pipealloc_made fun found kernel₁ hfound' => ?_
      cases found with
      | none => exact (wlp_pure _).mpr fun h => by cases h
      | some made =>
        have hmade := hfound' made rfl
        have htable₁ := htable.keep ⟨by rw [hmade.fs]; exact htable.ok,
          fun _ hpos => by rw [hmade.fs]; exact ⟨rfl, hpos⟩, hmade.others⟩ (by rw [hmade.proc])
        dsimp only
        cases hfi : (hdr.fds i).pipeEnd made with
        | none =>
          simp only [wlp_bind, wlp_pure]
          exact fun _ _ _ _ _ _ h => by cases h
        | some fi =>
          dsimp only
          rw [wlp_bind, wlp_setOfile]
          cases hfj : (hdr.fds j).pipeEnd made with
          | none =>
            simp only [wlp_bind, wlp_pure]
            exact fun _ _ _ _ _ _ _ _ _ h => by cases h
          | some fj =>
            dsimp only
            rw [wlp_bind, wlp_setOfile, wlp_pure]
            have htable₂ := htable₁.putPipe hgo.1 (hmade.ends fi (pipeEnd_mem hfi))
            refine fun _ => ⟨htable₂.putPipe hfound.2.1 (hmade.ends fj (pipeEnd_mem hfj)), ?_⟩
            intro k hk htype
            refine withOfile_ne_none (Or.inr (withOfile_ne_none ?_))
            rcases mem_append.mp hk with hk | hk
            · rw [hmade.proc]
              exact Or.inr (hset k hk htype)
            · exact Or.inl (mem_singleton.mp hk)

/-- The descriptor table when both loops are through. -/
theorem wlp_restoreFiles_made (hok : kernel.fs.Ok) :
    wlp (restoreFiles np hdr) kernel (fun ok kernel' => ok = true →
      PipesSet np hdr (List.finRange NOFILE) kernel') := by
  have hstart : TableMade np hdr [] kernel :=
    ⟨hok, fun i hi => absurd hi not_mem_nil, fun i hi => absurd hi not_mem_nil⟩
  unfold restoreFiles
  rw [wlp_bind]
  refine wlp_mono (@wlp_eachFd_done kernel [] (restoreFd np hdr) (TableMade np hdr)
    (fun _ _ _ hinv => wlp_restoreFd_made hinv) (List.finRange NOFILE) hstart) ?_
  intro ok kernel₁ htable
  cases ok with
  | false => exact (wlp_pure false).mpr fun h => by cases h
  | true =>
    refine wlp_seq (wlp_restoreCwd_made (htable rfl)) fun _ kernel₂ htable₂ => ?_
    exact @wlp_eachFd_done kernel₂ [] (restorePipe np hdr) (PipesSet np hdr)
      (fun _ _ _ hinv => wlp_restorePipe_made hinv) (List.finRange NOFILE)
      ⟨htable₂, fun i hi => absurd hi not_mem_nil⟩

end Loops

section Finish

variable {kernel kernel' : Kernel} {np cur : Slot} {hdr : CkptHeader}
  {ip : InodeRef} {trace : RestoreTrace} {path : Name} {pid : Nat}

/-- The last stage leaves the descriptors as they are. -/
theorem wlp_restoreFinish_table : wlp (restoreFinish np hdr ip) kernel (fun _ kernel' =>
      kernel'.file = kernel.file ∧ (kernel'.proc np).ofile = (kernel.proc np).ofile ∧
      ∀ e, (kernel'.fs.inode e).inum = (kernel.fs.inode e).inum) := by
  refine wlp_restoreFinish fun kernel₁ result hsame => ?_
  unfold restoreEnd
  rw [wlp_bind, wlp_inFs, hsame.fs]
  refine wlp_mono (wlp_sameInums (quiet_iunlockput trivial)) fun _ fs₁ hinums => ?_
  rw [wlp_bind, wlp_inFs]
  refine wlp_endOp fun log => ?_
  rw [wlp_pure]
  exact ⟨hsame.file, hsame.ofile np, hinums⟩

/-- The descriptors of a restored process. -/
structure Kernel.Rebuilt (hdr : CkptHeader) (np : Slot) (kernel : Kernel) : Prop where
  closed : ∀ i, ¬ (hdr.fds i).OnInode → (hdr.fds i).type ≠ FD_PIPE → (kernel.proc np).ofile i = none
  opened : ∀ i, (hdr.fds i).OnInode → ∃ f, (kernel.proc np).ofile i = some f ∧
    (hdr.fds i).Reopened kernel.fs (kernel.file f)
  pipe : ∀ i, (hdr.fds i).type = FD_PIPE → ∃ f,
    (kernel.proc np).ofile i = some f ∧ (kernel.file f).type = .pipe
  alone : ∀ i j f, (hdr.fds i).OnInode → (hdr.fds j).OnInode →
    (kernel.proc np).ofile i = some f → (kernel.proc np).ofile j = some f → i = j

theorem PipesSet.rebuilt (hset : PipesSet np hdr (List.finRange NOFILE) kernel)
    (hfile : kernel'.file = kernel.file) (hofile : (kernel'.proc np).ofile = (kernel.proc np).ofile)
    (hinums : ∀ e, (kernel'.fs.inode e).inum = (kernel.fs.inode e).inum) :
    kernel'.Rebuilt hdr np := by
  obtain ⟨htable, hpipes⟩ := hset
  have hmade := fun i => htable.made i (mem_finRange i)
  refine ⟨?_, ?_, ?_, ?_⟩
  · intro i hoff hpipe
    rw [hofile]
    cases hentry : (kernel.proc np).ofile i with
    | none => rfl
    | some f =>
      have hfd := hmade i
      rw [hentry] at hfd
      rcases hfd with ⟨hon, _⟩ | ⟨htype, _⟩
      · exact absurd hon hoff
      · exact absurd htype hpipe
  · intro i hon
    rw [hofile, hfile]
    cases hentry : (kernel.proc np).ofile i with
    | none =>
      have hfd := hmade i
      rw [hentry] at hfd
      exact absurd hon hfd
    | some f =>
      have hfd := hmade i
      rw [hentry] at hfd
      rcases hfd with ⟨_, hopened⟩ | ⟨htype, _⟩
      · exact ⟨f, rfl, { hopened.toReopened with inum := (hinums _).trans hopened.inum }⟩
      · exact absurd htype hon.not_pipe
  · intro i htype
    rw [hofile, hfile]
    obtain ⟨f, hf⟩ := Option.ne_none_iff_exists'.mp (hpipes i (mem_finRange i) htype)
    have hfd := hmade i
    rw [hf] at hfd
    rcases hfd with ⟨hon, _⟩ | ⟨_, _, hkind⟩
    · exact absurd htype hon.not_pipe
    · exact ⟨f, hf, hkind⟩
  · rw [hofile]
    exact fun i j => htable.alone i (mem_finRange i) j (mem_finRange j)

/-- From the header on, the first stages leave files and directories alone. -/
theorem RestoreTrace.Of.sameRefs (hof : trace.Of cur path kernel pid kernel')
    (hsource : trace.Source kernel) : trace.held.SameRefs trace.filled := by
  have hmade : trace.held.SameRefs trace.made :=
    respects_allocproc trace.held _ _ hof.makes
  obtain ⟨sz, kernel₁, _, hgrows, hsized⟩ := hof.grows
  have hgrown : trace.made.SameRefs kernel₁ := respects_inMem _ _ _ _ hgrows
  have hsize : kernel₁.SameRefs trace.grown := by
    have hcode : Respects Kernel.SameRefs (restoreSized trace.np trace.pt trace.hdr.sz) :=
      respects_bind (respects_setProc _ fun _ => ⟨rfl, rfl⟩) fun _ =>
        respects_bind (respects_setProc _ fun _ => ⟨rfl, rfl⟩) fun _ =>
          respects_release _
    exact hcode kernel₁ _ _ hsized
  have hbefore : trace.held.SameRefs trace.grown := trans_of Kernel.SameRefs
    hmade (trans_of Kernel.SameRefs hgrown hsize)
  refine trans_of Kernel.SameRefs hbefore
    (wlp_restoreAddrSpace_sameRefs trace.pt _ 0 HDRSZ ?_ _ _ hof.fills)
  rw [hbefore.fs]
  exact hsource.looks.ok.full hsource.loaded

theorem RestoreTrace.Of.rebuilt (hof : trace.Of cur path kernel pid kernel')
    (hfs : kernel.FsOk) : kernel'.Rebuilt trace.hdr trace.np := by
  have hsource := hof.source hfs
  have hok : trace.filled.fs.Ok := by
    rw [(hof.sameRefs hsource).fs]
    exact hsource.looks.ok
  have hset := wlp_restoreFiles_made hok _ _ hof.rebuilds rfl
  obtain ⟨hfile, hofile, hinums⟩ := wlp_restoreFinish_table _ _ hof.finishes
  exact hset.rebuilt hfile hofile hinums

end Finish

end CkptKernel
