/-
What `checkpoint_proc` saves of a descriptor table: one entry for each
descriptor, and numbers that tell its pipes apart.
-/
import CkptKernel.PipeCapture
import CkptKernel.SafeRestore

namespace CkptKernel

open ByteMem Code

/-- The entry of a descriptor that is open on `file`. -/
def SavedAs (inode : InodeRef → Inode) (pipes : List PipeUse) (file : File)
    (fd : CkptFd) : Prop :=
  match file.type with
  | .inode => fd = ⟨FD_INODE, file.readable, file.writable,
      (inode file.ip).inum, file.off.toNat, 0, minusOne⟩
  | .device => fd = ⟨FD_DEVICE, file.readable, file.writable,
      (inode file.ip).inum, 0, file.major, minusOne⟩
  | .pipe => ∃ (id : Nat) (use : PipeUse), fd = ⟨FD_PIPE, file.readable,
      file.writable, 0, 0, 0, id⟩ ∧ pipes[id]? = some use ∧ use.pipe = file.pipe
  | .none => False

/-- The entries after the descriptors `done`. -/
structure Capture.Saves (kernel : Kernel) (p : Slot)
    (done : List (Fin NOFILE)) (capture : Capture) : Prop where
  few : capture.pipes.length ≤ NOFILE
  later : ∀ i, i ∉ done → capture.fds i = .empty
  closed : ∀ i, (kernel.proc p).ofile i = none → capture.fds i = .empty
  opened : ∀ i ∈ done, ∀ f, (kernel.proc p).ofile i = some f →
    SavedAs kernel.fs.inode capture.pipes (kernel.file f) (capture.fds i)

/-- Entries of the `pipes` array stay where they are. -/
def PipesGrow (pipes pipes' : List PipeUse) : Prop :=
  ∀ (k : Nat) (use : PipeUse), pipes[k]? = some use →
    ∃ use' : PipeUse, pipes'[k]? = some use' ∧ use'.pipe = use.pipe

theorem SavedAs.grow {inode : InodeRef → Inode} {pipes pipes' : List PipeUse}
    {file : File} {fd : CkptFd} (hsaved : SavedAs inode pipes file fd)
    (hgrow : PipesGrow pipes pipes') : SavedAs inode pipes' file fd := by
  unfold SavedAs at hsaved ⊢
  cases htype : file.type with
  | none => rw [htype] at hsaved; exact hsaved
  | inode => rw [htype] at hsaved; exact hsaved
  | device => rw [htype] at hsaved; exact hsaved
  | pipe =>
    rw [htype] at hsaved
    obtain ⟨id, use, hfd, hget, hpipe⟩ := hsaved
    obtain ⟨use', hget', hpipe'⟩ := hgrow id use hget
    exact ⟨id, use', hfd, hget', hpipe'.trans hpipe⟩

theorem pipesGrow_set {pipes : List PipeUse} {id : Nat} {use use' : PipeUse}
    (hget : pipes[id]? = some use) (hpipe : use'.pipe = use.pipe) :
    PipesGrow pipes (pipes.set id use') := by
  intro k entry hentry
  by_cases hk : id = k
  · subst hk
    have hlt := (List.getElem?_eq_some_iff.mp hget).1
    rw [hget] at hentry
    cases hentry
    exact ⟨use', List.getElem?_set_self hlt, hpipe⟩
  · exact ⟨entry, by rw [List.getElem?_set_ne hk]; exact hentry, rfl⟩

theorem PipesGrow.trans {pipes pipes₁ pipes₂ : List PipeUse} (hfirst : PipesGrow pipes pipes₁)
    (hnext : PipesGrow pipes₁ pipes₂) : PipesGrow pipes pipes₂ := by
  intro k use hget
  obtain ⟨use₁, hget₁, hpipe₁⟩ := hfirst k use hget
  obtain ⟨use₂, hget₂, hpipe₂⟩ := hnext k use₁ hget₁
  exact ⟨use₂, hget₂, hpipe₂.trans hpipe₁⟩

section Capture

variable {kernel : Kernel} {p : Slot} {i : Fin NOFILE} {f : FileRef}
  {done : List (Fin NOFILE)} {capture capture' : Capture}

/-- One descriptor that is open: its entry is made, the others stay. -/
theorem Capture.file_saves (hfile : capture.file kernel.fs.inode i (kernel.file f) = some capture')
    (hfew : capture.pipes.length ≤ NOFILE) :
    PipesGrow capture.pipes capture'.pipes ∧ capture'.pipes.length ≤ NOFILE ∧
      (∀ j, j ≠ i → capture'.fds j = capture.fds j) ∧
      SavedAs kernel.fs.inode capture'.pipes (kernel.file f) (capture'.fds i) := by
  have hothers : ∀ fd j, j ≠ i → (capture.put i fd).fds j = capture.fds j :=
    fun fd j hne => Function.update_of_ne hne _ _
  have hself : ∀ fd, (capture.put i fd).fds i = fd :=
    fun fd => Function.update_self _ _ _
  have hrefl : PipesGrow capture.pipes capture.pipes :=
    fun _ use hget => ⟨use, hget, rfl⟩
  unfold Capture.file at hfile
  unfold SavedAs
  cases htype : (kernel.file f).type with
  | none =>
    rw [htype] at hfile
    cases hfile
  | inode =>
    rw [htype] at hfile
    cases hfile
    exact ⟨hrefl, hfew, hothers _, hself _⟩
  | device =>
    rw [htype] at hfile
    cases hfile
    exact ⟨hrefl, hfew, hothers _, hself _⟩
  | pipe =>
    rw [htype] at hfile
    simp only [bind, Option.bind_eq_some_iff, pure, Option.some.injEq, Prod.exists] at hfile
    obtain ⟨pipes, id, hid, use, hget, use', hcount, rfl⟩ := hfile
    have hfound : PipesGrow capture.pipes pipes ∧ pipes.length ≤ NOFILE ∧
        use.pipe = (kernel.file f).pipe := by
      rcases pipeId_cases hid with ⟨rfl, use₁, hget₁, hpipe⟩ | ⟨rfl, rfl, hroom, _⟩
      · rw [hget] at hget₁
        cases hget₁
        exact ⟨hrefl, hfew, hpipe⟩
      · refine ⟨fun k use hold => ⟨use, getElem?_concat.mpr (Or.inl hold), rfl⟩, by simpa, ?_⟩
        rcases getElem?_concat.mp hget with hold | ⟨_, rfl⟩
        · exact absurd (List.getElem?_eq_some_iff.mp hold).1 (Nat.lt_irrefl _)
        · rfl
    obtain ⟨hgrow, hlength, hpipe⟩ := hfound
    obtain ⟨huse', _⟩ := count_eq_some (decide_eq_true ⟨htype, hpipe.symm⟩) hcount
    have hsame : use'.pipe = use.pipe := by rw [huse']
    have hlt := (List.getElem?_eq_some_iff.mp hget).1
    refine ⟨hgrow.trans (pipesGrow_set hget hsame), ?_, hothers _, id, use',
      hself _, List.getElem?_set_self hlt, hsame.trans hpipe⟩
    rw [List.length_set]
    exact hlength

theorem Capture.Saves.captureFrom {fds : List (Fin NOFILE)} (hsaves : capture.Saves kernel p done)
    (hrun : captureFrom kernel p fds capture = some capture') :
    capture'.Saves kernel p (done ++ fds) := by
  induction fds generalizing done capture with
  | nil =>
    cases hrun
    rwa [List.append_nil]
  | cons i rest ih =>
    unfold CkptKernel.captureFrom at hrun
    rw [List.append_cons]
    cases hopen : (kernel.proc p).ofile i with
    | none =>
      rw [hopen] at hrun
      refine ih ⟨hsaves.few, ?_, hsaves.closed, ?_⟩ hrun
      · intro j hj
        exact hsaves.later j fun hmem => hj (List.mem_append_left _ hmem)
      intro j hj g hg
      rcases List.mem_append.mp hj with hmem | hmem
      · exact hsaves.opened j hmem g hg
      · rw [List.mem_singleton.mp hmem, hopen] at hg
        cases hg
    | some f =>
      rw [hopen] at hrun
      simp only [bind, Option.bind_eq_some_iff] at hrun
      obtain ⟨capture₁, hfile, hrun⟩ := hrun
      obtain ⟨hgrow, hfew, hothers, hself⟩ := file_saves hfile hsaves.few
      refine ih ⟨hfew, ?_, ?_, ?_⟩ hrun
      · intro j hj
        rw [List.mem_append, not_or, List.mem_singleton] at hj
        rw [hothers j hj.2]
        exact hsaves.later j hj.1
      · intro j hclosed
        rw [hothers j fun heq => by rw [heq, hopen] at hclosed; cases hclosed]
        exact hsaves.closed j hclosed
      · intro j hj g hg
        by_cases heq : j = i
        · rw [heq, hopen] at hg
          cases hg
          rw [heq]
          exact hself
        · rw [hothers j heq]
          have hmem := (List.mem_append.mp hj).resolve_right
            fun hmem => heq (List.mem_singleton.mp hmem)
          exact (hsaves.opened j hmem g hg).grow hgrow

/-- What a capture that is accepted has saved. -/
structure Kernel.SavedFds (kernel : Kernel) (p : Slot) (capture : Capture) : Prop where
  few : capture.pipes.length ≤ NOFILE
  closed : ∀ i, (kernel.proc p).ofile i = none → capture.fds i = .empty
  opened : ∀ i f, (kernel.proc p).ofile i = some f →
    SavedAs kernel.fs.inode capture.pipes (kernel.file f) (capture.fds i)

theorem captureFds_saved (hcapture : captureFds kernel p = some capture) :
    kernel.SavedFds p capture := by
  simp only [captureFds, bind, Option.bind_eq_some_iff] at hcapture
  obtain ⟨capture₁, hrun, hcheck⟩ := hcapture
  split at hcheck
  next =>
    cases hcheck
    have hstart : Capture.start.Saves kernel p [] :=
      ⟨Nat.zero_le _, fun _ _ => rfl, fun _ _ => rfl, fun i hi => absurd hi List.not_mem_nil⟩
    have hsaves := hstart.captureFrom hrun
    exact ⟨hsaves.few, hsaves.closed,
      fun i => hsaves.opened i (List.mem_append_right _ (List.mem_finRange i))⟩
  next => cases hcheck

/-- Every number in the entries fits into its bytes. -/
theorem Kernel.SavedFds.fits (hsaved : kernel.SavedFds p capture)
    (hfs : kernel.FsOk) (hfds : kernel.FdsOpen p)
    (hinodes : kernel.fs.sb.ninodes ≤ 2 ^ 32) (i : Fin NOFILE) : (capture.fds i).Fits := by
  have hminus : minusOne < 256 ^ 4 := by decide
  have hzero : 0 < 256 ^ 4 := by decide
  have hkinds : FD_PIPE < 256 ^ 4 ∧ FD_INODE < 256 ^ 4 ∧ FD_DEVICE < 256 ^ 4 := by
    decide
  cases hopen : (kernel.proc p).ofile i with
  | none =>
    rw [hsaved.closed i hopen]
    exact ⟨by decide, hzero, hzero, hminus⟩
  | some f =>
    have hentry := hsaved.opened i f hopen
    have hinum : (kernel.file f).type = .inode ∨ (kernel.file f).type = .device →
        (kernel.fs.inode (kernel.file f).ip).inum < 256 ^ 4 := fun htype =>
      Nat.lt_of_lt_of_le (hfs.inum _ (kernel.holds_file ⟨hfds i f hopen, htype⟩)) hinodes
    unfold SavedAs at hentry
    cases htype : (kernel.file f).type with
    | none =>
      rw [htype] at hentry
      exact hentry.elim
    | inode =>
      rw [htype] at hentry
      rw [hentry]
      exact ⟨hkinds.2.1, hinum (Or.inl htype), (kernel.file f).off.toNat_lt, hminus⟩
    | device =>
      rw [htype] at hentry
      rw [hentry]
      exact ⟨hkinds.2.2, hinum (Or.inr htype), hzero, hminus⟩
    | pipe =>
      rw [htype] at hentry
      obtain ⟨id, use, hfd, hget, _⟩ := hentry
      have hlt := (List.getElem?_eq_some_iff.mp hget).1
      rw [hfd]
      exact ⟨hkinds.1, hzero, hzero, Nat.lt_of_lt_of_le hlt (hsaved.few.trans (by decide))⟩

/-- An entry is of the kind of its file. -/
theorem SavedAs.type {inode : InodeRef → Inode} {pipes : List PipeUse} {file : File} {fd : CkptFd}
    (hsaved : SavedAs inode pipes file fd) : fd.type = file.type.toNat ∧ file.type ≠ .none := by
  unfold SavedAs at hsaved
  cases htype : file.type with
  | none => rw [htype] at hsaved; exact hsaved.elim
  | inode => rw [htype] at hsaved; exact ⟨by rw [hsaved]; rfl, by decide⟩
  | device => rw [htype] at hsaved; exact ⟨by rw [hsaved]; rfl, by decide⟩
  | pipe =>
    rw [htype] at hsaved
    obtain ⟨id, use, rfl, _⟩ := hsaved
    exact ⟨rfl, by decide⟩

end Capture

end CkptKernel
