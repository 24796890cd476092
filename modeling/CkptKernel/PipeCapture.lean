/-
Which pipes `checkpoint_proc` accepts.  It counts the descriptors of the process
itself; that another process has the pipe open too shows in the reference
counts of the files, which it does not look at.
-/
import CkptKernel.SpaceRuns

namespace CkptKernel

open ByteMem Code Machine

/-- An open file on either end of pipe `pi`. -/
def File.onPipe (pi : Frame) (file : File) : Bool :=
  decide (file.type = .pipe ∧ file.pipe = pi)

def File.readsPipe (pi : Frame) (file : File) : Bool :=
  file.onPipe pi && decide (file.readable ≠ 0 ∧ file.writable = 0)

def File.writesPipe (pi : Frame) (file : File) : Bool :=
  file.onPipe pi && decide (file.readable = 0 ∧ file.writable ≠ 0)

variable {pi : Frame}

theorem onPipe_of_reads (file : File) (hreads : file.readsPipe pi = true) : file.onPipe pi = true :=
  (Bool.and_eq_true_iff.mp hreads).1

theorem onPipe_of_writes (file : File)
    (hwrites : file.writesPipe pi = true) : file.onPipe pi = true :=
  (Bool.and_eq_true_iff.mp hwrites).1

theorem not_reads_of_writes {file : File}
    (hwrites : file.writesPipe pi = true) : file.readsPipe pi = false := by
  have hend := of_decide_eq_true (Bool.and_eq_true_iff.mp hwrites).2
  simp [File.readsPipe, hend]

theorem not_writes_of_reads {file : File}
    (hreads : file.readsPipe pi = true) : file.writesPipe pi = false := by
  have hend := of_decide_eq_true (Bool.and_eq_true_iff.mp hreads).2
  simp [File.writesPipe, hend]

/-- Descriptor `i` of process `p` is open on a file that passes `test`. -/
def Kernel.fdMeets (kernel : Kernel) (p : Slot) (test : File → Bool)
    (i : Fin NOFILE) : Bool :=
  ((kernel.proc p).ofile i).any fun f => test (kernel.file f)

/-- How many of the descriptors `fds` do. -/
def Kernel.fdCount (kernel : Kernel) (p : Slot) (test : File → Bool)
    (fds : List (Fin NOFILE)) : Nat :=
  fds.countP (kernel.fdMeets p test)

section Counting

variable {kernel : Kernel} {p : Slot} {pi : Frame} {i : Fin NOFILE}
  {f : FileRef} {done : List (Fin NOFILE)}

variable {test : File → Bool}

theorem fdMeets_of_open (hopen : (kernel.proc p).ofile i = some f) :
    kernel.fdMeets p test i = test (kernel.file f) := by
  rw [Kernel.fdMeets, hopen]
  rfl

theorem fdMeets_iff : kernel.fdMeets p test i = true ↔
      ∃ f, (kernel.proc p).ofile i = some f ∧ test (kernel.file f) = true :=
  Option.any_eq_true _ _

theorem fdCount_append_open (hopen : (kernel.proc p).ofile i = some f) :
    kernel.fdCount p test (done ++ [i]) =
      kernel.fdCount p test done + if test (kernel.file f) then 1 else 0 := by
  rw [Kernel.fdCount, List.countP_append, List.countP_singleton, fdMeets_of_open hopen]
  rfl

/-- What the counters of one entry are for. -/
structure PipeUse.Counted (kernel : Kernel) (p : Slot)
    (done : List (Fin NOFILE)) (use : PipeUse) : Prop where
  nrefs : use.nrefs = kernel.fdCount p (File.onPipe use.pipe) done
  readRefs : use.readRefs = kernel.fdCount p (File.readsPipe use.pipe) done
  writeRefs : use.writeRefs = kernel.fdCount p (File.writesPipe use.pipe) done

/-- The `pipes` array after the descriptors `done`. -/
structure PipesCounted (kernel : Kernel) (p : Slot)
    (done : List (Fin NOFILE)) (pipes : List PipeUse) : Prop where
  counted : ∀ (k : Nat) (use : PipeUse), pipes[k]? = some use → use.Counted kernel p done
  distinct : ∀ (k l : Nat) (use use' : PipeUse), pipes[k]? = some use →
    pipes[l]? = some use' → use.pipe = use'.pipe → k = l
  met : ∀ pi, 0 < kernel.fdCount p (File.onPipe pi) done →
    ∃ (k : Nat) (use : PipeUse), pipes[k]? = some use ∧ use.pipe = pi

def PipesMet (pipes : List PipeUse) : Prop :=
  ∀ (k : Nat) (use : PipeUse), pipes[k]? = some use → 0 < use.nrefs

variable {pipes : List PipeUse}

/-- A descriptor that is not on a pipe counts nowhere. -/
theorem PipesCounted.skip (hcounted : PipesCounted kernel p done pipes)
    (hsame : ∀ pi, kernel.fdMeets p (File.onPipe pi) i = false) :
    PipesCounted kernel p (done ++ [i]) pipes := by
  have hcount : ∀ pi (test : File → Bool), (∀ file, test file = true → file.onPipe pi = true) →
      kernel.fdCount p test (done ++ [i]) = kernel.fdCount p test done := by
    intro pi test himp
    have hnot : kernel.fdMeets p test i = false := by
      rw [← Bool.not_eq_true]
      intro hmeets
      obtain ⟨f, hopen, htest⟩ := fdMeets_iff.mp hmeets
      have hpipe := hsame pi
      rw [fdMeets_of_open hopen, himp _ htest] at hpipe
      cases hpipe
    simp [Kernel.fdCount, List.countP_append, hnot]
  refine ⟨fun k use hget => ?_, hcounted.distinct, fun pi hpos => ?_⟩
  · obtain ⟨hn, hr, hw⟩ := hcounted.counted k use hget
    refine ⟨?_, ?_, ?_⟩
    · rw [hcount use.pipe _ fun _ h => h, hn]
    · rw [hcount use.pipe _ onPipe_of_reads, hr]
    · rw [hcount use.pipe _ onPipe_of_writes, hw]
  · rw [hcount pi _ fun _ h => h] at hpos
    exact hcounted.met pi hpos

theorem getElem?_concat {A : Type} {xs : List A} {x y : A} {k : Nat} :
    (xs ++ [x])[k]? = some y ↔ xs[k]? = some y ∨ (k = xs.length ∧ y = x) := by
  rcases Nat.lt_trichotomy k xs.length with hlt | heq | hgt
  · rw [List.getElem?_append_left hlt]
    exact ⟨Or.inl, fun h => h.resolve_right fun h => by omega⟩
  · subst heq
    simp [eq_comm]
  · rw [List.getElem?_eq_none (by simp; omega), List.getElem?_eq_none (Nat.le_of_lt hgt)]
    simp
    omega

theorem fdCount_le_of_imp {test' : File → Bool}
    (himp : ∀ file, test file = true → test' file = true) :
    kernel.fdCount p test done ≤ kernel.fdCount p test' done := by
  refine List.countP_mono_left fun i _ hmeets => ?_
  obtain ⟨f, hopen, htest⟩ := fdMeets_iff.mp hmeets
  exact fdMeets_iff.mpr ⟨f, hopen, himp _ htest⟩

/-- A pipe that no descriptor is on yet may be entered. -/
theorem PipesCounted.concat (hcounted : PipesCounted kernel p done pipes)
    (hnew : ∀ (k : Nat) (use : PipeUse), pipes[k]? = some use → use.pipe ≠ pi) :
    PipesCounted kernel p done (pipes ++ [⟨pi, 0, 0, 0⟩]) := by
  have hzero : kernel.fdCount p (File.onPipe pi) done = 0 := by
    rcases Nat.eq_zero_or_pos (kernel.fdCount p (File.onPipe pi) done) with
      hzero | hpos
    · exact hzero
    · obtain ⟨k, use, hget, hpipe⟩ := hcounted.met pi hpos
      exact absurd hpipe (hnew k use hget)
  have hreads := @fdCount_le_of_imp kernel p done _ _ (@onPipe_of_reads pi)
  have hwrites := @fdCount_le_of_imp kernel p done _ _ (@onPipe_of_writes pi)
  refine ⟨?_, ?_, ?_⟩
  · intro k use hget
    rcases getElem?_concat.mp hget with hold | ⟨_, rfl⟩
    · exact hcounted.counted k use hold
    · exact ⟨hzero.symm, by dsimp only; omega, by dsimp only; omega⟩
  · intro k l use use' hget hget' hpipe
    rcases getElem?_concat.mp hget with hold | ⟨hk, rfl⟩ <;>
      rcases getElem?_concat.mp hget' with hold' | ⟨hl, rfl⟩
    · exact hcounted.distinct k l use use' hold hold' hpipe
    · exact absurd hpipe (hnew k use hold)
    · exact absurd hpipe.symm (hnew l use' hold')
    · rw [hk, hl]
  · intro pi' hpos
    obtain ⟨k, use, hget, hpipe⟩ := hcounted.met pi' hpos
    exact ⟨k, use, getElem?_concat.mpr (Or.inl hget), hpipe⟩

/-- The search finds the entry of the pipe or makes one. -/
theorem pipeId_cases {pipes' : List PipeUse} {id : Nat}
    (hid : Capture.pipeId pipes pi = some (pipes', id)) :
    (pipes' = pipes ∧ ∃ use : PipeUse, pipes[id]? = some use ∧ use.pipe = pi) ∨
      (pipes' = pipes ++ [⟨pi, 0, 0, 0⟩] ∧ id = pipes.length ∧ pipes.length < NOFILE ∧
        ∀ use ∈ pipes, use.pipe ≠ pi) := by
  unfold Capture.pipeId at hid
  split at hid
  next found hfound =>
    cases hid
    rw [List.findIdx?_eq_some_iff_getElem] at hfound
    obtain ⟨hlt, hpipe, _⟩ := hfound
    exact Or.inl ⟨rfl, _, List.getElem?_eq_getElem hlt, of_decide_eq_true hpipe⟩
  next hnone =>
    rw [List.findIdx?_eq_none_iff] at hnone
    split at hid
    next => cases hid
    next hroom =>
      cases hid
      exact Or.inr ⟨rfl, rfl, Nat.lt_of_not_le hroom,
        fun use huse => of_decide_eq_false (hnone use huse)⟩

theorem PipesCounted.pipeId {pipes' : List PipeUse} {id : Nat}
    (hcounted : PipesCounted kernel p done pipes)
    (hid : Capture.pipeId pipes pi = some (pipes', id)) :
    PipesCounted kernel p done pipes' ∧ pipes'.length ≤ pipes.length + 1 ∧
      (∀ (k : Nat) (use : PipeUse), pipes'[k]? = some use → pipes[k]? = some use ∨ k = id) ∧
      ∃ use : PipeUse, pipes'[id]? = some use ∧ use.pipe = pi := by
  rcases pipeId_cases hid with ⟨rfl, hfound⟩ | ⟨rfl, rfl, _, hnew⟩
  · exact ⟨hcounted, Nat.le_succ _, fun _ _ => Or.inl, hfound⟩
  · refine ⟨hcounted.concat fun k use hget => hnew use (List.mem_of_getElem? hget),
      by simp, fun k use hget => (getElem?_concat.mp hget).imp_right And.left, _,
      getElem?_concat.mpr (Or.inr ⟨rfl, rfl⟩), rfl⟩

/-- Counting one more reference. -/
theorem count_eq_some {use use' : PipeUse} {file : File}
    (hpipe : file.onPipe use.pipe = true) (hcount : use.count file = some use') :
    use' = ⟨use.pipe, use.nrefs + 1, use.readRefs + if file.readsPipe use.pipe then 1 else 0,
      use.writeRefs + if file.writesPipe use.pipe then 1 else 0⟩ ∧
      (file.readsPipe use.pipe = true ∨ file.writesPipe use.pipe = true) ∧ use'.nrefs ≤ 2 := by
  unfold PipeUse.count at hcount
  simp only at hcount
  split at hcount
  next hreads =>
    split at hcount
    next => cases hcount
    next hfew =>
      cases hcount
      have hread : file.readsPipe use.pipe = true := by
        simp [File.readsPipe, hpipe, hreads]
      have hwrite := not_writes_of_reads hread
      exact ⟨by simp [hread, hwrite], Or.inl hread, by simp only; omega⟩
  next hnot =>
    split at hcount
    next hwrites =>
      split at hcount
      next => cases hcount
      next hfew =>
        cases hcount
        have hwrite : file.writesPipe use.pipe = true := by
          simp [File.writesPipe, hpipe, hwrites]
        have hread := not_reads_of_writes hwrite
        exact ⟨by simp [hread, hwrite], Or.inr hwrite, by simp only; omega⟩
    next => cases hcount

/-- One descriptor on a pipe. -/
theorem PipesCounted.set {pipes : List PipeUse} {id : Nat} {use use' : PipeUse}
    (hcounted : PipesCounted kernel p done pipes) (hopen : (kernel.proc p).ofile i = some f)
    (hget : pipes[id]? = some use) (hpipe : (kernel.file f).onPipe use.pipe = true)
    (hcount : use.count (kernel.file f) = some use') :
    PipesCounted kernel p (done ++ [i]) (pipes.set id use') := by
  obtain ⟨huse', _, _⟩ := count_eq_some hpipe hcount
  have hlt : id < pipes.length := (List.getElem?_eq_some_iff.mp hget).1
  have hself : (pipes.set id use')[id]? = some use' :=
    List.getElem?_set_self hlt
  have hother : ∀ k : Nat, k ≠ id → (pipes.set id use')[k]? = pipes[k]? :=
    fun k hne => List.getElem?_set_ne (Ne.symm hne)
  -- the entries of other pipes do not see this descriptor
  have helse : ∀ pi', pi' ≠ use.pipe → (kernel.file f).onPipe pi' = false := by
    intro pi' hne
    simp only [File.onPipe, decide_eq_true_eq, decide_eq_false_iff_not] at *
    exact fun hon => hne (hon.2.symm.trans hpipe.2)
  have hname : ∀ (k : Nat) (entry : PipeUse), (pipes.set id use')[k]? = some entry →
      ∃ old, pipes[k]? = some old ∧ old.pipe = entry.pipe := by
    intro k entry hentry
    by_cases hk : k = id
    · rw [hk, hself] at hentry
      cases hentry
      exact ⟨use, hk ▸ hget, by rw [huse']⟩
    · rw [hother k hk] at hentry
      exact ⟨entry, hentry, rfl⟩
  refine ⟨?_, ?_, ?_⟩
  · intro k entry hentry
    by_cases hk : k = id
    · rw [hk, hself] at hentry
      cases hentry
      obtain ⟨hn, hr, hw⟩ := hcounted.counted id use hget
      rw [huse']
      refine ⟨?_, ?_, ?_⟩ <;> dsimp only <;> rw [fdCount_append_open hopen]
      · rw [hn, if_pos hpipe]
      · rw [hr]
      · rw [hw]
    · rw [hother k hk] at hentry
      obtain ⟨hn, hr, hw⟩ := hcounted.counted k entry hentry
      have hnot := helse entry.pipe fun heq =>
        hk (hcounted.distinct k id entry use hentry hget heq)
      refine ⟨?_, ?_, ?_⟩ <;> rw [fdCount_append_open hopen]
      · simp [hn, hnot]
      · simp [hr, File.readsPipe, hnot]
      · simp [hw, File.writesPipe, hnot]
  · intro k l entry entry' hentry hentry' hsame
    obtain ⟨old, hold, hpipe⟩ := hname k entry hentry
    obtain ⟨old', hold', hpipe'⟩ := hname l entry' hentry'
    exact hcounted.distinct k l old old' hold hold' (by rw [hpipe, hpipe', hsame])
  · intro pi' hpos
    by_cases heq : pi' = use.pipe
    · exact ⟨id, use', hself, by rw [huse', heq]⟩
    rw [fdCount_append_open hopen, helse pi' heq] at hpos
    obtain ⟨k, old, hold, hpi⟩ := hcounted.met pi' hpos
    refine ⟨k, old, ?_, hpi⟩
    rw [hother k fun hk => heq ?_]
    · exact hold
    · rw [hk, hget] at hold
      cases hold
      exact hpi.symm

variable {capture : Capture}

/-- One descriptor that is open. -/
theorem PipesCounted.file {capture' : Capture} (hcounted : PipesCounted kernel p done capture.pipes)
    (hopen : (kernel.proc p).ofile i = some f)
    (hfile : capture.file kernel.fs.inode i (kernel.file f) = some capture') :
    PipesCounted kernel p (done ++ [i]) capture'.pipes ∧
      capture'.pipes.length ≤ capture.pipes.length + 1 ∧
      (PipesMet capture.pipes → PipesMet capture'.pipes) ∧ (kernel.file f).type ≠ .none := by
  have hskip : (kernel.file f).type ≠ .pipe →
      PipesCounted kernel p (done ++ [i]) capture.pipes := by
    intro htype
    refine hcounted.skip fun pi => ?_
    rw [fdMeets_of_open hopen, File.onPipe]
    exact decide_eq_false fun hon => htype hon.1
  unfold Capture.file at hfile
  cases htype : (kernel.file f).type with
  | none =>
    rw [htype] at hfile
    cases hfile
  | inode =>
    rw [htype] at hfile
    cases hfile
    exact ⟨hskip (by rw [htype]; decide), Nat.le_succ _, id, by decide⟩
  | device =>
    rw [htype] at hfile
    cases hfile
    exact ⟨hskip (by rw [htype]; decide), Nat.le_succ _, id, by decide⟩
  | pipe =>
    rw [htype] at hfile
    simp only [bind, Option.bind_eq_some_iff, pure, Option.some.injEq, Prod.exists] at hfile
    obtain ⟨pipes, id, hid, use, hget, use', hcount, rfl⟩ := hfile
    obtain ⟨hfound, hlength, hold, use₁, hget₁, hpipe⟩ := hcounted.pipeId hid
    have heq : use₁ = use := Option.some.inj (hget₁.symm.trans hget)
    subst heq
    have hon : (kernel.file f).onPipe use₁.pipe = true :=
      decide_eq_true ⟨htype, hpipe.symm⟩
    refine ⟨hfound.set hopen hget hon hcount, ?_, ?_, by decide⟩
    · rw [List.length_set]
      exact hlength
    intro hmet k entry hentry
    rw [List.getElem?_set] at hentry
    split at hentry
    next =>
      obtain ⟨huse', _⟩ := count_eq_some hon hcount
      split at hentry
      next =>
        cases hentry
        rw [huse']
        exact Nat.succ_pos _
      next => cases hentry
    next hne =>
      exact hmet k entry ((hold k entry hentry).resolve_right (Ne.symm hne))

/-- The loop over the descriptors. -/
theorem PipesCounted.captureFrom {fds : List (Fin NOFILE)} {capture' : Capture}
    (hcounted : PipesCounted kernel p done capture.pipes)
    (hrun : captureFrom kernel p fds capture = some capture') :
    PipesCounted kernel p (done ++ fds) capture'.pipes ∧
      (PipesMet capture.pipes → PipesMet capture'.pipes) ∧
      ∀ i ∈ fds, ∀ f, (kernel.proc p).ofile i = some f → (kernel.file f).type ≠ .none := by
  induction fds generalizing done capture with
  | nil =>
    cases hrun
    rw [List.append_nil]
    exact ⟨hcounted, id, fun i hi => absurd hi List.not_mem_nil⟩
  | cons i rest ih =>
    unfold CkptKernel.captureFrom at hrun
    rw [List.append_cons]
    cases hopen : (kernel.proc p).ofile i with
    | none =>
      rw [hopen] at hrun
      have hskip := hcounted.skip (i := i) fun pi => by
        rw [Kernel.fdMeets, hopen]
        rfl
      obtain ⟨hrest, hmet, hkinds⟩ := ih hskip hrun
      refine ⟨hrest, hmet, fun j hj f hf => ?_⟩
      rcases List.mem_cons.mp hj with rfl | hj
      · rw [hopen] at hf
        cases hf
      · exact hkinds j hj f hf
    | some f =>
      rw [hopen] at hrun
      simp only [bind, Option.bind_eq_some_iff] at hrun
      obtain ⟨capture₁, hfile, hrun⟩ := hrun
      obtain ⟨hnext, _, hmet, hkind⟩ := hcounted.file hopen hfile
      obtain ⟨hrest, hmet', hkinds⟩ := ih hnext hrun
      refine ⟨hrest, hmet' ∘ hmet, fun j hj g hg => ?_⟩
      rcases List.mem_cons.mp hj with rfl | hj
      · rw [hopen] at hg
        cases hg
        exact hkind
      · exact hkinds j hj g hg

end Counting

section Acceptance

variable {kernel kernel' : Kernel} {p : Slot} {pi : Frame}

/-- Both ends of the pipe are open in `p` through exactly two descriptors, one
read-only and one write-only. -/
def Kernel.PairedPipe (kernel : Kernel) (p : Slot) (pi : Frame) : Prop :=
  ∃ r w, kernel.fdMeets p (File.readsPipe pi) r = true ∧
    kernel.fdMeets p (File.writesPipe pi) w = true ∧
    ∀ i, kernel.fdMeets p (File.onPipe pi) i = true → i = r ∨ i = w

variable {q : Slot} {i : Fin NOFILE}

/-- A process with both ends of a pipe has a file for each. -/
theorem Kernel.PairedPipe.holds (hpaired : kernel.PairedPipe p pi) (writes : Bool) :
    ∃ i f, (kernel.proc p).ofile i = some f ∧ (kernel.file f).type = .pipe ∧
      (kernel.file f).endOn pi writes = 1 := by
  obtain ⟨r, w, hreads, hwrites, _⟩ := hpaired
  obtain ⟨i, flags, hmeets, hflags⟩ : ∃ i, ∃ flags : File → Bool,
      kernel.fdMeets p (fun file => file.onPipe pi && flags file) i = true ∧
        ∀ file, flags file = true → decide (file.writable ≠ 0) = writes := by
    cases writes with
    | false => exact ⟨r, _, hreads, fun file hfile => by simp [(of_decide_eq_true hfile).2]⟩
    | true => exact ⟨w, _, hwrites, fun file hfile => by simp [(of_decide_eq_true hfile).2]⟩
  obtain ⟨f, hopen, hfile⟩ := fdMeets_iff.mp hmeets
  obtain ⟨hon, hend⟩ := Bool.and_eq_true_iff.mp hfile
  obtain ⟨htype, hpi⟩ := of_decide_eq_true hon
  exact ⟨i, f, hopen, htype, if_pos ⟨htype, hpi, hflags _ hend⟩⟩

end Acceptance

end CkptKernel
