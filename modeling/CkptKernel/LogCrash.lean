/-
Crash atomicity of the write-ahead log.  Every disk a crash can leave is in
one of two phases: settled on one image with an empty header, or committed,
with a full header and a complete copy of the transaction in the log.
Recovery, interrupted anywhere, keeps a phase or moves from committed to
settled.
-/
import CkptKernel.LogDisk

namespace CkptKernel

open ByteMem WriteSeq
open List (length_map length_range map_map mem_map mem_range nodup_range range_succ)
open Function (update update_of_ne update_self)

theorem putHead_entries_prefix (lh : LogHeader) (head : Block) (count : Nat) :
    ∀ width, width ≤ 4 → getLE ((List.range count).foldl
        (fun head i => putLE head (4 + 4 * i) 4 (lh.block i)) head) 0 width =
      getLE head 0 width := by
  intro width hwidth
  induction count with
  | zero => rfl
  | succ count ih =>
    rw [range_succ, List.foldl_append, List.foldl_cons, List.foldl_nil,
      getLE_putLE_disjoint _ (by omega), ih]

theorem putHead_count {lh : LogHeader} (hfits : lh.n < 2 ^ 31)
    (head : Block) : headCount (putHead lh head) = lh.n := by
  have hread : getLE (putHead lh head) 0 4 = lh.n := by
    rw [putHead, putHead_entries_prefix lh _ lh.n 4 (Nat.le_refl 4), getLE_putLE_same]
    omega
  rw [headCount, hread, if_pos hfits]

variable {lh : LogHeader}

theorem putHead_entry {i : Nat} (hi : i < lh.n) (hnumber : lh.block i < 2 ^ 32) (head : Block) :
    getLE (putHead lh head) (4 + 4 * i) 4 = lh.block i := by
  -- Entries written after `i` leave the four bytes of entry `i` alone.
  have hentry : ∀ count, i < count → ∀ base : Block, getLE ((List.range count).foldl
        (fun head j => putLE head (4 + 4 * j) 4 (lh.block j)) base)
      (4 + 4 * i) 4 = lh.block i := by
    intro count hcount base
    induction count with
    | zero => omega
    | succ count ih =>
      rw [range_succ, List.foldl_append, List.foldl_cons, List.foldl_nil]
      rcases Nat.lt_or_eq_of_le (Nat.lt_succ_iff.mp hcount) with hlt | rfl
      · rw [getLE_putLE_disjoint _ (by omega)]
        exact ih hlt
      · exact getLE_putLE_same _ (by simpa using hnumber)
  exact hentry lh.n hi _

theorem copyBlocks_run (count : Nat) (src dst : Nat → Nat) (run : DiskRun)
    (hapart : ∀ i j, i < count → j < count → src i ≠ dst j) :
    (copyBlocks count src dst run).issued = run.issued ++
        (List.range count).map (fun tail => (dst tail, run.view (src tail))) ∧
      (copyBlocks count src dst run).view = applyWrites
        ((List.range count).map (fun tail => (dst tail, run.view (src tail)))) run.view := by
  induction count with
  | zero => simp [copyBlocks]
  | succ count ih =>
    obtain ⟨hissued, hview⟩ := ih (fun i j hi hj =>
      hapart i j (by omega) (by omega))
    have hsource : (copyBlocks count src dst run).view (src count) = run.view (src count) := by
      rw [hview, applyWrites_of_not_mem]
      intro write hwrite
      obtain ⟨tail, htail, rfl⟩ := mem_map.mp hwrite
      exact (hapart count tail (by omega) (by have := mem_range.mp htail; omega)).symm
    have hstep : copyBlocks (count + 1) src dst run = bwrite (dst count) (run.view (src count))
          (copyBlocks count src dst run) := by
      rw [← hsource]
      simp [copyBlocks, range_succ]
    rw [hstep, range_succ]
    simp only [bwrite, hissued, hview, List.map_append, List.map_cons,
      List.map_nil, List.append_assoc, applyWrites_append, applyWrites_cons,
      applyWrites_nil, and_self]

/-- Home locations hold the image `home` and the log is empty. -/
structure Settled (logstart : Nat) (home disk : Disk) : Prop where
  empty : HeadEmpty logstart disk
  homes : ∀ blockno, ¬ InLog logstart blockno → disk blockno = home blockno

/-- The header lists the transaction `lh`, the log holds its blocks, and every
block the transaction does not touch is as in the image `after`. -/
structure Committed (logstart : Nat) (lh : LogHeader)
    (after disk : Disk) : Prop where
  count : headCount (disk logstart) = lh.n
  entries : ∀ i, i < lh.n → (readHead (disk logstart)).block i = lh.block i
  copies : ∀ i, i < lh.n → disk (logstart + i + 1) = after (lh.block i)
  others : ∀ blockno, ¬ InLog logstart blockno →
    (∀ i, i < lh.n → lh.block i ≠ blockno) → disk blockno = after blockno

theorem inLog_head (logstart : Nat) : InLog logstart logstart :=
  ⟨Nat.le_refl _, by omega⟩

variable {logstart : Nat}

theorem inLog_copy {i : Nat} (hi : i < LOGBLOCKS) : InLog logstart (logstart + i + 1) :=
  ⟨by omega, by omega⟩

/-- The writes that install a transaction. -/
abbrev LogHeader.installs (lh : LogHeader) (after : Disk) : List (Nat × Block) :=
  (List.range lh.n).map fun i => (lh.block i, after (lh.block i))

/-- The writes that copy a transaction to the log. -/
abbrev LogHeader.copies (lh : LogHeader) (logstart : Nat) (view : Disk) : List (Nat × Block) :=
  (List.range lh.n).map fun i => (logstart + i + 1, view (lh.block i))

theorem LogHeader.copies_nodup (lh : LogHeader) (logstart : Nat) (view : Disk) :
    ((lh.copies logstart view).map Prod.fst).Nodup := by
  rw [map_map]
  apply List.Nodup.map_on _ nodup_range
  intro i _ j _ heq
  simp only [Function.comp_apply] at heq
  omega

section Transaction

variable {logstart : Nat} {lh : LogHeader} (hlog : LoggedBlocks logstart lh)

include hlog

theorem LoggedBlocks.block_ne_head {i : Nat} (hi : i < lh.n) : lh.block i ≠ logstart := fun heq =>
  hlog.outside i hi (heq ▸ inLog_head logstart)

theorem LoggedBlocks.block_ne_copy {i j : Nat} (hi : i < lh.n)
    (hj : j < lh.n) : lh.block i ≠ logstart + j + 1 := fun heq =>
  hlog.outside i hi (heq ▸ inLog_copy (Nat.lt_of_lt_of_le hj hlog.fits))

variable {after disk : Disk}

variable (hdisk : Committed logstart lh after disk)
include hdisk

/-- Any part of the installation keeps a committed disk committed. -/
theorem Committed.install_take (count : Nat) :
    Committed logstart lh after (applyWrites ((lh.installs after).take count) disk) := by
  have hkeep : ∀ blockno, (∀ i, i < lh.n → lh.block i ≠ blockno) →
      applyWrites ((lh.installs after).take count) disk blockno = disk blockno := by
    intro blockno hmiss
    apply applyWrites_of_not_mem
    intro write hwrite
    obtain ⟨i, hi, rfl⟩ := mem_map.mp (List.mem_of_mem_take hwrite)
    exact hmiss i (mem_range.mp hi)
  have hhead := hkeep logstart (fun i hi => hlog.block_ne_head hi)
  refine ⟨?_, ?_, ?_, ?_⟩
  · rw [hhead]
    exact hdisk.count
  · intro i hi
    rw [hhead]
    exact hdisk.entries i hi
  · intro i hi
    rw [hkeep _ (fun j hj => hlog.block_ne_copy hj hi)]
    exact hdisk.copies i hi
  · intro blockno hout hmiss
    rw [hkeep blockno hmiss]
    exact hdisk.others blockno hout hmiss

/-- The whole installation followed by a cleared header settles a committed
disk on the image after the transaction. -/
theorem Committed.install_clear (head : Block) (hhead : headCount head = 0) :
    Settled logstart after (update (applyWrites (lh.installs after) disk) logstart head) := by
  refine ⟨by simpa [HeadEmpty] using hhead, ?_⟩
  intro blockno hout
  have hne : blockno ≠ logstart := fun heq =>
    hout (heq ▸ inLog_head logstart)
  rw [update_of_ne hne]
  by_cases hlogged : ∃ i, i < lh.n ∧ lh.block i = blockno
  · obtain ⟨i, hi, rfl⟩ := hlogged
    refine applyWrites_of_mem ?_ (mem_map.mpr ⟨i, mem_range.mpr hi, rfl⟩) disk
    rw [map_map]
    apply List.Nodup.map_on _ nodup_range
    intro i hi j hj heq
    exact hlog.distinct i j (mem_range.mp hi) (mem_range.mp hj) heq
  have hmiss : ∀ i, i < lh.n → lh.block i ≠ blockno := fun i hi heq =>
    hlogged ⟨i, hi, heq⟩
  rw [applyWrites_of_not_mem, hdisk.others blockno hout hmiss]
  intro write hwrite
  obtain ⟨i, hi, rfl⟩ := mem_map.mp hwrite
  exact hmiss i (mem_range.mp hi)

/-- What recovery writes on a committed disk. -/
theorem Committed.reboot_issued : ∃ head, headCount head = 0 ∧ (reboot logstart disk).issued =
      lh.installs after ++ [(logstart, head)] := by
  let found := readHead (disk logstart)
  have hfound : found.n = lh.n := hdisk.count
  have hrun := (copyBlocks_run found.n (fun tail => logstart + tail + 1)
    found.block (DiskRun.start disk) (by
      intro i j hi hj
      rw [hfound] at hi hj
      rw [show found.block j = lh.block j from hdisk.entries j hj]
      exact (hlog.block_ne_copy hj hi).symm)).1
  refine ⟨putHead { found with n := 0 }
    ((installTrans logstart found (DiskRun.start disk)).view logstart),
    @putHead_count { found with n := 0 } (by simp) _, ?_⟩
  change (copyBlocks found.n (fun tail => logstart + tail + 1) found.block
    (DiskRun.start disk)).issued ++ [(logstart, _)] = _
  rw [hrun, hfound]
  congr 1
  apply List.map_congr_left
  intro i hi
  have hi' := mem_range.mp hi
  have hblock : found.block i = lh.block i := hdisk.entries i hi'
  change (found.block i, disk (logstart + i + 1)) = _
  rw [hblock, hdisk.copies i hi']

/-- Installation and clearing of the header, stopped anywhere, leave a
committed disk committed or settle it. -/
theorem Committed.install_crash (head : Block) (hhead : headCount head = 0) (count : Nat)
    (phase : Disk)
    (hphase : phase = applyWrites ((lh.installs after ++ [(logstart, head)]).take count) disk) :
    Committed logstart lh after phase ∨ Settled logstart after phase := by
  subst hphase
  rcases take_append_cases (lh.installs after) [(logstart, head)] count with
    hinside | ⟨hpast, hall⟩
  · rw [hinside]
    exact Or.inl (Committed.install_take hlog hdisk count)
  · rw [hall, List.take_of_length_le
      (by simp only [List.length_singleton]; omega), applyWrites_append]
    exact Or.inr (Committed.install_clear hlog hdisk head hhead)

theorem Committed.crashedRecovery (count : Nat) :
    Committed logstart lh after (crashedRecovery logstart disk count) ∨
      Settled logstart after (crashedRecovery logstart disk count) := by
  obtain ⟨head, hhead, hissued⟩ := Committed.reboot_issued hlog hdisk
  apply Committed.install_crash hlog hdisk head hhead count
  rw [CkptKernel.crashedRecovery, crashDisk, hissued]

theorem Committed.recovered : Settled logstart after
      (applyWrites (reboot logstart disk).issued disk) := by
  obtain ⟨head, hhead, hissued⟩ := Committed.reboot_issued hlog hdisk
  rw [hissued, applyWrites_append]
  exact Committed.install_clear hlog hdisk head hhead

end Transaction

variable {home disk : Disk}

section

variable (hdisk : Settled logstart home disk)
include hdisk

theorem Settled.reboot_issued : ∃ head, headCount head = 0 ∧
      (reboot logstart disk).issued = [(logstart, head)] := by
  have hcount : (readHead (disk logstart)).n = 0 := hdisk.empty
  refine ⟨putHead { readHead (disk logstart) with n := 0 } (disk logstart),
    putHead_count (by simp) _, ?_⟩
  simp [reboot, recoverFromLog, installTrans, copyBlocks, hcount, writeHead, bwrite, DiskRun.start]

theorem Settled.update_head {head : Block} (hhead : headCount head = 0) :
    Settled logstart home (update disk logstart head) := by
  refine ⟨by simpa [HeadEmpty] using hhead, ?_⟩
  intro blockno hout
  have hne : blockno ≠ logstart := fun heq =>
    hout (heq ▸ inLog_head logstart)
  rw [update_of_ne hne]
  exact hdisk.homes blockno hout

theorem Settled.crashedRecovery (count : Nat) :
    Settled logstart home (crashedRecovery logstart disk count) := by
  obtain ⟨head, hhead, hissued⟩ := hdisk.reboot_issued
  rw [CkptKernel.crashedRecovery, crashDisk, hissued]
  cases count with
  | zero => exact hdisk
  | succ count => simpa using hdisk.update_head hhead

/-- Interrupted recoveries followed by a complete one keep a settled disk on
its image. -/
theorem Settled.recoverAfter (crashes : List Nat) :
    Settled logstart home (recoverAfter logstart disk crashes) := by
  induction crashes generalizing disk with
  | nil =>
    obtain ⟨head, hhead, hissued⟩ := hdisk.reboot_issued
    change Settled logstart home (applyWrites (reboot logstart disk).issued disk)
    rw [hissued]
    exact hdisk.update_head hhead
  | cons count rest ih => exact ih (hdisk.crashedRecovery count)

end

theorem Committed.recoverAfter (hlog : LoggedBlocks logstart lh) {after : Disk}
    (hdisk : Committed logstart lh after disk) (crashes : List Nat) :
    Settled logstart after (recoverAfter logstart disk crashes) := by
  induction crashes generalizing disk with
  | nil => exact Committed.recovered hlog hdisk
  | cons count rest ih =>
    rcases Committed.crashedRecovery hlog hdisk count with hstill | hdone
    · exact ih hstill
    · exact hdone.recoverAfter rest

/-- Recovery ends by clearing the header, whatever disk it started from. -/
theorem reboot_headEmpty (logstart : Nat) (disk : Disk) :
    HeadEmpty logstart (applyWrites (reboot logstart disk).issued disk) := by
  have hlast : (reboot logstart disk).issued = (installTrans logstart (readHead (disk logstart))
        (DiskRun.start disk)).issued ++ [(logstart, putHead { readHead (disk logstart) with n := 0 }
        ((installTrans logstart (readHead (disk logstart))
          (DiskRun.start disk)).view logstart))] := rfl
  rw [hlast, applyWrites_append]
  simp only [HeadEmpty, applyWrites_cons, applyWrites_nil, update_self]
  exact putHead_count (by simp) _

/-- The four write phases of `commit`: log copies, header, installation,
cleared header. -/
theorem commit_issued (hlog : LoggedBlocks logstart lh) (hsome : 0 < lh.n) (view : Disk) :
    ∃ full clear, headCount full = lh.n ∧ (∀ i, i < lh.n → (readHead full).block i = lh.block i) ∧
      headCount clear = 0 ∧ (commit logstart lh (DiskRun.start view)).issued =
        lh.copies logstart view ++
          (logstart, full) :: (lh.installs view ++ [(logstart, clear)]) := by
  have hsmall : lh.n < 2 ^ 31 := by
    have := hlog.fits
    simp only [LOGBLOCKS, MAXOPBLOCKS] at this
    omega
  obtain ⟨hcopied, hcopiedView⟩ := copyBlocks_run lh.n lh.block
    (fun tail => logstart + tail + 1) (DiskRun.start view)
    (fun i j hi hj => hlog.block_ne_copy hi hj)
  let copied := writeLog logstart lh (DiskRun.start view)
  let full := putHead lh (copied.view logstart)
  let headed := writeHead logstart lh copied
  -- The copy in the log is still there when the header has been written.
  have hlogged : ∀ i, i < lh.n → headed.view (logstart + i + 1) = view (lh.block i) := by
    intro i hi
    change update copied.view logstart full (logstart + i + 1) = _
    rw [update_of_ne (by omega)]
    change (copyBlocks lh.n lh.block (fun tail => logstart + tail + 1)
      (DiskRun.start view)).view (logstart + i + 1) = _
    rw [hcopiedView]
    exact applyWrites_of_mem (lh.copies_nodup logstart view)
      (mem_map.mpr ⟨i, mem_range.mpr hi, rfl⟩) _
  obtain ⟨hinstalled, -⟩ := copyBlocks_run lh.n (fun tail => logstart + tail + 1) lh.block headed
    (fun i j hi hj => (hlog.block_ne_copy hj hi).symm)
  let installed := installTrans logstart lh headed
  refine ⟨full, putHead { lh with n := 0 } (installed.view logstart),
    putHead_count hsmall _, fun i hi => putHead_entry hi (hlog.number i hi) _,
    putHead_count (by simp) _, ?_⟩
  rw [commit, if_pos hsome]
  change (copyBlocks lh.n (fun tail => logstart + tail + 1) lh.block
    headed).issued ++ [(logstart, _)] = _
  rw [hinstalled]
  change ((copyBlocks lh.n lh.block (fun tail => logstart + tail + 1)
    (DiskRun.start view)).issued ++ [(logstart, full)] ++ _) ++ _ = _
  rw [hcopied]
  have hwrites : (List.range lh.n).map (fun tail =>
      (lh.block tail, headed.view (logstart + tail + 1))) = lh.installs view := by
    apply List.map_congr_left
    intro i hi
    rw [hlogged i (mem_range.mp hi)]
  rw [hwrites]
  simp only [DiskRun.start, List.nil_append, List.append_assoc, List.cons_append]
  rfl

/-- The log copies alone leave the disk settled on the image it had. -/
theorem Settled.log_copies (hlog : LoggedBlocks logstart lh) (hdisk : Settled logstart home disk)
    (view : Disk) (count : Nat) :
    Settled logstart home (applyWrites ((lh.copies logstart view).take count) disk) := by
  have hkeep : ∀ blockno, (∀ i, i < LOGBLOCKS → logstart + i + 1 ≠ blockno) →
      applyWrites ((lh.copies logstart view).take count) disk blockno = disk blockno := by
    intro blockno hmiss
    apply applyWrites_of_not_mem
    intro write hwrite
    obtain ⟨i, hi, rfl⟩ := mem_map.mp (List.mem_of_mem_take hwrite)
    exact hmiss i (Nat.lt_of_lt_of_le (mem_range.mp hi) hlog.fits)
  constructor
  · rw [HeadEmpty, hkeep logstart (fun i _ => by omega)]
    exact hdisk.empty
  · intro blockno hout
    rw [hkeep blockno (fun i hi heq => hout (heq ▸ inLog_copy hi))]
    exact hdisk.homes blockno hout

variable {view : Disk}

/-- Once the first `write_head` has reached the disk the transaction is
committed. -/
theorem committed_of_header (hlog : LoggedBlocks logstart lh)
    (hview : CacheOf logstart lh disk view) {full : Block} (hcount : headCount full = lh.n)
    (hentries : ∀ i, i < lh.n → (readHead full).block i = lh.block i) :
    Committed logstart lh view
      (update (applyWrites (lh.copies logstart view) disk) logstart full) := by
  refine ⟨by simpa using hcount, by simpa using hentries, ?_, ?_⟩
  · intro i hi
    rw [update_of_ne (by omega)]
    exact applyWrites_of_mem (lh.copies_nodup logstart view)
      (mem_map.mpr ⟨i, mem_range.mpr hi, rfl⟩) disk
  intro blockno hout hmiss
  have hne : blockno ≠ logstart := fun heq =>
    hout (heq ▸ inLog_head logstart)
  rw [update_of_ne hne, applyWrites_of_not_mem, hview blockno hout hmiss]
  intro write hwrite heq
  obtain ⟨i, hi, rfl⟩ := mem_map.mp hwrite
  exact hout (heq ▸ inLog_copy (Nat.lt_of_lt_of_le (mem_range.mp hi) hlog.fits))

/-- The disk after a crash inside `commit`: settled on the old image before
the header write, committed or settled on the new image from it on. -/
theorem commit_crash_phase (hlog : LoggedBlocks logstart lh) (hsome : 0 < lh.n)
    (hempty : HeadEmpty logstart disk) (hview : CacheOf logstart lh disk view) (count : Nat)
    (phase : Disk)
    (hphase : phase = crashDisk disk (commit logstart lh (DiskRun.start view)) count) :
    (count ≤ lh.n ∧ Settled logstart disk phase) ∨
      (lh.n < count ∧ (Committed logstart lh view phase ∨ Settled logstart view phase)) := by
  obtain ⟨full, clear, hfull, hentries, hclear, hissued⟩ :=
    commit_issued hlog hsome view
  subst hphase
  rw [crashDisk, hissued]
  rcases take_append_cases (lh.copies logstart view) ((logstart, full) ::
      (lh.installs view ++ [(logstart, clear)])) count with hinside | ⟨hpast, hall⟩
  · rw [hinside]
    have hold : Settled logstart disk disk := ⟨hempty, fun _ _ => rfl⟩
    rcases Nat.lt_or_ge lh.n count with hlt | hge
    · -- Then the prefix would contain the header write.
      have hlength := congrArg List.length hinside
      simp only [List.length_take, List.length_append, length_map,
        length_range, List.length_cons, List.length_nil] at hlength
      omega
    · exact Or.inl ⟨hge, hold.log_copies hlog view count⟩
  · simp only [length_map, length_range] at hpast
    refine Or.inr ⟨hpast, ?_⟩
    obtain ⟨more, hmore⟩ : ∃ more, count - lh.n = more + 1 :=
      ⟨count - lh.n - 1, by omega⟩
    rw [hall, length_map, length_range, hmore, List.take_succ_cons,
      applyWrites_append, applyWrites_cons]
    exact Committed.install_crash hlog
      (committed_of_header hlog hview hfull hentries) clear hclear more _ rfl

/-- A completed commit leaves an empty header. -/
theorem commit_headEmpty (hlog : LoggedBlocks logstart lh)
    (hempty : HeadEmpty logstart disk) (hview : CacheOf logstart lh disk view) :
    HeadEmpty logstart (applyWrites (commit logstart lh (DiskRun.start view)).issued disk) := by
  rcases Nat.eq_zero_or_pos lh.n with hzero | hsome
  · simpa [commit, hzero, DiskRun.start] using hempty
  obtain ⟨full, clear, hfull, hentries, hclear, hissued⟩ :=
    commit_issued hlog hsome view
  rw [hissued, applyWrites_append, applyWrites_cons, applyWrites_append]
  exact (Committed.install_clear hlog
    (committed_of_header hlog hview hfull hentries) clear hclear).empty

theorem CommitStart.headEmpty (hdisk : CommitStart logstart disk) : HeadEmpty logstart disk := by
  induction hdisk with
  | boot disk => exact reboot_headEmpty logstart disk
  | committed _ hlog hview ih => exact commit_headEmpty hlog ih hview

/-- Crash atomicity.  Stop `commit` after any number of its block writes, and
then recovery any number of times after any number of its own: when recovery
completes the header is empty and the blocks outside the log are all as before
the transaction or all as after it, the latter as soon as the first
`write_head` had reached the disk. -/
theorem commit_crash_atomic {logstart : Nat} {disk view : Disk}
    {lh : LogHeader} (hdisk : CommitStart logstart disk)
    (hlog : LoggedBlocks logstart lh) (hview : CacheOf logstart lh disk view)
    (count : Nat) (crashes : List Nat) (final : Disk)
    (hfinal : final = recoverAfter logstart (crashDisk disk
      (commit logstart lh (DiskRun.start view)) count) crashes) :
    HeadEmpty logstart final ∧ ((∀ blockno, ¬ InLog logstart blockno →
          final blockno = disk blockno) ∨ (∀ blockno, ¬ InLog logstart blockno →
          final blockno = view blockno)) ∧ (lh.n < count → ∀ blockno, ¬ InLog logstart blockno →
        final blockno = view blockno) := by
  rcases Nat.eq_zero_or_pos lh.n with hzero | hsome
  · have hold : Settled logstart disk disk :=
      ⟨hdisk.headEmpty, fun _ _ => rfl⟩
    have hdone := hold.recoverAfter crashes
    have hsame : crashDisk disk (commit logstart lh (DiskRun.start view)) count = disk := by
      simp [crashDisk, commit, hzero, DiskRun.start]
    rw [hsame] at hfinal
    rw [← hfinal] at hdone
    refine ⟨hdone.empty, Or.inl hdone.homes, ?_⟩
    intro _ blockno hout
    rw [hdone.homes blockno hout, hview blockno hout (by omega)]
  · rcases commit_crash_phase hlog hsome hdisk.headEmpty hview count _ rfl
      with ⟨hle, hold⟩ | ⟨_, hnew⟩
    · have hdone := hold.recoverAfter crashes
      rw [← hfinal] at hdone
      exact ⟨hdone.empty, Or.inl hdone.homes, fun hlt => by omega⟩
    have hdone : Settled logstart view final := by
      rw [hfinal]
      rcases hnew with hcommitted | hsettled
      · exact Committed.recoverAfter hlog hcommitted crashes
      · exact hsettled.recoverAfter crashes
    exact ⟨hdone.empty, Or.inr hdone.homes, fun _ => hdone.homes⟩

/-- A transaction of two blocks on a freshly booted zero disk. -/
def twoBlocks : LogHeader := ⟨2, fun i => 40 + i⟩

def bootedDisk : Disk :=
  applyWrites (reboot 2 (fun _ _ => 0)).issued (fun _ _ => 0)

def twoBlocksCache : Disk :=
  update (update bootedDisk 40 (fun _ => 7)) 41 (fun _ => 8)

theorem twoBlocks_logged : LoggedBlocks 2 twoBlocks := by
  refine ⟨by decide, ?_, ?_, ?_⟩
  · intro i j _ _ hsame
    exact Nat.add_left_cancel hsame
  · intro i _ hin
    simp only [InLog, twoBlocks, LOGBLOCKS, MAXOPBLOCKS] at hin
    omega
  · intro i hi
    simp only [twoBlocks] at hi ⊢
    omega

theorem twoBlocks_cache : CacheOf 2 twoBlocks bootedDisk twoBlocksCache := by
  intro blockno _ hmiss
  have hfirst : blockno ≠ 40 := (hmiss 0 (by decide)).symm
  have hsecond : blockno ≠ 41 := (hmiss 1 (by decide)).symm
  rw [twoBlocksCache, update_of_ne hsecond, update_of_ne hfirst]

/-- The header has reached the disk, recovery is stopped twice, once between the
two blocks: both still get their new contents. -/
theorem commit_crash_atomic_twoBlocks : CommitStart 2 bootedDisk ∧ LoggedBlocks 2 twoBlocks ∧
      CacheOf 2 twoBlocks bootedDisk twoBlocksCache ∧ ∀ blockno ∈ [40, 41],
        recoverAfter 2 (crashDisk bootedDisk (commit 2 twoBlocks
          (DiskRun.start twoBlocksCache)) 3) [0, 1] blockno = twoBlocksCache blockno := by
  have hdisk : CommitStart 2 bootedDisk := CommitStart.boot _
  refine ⟨hdisk, twoBlocks_logged, twoBlocks_cache, ?_⟩
  have hatomic := commit_crash_atomic hdisk twoBlocks_logged twoBlocks_cache 3 [0, 1] _ rfl
  have hout : ∀ blockno ∈ [40, 41], ¬ InLog 2 blockno := by decide
  exact fun blockno hmem => hatomic.2.2 (by decide) blockno (hout blockno hmem)

end CkptKernel
