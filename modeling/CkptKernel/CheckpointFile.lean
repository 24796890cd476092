/-
`checkpoint_proc` as a whole: which file it opens and what that file holds
when the call returns.
-/
import CkptKernel.KernelState

namespace CkptKernel

open ByteMem Code

structure Kernel.Running (kernel : Kernel) (p : Slot) (pt : PageTable) : Prop where
  fs : kernel.FsOk
  fds : kernel.FdsOpen p
  pagetable : (kernel.proc p).pagetable = some pt

/-- The image of process `p`, with `capture` as its descriptors. -/
def ckptImage (kernel : Kernel) (p : Slot) (pt : PageTable) (stack : Bytes)
    (capture : Capture) : List UInt8 :=
  bytesOf (putHeader (ckptHeader kernel p capture) stack) HDRSZ ++
    pageStream kernel.mem pt (pagesOf (kernel.proc p).sz) 0

/-- What has been written when the call is done: nothing if the descriptors
are refused, otherwise a part of the image, all of it on success. -/
def CkptPart (kernel : Kernel) (p : Slot) (pt : PageTable) (stack : Bytes)
    (ok : Bool) (part : List UInt8) : Prop :=
  match captureFds kernel p with
  | none => ok = false ∧ part = []
  | some capture => part <+: ckptImage kernel p pt stack capture ∧
      (ok = true ↔ part = ckptImage kernel p pt stack capture)

theorem wlp_checkpointWrite {kernel : Kernel} {p : Slot} {pt : PageTable}
    (hpt : (kernel.proc p).pagetable = some pt) (hok : kernel.fs.Ok)
    {ip : InodeRef} (hloaded : kernel.fs.Loaded ip)
    (hfile : (kernel.fs.inode ip).copy.type ≠ T_DIR) (hdr : CkptHeader) (stack : Bytes) :
    wlp (checkpointWrite p ip hdr stack) kernel (fun ok kernel' =>
      kernel.OnlyFs kernel' ∧ ∃ part, part <+: bytesOf (putHeader hdr stack) HDRSZ ++
          pageStream kernel.mem pt (pagesOf (kernel.proc p).sz) 0 ∧
        (ok = true ↔ part = bytesOf (putHeader hdr stack) HDRSZ ++
          pageStream kernel.mem pt (pagesOf (kernel.proc p).sz) 0) ∧
        Fs.Overwritten ip part kernel.fs kernel'.fs) := by
  unfold checkpointWrite
  rw [wlp_bind, wlp_inFs]
  have hfirst := (Fs.Overwritten.refl hok hloaded).write hfile
    (putHeader hdr stack) (show 0 < HDRSZ by decide) (by decide)
  refine wlp_mono hfirst ?_
  rintro result fs₁ ⟨t, ht, hall, hover⟩
  rw [List.nil_append] at hover
  rw [wlp_ite]
  split
  next hshort =>
    refine (wlp_pure false).mpr ⟨rfl, _, ?_, ?_, hover⟩
    · exact (bytesOf_take _ ht).trans (List.prefix_append _ _)
    · apply shorter_iff
      have hne := mt hall.mpr hshort
      rw [List.length_append, bytesOf_length, bytesOf_length]
      omega
  next hwhole =>
    rw [not_not] at hwhole
    have hlen : t = HDRSZ := hall.mp hwhole
    subst hlen
    rw [wlp_bind, wlp_read, withFs_proc, hpt]
    have hloop := @wlp_checkpointAddrSpace pt ip kernel.fs hfile
      (pagesOf (kernel.proc p).sz) 0 (kernel.withFs fs₁) _ hover
    rw [bytesOf_length] at hloop
    refine wlp_mono hloop ?_
    rintro ok kernel' ⟨honly, part, hpart, hdone, hover'⟩
    refine ⟨honly, _, ?_, ?_, hover'⟩
    · exact (List.prefix_append_right_inj _).mpr hpart
    · rw [hdone]
      exact (List.append_right_inj _).symm

/-- The ways `checkpoint_proc` ends, without its transaction. -/
inductive CkptEnd (kernel : Kernel) (p : Slot) (pt : PageTable) (path : Name)
    (stack : Bytes) : Bool → Fs → Prop
  /-- No file could be opened. -/
  | unopened {fs' : Fs}
      (hrun : create (kernel.proc p).cwd path T_FILE 0 0 kernel.fs = .ok (none, fs')) :
      CkptEnd kernel p pt path stack false fs'
  /-- The file `ip` was opened and part of the image written. -/
  | opened {ok : Bool} {ip : InodeRef} {fs₁ fs₂ fs' : Fs} {part : List UInt8}
      (hrun : create (kernel.proc p).cwd path T_FILE 0 0 kernel.fs = .ok (some ip, fs₁))
      (hcreate : Fs.CreateEnd kernel.holds T_FILE kernel.fs (some ip) fs₁)
      (hpart : CkptPart kernel p pt stack ok part)
      (hover : Fs.Overwritten ip part fs₁ fs₂)
      (hput : Fs.Looks kernel.holds (-one ip) fs₂ fs')
      (hsame : (fs'.dinode (fs₁.inode ip).inum).type ≠ 0 → fs₂.SameFile fs' (fs₁.inode ip).inum) :
      CkptEnd kernel p pt path stack ok fs'

variable {fs fs' : Fs} {ip : InodeRef}

/-- A new or an old file is loaded when `create` returns it. -/
theorem Fs.CreateEnd.opened {h : InodeRef → Int} (hend : Fs.CreateEnd h T_FILE fs (some ip) fs') :
    Fs.Evolves h (one ip) fs fs' ∧ fs'.Loaded ip ∧ (fs'.inode ip).copy.type ≠ T_DIR := by
  cases hend with
  | old hlooks hloaded _ htype _ _ =>
    refine ⟨hlooks.evolves, hloaded, ?_⟩
    rcases htype with htype | htype <;> rw [htype] <;> decide
  | new _ _ hev hloaded htype _ _ =>
    refine ⟨hev, hloaded, ?_⟩
    rw [htype]
    decide

/-- Unless it is the last reference to a file without links, `iunlockput` leaves
the file alone. -/
theorem wlp_iunlockput_same (hok : fs.Ok) (hpos : 0 < (fs.inode ip).ref) :
    wlp (iunlockput ip) fs (fun _ fs' =>
      (fs'.dinode (fs.inode ip).inum).type ≠ 0 → fs.SameFile fs' (fs.inode ip).inum) := by
  unfold iunlockput
  refine wlp_seq (wlp_iunlock ip) ?_
  rintro _ fs₁ ⟨rfl, _, _⟩
  have hself : ((fs.unlockInode ip).inode ip).inum = (fs.inode ip).inum := by
    rw [Fs.unlockInode, withInode_self]
  refine wlp_mono (wlp_of_ends (ends_iput (hok.unlockInode hpos) ip)) ?_
  rintro _ fs' (⟨_, rfl⟩ | ⟨_, _, hfreed⟩) htype
  · exact .refl fs _
  · rw [← hself] at htype
    exact absurd hfreed.free htype

variable {kernel : Kernel} {p : Slot} {pt : PageTable}

theorem wlp_checkpointBody (hrunning : kernel.Running p pt) (path : Name) (stack : Bytes) :
    wlp (checkpointBody p path stack) kernel (fun ok kernel' =>
      kernel.OnlyFs kernel' ∧ CkptEnd kernel p pt path stack ok kernel'.fs) := by
  obtain ⟨⟨hok, hheld, hinum⟩, hfds, hpt⟩ := hrunning
  have hcwd := Kernel.FsOk.cwdOk ⟨hok, hheld, hinum⟩ p
  unfold checkpointBody
  rw [wlp_bind, wlp_read, wlp_bind, wlp_inFs]
  intro found fs₁ hrun
  have hcreate := wlp_of_ends (ends_create hok kernel.holds_nonneg hheld hcwd
    path T_FILE 0 0) found fs₁ hrun
  cases found with
  | none => exact (wlp_pure false).mpr ⟨rfl, .unopened hrun⟩
  | some ip =>
    obtain ⟨hev, hloaded, hfile⟩ := hcreate.opened
    have hheld₁ := hev.held hheld
    have hcapture : captureFds (kernel.withFs fs₁) p = captureFds kernel p := by
      apply captureFds_congr
      intro i f hof htype
      exact hev.inum _ (kernel.holds_file ⟨hfds i f hof, htype⟩)
    have hheader : ∀ capture, ckptHeader (kernel.withFs fs₁) p capture =
        ckptHeader kernel p capture := by
      intro capture
      apply ckptHeader_congr
      intro cwd hcwd
      exact hev.inum _ (kernel.holds_cwd hcwd)
    -- the end of the call, after `part` has been written
    have hclose : ∀ {ok : Bool} {part : List UInt8} {kernel₂ : Kernel},
        CkptPart kernel p pt stack ok part → kernel.OnlyFs kernel₂ →
        Fs.Overwritten ip part fs₁ kernel₂.fs →
        wlp (inFs (iunlockput ip) >>= fun _ => pure ok) kernel₂
          (fun ok kernel' => kernel.OnlyFs kernel' ∧
            CkptEnd kernel p pt path stack ok kernel'.fs) := by
      intro ok part kernel₂ hpart honly hover
      have hev₂ := hover.evolves (kernel.holds + one ip)
      rw [wlp_bind, wlp_inFs]
      refine wlp_mono (wlp_and (wlp_of_ends (ends_iunlockput hev₂.ok (hev₂.held_zero hheld₁)))
        (wlp_iunlockput_same hev₂.ok hover.loaded.ref)) ?_
      rintro _ fs' ⟨⟨hput, _⟩, hsame⟩
      rw [(hover.evolves (one ip)).inum ip (by simp)] at hsame
      rw [wlp_pure]
      refine ⟨?_, .opened hrun hcreate hpart hover hput hsame⟩
      rw [Kernel.OnlyFs, honly]
      rfl
    dsimp only
    rw [wlp_bind, wlp_read, hcapture]
    cases hcap : captureFds kernel p with
    | none =>
      refine @hclose false [] _ ?_ rfl (.refl hev.ok hloaded)
      simp [CkptPart, hcap]
    | some capture =>
      dsimp only
      rw [wlp_bind, hheader]
      refine wlp_mono (@wlp_checkpointWrite (kernel.withFs fs₁) p pt hpt
        hev.ok ip hloaded hfile _ stack) ?_
      rintro ok kernel₂ ⟨honly, part, hpart, hdone, hover⟩
      refine @hclose ok part kernel₂ ?_ ?_ hover
      · simp only [CkptPart, hcap]
        exact ⟨hpart, hdone⟩
      · rw [Kernel.OnlyFs, honly]
        rfl

/-- The file system with another log. -/
def Fs.withLog (fs : Fs) (log : Log) : Fs := { fs with log := log }

def Kernel.begun (kernel : Kernel) : Kernel :=
  kernel.withFs (kernel.fs.withLog kernel.fs.log.reserve)

theorem Fs.Ok.withLog (hok : fs.Ok) (log : Log) : (fs.withLog log).Ok :=
  ⟨⟨hok.sound.layout, hok.sound.marked, hok.sound.owned, hok.sound.full⟩,
    hok.root, hok.ref, hok.unique, hok.inum, hok.sync, hok.type, hok.dirs⟩

theorem Kernel.FsOk.withLog (hfs : kernel.FsOk) (log : Log) :
    (kernel.withFs (kernel.fs.withLog log)).FsOk :=
  ⟨hfs.ok.withLog log, hfs.held, hfs.inum⟩

theorem Kernel.Running.begun (hrunning : kernel.Running p pt) : kernel.begun.Running p pt :=
  ⟨hrunning.fs.withLog _, hrunning.fds, hrunning.pagetable⟩

theorem wlp_beginOp {post : Unit → Fs → Prop}
    (hpost : post () (fs.withLog fs.log.reserve)) : wlp beginOp fs post := by
  intro value fs' hrun
  unfold beginOp at hrun
  split at hrun
  · cases hrun
  · cases hrun
    exact hpost

theorem wlp_endOp {post : Unit → Fs → Prop}
    (hpost : ∀ log, post () (fs.withLog log)) : wlp endOp fs post := by
  intro value fs' hrun
  unfold endOp at hrun
  split at hrun
  · cases hrun
  · cases hrun
    exact hpost _
  · cases hrun
    exact hpost _

/-- The whole call. -/
theorem wlp_checkpointProc (hrunning : kernel.Running p pt) (path : Name) (stack : Bytes) :
    wlp (checkpointProc p path stack) kernel (fun ok kernel' =>
      kernel.OnlyFs kernel' ∧ ∃ fs₁ log, kernel'.fs = fs₁.withLog log ∧
        CkptEnd kernel.begun p pt path stack ok fs₁) := by
  unfold checkpointProc
  rw [wlp_bind, wlp_inFs]
  refine wlp_beginOp ?_
  refine wlp_seq (wlp_checkpointBody hrunning.begun path stack) ?_
  rintro ok kernel₁ ⟨honly, hend⟩
  rw [wlp_bind, wlp_inFs]
  refine wlp_endOp fun log => ?_
  rw [wlp_pure]
  refine ⟨?_, kernel₁.fs, log, rfl, hend⟩
  rw [Kernel.OnlyFs, honly]
  rfl

/-- The number of the file that `checkpoint_proc` opens. -/
def ckptFile (kernel : Kernel) (p : Slot) (path : Name) : Option Nat :=
  match create (kernel.proc p).cwd path T_FILE 0 0 kernel.begun.fs with
  | .ok (some ip, fs) => some (fs.inode ip).inum
  | _ => none

/-- File `inum` of `fs'` is that of `fs` with `part` written over its start. -/
structure Fs.Replaced (fs fs' : Fs) (inum : Nat) (part : List UInt8) : Prop where
  size : (fs'.dinode inum).size.toNat = max (fs.dinode inum).size.toNat part.length
  written : ∀ o, o < part.length → (fs'.dinode inum).byte fs'.disk o = part.getD o 0
  kept : ∀ o, part.length ≤ o → o < (fs.dinode inum).size.toNat →
    (fs'.dinode inum).byte fs'.disk o = (fs.dinode inum).byte fs.disk o

/-- Looking at the file before and after does not matter. -/
theorem Fs.Replaced.congr {fs₁ fs₂ : Fs} {inum : Nat}
    {part : List UInt8} (hbefore : fs.SameFile fs₁ inum) (hreplaced : fs₁.Replaced fs₂ inum part)
    (hafter : fs₂.SameFile fs' inum) : fs.Replaced fs' inum part := by
  have hsize := hreplaced.size
  rw [hbefore.1] at hsize
  refine ⟨by rw [hafter.1, hsize], ?_, ?_⟩
  · intro o ho
    rw [hafter.1, hafter.2 o (by omega), hreplaced.written o ho]
  · intro o hle ho
    have hold := hreplaced.kept o hle (by rwa [hbefore.1])
    rw [hafter.1, hafter.2 o (by omega), hold, hbefore.1, hbefore.2 o ho]

theorem Fs.Overwritten.replaced {part : List UInt8} (hok : fs.Ok) (hloaded : fs.Loaded ip)
    (hover : Fs.Overwritten ip part fs fs') : fs.Replaced fs' (fs.inode ip).inum part := by
  have hev := hover.evolves (one ip)
  have hinum := hev.inum ip (by simp)
  have hsync := hloaded.sync hok
  have hsync' := hover.loaded.sync hev.ok
  rw [hinum] at hsync'
  have hsize := hover.size
  have hwritten := hover.written
  have hkept := hover.kept
  rw [hsync, hsync'] at hsize hkept
  rw [hsync'] at hwritten
  exact ⟨hsize, hwritten, hkept⟩

/-- The file that was opened, if it was there before and linked. -/
theorem CkptEnd.replaced {path : Name} {stack : Bytes} {ok : Bool}
    (hend : CkptEnd kernel p pt path stack ok fs') {fs₁ : Fs}
    (hrun : create (kernel.proc p).cwd path T_FILE 0 0 kernel.fs = .ok (some ip, fs₁))
    (halloc : (kernel.fs.dinode (fs₁.inode ip).inum).type ≠ 0)
    (hlink : (kernel.fs.dinode (fs₁.inode ip).inum).nlink ≠ 0) :
    ∃ part, CkptPart kernel p pt stack ok part ∧
      kernel.fs.Replaced fs' (fs₁.inode ip).inum part := by
  cases hend with
  | unopened hnone =>
    rw [hrun] at hnone
    cases hnone
  | opened hrun' hcreate hpart hover hput _ =>
    rw [hrun] at hrun'
    cases hrun'
    obtain ⟨hev, hloaded, _⟩ := hcreate.opened
    have hlt : (fs₁.inode ip).inum < kernel.fs.sb.ninodes := by
      rw [← hev.sb]
      exact hloaded.inum hev.ok
    have hbefore : kernel.fs.SameFile fs₁ (fs₁.inode ip).inum := by
      cases hcreate with
      | old hlooks => exact hlooks.kept _ hlt halloc (Or.inl hlink)
      | new hlooks hnew =>
        have hsame := hlooks.kept _ hlt halloc (Or.inl hlink)
        rw [hsame.1] at hnew
        exact (halloc hnew).elim
    have hok₂ := (hover.evolves (one ip)).ok
    have hinum₂ := (hover.evolves (one ip)).inum ip (by simp)
    have hsync₁ := hloaded.sync hev.ok
    have hsync₂ := hover.loaded.sync hok₂
    have htype₂ := hover.loaded.type hok₂
    have hnlink₂ := hover.nlink
    have hlt₂ := hover.loaded.inum hok₂
    rw [hsync₂] at htype₂
    rw [hsync₁, hsync₂, hinum₂, hbefore.1] at hnlink₂
    rw [hinum₂] at htype₂ hlt₂
    have hafter := hput.kept _ hlt₂ htype₂ (Or.inl (by rwa [hnlink₂]))
    exact ⟨_, hpart, Fs.Replaced.congr hbefore (hover.replaced hev.ok hloaded) hafter⟩

theorem begun_image (kernel : Kernel) (p : Slot) (pt : PageTable)
    (stack : Bytes) (capture : Capture) : ckptImage kernel.begun p pt stack capture =
      ckptImage kernel p pt stack capture := by
  have hheader : ckptHeader kernel.begun p capture =
      ckptHeader kernel p capture := ckptHeader_congr (fun _ _ => rfl) capture
  rw [ckptImage, hheader]
  rfl

theorem begun_part (kernel : Kernel) (p : Slot) (pt : PageTable)
    (stack : Bytes) (ok : Bool) (part : List UInt8) : CkptPart kernel.begun p pt stack ok part ↔
      CkptPart kernel p pt stack ok part := by
  unfold CkptPart
  rw [show captureFds kernel.begun p = captureFds kernel p from captureFds_congr fun _ _ _ _ => rfl]
  simp only [begun_image]

/-- A failed checkpoint to a regular file that was there before leaves the
file alone if the descriptors are refused; otherwise it has written a proper
part of the new image over the start of the file. -/
theorem checkpointProc_failed {kernel kernel' : Kernel} {p : Slot}
    {pt : PageTable} (hrunning : kernel.Running p pt) {path : Name} {stack : Bytes}
    (hrun : checkpointProc p path stack kernel = .ok (false, kernel'))
    {inum : Nat} (hfile : ckptFile kernel p path = some inum)
    (htype : (kernel.fs.dinode inum).type = T_FILE)
    (hlink : (kernel.fs.dinode inum).nlink ≠ 0) : match captureFds kernel p with
    | none => kernel.fs.Replaced kernel'.fs inum []
    | some capture => ∃ t < (ckptImage kernel p pt stack capture).length,
        kernel.fs.Replaced kernel'.fs inum ((ckptImage kernel p pt stack capture).take t) := by
  obtain ⟨_, fs', log, hfs', hend⟩ :=
    wlp_checkpointProc hrunning path stack false kernel' hrun
  unfold ckptFile at hfile
  cases hcreate : create (kernel.proc p).cwd path T_FILE 0 0 kernel.begun.fs with
  | error reason =>
    rw [hcreate] at hfile
    cases hfile
  | ok result =>
    obtain ⟨found, fs₁⟩ := result
    rw [hcreate] at hfile
    cases found with
    | none => cases hfile
    | some ip =>
      cases hfile
      obtain ⟨part, hpart, hreplaced⟩ := hend.replaced hcreate
        (by rw [show kernel.begun.fs.dinode = kernel.fs.dinode from rfl, htype]; decide) hlink
      have hsame : kernel.fs.Replaced kernel'.fs (fs₁.inode ip).inum part := by
        rw [hfs']
        exact ⟨hreplaced.size, hreplaced.written, hreplaced.kept⟩
      rw [begun_part, CkptPart] at hpart
      cases hcap : captureFds kernel p with
      | none =>
        rw [hcap] at hpart
        rwa [hpart.2] at hsame
      | some capture =>
        rw [hcap] at hpart
        obtain ⟨hfirst, hdone⟩ := hpart
        have hne : part ≠ ckptImage kernel p pt stack capture :=
          fun heq => by cases hdone.mpr heq
        refine ⟨part.length, ?_, ?_⟩
        · refine Nat.lt_of_le_of_ne hfirst.length_le fun heq => ?_
          exact hne (hfirst.eq_of_length heq)
        · rwa [← List.prefix_iff_eq_take.mp hfirst]

/-- A machine whose disk is full; the file `c` is three bytes long. -/
def fullKernel : Kernel :=
  smallKernel 5000 1 (fun _ => 0xff) 3 (fun _ => 0xAA)

theorem fullKernel_running : fullKernel.Running initproc (smallPt 1) := by
  have hopen : ∀ (i : Fin NOFILE) f, smallOfile i = some f → 0 < (smallFile f).ref := by
    decide +kernel
  exact ⟨smallKernel_fsOk 5000 1 rfl (by decide) _, hopen, rfl⟩

theorem fullKernel_file : ckptFile fullKernel initproc [slash, 99] = some 2 := by
  decide +kernel

/-- The page does not fit; the header and the start of the page have replaced
the content of the file by then. -/
theorem checkpointProc_overwrites : fullKernel.Running initproc (smallPt 1) ∧
      ckptFile fullKernel initproc [slash, 99] = some 2 ∧ (fullKernel.fs.dinode 2).type = T_FILE ∧
      (fullKernel.fs.dinode 2).nlink ≠ 0 ∧
      ∃ kernel',
        checkpointProc initproc [slash, 99] (fun _ => 0) fullKernel = .ok (false, kernel') ∧
        (fullKernel.fs.dinode 2).byte fullKernel.fs.disk 0 = 0xAA ∧
        (kernel'.fs.dinode 2).byte kernel'.fs.disk 0 = 0x50 ∧ (fullKernel.fs.dinode 2).size = 3 ∧
        (kernel'.fs.dinode 2).size = 1024 := by
  have hseen : wp (checkpointProc initproc [slash, 99] (fun _ => 0)) fullKernel (fun ok kernel' =>
      ok = false ∧ (kernel'.fs.dinode 2).byte kernel'.fs.disk 0 = 0x50 ∧
        (kernel'.fs.dinode 2).size = 1024) := by
    decide +kernel
  obtain ⟨_, kernel', hrun, rfl, hbyte, hsize⟩ := hseen
  exact ⟨fullKernel_running, fullKernel_file, by decide +kernel,
    by decide +kernel, kernel', hrun, by decide +kernel, hbyte, by decide +kernel, hsize⟩

theorem checkpointProc_failed_fullDisk :
    ∃ kernel' capture, checkpointProc initproc [slash, 99] (fun _ => 0) fullKernel =
        .ok (false, kernel') ∧ captureFds fullKernel initproc = some capture ∧
      ∃ t < (ckptImage fullKernel initproc (smallPt 1) (fun _ => 0)
          capture).length, fullKernel.fs.Replaced kernel'.fs 2
          ((ckptImage fullKernel initproc (smallPt 1) (fun _ => 0)
            capture).take t) := by
  have hseen : wp (checkpointProc initproc [slash, 99] (fun _ => 0)) fullKernel
      (fun ok _ => ok = false) := by
    decide +kernel
  obtain ⟨_, kernel', hrun, rfl⟩ := hseen
  have hfailed := checkpointProc_failed fullKernel_running hrun fullKernel_file
    (by decide +kernel) (by decide +kernel)
  have hsome : (captureFds fullKernel initproc).isSome = true := by
    decide +kernel
  obtain ⟨capture, hcapture⟩ := Option.isSome_iff_exists.mp hsome
  rw [hcapture] at hfailed
  exact ⟨kernel', capture, hrun, hcapture, hfailed⟩

end CkptKernel
