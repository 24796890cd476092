/-
What the kernel's tables promise each other: every open file and every
current directory holds a reference to its inode.
-/
import CkptKernel.CheckpointImage
import CkptKernel.Lib.TableSum

namespace CkptKernel

open ByteMem Code TableSum

def File.holds (file : File) (e : InodeRef) : Int :=
  if 0 < file.ref ∧ (file.type = .inode ∨ file.type = .device) ∧ file.ip = e
  then 1 else 0

/-- The reference that a process holds by its current directory. -/
def Proc.holds (proc : Proc) (e : InodeRef) : Int :=
  if proc.cwd = some e then 1 else 0

/-- References held by open files and processes. -/
def Kernel.holds (kernel : Kernel) (e : InodeRef) : Int :=
  ∑ f, (kernel.file f).holds e + ∑ p, (kernel.proc p).holds e

theorem File.holds_nonneg (file : File) (e : InodeRef) : 0 ≤ file.holds e := by
  unfold File.holds
  split <;> omega

theorem Proc.holds_nonneg (proc : Proc) (e : InodeRef) : 0 ≤ proc.holds e := by
  unfold Proc.holds
  split <;> omega

theorem Kernel.holds_nonneg (kernel : Kernel) (e : InodeRef) : 0 ≤ kernel.holds e :=
  Int.add_nonneg (Finset.sum_nonneg fun _ _ => File.holds_nonneg _ e)
    (Finset.sum_nonneg fun _ _ => Proc.holds_nonneg _ e)

structure File.OnInode (file : File) : Prop where
  ref : 0 < file.ref
  type : file.type = .inode ∨ file.type = .device

theorem Kernel.holds_file (kernel : Kernel) {f : FileRef} (hopen : (kernel.file f).OnInode) :
    0 < kernel.holds (kernel.file f).ip := by
  have hone : (kernel.file f).holds (kernel.file f).ip = 1 :=
    if_pos ⟨hopen.ref, hopen.type, rfl⟩
  have hle := Finset.single_le_sum (f := fun g => (kernel.file g).holds
    (kernel.file f).ip) (fun _ _ => File.holds_nonneg _ _) (Finset.mem_univ f)
  have hproc : 0 ≤ ∑ p, (kernel.proc p).holds (kernel.file f).ip :=
    Finset.sum_nonneg fun _ _ => Proc.holds_nonneg _ _
  simp only [hone] at hle
  unfold Kernel.holds
  omega

variable {p : Slot}

theorem Kernel.holds_cwd (kernel : Kernel) {ip : InodeRef}
    (hcwd : (kernel.proc p).cwd = some ip) : 0 < kernel.holds ip := by
  have hone : (kernel.proc p).holds ip = 1 := if_pos hcwd
  have hle := Finset.single_le_sum (f := fun q => (kernel.proc q).holds ip)
    (fun _ _ => Proc.holds_nonneg _ _) (Finset.mem_univ p)
  have hfile : 0 ≤ ∑ f, (kernel.file f).holds ip :=
    Finset.sum_nonneg fun _ _ => File.holds_nonneg _ _
  simp only [hone] at hle
  unfold Kernel.holds
  omega

/-- The file system side of a kernel between two calls: every reference that
an open file or a process holds is counted and names an inode of the disk. -/
structure Kernel.FsOk (kernel : Kernel) : Prop where
  ok : kernel.fs.Ok
  held : kernel.fs.Held kernel.holds
  inum : ∀ e, 0 < kernel.holds e → (kernel.fs.inode e).inum < kernel.fs.sb.ninodes

variable {kernel : Kernel}

theorem Kernel.FsOk.cwdOk (hfs : kernel.FsOk) (p : Slot) : kernel.fs.CwdOk (kernel.proc p).cwd := by
  intro ip hcwd
  have hpos := kernel.holds_cwd hcwd
  exact ⟨Int.lt_of_lt_of_le hpos (hfs.held ip), hfs.inum ip hpos⟩

def Kernel.FdsOpen (kernel : Kernel) (p : Slot) : Prop :=
  ∀ i f, (kernel.proc p).ofile i = some f → 0 < (kernel.file f).ref

variable {fs' : Fs}

section

variable (hsame : ∀ i f, (kernel.proc p).ofile i = some f →
  ((kernel.file f).type = .inode ∨ (kernel.file f).type = .device) →
  (fs'.inode (kernel.file f).ip).inum = (kernel.fs.inode (kernel.file f).ip).inum)
include hsame

/-- Capturing a descriptor table needs the inode numbers of its files only. -/
theorem captureFrom_congr (fds : List (Fin NOFILE)) (capture : Capture) :
    captureFrom (kernel.withFs fs') p fds capture = captureFrom kernel p fds capture := by
  induction fds generalizing capture with
  | nil => rfl
  | cons i rest ih =>
    unfold captureFrom
    rw [withFs_proc, withFs_file]
    cases hof : (kernel.proc p).ofile i with
    | none => exact ih capture
    | some f =>
      have hone : capture.file fs'.inode i (kernel.file f) =
          capture.file kernel.fs.inode i (kernel.file f) := by
        unfold Capture.file
        cases htype : (kernel.file f).type with
        | none => rfl
        | pipe => rfl
        | inode => rw [hsame i f hof (Or.inl htype)]
        | device => rw [hsame i f hof (Or.inr htype)]
      change (capture.file fs'.inode i (kernel.file f)).bind
          (captureFrom (kernel.withFs fs') p rest) =
        (capture.file kernel.fs.inode i (kernel.file f)).bind (captureFrom kernel p rest)
      rw [hone, funext ih]

theorem captureFds_congr : captureFds (kernel.withFs fs') p = captureFds kernel p := by
  unfold captureFds
  rw [captureFrom_congr hsame]

end

theorem ckptHeader_congr (hsame : ∀ ip, (kernel.proc p).cwd = some ip →
      (fs'.inode ip).inum = (kernel.fs.inode ip).inum) (capture : Capture) :
    ckptHeader (kernel.withFs fs') p capture = ckptHeader kernel p capture := by
  unfold ckptHeader
  rw [withFs_proc, withFs_mem, withFs_fs]
  cases hcwd : (kernel.proc p).cwd with
  | none => rfl
  | some ip => simp only [hsame ip hcwd]

/-- Inodes of one block each: what is left to check of soundness. -/
theorem Fs.Sound.ofSmall {fs : Fs} {dn : Nat → Dinode} (hlayout : Layout fs.sb)
    (hmarked : ∀ b, b < fs.sb.datastart → b < fs.sb.size → fs.used b = true)
    (hsmall : ∀ inum, inum < fs.sb.ninodes → (dn inum).type ≠ 0 →
      (∀ i, i ≠ 0 → (dn inum).addrs i = 0) ∧
      fs.Given ((dn inum).addrs 0).toNat ∧ (dn inum).size.toNat ≤ BSIZE)
    (hunique : ∀ inum inum', inum < fs.sb.ninodes → inum' < fs.sb.ninodes →
      (dn inum).type ≠ 0 → (dn inum').type ≠ 0 →
      (dn inum).addrs 0 = (dn inum').addrs 0 → inum = inum') : fs.Sound dn := by
  have hfirst : ∀ inum slot, LivePlace fs.sb dn (inum, slot) →
      (dn inum).blockAt fs.disk slot ≠ 0 → slot = .addr 0 := by
    rintro inum slot ⟨hinum, htype, _⟩ hne
    obtain ⟨hrest, _, _⟩ := hsmall inum hinum htype
    cases slot with
    | addr i =>
      by_cases hi : i = 0
      · rw [hi]
      · simp [Dinode.blockAt, hrest i hi] at hne
    | entry j => simp [Dinode.blockAt, hrest indirectSlot (by decide)] at hne
  refine ⟨hlayout, hmarked, ⟨?_, ?_⟩, ?_⟩
  · rintro ⟨inum, slot⟩ hlive hne
    have hslot := hfirst inum slot hlive hne
    subst hslot
    exact (hsmall inum hlive.1 hlive.2.1).2.1
  · rintro ⟨inum, slot⟩ ⟨inum', slot'⟩ hlive hlive' hne heq
    have hslot := hfirst inum slot hlive hne
    have hslot' := hfirst inum' slot' hlive' (by
      intro hzero
      exact hne (heq.trans hzero))
    subst hslot hslot'
    rw [hunique inum inum' hlive.1 hlive'.1 hlive.2.1 hlive'.2.1 (UInt32.toNat_inj.mp heq)]
  · intro inum hinum htype
    obtain ⟨_, hgiven, hsize⟩ := hsmall inum hinum htype
    refine ⟨Nat.le_trans hsize (by decide), fun bn hbn => ?_⟩
    have hbn0 : bn = 0 := by
      simp only [BSIZE] at *
      omega
    subst hbn0
    have hlow := hgiven.1
    have hpos : 0 < fs.sb.datastart := Nat.succ_pos _
    change ((dn inum).addrs 0).toNat ≠ 0
    omega

/-- An inode of at most one block. -/
def smallDinode (type : UInt16) (size block : UInt32) : Dinode :=
  ⟨type, 0, 0, 1, size, fun i => if i = 0 then block else 0⟩

/-- A root directory that lists one file, `c`. -/
def smallRoot : Block := fun i =>
  if i < 16 then dirent dotName 1 i
  else if i < 32 then dirent dotdotName 1 (i - 16)
  else if i < 48 then dirent [99] 2 (i - 32)
  else 0

/-- A disk with that directory; `map` is the free map, `data` the file. -/
def smallDisk (map : Block) (size : UInt32) (data : Block) : Disk := fun b =>
  if b = 4 then putDinode (smallDinode T_FILE size 7)
    (putDinode (smallDinode T_DIR 48 6) (fun _ => 0) 1) 2
  else if b = 5 then map
  else if b = 6 then smallRoot
  else if b = 7 then data
  else fun _ => 0

def smallSb : Superblock := ⟨200, 16, 4, 5⟩

/-- The root directory is in use twice. -/
def smallFs (map : Block) (size : UInt32) (data : Block) : Fs where
  sb := smallSb
  disk := smallDisk map size data
  log := .empty
  inode := fun e => if e.val = 0 then ⟨1, 2, false, false, .fresh 0⟩
    else ⟨0, 0, false, false, .fresh 0⟩

theorem smallFs_dinode (map : Block) (size : UInt32) (data : Block)
    {inum : Nat} (hinum : inum < 16) : (smallFs map size data).dinode inum =
      if inum = 2 then smallDinode T_FILE size 7 else if inum = 1 then smallDinode T_DIR 48 6
      else .fresh 0 := by
  have hblock : IBLOCK inum (smallFs map size data).sb = 4 := by
    simp only [IBLOCK, IPB, BSIZE, smallFs, smallSb]
    omega
  have hindex : inum % IPB = inum := Nat.mod_eq_of_lt hinum
  rw [Fs.dinode, hblock, hindex]
  change getDinode (putDinode _ (putDinode _ _ 1) 2) inum = _
  split
  next heq =>
    rw [heq, getDinode_putDinode_same]
  rename_i hne
  rw [getDinode_putDinode_ne _ _ hne]
  split
  next heq =>
    rw [heq, getDinode_putDinode_same]
  next hne' =>
    rw [getDinode_putDinode_ne _ _ hne']
    apply Dinode.ext <;> simp [getDinode, Dinode.fresh]

section SmallFs

variable {map data : Block} {size : UInt32}

theorem smallFs_used (hmap : map 0 = 0xff) {b : Nat} (hb : b < 8) :
    (smallFs map size data).used b = true := by
  have hblock : BBLOCK b (smallFs map size data).sb = 5 := by
    simp only [BBLOCK, BPB, BSIZE, smallFs, smallSb]
    omega
  have hindex : b % BPB = b := Nat.mod_eq_of_lt (by simp only [BPB, BSIZE]; omega)
  have hbyte : b / 8 = 0 := by omega
  rw [Fs.used, hblock, hindex]
  change bitSet map b = true
  have hbits : ∀ b, b < 8 → (255 &&& bitMask b != 0) = true := by decide
  rw [bitSet, hbyte, hmap]
  exact hbits b hb

theorem smallFs_sound (hmap : map 0 = 0xff) (hsize : size.toNat ≤ BSIZE) :
    (smallFs map size data).Sound (smallFs map size data).dinode := by
  have hsmall : ∀ inum, inum < 16 → ((smallFs map size data).dinode inum).type ≠ 0 →
      (inum = 2 ∧ (smallFs map size data).dinode inum = smallDinode T_FILE size 7) ∨
      (inum = 1 ∧ (smallFs map size data).dinode inum = smallDinode T_DIR 48 6) := by
    intro inum hinum htype
    rw [smallFs_dinode map size data hinum] at htype ⊢
    by_cases htwo : inum = 2
    · exact Or.inl ⟨htwo, if_pos htwo⟩
    rw [if_neg htwo] at htype ⊢
    by_cases hone : inum = 1
    · exact Or.inr ⟨hone, if_pos hone⟩
    · rw [if_neg hone] at htype
      exact (htype rfl).elim
  refine Fs.Sound.ofSmall ?_ ?_ ?_ ?_
  · change Layout smallSb
    exact ⟨by decide, by decide⟩
  · intro b hb _
    exact smallFs_used hmap (Nat.lt_trans hb (show smallSb.datastart < 8 by decide))
  · intro inum hinum htype
    rcases hsmall inum hinum htype with ⟨_, hdn⟩ | ⟨_, hdn⟩
    · rw [hdn]
      refine ⟨fun i hi => if_neg hi, ⟨?_, ?_, ?_⟩, hsize⟩
      · exact (by decide : smallSb.datastart ≤ 7)
      · exact (by decide : 7 < smallSb.size)
      · exact smallFs_used hmap (by decide : 7 < 8)
    · rw [hdn]
      refine ⟨fun i hi => if_neg hi, ⟨?_, ?_, ?_⟩, by decide⟩
      · exact (by decide : smallSb.datastart ≤ 6)
      · exact (by decide : 6 < smallSb.size)
      · exact smallFs_used hmap (by decide : 6 < 8)
  · intro inum inum' hinum hinum' htype htype' heq
    rcases hsmall inum hinum htype with ⟨rfl, hdn⟩ | ⟨rfl, hdn⟩ <;>
      rcases hsmall inum' hinum' htype' with ⟨rfl, hdn'⟩ | ⟨rfl, hdn'⟩
    · rfl
    · rw [hdn, hdn'] at heq
      exact absurd heq (by decide : (7 : UInt32) ≠ 6)
    · rw [hdn, hdn'] at heq
      exact absurd heq (by decide : (6 : UInt32) ≠ 7)
    · rfl

theorem smallFs_ok (hmap : map 0 = 0xff) (hsize : size.toNat ≤ BSIZE) :
    (smallFs map size data).Ok := by
  have hvalid : ∀ e, ((smallFs map size data).inode e).valid = false := by
    intro e
    simp only [smallFs]
    split <;> rfl
  have hnot : ∀ {P : Prop} e, ((smallFs map size data).inode e).valid = true → P := by
    intro P e he
    rw [hvalid e] at he
    cases he
  refine ⟨smallFs_sound hmap hsize,
    (by decide : ROOTINO < smallSb.ninodes), ?_, ?_, fun e _ => hnot e,
    fun e _ => hnot e, fun e _ => hnot e, ?_⟩
  · intro e
    simp only [smallFs]
    split <;> decide
  · intro e e' he he' _
    simp only [smallFs] at he he'
    split at he
    next hzero =>
      split at he'
      next hzero' =>
        exact Fin.ext (hzero.trans hzero'.symm)
      · cases he'
    · cases he
  · intro inum hinum htype k hk
    rw [smallFs_dinode map size data hinum] at htype hk ⊢
    have hone : inum = 1 := by
      by_contra hne
      rw [if_neg hne] at htype
      split at htype
      · exact absurd htype (by decide : T_FILE ≠ T_DIR)
      · exact absurd htype (by decide : 0 ≠ T_DIR)
    subst hone
    change DIRENT * k + DIRENT ≤ 48 at hk
    simp only [DIRENT] at hk
    have hread : ∀ i, i < 2 → (smallDinode T_DIR 48 6).byte
        (smallDisk map size data) (DIRENT * k + i) = smallRoot (DIRENT * k + i) := by
      intro i hi
      have hlt : DIRENT * k + i < BSIZE := by
        simp only [DIRENT, BSIZE]
        omega
      rw [Dinode.byte, Nat.div_eq_of_lt hlt, Nat.mod_eq_of_lt hlt]
      rfl
    have hentries : ∀ k, k < 3 →
        direntInum (fun i => smallRoot (DIRENT * k + i)) < smallSb.ninodes := by
      decide
    have hsame : direntInum (fun i => (smallDinode T_DIR 48 6).byte
        (smallDisk map size data) (DIRENT * k + i)) =
        direntInum (fun i => smallRoot (DIRENT * k + i)) :=
      getLE_congr fun i _ hi => hread i hi
    exact hsame ▸ hentries k (by omega)

end SmallFs


instance : NeZero NINODE := ⟨by decide⟩
instance : NeZero NFILE := ⟨by decide⟩

/-- A page table whose first `n` pages are present. -/
def smallPt (n : Nat) : PageTable :=
  ⟨10, fun i => if i = 0 then some ⟨11, fun j => if j = 0 then
    some ⟨12, fun k => if k.val < n then
      some ⟨.frame (Fin.ofNat NFRAME (100 + k)), ⟨true, true, true, true⟩⟩
      else none⟩ else none⟩ else none⟩

/-- A file open for reading on the root directory and both ends of a pipe. -/
def smallFile (f : FileRef) : File :=
  if f = 0 then ⟨.inode, 1, 1, 0, 0, 0, 5, 0⟩
  else if f = 1 then ⟨.pipe, 1, 1, 0, 14, 0, 0, 0⟩
  else if f = 2 then ⟨.pipe, 1, 0, 1, 14, 0, 0, 0⟩
  else ⟨.none, 0, 0, 0, 0, 0, 0, 0⟩

def smallOfile (i : Fin NOFILE) : Option FileRef :=
  if i.val = 0 then some 0 else if i.val = 1 then some 1
  else if i.val = 2 then some 2 else none

/-- One process of size `sz` with `n` pages. -/
def smallProc (sz n : Nat) (p : Slot) : Proc :=
  if p = initproc then
    ⟨.RUNNING, false, 0, 1, none, sz, some (smallPt n), some 9, smallOfile,
      some 0, fun i => if i = 0 then 115 else 0⟩
  else ⟨.UNUSED, false, 0, 0, none, 0, none, none, fun _ => none, none, fun _ => 0⟩

def smallFrames : List Frame :=
  [20, 21, 22, 23, 24, 25, 26, 27, 28, 29, 30, 31, 32, 33, 34, 35]

def smallKernel (sz n : Nat) (map : Block) (size : UInt32) (data : Block) : Kernel where
  fs := smallFs map size data
  mem := ⟨smallFrames, fun _ _ => 7⟩
  file := smallFile
  pipe := fun pi => if pi = 14 then some ⟨true, true⟩ else none
  proc := smallProc sz n
  nextpid := 2
  held := fun _ => false

theorem smallKernel_holds (sz n : Nat) (map : Block) (size : UInt32) (data : Block) (e : InodeRef) :
    (smallKernel sz n map size data).holds e = if e.val = 0 then 2 else 0 := by
  have hcwd : ∀ p, (smallProc sz n p).cwd = if p = initproc then some 0 else none := by
    intro p
    unfold smallProc
    split <;> rfl
  have hcount : ∀ e : InodeRef, ∑ f, (smallFile f).holds e +
      ∑ p, (if (if p = initproc then some 0 else none) = some e then 1 else 0) =
      if e.val = 0 then (2 : Int) else 0 := by
    decide +kernel
  rw [← hcount e]
  change ∑ f, (smallFile f).holds e + ∑ p, (smallProc sz n p).holds e = _
  simp only [Proc.holds, hcwd]

theorem smallKernel_fsOk (sz n : Nat) {map : Block} (hmap : map 0 = 0xff) {size : UInt32}
    (hsize : size.toNat ≤ BSIZE) (data : Block) : (smallKernel sz n map size data).FsOk := by
  refine ⟨smallFs_ok hmap hsize, ?_, ?_⟩
  · intro e
    rw [smallKernel_holds]
    change _ ≤ ((smallFs map size data).inode e).ref
    simp only [smallFs]
    split <;> decide
  · intro e he
    rw [smallKernel_holds] at he
    change ((smallFs map size data).inode e).inum < smallSb.ninodes
    simp only [smallFs]
    split
    · decide
    next hne =>
      rw [if_neg hne] at he
      cases he

end CkptKernel
