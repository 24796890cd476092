/-
What the system calls keep of the inodes behind open files and current
directories: a file that can be written is not a directory, and, as long as
restore is given no reason to break it, no inode is free.
-/
import CkptKernel.CheckpointFile
import CkptKernel.NameCalls

namespace CkptKernel

open ByteMem Code TableSum

/-- The type on disk of the inode of a table entry. -/
def Fs.typeOf (fs : Fs) (e : InodeRef) : UInt16 :=
  (fs.dinode (fs.inode e).inum).type

/-- The inode of a table entry is the one it was; an allocated one has its
type. -/
structure Fs.SameInode (fs fs' : Fs) (e : InodeRef) : Prop where
  sb : fs'.sb = fs.sb
  inum : (fs'.inode e).inum = (fs.inode e).inum
  type : (fs.inode e).inum < fs.sb.ninodes → fs.typeOf e ≠ 0 → fs'.typeOf e = fs.typeOf e

variable {fs fs' : Fs} {e : InodeRef}

theorem Fs.SameInode.trans {fs'' : Fs}
    (hfirst : fs.SameInode fs' e) (hnext : fs'.SameInode fs'' e) : fs.SameInode fs'' e := by
  refine ⟨hnext.sb.trans hfirst.sb, hnext.inum.trans hfirst.inum, ?_⟩
  intro hinum htype
  have hsame := hfirst.type hinum htype
  rw [← hsame]
  exact hnext.type (by rwa [hfirst.inum, hfirst.sb]) (by rwa [hsame])

theorem Fs.SameInode.inRange (hsame : fs.SameInode fs' e)
    (hinum : (fs.inode e).inum < fs.sb.ninodes) : (fs'.inode e).inum < fs'.sb.ninodes := by
  rwa [hsame.inum, hsame.sb]

theorem Fs.Evolves.sameInode {h d : InodeRef → Int}
    (hev : Fs.Evolves h d fs fs') (he : 0 < h e) : fs.SameInode fs' e := by
  refine ⟨hev.sb, hev.inum e he, fun hinum htype => ?_⟩
  rw [Fs.typeOf, hev.inum e he]
  exact hev.type e he hinum htype

/-- The types an inode may have behind an open file.  With `live` it has to be
allocated. -/
def File.Fits (live : Prop) (file : File) (type : UInt16) : Prop :=
  (file.type = .inode → file.writable ≠ 0 → type ≠ 0 ∧ type ≠ T_DIR) ∧ (live → type ≠ 0)

def CwdFits (live : Prop) (type : UInt16) : Prop := live → type = T_DIR

/-- The references that the kernel holds and `extra` more are counted, and the
inodes behind files and directories have the types they should have. -/
structure Kernel.Safe (live : Prop) (extra : InodeRef → Int)
    (kernel : Kernel) : Prop where
  ok : kernel.fs.Ok
  held : kernel.fs.Held (kernel.holds + extra)
  inum : ∀ e, 0 < kernel.holds e → (kernel.fs.inode e).inum < kernel.fs.sb.ninodes
  closed : ∀ f, (kernel.file f).ref = 0 → (kernel.file f).type = .none
  file : ∀ f, (kernel.file f).OnInode →
    (kernel.file f).Fits live (kernel.fs.typeOf (kernel.file f).ip)
  cwd : ∀ p ip, (kernel.proc p).cwd = some ip → CwdFits live (kernel.fs.typeOf ip)

/-- Nothing that matters to references has changed. -/
structure Kernel.SameRefs (kernel kernel' : Kernel) : Prop where
  fs : kernel'.fs = kernel.fs
  file : kernel'.file = kernel.file
  cwd : ∀ p, (kernel'.proc p).cwd = (kernel.proc p).cwd
  ofile : ∀ p, (kernel'.proc p).ofile = (kernel.proc p).ofile

theorem Kernel.SameRefs.of_proc {kernel kernel' : Kernel} (hfs : kernel'.fs = kernel.fs)
    (hfile : kernel'.file = kernel.file) (hproc : kernel'.proc = kernel.proc) :
    kernel.SameRefs kernel' :=
  ⟨hfs, hfile, fun _ => by rw [hproc], fun _ => by rw [hproc]⟩

instance : IsPreorder Kernel Kernel.SameRefs where
  refl _ := .of_proc rfl rfl rfl
  trans _ _ _ hfirst hnext := ⟨hnext.fs.trans hfirst.fs, hnext.file.trans hfirst.file,
    fun p => (hnext.cwd p).trans (hfirst.cwd p), fun p => (hnext.ofile p).trans (hfirst.ofile p)⟩

theorem respects_inMem {A : Type} (code : Code Mem A) : Respects Kernel.SameRefs (inMem code) := by
  intro kernel
  rw [inMem, wlp_within]
  exact fun _ _ _ => .of_proc rfl rfl rfl

theorem respects_setPipe (pi : Frame) (pipe : Option Pipe) :
    Respects Kernel.SameRefs (setPipe pi pipe) :=
  respects_update fun _ => .of_proc rfl rfl rfl

theorem respects_acquire (lock : Lock) : Respects Kernel.SameRefs (acquire lock) :=
  respects_read_bind fun _ => respects_ite (respects_panic _)
    (respects_update fun _ => .of_proc rfl rfl rfl)

theorem respects_release (lock : Lock) : Respects Kernel.SameRefs (release lock) :=
  respects_read_bind fun _ => respects_ite
    (respects_update fun _ => .of_proc rfl rfl rfl) (respects_panic _)

/-- One process changes, but not what it refers to. -/
theorem Kernel.SameRefs.set {kernel kernel' : Kernel} {p : Slot} {proc : Proc}
    (hfs : kernel'.fs = kernel.fs) (hfile : kernel'.file = kernel.file)
    (hproc : kernel'.proc = Function.update kernel.proc p proc)
    (hcwd : proc.cwd = (kernel.proc p).cwd) (hofile : proc.ofile = (kernel.proc p).ofile) :
    kernel.SameRefs kernel' := by
  have hsame : ∀ q, (kernel'.proc q).cwd = (kernel.proc q).cwd ∧
      (kernel'.proc q).ofile = (kernel.proc q).ofile := by
    intro q
    rw [hproc]
    by_cases heq : q = p
    · subst heq
      rw [Function.update_self]
      exact ⟨hcwd, hofile⟩
    · rw [Function.update_of_ne heq]
      exact ⟨rfl, rfl⟩
  exact ⟨hfs, hfile, fun q => (hsame q).1, fun q => (hsame q).2⟩

theorem respects_setProc (p : Slot) {change : Proc → Proc}
    (hrefs : ∀ proc, (change proc).cwd = proc.cwd ∧ (change proc).ofile = proc.ofile) :
    Respects Kernel.SameRefs (setProc p change) :=
  respects_update fun _ => .set rfl rfl rfl (hrefs _).1 (hrefs _).2

theorem respects_freeproc (p : Slot) : Respects Kernel.SameRefs (freeproc p) := by
  unfold freeproc
  refine respects_read_bind fun kernel => ?_
  refine respects_bind (respects_whenSome (fun _ => respects_inMem _) _) ?_
  intro _
  refine respects_bind (respects_setProc p fun _ => ⟨rfl, rfl⟩) fun _ => ?_
  refine respects_bind (respects_whenSome (fun _ => respects_inMem _) _) ?_
  exact fun _ => respects_setProc p fun _ => ⟨rfl, rfl⟩

theorem respects_allocprocFound (p : Slot) : Respects Kernel.SameRefs (allocprocFound p) := by
  have hfail : Respects Kernel.SameRefs (freeproc p >>= fun _ =>
      release (.proc p) >>= fun _ => pure (none : Option Slot)) :=
    respects_bind (respects_freeproc p) fun _ =>
      respects_bind (respects_release _) fun _ => respects_pure none
  unfold allocprocFound allocpid
  refine respects_bind (respects_read_bind fun _ => respects_bind
    (respects_update fun _ => .of_proc rfl rfl rfl) fun _ =>
      respects_pure _) fun pid => ?_
  refine respects_bind (respects_setProc p fun _ => ⟨rfl, rfl⟩) fun _ => ?_
  refine respects_bind (respects_inMem _) fun trapframe => ?_
  refine respects_bind (respects_setProc p fun _ => ⟨rfl, rfl⟩) fun _ => ?_
  cases trapframe with
  | none => exact hfail
  | some trapframe =>
    refine respects_bind (respects_inMem _) fun pagetable => ?_
    refine respects_bind (respects_setProc p fun _ => ⟨rfl, rfl⟩) fun _ => ?_
    cases pagetable with
    | none => exact hfail
    | some pt => exact respects_pure _

theorem respects_allocproc : Respects Kernel.SameRefs allocproc := by
  unfold allocproc
  generalize List.finRange NPROC = slots
  induction slots with
  | nil => exact respects_pure none
  | cons p rest ih =>
    unfold allocprocFrom
    refine respects_bind (respects_acquire _) fun _ => ?_
    refine respects_read_bind fun _ => ?_
    refine respects_ite (respects_allocprocFound p) ?_
    exact respects_bind (respects_release _) fun _ => ih

/-- The kernel with another entry in the file table. -/
def Kernel.withFile (kernel : Kernel) (f : FileRef) (file : File) : Kernel :=
  { kernel with file := Function.update kernel.file f file }

/-- The kernel with another entry in the process table. -/
def Kernel.withProc (kernel : Kernel) (p : Slot) (proc : Proc) : Kernel :=
  { kernel with proc := Function.update kernel.proc p proc }

/-- The kernel with another entry in a descriptor table. -/
def Kernel.withOfile (kernel : Kernel) (p : Slot) (i : Fin NOFILE)
    (f : Option FileRef) : Kernel :=
  kernel.withProc p { kernel.proc p with
    ofile := Function.update (kernel.proc p).ofile i f }

section Tables

variable {kernel : Kernel} {f : FileRef} {p : Slot}

@[simp] theorem wlp_setFile {change : File → File}
    {post : Unit → Kernel → Prop} : wlp (setFile f change) kernel post ↔
      post () (kernel.withFile f (change (kernel.file f))) := wlp_update

@[simp] theorem wlp_setProc {change : Proc → Proc}
    {post : Unit → Kernel → Prop} : wlp (setProc p change) kernel post ↔
      post () (kernel.withProc p (change (kernel.proc p))) := wlp_update

theorem wlp_setOfile {i : Fin NOFILE} {f : Option FileRef} {post : Unit → Kernel → Prop} :
    wlp (setOfile p i f) kernel post ↔ post () (kernel.withOfile p i f) := wlp_update

@[simp] theorem withFile_self (file : File) :
    (kernel.withFile f file).file f = file := Function.update_self _ _ _

theorem withFile_of_ne {g : FileRef} (hne : g ≠ f) (file : File) :
    (kernel.withFile f file).file g = kernel.file g :=
  Function.update_of_ne hne _ _

@[simp] theorem withFile_withFile (file file' : File) :
    (kernel.withFile f file).withFile f file' = kernel.withFile f file' := by
  simp [Kernel.withFile]

@[simp] theorem withProc_self (proc : Proc) :
    (kernel.withProc p proc).proc p = proc := Function.update_self _ _ _

@[simp] theorem withProc_withProc (proc proc' : Proc) :
    (kernel.withProc p proc).withProc p proc' = kernel.withProc p proc' := by
  simp [Kernel.withProc]

/-- The tables are independent of each other. -/
theorem withProc_withFs (proc : Proc) (fs : Fs) :
    (kernel.withProc p proc).withFs fs = (kernel.withFs fs).withProc p proc :=
  rfl

theorem withProc_of_ne {q : Slot} (hne : q ≠ p) (proc : Proc) :
    (kernel.withProc p proc).proc q = kernel.proc q :=
  Function.update_of_ne hne _ _

/-- A new entry replaces the reference of the old one. -/
theorem holds_withFile (file : File) (e : InodeRef) :
    (kernel.withFile f file).holds e + (kernel.file f).holds e = kernel.holds e + file.holds e := by
  have hsum := sum_update_add (fun file => File.holds file e) kernel.file f file
  simp only [Kernel.holds, Kernel.withFile]
  omega

theorem holds_withProc (proc : Proc) (e : InodeRef) :
    (kernel.withProc p proc).holds e + (kernel.proc p).holds e = kernel.holds e + proc.holds e := by
  have hsum := sum_update_add (fun proc => Proc.holds proc e) kernel.proc p proc
  simp only [Kernel.holds, Kernel.withProc]
  omega

end Tables

variable {file : File}

theorem File.holds_of_closed (hclosed : file.type = .none ∨ file.type = .pipe) (e : InodeRef) :
    file.holds e = 0 := by
  refine if_neg fun hopen => ?_
  rcases hclosed with hclosed | hclosed <;> rw [hclosed] at hopen <;>
    rcases hopen.2.1 with htype | htype <;> cases htype

theorem File.OnInode.holds (hon : file.OnInode) : file.holds = one file.ip := by
  funext e
  by_cases heq : e = file.ip
  · rw [heq, one_self]
    exact if_pos ⟨hon.ref, hon.type, rfl⟩
  · rw [one_of_ne heq]
    exact if_neg fun hopen => heq hopen.2.2.symm

theorem File.OnInode.of_holds (hpos : 0 < file.holds e) : file.OnInode ∧ file.ip = e := by
  unfold File.holds at hpos
  split at hpos
  next hopen =>
    exact ⟨⟨hopen.1, hopen.2.1⟩, hopen.2.2⟩
  · cases hpos

namespace Kernel.Safe

variable {live : Prop} {extra extra' : InodeRef → Int} {kernel kernel' : Kernel}

theorem fsOk (hsafe : kernel.Safe live 0) : kernel.FsOk :=
  ⟨hsafe.ok, by simpa using hsafe.held, hsafe.inum⟩

theorem nonneg (hnn : ∀ e, 0 ≤ extra e) (e : InodeRef) : 0 ≤ (kernel.holds + extra) e :=
  Int.add_nonneg (kernel.holds_nonneg e) (hnn e)

theorem holds_le (hnn : ∀ e, 0 ≤ extra e) (e : InodeRef) :
    kernel.holds e ≤ (kernel.holds + extra) e :=
  Int.le_add_of_nonneg_right (hnn e)

section

variable (hsafe : kernel.Safe live extra)
include hsafe

theorem congr (hfs : kernel'.fs = kernel.fs) (hfile : kernel'.file = kernel.file)
    (hcwd : ∀ p, (kernel'.proc p).cwd = (kernel.proc p).cwd) : kernel'.Safe live extra := by
  have hholds : kernel'.holds = kernel.holds := by
    funext e
    simp only [Kernel.holds, hfile, Proc.holds, hcwd]
  obtain ⟨hok, hheld, hinum, hclosed, hfits, hdir⟩ := hsafe
  refine ⟨?_, ?_, ?_, ?_, ?_, ?_⟩
  · rwa [hfs]
  · rwa [hfs, hholds]
  · rwa [hfs, hholds]
  · rwa [hfile]
  · rwa [hfile, hfs]
  · intro p ip heq
    rw [hcwd p] at heq
    rw [hfs]
    exact hdir p ip heq

theorem sameRefs (hsame : kernel.SameRefs kernel') : kernel'.Safe live extra :=
  hsafe.congr hsame.fs hsame.file hsame.cwd

/-- Descriptors do not matter. -/
theorem withOfile (p : Slot) (i : Fin NOFILE) (f : Option FileRef) :
    (kernel.withOfile p i f).Safe live extra := by
  refine hsafe.congr rfl rfl fun q => ?_
  by_cases heq : q = p
  · rw [heq, Kernel.withOfile, withProc_self]
  · rw [Kernel.withOfile, withProc_of_ne heq]

/-- The file system may evolve under the references that are held. -/
theorem evolves {h d : InodeRef → Int} {fs' : Fs} (hev : Fs.Evolves h d kernel.fs fs')
    (hle : ∀ e, kernel.holds e ≤ h e) : (kernel.withFs fs').Safe live (extra + d) := by
  have hsame : ∀ e, 0 < kernel.holds e → kernel.fs.SameInode fs' e :=
    fun e he => hev.sameInode (Int.lt_of_lt_of_le he (hle e))
  have htype : ∀ e, 0 < kernel.holds e → kernel.fs.typeOf e ≠ 0 →
      fs'.typeOf e = kernel.fs.typeOf e :=
    fun e he hne => (hsame e he).type (hsafe.inum e he) hne
  refine ⟨hev.ok, ?_, ?_, hsafe.closed, ?_, ?_⟩
  · have hheld := hev.held hsafe.held
    rwa [add_assoc] at hheld
  · intro e he
    exact (hsame e he).inRange (hsafe.inum e he)
  · intro f hon
    have hfits := hsafe.file f hon
    have hpos := kernel.holds_file hon
    by_cases hzero : kernel.fs.typeOf (kernel.file f).ip = 0
    · rw [hzero] at hfits
      exact ⟨fun htype hwrite => ((hfits.1 htype hwrite).1 rfl).elim,
        fun hlive => (hfits.2 hlive rfl).elim⟩
    · change (kernel.file f).Fits live (fs'.typeOf (kernel.file f).ip)
      rwa [htype _ hpos hzero]
  · intro p ip hcwd hlive
    have hdir := hsafe.cwd p ip hcwd hlive
    change fs'.typeOf ip = T_DIR
    rw [htype ip (kernel.holds_cwd hcwd) (by rw [hdir]; decide), hdir]

/-- Every reference is the kernel's own, and none comes or goes. -/
theorem evolves_same {fs' : Fs} (hev : Fs.Evolves kernel.holds 0 kernel.fs fs') :
    (kernel.withFs fs').Safe live extra := by
  have hnext := hsafe.evolves hev fun _ => Int.le_refl _
  rwa [add_zero] at hnext

end

/-- The references that come are the call's. -/
theorem evolves_zero (hsafe : kernel.Safe live 0) {d : InodeRef → Int} {fs' : Fs}
    (hev : Fs.Evolves kernel.holds d kernel.fs fs') : (kernel.withFs fs').Safe live d := by
  have hnext := hsafe.evolves hev fun _ => Int.le_refl _
  rwa [zero_add] at hnext

variable (hsafe : kernel.Safe live extra)
include hsafe

theorem withLog (log : Log) : (kernel.withFs (kernel.fs.withLog log)).Safe live extra :=
  ⟨hsafe.ok.withLog log, hsafe.held, hsafe.inum, hsafe.closed, hsafe.file, hsafe.cwd⟩

/-- Replace an entry of the file table. -/
theorem withFile {f : FileRef} {file : File} (hclosed : file.ref = 0 → file.type = .none)
    (hon : file.OnInode → (kernel.fs.inode file.ip).inum <
      kernel.fs.sb.ninodes ∧ file.Fits live (kernel.fs.typeOf file.ip))
    (hextra : ∀ e, extra' e + file.holds e ≤ extra e + (kernel.file f).holds e) :
    (kernel.withFile f file).Safe live extra' := by
  have hentry : ∀ {g}, ((kernel.withFile f file).file g).OnInode →
      (g = f ∧ (kernel.withFile f file).file g = file) ∨
        (kernel.withFile f file).file g = kernel.file g := by
    intro g _
    by_cases heq : g = f
    · exact Or.inl ⟨heq, by rw [heq, withFile_self]⟩
    · exact Or.inr (withFile_of_ne heq file)
  refine ⟨hsafe.ok, ?_, ?_, ?_, ?_, hsafe.cwd⟩
  · intro e
    have hheld := hsafe.held e
    have hsum := @holds_withFile kernel f file e
    have hle := hextra e
    simp only [Pi.add_apply] at hheld ⊢
    change _ ≤ (kernel.fs.inode e).ref
    omega
  · intro e he
    by_cases hnew : 0 < file.holds e
    · obtain ⟨hopen, rfl⟩ := File.OnInode.of_holds hnew
      exact (hon hopen).1
    · have hsum := @holds_withFile kernel f file e
      have hold := File.holds_nonneg (kernel.file f) e
      exact hsafe.inum e (by omega)
  · intro g hzero
    by_cases heq : g = f
    · rw [heq, withFile_self] at hzero ⊢
      exact hclosed hzero
    · rw [withFile_of_ne heq] at hzero ⊢
      exact hsafe.closed g hzero
  · intro g hopen
    rcases hentry hopen with ⟨_, heq⟩ | heq
    · rw [heq] at hopen ⊢
      exact (hon hopen).2
    · rw [heq] at hopen ⊢
      exact hsafe.file g hopen

/-- Replace an entry of the process table. -/
theorem withProc {p : Slot} {proc : Proc}
    (hcwd : ∀ ip, proc.cwd = some ip → (kernel.fs.inode ip).inum <
      kernel.fs.sb.ninodes ∧ CwdFits live (kernel.fs.typeOf ip))
    (hextra : ∀ e, extra' e + proc.holds e ≤ extra e + (kernel.proc p).holds e) :
    (kernel.withProc p proc).Safe live extra' := by
  refine ⟨hsafe.ok, ?_, ?_, hsafe.closed, hsafe.file, ?_⟩
  · intro e
    have hheld := hsafe.held e
    have hsum := @holds_withProc kernel p proc e
    have hle := hextra e
    simp only [Pi.add_apply] at hheld ⊢
    change _ ≤ (kernel.fs.inode e).ref
    omega
  · intro e he
    by_cases hnew : proc.cwd = some e
    · exact (hcwd e hnew).1
    · have hsum := @holds_withProc kernel p proc e
      have hold := Proc.holds_nonneg (kernel.proc p) e
      have hzero : proc.holds e = 0 := if_neg hnew
      exact hsafe.inum e (by omega)
  · intro q ip heq
    by_cases hq : q = p
    · rw [hq, withProc_self] at heq
      exact (hcwd ip heq).2
    · rw [withProc_of_ne hq] at heq
      exact hsafe.cwd q ip heq

end Kernel.Safe

end CkptKernel
