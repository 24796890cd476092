/-
The image that `checkpoint_proc` writes: the header, then one record per page.
However the call ends, the file holds its old contents with the first part of
the image written over them.
-/
import CkptKernel.DirectoryUpdate
import CkptKernel.HeaderFormat

namespace CkptKernel

open ByteMem Code

/-- The file `ip` of `fs` is that of `old` with `image` written over its
start. -/
structure Fs.Overwritten (ip : InodeRef) (image : List UInt8) (old fs : Fs) : Prop where
  loaded : fs.Loaded ip
  evolves : ∀ h, Fs.Evolves h 0 old fs
  type : (fs.inode ip).copy.type = (old.inode ip).copy.type
  nlink : (fs.inode ip).copy.nlink = (old.inode ip).copy.nlink
  size : (fs.inode ip).copy.size.toNat = max (old.inode ip).copy.size.toNat image.length
  written : ∀ o, o < image.length → (fs.inode ip).copy.byte fs.disk o = image.getD o 0
  kept : ∀ o, image.length ≤ o → o < (old.inode ip).copy.size.toNat →
    (fs.inode ip).copy.byte fs.disk o = (old.inode ip).copy.byte old.disk o

theorem Fs.Overwritten.refl {fs : Fs} (hok : fs.Ok) {ip : InodeRef}
    (hloaded : fs.Loaded ip) : Fs.Overwritten ip [] fs fs where
  loaded := hloaded
  evolves h := .refl h hok
  type := rfl
  nlink := rfl
  size := by simp
  written o ho := (Nat.not_lt_zero o ho).elim
  kept _ _ _ := rfl

def bytesOf (bytes : Bytes) (t : Nat) : List UInt8 :=
  (List.range t).map bytes

@[simp] theorem bytesOf_length (bytes : Bytes) (t : Nat) : (bytesOf bytes t).length = t := by
  simp [bytesOf]

theorem bytesOf_one (byte : UInt8) : bytesOf (fun _ => byte) 1 = [byte] := rfl

theorem bytesOf_getD (bytes : Bytes) {t i : Nat} (hi : i < t) :
    (bytesOf bytes t).getD i 0 = bytes i := by
  simp [bytesOf, List.getD, hi]

theorem bytesOf_take (bytes : Bytes) {t n : Nat} (ht : t ≤ n) :
    bytesOf bytes t <+: bytesOf bytes n := by
  have htake : bytesOf bytes t = (bytesOf bytes n).take t := by
    simp [bytesOf, ← List.map_take, List.take_range, ht]
  rw [htake]
  exact List.take_prefix t _

/-- One more `writei`, at the end of what is written. -/
theorem Fs.Overwritten.write {ip : InodeRef} {image : List UInt8} {old fs : Fs}
    (hover : Fs.Overwritten ip image old fs) (hfile : (old.inode ip).copy.type ≠ T_DIR)
    (bytes : Bytes) {n : Nat} (hpos : 0 < n) (hn : n < 2 ^ 32) :
    wlp (writei ip (.kernel bytes) image.length n) fs (fun result fs' =>
      ∃ t, t ≤ n ∧ (result = some n ↔ t = n) ∧
        Fs.Overwritten ip (image ++ bytesOf bytes t) old fs') := by
  have hok := (hover.evolves 0).ok
  have hwork := hok.working hover.loaded.ref hover.loaded.valid
  refine wlp_mono (wlp_writei hwork _ _ hn) ?_
  rintro result fs' (⟨rfl, rfl⟩ | ⟨t, rfl, hwrote⟩)
  · refine ⟨0, Nat.zero_le n, ⟨(fun h => by cases h), fun h => by omega⟩, ?_⟩
    rw [show bytesOf bytes 0 = [] from rfl, List.append_nil]
    exact hover
  refine ⟨t, hwrote.high, Option.some_inj, ?_⟩
  have hwrite : fs.WriteOk ip (.kernel bytes) image.length n := by
    intro hdir
    rw [hover.type] at hdir
    exact (hfile hdir).elim
  obtain ⟨size, addrs, hself⟩ := hwrote.self
  have hentry := hwrote.entries ip
  have hsize := hover.size
  have hstart := hwrote.start
  refine ⟨⟨hentry.1 ▸ hover.loaded.ref, hentry.2.2.1 ▸ hover.loaded.valid⟩,
    fun h => (hover.evolves h).zero_trans
      (hwrote.evolves hok hover.loaded hwrite h), ?_, ?_, ?_, ?_, ?_⟩
  · rw [← hover.type, hself]
  · rw [← hover.nlink, hself]
  · rw [hwrote.size, List.length_append, bytesOf_length]
    omega
  · intro o ho
    rw [List.length_append, bytesOf_length] at ho
    by_cases hbefore : o < image.length
    · rw [hwrote.same o (by omega) (Or.inl hbefore),
        hover.written o hbefore, List.getD_append _ _ _ _ hbefore]
    · rw [hwrote.written o (by omega) (by omega),
        List.getD_append_right _ _ _ _ (by omega), bytesOf_getD _ (by omega)]
      rfl
  · intro o ho hlt
    rw [List.length_append, bytesOf_length] at ho
    rw [hwrote.same o (by omega)
      (Or.inr (Or.inr ⟨Buffer.kernel_total bytes, by omega⟩)), hover.kept o (by omega) hlt]

/-- The record of one page. -/
def pageRecord (mem : Mem) : Option Pte → List UInt8
  | none => [0]
  | some pte => 1 :: bytesOf (mem.physBytes pte.pa) PGSIZE

/-- The records of `left` pages from page `k` on. -/
def pageStream (mem : Mem) (pt : PageTable) : Nat → Nat → List UInt8
  | 0, _ => []
  | left + 1, k =>
    pageRecord mem (pt.leaf (k * PGSIZE)) ++ pageStream mem pt left (k + 1)

def Kernel.withFs (kernel : Kernel) (fs : Fs) : Kernel :=
  { kernel with fs := fs }

section WithFs

variable (kernel : Kernel) (fs : Fs)

@[simp] theorem withFs_fs : (kernel.withFs fs).fs = fs := rfl

@[simp] theorem withFs_mem : (kernel.withFs fs).mem = kernel.mem := rfl

@[simp] theorem withFs_file : (kernel.withFs fs).file = kernel.file := rfl

@[simp] theorem withFs_proc : (kernel.withFs fs).proc = kernel.proc := rfl

end WithFs

@[simp] theorem wlp_inFs {A : Type} {code : Code Fs A} {kernel : Kernel}
    {post : A → Kernel → Prop} : wlp (inFs code) kernel post ↔
      wlp code kernel.fs (fun value fs => post value (kernel.withFs fs)) :=
  wlp_within

/-- A call that changes nothing but the file system. -/
def Kernel.OnlyFs (kernel kernel' : Kernel) : Prop :=
  kernel' = kernel.withFs kernel'.fs

@[simp] theorem wlp_inMem {A : Type} {code : Code Mem A} {kernel : Kernel}
    {post : A → Kernel → Prop} : wlp (inMem code) kernel post ↔
      wlp code kernel.mem (fun value mem =>
        post value { kernel with mem := mem }) :=
  wlp_within

theorem wlp_walk {pt : PageTable} {va : Nat} {mem : Mem} {post : Option Pte → Mem → Prop}
    (hpost : post (pt.leaf va) mem) : wlp (walk pt va) mem post := by
  unfold walk
  rw [wlp_ite]
  split
  · exact wlp_panic.mpr trivial
  · exact (wlp_pure _).mpr hpost

theorem pageStream_length (mem : Mem) (pt : PageTable) (left k : Nat) :
    left ≤ (pageStream mem pt left k).length := by
  induction left generalizing k with
  | zero => exact Nat.zero_le _
  | succ left ih =>
    have hrest := ih (k + 1)
    have hrecord : 1 ≤ (pageRecord mem (pt.leaf (k * PGSIZE))).length := by
      cases pt.leaf (k * PGSIZE) with
      | none => exact Nat.le_refl 1
      | some pte => exact Nat.succ_le_succ (Nat.zero_le _)
    rw [pageStream, List.length_append]
    omega

theorem shorter_iff {part whole : List UInt8}
    (hlt : part.length < whole.length) : false = true ↔ part = whole := by
  constructor
  · intro h
    cases h
  · intro heq
    rw [heq] at hlt
    exact (Nat.lt_irrefl _ hlt).elim

/-- The loop writes a part of the page stream, all of it if it returns
true. -/
theorem wlp_checkpointAddrSpace {pt : PageTable} {ip : InodeRef} {old : Fs}
    (hfile : (old.inode ip).copy.type ≠ T_DIR) (left : Nat) {k : Nat}
    {kernel : Kernel} {image : List UInt8} (hover : Fs.Overwritten ip image old kernel.fs) :
    wlp (checkpointAddrSpace pt ip left k image.length) kernel
      (fun ok kernel' => kernel.OnlyFs kernel' ∧ ∃ part, part <+: pageStream kernel.mem pt left k ∧
        (ok = true ↔ part = pageStream kernel.mem pt left k) ∧
        Fs.Overwritten ip (image ++ part) old kernel'.fs) := by
  induction left generalizing k kernel image with
  | zero =>
    refine (wlp_pure true).mpr ⟨rfl, [], List.nil_prefix, ⟨fun _ => rfl, fun _ => rfl⟩, ?_⟩
    rwa [List.append_nil]
  | succ left ih =>
    unfold checkpointAddrSpace
    rw [wlp_bind, wlp_inMem]
    refine wlp_walk ?_
    rw [wlp_bind, wlp_read, wlp_bind, wlp_inFs]
    refine wlp_mono (hover.write hfile _ (by decide) (by decide)) ?_
    rintro result fs₁ ⟨t, ht, hall, hover₁⟩
    have hrecord : ∀ part, part <+: pageRecord kernel.mem
        (pt.leaf (k * PGSIZE)) → part <+: pageStream kernel.mem pt (left + 1) k :=
      fun part hpart => hpart.trans (List.prefix_append _ _)
    rw [wlp_ite]
    split
    · -- the presence byte did not fit
      rename_i hshort
      have hlt : t < 1 := by
        have hne := mt hall.mpr hshort
        omega
      refine (wlp_pure false).mpr ⟨rfl, _, ?_, ?_, hover₁⟩
      · apply hrecord
        refine (bytesOf_take _ ht).trans ?_
        cases pt.leaf (k * PGSIZE) with
        | none => exact List.prefix_refl _
        | some pte => exact ⟨_, rfl⟩
      · have hle := pageStream_length kernel.mem pt (left + 1) k
        exact shorter_iff (by rw [bytesOf_length]; omega)
    next hone =>
      rw [not_not] at hone
      have hlen : t = 1 := hall.mp hone
      subst hlen
      cases hleaf : pt.leaf (k * PGSIZE) with
      | none =>
        rw [hleaf] at hover₁
        have hnext := @ih (k + 1) (kernel.withFs fs₁) (image ++ [0]) hover₁
        rw [List.length_append] at hnext
        refine wlp_mono hnext ?_
        rintro ok kernel' ⟨honly, part, hpart, hdone, hover'⟩
        refine ⟨honly, 0 :: part, ?_, ?_, ?_⟩
        · rw [pageStream, hleaf]
          exact List.cons_prefix_cons.mpr ⟨rfl, hpart⟩
        · rw [pageStream, hleaf, hdone]
          exact (List.append_right_inj [0]).symm
        · rwa [List.append_cons]
      | some pte =>
        rw [hleaf] at hover₁
        dsimp only
        rw [wlp_bind, wlp_inFs]
        have hwrite := hover₁.write hfile (kernel.mem.physBytes pte.pa)
          (show 0 < PGSIZE by decide) (by decide)
        rw [List.length_append, bytesOf_length] at hwrite
        refine wlp_mono hwrite ?_
        rintro result' fs₂ ⟨t, ht', hall', hover₂⟩
        rw [List.append_assoc] at hover₂
        rw [wlp_ite]
        split
        · -- the page did not fit
          rename_i hshort
          have hlt : t < PGSIZE := by
            have hne := mt hall'.mpr hshort
            omega
          refine (wlp_pure false).mpr ⟨rfl, _, ?_, ?_, hover₂⟩
          · apply hrecord
            rw [hleaf]
            exact List.cons_prefix_cons.mpr ⟨rfl, bytesOf_take _ ht'⟩
          · apply shorter_iff
            rw [pageStream, hleaf, pageRecord, List.length_append,
              List.length_append, List.length_cons, bytesOf_length, bytesOf_length, bytesOf_length]
            omega
        next hpage =>
          rw [not_not] at hpage
          have hlen : t = PGSIZE := hall'.mp hpage
          subst hlen
          have hwhole : bytesOf (fun _ => if (some pte).isSome then 1 else 0)
              1 ++ bytesOf (kernel.mem.physBytes pte.pa) PGSIZE =
              pageRecord kernel.mem (some pte) := by
            rw [bytesOf_one, List.singleton_append, pageRecord]
            rfl
          rw [hwhole] at hover₂
          have hnext := @ih (k + 1) (kernel.withFs fs₂) _ hover₂
          rw [List.length_append, pageRecord, List.length_cons,
            bytesOf_length, Nat.add_comm PGSIZE 1, ← Nat.add_assoc] at hnext
          refine wlp_mono hnext ?_
          rintro ok kernel' ⟨honly, part, hpart, hdone, hover'⟩
          refine ⟨honly, pageRecord kernel.mem (some pte) ++ part, ?_, ?_, ?_⟩
          · rw [pageStream, hleaf]
            exact (List.prefix_append_right_inj _).mpr hpart
          · rw [pageStream, hleaf, hdone]
            exact (List.append_right_inj _).symm
          · rw [← List.append_assoc]
            exact hover'

end CkptKernel
