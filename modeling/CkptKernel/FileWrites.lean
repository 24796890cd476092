/-
Writing to files: the loop of `writei` replaces the bytes of a request block by
block.  A block in which a user copy stops has been changed in the buffer cache
and not been passed to `log_write`.
-/
import CkptKernel.FileContents

namespace CkptKernel

open ByteMem Code
open Function (update_of_ne update_self)

structure Fs.InLog (fs fs' : Fs) : Prop where
  grows : fs.log.lh ⊆ fs'.log.lh
  disk : ∀ b, b ∈ fs'.log.lh ∨ fs'.disk b = fs.disk b

instance : IsPreorder Fs Fs.InLog where
  refl fs := ⟨List.Subset.refl _, fun _ => Or.inr rfl⟩
  trans fs fs' fs'' hfirst hnext := by
    refine ⟨List.Subset.trans hfirst.grows hnext.grows, fun b => ?_⟩
    rcases hnext.disk b with hin | hsame
    · exact Or.inl hin
    rcases hfirst.disk b with hin | hsame'
    · exact Or.inl (hnext.grows hin)
    · exact Or.inr (hsame.trans hsame')

theorem inLog_put {fs : Fs} {b : Nat} {log : Log} (data : Block)
    (hlog : fs.log.write b = .ok log) : Fs.InLog fs (fs.put b data log) := by
  obtain ⟨_, _, rfl⟩ := Log.write_eq_ok hlog
  refine ⟨fun c hc => Log.mem_absorb.mpr (Or.inr hc), fun c => ?_⟩
  by_cases heq : c = b
  · exact Or.inl (Log.mem_absorb.mpr (Or.inl heq))
  · exact Or.inr (update_of_ne heq _ _)

theorem respects_logWrite (b : Nat) (data : Block) : Respects Fs.InLog (logWrite b data) := fun _ =>
  wlp_logWrite.mpr fun _ hlog => inLog_put data hlog

theorem respects_balloc : Respects Fs.InLog balloc := by
  refine respects_read_bind fun fs => ?_
  cases fs.firstFree with
  | none => exact respects_pure 0
  | some b =>
    exact respects_bind (respects_logWrite _ _) fun _ =>
      respects_bind (respects_logWrite _ _) fun _ => respects_pure b

theorem respects_bmapSlot (ip : InodeRef) (i : Fin (NDIRECT + 1)) :
    Respects Fs.InLog (bmapSlot ip i) := by
  refine respects_read_bind fun fs => respects_ite (respects_pure _) ?_
  refine respects_bind respects_balloc fun addr => ?_
  refine respects_ite (respects_pure _) ?_
  exact respects_bind (respects_update fun _ => ⟨List.Subset.refl _, fun _ => Or.inr rfl⟩)
    fun _ => respects_pure _

theorem respects_bmapEntry (ind j : Nat) : Respects Fs.InLog (bmapEntry ind j) := by
  refine respects_read_bind fun fs => respects_ite (respects_pure _) ?_
  refine respects_bind respects_balloc fun addr => ?_
  refine respects_bind ?_ fun data => ?_
  · exact respects_read_bind fun fs => respects_pure _
  · exact respects_bind (respects_ite (respects_logWrite _ _)
      (respects_pure ())) fun _ => respects_pure _

theorem respects_bmap (ip : InodeRef) (bn : Nat) : Respects Fs.InLog (bmap ip bn) := by
  unfold bmap
  split
  · exact respects_bmapSlot ip _
  refine respects_ite ?_ (respects_panic _)
  refine respects_bind (respects_bmapSlot ip _) fun ind => ?_
  exact respects_ite (respects_pure 0) (respects_bmapEntry ind _)

def Buffer.Total (buf : Buffer) : Prop := ∀ tot m, m ≤ buf.copied tot m

theorem Buffer.kernel_total (bytes : Bytes) : (Buffer.kernel bytes).Total :=
  fun _ m => Nat.le_refl m

variable {fs fs' : Fs} {ip : InodeRef} {inum o count : Nat}

def Fs.blockOf (fs : Fs) (ip : InodeRef) (o : Nat) : Nat :=
  (fs.inode ip).copy.blockAt fs.disk (slotOf (o / BSIZE))

theorem dataBlock_self (fs : Fs) (ip : InodeRef) (o : Nat) :
    fs.dataBlock ip (fs.inode ip).inum (o / BSIZE) = fs.blockOf ip o := by
  rw [Fs.dataBlock, seen_self, Fs.blockOf]

theorem Fs.Working.has (hwork : fs.Working ip) (hbn : o / BSIZE < MAXFILE)
    (hne : fs.blockOf ip o ≠ 0) : fs.HasBlock ip (fs.inode ip).inum (o / BSIZE) :=
  ⟨hwork.inum, by rw [seen_self]; exact hwork.type, hbn, by rwa [dataBlock_self]⟩

/-- Files have no holes. -/
theorem Fs.Working.has_of_lt (hwork : fs.Working ip)
    (hinum : inum < fs.sb.ninodes) (htype : (fs.seen ip inum).type ≠ 0)
    (ho : o < (fs.seen ip inum).size.toNat) : fs.HasBlock ip inum (o / BSIZE) := by
  obtain ⟨hbn, hmapped⟩ := (hwork.sound.full inum hinum htype).mapped_at ho
  exact ⟨hinum, htype, hbn, hmapped⟩

theorem Fs.Working.full (hwork : fs.Working ip) : (fs.inode ip).copy.Full fs.disk := by
  have hfull := hwork.sound.full _ hwork.inum (by rw [seen_self]; exact hwork.type)
  rwa [seen_self] at hfull

namespace Fs.Edits

variable {lo hi : Nat}

/-- Bytes outside the range, of any file. -/
theorem byte (hedits : Fs.Edits ip lo hi fs fs') (hhas : fs.HasBlock ip inum (o / BSIZE))
    (hout : inum = (fs.inode ip).inum → o < lo ∨ hi ≤ o) :
    (fs'.seen ip inum).byte fs'.disk o = (fs.seen ip inum).byte fs.disk o := by
  have hkeeps := hedits.keeps hhas
  have hsame := hedits.same hhas (o % BSIZE) (by rwa [Nat.div_add_mod'])
  unfold Fs.dataBlock at hkeeps hsame
  rw [Dinode.byte, Dinode.byte, hkeeps, hsame]

variable (hedits : Fs.Edits ip lo hi fs fs') (hhas : fs.HasBlock ip (fs.inode ip).inum (o / BSIZE))
include hedits hhas

theorem byte_self (hout : o < lo ∨ hi ≤ o) : (fs'.inode ip).copy.byte fs'.disk o =
      (fs.inode ip).copy.byte fs.disk o := by
  have hbyte := hedits.byte hhas fun _ => hout
  rwa [seen_self, ← hedits.frame.inum, seen_self] at hbyte

theorem blockOf : fs'.blockOf ip o = fs.blockOf ip o := by
  have hkeeps := hedits.keeps hhas
  rwa [dataBlock_self, ← hedits.frame.inum, dataBlock_self] at hkeeps

end Fs.Edits

/-- `count` bytes go over those of the file from `o` on, in one block. -/
def Fs.putChunk (fs : Fs) (ip : InodeRef) (o count : Nat) (src : Bytes)
    (log : Log) : Fs :=
  fs.put (fs.blockOf ip o)
    (blit (fs.disk (fs.blockOf ip o)) (o % BSIZE) count src) log

theorem Fs.Working.putChunk (hwork : fs.Working ip) (hbn : o / BSIZE < MAXFILE)
    (hne : fs.blockOf ip o ≠ 0) (count : Nat) (src : Bytes) (log : Log) :
    Fs.Edits ip o (o + count) fs (fs.putChunk ip o count src log) := by
  generalize hfs' : fs.putChunk ip o count src log = fs'
  have hhas := hwork.has hbn hne
  have hgiven := hwork.sound.given _ _ hhas.live hhas.mapped
  have hlow := hgiven.1
  change _ ≤ fs.dataBlock _ _ _ at hlow
  rw [dataBlock_self] at hlow
  have hframe : Fs.Frame ip fs fs' := by
    subst hfs'
    refine ⟨rfl, fun _ _ => rfl, ⟨_, rfl⟩, ?_⟩
    intro inum hinum
    have hlt := hwork.sound.layout.IBLOCK_lt_datastart hinum
    exact dinode_put_of_ne _ _ (by omega)
  have hinode : fs'.inode = fs.inode := by
    subst hfs'
    rfl
  have hdisk : fs'.disk = Function.update fs.disk (fs.blockOf ip o)
      (blit (fs.disk (fs.blockOf ip o)) (o % BSIZE) count src) := by
    subst hfs'
    rfl
  have hseen : ∀ inum, inum < fs.sb.ninodes → fs'.seen ip inum = fs.seen ip inum := by
    intro inum hinum
    by_cases heq : inum = (fs.inode ip).inum
    · rw [heq, seen_self, ← hframe.inum, seen_self, hinode]
    · exact hframe.seen_of_ne hinum heq
  have haddr : ∀ inum slot, LivePlace fs.sb (fs.seen ip) (inum, slot) →
      (fs'.seen ip inum).blockAt fs'.disk slot = (fs.seen ip inum).blockAt fs.disk slot := by
    rintro inum slot ⟨hinum, htype, hvalid⟩
    rw [hseen inum hinum, hdisk]
    refine blockAt_congr _ fun hind => update_of_ne ?_ _ _
    intro heq
    have hplace := hwork.sound.unique _ _ inum (.addr indirectSlot) hhas.live
      ⟨hinum, htype, trivial⟩ hhas.mapped
      ((dataBlock_self fs ip o).trans heq.symm)
    exact slotOf_ne_indirect _ hplace.2
  refine ⟨hframe, ⟨?_, ?_, ?_⟩, fun hhas => haddr _ _ hhas.live, ?_, ?_⟩
  · have hput := hwork.sound.put_data (blit (fs.disk (fs.blockOf ip o))
      (o % BSIZE) count src) log hhas.lt hhas.type hbn hhas.mapped
    rw [seen_self] at hput
    rw [← hfs'] at hseen ⊢
    exact hput.congr_inodes hseen
  · rw [hinode, hframe.sb]
    exact hwork.inum
  · rw [hinode]
    exact hwork.type
  · intro inum bn hother k hout
    by_cases heq : fs.dataBlock ip inum bn = fs.blockOf ip o
    · -- the block just written, outside the chunk
      have hplace := hwork.sound.unique _ _ _ _ hother.live hhas.live
        hother.mapped (heq.trans (dataBlock_self fs ip o).symm)
      have hbn := slotOf_inj hplace.2
      have hpos := hout hplace.1
      have hsplit := Nat.div_add_mod' o BSIZE
      rw [heq, hdisk, update_self]
      rw [hbn] at hpos
      exact blit_outside _ _ (by omega)
    · rw [hdisk, update_of_ne heq]
  · intro htight
    refine htight.congr hframe.sb ?_ ?_
    · intro b hsize hmark
      have hlt := BBLOCK_lt_datastart hsize
      rwa [← hfs', Fs.putChunk, used_put_of_ne _ _ (by omega)] at hmark
    · intro inum slot hlive _
      refine ⟨?_, haddr inum slot hlive⟩
      rw [hframe.seen_type hlive.1]
      exact hlive.2.1

/-- The bytes of the chunk. -/
theorem putChunk_byte (hwork : fs.Working ip) (hbn : o / BSIZE < MAXFILE)
    (hne : fs.blockOf ip o ≠ 0) (hfits : o % BSIZE + count ≤ BSIZE) (src : Bytes) (log : Log)
    {x : Nat} (hlow : o ≤ x) (hhigh : x < o + count) : let fs' := fs.putChunk ip o count src log
    x / BSIZE = o / BSIZE ∧ fs'.blockOf ip x = fs.blockOf ip o ∧
      (fs'.inode ip).copy.byte fs'.disk x = src (x - o) := by
  intro fs'
  have hdiv : x / BSIZE = o / BSIZE := by
    simp only [BSIZE] at *
    omega
  have hmod : x % BSIZE = o % BSIZE + (x - o) := by
    simp only [BSIZE] at *
    omega
  have hsame : ∀ fs : Fs, fs.blockOf ip x = fs.blockOf ip o := by
    intro fs
    rw [Fs.blockOf, Fs.blockOf, hdiv]
  have hblock := (hwork.putChunk hbn hne count src log).blockOf (hwork.has hbn hne)
  refine ⟨hdiv, (hsame fs').trans hblock, ?_⟩
  change fs'.disk (fs'.blockOf ip x) (x % BSIZE) = _
  rw [hsame, hblock, hmod]
  change Function.update fs.disk (fs.blockOf ip o) _ _ _ = _
  rw [update_self, blit_inside _ _ (by omega) (by omega), Nat.add_sub_cancel_left]

section WriteLoop

variable {buf : Buffer} {src : Bytes} {off n tot t hi : Nat}

/-- The bytes of the request that go to the same block as byte `t`. -/
def chunkAt (off n t : Nat) : Nat := min (n - t) (BSIZE - (off + t) % BSIZE)

/-- Bytes `tot` to `t` of a request are in the file, and nothing has changed but
bytes between these and `hi`. -/
structure Fs.Writes (ip : InodeRef) (src : Bytes) (off tot t hi : Nat)
    (fs fs' : Fs) : Prop where
  edits : Fs.Edits ip (off + tot) hi fs fs'
  written : ∀ o, off + tot ≤ o → o < off + t → fs'.blockOf ip o ≠ 0 ∧
    (fs'.inode ip).copy.byte fs'.disk o = src (o - off)
  low : tot ≤ t
  high : off + t ≤ hi

/-- One iteration of the loop: the chunk at `tot` is in place. -/
theorem Fs.Writes.step {m : Nat} {fs₁ : Fs} {log : Log}
    (hmaps : Fs.Maps ip fs fs₁) (hbn : (off + tot) / BSIZE < MAXFILE)
    (hne : fs₁.blockOf ip (off + tot) ≠ 0) (hfits : (off + tot) % BSIZE + m ≤ BSIZE)
    (hrest : Fs.Writes ip src off (tot + m) t hi (fs₁.putChunk ip (off + tot) m
      (fun i => src (tot + i)) log) fs') : Fs.Writes ip src off tot t hi fs fs' := by
  have hput := hmaps.working.putChunk hbn hne m (fun i => src (tot + i)) log
  have hlow := hrest.low
  have hhigh := hrest.high
  refine ⟨((hmaps.edits _ _).trans (hput.mono fun _ _ _ => by omega)).trans
    (hrest.edits.mono fun _ _ _ => by omega), ?_, by omega, hhigh⟩
  intro o hfrom hto
  by_cases hchunk : o < off + (tot + m)
  · obtain ⟨hdiv, hblock, hbyte⟩ := putChunk_byte hmaps.working hbn hne hfits
      (fun i => src (tot + i)) log hfrom (by omega)
    have hhas := hput.working.has (hdiv ▸ hbn) (hblock ▸ hne)
    rw [hrest.edits.blockOf hhas, hrest.edits.byte_self hhas (Or.inl hchunk), hblock, hbyte]
    have hplace : tot + (o - (off + tot)) = o - off := by omega
    exact ⟨hne, by rw [hplace]⟩
  · exact hrest.written o (by omega) hto

/-- The copy of the chunk at `t` stops early: its first bytes are in the
buffer. -/
structure Fs.Tears (ip : InodeRef) (buf : Buffer) (off n t : Nat)
    (fs fs' : Fs) : Prop where
  lt : t < n
  block : fs.blockOf ip (off + t) ≠ 0
  short : buf.copied t (chunkAt off n t) < chunkAt off n t
  state : fs' = fs.putChunk ip (off + t) (buf.copied t (chunkAt off n t))
    (fun i => buf.byte (t + i)) fs.log

/-- The loop of `writei` from byte `tot` of the request on ends at byte `t`:
with whole blocks up to `middle`, and perhaps with a part of one more. -/
structure Fs.LoopEnds (ip : InodeRef) (buf : Buffer) (off n tot t : Nat)
    (fs middle fs' : Fs) : Prop where
  writes : Fs.Writes ip buf.byte off tot t (off + t) fs middle
  inLog : Fs.InLog fs middle
  high : t ≤ n
  /-- The first block is written as a whole or not at all. -/
  chunk : t = tot ∨ tot + chunkAt off n tot ≤ t
  copied : ∀ access, buf.copied = reach access → reach access tot (t - tot) = t - tot
  aligned : t = tot ∨ t = n ∨ (off + t) % BSIZE = 0
  room : tot < n → buf.Total → (tot < t ↔ fs.Mappable (fs.inode ip).copy ((off + tot) / BSIZE))
  last : (fs' = middle ∧ (t = n ∨ (fs.inode ip).copy.size.toNat ≤ (off + t) / BSIZE * BSIZE)) ∨
    Fs.Tears ip buf off n t middle fs'

/-- The loop ends before a block that is not written as a whole. -/
theorem Fs.LoopEnds.stop {fs₁ : Fs} (hmaps : Fs.Maps ip fs fs₁)
    (hlog : Fs.InLog fs fs₁) (htot : tot ≤ n) (hroom : tot < n → buf.Total →
      ¬fs.Mappable (fs.inode ip).copy ((off + tot) / BSIZE)) (hlast : (fs' = fs₁ ∧ (tot = n ∨
        (fs.inode ip).copy.size.toNat ≤ (off + tot) / BSIZE * BSIZE)) ∨
      Fs.Tears ip buf off n tot fs₁ fs') : Fs.LoopEnds ip buf off n tot tot fs fs₁ fs' :=
  ⟨⟨hmaps.edits _ _, fun _ hlow hhigh => absurd hlow (Nat.not_le_of_lt hhigh),
      Nat.le_refl tot, Nat.le_refl _⟩, hlog, htot, Or.inl rfl, by simp [reach], Or.inl rfl,
    fun hlt htotal => iff_of_false (Nat.lt_irrefl tot) (hroom hlt htotal), hlast⟩

/-- One iteration that copies its chunk. -/
theorem Fs.LoopEnds.step {fs₁ middle : Fs} {log : Log}
    (hmaps : Fs.Maps ip fs fs₁) (hlogged : Fs.InLog fs fs₁) (htot : tot < n)
    (hbn : (off + tot) / BSIZE < MAXFILE) (hne : fs₁.blockOf ip (off + tot) ≠ 0)
    (hroom : fs.Mappable (fs.inode ip).copy ((off + tot) / BSIZE))
    (hcopied : chunkAt off n tot ≤ buf.copied tot (chunkAt off n tot))
    (hlog : fs₁.log.write (fs₁.blockOf ip (off + tot)) = .ok log)
    (hrest : Fs.LoopEnds ip buf off n (tot + chunkAt off n tot) t
      (fs₁.putChunk ip (off + tot) (chunkAt off n tot)
        (fun i => buf.byte (tot + i)) log) middle fs') :
    Fs.LoopEnds ip buf off n tot t fs middle fs' := by
  have hlow := hrest.writes.low
  obtain ⟨hpos, hfits⟩ : 0 < chunkAt off n tot ∧ _ :=
    chunk_bounds (off + tot) (Nat.sub_pos_of_lt htot)
  refine ⟨hrest.writes.step hmaps hbn hne hfits, trans_of Fs.InLog hlogged
      (trans_of Fs.InLog (inLog_put _ hlog) hrest.inLog), hrest.high,
    Or.inr hlow, ?_, ?_, fun _ _ => iff_of_true (by omega) hroom, ?_⟩
  · intro access heq
    have hall := reach_le access tot (chunkAt off n tot)
    rw [heq] at hcopied
    have hsplit : t - tot = chunkAt off n tot + (t - (tot + chunkAt off n tot)) := by omega
    rw [hsplit, reach_add, if_pos (by omega), hrest.copied access heq]
  · rcases hrest.aligned with hend | hend
    · simp only [chunkAt, BSIZE] at hend ⊢
      omega
    · exact Or.inr hend
  · rw [← hmaps.frame.size]
    exact hrest.last

theorem wlp_writeLoop (hwork : fs.Working ip)
    (hmax : off + n ≤ MAXFILE * BSIZE) (fuel : Nat) (htot : tot ≤ n) (hfuel : n - tot ≤ fuel) :
    wlp (writeLoop ip buf off n fuel tot) fs (fun t fs' =>
      ∃ middle, Fs.LoopEnds ip buf off n tot t fs middle fs') := by
  have hend : ∀ fs : Fs, fs.Working ip → tot = n →
      Fs.LoopEnds ip buf off n tot tot fs fs fs := fun fs hwork heq =>
    .stop (.refl hwork) (refl_of Fs.InLog fs) htot (by omega) (Or.inl ⟨rfl, Or.inl heq⟩)
  induction fuel generalizing fs tot with
  | zero =>
    rw [writeLoop, wlp_pure]
    exact ⟨fs, hend fs hwork (by omega)⟩
  | succ fuel ih =>
    unfold writeLoop
    rw [wlp_ite]
    split
    next hlt =>
      have hbn : (off + tot) / BSIZE < MAXFILE :=
        Nat.div_lt_of_lt_mul (by rw [Nat.mul_comm]; omega)
      refine wlp_seq (wlp_and (wlp_bmap hwork _) (respects_bmap ip _ fs)) ?_
      rintro addr fs₁ ⟨⟨hmaps, haddr, htold⟩, hlog⟩
      rw [wlp_ite]
      split
      next hzero =>
        have hnone := fun hroom => htold.mpr hroom hzero
        refine (wlp_pure _).mpr ⟨fs₁, .stop hmaps hlog htot
          (fun _ _ => hnone) (Or.inl ⟨rfl, Or.inr ?_⟩)⟩
        by_contra hsize
        exact hnone (Or.inl (hwork.full.mapped _ (Nat.lt_of_not_le hsize)))
      next hne =>
        obtain ⟨hpos, hfits⟩ := chunk_bounds (off + tot) (Nat.sub_pos_of_lt hlt)
        have hblock : fs₁.blockOf ip (off + tot) = addr := haddr hne
        have hchunk : min (n - tot) (BSIZE - (off + tot) % BSIZE) = chunkAt off n tot := rfl
        simp only [bread, wlp_bind, wlp_read, wlp_pure, wlp_ite, hchunk] at hpos hfits ⊢
        subst hblock
        split
        next hshort =>
          rw [setBuf, wlp_update, Nat.min_eq_left (Nat.le_of_lt hshort)]
          exact ⟨fs₁, .stop hmaps hlog htot (fun _ htotal =>
            absurd (htotal tot _) (Nat.not_le_of_lt hshort))
            (Or.inr ⟨hlt, hne, hshort, rfl⟩)⟩
        next hwhole =>
          have hle := Nat.le_of_not_lt hwhole
          have hmn : tot + chunkAt off n tot ≤ n := by
            unfold chunkAt
            omega
          rw [wlp_logWrite, Nat.min_eq_right hle]
          intro log hwrite
          have hput := hmaps.working.putChunk hbn hne (chunkAt off n tot)
            (fun i => buf.byte (tot + i)) log
          refine wlp_mono (ih hput.working hmn (by omega) ?_) ?_
          · exact fun fs hwork heq => .stop (.refl hwork)
              (refl_of Fs.InLog fs) hmn (by omega) (Or.inl ⟨rfl, Or.inl heq⟩)
          · rintro t fs' ⟨middle, hrest⟩
            exact ⟨middle, hrest.step hmaps hlog hlt hbn hne (htold.mp hne) hle hwrite⟩
    next hge =>
      exact (wlp_pure _).mpr ⟨fs, hend fs hwork (by omega)⟩

/-- The files after the loop, with the bytes of the block it stopped in. -/
theorem Fs.LoopEnds.after {middle : Fs} (hmax : off + n ≤ MAXFILE * BSIZE)
    (hloop : Fs.LoopEnds ip buf off n tot t fs middle fs') :
    ∃ hi, Fs.Writes ip buf.byte off tot t hi fs fs' ∧ hi ≤ off + n ∧
      (buf.Total → hi ≤ off + t) := by
  have hwrites := hloop.writes
  have hhigh := hloop.high
  rcases hloop.last with ⟨rfl, _⟩ | htears
  · exact ⟨off + t, hwrites, by omega, fun _ => Nat.le_refl _⟩
  have hlt := htears.lt
  have hshort := htears.short
  have hbn : (off + t) / BSIZE < MAXFILE :=
    Nat.div_lt_of_lt_mul (by rw [Nat.mul_comm]; omega)
  have hchunk : chunkAt off n t ≤ n - t := Nat.min_le_left _ _
  have hput := hwrites.edits.working.putChunk hbn htears.block
    (buf.copied t (chunkAt off n t)) (fun i => buf.byte (t + i)) middle.log
  rw [← htears.state] at hput
  have hlow := hwrites.low
  refine ⟨off + t + buf.copied t (chunkAt off n t),
    ⟨(hwrites.edits.mono fun _ _ _ => by omega).trans
      (hput.mono fun _ _ _ => by omega), ?_, hlow, by omega⟩, by omega,
    fun htotal => absurd (htotal t _) (Nat.not_le_of_lt hshort)⟩
  intro o hfrom hto
  obtain ⟨hne, hbyte⟩ := hwrites.written o hfrom hto
  have hhas := hwrites.edits.working.has
    (Nat.lt_of_le_of_lt (Nat.div_le_div_right (by omega)) hbn) hne
  rw [hput.blockOf hhas, hput.byte_self hhas (Or.inl hto)]
  exact ⟨hne, hbyte⟩

end WriteLoop

/-- What a call of `writei` does that returns `t`: the file becomes its old
contents with `t` bytes replaced, and the disk inode follows. -/
structure Fs.Wrote (ip : InodeRef) (buf : Buffer) (off n t : Nat)
    (fs fs' : Fs) : Prop where
  sb : fs'.sb = fs.sb
  sound : fs'.Sound fs'.dinode
  others : ∀ other, other ≠ ip → fs'.inode other = fs.inode other
  self : ∃ size addrs, fs'.inode ip = { fs.inode ip with
    copy := { (fs.inode ip).copy with size := size, addrs := addrs } }
  sync : fs'.dinode (fs.inode ip).inum = (fs'.inode ip).copy
  dinode : ∀ inum, inum < fs.sb.ninodes → inum ≠ (fs.inode ip).inum →
    fs'.dinode inum = fs.dinode inum
  size : (fs'.inode ip).copy.size.toNat = max (fs.inode ip).copy.size.toNat (off + t)
  elsewhere : ∀ inum o, inum < fs.sb.ninodes → (fs.dinode inum).type ≠ 0 →
    inum ≠ (fs.inode ip).inum → o < (fs.dinode inum).size.toNat →
    (fs.dinode inum).byte fs'.disk o = (fs.dinode inum).byte fs.disk o
  same : ∀ o, o < (fs.inode ip).copy.size.toNat →
    (o < off ∨ off + n ≤ o ∨ (buf.Total ∧ off + t ≤ o)) →
    (fs'.inode ip).copy.byte fs'.disk o = (fs.inode ip).copy.byte fs.disk o
  written : ∀ o, off ≤ o → o < off + t → (fs'.inode ip).copy.byte fs'.disk o = buf.byte (o - off)
  high : t ≤ n
  chunk : t = 0 ∨ min n (BSIZE - off % BSIZE) ≤ t
  start : off ≤ (fs.inode ip).copy.size.toNat
  limit : off + n ≤ MAXFILE * BSIZE
  tidy : fs.Tight (fs.seen ip) → fs'.Tidy

/-- A file may grow over blocks that are there. -/
theorem Fs.Sound.resize {fs : Fs} {dn : Nat → Dinode} (hsound : fs.Sound dn)
    {inum : Nat} {size : UInt32} (hsize : size.toNat ≤ MAXFILE * BSIZE)
    (hmapped : ∀ bn, bn * BSIZE < size.toNat → (dn inum).blockAt fs.disk (slotOf bn) ≠ 0) :
    fs.Sound (Function.update dn inum { dn inum with size := size }) := by
  have hblock : ∀ other slot, (Function.update dn inum { dn inum with size := size } other).blockAt
        fs.disk slot = (dn other).blockAt fs.disk slot := by
    intro other slot
    by_cases heq : other = inum
    · subst heq
      rw [update_self]
      cases slot <;> rfl
    · rw [update_of_ne heq]
  have htype : ∀ other, (Function.update dn inum { dn inum with size := size } other).type =
        (dn other).type := by
    intro other
    by_cases heq : other = inum
    · subst heq
      rw [update_self]
    · rw [update_of_ne heq]
  refine ⟨hsound.layout, hsound.marked, ?_, ?_⟩
  · refine hsound.owned.mono ?_ (fun _ _ _ hgiven => hgiven)
    rintro ⟨other, slot⟩ ⟨hother, halloc, hvalid⟩ _
    rw [htype] at halloc
    exact ⟨⟨hother, halloc, hvalid⟩, hblock other slot⟩
  · intro other hother halloc
    rw [htype] at halloc
    by_cases heq : other = inum
    · subst heq
      rw [update_self]
      refine ⟨hsize, fun bn hbn => ?_⟩
      have hne := hmapped bn hbn
      have hsame := hblock other (slotOf bn)
      rw [update_self] at hsame
      rwa [hsame]
    · rw [update_of_ne heq]
      exact hsound.full other hother halloc

/-- File contents depend on the data blocks only. -/
theorem Fs.Sound.byte_congr {dn : Nat → Dinode} (hsound : fs.Sound dn) {disk' : Disk}
    (hdata : ∀ c, fs.sb.datastart ≤ c → disk' c = fs.disk c) (inum o : Nat)
    (hinum : inum < fs.sb.ninodes) (htype : (dn inum).type ≠ 0) (ho : o < (dn inum).size.toNat) :
    (dn inum).byte disk' o = (dn inum).byte fs.disk o := by
  obtain ⟨hbn, hmapped⟩ := (hsound.full inum hinum htype).mapped_at ho
  have hgiven := hsound.given inum (slotOf (o / BSIZE)) ⟨hinum, htype, slotOf_valid hbn⟩ hmapped
  have hblock : (dn inum).blockAt disk' (slotOf (o / BSIZE)) =
      (dn inum).blockAt fs.disk (slotOf (o / BSIZE)) :=
    blockAt_congr _ fun hind =>
      hdata _ (hsound.indirect_given hinum htype hind).1
  rw [Dinode.byte, Dinode.byte, hblock, hdata _ hgiven.1]


section Writei

variable {clean : Fs} {buf : Buffer} {off n t : Nat}

/-- `writei` with a range that it takes. -/
def Fs.Takes (fs : Fs) (ip : InodeRef) (off n : Nat) : Prop :=
  off ≤ (fs.inode ip).copy.size.toNat ∧ off + n ≤ MAXFILE * BSIZE

/-- The end of `writei`: the size in the inode, and the inode to its block. -/
def Fs.resized (fs : Fs) (ip : InodeRef) (size : UInt32) (log : Log) : Fs :=
  (fs.withCopy ip (fun dn => { dn with size := size })).putInode
    (fs.inode ip).inum { (fs.inode ip).copy with size := size } log

theorem inLog_resized {log : Log} (size : UInt32)
    (hlog : fs.log.write (IBLOCK (fs.inode ip).inum fs.sb) = .ok log) :
    Fs.InLog fs (fs.resized ip size log) := by
  have hcopy : Fs.InLog fs (fs.withCopy ip (fun dn => { dn with size := size })) :=
    ⟨List.Subset.refl _, fun _ => Or.inr rfl⟩
  exact trans_of Fs.InLog hcopy (inLog_put _ hlog)

/-- A data block changed before the inode is written may as well be changed
after it. -/
theorem resized_put {size : UInt32} {log : Log} {block : Nat} (data : Block)
    (hne : block ≠ IBLOCK (fs.inode ip).inum fs.sb) :
    (fs.put block data fs.log).resized ip size log =
      (fs.resized ip size log).put block data (fs.resized ip size log).log := by
  simp only [Fs.resized, Fs.put, Fs.putInode, Fs.withCopy, Fs.withInode, update_of_ne (Ne.symm hne)]
  rw [Function.update_comm hne]

/-- The blocks of the file stay where they are. -/
theorem blockOf_resized (hwork : fs.Working ip) (size : UInt32) (log : Log)
    (o : Nat) : (fs.resized ip size log).blockOf ip o = fs.blockOf ip o := by
  have hcopy : ((fs.resized ip size log).inode ip).copy =
      { (fs.inode ip).copy with size := size } := by
    rw [Fs.resized, putInode_inode, Fs.withCopy, withInode_self]
  rw [Fs.blockOf, Fs.blockOf, hcopy]
  have hsame := @blockAt_congr (fs.inode ip).copy fs.disk
    (fs.resized ip size log).disk (slotOf (o / BSIZE)) (by
      intro hind
      have hgiven := hwork.sound.indirect_given hwork.inum
        (by rw [seen_self]; exact hwork.type) (by rwa [seen_self])
      rw [seen_self] at hgiven
      exact @putInode_disk (fs.withCopy ip _) hwork.sound.layout _ _ _ _ hwork.inum hgiven.1)
  exact hsame

/-- The new size in the inode, and the inode in its block. -/
theorem Fs.Writes.wrote {fs₁ : Fs} {hi : Nat} (hwork : fs.Working ip)
    (hwrites : Fs.Writes ip buf.byte off 0 t hi fs fs₁) (hhigh : t ≤ n)
    (hchunk : t = 0 ∨ min n (BSIZE - off % BSIZE) ≤ t) (hhi : hi ≤ off + n)
    (htotal : buf.Total → hi ≤ off + t) (htakes : fs.Takes ip off n) {size : UInt32}
    (hsize : size.toNat = max (fs.inode ip).copy.size.toNat (off + t))
    (log : Log) : Fs.Wrote ip buf off n t fs (fs₁.resized ip size log) := by
  obtain ⟨hstart, hlimit⟩ := htakes
  have hmaxfile : MAXFILE * BSIZE < 2 ^ 32 := by decide
  have hfull := hwork.full
  have hedits := hwrites.edits
  have hinum := hedits.working.inum
  have hframe := hedits.frame
  -- blocks below the new size are there
  have hmapped : ∀ bn, bn * BSIZE < size.toNat →
      (fs₁.inode ip).copy.blockAt fs₁.disk (slotOf bn) ≠ 0 := by
    intro bn hbn
    have hdiv : bn * BSIZE / BSIZE = bn := Nat.mul_div_cancel _ (by decide)
    have hblock : fs₁.blockOf ip (bn * BSIZE) ≠ 0 := by
      by_cases hold : bn * BSIZE < (fs.inode ip).copy.size.toNat
      · have hhas := hwork.has_of_lt hwork.inum
          (by rw [seen_self]; exact hwork.type) (by rwa [seen_self])
        rw [hedits.blockOf hhas, ← dataBlock_self]
        exact hhas.mapped
      · exact (hwrites.written (bn * BSIZE) (by omega) (by omega)).1
    rwa [Fs.blockOf, hdiv] at hblock
  have hresize := @Fs.Sound.resize fs₁ _ hedits.working.sound
    (fs₁.inode ip).inum size (by rw [hsize]; have := hfull.size; omega)
    (by rw [seen_self]; exact hmapped)
  rw [seen_self] at hresize
  have hsound : fs₁.Sound (Function.update fs₁.dinode (fs₁.inode ip).inum
      { (fs₁.inode ip).copy with size := size }) := by
    rwa [Fs.seen, Function.update_idem] at hresize
  generalize hfs' : fs₁.resized ip size log = fs'
  have hdinode : fs'.dinode = Function.update fs₁.dinode (fs₁.inode ip).inum
      { (fs₁.inode ip).copy with size := size } := by
    funext inum
    rw [← hfs', Fs.resized, putInode_dinode, Function.update_apply]
    rfl
  have hdata : ∀ c, fs₁.sb.datastart ≤ c → fs'.disk c = fs₁.disk c := by
    intro c hc
    rw [← hfs']
    exact @putInode_disk (fs₁.withCopy ip _) hedits.working.sound.layout
      _ _ _ _ hinum hc
  have hcopy : fs'.inode ip = { fs₁.inode ip with
      copy := { (fs₁.inode ip).copy with size := size } } := by
    rw [← hfs', Fs.resized, putInode_inode, Fs.withCopy, withInode_self]
  have hsound' : fs'.Sound fs'.dinode := by
    rw [hdinode, ← hfs']
    exact (hsound.withInode ip _).putInode _ log hinum
  -- bytes of the inode worked on are looked up through its new copy
  have hbyte : ∀ o, o < size.toNat → (fs'.inode ip).copy.byte fs'.disk o =
      (fs₁.inode ip).copy.byte fs₁.disk o := by
    intro o ho
    have hsame := hsound.byte_congr hdata (fs₁.inode ip).inum o hinum
      (by rw [update_self]; exact hedits.working.type)
      (by rw [update_self]; exact ho)
    rw [update_self] at hsame
    rw [hcopy]
    exact hsame
  -- the inode block receives the copy, whatever its size
  have htidy : fs.Tight (fs.seen ip) → fs'.Tidy := by
    intro htight
    have hput : fs'.Tight (fs₁.seen ip) := by
      rw [← hfs']
      exact @Fs.Tight.putInode (fs₁.withCopy ip _) _
        (hedits.working.sound.withInode ip _) (hedits.tight htight) _ _ log
        hinum
    rw [Fs.Tidy, hdinode]
    refine hput.reshape fun inum => ?_
    by_cases heq : inum = (fs₁.inode ip).inum
    · rw [heq, seen_self, update_self]
      exact ⟨rfl, rfl⟩
    · rw [Fs.seen, update_of_ne heq, update_of_ne heq]
      exact ⟨rfl, rfl⟩
  refine ⟨?_, hsound', ?_, ?_, ?_, ?_, ?_, ?_, ?_, ?_, hhigh, hchunk, hstart, hlimit, htidy⟩
  · rw [← hfs']
    exact hframe.sb
  · intro other hother
    rw [← hfs', Fs.resized, putInode_inode, Fs.withCopy, withInode_of_ne _ _ _ hother]
    exact hframe.others other hother
  · obtain ⟨addrs, haddrs⟩ := hframe.self
    exact ⟨size, addrs, by rw [hcopy, haddrs]⟩
  · rw [hdinode, ← hframe.inum, update_self, hcopy]
  · intro inum hlt hne
    rw [hdinode, hframe.inum, update_of_ne hne]
    exact hframe.dinode inum hlt
  · rw [hcopy, hsize]
  · intro inum o hlt halloc hne ho
    have hseen : fs.seen ip inum = fs.dinode inum :=
      update_of_ne hne _ _
    have hseen₁ : fs₁.seen ip inum = fs.dinode inum := by
      rw [hframe.seen_of_ne hlt hne, hseen]
    have hlast := hedits.working.sound.byte_congr hdata inum o
      (by rwa [hframe.sb]) (by rwa [hseen₁]) (by rwa [hseen₁])
    have hfirst := hedits.byte (hwork.has_of_lt hlt (by rwa [hseen])
      (by rwa [hseen])) (fun heq => (hne heq).elim)
    rw [hseen₁] at hlast hfirst
    rw [hlast, hfirst, hseen]
  · intro o ho hout
    have hhas := hwork.has_of_lt hwork.inum
      (by rw [seen_self]; exact hwork.type) (by rwa [seen_self])
    rw [hbyte o (by omega), hedits.byte_self hhas]
    rcases hout with hbefore | hbehind | ⟨hall, hbehind⟩
    · exact Or.inl hbefore
    · exact Or.inr (by omega)
    · exact Or.inr (Nat.le_trans (htotal hall) hbehind)
  · intro o hlow hhigh'
    rw [hbyte o (by omega)]
    exact (hwrites.written o (by omega) hhigh').2

/-- The torn block of a failed copy is the same before and after the inode is
written with its new size. -/
theorem Fs.Tears.resized {middle : Fs} (hwork : middle.Working ip)
    (hbn : (off + t) / BSIZE < MAXFILE) (htears : Fs.Tears ip buf off n t middle fs')
    (size : UInt32) (log : Log) : Fs.Tears ip buf off n t
      (middle.resized ip size log) (fs'.resized ip size log) := by
  have hhas := hwork.has hbn htears.block
  have hgiven := hwork.sound.given _ _ hhas.live hhas.mapped
  rw [seen_self] at hgiven
  have hinode := hwork.sound.layout.IBLOCK_lt_datastart hwork.inum
  have hlow := hgiven.1
  have hdata : (middle.resized ip size log).disk (middle.blockOf ip (off + t)) =
      middle.disk (middle.blockOf ip (off + t)) :=
    @putInode_disk (middle.withCopy ip _) hwork.sound.layout _ _ _ _ hwork.inum hlow
  refine ⟨htears.lt, ?_, htears.short, ?_⟩
  · rw [blockOf_resized hwork]
    exact htears.block
  · rw [Fs.putChunk, blockOf_resized hwork, hdata, htears.state]
    refine resized_put _ ?_
    unfold Fs.blockOf
    omega

/-- `writei` ends with `t` bytes written: `clean` has these bytes only, `fs'`
may have a part of one more block. -/
structure Fs.WriteEnds (ip : InodeRef) (buf : Buffer) (off n t : Nat)
    (fs clean fs' : Fs) : Prop where
  wrote : Fs.Wrote ip buf off n t fs fs'
  whole : Fs.Wrote ip (.kernel buf.byte) off n t fs clean
  inLog : Fs.InLog fs clean
  copied : ∀ access, buf.copied = reach access → reach access 0 t = t
  aligned : t = 0 ∨ t = n ∨ (off + t) % BSIZE = 0
  room : 0 < n → buf.Total → (0 < t ↔ fs.Mappable (fs.inode ip).copy (off / BSIZE))
  last : (fs' = clean ∧ (t = n ∨ (fs.inode ip).copy.size.toNat ≤ (off + t) / BSIZE * BSIZE)) ∨
    Fs.Tears ip buf off n t clean fs'

/-- From the loop to the end of the call. -/
theorem Fs.LoopEnds.resized {middle after : Fs} (hwork : fs.Working ip) (htakes : fs.Takes ip off n)
    (hloop : Fs.LoopEnds ip buf off n 0 t fs middle after) {size : UInt32} {log : Log}
    (hsize : size.toNat = max (fs.inode ip).copy.size.toNat (off + t))
    (hlog : after.log.write (IBLOCK (after.inode ip).inum after.sb) = .ok log) :
    Fs.WriteEnds ip buf off n t fs (middle.resized ip size log) (after.resized ip size log) := by
  have hafter : after.log = middle.log ∧ after.inode = middle.inode ∧ after.sb = middle.sb := by
    rcases hloop.last with ⟨heq, _⟩ | htears
    · rw [heq]
      exact ⟨rfl, rfl, rfl⟩
    · rw [htears.state]
      exact ⟨rfl, rfl, rfl⟩
  rw [hafter.1, hafter.2.1, hafter.2.2] at hlog
  have hhigh := hloop.high
  have hchunk : t = 0 ∨ min n (BSIZE - off % BSIZE) ≤ t := by
    have hchunk := hloop.chunk
    rwa [chunkAt, Nat.sub_zero, Nat.add_zero, Nat.zero_add] at hchunk
  obtain ⟨hi, hwrites, hhi, htotal⟩ := hloop.after htakes.2
  refine ⟨hwrites.wrote hwork hhigh hchunk hhi htotal htakes hsize log,
    @Fs.Writes.wrote _ _ (.kernel buf.byte) _ _ _ _ _ hwork hloop.writes hhigh
      hchunk (by omega) (fun _ => Nat.le_refl _) htakes _ hsize log,
    trans_of Fs.InLog hloop.inLog (inLog_resized size hlog), hloop.copied,
    hloop.aligned, hloop.room, ?_⟩
  rcases hloop.last with ⟨heq, hend⟩ | htears
  · exact Or.inl ⟨by rw [heq], hend⟩
  have hlt := htears.lt
  have hmax := htakes.2
  have hbn : (off + t) / BSIZE < MAXFILE :=
    Nat.div_lt_of_lt_mul (by rw [Nat.mul_comm]; omega)
  exact Or.inr (htears.resized hloop.writes.edits.working hbn size log)

/-- `writei` refuses a request and changes nothing, or ends as `Fs.WriteEnds`
says. -/
theorem wlp_writei_ends (hwork : fs.Working ip) (hn : n < 2 ^ 32) :
    wlp (writei ip buf off n) fs (fun result fs' =>
      (result = none ∧ fs' = fs ∧ ¬ fs.Takes ip off n) ∨
        ∃ t clean, result = some t ∧ fs.Takes ip off n ∧
          Fs.WriteEnds ip buf off n t fs clean fs') := by
  have hmaxfile : MAXFILE * BSIZE < 2 ^ 32 := by decide
  have hsize := (fs.inode ip).copy.size.toNat_lt
  unfold writei Fs.Takes
  rw [wlp_bind, wlp_read, wlp_ite]
  split
  next hrange =>
    exact (wlp_pure none).mpr (Or.inl ⟨rfl, rfl, by omega⟩)
  next hrange =>
    rw [wlp_ite]
    split
    next hbig =>
      exact (wlp_pure none).mpr (Or.inl ⟨rfl, rfl, by omega⟩)
    next hfits =>
      have htakes : fs.Takes ip off n := ⟨by omega, by omega⟩
      refine wlp_seq (wlp_writeLoop hwork htakes.2 n (Nat.zero_le n) (Nat.le_refl n)) ?_
      rintro t after ⟨middle, hloop⟩
      have hhigh := hloop.high
      have hmax := htakes.2
      have hcopy : (after.inode ip).copy.size = (fs.inode ip).copy.size := by
        obtain ⟨_, hwrites, _⟩ := hloop.after htakes.2
        exact hwrites.edits.frame.size
      simp only [iupdate, writeDinode, wlp_bind, wlp_read, wlp_logWrite,
        wlp_pure, Code.when, wlp_ite, wlp_setCopy]
      split
      next hgrown =>
        intro log hlog
        have hnat : (UInt32.ofNat (off + t)).toNat = off + t := by
          rw [UInt32.toNat_ofNat']
          exact Nat.mod_eq_of_lt (by omega)
        rw [Fs.withCopy, withInode_self] at hlog ⊢
        exact Or.inr ⟨t, _, rfl, htakes, hloop.resized hwork htakes (by omega) hlog⟩
      next hkept =>
        intro log hlog
        have hends := hloop.resized hwork htakes
          (show (after.inode ip).copy.size.toNat = _ by rw [hcopy]; omega) hlog
        have hsame : after.withCopy ip (fun dn =>
            { dn with size := (after.inode ip).copy.size }) = after := by
          simp [Fs.withCopy, Fs.withInode]
        rw [Fs.resized.eq_def after, hsame] at hends
        exact Or.inr ⟨t, _, rfl, htakes, hends⟩

theorem wlp_writei (hwork : fs.Working ip) (buf : Buffer) (off : Nat)
    (hn : n < 2 ^ 32) : wlp (writei ip buf off n) fs (fun result fs' =>
      (result = none ∧ fs' = fs) ∨ ∃ t, result = some t ∧ Fs.Wrote ip buf off n t fs fs') := by
  refine wlp_mono (wlp_writei_ends hwork hn) ?_
  rintro result fs' (⟨hnone, hsame, _⟩ | ⟨t, clean, hsome, _, hends⟩)
  · exact Or.inl ⟨hnone, hsame⟩
  · exact Or.inr ⟨t, hsome, hends.wrote⟩

end Writei

end CkptKernel
