/-
Files as byte arrays: what `writei` leaves behind, also where a user copy stops
in the middle of a block.  The block it stops in has been changed in the buffer
cache and not been passed to `log_write`.
-/
import CkptKernel.CheckpointFile
import CkptKernel.FileRead

namespace CkptKernel

open ByteMem Code

section Writei

variable {fs fs' clean : Fs} {ip : InodeRef} {src : Bytes}
  {access : Nat → Bool} {off n t : Nat}

/-- The disk once the transaction is committed: the blocks of the log come from
the buffer cache, the other blocks are those from before. -/
def Fs.committed (fs fs' : Fs) : Fs :=
  { fs' with disk := fun b => if b ∈ fs'.log.lh then fs'.disk b else fs.disk b }

/-- The file of `ip` is its old contents with `t` bytes at `off` replaced, for
every later `readi` too, and every other file is as before. -/
structure Fs.Overwrites (ip : InodeRef) (src : Bytes) (off t : Nat)
    (fs fs' : Fs) : Prop where
  size : (fs'.inode ip).copy.size.toNat = max (fs.inode ip).copy.size.toNat (off + t)
  sync : fs'.dinode (fs.inode ip).inum = (fs'.inode ip).copy
  bytes : ∀ o, o < (fs'.inode ip).copy.size.toNat → (fs'.inode ip).copy.byte fs'.disk o =
      blit ((fs.inode ip).copy.byte fs.disk) off t src o
  reads : ∀ (dst : Bytes) (access : Nat → Bool) (pos m : Nat),
    let count := (fs'.inode ip).copy.readable pos m
    readi ip (.user dst access) pos m fs' =
      .ok ((if reach access 0 count = count then some count else none,
        blit dst 0 (reach access 0 count) (fun i =>
          blit ((fs.inode ip).copy.byte fs.disk) off t src (pos + i))), fs')
  others : ∀ inum, inum < fs.sb.ninodes → inum ≠ (fs.inode ip).inum →
    fs'.dinode inum = fs.dinode inum ∧ ((fs.dinode inum).type ≠ 0 →
      ∀ o, o < (fs.dinode inum).size.toNat →
        (fs'.dinode inum).byte fs'.disk o = (fs.dinode inum).byte fs.disk o)

/-- What `writei` has to do: nothing if it returns -1. -/
def Fs.AsBytes (ip : InodeRef) (src : Bytes) (off : Nat) (fs : Fs) : Option Nat → Fs → Prop
  | none, fs' => fs' = fs
  | some t, fs' => Fs.Overwrites ip src off t fs fs' ∧
      Fs.Overwrites ip src off t fs (fs.committed fs')

/-- The copy meets a bad byte, and before that byte, in the block it is for,
the file has bytes that differ from the source. -/
def Fs.Torn (fs : Fs) (ip : InodeRef) (src : Bytes) (access : Nat → Bool)
    (off n : Nat) : Prop :=
  fs.Takes ip off n ∧ reach access 0 n < n ∧ ∃ o, off ≤ o ∧ o < off + reach access 0 n ∧
      o / BSIZE = (off + reach access 0 n) / BSIZE ∧ o < (fs.inode ip).copy.size.toNat ∧
      (fs.inode ip).copy.byte fs.disk o ≠ src (o - off)

theorem readable_le (dn : Dinode) (pos m : Nat) :
    dn.readable pos m = 0 ∨ pos + dn.readable pos m ≤ dn.size.toNat := by
  unfold Dinode.readable
  split
  · exact Or.inl rfl
  · omega

/-- Later reads follow from the bytes. -/
theorem Fs.Working.reads (hwork : fs'.Working ip) {content : Bytes}
    (hbytes : ∀ o, o < (fs'.inode ip).copy.size.toNat →
      (fs'.inode ip).copy.byte fs'.disk o = content o) (dst : Bytes) (access : Nat → Bool)
    (pos m : Nat) : let count := (fs'.inode ip).copy.readable pos m
    readi ip (.user dst access) pos m fs' =
      .ok ((if reach access 0 count = count then some count else none,
        blit dst 0 (reach access 0 count) (fun i => content (pos + i))), fs') := by
  intro count
  rw [readi_user hwork.full]
  have hle := reach_le access 0 ((fs'.inode ip).copy.readable pos m)
  have hend := readable_le (fs'.inode ip).copy pos m
  rw [blit_congr dst fun i hi => hbytes (pos + i) (by omega)]

/-- The inode on disk follows the copy. -/
theorem Fs.Wrote.working {buf : Buffer} (hwork : fs.Working ip)
    (hwrote : Fs.Wrote ip buf off n t fs fs') : fs'.Working ip := by
  obtain ⟨size, addrs, hself⟩ := hwrote.self
  have hinum : (fs'.inode ip).inum = (fs.inode ip).inum := by rw [hself]
  have hseen : fs'.seen ip = fs'.dinode := by
    rw [Fs.seen, hinum, ← hwrote.sync, Function.update_eq_self]
  refine ⟨?_, ?_, ?_⟩
  · rw [hseen]
    exact hwrote.sound
  · rw [hinum, hwrote.sb]
    exact hwork.inum
  · rw [hself]
    exact hwork.type

theorem Fs.Wrote.overwrites (hwork : fs.Working ip)
    (hwrote : Fs.Wrote ip (.kernel src) off n t fs fs') : Fs.Overwrites ip src off t fs fs' := by
  have hbytes : ∀ o, o < (fs'.inode ip).copy.size.toNat → (fs'.inode ip).copy.byte fs'.disk o =
        blit ((fs.inode ip).copy.byte fs.disk) off t src o := by
    intro o ho
    rw [hwrote.size] at ho
    by_cases hin : off ≤ o ∧ o < off + t
    · rw [blit_inside _ _ hin.1 hin.2, hwrote.written o hin.1 hin.2]
      rfl
    have hstart := hwrote.start
    rw [blit_outside _ _ (by omega)]
    refine hwrote.same o (by omega) ?_
    by_cases hlow : o < off
    · exact Or.inl hlow
    · exact Or.inr (Or.inr ⟨Buffer.kernel_total src, by omega⟩)
  refine ⟨hwrote.size, hwrote.sync, hbytes, (hwrote.working hwork).reads hbytes, ?_⟩
  intro inum hinum hne
  have hdinode := hwrote.dinode inum hinum hne
  refine ⟨hdinode, fun htype o ho => ?_⟩
  rw [hdinode]
  exact hwrote.elsewhere inum o hinum htype hne ho

theorem Fs.Tears.byte_inside (hwork : clean.Working ip) (hbn : (off + t) / BSIZE < MAXFILE)
    (htears : Fs.Tears ip (.user src access) off n t clean fs') {o : Nat} (hlow : off + t ≤ o)
    (hhigh : o < off + t + reach access t (chunkAt off n t)) :
    (fs'.inode ip).copy.byte fs'.disk o = src (o - off) := by
  have hshort : reach access t (chunkAt off n t) < chunkAt off n t :=
    htears.short
  have hchunk : chunkAt off n t ≤ BSIZE - (off + t) % BSIZE :=
    Nat.min_le_right _ _
  have hbyte := (putChunk_byte hwork hbn htears.block (by omega)
    (fun i => src (t + i)) clean.log hlow hhigh).2.2
  have hplace : t + (o - (off + t)) = o - off := by omega
  rw [hplace] at hbyte
  rw [htears.state]
  exact hbyte

/-- Whether the files are as they should be after a copy that stopped early
depends on the bytes it has left in the buffer. -/
theorem Fs.Tears.overwrites_iff (hwork : fs.Working ip)
    (hwrote : Fs.Wrote ip (.kernel src) off n t fs clean)
    (htears : Fs.Tears ip (.user src access) off n t clean fs') :
    Fs.Overwrites ip src off t fs fs' ↔
      ∀ o, off + t ≤ o → o < off + t + reach access t (chunkAt off n t) →
        o < (fs.inode ip).copy.size.toNat → (fs.inode ip).copy.byte fs.disk o = src (o - off) := by
  have hclean := hwrote.working hwork
  have hover := hwrote.overwrites hwork
  have hlt := htears.lt
  have hlimit := hwrote.limit
  have hbn : (off + t) / BSIZE < MAXFILE :=
    Nat.div_lt_of_lt_mul (by rw [Nat.mul_comm]; omega)
  have hedits := hclean.putChunk hbn htears.block
    (reach access t (chunkAt off n t)) (fun i => src (t + i)) clean.log
  have hstate : clean.putChunk ip (off + t) (reach access t (chunkAt off n t))
    (fun i => src (t + i)) clean.log = fs' := htears.state.symm
  rw [hstate] at hedits
  have hinode : fs'.inode = clean.inode := by
    rw [htears.state]
    rfl
  have hinum : (clean.inode ip).inum = (fs.inode ip).inum := by
    obtain ⟨_, _, hself⟩ := hwrote.self
    rw [hself]
  constructor
  · intro hall o hlow hhigh hsize
    have hbyte := hall.bytes o (by rw [hall.size]; omega)
    rw [htears.byte_inside hclean hbn hlow hhigh, blit_outside _ _ (by omega)] at hbyte
    exact hbyte.symm
  · intro hsame
    have hbytes : ∀ o, o < (fs'.inode ip).copy.size.toNat → (fs'.inode ip).copy.byte fs'.disk o =
          blit ((fs.inode ip).copy.byte fs.disk) off t src o := by
      intro o ho
      rw [hinode] at ho
      by_cases hin : off + t ≤ o ∧ o < off + t + reach access t (chunkAt off n t)
      · rw [htears.byte_inside hclean hbn hin.1 hin.2, blit_outside _ _ (by omega)]
        rw [hwrote.size] at ho
        exact (hsame o hin.1 hin.2 (by omega)).symm
      · have hhas := hclean.has_of_lt hclean.inum
          (by rw [seen_self]; exact hclean.type) (by rwa [seen_self])
        rw [hedits.byte_self hhas (by omega)]
        exact hover.bytes o ho
    refine ⟨by rw [hinode]; exact hwrote.size, ?_, hbytes, hedits.working.reads hbytes, ?_⟩
    · rw [hedits.frame.dinode _ (by rw [hwrote.sb]; exact hwork.inum), hinode]
      exact hwrote.sync
    intro inum hlt' hne
    obtain ⟨hdinode, hother⟩ := hover.others inum hlt' hne
    have hclean' : inum < clean.sb.ninodes := by rwa [hwrote.sb]
    have hdinode' := hedits.frame.dinode inum hclean'
    refine ⟨hdinode'.trans hdinode, fun htype o ho => ?_⟩
    have hseen : clean.seen ip inum = clean.dinode inum :=
      Function.update_of_ne (by rwa [hinum]) _ _
    have hseen' : fs'.seen ip inum = fs'.dinode inum :=
      Function.update_of_ne (by rwa [hinode, hinum]) _ _
    have hbyte := hedits.byte (hclean.has_of_lt hclean'
      (by rwa [hseen, hdinode]) (by rwa [hseen, hdinode]))
      (fun heq => (hne (heq.trans hinum)).elim)
    rw [hseen, hseen'] at hbyte
    rw [hbyte]
    exact hother htype o ho

/-- Committing changes nothing where every changed block is in the log. -/
theorem Fs.InLog.committed (hlogged : Fs.InLog fs fs') : fs.committed fs' = fs' := by
  have hdisk : (fs.committed fs').disk = fs'.disk := by
    funext b
    rcases hlogged.disk b with hin | hsame
    · exact if_pos hin
    · simp [Fs.committed, hsame]
  exact congrArg (fun disk => { fs' with disk := disk }) hdisk

/-- Of a block torn, the part copied is committed with the block or is lost. -/
theorem Fs.Tears.committed (hlogged : Fs.InLog fs clean)
    (htears : Fs.Tears ip (.user src access) off n t clean fs') :
    fs.committed fs' = fs' ∨ fs.committed fs' = clean := by
  rw [htears.state, Fs.putChunk]
  generalize clean.blockOf ip (off + t) = block
  by_cases hin : block ∈ clean.log.lh
  · left
    refine Fs.InLog.committed ⟨hlogged.grows, fun b => ?_⟩
    by_cases heq : b = block
    · exact Or.inl (heq ▸ hin)
    · rw [put_disk, Function.update_of_ne heq]
      exact hlogged.disk b
  · right
    refine Eq.trans ?_ hlogged.committed
    refine congrArg (fun disk => { clean with disk := disk }) (funext fun b => ?_)
    by_cases hb : b ∈ clean.log.lh
    · rw [put_log, if_pos hb, if_pos hb, put_disk,
        Function.update_of_ne (fun heq : b = block => hin (heq ▸ hb))]
    · rw [put_log, if_neg hb, if_neg hb]

theorem Fs.WriteEnds.reach_eq (hends : Fs.WriteEnds ip (.user src access) off n t fs clean fs') :
    reach access 0 n = t + reach access t (n - t) := by
  have hhigh := hends.wrote.high
  have hsplit := @reach_add access 0 t (n - t)
  rwa [if_pos (hends.copied access rfl), Nat.zero_add, Nat.add_sub_cancel' hhigh] at hsplit

theorem Fs.Tears.reach_eq (htears : Fs.Tears ip (.user src access) off n t clean fs') :
    reach access t (n - t) = reach access t (chunkAt off n t) := by
  have hshort : reach access t (chunkAt off n t) < chunkAt off n t :=
    htears.short
  have hle : chunkAt off n t ≤ n - t := Nat.min_le_left _ _
  have hsplit := @reach_add access t (chunkAt off n t) (n - t - chunkAt off n t)
  rwa [if_neg (by omega), Nat.add_sub_cancel' hle] at hsplit

/-- The bytes left in the buffer are those before the bad byte in its block. -/
theorem Fs.WriteEnds.torn_iff (htakes : fs.Takes ip off n)
    (hends : Fs.WriteEnds ip (.user src access) off n t fs clean fs') :
    fs.Torn ip src access off n ↔ Fs.Tears ip (.user src access) off n t clean fs' ∧
      ¬ ∀ o, off + t ≤ o → o < off + t + reach access t (chunkAt off n t) →
        o < (fs.inode ip).copy.size.toNat → (fs.inode ip).copy.byte fs.disk o = src (o - off) := by
  have hreach := hends.reach_eq
  have haligned := hends.aligned
  rcases hends.last with ⟨_, hend⟩ | htears
  · -- nothing was left behind, and no byte of the file is in the block
    constructor
    · rintro ⟨_, hshort, o, _, _, hdiv, hsize, _⟩
      have hmono : (off + t) / BSIZE ≤ (off + reach access 0 n) / BSIZE :=
        Nat.div_le_div_right (by omega)
      have hfloor := Nat.div_mul_le_self o BSIZE
      have hmul := Nat.mul_le_mul_right BSIZE hmono
      rw [hdiv] at hfloor
      omega
    · rintro ⟨htears, hnot⟩
      refine (hnot fun o hlow _ hsize => ?_).elim
      have hlt := htears.lt
      have hfloor := Nat.div_mul_le_self (off + t) BSIZE
      omega
  · have hstop := htears.reach_eq
    have hshort : reach access t (chunkAt off n t) < chunkAt off n t :=
      htears.short
    have hlt := htears.lt
    have hchunk : chunkAt off n t ≤ BSIZE - (off + t) % BSIZE :=
      Nat.min_le_right _ _
    have hchunk' : chunkAt off n t ≤ n - t := Nat.min_le_left _ _
    have hsame : (off + reach access 0 n) / BSIZE = (off + t) / BSIZE := by
      rw [hreach, hstop]
      simp only [BSIZE] at *
      omega
    constructor
    · rintro ⟨_, _, o, hlow, hhigh, hdiv, hsize, hne⟩
      refine ⟨htears, fun hall => hne (hall o ?_ (by omega) hsize)⟩
      rw [hsame] at hdiv
      simp only [BSIZE] at *
      omega
    · rintro ⟨_, hnot⟩
      simp only [not_forall] at hnot
      obtain ⟨o, hlow, hhigh, hsize, hne⟩ := hnot
      refine ⟨htakes, by omega, o, by omega, by omega, ?_, hsize, hne⟩
      rw [hsame]
      simp only [BSIZE] at *
      omega

/-- A file behaves as an array of bytes: a read delivers the bytes there are in
the range, up to a bad byte of the user's, and a write replaces the bytes it
says, except where it has to stop in a block of the file whose bytes before
that place it has already overwritten with others. -/
theorem writei_as_bytes_iff (hwork : fs.Working ip) (hn : n < 2 ^ 32) {result : Option Nat}
    (hrun : writei ip (.user src access) off n fs = .ok (result, fs')) :
    (∀ (dst : Bytes) (allowed : Nat → Bool) (pos m : Nat),
      let count := (fs.inode ip).copy.readable pos m
      readi ip (.user dst allowed) pos m fs =
        .ok ((if reach allowed 0 count = count then some count else none,
          blit dst 0 (reach allowed 0 count) (fun i =>
            (fs.inode ip).copy.byte fs.disk (pos + i))), fs)) ∧
      (Fs.AsBytes ip src off fs result fs' ↔ ¬ fs.Torn ip src access off n) := by
  refine ⟨fun dst allowed => readi_user hwork.full allowed dst, ?_⟩
  rcases wlp_writei_ends hwork hn result fs' hrun with
    ⟨rfl, rfl, hrefused⟩ | ⟨t, clean, rfl, htakes, hends⟩
  · exact iff_of_true rfl fun htorn => hrefused htorn.1
  have hwrote := hends.whole
  rw [hends.torn_iff htakes, not_and_not_right]
  rcases hends.last with ⟨heq, _⟩ | htears
  · subst heq
    have hover := hwrote.overwrites hwork
    refine iff_of_true ⟨hover, ?_⟩ fun htears =>
      (htears.overwrites_iff hwork hwrote).mp hover
    rw [hends.inLog.committed]
    exact hover
  · have hiff := htears.overwrites_iff hwork hwrote
    constructor
    · exact fun hall _ => hiff.mp hall.1
    intro hall
    have hover := hiff.mpr (hall htears)
    refine ⟨hover, ?_⟩
    rcases htears.committed hends.inLog with heq | heq
    · rw [heq]
      exact hover
    · rw [heq]
      exact hwrote.overwrites hwork

/-- The file of three bytes `0xAA`, locked, in a transaction. -/
def lockedFs : Fs :=
  (openIo.fs.lockInode 1).withLog { Log.empty with outstanding := 1 }

theorem lockedFs_working : lockedFs.Working 1 := by
  have hlock : (openIo.fs.lockInode 1).Ok := openIo_ok.lockInode
    openIo_canLock.ref openIo_canLock.inum openIo_canLock.type
  have hok : lockedFs.Ok := hlock.withLog _
  have hloaded : lockedFs.Loaded 1 := ⟨by decide +kernel, by decide +kernel⟩
  have hseen : lockedFs.seen 1 = lockedFs.dinode := by
    rw [Fs.seen, hloaded.sync hok, Function.update_eq_self]
  refine ⟨?_, hloaded.inum hok, hloaded.type hok⟩
  rw [hseen]
  exact hok.sound

/-- Two accessible bytes are written. -/
theorem writei_as_bytes_two : ∃ fs', writei 1 (.user (fun _ => 1) (fun _ => true)) 0 2 lockedFs =
        .ok (some 2, fs') ∧ Fs.AsBytes 1 (fun _ => 1) 0 lockedFs (some 2) fs' := by
  have hseen : wp (writei 1 (.user (fun _ => 1) (fun _ => true)) 0 2) lockedFs
      (fun r _ => r = some 2) := by
    decide +kernel
  obtain ⟨_, fs', hrun, rfl⟩ := hseen
  refine ⟨fs', hrun, (writei_as_bytes_iff lockedFs_working (by decide) hrun).2.mpr ?_⟩
  rintro ⟨_, hshort, _⟩
  exact absurd hshort (by decide)

/-- The second byte is bad: `writei` returns 0 and has changed the first. -/
theorem writei_leaves_byte : lockedFs.Working 1 ∧
      ∃ fs', writei 1 (.user (fun _ => 1) (fun k => k = 0)) 0 2 lockedFs = .ok (some 0, fs') ∧
        (lockedFs.inode 1).copy.byte lockedFs.disk 0 = 0xAA ∧
        (fs'.inode 1).copy.byte fs'.disk 0 = 1 ∧
        ¬ Fs.AsBytes 1 (fun _ => 1) 0 lockedFs (some 0) fs' := by
  have hseen : wp (writei 1 (.user (fun _ => 1) (fun k => k = 0)) 0 2) lockedFs (fun r fs' =>
      r = some 0 ∧ (fs'.inode 1).copy.size.toNat = 3 ∧ (fs'.inode 1).copy.byte fs'.disk 0 = 1) := by
    decide +kernel
  obtain ⟨_, fs', hrun, rfl, hsize, hbyte⟩ := hseen
  have hold : (lockedFs.inode 1).copy.byte lockedFs.disk 0 = 0xAA := by
    decide +kernel
  refine ⟨lockedFs_working, fs', hrun, hold, hbyte, ?_⟩
  rintro ⟨hover, _⟩
  have hsame := hover.bytes 0 (by omega)
  rw [blit_outside _ _ (by omega), hold, hbyte] at hsame
  exact absurd hsame (by decide)

end Writei

end CkptKernel
