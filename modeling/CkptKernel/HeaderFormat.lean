/-
The checkpoint header as bytes: what `checkpoint_proc` writes is what
`restore_proc` reads back.
-/
import CkptKernel.Checkpoint

namespace CkptKernel

open ByteMem

/-- The 32-bit fields of an entry fit. -/
structure CkptFd.Fits (fd : CkptFd) : Prop where
  type : fd.type < 256 ^ 4
  inum : fd.inum < 256 ^ 4
  off : fd.off < 256 ^ 4
  pipeId : fd.pipeId < 256 ^ 4

variable {off addr : Nat}

theorem putFd_outside (fd : CkptFd) (mem : Bytes)
    (hout : addr < off ∨ off + 24 ≤ addr) : putFd fd mem off addr = mem addr := by
  simp (disch := omega) only [putFd, putLE_outside]

variable {left right : Bytes}

/-- An entry depends on its own 24 bytes. -/
theorem getFd_congr (hsame : ∀ addr, off ≤ addr → addr < off + 24 → left addr = right addr) :
    getFd left off = getFd right off := by
  have hfield : ∀ k width, k + width ≤ 24 →
      getLE left (off + k) width = getLE right (off + k) width := by
    intro k width hfits
    apply getLE_congr
    intro addr hlow hhigh
    exact hsame addr (by omega) (by omega)
  simp only [getFd, CkptFd.mk.injEq]
  refine ⟨hfield 0 4 (by omega), hsame _ (by omega) (by omega),
    hsame _ (by omega) (by omega), hfield 8 4 (by omega),
    hfield 12 4 (by omega), ?_, hfield 20 4 (by omega)⟩
  rw [hfield 16 2 (by omega)]

theorem getFd_putFd (fd : CkptFd) (hfits : fd.Fits) (mem : Bytes) (off : Nat) :
    getFd (putFd fd mem off) off = fd := by
  have hmajor := fd.major.toNat_lt
  obtain ⟨type, readable, writable, inum, offset, major, pipeId⟩ := fd
  obtain ⟨htype, hinum, hoff, hpipe⟩ := hfits
  -- each field is read past the writes of those after it
  simp (disch := omega) only [getFd, putFd, getLE_putLE_disjoint,
    getLE_putLE_same, putLE_outside, UInt16.ofNat_toNat]
  simp [putLE, leByte]

section

variable (fds : Fin NOFILE → CkptFd)

theorem putFds_outside (slots : List (Fin NOFILE)) (mem : Bytes) (haddr : addr < fdOffset 0) :
    putFds fds slots mem addr = mem addr := by
  induction slots generalizing mem with
  | nil => rfl
  | cons i rest ih =>
    rw [putFds, List.foldl_cons, ← putFds, ih]
    exact putFd_outside _ _ (Or.inl (by simp only [fdOffset] at *; omega))

theorem getFd_putFds_of_notMem (slots : List (Fin NOFILE)) (mem : Bytes) {i : Fin NOFILE}
    (hnot : i ∉ slots) : getFd (putFds fds slots mem) (fdOffset i) = getFd mem (fdOffset i) := by
  induction slots generalizing mem with
  | nil => rfl
  | cons k rest ih =>
    rw [List.mem_cons, not_or] at hnot
    rw [putFds, List.foldl_cons, ← putFds, ih _ hnot.2]
    apply getFd_congr
    intro addr hlow hhigh
    have hne : i.val ≠ k.val := fun heq => hnot.1 (Fin.ext heq)
    exact putFd_outside _ _ (by simp only [fdOffset] at *; omega)

theorem getFd_putFds (hfits : ∀ i, (fds i).Fits) (slots : List (Fin NOFILE)) (hnodup : slots.Nodup)
    (mem : Bytes) {i : Fin NOFILE} (hmem : i ∈ slots) :
    getFd (putFds fds slots mem) (fdOffset i) = fds i := by
  induction slots generalizing mem with
  | nil => cases hmem
  | cons k rest ih =>
    obtain ⟨hnot, hrest⟩ := List.nodup_cons.mp hnodup
    rw [putFds, List.foldl_cons, ← putFds]
    rcases List.mem_cons.mp hmem with rfl | hmem
    · rw [getFd_putFds_of_notMem _ _ _ hnot, getFd_putFd _ (hfits i)]
    · exact ih hrest _ hmem

end

theorem strlen_le (src : Bytes) (n : Nat) : strlen src n ≤ n := by
  induction n generalizing src with
  | zero => exact Nat.le_refl 0
  | succ n ih =>
    unfold strlen
    split
    · exact Nat.zero_le _
    · exact Nat.succ_le_succ (ih _)

variable {n : Nat}

theorem strlen_chars {src : Bytes} {n i : Nat} (hi : i < strlen src n) : src i ≠ 0 := by
  induction n generalizing src i with
  | zero => cases hi
  | succ n ih =>
    unfold strlen at hi
    split at hi
    · cases hi
    next hne =>
      cases i with
      | zero => exact hne
      | succ i => exact @ih (fun k => src (k + 1)) i (by omega)

/-- A string that ends early ends with a NUL. -/
theorem strlen_end {src : Bytes} (hlt : strlen src n < n) : src (strlen src n) = 0 := by
  induction n generalizing src with
  | zero => omega
  | succ n ih =>
    unfold strlen at hlt ⊢
    split
    · assumption
    next hne =>
      rw [if_neg hne] at hlt
      exact @ih (fun k => src (k + 1)) (by omega)

theorem safestrcpy_outside (mem : Bytes) (src : Bytes) (hn : 0 < n)
    (hout : addr < off ∨ off + n ≤ addr) : safestrcpy mem off src n addr = mem addr := by
  have hlen := strlen_le src (n - 1)
  have hend : ∀ bytes : Bytes, ∀ i < n, Function.update bytes (off + i) 0 addr = bytes addr :=
    fun _ i hi => Function.update_of_ne (by omega) _ _
  simp only [safestrcpy, if_neg (Nat.ne_of_gt hn)]
  split
  · rw [hend _ _ (by omega), hend _ _ (by omega), blit_outside _ _ (by omega)]
  · rw [hend _ _ (by omega), blit_outside _ _ (by omega)]

theorem getLE_putHeader (hdr : CkptHeader) (stack : Bytes) {width : Nat}
    (hfits : off + width ≤ fdOffset 0) : getLE (putHeader hdr stack) off width =
      getLE (putFields hdr stack) off width := by
  apply getLE_congr
  intro addr _ hhigh
  exact putFds_outside _ _ _ (by omega)

/-- The size does not depend on the rest of the header. -/
theorem getHeader_sz {hdr : CkptHeader} (hsz : hdr.sz < 256 ^ 8) (stack : Bytes) {mem : Bytes}
    (hmem : ∀ o, o < HDRSZ → mem o = putHeader hdr stack o) : (getHeader mem).sz = hdr.sz := by
  have hread : getLE mem 16 8 = getLE (putHeader hdr stack) 16 8 := by
    apply getLE_congr
    intro addr _ hhigh
    exact hmem addr (Nat.lt_of_lt_of_le hhigh (by decide))
  change getLE mem 16 8 = _
  rw [hread, getLE_putHeader _ _ (by decide)]
  simp only [putFields]
  rw [getLE_putLE_disjoint _ (by omega), getLE_putLE_disjoint _ (by omega)]
  refine (getLE_congr fun addr _ hhigh => ?_).trans (getLE_putLE_same
    (putLE (putLE (putLE stack 0 4 hdr.magic) 4 4 hdr.version) 8 4 hdr.pid) hsz)
  rw [safestrcpy_outside _ _ (by omega) (by omega), blit_outside _ _ (by omega)]

/-- Any image that starts with the bytes of a header has its entries. -/
theorem getHeader_fds {hdr : CkptHeader} (hfits : ∀ i, (hdr.fds i).Fits) (stack : Bytes)
    {mem : Bytes} (hmem : ∀ o, o < HDRSZ → mem o = putHeader hdr stack o) :
    (getHeader mem).fds = hdr.fds := by
  funext i
  change getFd mem (fdOffset i) = _
  have hread : getFd mem (fdOffset i) = getFd (putHeader hdr stack) (fdOffset i) := by
    apply getFd_congr
    intro addr _ hhigh
    apply hmem
    have hi : i.val < NOFILE := i.isLt
    simp only [NOFILE] at hi
    simp only [fdOffset] at hhigh
    simp only [HDRSZ]
    omega
  rw [hread]
  exact getFd_putFds hdr.fds hfits _ (List.nodup_finRange NOFILE) _ (List.mem_finRange i)

end CkptKernel
