/-
Little-endian numbers in byte memories.  A memory is a total map from
addresses to bytes, so a field is read and written at an address without any
bookkeeping about the memory's length.
-/
import Mathlib.Data.UInt
import Mathlib.Tactic.Ring

namespace ByteMem

/-- Byte memory addressed from the start of one object. -/
abbrev Bytes := Nat → UInt8

/-- The `i`-th byte of a number, least significant first. -/
def leByte (value i : Nat) : UInt8 :=
  UInt8.ofNat (value / 256 ^ i)

/-- Read `width` bytes at `off` as one number. -/
def getLE (mem : Bytes) (off : Nat) : Nat → Nat
  | 0 => 0
  | width + 1 => (mem off).toNat + 256 * getLE mem (off + 1) width

/-- Write the low `width` bytes of a number at `off`. -/
def putLE (mem : Bytes) (off width value : Nat) : Bytes := fun addr =>
  if off ≤ addr ∧ addr < off + width then leByte value (addr - off)
  else mem addr

/-- `memmove` of the first `count` bytes of `src` to `off`. -/
def blit (mem : Bytes) (off count : Nat) (src : Bytes) : Bytes := fun addr =>
  if off ≤ addr ∧ addr < off + count then src (addr - off) else mem addr

theorem leByte_toNat (value i : Nat) : (leByte value i).toNat = value / 256 ^ i % 256 := by
  simp [leByte]

theorem getLE_congr {left right : Bytes} {off width : Nat}
    (hsame : ∀ addr, off ≤ addr → addr < off + width → left addr = right addr) :
    getLE left off width = getLE right off width := by
  induction width generalizing off with
  | zero => rfl
  | succ width ih =>
    simp only [getLE]
    rw [hsame off (Nat.le_refl off) (by omega)]
    rw [ih (fun addr hlow hhigh => hsame addr (by omega) (by omega))]

@[simp] theorem getLE_zero (off width : Nat) : getLE (fun _ => 0) off width = 0 := by
  induction width generalizing off with
  | zero => rfl
  | succ width ih => simp [getLE, ih]

/-- Reading a window that holds the bytes of `value` from digit `i` on gives
the digits `i .. i + width` of `value`. -/
theorem getLE_of_leBytes {mem : Bytes} {off width value i : Nat}
    (hbytes : ∀ k, k < width → mem (off + k) = leByte value (i + k)) :
    getLE mem off width = value / 256 ^ i % 256 ^ width := by
  induction width generalizing off i with
  | zero => simp [getLE, Nat.mod_one]
  | succ width ih =>
    have hhead := hbytes 0 (by omega)
    have htail : getLE mem (off + 1) width = value / 256 ^ (i + 1) % 256 ^ width := by
      apply ih
      intro k hk
      have hnext := hbytes (k + 1) (by omega)
      rwa [show off + (k + 1) = off + 1 + k by omega,
        show i + (k + 1) = i + 1 + k by omega] at hnext
    simp only [Nat.add_zero] at hhead
    simp only [getLE, hhead, htail, leByte_toNat]
    rw [pow_succ 256 width, Nat.mul_comm (256 ^ width) 256,
      Nat.mod_mul, Nat.div_div_eq_div_mul, ← pow_succ]

variable (mem : Bytes)

theorem getLE_putLE_mod (off width value : Nat) :
    getLE (putLE mem off width value) off width = value % 256 ^ width := by
  have hread : getLE (putLE mem off width value) off width = value / 256 ^ 0 % 256 ^ width := by
    apply getLE_of_leBytes
    intro k hk
    simp [putLE, hk]
  simpa using hread

theorem getLE_putLE_same {off width value : Nat} (hfits : value < 256 ^ width) :
    getLE (putLE mem off width value) off width = value := by
  rw [getLE_putLE_mod, Nat.mod_eq_of_lt hfits]

theorem getLE_putLE_disjoint {off width value off' width' : Nat}
    (hdisjoint : off' + width' ≤ off ∨ off + width ≤ off') :
    getLE (putLE mem off width value) off' width' = getLE mem off' width' := by
  apply getLE_congr
  intro addr hlow hhigh
  have hout : ¬ (off ≤ addr ∧ addr < off + width) := by omega
  simp [putLE, hout]

theorem putLE_outside {off width value addr : Nat} (hout : addr < off ∨ off + width ≤ addr) :
    putLE mem off width value addr = mem addr := by
  have hnot : ¬ (off ≤ addr ∧ addr < off + width) := by omega
  simp [putLE, hnot]

theorem blit_inside {off count addr : Nat} (src : Bytes) (hlow : off ≤ addr)
    (hhigh : addr < off + count) : blit mem off count src addr = src (addr - off) := by
  simp [blit, hlow, hhigh]

theorem blit_outside {off count addr : Nat} (src : Bytes) (hout : addr < off ∨ off + count ≤ addr) :
    blit mem off count src addr = mem addr := by
  have hnot : ¬ (off ≤ addr ∧ addr < off + count) := by omega
  simp [blit, hnot]

theorem blit_zero (off : Nat) (src : Bytes) : blit mem off 0 src = mem := by
  funext addr
  simp [blit]

/-- Two adjacent copies are one. -/
theorem blit_append (off k l : Nat) (src src' : Bytes) :
    blit (blit mem off k src) (off + k) l src' = blit mem off (k + l) (blit src k l src') := by
  funext addr
  unfold blit
  by_cases hlow : off ≤ addr
  · by_cases hfirst : addr < off + k
    · rw [if_neg (by omega), if_pos ⟨hlow, hfirst⟩, if_pos (by omega), if_neg (by omega)]
    by_cases hsecond : addr < off + k + l
    · rw [if_pos (by omega), if_pos (by omega), if_pos (by omega)]
      congr 1
      omega
    · rw [if_neg (by omega), if_neg (by omega), if_neg (by omega)]
  · rw [if_neg (by omega), if_neg (by omega), if_neg (by omega)]

theorem blit_congr {pos count : Nat} {src src' : Bytes} (hsame : ∀ i, i < count → src i = src' i) :
    blit mem pos count src = blit mem pos count src' := by
  funext addr
  unfold blit
  split
  · exact hsame _ (by omega)
  · rfl

/-- The first byte of a copy, and the rest of it. -/
theorem blit_succ (off count : Nat) (src : Bytes) :
    blit (blit mem off 1 fun _ => src 0) (off + 1) count (fun i => src (i + 1)) =
      blit mem off (count + 1) src := by
  rw [blit_append, Nat.add_comm 1]
  refine blit_congr mem fun i hi => ?_
  cases i with
  | zero => exact blit_outside _ _ (Or.inl Nat.one_pos)
  | succ i => exact blit_inside _ _ (Nat.le_add_left 1 i) (by omega)

end ByteMem
