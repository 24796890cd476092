/-
Ring buffers with free-running counters: the counters wrap at `2 ^ w`, and a
slot is a counter modulo the size of the ring.  A ring replays its history if
it holds what was put in and not yet taken out, in order.
-/
import Mathlib.Logic.Function.Basic
import Mathlib.Data.List.Infix
import Mathlib.Data.Nat.ModEq

/-- The slots of a ring and the numbers of values taken out and put in. -/
structure RingBuffer (w : Nat) (A : Type) where
  data : Nat → A
  nread : BitVec w
  nwrite : BitVec w

namespace RingBuffer

variable {w size : Nat} {A : Type}

def Empty (ring : RingBuffer w A) : Prop := ring.nread = ring.nwrite

def Full (size : Nat) (ring : RingBuffer w A) : Prop :=
  ring.nwrite = ring.nread + BitVec.ofNat w size

instance (ring : RingBuffer w A) : Decidable ring.Empty :=
  inferInstanceAs (Decidable (_ = _))

instance (ring : RingBuffer w A) : Decidable (ring.Full size) :=
  inferInstanceAs (Decidable (_ = _))

def put (size : Nat) (value : A) (ring : RingBuffer w A) : RingBuffer w A where
  data := Function.update ring.data (ring.nwrite.toNat % size) value
  nread := ring.nread
  nwrite := ring.nwrite + 1

def front (size : Nat) (ring : RingBuffer w A) : A :=
  ring.data (ring.nread.toNat % size)

def drop (ring : RingBuffer w A) : RingBuffer w A :=
  { ring with nread := ring.nread + 1 }

/-- The ring after `inserted` was put in and `removed` taken out. -/
structure Replays (size : Nat) (inserted removed : List A)
    (ring : RingBuffer w A) : Prop where
  order : removed <+: inserted
  bound : inserted.length ≤ removed.length + size
  nread : ring.nread = BitVec.ofNat w removed.length
  nwrite : ring.nwrite = BitVec.ofNat w inserted.length
  data : ∀ k (hk : k < inserted.length), removed.length ≤ k → ring.data (k % size) = inserted[k]

/-- A ring fits its counters if its size divides their range and is less. -/
structure Fits (w size : Nat) : Prop where
  pos : 0 < size
  lt : size < 2 ^ w
  dvd : size ∣ 2 ^ w

theorem Fits.slot (hfits : Fits w size) (k : Nat) : (BitVec.ofNat w k).toNat % size = k % size := by
  rw [BitVec.toNat_ofNat]
  exact Nat.mod_mod_of_dvd k hfits.dvd

/-- Counts that differ by at most `size` are told apart by wrapped counters. -/
theorem Fits.ofNat_inj (hfits : Fits w size) {m n : Nat} (hle : m ≤ n)
    (hbound : n ≤ m + size) : BitVec.ofNat w m = BitVec.ofNat w n ↔ m = n := by
  refine ⟨fun heq => ?_, fun heq => by rw [heq]⟩
  have hmod := congrArg BitVec.toNat heq
  rw [BitVec.toNat_ofNat, BitVec.toNat_ofNat] at hmod
  have hdvd : 2 ^ w ∣ n - m :=
    (Nat.modEq_iff_dvd' hle).mp hmod
  have hlt := hfits.lt
  have := Nat.eq_zero_of_dvd_of_lt hdvd (by omega)
  omega

/-- The wrapped difference of counts that differ by at most `size`. -/
theorem Fits.sub_toNat (hfits : Fits w size) {m n : Nat} (hle : m ≤ n) (hbound : n ≤ m + size) :
    (BitVec.ofNat w n - BitVec.ofNat w m).toNat = n - m := by
  have hlt := hfits.lt
  have hsum : BitVec.ofNat w n = BitVec.ofNat w (n - m) + BitVec.ofNat w m := by
    rw [BitVec.ofNat_add_ofNat, Nat.sub_add_cancel hle]
  rw [hsum, BitVec.add_sub_cancel, BitVec.toNat_ofNat]
  exact Nat.mod_eq_of_lt (by omega)

/-- Different positions of the window are different slots. -/
theorem Fits.slot_ne {k n : Nat} (hlt : k < n) (hwindow : n < k + size) : k % size ≠ n % size := by
  intro heq
  have hdvd : size ∣ n - k := (Nat.modEq_iff_dvd' hlt.le).mp heq
  have := Nat.eq_zero_of_dvd_of_lt hdvd (by omega)
  omega

section Replays

variable {inserted removed : List A} {ring : RingBuffer w A}

theorem Replays.length_le (hring : Replays size inserted removed ring) :
    removed.length ≤ inserted.length := hring.order.length_le

section

variable (hfits : Fits w size) (hring : Replays size inserted removed ring)
include hfits hring

theorem Replays.empty_iff : ring.Empty ↔ removed.length = inserted.length := by
  unfold Empty
  rw [hring.nread, hring.nwrite]
  exact hfits.ofNat_inj hring.length_le hring.bound

theorem Replays.full_iff : ring.Full size ↔ inserted.length = removed.length + size := by
  unfold Full
  rw [hring.nread, hring.nwrite, BitVec.ofNat_add_ofNat]
  exact hfits.ofNat_inj hring.bound (by have := hring.length_le; omega)

/-- The wrapped difference of the counters is the number of values inside. -/
theorem Replays.count : (ring.nwrite - ring.nread).toNat = inserted.length - removed.length ∧
      inserted.length - removed.length ≤ size := by
  have hle := hring.length_le
  have hbound := hring.bound
  refine ⟨?_, by omega⟩
  rw [hring.nread, hring.nwrite]
  exact hfits.sub_toNat hle hbound

/-- Putting a value into a ring that is not full overwrites nothing. -/
theorem Replays.put (hspace : ¬ ring.Full size) (value : A) :
    Replays size (inserted ++ [value]) removed (ring.put size value) := by
  have hle := hring.length_le
  have hbound := hring.bound
  have hroom : inserted.length < removed.length + size :=
    hbound.lt_of_ne fun heq => hspace ((hring.full_iff hfits).mpr heq)
  have hslot : ring.nwrite.toNat % size = inserted.length % size := by
    rw [hring.nwrite, hfits.slot]
  refine ⟨hring.order.trans (List.prefix_append _ _), ?_, hring.nread, ?_, ?_⟩
  · rw [List.length_append, List.length_singleton]
    exact hroom
  · change ring.nwrite + 1 = _
    rw [hring.nwrite, List.length_append, List.length_singleton, ← BitVec.ofNat_add_ofNat]
    rfl
  · intro k hk hkept
    rw [List.length_append, List.length_singleton] at hk
    unfold RingBuffer.put
    dsimp only
    rw [hslot]
    by_cases heq : k = inserted.length
    · subst heq
      simp
    · have hlt : k < inserted.length := by omega
      rw [Function.update_of_ne (Fits.slot_ne hlt (by omega)), List.getElem_append_left hlt]
      exact hring.data k hlt hkept

/-- Taking a value out of a ring that is not empty takes the oldest. -/
theorem Replays.drop (hsome : ¬ ring.Empty) :
    Replays size inserted (removed ++ [ring.front size]) ring.drop := by
  have hle := hring.length_le
  have hbound := hring.bound
  have hlt : removed.length < inserted.length :=
    hle.lt_of_ne fun heq => hsome ((hring.empty_iff hfits).mpr heq)
  have hfront : ring.front size = inserted[removed.length] := by
    unfold front
    rw [hring.nread, hfits.slot]
    exact hring.data removed.length hlt le_rfl
  refine ⟨?_, ?_, ?_, hring.nwrite, ?_⟩
  · obtain ⟨rest, rfl⟩ := hring.order
    rw [List.length_append] at hlt
    cases rest with
    | nil => simp at hlt
    | cons head rest =>
      rw [hfront]
      simp
  · rw [List.length_append]
    omega
  · change ring.nread + 1 = _
    rw [hring.nread, List.length_append, List.length_singleton, ← BitVec.ofNat_add_ofNat]
    rfl
  · intro k hk hkept
    rw [List.length_append, List.length_singleton] at hkept
    exact hring.data k hk (by omega)

end

/-- Take back the value put in last. -/
def unput (ring : RingBuffer w A) : RingBuffer w A :=
  { ring with nwrite := ring.nwrite - 1 }

/-- A value that has not been taken out can be taken back. -/
theorem Replays.unput {value : A} (hring : Replays size (inserted ++ [value]) removed ring)
    (hkept : removed.length ≤ inserted.length) : Replays size inserted removed ring.unput := by
  have hbound := hring.bound
  rw [List.length_append, List.length_singleton] at hbound
  refine ⟨List.prefix_of_prefix_length_le hring.order
    (List.prefix_append _ _) hkept, by omega, hring.nread, ?_, ?_⟩
  · change ring.nwrite - 1 = _
    rw [hring.nwrite, List.length_append, List.length_singleton, ← BitVec.ofNat_add_ofNat]
    exact BitVec.add_sub_cancel _ _
  · intro k hk hlow
    have hdata := hring.data k (by simp; omega) hlow
    rwa [List.getElem_append_left hk] at hdata

/-- The slot before the next one holds the value put in last. -/
theorem Replays.last (hfits : Fits w size) {value : A}
    (hring : Replays size (inserted ++ [value]) removed ring)
    (hkept : removed.length ≤ inserted.length) :
    ring.data ((ring.nwrite - 1).toNat % size) = value := by
  have hback : ring.nwrite - 1 = BitVec.ofNat w inserted.length :=
    (hring.unput hkept).nwrite
  rw [hback, hfits.slot, hring.data inserted.length (by simp) hkept]
  simp

end Replays

end RingBuffer
