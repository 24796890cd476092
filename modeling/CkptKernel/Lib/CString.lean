/-
Byte strings in memory that end with a zero byte.
-/
import CkptKernel.Lib.LittleEndian
import Mathlib.Logic.Function.Basic

namespace CString

open ByteMem

/-- The string at `p` is `word`. -/
def StoredAt (mem : Bytes) : Nat → List UInt8 → Prop
  | p, [] => mem p = 0
  | p, b :: rest => mem p = b ∧ StoredAt mem (p + 1) rest

/-- The bytes from `p` up to the zero, at most `fuel` of them. -/
def stringAt (mem : Bytes) : Nat → Nat → List UInt8
  | 0, _ => []
  | fuel + 1, p => if mem p = 0 then [] else mem p :: stringAt mem fuel (p + 1)

/-- `strchr`: the address of the first `c` in the string at `p`, looking at no
more than `fuel` bytes. -/
def strchr (mem : Bytes) (c : UInt8) : Nat → Nat → Option Nat
  | 0, _ => none
  | fuel + 1, p =>
    if mem p = 0 then none
    else if mem p = c then some p
    else strchr mem c fuel (p + 1)

def bytesAt (mem : Bytes) : Nat → Nat → List UInt8
  | 0, _ => []
  | count + 1, p => mem p :: bytesAt mem count (p + 1)

variable {mem mem' : Bytes} {p q : Nat} {word rest : List UInt8}

theorem StoredAt.congr (hword : StoredAt mem p word)
    (hsame : ∀ a, p ≤ a → a ≤ p + word.length → mem' a = mem a) : StoredAt mem' p word := by
  induction word generalizing p with
  | nil => exact (hsame p (Nat.le_refl p) (Nat.le_refl p)).trans hword
  | cons b rest ih =>
    rw [List.length_cons] at hsame
    refine ⟨(hsame p (Nat.le_refl p) (by omega)).trans hword.1, ?_⟩
    exact ih hword.2 fun a hlow hhigh => hsame a (by omega) (by omega)

/-- A string is stored byte by byte. -/
theorem storedAt_iff : StoredAt mem p word ↔ (∀ i (h : i < word.length), mem (p + i) = word[i]) ∧
      mem (p + word.length) = 0 := by
  induction word generalizing p with
  | nil => simp [StoredAt]
  | cons b word ih =>
    have hend : p + (b :: word).length = p + 1 + word.length := by
      rw [List.length_cons]
      omega
    rw [StoredAt, ih, hend]
    constructor
    · rintro ⟨hhead, htail, hzero⟩
      refine ⟨fun i hi => ?_, hzero⟩
      cases i with
      | zero => exact hhead
      | succ i =>
        have hnext := htail i (by rw [List.length_cons] at hi; omega)
        rwa [Nat.add_assoc, Nat.add_comm 1] at hnext
    · rintro ⟨hall, hzero⟩
      refine ⟨hall 0 (Nat.succ_pos _), fun i hi => ?_, hzero⟩
      have hnext := hall (i + 1) (by rw [List.length_cons]; omega)
      rw [Nat.add_assoc, Nat.add_comm 1, hnext]
      rfl

theorem StoredAt.update (hword : StoredAt mem p word)
    (hout : q < p ∨ p + word.length < q) (b : UInt8) : StoredAt (Function.update mem q b) p word :=
  hword.congr fun a hlow hhigh => Function.update_of_ne (by omega) _ _

theorem StoredAt.drop (hword : StoredAt mem p (word ++ rest)) :
    StoredAt mem (p + word.length) rest := by
  induction word generalizing p with
  | nil => exact hword
  | cons b word ih =>
    rw [List.length_cons, Nat.add_comm word.length 1, ← Nat.add_assoc]
    exact ih hword.2

/-- A zero written behind `word` ends the string there. -/
theorem StoredAt.cut (hword : StoredAt mem p (word ++ rest)) :
    StoredAt (Function.update mem (p + word.length) 0) p word := by
  induction word generalizing p with
  | nil => exact Function.update_self _ _ _
  | cons b word ih =>
    rw [List.length_cons, Nat.add_comm word.length 1, ← Nat.add_assoc]
    refine ⟨?_, ih hword.2⟩
    rw [Function.update_of_ne (by omega)]
    exact hword.1

/-- Bytes without a NUL, checked one by one. -/
theorem ne_zero_of_all {bytes : List UInt8} (hall : bytes.all (· != 0)) :
    ∀ b ∈ bytes, b ≠ 0 := fun b hb =>
  bne_iff_ne.mp (List.all_eq_true.mp hall b hb)

theorem StoredAt.stringAt (hword : StoredAt mem p word) (hfree : ∀ b ∈ word, b ≠ 0) {fuel : Nat}
    (hfuel : word.length < fuel) : stringAt mem fuel p = word := by
  induction word generalizing p fuel with
  | nil =>
    obtain ⟨more, rfl⟩ := Nat.exists_eq_add_of_lt hfuel
    rw [List.length_nil, Nat.zero_add, CString.stringAt]
    exact if_pos hword
  | cons b word ih =>
    obtain ⟨more, rfl⟩ := Nat.exists_eq_add_of_lt hfuel
    rw [List.length_cons] at hfuel ⊢
    have hne : mem p ≠ 0 := hword.1 ▸ hfree b List.mem_cons_self
    rw [CString.stringAt, if_neg hne, hword.1, ih hword.2
      (fun c hc => hfree c (List.mem_cons_of_mem b hc)) (by omega)]

theorem StoredAt.bytesAt (hword : StoredAt mem p (word ++ rest)) :
    bytesAt mem word.length p = word := by
  induction word generalizing p with
  | nil => rfl
  | cons b word ih =>
    rw [List.length_cons, CString.bytesAt, hword.1, ih hword.2]

theorem length_bytesAt (mem : Bytes) (count p : Nat) : (bytesAt mem count p).length = count := by
  induction count generalizing p with
  | zero => rfl
  | succ count ih => rw [CString.bytesAt, List.length_cons, ih]

theorem getElem_bytesAt (mem : Bytes) {count i : Nat} (p : Nat)
    (hi : i < (CString.bytesAt mem count p).length) :
    (CString.bytesAt mem count p)[i] = mem (p + i) := by
  induction count generalizing p i with
  | zero => exact absurd hi (Nat.not_lt_zero i)
  | succ count ih =>
    cases i with
    | zero => rfl
    | succ i =>
      have hstep : p + (i + 1) = p + 1 + i := by omega
      rw [hstep]
      exact ih (p + 1) (Nat.lt_of_succ_lt_succ hi)

section Strchr

variable {c : UInt8} {fuel : Nat}

theorem StoredAt.strchr_none (hword : StoredAt mem p word)
    (hfree : ∀ b ∈ word, b ≠ 0 ∧ b ≠ c) : strchr mem c fuel p = none := by
  induction fuel generalizing p word with
  | zero => rfl
  | succ fuel ih =>
    rw [strchr]
    cases word with
    | nil => exact if_pos hword
    | cons b word =>
      obtain ⟨hzero, hne⟩ := hfree b List.mem_cons_self
      rw [hword.1, if_neg hzero, if_neg hne]
      exact ih hword.2 fun d hd => hfree d (List.mem_cons_of_mem b hd)

theorem StoredAt.strchr_some (hword : StoredAt mem p (word ++ c :: rest))
    (hfree : ∀ b ∈ word, b ≠ 0 ∧ b ≠ c) (hc : c ≠ 0) (hfuel : word.length < fuel) :
    strchr mem c fuel p = some (p + word.length) := by
  induction word generalizing p fuel with
  | nil =>
    obtain ⟨more, rfl⟩ := Nat.exists_eq_add_of_lt hfuel
    rw [List.length_nil, Nat.zero_add, strchr, hword.1, if_neg hc, if_pos rfl, Nat.add_zero]
  | cons b word ih =>
    obtain ⟨more, rfl⟩ := Nat.exists_eq_add_of_lt hfuel
    rw [List.length_cons] at hfuel ⊢
    obtain ⟨hzero, hne⟩ := hfree b List.mem_cons_self
    rw [strchr, hword.1, if_neg hzero, if_neg hne,
      ih hword.2 (fun d hd => hfree d (List.mem_cons_of_mem b hd))
        (by omega), Nat.add_assoc, Nat.add_comm 1]

end Strchr

end CString
