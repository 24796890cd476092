/-
The number printers: `vprintf` of user/printf.c and `printf` of
kernel/printf.c.  The two `printint` differ in the digits they write and in
the type of the variable that is divided, `uint` in the user's and `unsigned
long long` in the kernel's.
-/
import Mathlib.Data.Nat.Digits.Lemmas
import Mathlib.Data.UInt
import CkptKernel.Console

namespace CkptKernel.Printf

/-- The `do` loop of `printint`, on a value that has at most `fuel` digits. -/
def digitLoop (digits : List UInt8) (base : Nat) : Nat → Nat → List UInt8
  | 0, _ => []
  | fuel + 1, x =>
    digits.getD (x % base) 0 ::
      if x / base ≠ 0 then digitLoop digits base fuel (x / base) else []

/-- What `printint` leaves in `buf`, where `x` has `width` bits. -/
def printBuf (width : Nat) (digits : List UInt8) (xx : Int) (base : Nat)
    (sgn : Bool) : List UInt8 :=
  let neg := sgn && decide (xx < 0)
  let x := ((if neg then -xx else xx) % 2 ^ width).toNat
  digitLoop digits base width x ++ if neg then ['-'.toUInt8] else []

def userDigits : List UInt8 := "0123456789ABCDEF".toList.map Char.toUInt8

def kernelDigits : List UInt8 := "0123456789abcdef".toList.map Char.toUInt8

def userPrintint (xx : Int) (base : Nat) (sgn : Bool) : List UInt8 :=
  (printBuf 32 userDigits xx base sgn).reverse

def kernelPrintint (xx : Int) (base : Nat) (sign : Bool) : List UInt8 :=
  (printBuf 64 kernelDigits xx base sign).reverse

/-- `printptr`: sixteen times the uppermost four bits. -/
def printptr (digits : List UInt8) (x : UInt64) : List UInt8 :=
  ['0'.toUInt8, 'x'.toUInt8] ++ (List.range 16).map fun i =>
    digits.getD ((x <<< UInt64.ofNat (4 * i)) >>> 60).toNat 0

inductive Arg where
  | word (value : UInt64)
  /-- A `char *`, which may be null. -/
  | str (text : Option (List UInt8))

/-- `va_arg(ap, int)`. -/
def asInt (v : UInt64) : Int := v.toUInt32.toBitVec.toInt

def asUint (v : UInt64) : Int := v.toUInt32.toNat

/-- `va_arg(ap, uint64)`, as the `long long` that `printint` gets. -/
def asLong (v : UInt64) : Int := v.toBitVec.toInt

/-- What the two printers have of their own. -/
structure Printer where
  digits : List UInt8
  printint : Int → Nat → Bool → List UInt8
  putc : UInt32 → List UInt8

/-- Print the next argument as a number, and skip some of the format. -/
def number (print : UInt64 → List UInt8) (skip : Nat) :
    List Arg → Option (List UInt8 × Nat × List Arg)
  | .word v :: args => some (print v, skip, args)
  | _ => none

/-- What stands after a `%`: the output, how far the format goes on beyond
`c0`, and the arguments that are left.  There is no result when an argument is
missing or of the wrong kind. -/
def convert (out : Printer) (c0 c1 c2 : UInt8) (args : List Arg) :
    Option (List UInt8 × Nat × List Arg) :=
  let is (c : UInt8) (ch : Char) : Bool := c == ch.toUInt8
  if is c0 'd' then number (fun v => out.printint (asInt v) 10 true) 0 args
  else if is c0 'l' && is c1 'd' then
    number (fun v => out.printint (asLong v) 10 true) 1 args
  else if is c0 'l' && is c1 'l' && is c2 'd' then
    number (fun v => out.printint (asLong v) 10 true) 2 args
  else if is c0 'u' then
    number (fun v => out.printint (asUint v) 10 false) 0 args
  else if is c0 'l' && is c1 'u' then
    number (fun v => out.printint (asLong v) 10 false) 1 args
  else if is c0 'l' && is c1 'l' && is c2 'u' then
    number (fun v => out.printint (asLong v) 10 false) 2 args
  else if is c0 'x' then
    number (fun v => out.printint (asUint v) 16 false) 0 args
  else if is c0 'l' && is c1 'x' then
    number (fun v => out.printint (asLong v) 16 false) 1 args
  else if is c0 'l' && is c1 'l' && is c2 'x' then
    number (fun v => out.printint (asLong v) 16 false) 2 args
  else if is c0 'p' then number (printptr out.digits) 0 args
  else if is c0 'c' then number (fun v => out.putc v.toUInt32) 0 args
  else if is c0 's' then
    match args with
    | .str text :: args =>
      some (text.getD ("(null)".toList.map Char.toUInt8), 0, args)
    | _ => none
  else if is c0 '%' then some (['%'.toUInt8], 0, args)
  else some (['%'.toUInt8, c0], 0, args)

/-- The characters after `c0`; behind the end there is a zero. -/
def ahead (rest : List UInt8) : UInt8 × UInt8 :=
  (rest.headD 0, if rest.headD 0 = 0 then 0 else rest.tail.headD 0)

def userPrinter : Printer where
  digits := userDigits
  printint := userPrintint
  putc w := [w.toUInt8]

/-- The loop of `vprintf`: `skip` characters are still to be passed over, and
`percent` says whether `state` is `'%'`. -/
def vprintfFrom : List UInt8 → Nat → Bool → List Arg → Option (List UInt8)
  | [], _, _, _ => some []
  | _ :: rest, skip + 1, percent, args => vprintfFrom rest skip percent args
  | c0 :: rest, 0, false, args =>
    if c0 = '%'.toUInt8 then vprintfFrom rest 0 true args
    else (vprintfFrom rest 0 false args).map (c0 :: ·)
  | c0 :: rest, 0, true, args => do
    let (text, skip, args) ←
      convert userPrinter c0 (ahead rest).1 (ahead rest).2 args
    let more ← vprintfFrom rest skip false args
    some (text ++ more)

/-- `vprintf` of user/printf.c: what is written to `fd`. -/
def vprintf (fmt : List UInt8) (args : List Arg) : Option (List UInt8) :=
  vprintfFrom fmt 0 false args

def consBytes (c : UInt32) : List UInt8 :=
  if c.toNat = Console.BACKSPACE then [8, 32, 8] else [UInt8.ofNat c.toNat]

theorem consputc_sent (c : UInt32) (cons : Console.Cons) :
    (Console.consputc c.toNat cons).sent = cons.sent ++ consBytes c := by
  unfold Console.consputc consBytes
  split <;> rfl

def kernelPrinter : Printer where
  digits := kernelDigits
  printint := kernelPrintint
  putc := consBytes

def printfFrom : List UInt8 → Nat → List Arg → Option (List UInt8)
  | [], _, _ => some []
  | _ :: rest, skip + 1, args => printfFrom rest skip args
  | cx :: rest, 0, args =>
    if cx ≠ '%'.toUInt8 then (printfFrom rest 0 args).map (cx :: ·)
    else
      match rest with
      | [] => some []
      | c0 :: rest => do
        let (text, skip, args) ←
          convert kernelPrinter c0 (ahead rest).1 (ahead rest).2 args
        let more ← printfFrom rest skip args
        some (text ++ more)

/-- `printf` of kernel/printf.c: what is sent to the console. -/
def printf (fmt : List UInt8) (args : List Arg) : Option (List UInt8) :=
  printfFrom fmt 0 args

/-! ### Reading a number back -/

/-- The digit that a character stands for, in either case. -/
def digitValue (c : UInt8) : Option Nat :=
  if 48 ≤ c ∧ c ≤ 57 then some (c.toNat - 48)
  else if 65 ≤ c ∧ c ≤ 70 then some (c.toNat - 55)
  else if 97 ≤ c ∧ c ≤ 102 then some (c.toNat - 87)
  else none

/-- The number that a nonempty string of digits denotes. -/
def readNat (base : Nat) (text : List UInt8) : Option Nat :=
  if text = [] then none
  else (text.reverse.mapM digitValue).map (Nat.ofDigits base)

/-- The number that a string denotes, with a sign or without. -/
def readBack (base : Nat) : List UInt8 → Option Int
  | [] => none
  | c :: text =>
    if c = '-'.toUInt8 then (readNat base text).map fun n : Nat => -(n : Int)
    else (readNat base (c :: text)).map Int.ofNat

/-- A table of digits that reads back. -/
def Readable (digits : List UInt8) : Prop :=
  ∀ d < 16, digitValue (digits.getD d 0) = some d

theorem readable_userDigits : Readable userDigits := by
  unfold Readable
  decide

theorem readable_kernelDigits : Readable kernelDigits := by
  unfold Readable
  decide

section Numbers

variable {digits : List UInt8} {base fuel width x : Nat}

/-- The digits of a number, of which zero has one too. -/
def numerals (base x : Nat) : List Nat :=
  if x = 0 then [0] else Nat.digits base x

theorem numerals_step (hbase : 1 < base) (x : Nat) : numerals base x = x % base ::
      if x / base ≠ 0 then numerals base (x / base) else [] := by
  unfold numerals
  by_cases hx : x = 0
  · simp [hx]
  · rw [if_neg hx, Nat.digits_def' hbase (Nat.pos_of_ne_zero hx)]
    by_cases hdiv : x / base = 0
    · simp [hdiv]
    · simp [hdiv]

theorem digitLoop_eq (hbase : 1 < base) (hx : x < base ^ fuel)
    (hfuel : fuel ≠ 0) : digitLoop digits base fuel x =
      (numerals base x).map fun d => digits.getD d 0 := by
  induction fuel generalizing x with
  | zero => exact absurd rfl hfuel
  | succ fuel ih =>
    rw [digitLoop, numerals_step hbase, List.map_cons]
    congr 1
    split
    next hmore =>
      have hlt : x / base < base ^ fuel :=
        Nat.div_lt_of_lt_mul (by rwa [pow_succ, mul_comm] at hx)
      refine ih hlt ?_
      rintro rfl
      exact hmore (Nat.lt_one_iff.mp hlt)
    next => rfl

theorem numerals_ne_nil (base x : Nat) : numerals base x ≠ [] := by
  unfold numerals
  split
  · simp
  next hx => exact Nat.digits_ne_nil_iff_ne_zero.mpr hx

theorem lt_of_mem_numerals (hbase : 1 < base) {d : Nat} (hd : d ∈ numerals base x) : d < base := by
  unfold numerals at hd
  split at hd
  · rw [List.mem_singleton.mp hd]
    omega
  · exact Nat.digits_lt_base hbase hd

theorem ofDigits_numerals (base x : Nat) : Nat.ofDigits base (numerals base x) = x := by
  unfold numerals
  split
  next hx => simp [hx]
  next => exact Nat.ofDigits_digits base x

/-- A number reads back from its digits. -/
theorem mapM_digitValue (hdigits : Readable digits) {ds : List Nat} (hds : ∀ d ∈ ds, d < 16) :
    (ds.map fun d => digits.getD d 0).mapM digitValue = some ds := by
  induction ds with
  | nil => rfl
  | cons d ds ih =>
    have hrest := ih fun e he => hds e (List.mem_cons_of_mem d he)
    rw [List.map_cons, List.mapM_cons, hrest, hdigits d (hds d (by simp))]
    rfl

theorem readNat_digitLoop (hdigits : Readable digits) (hbase : 1 < base)
    (hle : base ≤ 16) (hx : x < base ^ fuel) (hfuel : fuel ≠ 0) :
    readNat base (digitLoop digits base fuel x).reverse = some x := by
  have hmap := mapM_digitValue hdigits fun d hd =>
    Nat.lt_of_lt_of_le (lt_of_mem_numerals (x := x) hbase hd) hle
  rw [readNat, digitLoop_eq hbase hx hfuel, List.reverse_reverse, hmap,
    if_neg (by simp [numerals_ne_nil])]
  exact congrArg some (ofDigits_numerals base x)

/-- No digit is a minus sign. -/
theorem readBack_digits {text : List UInt8} {n : Nat} (htext : readNat base text = some n) :
    readBack base text = some (n : Int) := by
  cases text with
  | nil => cases htext
  | cons c text =>
    have hminus : c ≠ '-'.toUInt8 := by
      rintro rfl
      rw [readNat, if_neg (by simp), List.reverse_cons, List.mapM_append] at htext
      have hnone : digitValue '-'.toUInt8 = none := rfl
      cases hm : text.reverse.mapM digitValue <;>
        simp [hm, hnone] at htext
    rw [readBack, if_neg hminus, htext]
    rfl

end Numbers

section Printint

variable {digits : List UInt8} {base width : Nat}

/-- The value that is divided fits the loop. -/
theorem toNat_emod_lt (y : Int) (width : Nat) : (y % 2 ^ width).toNat < 2 ^ width := by
  have hlt := Int.emod_lt_of_pos y (b := 2 ^ width) (by positivity)
  have hnonneg := Int.emod_nonneg y (b := 2 ^ width) (by positivity)
  zify
  rwa [Int.toNat_of_nonneg hnonneg]

theorem toNat_emod_lt_pow (hbase : 1 < base) (y : Int) : (y % 2 ^ width).toNat < base ^ width :=
  Nat.lt_of_lt_of_le (toNat_emod_lt y width) (Nat.pow_le_pow_left hbase width)

/-- What `printint` prints denotes its argument, of which only `width` bits
are left. -/
theorem readBack_printBuf (hdigits : Readable digits) (hbase : 1 < base)
    (hle : base ≤ 16) (hwidth : width ≠ 0) (xx : Int) (sgn : Bool) :
    readBack base (printBuf width digits xx base sgn).reverse =
      some (if sgn = true ∧ xx < 0 then -(-xx % 2 ^ width) else xx % 2 ^ width) := by
  have hnonneg : ∀ y : Int, 0 ≤ y % 2 ^ width := fun y =>
    Int.emod_nonneg y (by positivity)
  have hread : ∀ y : Int, readNat base (digitLoop digits base width
      (y % 2 ^ width).toNat).reverse = some (y % 2 ^ width).toNat := fun y =>
    readNat_digitLoop hdigits hbase hle (toNat_emod_lt_pow hbase y) hwidth
  unfold printBuf
  by_cases hneg : sgn = true ∧ xx < 0
  · rw [if_pos hneg]
    simp only [hneg.1, hneg.2, decide_true, Bool.and_self, if_true,
      List.reverse_append, List.reverse_singleton, List.singleton_append]
    rw [readBack, if_pos rfl, hread, Option.map_some, Int.toNat_of_nonneg (hnonneg _)]
  · have hfalse : (sgn && decide (xx < 0)) = false := by simpa using hneg
    rw [if_neg hneg]
    simp only [hfalse, Bool.false_eq_true, if_false, List.append_nil]
    rw [readBack_digits (hread xx), Int.toNat_of_nonneg (hnonneg _)]

theorem length_digitLoop {x k : Nat} (hbase : 10 ≤ base) (hwidth : width ≠ 0)
    (hx : x < base ^ width) (hk : 0 < k) (hlt : x < 10 ^ k) :
    (digitLoop digits base width x).length ≤ k := by
  rw [digitLoop_eq (by omega) hx hwidth, List.length_map]
  unfold numerals
  split
  · exact hk
  · exact (Nat.digits_length_le_iff (by omega) x).mpr
      (Nat.lt_of_lt_of_le hlt (Nat.pow_le_pow_left hbase k))

/-- The buffer is long enough: 20 digits, or 19 and a sign. -/
theorem length_printBuf (hbase : 10 ≤ base) (hwidth : width ≠ 0) (hle : width ≤ 64) (v : UInt64)
    (sgn : Bool) : (printBuf width digits (asLong v) base sgn).length ≤ 20 := by
  have hlow := BitVec.le_toInt v.toBitVec
  unfold printBuf
  by_cases hneg : sgn = true ∧ asLong v < 0
  · simp only [hneg.1, hneg.2, decide_true, Bool.and_self, if_true,
      List.length_append, List.length_singleton]
    have hsmall : (-asLong v % 2 ^ width).toNat < 10 ^ 19 := by
      rw [Int.toNat_emod (by omega) (by positivity)]
      refine Nat.lt_of_le_of_lt (Nat.mod_le _ _) ?_
      unfold asLong
      omega
    have := @length_digitLoop digits base width _ _ hbase hwidth
      (toNat_emod_lt_pow (by omega) (-asLong v)) (by omega) hsmall
    omega
  · have hfalse : (sgn && decide (asLong v < 0)) = false := by simpa using hneg
    simp only [hfalse, Bool.false_eq_true, if_false, List.append_nil]
    refine length_digitLoop hbase hwidth (toNat_emod_lt_pow (by omega) _) (by omega) ?_
    have := toNat_emod_lt (asLong v) width
    have := Nat.pow_le_pow_right (n := 2) (by omega) hle
    omega

end Printint

/-! ### The conversions of 64-bit numbers -/

/-- The conversions `%ld`, `%lu`, `%lx` and their `ll` forms. -/
inductive LongConv where
  | ld
  | lld
  | lu
  | llu
  | lx
  | llx

namespace LongConv

/-- The format that has nothing but the conversion. -/
def format : LongConv → List UInt8
  | ld => "%ld".toList.map Char.toUInt8
  | lld => "%lld".toList.map Char.toUInt8
  | lu => "%lu".toList.map Char.toUInt8
  | llu => "%llu".toList.map Char.toUInt8
  | lx => "%lx".toList.map Char.toUInt8
  | llx => "%llx".toList.map Char.toUInt8

def base : LongConv → Nat
  | lx => 16
  | llx => 16
  | _ => 10

def signed : LongConv → Bool
  | ld => true
  | lld => true
  | _ => false

/-- The argument, as the signed or unsigned integer that is to be printed. -/
def denotes (conv : LongConv) (v : UInt64) : Int :=
  if conv.signed then v.toBitVec.toInt else v.toNat

variable (conv : LongConv) (v : UInt64)

theorem base_bounds : 10 ≤ conv.base ∧ conv.base ≤ 16 := by
  cases conv <;> decide

theorem vprintf_eq : vprintf conv.format [.word v] =
    some (userPrintint (asLong v) conv.base conv.signed) := by
  cases conv <;> exact congrArg some (List.append_nil _)

theorem printf_eq : printf conv.format [.word v] =
    some (kernelPrintint (asLong v) conv.base conv.signed) := by
  cases conv <;> exact congrArg some (List.append_nil _)

theorem emod_eq_self_iff {y : Int} (hy : 0 ≤ y) {width : Nat} :
    y % 2 ^ width = y ↔ y.natAbs < 2 ^ width := by
  obtain ⟨n, rfl⟩ := Int.eq_ofNat_of_zero_le hy
  exact_mod_cast Nat.mod_eq_iff_lt (by positivity)

/-- The signed and the unsigned argument have the same bits. -/
theorem asLong_emod {width : Nat} (hle : width ≤ 64) :
    asLong v % 2 ^ width = (v.toNat : Int) % 2 ^ width := by
  have hbits : asLong v % 2 ^ 64 = (v.toNat : Int) := by
    have := v.toNat_lt
    have hnat : v.toBitVec.toNat = v.toNat := rfl
    rw [asLong, BitVec.toInt_eq_toNat_cond, hnat]
    split <;> omega
  rw [← hbits, Int.emod_emod_of_dvd _ (pow_dvd_pow 2 hle)]

theorem natAbs_denotes_lt : (conv.denotes v).natAbs < 2 ^ 64 := by
  have hlow := BitVec.le_toInt v.toBitVec
  have hhigh := BitVec.toInt_lt (x := v.toBitVec)
  have hlt := v.toNat_lt
  unfold denotes
  split <;> omega

/-- What is left of the argument in a variable of `width` bits. -/
theorem readBack_iff {digits : List UInt8} {width : Nat}
    (hdigits : Readable digits) (hwidth : width ≠ 0) (hle : width ≤ 64) : readBack conv.base
        (printBuf width digits (asLong v) conv.base conv.signed).reverse =
      some (conv.denotes v) ↔ (conv.denotes v).natAbs < 2 ^ width := by
  obtain ⟨hten, hsixteen⟩ := conv.base_bounds
  rw [readBack_printBuf hdigits (by omega) hsixteen hwidth, Option.some.injEq]
  unfold denotes
  by_cases hneg : conv.signed = true ∧ asLong v < 0
  · have hself := @emod_eq_self_iff (-asLong v) (by omega) width
    rw [Int.natAbs_neg] at hself
    rw [if_pos hneg, if_pos hneg.1]
    change -(-asLong v % _) = asLong v ↔ (asLong v).natAbs < _
    rw [← hself]
    omega
  rw [if_neg hneg]
  split
  next hsigned =>
    have hnonneg : 0 ≤ asLong v := not_lt.mp fun hlt => hneg ⟨hsigned, hlt⟩
    exact emod_eq_self_iff hnonneg
  next =>
    rw [asLong_emod v hle, emod_eq_self_iff (Int.natCast_nonneg _)]

end LongConv

/-- For every 64-bit value and each conversion: both printers stay within the
20 characters of their buffers, and the kernel's output denotes the argument;
the user's denotes it exactly if its absolute value is below `2 ^ 32`. -/
theorem number_printers (conv : LongConv) (v : UInt64) : ∃ user kernel : List UInt8,
      vprintf conv.format [.word v] = some user.reverse ∧
      printf conv.format [.word v] = some kernel.reverse ∧
      user = printBuf 32 userDigits (asLong v) conv.base conv.signed ∧
      kernel = printBuf 64 kernelDigits (asLong v) conv.base conv.signed ∧
      user.length ≤ 20 ∧ kernel.length ≤ 20 ∧
      readBack conv.base kernel.reverse = some (conv.denotes v) ∧
      (readBack conv.base user.reverse = some (conv.denotes v) ↔
        (conv.denotes v).natAbs < 2 ^ 32) := by
  have hten := conv.base_bounds.1
  refine ⟨_, _, conv.vprintf_eq v, conv.printf_eq v, rfl, rfl,
    length_printBuf hten (by omega) (by omega) v _,
    length_printBuf hten (by omega) (by omega) v _, ?_,
    conv.readBack_iff v readable_userDigits (by omega) (by omega)⟩
  exact (conv.readBack_iff v readable_kernelDigits (by omega) (by omega)).mpr
    (conv.natAbs_denotes_lt v)

/-- `printf("%ld", 1L << 32)` prints 0 in user programs. -/
theorem user_prints_low_half : vprintf LongConv.ld.format [.word (2 ^ 32)] = some ['0'.toUInt8] ∧
      readBack 10 ['0'.toUInt8] = some 0 ∧ LongConv.ld.denotes (2 ^ 32) = 2 ^ 32 ∧
      (printf LongConv.ld.format [.word (2 ^ 32)]).bind (readBack 10) = some (2 ^ 32) := by
  decide

end CkptKernel.Printf
