/-
  Subject:   `format_integer` of lib/stdio.c: the text of an integer.

  * The digits are stored from the right into a buffer of 64 bytes, with commas, then zeros up to
    the precision, then the zero of an octal `#`. A store behind the buffer fails.
  * The text is made of six parts: blanks, sign, `0x`, zeros, the buffer backwards, blanks
    (`NumberText`). Both kinds of padding are printed if `MINUS` and `ZERO` are set together.
  * **`integer_formatting`**: what the text denotes and when it keeps to the field width; and `atoi`
    reads a number back from its text.
-/
import Pintos.Klib.Stdlib
import Mathlib.Data.Nat.Digits.Lemmas

namespace Pintos

open List Nat

/-! ## 1. Conversions -/

/-- The flags of a conversion. -/
structure Flags where
  minus : Bool
  plus : Bool
  space : Bool
  pound : Bool
  zero : Bool
  group : Bool

/-- The types of an argument. -/
inductive ArgType where
  | char
  | short
  | int
  | intmax
  | long
  | longlong
  | ptrdiff
  | size

/-- `struct printf_conversion`; a precision of -1 is none. -/
structure Conversion where
  flags : Flags
  width : Int
  precision : Int
  type : ArgType

/-- `struct integer_base`. -/
structure IntegerBase where
  base : ℕ
  digits : List Char
  x : Option Char
  group : ℕ

def baseD : IntegerBase := ⟨10, "0123456789".toList, none, 3⟩

def baseO : IntegerBase := ⟨8, "01234567".toList, none, 3⟩

def baseX : IntegerBase := ⟨16, "0123456789abcdef".toList, some 'x', 4⟩

/-- `base_X`. -/
def baseUpperX : IntegerBase := ⟨16, "0123456789ABCDEF".toList, some 'X', 4⟩

/-- `b->digits[d]`. -/
def IntegerBase.digit (b : IntegerBase) (d : ℕ) : Char := b.digits.getD d '?'

/-! ## 2. The buffer -/

/-- `*cp++ = ch` for one or more characters, with `cp` behind those of `buf`. -/
def storeChars (buf chars : List Char) : Option (List Char) :=
  if buf.length + chars.length ≤ 64 then some (buf ++ chars) else none

/-- The comma before the digit `k`, counted from the right. -/
def comma (g : ℕ) (group : Bool) (k : ℕ) : List Char :=
  if group = true ∧ 0 < k ∧ k % g = 0 then [','] else []

/-- The loop that accumulates the digits. -/
def digitLoop (b : IntegerBase) (group : Bool) : (fuel value digitCnt : ℕ) → List Char →
    Option (List Char)
  | 0, _, _, _ => none
  | fuel + 1, value, digitCnt, buf =>
    if 0 < value then
      (storeChars buf (comma b.group group digitCnt ++ [b.digit (value % b.base)])).bind
        (digitLoop b group fuel (value / b.base) (digitCnt + 1))
    else some buf

/-- The loop that appends zeros. -/
def zeroLoop (precision : Int) : (fuel : ℕ) → List Char → Option (List Char)
  | 0, _ => none
  | fuel + 1, buf =>
    if (buf.length : Int) < precision ∧ buf.length < 63 then
      (storeChars buf ['0']).bind (zeroLoop precision fuel)
    else some buf

/-- The buffer when the output begins. -/
def formatDigits (value : ℕ) (b : IntegerBase) (c : Conversion) : Option (List Char) := do
  let buf ← digitLoop b c.flags.group 65 value 0 []
  let buf ← zeroLoop (if c.precision < 0 then 1 else c.precision) 65 buf
  if c.flags.pound = true ∧ b.base = 8 ∧ buf.getLast? ≠ some '0' then storeChars buf ['0']
  else some buf

/-! ## 3. The text -/

/-- The sign, if there is one. -/
def signText (isSigned negative : Bool) (f : Flags) : List Char :=
  if isSigned then
    if f.plus then [if negative then '-' else '+']
    else if f.space then [if negative then '-' else ' ']
    else if negative then ['-'] else []
  else []

/-- `0x` or `0X`, if there is one. -/
def hexText (value : ℕ) (b : IntegerBase) (f : Flags) : List Char :=
  if f.pound = true ∧ 0 < value then b.x.toList.flatMap (['0', ·]) else []

/-- **The parts of a number's text**, in the order of the output. -/
structure NumberText where
  blanks : ℕ
  sign : List Char
  hex : List Char
  zeros : ℕ
  digits : List Char
  blanksAfter : ℕ

def NumberText.text (t : NumberText) : List Char :=
  List.replicate t.blanks ' ' ++ t.sign ++ t.hex ++ List.replicate t.zeros '0' ++ t.digits ++
    List.replicate t.blanksAfter ' '

/-- `format_integer`. -/
def formatInteger (value : ℕ) (isSigned negative : Bool) (b : IntegerBase) (c : Conversion) :
    Option NumberText :=
  (formatDigits value b c).map fun buf =>
    let sign := signText isSigned negative c.flags
    let hex := hexText value b c.flags
    let padCnt := (c.width - buf.length - hex.length - sign.length).toNat
    { blanks := if c.flags.minus = false ∧ c.flags.zero = false then padCnt else 0
      sign := sign
      hex := hex
      zeros := if c.flags.zero = true then padCnt else 0
      digits := buf.reverse
      blanksAfter := if c.flags.minus = true then padCnt else 0 }

/-! ## 4. What the buffer holds -/

/-- Digits from the right, each with its comma; the first is the digit `k`. -/
def withCommas (g : ℕ) (group : Bool) (k : ℕ) (ds : List Char) : List Char :=
  (ds.zipIdx k).flatMap fun p => comma g group p.2 ++ [p.1]

/-- The digits of a value from the right, with their commas. -/
def ownDigits (value : ℕ) (b : IntegerBase) (group : Bool) : List Char :=
  withCommas b.group group 0 ((Nat.digits b.base value).map b.digit)

/-- The number of characters between the sign or `0x` and the blanks behind. -/
def digitWidth (value : ℕ) (b : IntegerBase) (c : Conversion) : ℕ :=
  let own := (ownDigits value b c.flags.group).length
  let precision := min 63 (if c.precision < 0 then 1 else c.precision.toNat)
  if c.flags.pound = true ∧ b.base = 8 ∧ precision ≤ own then own + 1 else max own precision

/-- **What is needed of a base**: its digits are different characters, none of them a comma. -/
structure GoodBase (b : IntegerBase) : Prop where
  large : 8 ≤ b.base
  zero : b.digit 0 = '0'
  index : ∀ d < b.base, b.digits.idxOf (b.digit d) = d
  comma : ∀ d < b.base, b.digit d ≠ ','

theorem goodBase_of_mem {b : IntegerBase} (hb : b ∈ [baseD, baseO, baseX, baseUpperX]) :
    GoodBase b := by
  simp only [mem_cons, not_mem_nil, or_false] at hb
  rcases hb with rfl | rfl | rfl | rfl <;> exact ⟨by decide, by decide, by decide, by decide⟩

section Buffer

variable {b : IntegerBase} {c : Conversion} {value : ℕ}

theorem storeChars_some {buf chars : List Char} (h : buf.length + chars.length ≤ 64) :
    storeChars buf chars = some (buf ++ chars) := if_pos h

theorem comma_length_le (g : ℕ) (group : Bool) (k : ℕ) : (comma g group k).length ≤ 1 := by
  unfold comma
  split <;> decide

theorem withCommas_cons (g : ℕ) (group : Bool) (k : ℕ) (d : Char) (ds : List Char) :
    withCommas g group k (d :: ds) = comma g group k ++ [d] ++ withCommas g group (k + 1) ds := by
  unfold withCommas
  rw [zipIdx_cons, flatMap_cons]

theorem withCommas_length_le (g : ℕ) (group : Bool) (k : ℕ) (ds : List Char) :
    (withCommas g group k ds).length ≤ 2 * ds.length := by
  induction ds generalizing k with
  | nil => exact le_refl 0
  | cons d ds ih =>
    have hk := ih (k + 1)
    have hcomma := comma_length_le g group k
    rw [withCommas_cons]
    simp only [length_append, length_cons, length_nil]
    omega

/-- **The digits of the value**, by induction on the turns: one turn stores one of them. -/
theorem digitLoop_spec (hb : GoodBase b) (group : Bool) (fuel value k : ℕ) (buf : List Char)
    (hf : (Nat.digits b.base value).length < fuel)
    (hbuf : buf.length + 2 * (Nat.digits b.base value).length ≤ 64) :
    digitLoop b group fuel value k buf =
      some (buf ++ withCommas b.group group k ((Nat.digits b.base value).map b.digit)) := by
  induction fuel generalizing value k buf with
  | zero => omega
  | succ fuel ih =>
    unfold digitLoop
    by_cases hv : 0 < value
    · have hbase := hb.large
      have hcomma := comma_length_le b.group group k
      rw [digits_def' (by omega) hv, length_cons] at hf hbuf
      have hlen : (comma b.group group k ++ [b.digit (value % b.base)]).length ≤ 2 := by
        rw [length_append, length_singleton]
        omega
      rw [if_pos hv, storeChars_some (by omega), Option.bind_some,
        ih _ _ _ (by omega) (by rw [length_append]; omega), digits_def' (by omega) hv,
        map_cons, withCommas_cons, append_assoc]
    · obtain rfl : value = 0 := by omega
      rw [if_neg hv, digits_zero]
      exact congrArg some (append_nil buf).symm

theorem zeroLoop_spec (precision : Int) (fuel : ℕ) (buf : List Char) (hf : 63 < fuel + buf.length)
    (hbuf : buf.length ≤ 63) : zeroLoop precision fuel buf =
      some (buf ++ List.replicate (min 63 precision.toNat - buf.length) '0') := by
  induction fuel generalizing buf with
  | zero => omega
  | succ fuel ih =>
    unfold zeroLoop
    split
    · rename_i hlt
      have hlen : (buf ++ ['0']).length = buf.length + 1 := by
        rw [length_append, length_singleton]
      have hn : min 63 precision.toNat - buf.length =
          (min 63 precision.toNat - (buf.length + 1)) + 1 := by omega
      rw [storeChars_some (by rw [length_singleton]; omega), Option.bind_some,
        ih _ (by omega) (by omega), hlen, hn, replicate_succ, append_assoc]
      rfl
    · rename_i hge
      have hn : min 63 precision.toNat - buf.length = 0 := by omega
      rw [hn, replicate_zero, append_nil]

theorem withCommas_getLast? (g : ℕ) (group : Bool) (k : ℕ) (ds : List Char) :
    (withCommas g group k ds).getLast? = ds.getLast? := by
  induction ds generalizing k with
  | nil => rfl
  | cons d ds ih =>
    have hcons : (d :: ds).getLast? = some (ds.getLast?.getD d) := List.getLast?_cons
    rw [withCommas_cons, List.getLast?_append, ih, List.getLast?_append, hcons]
    cases ds.getLast? <;> rfl

theorem withCommas_filter (g : ℕ) (group : Bool) (k : ℕ) {ds : List Char}
    (hds : ∀ d ∈ ds, d ≠ ',') : (withCommas g group k ds).filter (· ≠ ',') = ds := by
  induction ds generalizing k with
  | nil => rfl
  | cons d ds ih =>
    have hd : [d].filter (· ≠ ',') = [d] := filter_cons_of_pos (by simpa using hds d (by simp))
    have hcomma : (comma g group k).filter (· ≠ ',') = [] := by
      unfold comma
      split <;> rfl
    rw [withCommas_cons, filter_append, filter_append, hd, hcomma,
      ih (k + 1) fun x hx => hds x (mem_cons_of_mem d hx)]
    rfl

theorem digits_length_le (hb : GoodBase b) (hv : value < 2 ^ 64) :
    (Nat.digits b.base value).length ≤ 22 := by
  have hbase := hb.large
  rw [digits_length_le_iff (by omega)]
  calc value < 2 ^ 64 := hv
    _ ≤ 8 ^ 22 := by decide
    _ ≤ b.base ^ 22 := Nat.pow_le_pow_left hbase 22

theorem ownDigits_getLast? (hb : GoodBase b) (group : Bool) :
    (ownDigits value b group).getLast? ≠ some '0' := by
  unfold ownDigits
  rw [withCommas_getLast?, List.getLast?_map]
  intro h
  obtain ⟨d, hd, h0⟩ := Option.map_eq_some_iff.mp h
  have hbase := hb.large
  have hmem : d ∈ Nat.digits b.base value := mem_of_getLast? hd
  have hzero : d = 0 := by
    have hidx := hb.index d (digits_lt_base (by omega) hmem)
    rw [h0, ← hb.zero, hb.index 0 (by omega)] at hidx
    exact hidx.symm
  subst hzero
  have hne : value ≠ 0 := by
    rintro rfl
    rw [digits_zero] at hd
    cases hd
  refine getLast_digit_ne_zero b.base hne ?_
  rw [List.getLast?_eq_some_getLast (digits_ne_nil_iff_ne_zero.mpr hne)] at hd
  exact Option.some.inj hd

/-- **The buffer holds the digits of the value and zeros**, and its last byte stays free. -/
theorem formatDigits_spec (hb : GoodBase b) (hv : value < 2 ^ 64) (c : Conversion) : ∃ m,
    formatDigits value b c = some (ownDigits value b c.flags.group ++ List.replicate m '0') ∧
      (ownDigits value b c.flags.group).length + m = digitWidth value b c ∧
      digitWidth value b c ≤ 63 := by
  have hdigits := digits_length_le hb hv
  have hown : (ownDigits value b c.flags.group).length ≤ 44 := by
    have hle := withCommas_length_le b.group c.flags.group 0 ((Nat.digits b.base value).map b.digit)
    rw [length_map] at hle
    unfold ownDigits
    omega
  have hloop : digitLoop b c.flags.group 65 value 0 [] = some (ownDigits value b c.flags.group) :=
    digitLoop_spec hb c.flags.group 65 value 0 [] (by omega)
      (by rw [length_nil]; omega)
  have hprec : min 63 (if c.precision < 0 then 1 else c.precision : Int).toNat =
      min 63 (if c.precision < 0 then 1 else c.precision.toNat) := by
    split <;> rfl
  unfold formatDigits
  rw [hloop, Option.bind_eq_bind, Option.bind_some, zeroLoop_spec _ 65 _ (by omega) (by omega),
    Option.bind_some, hprec]
  unfold digitWidth
  dsimp only
  generalize hp : min 63 (if c.precision < 0 then 1 else c.precision.toNat) = p
  by_cases hle : p ≤ (ownDigits value b c.flags.group).length
  · -- no zeros for the precision: an octal `#` asks for one
    rw [Nat.sub_eq_zero_of_le hle, replicate_zero, append_nil, Nat.max_eq_left hle]
    by_cases ho : c.flags.pound = true ∧ b.base = 8
    · rw [if_pos ⟨ho.1, ho.2, ownDigits_getLast? hb _⟩, if_pos ⟨ho.1, ho.2, hle⟩,
        storeChars_some (by rw [length_singleton]; omega)]
      exact ⟨1, rfl, rfl, by omega⟩
    · rw [if_neg fun h => ho ⟨h.1, h.2.1⟩, if_neg fun h => ho ⟨h.1, h.2.1⟩]
      exact ⟨0, by rw [replicate_zero, append_nil], rfl, by omega⟩
  · have hlast : (ownDigits value b c.flags.group ++
        List.replicate (p - (ownDigits value b c.flags.group).length) '0').getLast? = some '0' := by
      rw [List.getLast?_append, List.getLast?_replicate, if_neg (by omega)]
      rfl
    rw [if_neg fun h => h.2.2 hlast, if_neg fun h => hle h.2.2]
    exact ⟨_, rfl, by omega, by omega⟩

/-! ## 5. What the text denotes -/

/-- The number that digits stand for; commas are skipped. -/
def readNumber (b : IntegerBase) (s : List Char) : ℕ :=
  (s.filter (· ≠ ',')).foldl (fun v ch => v * b.base + b.digits.idxOf ch) 0

theorem readNumber_zeros (hb : GoodBase b) (n : ℕ) (s : List Char) :
    readNumber b (List.replicate n '0' ++ s) = readNumber b s := by
  have hidx : b.digits.idxOf '0' = 0 := hb.zero ▸ hb.index 0 (by have := hb.large; omega)
  unfold readNumber
  induction n with
  | zero => rfl
  | succ n ih =>
    rw [replicate_succ, cons_append, filter_cons_of_pos (by decide), foldl_cons,
      zero_mul, hidx]
    exact ih

theorem readNumber_own (hb : GoodBase b) (value : ℕ) (group : Bool) (m : ℕ) :
    readNumber b (ownDigits value b group ++ List.replicate m '0').reverse = value := by
  have hbase := hb.large
  have hlt : ∀ d ∈ Nat.digits b.base value, d < b.base := fun d hd =>
    digits_lt_base (by omega) hd
  have hcommas : ∀ ch ∈ (Nat.digits b.base value).map b.digit, ch ≠ ',' := by
    intro ch hch
    obtain ⟨d, hd, rfl⟩ := mem_map.mp hch
    exact hb.comma d (hlt d hd)
  rw [reverse_append, reverse_replicate, readNumber_zeros hb]
  unfold readNumber ownDigits
  rw [filter_reverse, withCommas_filter _ _ _ hcommas, foldl_reverse, foldr_map]
  have hfold : ∀ ds : List ℕ, (∀ d ∈ ds, d < b.base) →
      ds.foldr (fun d v => v * b.base + b.digits.idxOf (b.digit d)) 0 = Nat.ofDigits b.base ds := by
    intro ds hds
    induction ds with
    | nil => rfl
    | cons d ds ih =>
      rw [foldr_cons, ih fun x hx => hds x (mem_cons_of_mem d hx), ofDigits_cons,
        hb.index d (hds d mem_cons_self), mul_comm]
      exact add_comm _ d
  rw [hfold _ hlt, ofDigits_digits]

end Buffer

/-- **A text denotes its number and keeps to the field**: the digits read as the value, the commas
    stand between its own digits where they should, there is at most one sign, and the text is as
    wide as the field, or wider without any padding. -/
structure Denotes (value : ℕ) (isSigned negative : Bool) (b : IntegerBase) (c : Conversion)
    (t : NumberText) : Prop where
  reads : readNumber b (List.replicate t.zeros '0' ++ t.digits) = value
  grouped : ∃ m, t.digits.reverse = ownDigits value b c.flags.group ++ List.replicate m '0'
  buffer : t.digits.length < 64
  oneSign : t.sign.length ≤ 1
  minus : t.sign = ['-'] ↔ isSigned = true ∧ negative = true
  wide : c.width ≤ t.text.length
  padded : c.width < t.text.length → t.blanks = 0 ∧ t.zeros = 0 ∧ t.blanksAfter = 0

/-- The width of a number's text without padding. -/
def numberWidth (value : ℕ) (isSigned negative : Bool) (b : IntegerBase) (c : Conversion) : ℕ :=
  (signText isSigned negative c.flags).length + (hexText value b c.flags).length +
    digitWidth value b c

theorem signText_spec (isSigned negative : Bool) (f : Flags) :
    (signText isSigned negative f).length ≤ 1 ∧
      (signText isSigned negative f = ['-'] ↔ isSigned = true ∧ negative = true) := by
  unfold signText
  generalize f.plus = plus, f.space = space
  revert isSigned negative plus space
  decide

theorem NumberText.text_length (t : NumberText) : t.text.length =
    t.blanks + t.sign.length + t.hex.length + t.zeros + t.digits.length + t.blanksAfter := by
  simp only [text, length_append, length_replicate]

section Atoi

/-- A string of decimal digits. -/
def Decimal (s : List Char) : Prop := ∀ ch ∈ s, ∃ d < 10, ch = baseD.digit d

theorem decimal_own (value m : ℕ) :
    Decimal (ownDigits value baseD false ++ List.replicate m '0').reverse := by
  intro ch hch
  have hplain : ∀ (ds : List Char) (k : ℕ), withCommas 3 false k ds = ds := by
    intro ds
    induction ds with
    | nil => exact fun _ => rfl
    | cons d ds ih =>
      intro k
      rw [withCommas_cons, ih]
      rfl
  have hown : ownDigits value baseD false = (Nat.digits 10 value).map baseD.digit := hplain _ 0
  rw [mem_reverse, mem_append, hown] at hch
  rcases hch with hch | hch
  · obtain ⟨d, hd, rfl⟩ := mem_map.mp hch
    exact ⟨d, digits_lt_base (by decide) hd, rfl⟩
  · exact ⟨0, by decide, eq_of_mem_replicate hch⟩

variable {s : List Char}

theorem atoiLoop_decimal (hs : Decimal s) (acc : ℕ)
    (hle : s.foldl (fun v ch => v * 10 + baseD.digits.idxOf ch) acc ≤ 2 ^ 31) : acc ≤ 2 ^ 31 ∧
    atoiLoop s (-acc) = -(s.foldl (fun v ch => v * 10 + baseD.digits.idxOf ch) acc : ℕ) := by
  induction s generalizing acc with
  | nil => exact ⟨hle, rfl⟩
  | cons ch s ih =>
    obtain ⟨d, hd, rfl⟩ := hs ch mem_cons_self
    have hdigit : ∀ d < 10, isDigitChar (baseD.digit d) = true ∧ (baseD.digit d).toNat = 48 + d ∧
        baseD.digits.idxOf (baseD.digit d) = d := by decide
    obtain ⟨his, hnat, hidx⟩ := hdigit d hd
    rw [foldl_cons, hidx] at hle ⊢
    obtain ⟨hacc, hrun⟩ := ih (fun x hx => hs x (mem_cons_of_mem _ hx)) _ hle
    refine ⟨by omega, ?_⟩
    have hstep : Int.bmod (-(acc : Int) * 10 - (((48 + d : ℕ) : Int) - 48)) (2 ^ 32) =
        -((acc * 10 + d : ℕ) : Int) := by
      rw [Int.bmod_eq_of_le (by omega) (by omega)]
      omega
    unfold atoiLoop
    rw [if_pos his, hnat, hstep, hrun]

theorem atoi_decimal (hs : Decimal s) : atoi s = Int.bmod (-atoiLoop s 0) (2 ^ 32) := by
  cases s with
  | nil => rfl
  | cons ch s =>
    obtain ⟨d, hd, rfl⟩ := hs ch mem_cons_self
    interval_cases d <;> rfl

end Atoi

/-- `%d`, without flags, width or precision. -/
def plainConversion : Conversion := ⟨⟨false, false, false, false, false, false⟩, 0, -1, .int⟩

theorem formatInteger_plain (value : ℕ) (hv : value < 2 ^ 64) (negative : Bool) : ∃ s, Decimal s ∧
    s.foldl (fun v ch => v * 10 + baseD.digits.idxOf ch) 0 = value ∧
    formatInteger value true negative baseD plainConversion =
      some ⟨0, if negative then ['-'] else [], [], 0, s, 0⟩ := by
  have hgood : GoodBase baseD := goodBase_of_mem (by simp)
  obtain ⟨m, hbuf, -, -⟩ := formatDigits_spec hgood hv plainConversion
  have hdec := decimal_own value m
  have hread := readNumber_own hgood value false m
  refine ⟨_, hdec, ?_, ?_⟩
  · have hcommas : ∀ ch ∈ (ownDigits value baseD false ++ List.replicate m '0').reverse,
        decide (ch ≠ ',') = true := by
      intro ch hch
      obtain ⟨d, hd, rfl⟩ := hdec ch hch
      exact decide_eq_true (hgood.comma d hd)
    unfold readNumber at hread
    rw [filter_eq_self.mpr hcommas] at hread
    exact hread
  · unfold formatInteger
    have hpad : ∀ n k : ℕ, ((0 : Int) - n - 0 - k).toNat = 0 := by
      intro n k
      omega
    rw [hbuf, Option.map_some]
    cases negative <;> exact congrArg (fun n => some (NumberText.mk n _ [] 0 _ 0)) (hpad _ _)

/-- **Integer formatting.** -/
theorem integer_formatting (value : ℕ) (hv : value < 2 ^ 64) (isSigned negative : Bool)
    (b : IntegerBase) (hb : b ∈ [baseD, baseO, baseX, baseUpperX]) (c : Conversion)
    (hw : 0 ≤ c.width) : ((∃ t, formatInteger value isSigned negative b c = some t ∧
        Denotes value isSigned negative b c t) ↔
      (¬(c.flags.minus = true ∧ c.flags.zero = true) ∨
        c.width ≤ numberWidth value isSigned negative b c)) ∧ ∀ v : Int, -2 ^ 31 ≤ v → v < 2 ^ 31 →
      ∃ t, formatInteger v.natAbs true (decide (v < 0)) baseD plainConversion = some t ∧
        atoi t.text = v := by
  refine ⟨?_, fun v hlo hhi => ?_⟩
  · have hgood := goodBase_of_mem hb
    obtain ⟨m, hbuf, hlen, hle⟩ := formatDigits_spec hgood hv c
    have hlen' : (ownDigits value b c.flags.group ++ List.replicate m '0').length =
        digitWidth value b c := by
      rw [length_append, length_replicate, hlen]
    obtain ⟨hsign, hminus⟩ := signText_spec isSigned negative c.flags
    unfold formatInteger numberWidth
    rw [hbuf, Option.map_some]
    rw [hlen']
    generalize hpad : (c.width - (digitWidth value b c : Int) - (hexText value b c.flags).length -
      (signText isSigned negative c.flags).length).toNat = pad
    constructor
    · rintro ⟨t, ht, hden⟩
      cases ht
      by_contra hno
      obtain ⟨hboth, hwide⟩ := not_or.mp hno
      obtain ⟨hm, hz⟩ := not_not.mp hboth
      have hpadded := hden.padded
      rw [NumberText.text_length] at hpadded
      simp only [hm, hz, length_reverse, hlen', Bool.true_eq_false, false_and, if_false,
        if_true] at hpadded
      omega
    · intro hcond
      refine ⟨_, rfl, ⟨?_, ⟨m, reverse_reverse _⟩, ?_, hsign, hminus, ?_, ?_⟩⟩
      · rw [readNumber_zeros hgood, readNumber_own hgood]
      · rw [length_reverse, hlen']
        omega
      · rw [NumberText.text_length]
        rw [length_reverse, hlen']
        cases c.flags.minus <;> cases c.flags.zero <;> simp <;> omega
      · rw [NumberText.text_length]
        rw [length_reverse, hlen']
        cases hm : c.flags.minus <;> cases hz : c.flags.zero <;> simp_all <;> omega
  · obtain ⟨s, hs, hfold, hrun⟩ := formatInteger_plain v.natAbs (by omega) (decide (v < 0))
    obtain ⟨-, hloop⟩ := atoiLoop_decimal hs 0 (by rw [hfold]; omega)
    rw [hfold, cast_zero, neg_zero] at hloop
    refine ⟨_, hrun, ?_⟩
    by_cases hneg : v < 0
    · have htext : NumberText.text ⟨0, if decide (v < 0) = true then ['-'] else [], [], 0, s, 0⟩ =
          '-' :: s := by
        rw [if_pos (decide_eq_true hneg)]
        exact append_nil _
      have hatoi : atoi ('-' :: s) = atoiLoop s 0 := rfl
      rw [htext, hatoi, hloop]
      omega
    · have htext : NumberText.text ⟨0, if decide (v < 0) = true then ['-'] else [], [], 0, s, 0⟩ =
          s := by
        rw [decide_eq_false hneg]
        exact append_nil _
      rw [htext, atoi_decimal hs, hloop, Int.bmod_eq_of_le (by omega) (by omega)]
      omega

/-- `printf ("%05d", 42)`. -/
theorem integer_formatting_five : ∃ t,
    formatInteger 42 true false baseD ⟨⟨false, false, false, false, true, false⟩, 5, -1, .int⟩ =
      some t ∧
    Denotes 42 true false baseD ⟨⟨false, false, false, false, true, false⟩, 5, -1, .int⟩ t :=
  (integer_formatting 42 (by decide) true false baseD (by simp)
    ⟨⟨false, false, false, false, true, false⟩, 5, -1, .int⟩ (by decide)).1.mpr (.inl (by decide))

/-- `printf ("%0*d", -5, 42)`: `parse_conversion` leaves `ZERO` set when the negative width sets
    `MINUS`, and the text is `00042` with three blanks behind it. -/
theorem integer_padded_twice : ¬∃ t,
    formatInteger 42 true false baseD ⟨⟨true, false, false, false, true, false⟩, 5, -1, .int⟩ =
      some t ∧
    Denotes 42 true false baseD ⟨⟨true, false, false, false, true, false⟩, 5, -1, .int⟩ t := by
  rintro ⟨t, ht, hden⟩
  have hrun : formatInteger 42 true false baseD
      ⟨⟨true, false, false, false, true, false⟩, 5, -1, .int⟩ =
        some ⟨0, [], [], 3, ['4', '2'], 3⟩ := rfl
  obtain rfl := Option.some.inj (ht.symm.trans hrun)
  exact absurd (hden.padded (by decide)).2.1 (by decide)

end Pintos
