/-
  Subject:   `__vprintf` and `parse_conversion` of lib/stdio.c on a format that ends.

  * A pointer into the format is what is left of it, its null byte included. Behind the null byte
    nothing is left, and a read there has no result.
  * The null byte is taken for a conversion character if there is none, and the loop steps over it.
  * **`format_read_in_bounds`**: the output is made, without a read behind the null byte, exactly if
    every conversion of the format is finished.
-/
import Pintos.Klib.FormatInteger

namespace Pintos

open List

/-! ## 1. `parse_conversion` -/

/-- The arguments behind the format, in words. -/
abbrev VaList := ℕ → BitVec 32

/-- The flag that a character sets. -/
def setFlag (f : Flags) : Char → Option Flags
  | '-' => some { f with minus := true }
  | '+' => some { f with plus := true }
  | ' ' => some { f with space := true }
  | '#' => some { f with pound := true }
  | '0' => some { f with zero := true }
  | '\x27' => some { f with group := true }
  | _ => none

/-- The loop over the flags. -/
def parseFlags : List Char → Flags → Option (Flags × List Char)
  | [], _ => none
  | ch :: format, f =>
    match setFlag f ch with
    | some f => parseFlags format f
    | none => some (f, ch :: format)

/-- The loops over the digits of a width or a precision, in an `int`. -/
def parseDigits : List Char → Int → Option (Int × List Char)
  | [], _ => none
  | ch :: format, n =>
    if isDigitChar ch then parseDigits format (Int.bmod (n * 10 + ch.toNat - 48) (2 ^ 32))
    else some (n, ch :: format)

/-- A width or a precision; `*` takes the next argument. -/
def parseNumber (args : VaList) (k : ℕ) : List Char → Option (Int × List Char × ℕ)
  | '*' :: format => some ((args k).toInt, format, k + 1)
  | format => (parseDigits format 0).map fun (n, format) => (n, format, k)

/-- The precision; -1 is none. -/
def parsePrecision (args : VaList) (k : ℕ) : List Char → Option (Int × List Char × ℕ)
  | [] => none
  | '.' :: format =>
    (parseNumber args k format).map fun (n, rest) => (if n < 0 then -1 else n, rest)
  | format => some (-1, format, k)

/-- The length modifier. -/
def parseType : List Char → Option (ArgType × List Char)
  | [] => none
  | 'h' :: format =>
    match format with
    | [] => none
    | 'h' :: format => some (.char, format)
    | format => some (.short, format)
  | 'j' :: format => some (.intmax, format)
  | 'l' :: format =>
    match format with
    | [] => none
    | 'l' :: format => some (.longlong, format)
    | format => some (.long, format)
  | 't' :: format => some (.ptrdiff, format)
  | 'z' :: format => some (.size, format)
  | format => some (.int, format)

/-- `parse_conversion`: the conversion, the rest of the format and the arguments taken. -/
def parseConversion (args : VaList) (format : List Char) (k : ℕ) :
    Option (Conversion × List Char × ℕ) := do
  let (f, format) ← parseFlags format ⟨false, false, false, false, false, false⟩
  let f := { f with zero := f.zero && !f.minus, space := f.space && !f.plus }
  let (width, format, k) ← parseNumber args k format
  let f := { f with minus := f.minus || decide (width < 0) }
  let width := if width < 0 then Int.bmod (-width) (2 ^ 32) else width
  let (precision, format, k) ← parsePrecision args k format
  let f := { f with zero := f.zero && decide (precision < 0) }
  let (type, format) ← parseType format
  some (⟨f, width, precision, type⟩, format, k)

/-! ## 2. `__vprintf` -/

/-- The value of a signed conversion; a `size_t` above `SIZE_MAX / 2` counts as negative. -/
def vaSigned (args : VaList) (k : ℕ) : ArgType → Int × ℕ
  | .char => (((args k).setWidth 8).toInt, k + 1)
  | .short => (((args k).setWidth 16).toInt, k + 1)
  | .int | .long | .ptrdiff | .size => ((args k).toInt, k + 1)
  | .intmax | .longlong => ((args (k + 1) ++ args k).toInt, k + 2)

/-- The value of an unsigned conversion. -/
def vaUnsigned (args : VaList) (k : ℕ) : ArgType → ℕ × ℕ
  | .char => (((args k).setWidth 8).toNat, k + 1)
  | .short => (((args k).setWidth 16).toNat, k + 1)
  | .int | .long | .ptrdiff | .size => ((args k).toNat, k + 1)
  | .intmax | .longlong => ((args (k + 1) ++ args k).toNat, k + 2)

/-- `strnlen`, with `left` of the characters it may still count. -/
def strnlenLoop (string : ℕ → Char) : (left length : ℕ) → ℕ
  | 0, length => length
  | left + 1, length =>
    if string length = '\x00' then length else strnlenLoop string left (length + 1)

/-- `format_string`. -/
def formatString (string : ℕ → Char) (length : Int) (c : Conversion) : List Char :=
  let pad := if c.width > length then List.replicate (c.width - length).toNat ' ' else []
  (if c.flags.minus then [] else pad) ++ (List.range length.toNat).map string ++
    (if c.flags.minus then pad else [])

/-- The string of a `%s`. -/
def stringArg (mem : ℕ → Char) (s : ℕ) : ℕ → Char :=
  if s = 0 then fun i => "(null)".toList.getD i '\x00' else fun i => mem ((s + i) % 2 ^ 32)

/-- The unsigned integer conversions. -/
def convertUnsigned (args : VaList) (k : ℕ) (b : IntegerBase) (c : Conversion) :
    Option (List Char × ℕ) :=
  let (value, k) := vaUnsigned args k c.type
  (formatInteger value false false b c).map fun t => (t.text, k)

/-- `switch (*format)`: the output for the conversion character, and the arguments taken. `print`
    is `__printf`. -/
def convert (print : List Char → VaList → Option (List Char)) (mem : ℕ → Char) (args : VaList)
    (k : ℕ) (c : Conversion) (ch : Char) : Option (List Char × ℕ) :=
  let complain (format : String) :=
    (print (format.toList ++ ['\x00']) fun _ => BitVec.ofNat 32 ch.toNat).map (·, k)
  match ch with
  | 'd' | 'i' =>
    let (value, k) := vaSigned args k c.type
    (formatInteger value.natAbs true (decide (value < 0)) baseD c).map fun t => (t.text, k)
  | 'o' => convertUnsigned args k baseO c
  | 'u' => convertUnsigned args k baseD c
  | 'x' => convertUnsigned args k baseX c
  | 'X' => convertUnsigned args k baseUpperX c
  | 'c' =>
    let ch := Char.ofNat ((args k).setWidth 8).toNat
    some (formatString (fun _ => ch) 1 c, k + 1)
  | 's' =>
    let s := stringArg mem (args k).toNat
    let length := strnlenLoop s (BitVec.ofInt 32 c.precision).toNat 0
    some (formatString s (BitVec.ofNat 32 length).toInt c, k + 1)
  | 'p' =>
    let c := { c with flags := ⟨false, false, false, true, false, false⟩ }
    (formatInteger (args k).toNat false false baseX c).map fun t => (t.text, k + 1)
  | 'f' | 'e' | 'E' | 'g' | 'G' | 'n' => complain "<<no %%%c in kernel>>"
  | _ => complain "<<no %%%c conversion>>"

/-- `__vprintf`: what is given to `output`. -/
def vprintf (mem : ℕ → Char) : (fuel : ℕ) → List Char → VaList → ℕ → Option (List Char)
  | 0, _, _, _ => none
  | _ + 1, [], _, _ => none
  | fuel + 1, ch :: format, args, k =>
    if ch = '\x00' then some []
    else if ch ≠ '%' then (vprintf mem fuel format args k).map (ch :: ·)
    else
      match format with
      | [] => none
      | '%' :: format => (vprintf mem fuel format args k).map ('%' :: ·)
      | format => do
        let (c, format, k) ← parseConversion args format k
        match format with
        | [] => none
        | ch :: format =>
          let (text, k) ← convert (vprintf mem fuel · · 0) mem args k c ch
          (vprintf mem fuel format args k).map (text ++ ·)

/-! ## 3. Finished conversions -/

/-- What is left behind the flags. -/
def afterFlags (s : List Char) : List Char := s.dropWhile (· ∈ "-+ #0'".toList)

/-- What is left behind a width or a precision. -/
def afterNumber : List Char → List Char
  | '*' :: s => s
  | s => s.dropWhile isDigitChar

def afterPrecision : List Char → List Char
  | '.' :: s => afterNumber s
  | s => s

/-- What is left behind a length modifier. -/
def afterType : List Char → List Char
  | 'h' :: 'h' :: s | 'l' :: 'l' :: s => s
  | 'h' :: s | 'l' :: s | 'j' :: s | 't' :: s | 'z' :: s => s
  | s => s

/-- The conversion character of a conversion and what follows it. -/
def conversionEnd (s : List Char) : List Char :=
  afterType (afterPrecision (afterNumber (afterFlags s)))

/-- **Every conversion has its conversion character.** -/
inductive Finished : List Char → Prop
  | nil : Finished []
  | literal {ch s} (hch : ch ≠ '%') : Finished s → Finished (ch :: s)
  | percent {s} : Finished s → Finished ('%' :: '%' :: s)
  | conversion {s ch rest} (hs : s.head? ≠ some '%') (hend : conversionEnd s = ch :: rest) :
    Finished rest → Finished ('%' :: s)

section Parse

variable (args : VaList) (k : ℕ)

theorem setFlag_isSome (f : Flags) (ch : Char) :
    (setFlag f ch).isSome = decide (ch ∈ "-+ #0'".toList) := by
  unfold setFlag
  split <;> simp_all

theorem parseFlags_spec (s : List Char) (f : Flags) : ∃ f',
    parseFlags (s ++ ['\x00']) f = some (f', afterFlags s ++ ['\x00']) := by
  induction s generalizing f with
  | nil => exact ⟨f, rfl⟩
  | cons ch s ih =>
    have hflag := setFlag_isSome f ch
    unfold afterFlags
    rw [cons_append, parseFlags, dropWhile_cons, ← hflag]
    cases setFlag f ch with
    | some f' => exact ih f'
    | none => exact ⟨f, rfl⟩

theorem parseDigits_spec (s : List Char) (n : Int) : ∃ n',
    parseDigits (s ++ ['\x00']) n = some (n', s.dropWhile isDigitChar ++ ['\x00']) := by
  induction s generalizing n with
  | nil => exact ⟨n, rfl⟩
  | cons ch s ih =>
    rw [cons_append, parseDigits, dropWhile_cons]
    split
    · exact ih _
    · exact ⟨n, rfl⟩

theorem parseNumber_spec (s : List Char) : ∃ n k',
    parseNumber args k (s ++ ['\x00']) = some (n, afterNumber s ++ ['\x00'], k') := by
  unfold afterNumber
  split
  · exact ⟨_, _, rfl⟩
  · rename_i hstar
    obtain ⟨n, hn⟩ := parseDigits_spec s 0
    refine ⟨n, k, ?_⟩
    rw [parseNumber, hn]
    · rfl
    · intro format hs
      cases s with
      | nil => cases hs
      | cons ch s => exact hstar s (by rw [(List.cons.inj hs).1])

theorem parsePrecision_spec (s : List Char) : ∃ n k',
    parsePrecision args k (s ++ ['\x00']) = some (n, afterPrecision s ++ ['\x00'], k') := by
  unfold afterPrecision
  split
  · rename_i s
    obtain ⟨n, k', hn⟩ := parseNumber_spec args k s
    rw [cons_append, parsePrecision, hn]
    exact ⟨_, _, rfl⟩
  · rename_i hdot
    refine ⟨-1, k, ?_⟩
    rw [parsePrecision]
    · exact append_ne_nil_of_right_ne_nil _ (by simp)
    · intro format hs
      cases s with
      | nil => cases hs
      | cons ch s => exact hdot s (by rw [(List.cons.inj hs).1])

theorem parseType_spec (s : List Char) : ∃ t,
    parseType (s ++ ['\x00']) = some (t, afterType s ++ ['\x00']) := by
  unfold afterType
  split
  case h_1 | h_2 | h_5 | h_6 | h_7 => exact ⟨_, rfl⟩
  case h_3 s _ | h_4 s _ =>
    cases s with
    | nil => exact ⟨_, rfl⟩
    | cons ch s =>
      simp only [cons_append, parseType]
      split <;> simp_all
  case h_8 =>
    cases s with
    | nil => exact ⟨_, rfl⟩
    | cons ch s =>
      simp only [cons_append, parseType]
      split <;> simp_all

/-- **A conversion is parsed** without a read behind the null byte. -/
theorem parseConversion_spec (s : List Char) : ∃ c k',
    parseConversion args (s ++ ['\x00']) k = some (c, conversionEnd s ++ ['\x00'], k') := by
  obtain ⟨f, hf⟩ := parseFlags_spec s ⟨false, false, false, false, false, false⟩
  obtain ⟨width, k₁, hwidth⟩ := parseNumber_spec args k (afterFlags s)
  obtain ⟨precision, k₂, hprecision⟩ := parsePrecision_spec args k₁ (afterNumber (afterFlags s))
  obtain ⟨t, ht⟩ := parseType_spec (afterPrecision (afterNumber (afterFlags s)))
  unfold parseConversion conversionEnd
  rw [hf]
  simp only [Option.bind_eq_bind, Option.bind_some, hwidth, hprecision, ht]
  exact ⟨_, _, rfl⟩

end Parse

/-! ## 4. The output -/

variable {s : List Char}

section Output

variable (mem : ℕ → Char) (args : VaList) (k : ℕ)

variable {b : IntegerBase}

theorem formatInteger_isSome (hb : b ∈ [baseD, baseO, baseX, baseUpperX]) {value : ℕ}
    (hv : value < 2 ^ 64) (isSigned negative : Bool) (c : Conversion) :
    (formatInteger value isSigned negative b c).isSome = true := by
  obtain ⟨m, hm, -⟩ := formatDigits_spec (goodBase_of_mem hb) hv c
  rw [formatInteger, hm]
  rfl

theorem natAbs_toInt_lt {w : ℕ} (x : BitVec w) (hw : w ≤ 64) : x.toInt.natAbs < 2 ^ 64 := by
  have hpow : 2 ^ w ≤ 2 ^ 64 := Nat.pow_le_pow_right (by decide) hw
  rw [BitVec.toInt_eq_toNat_cond]
  split <;> omega

theorem vaSigned_lt (t : ArgType) : (vaSigned args k t).1.natAbs < 2 ^ 64 := by
  cases t <;> exact natAbs_toInt_lt _ (by decide)

theorem vaUnsigned_lt (t : ArgType) : (vaUnsigned args k t).1 < 2 ^ 64 := by
  cases t <;> exact Nat.lt_of_lt_of_le (BitVec.isLt _) (by decide)

theorem convertUnsigned_isSome (hb : b ∈ [baseD, baseO, baseX, baseUpperX]) (c : Conversion) :
    (convertUnsigned args k b c).isSome = true := by
  unfold convertUnsigned
  rw [Option.isSome_map]
  exact formatInteger_isSome hb (vaUnsigned_lt args k c.type) _ _ _

theorem complain_isSome (fuel : ℕ) (format : String)
    (hf : format ∈ ["<<no %%%c in kernel>>", "<<no %%%c conversion>>"]) :
    (vprintf mem (fuel + 23) (format.toList ++ ['\x00']) args 0).isSome = true := by
  simp only [mem_cons, not_mem_nil, or_false] at hf
  rcases hf with rfl | rfl <;> rfl

/-- **Every conversion character has an output**, also the null byte. -/
theorem convert_isSome (fuel : ℕ) (c : Conversion) (ch : Char) :
    (convert (vprintf mem (fuel + 23) · · 0) mem args k c ch).isSome = true := by
  unfold convert
  split
  case h_1 | h_2 =>
    rw [Option.isSome_map]
    exact formatInteger_isSome (by simp) (vaSigned_lt args k c.type) _ _ _
  case h_3 | h_4 | h_5 | h_6 => exact convertUnsigned_isSome args k (by simp) c
  case h_7 | h_8 => rfl
  all_goals rw [Option.isSome_map]
  case h_9 => exact formatInteger_isSome (by simp) (by omega) _ _ _
  all_goals exact complain_isSome _ _ _ _ (by simp)

/-- **One conversion**: the loop goes on behind what was taken for its conversion character. -/
theorem vprintf_conversion (fuel : ℕ) (hs : s.head? ≠ some '%') : ∃ k',
    (vprintf mem (fuel + 24) ('%' :: (s ++ ['\x00'])) args k).isSome =
      (vprintf mem (fuel + 23) (conversionEnd s ++ ['\x00']).tail args k').isSome := by
  obtain ⟨c, k₁, hparse⟩ := parseConversion_spec args k s
  obtain ⟨ch, rest, hend⟩ : ∃ ch rest, conversionEnd s ++ ['\x00'] = ch :: rest :=
    exists_cons_of_ne_nil (by simp)
  obtain ⟨r, hr⟩ := Option.isSome_iff_exists.mp (convert_isSome mem args k₁ fuel c ch)
  refine ⟨r.2, ?_⟩
  rw [vprintf, if_neg (by decide), if_neg (by decide), hparse, hend]
  · simp only [Option.bind_eq_bind, Option.bind_some, hr, Option.isSome_map, tail_cons]
  · simp
  · intro format hpercent
    cases s with
    | nil => cases hpercent
    | cons d s => exact hs (congrArg some (List.cons.inj hpercent).1)

end Output

section Suffix

variable (s : List Char)

theorem afterNumber_suffix : afterNumber s <:+ s := by
  unfold afterNumber
  split
  · exact suffix_cons _ _
  · exact dropWhile_suffix _

theorem afterPrecision_suffix : afterPrecision s <:+ s := by
  unfold afterPrecision
  split
  · exact (afterNumber_suffix _).trans (suffix_cons _ _)
  · exact suffix_refl s

theorem afterType_suffix : afterType s <:+ s := by
  unfold afterType
  split
  case h_1 | h_2 => exact (suffix_cons _ _).trans (suffix_cons _ _)
  case h_8 => exact suffix_refl s
  all_goals exact suffix_cons _ _

theorem conversionEnd_suffix : conversionEnd s <:+ s :=
  (afterType_suffix _).trans <| (afterPrecision_suffix _).trans <|
    (afterNumber_suffix _).trans (List.dropWhile_suffix _)

end Suffix

theorem finished_literal {ch : Char} (hch : ch ≠ '%') : Finished (ch :: s) ↔ Finished s := by
  refine ⟨fun h => ?_, .literal hch⟩
  cases h with
  | literal _ h => exact h
  | percent => exact absurd rfl hch
  | conversion => exact absurd rfl hch

theorem finished_percent : Finished ('%' :: '%' :: s) ↔ Finished s := by
  refine ⟨fun h => ?_, .percent⟩
  cases h with
  | literal hne => exact absurd rfl hne
  | percent h => exact h
  | conversion hne => exact absurd rfl hne

theorem finished_conversion (hs : s.head? ≠ some '%') :
    Finished ('%' :: s) ↔ ∃ ch rest, conversionEnd s = ch :: rest ∧ Finished rest := by
  refine ⟨fun h => ?_, fun ⟨ch, rest, hend, h⟩ => .conversion hs hend h⟩
  cases h with
  | literal hne => exact absurd rfl hne
  | percent => exact absurd rfl hs
  | conversion _ hend h => exact ⟨_, _, hend, h⟩

/-- **The format is read in its bounds and the output is made**, exactly if every conversion has its
    conversion character. By induction on the turns of the loop. -/
theorem format_read_in_bounds (mem : ℕ → Char) (args : VaList) (k : ℕ) {format : List Char}
    (hf : '\x00' ∉ format) {fuel : ℕ} (hfuel : format.length + 24 ≤ fuel) :
    (vprintf mem fuel (format ++ ['\x00']) args k).isSome = true ↔ Finished format := by
  induction fuel generalizing format k with
  | zero => omega
  | succ fuel ih =>
    cases format with
    | nil => exact ⟨fun _ => .nil, fun _ => rfl⟩
    | cons ch s =>
      rw [mem_cons, not_or] at hf
      rw [length_cons] at hfuel
      by_cases hch : ch = '%'
      · subst hch
        by_cases hs : s.head? = some '%'
        · obtain ⟨rest, rfl⟩ := List.head?_eq_some_iff.mp hs
          rw [mem_cons, not_or] at hf
          rw [length_cons] at hfuel
          have hstep : vprintf mem (fuel + 1) ('%' :: '%' :: rest ++ ['\x00']) args k =
              (vprintf mem fuel (rest ++ ['\x00']) args k).map ('%' :: ·) := rfl
          rw [hstep, Option.isSome_map, ih k hf.2.2 (by omega), finished_percent]
        · obtain ⟨n, rfl⟩ : ∃ n, fuel = n + 23 := ⟨fuel - 23, by omega⟩
          obtain ⟨k', hk'⟩ := vprintf_conversion mem args k n hs
          have hsuffix := conversionEnd_suffix s
          rw [cons_append, hk', finished_conversion hs]
          cases hend : conversionEnd s with
          | nil => exact ⟨nofun, fun ⟨_, _, h, _⟩ => nomatch h⟩
          | cons d rest =>
            rw [hend] at hsuffix
            have hlen := hsuffix.length_le
            rw [length_cons] at hlen
            rw [cons_append, tail_cons,
              ih k' (fun h => hf.2 (hsuffix.subset (mem_cons_of_mem d h))) (by omega)]
            simp
      · rw [cons_append, vprintf.eq_def]
        dsimp only
        rw [if_neg (Ne.symm hf.1), if_pos hch, Option.isSome_map, ih k hf.2 (by omega),
          finished_literal hch]

theorem format_read_in_bounds_width : Finished "n=%5d".toList ∧
    (vprintf (fun _ => 'a') 40 ("n=%5d".toList ++ ['\x00']) (fun _ => 7) 0).isSome = true := by
  have hfin : Finished "n=%5d".toList :=
    .literal (by decide) (.literal (by decide) (.conversion (by decide) rfl .nil))
  exact ⟨hfin, (format_read_in_bounds _ _ _ (by decide) (by decide)).mpr hfin⟩

/-- A lone `%`: however long the loop runs, it reads behind the null byte. -/
theorem lone_percent_overread :
    '\x00' ∉ ['%'] ∧ ∀ fuel, vprintf (fun _ => 'a') fuel ['%', '\x00'] (fun _ => 7) 0 = none := by
  refine ⟨by decide, fun fuel => ?_⟩
  have hbehind : ∀ fuel k, vprintf (fun _ => 'a') fuel [] (fun _ => 7) k = none := by
    intro fuel k
    cases fuel <;> rfl
  cases fuel with
  | zero => rfl
  | succ fuel =>
    refine Option.bind_eq_none_iff.mpr fun r _ => ?_
    exact Option.map_eq_none_iff.mpr (hbehind fuel r.2)

end Pintos
