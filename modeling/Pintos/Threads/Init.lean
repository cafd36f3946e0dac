/-
  Subject:   The command line and its options (`read_command_line`, `parse_options` in threads/init.c),
             and the generator of lib/random.c that they seed.

  * `argv` is the list of the pointers stored, as offsets into the argument area of 128 bytes; the
    null pointer behind them goes to entry `argc`. No result is the panic.
  * `nulls area p`: the null bytes from `p` on. Each argument takes one, an unterminated last
    one apart.
  * **`command_line_inside`**: the stores are in the array of 65 and the arguments are strings, or
    the kernel panics, exactly for the counts named there.
  * The generator is RC4, on bytes as numbers below 256. `random_init` starts it again whether or not
    it was started before. The last statement of `parse_options` is `random_init (rtc_get_time ())`,
    so what an option `-rs` did to the generator is lost.
  * **`seed_reproducible`**: what the bytes depend on.
-/
import Pintos.Klib.Printf
import Pintos.Klib.Stdlib

namespace Pintos

open List

/-! ## 1. `read_command_line` -/

/-- The loop, with `left` arguments to come and the cursor at `p`. -/
def argLoop (area : ℕ → Char) : (left p : ℕ) → Option (List ℕ)
  | 0, _ => some []
  | left + 1, p =>
    if p ≥ 128 then none
    else
      let length := strnlenLoop (fun k => area (p + k)) (128 - p) 0
      (argLoop area left (p + length + 1)).map (p :: ·)

/-- `read_command_line`: the arguments, and `argc`, which is an `int`. -/
def readCommandLine (area : ℕ → Char) (cnt : BitVec 32) : Option (List ℕ × Int) :=
  (argLoop area cnt.toInt.toNat 0).map (·, cnt.toInt)

/-! ## 2. Strings -/

/-- **Consecutive strings** from `p` on, each with its null byte in the area. -/
inductive Strings (area : ℕ → Char) : ℕ → List ℕ → Prop
  | nil {p} : Strings area p []
  | cons {p e rest} (hp : p ≤ e) (he : e < 128) (hend : area e = '\x00')
    (hin : ∀ k, p ≤ k → k < e → area k ≠ '\x00') :
    Strings area (e + 1) rest → Strings area p (p :: rest)

/-- The panic, or stores into entries 0 to 64 only and arguments that are strings. -/
def ArgvInside (area : ℕ → Char) : Option (List ℕ × Int) → Prop
  | none => True
  | some (argv, argc) => 0 ≤ argc ∧ argc ≤ 64 ∧ argv.length = argc ∧ Strings area 0 argv

/-- The null bytes from `p` on. -/
def nulls (area : ℕ → Char) (p : ℕ) : ℕ := (List.range' p (128 - p)).countP (area · = '\x00')

section Loop

variable {area : ℕ → Char} {p : ℕ}

theorem strnlenLoop_spec (string : ℕ → Char) (left k : ℕ) :
    k ≤ strnlenLoop string left k ∧ strnlenLoop string left k ≤ k + left ∧
      (∀ j, k ≤ j → j < strnlenLoop string left k → string j ≠ '\x00') ∧
      (strnlenLoop string left k < k + left → string (strnlenLoop string left k) = '\x00') := by
  induction left generalizing k with
  | zero => exact ⟨Nat.le_refl k, Nat.le_refl k, fun j h1 h2 => absurd h2 (Nat.not_lt.mpr h1),
      fun h => absurd h (Nat.lt_irrefl k)⟩
  | succ left ih =>
    unfold strnlenLoop
    split
    · rename_i hnul
      exact ⟨Nat.le_refl k, Nat.le_add_right _ _, fun j h1 h2 => absurd h2 (Nat.not_lt.mpr h1),
        fun _ => hnul⟩
    · rename_i hnul
      obtain ⟨h1, h2, h3, h4⟩ := ih (k + 1)
      refine ⟨by omega, by omega, fun j hk hj => ?_, fun h => h4 (by omega)⟩
      rcases Nat.eq_or_lt_of_le hk with rfl | hk
      · exact hnul
      · exact h3 j hk hj

theorem nulls_none (h : ∀ k, p ≤ k → k < 128 → area k ≠ '\x00') : nulls area p = 0 := by
  refine countP_eq_zero.mpr fun k hk => ?_
  obtain ⟨h1, h2⟩ := mem_range'_1.mp hk
  simpa using h k h1 (by omega)

theorem nulls_next {e : ℕ} (hp : p ≤ e) (he : e < 128) (hend : area e = '\x00')
    (hin : ∀ k, p ≤ k → k < e → area k ≠ '\x00') : nulls area p = nulls area (e + 1) + 1 := by
  have hsplit : List.range' p (128 - p) =
      List.range' p (e - p) ++ e :: List.range' (e + 1) (128 - (e + 1)) := by
    have hn : 128 - p = (e - p) + ((128 - (e + 1)) + 1) := by omega
    rw [hn, ← range'_append_1, range'_succ, Nat.add_sub_cancel' hp]
  have hzero : (List.range' p (e - p)).countP (area · = '\x00') = 0 := by
    refine countP_eq_zero.mpr fun k hk => ?_
    obtain ⟨h1, h2⟩ := mem_range'_1.mp hk
    simpa using hin k h1 (by omega)
  unfold nulls
  rw [hsplit, countP_append, hzero, Nat.zero_add,
    countP_cons_of_pos (by simpa using hend)]

/-- **The loop**, by induction on the arguments to come: they are strings, or the last one is not
    terminated, or there are too many. -/
theorem argLoop_spec (left p : ℕ) : (left ≤ nulls area p ∧
      ∃ argv, argLoop area left p = some argv ∧ argv.length = left ∧ Strings area p argv) ∨
    (left = nulls area p + 1 ∧ area 127 ≠ '\x00' ∧
      ∃ argv, argLoop area left p = some argv ∧ ¬ Strings area p argv) ∨
    (nulls area p < left ∧ (left = nulls area p + 1 → p < 128 → area 127 = '\x00') ∧
      argLoop area left p = none) := by
  induction left generalizing p with
  | zero => exact .inl ⟨Nat.zero_le _, [], rfl, rfl, .nil⟩
  | succ left ih =>
    unfold argLoop
    split
    · rename_i hp
      refine .inr (.inr ⟨?_, fun _ h => absurd h (by omega), rfl⟩)
      rw [nulls_none fun k h1 h2 => absurd h2 (by omega)]
      exact Nat.succ_pos left
    · rename_i hp
      obtain ⟨-, hle, hin, hend⟩ := strnlenLoop_spec (fun k => area (p + k)) (128 - p) 0
      generalize strnlenLoop (fun k => area (p + k)) (128 - p) 0 = length at *
      dsimp only
      have hin' : ∀ k, p ≤ k → k < p + length → area k ≠ '\x00' := by
        intro k h1 h2
        have := hin (k - p) (Nat.zero_le _) (by omega)
        rwa [Nat.add_sub_cancel' h1] at this
      by_cases hlen : p + length < 128
      · -- the argument ends in the area
        have hnul : area (p + length) = '\x00' := hend (by omega)
        have hnext := nulls_next (by omega) hlen hnul hin'
        obtain ⟨h1, argv, he, hl, hs⟩ | ⟨h1, h2, argv, he, hs⟩ | ⟨h1, h2, he⟩ :=
          ih (p + length + 1)
        · exact .inl ⟨by omega, _, by rw [he]; rfl, by rw [length_cons, hl],
            .cons (by omega) hlen hnul hin' hs⟩
        · refine .inr (.inl ⟨by omega, h2, _, by rw [he]; rfl, fun hs' => hs ?_⟩)
          obtain _ | ⟨hpe, he', hend', hin''⟩ := hs'
          rename_i e hrest
          have : e = p + length := by
            rcases Nat.lt_trichotomy e (p + length) with h | h | h
            · exact absurd hend' (hin' e hpe h)
            · exact h
            · exact absurd hnul (hin'' _ (by omega) h)
          rwa [this] at hrest
        · refine .inr (.inr ⟨by omega, fun hleft _ => ?_, by rw [he]; rfl⟩)
          by_cases h127 : p + length = 127
          · rwa [h127] at hnul
          · exact h2 (by omega) (by omega)
      · -- no null byte is left, so the cursor jumps behind the area
        have hnone := nulls_none fun k h1 h2 => hin' k h1 (by omega)
        cases left with
        | zero =>
          refine .inr (.inl ⟨by rw [hnone], hin' 127 (by omega) (by omega), [p], rfl, fun hs => ?_⟩)
          obtain _ | ⟨hpe, he, hend', -⟩ := hs
          exact absurd hend' (hin' _ hpe (by omega))
        | succ left =>
          have hover : argLoop area (left + 1) (p + length + 1) = none := by
            unfold argLoop
            exact if_pos (by omega)
          exact .inr (.inr ⟨by omega, fun h => by omega, by rw [hover]; rfl⟩)

end Loop

/-! ## 3. Every count and every area -/

/-- **The stores are in the array and the arguments are strings, or the kernel panics**, exactly if
    the count is not negative as an `int`, is at most 64 unless the area has fewer null bytes, and
    is not one more than the null bytes of an area whose last argument is cut off. -/
theorem command_line_inside (area : ℕ → Char) (cnt : BitVec 32) :
    ArgvInside area (readCommandLine area cnt) ↔
      0 ≤ cnt.toInt ∧ (cnt.toInt ≤ nulls area 0 → cnt.toInt ≤ 64) ∧
        (cnt.toInt = nulls area 0 + 1 → area 127 = '\x00') := by
  generalize hargc : cnt.toInt = argc
  unfold readCommandLine
  rw [hargc]
  obtain ⟨h1, argv, he, hl, hs⟩ | ⟨h1, h2, argv, he, hs⟩ | ⟨h1, h2, he⟩ :=
    argLoop_spec argc.toNat 0
  · rw [he]
    constructor
    · intro h
      exact ⟨h.1, fun _ => h.2.1, fun hlast => by have := h.1; omega⟩
    · intro h
      exact ⟨h.1, h.2.1 (by omega), by omega, hs⟩
  · rw [he]
    constructor
    · intro h
      exact absurd h.2.2.2 hs
    · intro h
      exact absurd (h.2.2 (by omega)) h2
  · rw [he]
    refine iff_of_true trivial ⟨by omega, fun h => by omega, fun h => h2 (by omega) (by decide)⟩

/-- **Sixty-five empty arguments**: the null pointer behind them is stored past the array. -/
theorem empty_arguments_overflow :
    ¬ ArgvInside (fun _ => '\x00') (readCommandLine (fun _ => '\x00') 65) := by
  have hread : readCommandLine (fun _ => '\x00') 65 = some (List.range 65, 65) := by decide
  rw [hread]
  exact fun h => absurd h.2.1 (by decide)

/-! ## 4. The generator -/

/-- The state of RC4. -/
structure Rng where
  s : ℕ → ℕ
  i : ℕ
  j : ℕ
  inited : Bool

/-- `swap_byte (s + a, s + b)`. -/
def swapByte (s : ℕ → ℕ) (a b : ℕ) : ℕ → ℕ :=
  fun x => if x = b then s a else if x = a then s b else s x

/-- `seedp[i % sizeof seed]`. -/
def seedByte (seed i : ℕ) : ℕ := seed / 256 ^ (i % 4) % 256

/-- The first `i` turns of the second loop of `random_init`: `s` and `j`. -/
def randomInitLoop (seed : ℕ) : ℕ → (ℕ → ℕ) × ℕ
  | 0 => (fun x => x, 0)
  | i + 1 =>
    let (s, j) := randomInitLoop seed i
    let j := (j + s i + seedByte seed i) % 256
    (swapByte s i j, j)

/-- `random_init`. -/
def randomInit (seed : ℕ) : Rng where
  s := (randomInitLoop seed 256).1
  i := 0
  j := 0
  inited := true

/-- The loop of `random_bytes`. -/
def randomLoop : ℕ → Rng → List ℕ × Rng
  | 0, r => ([], r)
  | size + 1, r =>
    let i := (r.i + 1) % 256
    let j := (r.j + r.s i) % 256
    let s := swapByte r.s i j
    let k := (s i + s j) % 256
    let (buf, r) := randomLoop size { r with s, i, j }
    (s k :: buf, r)

/-- `random_bytes`. -/
def randomBytes (size : ℕ) (r : Rng) : List ℕ × Rng :=
  randomLoop size (if r.inited then r else randomInit 0)

theorem randomBytes_differ : (randomBytes 1 (randomInit 0)).1 ≠ (randomBytes 1 (randomInit 1)).1 := by
  decide +kernel

/-! ## 5. The options -/

/-- Which of `FILESYS`, `VM` and `USERPROG` are defined. -/
structure Build where
  filesys : Bool
  vm : Bool
  userprog : Bool

/-- `enum shutdown_type`. -/
inductive Shutdown where
  | none
  | powerOff
  | reboot

/-- What the options set. -/
structure BootState where
  rng : Rng
  shutdown : Shutdown
  formatFilesys : Bool
  filesysBdevName : Option (List Char)
  scratchBdevName : Option (List Char)
  swapBdevName : Option (List Char)
  threadMlfqs : Bool
  threadPriorAging : Bool
  userPageLimit : ℕ

/-- `random.c` and the flags as they are when the kernel starts. -/
def bootState : BootState where
  rng := ⟨fun _ => 0, 0, 0, false⟩
  shutdown := .none
  formatFilesys := false
  filesysBdevName := none
  scratchBdevName := none
  swapBdevName := none
  threadMlfqs := false
  threadPriorAging := false
  userPageLimit := 2 ^ 32 - 1

/-- Why the boot does not go on. -/
inductive BootStop where
  /-- `usage ()` turns the machine off. -/
  | usage
  /-- PANIC ("unknown option `%s' (use -h for help)", name). -/
  | unknownOption (name : List Char)
  /-- The assertion of `strcmp` or `atoi` that its string is not null. -/
  | nullString

/-- `strtok_r (s, delimiters, &save_ptr)`: the token, and the string at `save_ptr`. -/
def cutToken (delimiters s : List Char) : Option (List Char × List Char) :=
  match s.dropWhile (· ∈ delimiters) with
  | [] => none
  | c :: t =>
    some ((c :: t).takeWhile (· ∉ delimiters), ((c :: t).dropWhile (· ∉ delimiters)).tail)

/-- The branches of `parse_options`. -/
inductive BootOption where
  | help
  | powerOff
  | reboot
  | format
  | filesys
  | scratch
  | swap
  | seed
  | mlfqs
  | aging
  | pageLimit

variable (build : Build)

/-- The comparisons of `parse_options`: the branch for the option `name`. -/
def optionNamed (name : List Char) : Option BootOption :=
  if name = "-h".toList then some .help
  else if name = "-q".toList then some .powerOff
  else if name = "-r".toList then some .reboot
  else if build.filesys ∧ name = "-f".toList then some .format
  else if build.filesys ∧ name = "-filesys".toList then some .filesys
  else if build.filesys ∧ name = "-scratch".toList then some .scratch
  else if build.filesys ∧ build.vm ∧ name = "-swap".toList then some .swap
  else if name = "-rs".toList then some .seed
  else if name = "-mlfqs".toList then some .mlfqs
  else if ¬build.userprog ∧ name = "-aging".toList then some .aging
  else if build.userprog ∧ name = "-ul".toList then some .pageLimit
  else none

/-- `atoi (value)` as an unsigned number; `value` may be null. -/
def atoiValue : Option (List Char) → Except BootStop ℕ
  | some value => .ok (atoi value % 2 ^ 32).toNat
  | none => .error .nullString

/-- What the branches do. -/
def setOption (st : BootState) (value : Option (List Char)) : BootOption → Except BootStop BootState
  | .help => .error .usage
  | .powerOff => .ok { st with shutdown := .powerOff }
  | .reboot => .ok { st with shutdown := .reboot }
  | .format => .ok { st with formatFilesys := true }
  | .filesys => .ok { st with filesysBdevName := value }
  | .scratch => .ok { st with scratchBdevName := value }
  | .swap => .ok { st with swapBdevName := value }
  | .seed => (atoiValue value).map fun seed => { st with rng := randomInit seed }
  | .mlfqs => .ok { st with threadMlfqs := true }
  | .aging => .ok { st with threadPriorAging := true }
  | .pageLimit => (atoiValue value).map fun limit => { st with userPageLimit := limit }

/-- The body of the loop of `parse_options`, for one option. -/
def parseOption (st : BootState) (arg : List Char) : Except BootStop BootState :=
  match cutToken ['='] arg with
  | none => .error .nullString
  | some (name, rest) =>
    match optionNamed build name with
    | some opt => setOption st ((cutToken [] rest).map Prod.fst) opt
    | none => .error (.unknownOption name)

/-- An argument that is an option. -/
def isOption (arg : List Char) : Bool := arg.head? = some '-'

/-- `parse_options`, at the time `clock`: what is set, and the arguments that are left. -/
def parseOptions (build : Build) (clock : ℕ) (st : BootState) :
    List (List Char) → Except BootStop (BootState × List (List Char))
  | [] => .ok ({ st with rng := randomInit clock }, [])
  | arg :: argv =>
    if isOption arg then
      (parseOption build st arg).bind fun st => parseOptions build clock st argv
    else .ok ({ st with rng := randomInit clock }, arg :: argv)

/-! ## 6. What is left of the seed -/

/-- **An option that the boot does not get past**: `-h`, an unknown option, or one whose number is
    missing. -/
def stopsBoot (arg : List Char) : Bool :=
  match cutToken ['='] arg with
  | none => true
  | some (name, rest) =>
    match optionNamed build name with
    | none | some .help => true
    | some .seed | some .pageLimit => rest.isEmpty
    | some _ => false

theorem atoiValue_map (rest : List Char) (f : ℕ → BootState) :
    ((atoiValue ((cutToken [] rest).map Prod.fst)).map f).isOk = !rest.isEmpty := by
  cases rest <;> rfl

theorem parseOption_isOk (st : BootState) (arg : List Char) :
    (parseOption build st arg).isOk = !stopsBoot build arg := by
  unfold parseOption stopsBoot
  cases cutToken ['='] arg with
  | none => rfl
  | some p =>
    obtain ⟨name, rest⟩ := p
    dsimp only
    cases optionNamed build name with
    | none => rfl
    | some opt => cases opt <;> first | rfl | exact atoiValue_map rest _

/-- **The clock decides**, or nothing is decided: with an option that stops the boot it ends in the
    same way at every time, and otherwise the generator starts from the time. -/
theorem parseOptions_cases (st : BootState) (argv : List (List Char)) :
    ((∃ arg ∈ argv.takeWhile isOption, stopsBoot build arg = true) ∧
      ∃ e, ∀ clock, parseOptions build clock st argv = .error e) ∨
    ((∀ arg ∈ argv.takeWhile isOption, stopsBoot build arg = false) ∧
      ∃ (st' : BootState) (rest : List (List Char)), ∀ clock,
        parseOptions build clock st argv = .ok ({ st' with rng := randomInit clock }, rest)) := by
  induction argv generalizing st with
  | nil => exact .inr ⟨nofun, st, [], fun clock => by rw [parseOptions]⟩
  | cons arg argv ih =>
    by_cases ho : isOption arg = true
    · have hok : stopsBoot build arg = !(parseOption build st arg).isOk := by
        rw [parseOption_isOk, Bool.not_not]
      rw [takeWhile_cons_of_pos ho]
      cases hp : parseOption build st arg with
      | error e =>
        rw [hp] at hok
        refine .inl ⟨⟨arg, mem_cons_self, hok⟩, e, fun clock => ?_⟩
        rw [parseOptions, if_pos ho, hp]
        rfl
      | ok st₁ =>
        rw [hp] at hok
        have hnext : ∀ clock, parseOptions build clock st (arg :: argv) =
            parseOptions build clock st₁ argv := fun clock => by
          rw [parseOptions, if_pos ho, hp]
          rfl
        simp only [hnext]
        rcases ih st₁ with ⟨⟨a, ha, hs⟩, hend⟩ | ⟨hall, hend⟩
        · exact .inl ⟨⟨a, mem_cons_of_mem arg ha, hs⟩, hend⟩
        · exact .inr ⟨forall_mem_cons.mpr ⟨hok, hall⟩, hend⟩
    · rw [takeWhile_cons_of_neg ho]
      exact .inr ⟨nofun, st, arg :: argv, fun clock => by rw [parseOptions, if_neg ho]⟩

/-- The first bytes of `random_bytes` after a boot at the time `clock`. -/
def bootBytes (st : BootState) (argv : List (List Char)) (clock size : ℕ) :
    Except BootStop (List ℕ) :=
  (parseOptions build clock st argv).map fun r => (randomBytes size r.1.rng).1

/-- **The bytes do not depend on the clock.** -/
def Reproducible (st : BootState) (argv : List (List Char)) : Prop :=
  ∀ clock clock' size, bootBytes build st argv clock size = bootBytes build st argv clock' size

/-- **When random output is reproducible**: on a command line that the boot does not get past, with or
    without a seed. -/
theorem seed_reproducible (build : Build) (st : BootState) (argv : List (List Char)) :
    Reproducible build st argv ↔ ∃ arg ∈ argv.takeWhile isOption, stopsBoot build arg = true := by
  unfold Reproducible bootBytes
  rcases parseOptions_cases build st argv with ⟨hstop, e, he⟩ | ⟨hall, st', rest, hok⟩
  · refine iff_of_true (fun clock clock' size => ?_) hstop
    rw [he, he]
  · refine iff_of_false (fun hsame => ?_) fun ⟨arg, harg, hstop⟩ => ?_
    · have h := hsame 0 1 1
      rw [hok, hok] at h
      exact randomBytes_differ (Except.ok.inj h)
    · rw [hall arg harg] at hstop
      cases hstop

/-- The command line `-rs=5`: the byte is that of the time. -/
theorem seed_forgotten : ¬Reproducible ⟨true, false, true⟩ bootState ["-rs=5".toList] := by
  intro hsame
  have hrun : ∀ clock, bootBytes ⟨true, false, true⟩ bootState ["-rs=5".toList] clock 1 =
      .ok (randomBytes 1 (randomInit clock)).1 := fun _ => rfl
  have h := hsame 0 1 1
  rw [hrun, hrun] at h
  exact randomBytes_differ (Except.ok.inj h)

end Pintos
