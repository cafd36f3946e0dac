/-
  Subject:   `strtok_r` of lib/string.c on the bytes of its string.

  * The string is a buffer whose byte `n` is the null byte that ends it. An access behind that byte has
    no result, so that a result says that there was none.
  * `strchr` finds the null byte in every set of delimiters; the first loop of `strtok_r` leaves by it,
    and the second one stops at it.
  * **`strtok_tokens`**: the calls return the maximal substrings without a delimiter.
-/
import Mathlib.Tactic.Linarith

namespace Pintos

open Function List Nat

/-! ## 1. The code -/

/-- `strchr`: the index of `c` in a string that holds the bytes given and then a null byte. -/
def strchr : List UInt8 → UInt8 → Option ℕ
  | [], c => if c = 0 then some 0 else none
  | b :: string, c => if b = c then some 0 else (strchr string c).map (· + 1)

/-- A byte of the string, its null byte included. -/
def loadByte (n : ℕ) (buf : ℕ → UInt8) (s : ℕ) : Option UInt8 :=
  if s ≤ n then some (buf s) else none

section Code

variable (delimiters : List UInt8) (n : ℕ)

/-- `while (strchr (delimiters, *s) != NULL)`: where it ends, and whether by `return NULL`. -/
def skipLoop (buf : ℕ → UInt8) : ℕ → ℕ → Option (Bool × ℕ)
  | 0, _ => none
  | fuel + 1, s =>
    (loadByte n buf s).bind fun c =>
      if (strchr delimiters c).isSome then
        if c = 0 then some (true, s) else skipLoop buf fuel (s + 1)
      else some (false, s)

/-- `while (strchr (delimiters, *s) == NULL) s++;`. -/
def tokenLoop (buf : ℕ → UInt8) : ℕ → ℕ → Option ℕ
  | 0, _ => none
  | fuel + 1, s =>
    (loadByte n buf s).bind fun c =>
      if (strchr delimiters c).isNone then tokenLoop buf fuel (s + 1) else some s

/-- What a call returns, and leaves in `*save_ptr` and in the string. -/
structure TokCall where
  token : Option ℕ
  save : ℕ
  buf : ℕ → UInt8

/-- `strtok_r (s, delimiters, &save)`. -/
def strtokMem (fuel : ℕ) (buf : ℕ → UInt8) (s : Option ℕ) (save : ℕ) : Option TokCall :=
  (skipLoop delimiters n buf fuel (s.getD save)).bind fun (ended, s) =>
    if ended then some ⟨none, s, buf⟩
    else
      let token := s
      (tokenLoop delimiters n buf fuel s).bind fun s =>
        (loadByte n buf s).bind fun c =>
          if c ≠ 0 then some ⟨some token, s + 1, update buf s 0⟩
          else some ⟨some token, s, buf⟩

/-- The `k`th of the calls `strtok_r (s, …)`, `strtok_r (NULL, …)`, `strtok_r (NULL, …)`, …. -/
def strtokCall (fuel : ℕ) (buf : ℕ → UInt8) (s : Option ℕ) (save : ℕ) : ℕ → Option TokCall
  | 0 => strtokMem delimiters n fuel buf s save
  | k + 1 =>
    (strtokCall fuel buf s save k).bind fun c => strtokMem delimiters n fuel c.buf none c.save

end Code

theorem strchr_isSome (c : UInt8) : ∀ delimiters : List UInt8,
    (strchr delimiters c).isSome ↔ c ∈ delimiters ∨ c = 0
  | [] => by
    unfold strchr
    split
    · rename_i h
      simp [h]
    · rename_i h
      simp [h]
  | b :: delimiters => by
    unfold strchr
    split
    · rename_i h
      simp [h]
    · rename_i h
      rw [Option.isSome_map, strchr_isSome c delimiters, List.mem_cons, eq_comm, or_assoc]
      simp [Ne.symm h]

theorem strchr_isNone (c : UInt8) (delimiters : List UInt8) :
    (strchr delimiters c).isNone ↔ c ∉ delimiters ∧ c ≠ 0 := by
  rw [← Option.not_isSome, Bool.not_eq_true', ← Bool.not_eq_true, strchr_isSome, not_or]

/-! ## 2. One call -/

/-- **A string** in a buffer: no null byte in front of the one at `n`. -/
structure NullTerminated (buf : ℕ → UInt8) (n : ℕ) : Prop where
  ended : buf n = 0
  inner : ∀ a < n, buf a ≠ 0

section Tokens

variable {delimiters : List UInt8} {n : ℕ} {str : ℕ → UInt8}

/-- **A token**: a maximal range without a delimiter, not empty. -/
structure IsToken (delimiters : List UInt8) (str : ℕ → UInt8) (n i j : ℕ) : Prop where
  lt : i < j
  le : j ≤ n
  free : ∀ a, i ≤ a → a < j → str a ∉ delimiters
  left : i = 0 ∨ str (i - 1) ∈ delimiters
  right : j = n ∨ str j ∈ delimiters

/-- The buffer is still the string from `p` on. -/
def SameFrom (str : ℕ → UInt8) (n p : ℕ) (buf : ℕ → UInt8) : Prop :=
  ∀ a, p ≤ a → a ≤ n → buf a = str a

variable {buf : ℕ → UInt8} {fuel i j j' p q save : ℕ} {s : Option ℕ}

theorem SameFrom.mono (h : SameFrom str n p buf) (hpq : p ≤ q) :
    SameFrom str n q buf := fun a ha han => h a (le_trans hpq ha) han

theorem SameFrom.load (h : SameFrom str n p buf) (hp : p ≤ n) :
    loadByte n buf p = some (str p) := by
  unfold loadByte
  rw [if_pos hp, h p (le_refl p) hp]

/-- **The next token** from position `p` on: behind delimiters only, and maximal. -/
structure NextToken (delimiters : List UInt8) (str : ℕ → UInt8) (n p i j : ℕ) : Prop where
  start : p ≤ i
  lt : i < j
  le : j ≤ n
  skipped : ∀ a, p ≤ a → a < i → str a ∈ delimiters
  free : ∀ a, i ≤ a → a < j → str a ∉ delimiters
  right : j = n ∨ str j ∈ delimiters

/-- The first position with a property, or the end of the string. -/
theorem exists_first (P : ℕ → Prop) (hp : p ≤ n) :
    ∃ i, p ≤ i ∧ i ≤ n ∧ (∀ a, p ≤ a → a < i → ¬P a) ∧ (i = n ∨ P i) := by
  classical
  have hex : ∃ i, p ≤ i ∧ (i = n ∨ P i) := ⟨n, hp, .inl rfl⟩
  obtain ⟨hge, hstop⟩ := Nat.find_spec hex
  exact ⟨Nat.find hex, hge, Nat.find_min' hex ⟨hp, .inl rfl⟩,
    fun a ha hlt hPa => Nat.find_min hex hlt ⟨ha, .inr hPa⟩, hstop⟩

theorem next_or_none (delimiters : List UInt8) (str : ℕ → UInt8) (hp : p ≤ n) :
    (∀ a, p ≤ a → a < n → str a ∈ delimiters) ∨ ∃ i j, NextToken delimiters str n p i j := by
  obtain ⟨i, hpi, hin, hskip, hi⟩ := exists_first (fun a => str a ∉ delimiters) hp
  have hskip' : ∀ a, p ≤ a → a < i → str a ∈ delimiters := fun a ha hlt =>
    not_not.mp (hskip a ha hlt)
  rcases hi with rfl | hi
  · exact .inl hskip'
  · obtain ⟨j, hij, hjn, hfree, hj⟩ := exists_first (fun a => str a ∈ delimiters) hin
    rcases eq_or_lt_of_le hij with rfl | hlt
    · rcases hj with rfl | hj
      · exact .inl hskip'
      · exact absurd hj hi
    · exact .inr ⟨i, j, hpi, hlt, hjn, hskip', hfree, hj⟩

section Call

variable (hstr : NullTerminated str n) (hsame : SameFrom str n p buf)

include hstr hsame

/-- **The first loop** goes over the delimiters. -/
theorem skipLoop_run (hpi : p ≤ i) (hin : i ≤ n)
    (hskip : ∀ a, p ≤ a → a < i → str a ∈ delimiters) (hstop : i = n ∨ str i ∉ delimiters)
    (hfuel : i - p < fuel) : skipLoop delimiters n buf fuel p = some (decide (i = n), i) := by
  induction fuel generalizing p with
  | zero => exact absurd hfuel (not_lt_zero _)
  | succ fuel ih =>
    unfold skipLoop
    rw [hsame.load (by omega), Option.bind_some]
    rcases eq_or_lt_of_le hpi with rfl | hlt
    · by_cases hn : p = n
      · have hnull : str p = 0 := by rw [hn, hstr.ended]
        rw [if_pos ((strchr_isSome _ _).mpr (.inr hnull)), if_pos hnull, decide_eq_true hn]
      · have hno : ¬(strchr delimiters (str p)).isSome := fun h =>
          ((strchr_isSome _ _).mp h).elim (hstop.resolve_left hn) (hstr.inner p (by omega))
        rw [if_neg hno, decide_eq_false hn]
    · have hdel := hskip p (le_refl p) hlt
      rw [if_pos ((strchr_isSome _ _).mpr (.inl hdel)), if_neg (hstr.inner p (by omega))]
      exact ih (hsame.mono (le_succ p)) hlt (fun a ha => hskip a (by omega)) (by omega)

/-- **The second loop** goes to the end of the token. -/
theorem tokenLoop_run (hpj : p ≤ j) (hjn : j ≤ n)
    (hfree : ∀ a, p ≤ a → a < j → str a ∉ delimiters) (hend : j = n ∨ str j ∈ delimiters)
    (hfuel : j - p < fuel) : tokenLoop delimiters n buf fuel p = some j := by
  induction fuel generalizing p with
  | zero => exact absurd hfuel (not_lt_zero _)
  | succ fuel ih =>
    unfold tokenLoop
    rw [hsame.load (by omega), Option.bind_some]
    rcases eq_or_lt_of_le hpj with rfl | hlt
    · have hstop : ¬(strchr delimiters (str p)).isNone := fun h => by
        obtain ⟨hdel, hnull⟩ := (strchr_isNone _ _).mp h
        rcases hend with rfl | hend
        · exact hnull hstr.ended
        · exact hdel hend
      rw [if_neg hstop]
    · have hno := hfree p (le_refl p) hlt
      rw [if_pos ((strchr_isNone _ _).mpr ⟨hno, hstr.inner p (by omega)⟩)]
      exact ih (hsame.mono (le_succ p)) hlt (fun a ha => hfree a (by omega)) (by omega)

end Call

/-- Where the search for the next token begins after one that ends at `j`. -/
def resume (n j : ℕ) : ℕ := if j < n then j + 1 else n

/-- The string with its token ended at `j`. -/
def cutAt (n j : ℕ) (buf : ℕ → UInt8) (a : ℕ) : UInt8 := if a = j ∧ j < n then 0 else buf a

/-- **A call of `strtok_r`** with no token left. -/
theorem strtok_none (hstr : NullTerminated str n) (hs : s.getD save = p) (hp : p ≤ n)
    (hsame : SameFrom str n p buf) (hfuel : n < fuel)
    (hall : ∀ a, p ≤ a → a < n → str a ∈ delimiters) :
    strtokMem delimiters n fuel buf s save = some ⟨none, n, buf⟩ := by
  unfold strtokMem
  rw [hs, skipLoop_run hstr hsame hp (le_refl n) hall (.inl rfl) (by omega), decide_eq_true rfl]
  rfl

/-- **A call of `strtok_r`** that finds a token. -/
theorem strtok_next (hstr : NullTerminated str n) (hs : s.getD save = p)
    (hsame : SameFrom str n p buf) (hfuel : n < fuel) (h : NextToken delimiters str n p i j) :
    strtokMem delimiters n fuel buf s save = some ⟨some i, resume n j, cutAt n j buf⟩ := by
  obtain ⟨hpi, hij, hjn, hskip, hfree, hend⟩ := h
  have hstart := hfree i (le_refl i) hij
  unfold strtokMem
  rw [hs, skipLoop_run hstr hsame hpi (by omega) hskip (.inr hstart) (by omega),
    decide_eq_false (by omega), Option.bind_some]
  dsimp only
  rw [if_neg Bool.false_ne_true, tokenLoop_run hstr (hsame.mono hpi) (by omega) hjn hfree hend
    (by omega), Option.bind_some, (hsame.mono (by omega)).load hjn, Option.bind_some]
  by_cases hlt : j < n
  · have hcut : update buf j 0 = cutAt n j buf := by
      funext a
      unfold cutAt
      by_cases ha : a = j
      · subst ha
        rw [update_self, if_pos ⟨rfl, hlt⟩]
      · rw [update_of_ne ha, if_neg fun h => ha h.1]
    rw [if_pos (hstr.inner j hlt), hcut]
    unfold resume
    rw [if_pos hlt]
  · obtain rfl : j = n := by omega
    have hcut : cutAt j j buf = buf := by
      funext a
      unfold cutAt
      rw [if_neg fun h => hlt h.2]
    rw [if_neg (fun h => h hstr.ended), hcut]
    unfold resume
    rw [if_neg hlt]

theorem resume_spec (hjn : j ≤ n) :
    j ≤ resume n j ∧ (j < n → resume n j = j + 1) ∧ resume n j ≤ n := by
  unfold resume
  split <;> omega

/-- The string behind the token is left as it was. -/
theorem SameFrom.cutAt (h : SameFrom str n p buf) (hpj : p ≤ j) (hjn : j ≤ n) :
    SameFrom str n (resume n j) (cutAt n j buf) := by
  obtain ⟨hge, hnext, -⟩ := resume_spec hjn
  intro a ha han
  have hne : ¬(a = j ∧ j < n) := by
    rintro ⟨rfl, hlt⟩
    omega
  unfold Pintos.cutAt
  rw [if_neg hne]
  exact h a (by omega) han

/-! ## 3. All calls -/

theorem strtokCall_succ {c : TokCall} (hc : strtokMem delimiters n fuel buf s save = some c) : ∀ k,
    strtokCall delimiters n fuel buf s save (k + 1) =
      strtokCall delimiters n fuel c.buf none c.save k
  | 0 => by
    unfold strtokCall strtokCall
    rw [hc]
    rfl
  | k + 1 => by
    have ih := strtokCall_succ hc k
    unfold strtokCall
    rw [ih]

/-- No token lies, in whole or in part, in front of the position. -/
def AtBoundary (delimiters : List UInt8) (str : ℕ → UInt8) (n p : ℕ) : Prop :=
  p = 0 ∨ p = n ∨ str (p - 1) ∈ delimiters

/-- The string after its tokens `toks` have been ended. -/
def cutAll (n : ℕ) (toks : List (ℕ × ℕ)) (buf : ℕ → UInt8) (a : ℕ) : UInt8 :=
  if a < n ∧ ∃ t ∈ toks, t.2 = a then 0 else buf a

/-- **What the calls from position `p` return**: `toks` are the tokens from there on, in order. -/
structure Tokenizes (delimiters : List UInt8) (str : ℕ → UInt8) (n fuel p : ℕ)
    (toks : List (ℕ × ℕ)) : Prop where
  ordered : toks.Pairwise fun t t' => t.2 < t'.1
  tokens : ∀ i j, (i, j) ∈ toks ↔ IsToken delimiters str n i j ∧ p ≤ i
  calls : ∀ (buf : ℕ → UInt8) (s : Option ℕ) (save : ℕ), s.getD save = p →
    SameFrom str n p buf → ∀ k, ∃ c, strtokCall delimiters n fuel buf s save k = some c ∧
      c.token = (toks[k]?).map Prod.fst ∧ c.buf = cutAll n (toks.take (k + 1)) buf

theorem cutAll_nil (n : ℕ) (buf : ℕ → UInt8) : cutAll n [] buf = buf := by
  funext a
  unfold cutAll
  rw [if_neg (by simp)]

theorem cutAll_cons (n i j : ℕ) (toks : List (ℕ × ℕ)) (buf : ℕ → UInt8) :
    cutAll n ((i, j) :: toks) buf = cutAll n toks (cutAt n j buf) := by
  funext a
  unfold cutAll cutAt
  by_cases hin : a < n ∧ ∃ t ∈ toks, t.2 = a
  · obtain ⟨hlt, t, ht, rfl⟩ := hin
    rw [if_pos ⟨hlt, t, mem_cons_of_mem _ ht, rfl⟩, if_pos ⟨hlt, t, ht, rfl⟩]
  · have hiff : (a < n ∧ ∃ t ∈ (i, j) :: toks, t.2 = a) ↔ a = j ∧ j < n := by
      constructor
      · rintro ⟨hlt, t, ht, rfl⟩
        rcases mem_cons.mp ht with rfl | ht
        · exact ⟨rfl, hlt⟩
        · exact absurd ⟨hlt, t, ht, rfl⟩ hin
      · rintro ⟨rfl, hlt⟩
        exact ⟨hlt, _, mem_cons_self, rfl⟩
    rw [if_neg hin]
    simp only [hiff]

theorem tokenizes_nil (hstr : NullTerminated str n) (hp : p ≤ n) (hfuel : n < fuel)
    (hall : ∀ a, p ≤ a → a < n → str a ∈ delimiters) : Tokenizes delimiters str n fuel p [] := by
  refine ⟨List.Pairwise.nil, fun i j => ?_, fun buf s save hs hsame k => ?_⟩
  · refine iff_of_false not_mem_nil ?_
    rintro ⟨htok, hi⟩
    have hlt := htok.lt
    have hle := htok.le
    exact htok.free i (le_refl i) hlt (hall i hi (by omega))
  · -- the first call leaves the position at the end of the string, and the others find it there
    have hcall : strtokCall delimiters n fuel buf s save k = some ⟨none, n, buf⟩ := by
      induction k with
      | zero => exact strtok_none hstr hs hp hsame hfuel hall
      | succ k ih =>
        unfold strtokCall
        rw [ih, Option.bind_some]
        exact strtok_none hstr rfl (le_refl n) (hsame.mono hp) hfuel
          fun a ha hlt => absurd hlt (not_lt.mpr ha)
    exact ⟨_, hcall, by simp, by simp [cutAll_nil]⟩

theorem IsToken.stop_unique (h : IsToken delimiters str n i j)
    (h' : IsToken delimiters str n i j') : j = j' := by
  have hle : ∀ {j j' : ℕ}, IsToken delimiters str n i j → IsToken delimiters str n i j' →
      j' ≤ j := by
    intro j j' h h'
    by_contra hlt
    have hj' := h'.le
    have hij := h.lt
    exact h'.free j (by omega) (by omega) (h.right.resolve_left (by omega))
  exact le_antisymm (hle h' h) (hle h h')

theorem NextToken.isToken (h : NextToken delimiters str n p i j)
    (hb : AtBoundary delimiters str n p) : IsToken delimiters str n i j := by
  refine ⟨h.lt, h.le, h.free, ?_, h.right⟩
  have hij := h.lt
  have hjn := h.le
  rcases eq_or_lt_of_le h.start with rfl | hlt
  · rcases hb with rfl | rfl | hdel
    · exact .inl rfl
    · omega
    · exact .inr hdel
  · exact .inr (h.skipped (i - 1) (by omega) (by omega))

/-- One token is cut off, and the rest is tokenized from behind it. -/
theorem Tokenizes.cons (hstr : NullTerminated str n) {toks : List (ℕ × ℕ)} (hfuel : n < fuel)
    (hb : AtBoundary delimiters str n p) (hnext : NextToken delimiters str n p i j)
    (h : Tokenizes delimiters str n fuel (resume n j) toks) :
    Tokenizes delimiters str n fuel p ((i, j) :: toks) := by
  have htok := hnext.isToken hb
  obtain ⟨hpi, hij, hjn, hskip, hfree, hend⟩ := hnext
  have hresume := resume_spec hjn
  refine ⟨?_, fun i' j' => ?_, ?_⟩
  · refine pairwise_cons.mpr ⟨fun t ht => ?_, h.ordered⟩
    obtain ⟨ht', hge⟩ := (h.tokens t.1 t.2).mp ht
    have hlt := ht'.lt
    have hle := ht'.le
    omega
  · rw [mem_cons, h.tokens]
    constructor
    · rintro (heq | ⟨ht, hge⟩)
      · cases heq
        exact ⟨htok, hpi⟩
      · exact ⟨ht, by omega⟩
    · rintro ⟨ht, hge⟩
      have hlt := ht.lt
      have hle := ht.le
      -- the next token starts at `i`, or behind the delimiter at `j`
      have hi' : i ≤ i' := by
        by_contra hlt'
        exact ht.free i' (le_refl i') hlt (hskip i' hge (by omega))
      rcases eq_or_lt_of_le hi' with rfl | hgt
      · rw [htok.stop_unique ht]
        exact .inl rfl
      · refine .inr ⟨ht, ?_⟩
        have hdel : str (i' - 1) ∈ delimiters := ht.left.resolve_left (by omega)
        have hji : j ≤ i' - 1 := by
          by_contra hlt'
          exact hfree (i' - 1) (by omega) (by omega) hdel
        omega
  · intro buf s save hs hsame k
    have hrun := strtok_next hstr hs hsame hfuel ⟨hpi, hij, hjn, hskip, hfree, hend⟩
    rw [take_succ_cons, cutAll_cons]
    cases k with
    | zero => exact ⟨_, hrun, rfl, (cutAll_nil n _).symm⟩
    | succ k =>
      obtain ⟨c, hcall, hc, hcut⟩ := h.calls (cutAt n j buf) none (resume n j) rfl
        (hsame.cutAt (by omega) hjn) k
      exact ⟨c, (strtokCall_succ hrun k).trans hcall, by simpa using hc, hcut⟩

/-- **The tokens from a position on.** Every call goes further into the string. -/
theorem tokens_from (delimiters : List UInt8) (hstr : NullTerminated str n) (hfuel : n < fuel) :
    ∀ (d p : ℕ), p + d = n → AtBoundary delimiters str n p →
      ∃ toks, Tokenizes delimiters str n fuel p toks := by
  intro d
  induction d using Nat.strongRecOn with
  | _ d ih =>
    intro p hp hb
    rcases next_or_none delimiters str (p := p) (n := n) (by omega) with hall | ⟨i, j, hnext⟩
    · exact ⟨[], tokenizes_nil hstr (by omega) hfuel hall⟩
    · have hstart := hnext.start
      have hlt := hnext.lt
      have hresume := resume_spec hnext.le
      have hb' : AtBoundary delimiters str n (resume n j) := by
        unfold resume
        split
        · exact .inr (.inr (hnext.right.resolve_left (by omega)))
        · exact .inr (.inl rfl)
      obtain ⟨toks, h⟩ := ih (n - resume n j) (by omega) (resume n j) (by omega) hb'
      exact ⟨_, h.cons hstr hfuel hb hnext⟩

end Tokens

/-- **Tokenizing.** The calls return the maximal ranges of the string without a delimiter, in order and
    each ended by a null byte, and then null for ever. They go through, so they read nothing behind the
    string; they change only the byte behind a token they return. -/
theorem strtok_tokens (delimiters : List UInt8) (str : ℕ → UInt8) (n save fuel : ℕ)
    (hstr : NullTerminated str n) (hfuel : n < fuel) :
    ∃ toks : List (ℕ × ℕ), toks.Pairwise (fun t t' => t.2 < t'.1) ∧
      (∀ i j, (i, j) ∈ toks ↔ IsToken delimiters str n i j) ∧
      ∀ k, ∃ c, strtokCall delimiters n fuel str (some 0) save k = some c ∧
        c.token = (toks[k]?).map Prod.fst ∧
        (∀ t, toks[k]? = some t → (∀ a, t.1 ≤ a → a < t.2 → c.buf a = str a) ∧ c.buf t.2 = 0) ∧
        ∀ a, c.buf a ≠ str a → a < n ∧ str a ∈ delimiters ∧ c.buf a = 0 ∧
          ∃ t ∈ toks.take (k + 1), t.2 = a := by
  obtain ⟨toks, h⟩ := tokens_from delimiters hstr hfuel n 0 (zero_add n) (.inl rfl)
  have hmem : ∀ i j, (i, j) ∈ toks ↔ IsToken delimiters str n i j := fun i j => by
    rw [h.tokens]
    exact and_iff_left (zero_le i)
  refine ⟨toks, h.ordered, hmem, fun k => ?_⟩
  obtain ⟨c, hcall, htoken, hcut⟩ := h.calls str (some 0) save rfl (fun _ _ _ => rfl) k
  -- where the string is cut there was a delimiter
  have hcuts : ∀ a, (a < n ∧ ∃ t ∈ toks.take (k + 1), t.2 = a) → str a ∈ delimiters := by
    rintro a ⟨ha, t, ht, rfl⟩
    exact ((hmem t.1 t.2).mp (mem_of_mem_take ht)).right.resolve_left (Nat.ne_of_lt ha)
  refine ⟨c, hcall, htoken, fun t ht => ⟨fun a ha hat => ?_, ?_⟩, fun a ha => ?_⟩
  · have htok := (hmem t.1 t.2).mp (mem_of_getElem? ht)
    rw [hcut]
    unfold cutAll
    rw [if_neg fun hc => htok.free a ha hat (hcuts a hc)]
  · have htok := (hmem t.1 t.2).mp (mem_of_getElem? ht)
    rw [hcut]
    unfold cutAll
    rcases eq_or_lt_of_le htok.le with heq | hlt
    · rw [heq, if_neg fun hc => lt_irrefl n hc.1]
      exact hstr.ended
    · have htake : t ∈ toks.take (k + 1) := by
        refine mem_of_getElem? (i := k) ?_
        rw [List.getElem?_take_of_lt (lt_succ_self k)]
        exact ht
      rw [if_pos ⟨hlt, t, htake, rfl⟩]
  · rw [hcut] at ha ⊢
    by_cases hin : a < n ∧ ∃ t ∈ toks.take (k + 1), t.2 = a
    · exact ⟨hin.1, hcuts a hin, if_pos hin, hin.2⟩
    · exact absurd (if_neg hin) ha

/-- The string `a,,b` with the delimiter `,`: the second call. -/
theorem strtok_tokens_commas : ∃ toks : List (ℕ × ℕ), ∃ c,
    strtokCall [44] 4 5 (fun a => [97, 44, 44, 98].getD a 0) (some 0) 0 1 = some c ∧
      c.token = (toks[1]?).map Prod.fst := by
  have hstr : NullTerminated (fun a => [97, 44, 44, 98].getD a 0) 4 := ⟨by decide, by decide⟩
  obtain ⟨toks, -, -, hcalls⟩ := strtok_tokens [44] (fun a => [97, 44, 44, 98].getD a 0) 4 0 5 hstr
    (by decide)
  obtain ⟨c, hcall, htoken, -⟩ := hcalls 1
  exact ⟨toks, c, hcall, htoken⟩

end Pintos
