/-
  Subject:   `memmove` of lib/string.c.

  Addresses are words of 32 bits, and a pointer that is moved past the last byte of memory wraps to
  zero, which both loops may do on their way.

  **`memmove_contract`**: the bytes always arrive, but `return dst;` returns the cursor of the loop, and
  only the backward loop brings it back to the start.
-/
import Mathlib.Tactic.Linarith

namespace Pintos

open Function BitVec

/-- The bytes of the address space. -/
abbrev ByteMem := BitVec 32 → UInt8

/-! ## 1. The code -/

/-- `while (size-- > 0) *dst++ = *src++;` with the cursor it leaves in `dst`. -/
def forwardLoop : ℕ → ByteMem → BitVec 32 → BitVec 32 → ByteMem × BitVec 32
  | 0, mem, dst, _ => (mem, dst)
  | size + 1, mem, dst, src =>
    forwardLoop size (update mem dst (mem src)) (dst + 1) (src + 1)

/-- `while (size-- > 0) *--dst = *--src;`. -/
def backwardLoop : ℕ → ByteMem → BitVec 32 → BitVec 32 → ByteMem × BitVec 32
  | 0, mem, dst, _ => (mem, dst)
  | size + 1, mem, dst, src =>
    backwardLoop size (update mem (dst - 1) (mem (src - 1))) (dst - 1) (src - 1)

/-- `memmove`: memory and the returned pointer. `none`: an assertion fails. -/
def memmove (mem : ByteMem) (dst src size : BitVec 32) : Option (ByteMem × BitVec 32) :=
  if (dst ≠ 0 ∨ size = 0) ∧ (src ≠ 0 ∨ size = 0) then
    if dst < src then some (forwardLoop size.toNat mem dst src)
    else some (backwardLoop size.toNat mem (dst + size) (src + size))
  else none

/-! ## 2. The loops -/

section Loops

theorem ofNat_ne {a b : ℕ} (ha : a < 2 ^ 32) (hb : b < 2 ^ 32) (hne : a ≠ b) :
    BitVec.ofNat 32 a ≠ BitVec.ofNat 32 b := by
  intro e
  have he := congrArg BitVec.toNat e
  rw [toNat_ofNat, toNat_ofNat, Nat.mod_eq_of_lt ha, Nat.mod_eq_of_lt hb] at he
  exact hne he

/-- **What a copy of `n` bytes from `s` to `d` is to do**, leaving the cursor at `c`. -/
structure Copied (n d s c : ℕ) (mem : ByteMem) (r : ByteMem × BitVec 32) : Prop where
  cursor : r.2 = BitVec.ofNat 32 c
  moved : ∀ i < n, r.1 (BitVec.ofNat 32 (d + i)) = mem (BitVec.ofNat 32 (s + i))
  frame : ∀ a, (∀ i < n, a ≠ BitVec.ofNat 32 (d + i)) → r.1 a = mem a

theorem forwardLoop_spec : ∀ (n d s : ℕ) (mem : ByteMem), d < s → s + n ≤ 2 ^ 32 →
    Copied n d s (d + n) mem (forwardLoop n mem (BitVec.ofNat 32 d) (BitVec.ofNat 32 s))
  | 0, d, s, mem, _, _ => ⟨rfl, fun i hi => absurd hi (Nat.not_lt_zero i), fun a _ => rfl⟩
  | n + 1, d, s, mem, hds, hs => by
    have hd1 : BitVec.ofNat 32 d + 1 = BitVec.ofNat 32 (d + 1) := (ofNat_add ..).symm
    have hs1 : BitVec.ofNat 32 s + 1 = BitVec.ofNat 32 (s + 1) := (ofNat_add ..).symm
    have ih := forwardLoop_spec n (d + 1) (s + 1)
      (update mem (BitVec.ofNat 32 d) (mem (BitVec.ofNat 32 s))) (by omega) (by omega)
    unfold forwardLoop
    rw [hd1, hs1]
    refine ⟨?_, fun i hi => ?_, fun a ha => ?_⟩
    · rw [ih.cursor, Nat.add_right_comm, Nat.add_assoc]
    · cases i with
      | zero =>
        -- the byte just written is not written again
        have hout : ∀ i < n, BitVec.ofNat 32 d ≠ BitVec.ofNat 32 (d + 1 + i) :=
          fun i hi => ofNat_ne (by omega) (by omega) (by omega)
        exact (ih.frame _ hout).trans (update_self ..)
      | succ i =>
        have hread : BitVec.ofNat 32 (s + 1 + i) ≠ BitVec.ofNat 32 d :=
          ofNat_ne (by omega) (by omega) (by omega)
        have hmoved := ih.moved i (by omega)
        rw [update_of_ne hread] at hmoved
        rw [← Nat.add_assoc, ← Nat.add_assoc, Nat.add_right_comm d i 1,
          Nat.add_right_comm s i 1]
        exact hmoved
    · have hout : ∀ i < n, a ≠ BitVec.ofNat 32 (d + 1 + i) := by
        intro i hi
        have hne := ha (i + 1) (by omega)
        rwa [← Nat.add_assoc, Nat.add_right_comm] at hne
      exact (ih.frame a hout).trans (update_of_ne (ha 0 (by omega)) ..)

theorem backwardLoop_spec : ∀ (n d s : ℕ) (mem : ByteMem), s ≤ d → d + n ≤ 2 ^ 32 →
    Copied n d s d mem
      (backwardLoop n mem (BitVec.ofNat 32 (d + n)) (BitVec.ofNat 32 (s + n)))
  | 0, d, s, mem, _, _ => ⟨rfl, fun i hi => absurd hi (Nat.not_lt_zero i), fun a _ => rfl⟩
  | n + 1, d, s, mem, hsd, hd => by
    have hback : ∀ k, BitVec.ofNat 32 (k + (n + 1)) - 1 = BitVec.ofNat 32 (k + n) := by
      intro k
      rw [← Nat.add_assoc, ofNat_add (k + n) 1]
      exact add_sub_cancel ..
    have ih := backwardLoop_spec n d s (update mem (BitVec.ofNat 32 (d + n))
      (mem (BitVec.ofNat 32 (s + n)))) hsd (by omega)
    unfold backwardLoop
    rw [hback, hback]
    refine ⟨ih.cursor, fun i hi => ?_, fun a ha => ?_⟩
    · rcases Nat.lt_succ_iff_lt_or_eq.mp hi with hlt | rfl
      · have hread : BitVec.ofNat 32 (s + i) ≠ BitVec.ofNat 32 (d + n) :=
          ofNat_ne (by omega) (by omega) (by omega)
        rw [ih.moved i hlt, update_of_ne hread]
      · have hout : ∀ j < i, BitVec.ofNat 32 (d + i) ≠ BitVec.ofNat 32 (d + j) :=
          fun j hj => ofNat_ne (by omega) (by omega) (by omega)
        rw [ih.frame _ hout, update_self]
    · rw [ih.frame a fun i hi => ha i (by omega), update_of_ne (ha n (by omega))]

end Loops

/-! ## 3. The contract -/

/-- **The contract of `memmove`**: it returns, the bytes are those that were at `src`, no other byte
    has changed, and the pointer is `dst`. -/
def Moved (mem : ByteMem) (dst src size : BitVec 32) (r : Option (ByteMem × BitVec 32)) : Prop :=
  ∃ mem', r = some (mem', dst) ∧
    (∀ i < size.toNat, mem' (dst + BitVec.ofNat 32 i) = mem (src + BitVec.ofNat 32 i)) ∧
    ∀ a, (∀ i < size.toNat, a ≠ dst + BitVec.ofNat 32 i) → mem' a = mem a

theorem Copied.contract {mem : ByteMem} {dst src size : BitVec 32} {c : ℕ}
    {r : ByteMem × BitVec 32} (h : Copied size.toNat dst.toNat src.toNat c mem r) :
    Moved mem dst src size (some r) ↔ r.2 = dst := by
  have hadd : ∀ (p : BitVec 32) (i : ℕ), BitVec.ofNat 32 (p.toNat + i) = p + BitVec.ofNat 32 i := by
    intro p i
    rw [ofNat_add, ofNat_toNat, setWidth_eq]
  constructor
  · rintro ⟨mem', e, -, -⟩
    rw [Option.some.inj e]
  · intro hr
    refine ⟨r.1, ?_, fun i hi => ?_, fun a ha => ?_⟩
    · rw [← hr]
    · rw [← hadd, ← hadd]
      exact h.moved i hi
    · refine h.frame a fun i hi => ?_
      rw [hadd]
      exact ha i hi

/-- **`memmove` and its contract**, for ranges that lie in the address space: the pointer it returns is
    `dst` unless it copies something downwards. -/
theorem memmove_contract (mem : ByteMem) (dst src size : BitVec 32)
    (hdst : dst.toNat + size.toNat ≤ 2 ^ 32) (hsrc : src.toNat + size.toNat ≤ 2 ^ 32) :
    Moved mem dst src size (memmove mem dst src size) ↔
      size = 0 ∨ (dst ≠ 0 ∧ src ≠ 0 ∧ src ≤ dst) := by
  have hofNat : ∀ p : BitVec 32, BitVec.ofNat 32 p.toNat = p := fun p => by
    rw [ofNat_toNat, setWidth_eq]
  have hadd : ∀ p : BitVec 32, BitVec.ofNat 32 (p.toNat + size.toNat) = p + size := fun p => by
    rw [ofNat_add, hofNat, hofNat]
  unfold memmove
  split
  · rename_i hassert
    split
    · -- the forward loop leaves the cursor behind the range
      rename_i hlt
      have hcopy := forwardLoop_spec size.toNat dst.toNat src.toNat mem hlt hsrc
      rw [hofNat, hofNat] at hcopy
      rw [hcopy.contract, hcopy.cursor, hadd]
      constructor
      · intro e
        exact .inl (BitVec.add_right_eq_self.mp e)
      · rintro (rfl | ⟨-, -, hle⟩)
        · exact BitVec.add_zero dst
        · exact absurd hlt (BitVec.not_lt.mpr hle)
    · rename_i hle
      have hle' : src ≤ dst := BitVec.not_lt.mp hle
      have hcopy := backwardLoop_spec size.toNat dst.toNat src.toNat mem hle' hdst
      rw [hadd, hadd] at hcopy
      rw [hcopy.contract, hcopy.cursor, hofNat]
      refine iff_of_true rfl ?_
      by_cases hsize : size = 0
      · exact .inl hsize
      · exact .inr ⟨hassert.1.resolve_right hsize, hassert.2.resolve_right hsize, hle'⟩
  · rename_i hassert
    refine iff_of_false (fun ⟨_, e, _⟩ => by cases e) ?_
    rintro (hsize | ⟨hd, hs, -⟩)
    · exact hassert ⟨.inr hsize, .inr hsize⟩
    · exact hassert ⟨.inl hd, .inl hs⟩

theorem memmove_contract_overlap : Moved (fun a => UInt8.ofNat a.toNat) 9 8 4
    (memmove (fun a => UInt8.ofNat a.toNat) 9 8 4) :=
  (memmove_contract (fun a => UInt8.ofNat a.toNat) 9 8 4 (by decide) (by decide)).mpr
    (.inr (by decide))

/-- One byte moved from 8 to 4: the pointer returned is 5. -/
theorem memmove_cursor : ¬Moved (fun _ => 0) 4 8 1 (memmove (fun _ => 0) 4 8 1) := by
  rintro ⟨mem', e, -, -⟩
  have hptr : (memmove (fun _ => 0) 4 8 1).map Prod.snd = some 4 := by rw [e, Option.map_some]
  revert hptr
  decide

end Pintos
