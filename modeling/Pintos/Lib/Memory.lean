/-
  Subject:   A memory of numbered cells, and one of bytes that is also read and written in
             little-endian 32-bit words.

  What was stored is there, and what lies apart from the range a write touches is not changed.
-/
import Mathlib.Tactic.Linarith

namespace Pintos.Lib

/-! ## 1. Cells -/

section Cells

variable {α : Type*}

/-- The cells from `a` on are overwritten. -/
def store (m : ℕ → α) (a : ℕ) (bs : List α) (k : ℕ) : α :=
  if a ≤ k then (bs[k - a]?).getD (m k) else m k

/-- **What lies in a range.** -/
def Holds (m : ℕ → α) (a : ℕ) (bs : List α) : Prop :=
  ∀ j (h : j < bs.length), m (a + j) = bs[j]

variable {m m' : ℕ → α} {a k : ℕ} {bs : List α}

theorem store_of_le (h : a + bs.length ≤ k) : store m a bs k = m k := by
  unfold store
  split
  · rw [List.getElem?_eq_none (by omega), Option.getD_none]
  · rfl

theorem holds_store : Holds (store m a bs) a bs := by
  intro j hj
  unfold store
  rw [if_pos (Nat.le_add_right a j), Nat.add_sub_cancel_left, List.getElem?_eq_getElem hj,
    Option.getD_some]

theorem Holds.congr (h : Holds m a bs)
    (he : ∀ k, a ≤ k → k < a + bs.length → m' k = m k) : Holds m' a bs := by
  intro j hj
  rw [he (a + j) (Nat.le_add_right a j) (by omega)]
  exact h j hj

end Cells

/-! ## 2. Words -/

/-- The little-endian word at `a`. -/
def word (m : ℕ → UInt8) (a : ℕ) : ℕ :=
  (m a).toNat + 256 * (m (a + 1)).toNat + 65536 * (m (a + 2)).toNat
    + 16777216 * (m (a + 3)).toNat

/-- The memory with the word `v` at `a`. -/
def setWord (m : ℕ → UInt8) (a v : ℕ) (x : ℕ) : UInt8 :=
  if x = a then UInt8.ofNat v
  else if x = a + 1 then UInt8.ofNat (v / 256)
  else if x = a + 2 then UInt8.ofNat (v / 65536)
  else if x = a + 3 then UInt8.ofNat (v / 16777216)
  else m x

variable {m m' : ℕ → UInt8} {a b v x n : ℕ}

theorem word_lt (m : ℕ → UInt8) (a : ℕ) : word m a < 2 ^ 32 := by
  have h0 := (m a).toNat_lt
  have h1 := (m (a + 1)).toNat_lt
  have h2 := (m (a + 2)).toNat_lt
  have h3 := (m (a + 3)).toNat_lt
  unfold word
  omega

theorem word_congr (h : ∀ x, a ≤ x → x < a + 4 → m' x = m x) : word m' a = word m a := by
  unfold word
  rw [h a (by omega) (by omega), h (a + 1) (by omega) (by omega), h (a + 2) (by omega) (by omega),
    h (a + 3) (by omega) (by omega)]

/-- **What was written is read.** -/
theorem word_setWord (hv : v < 2 ^ 32) : word (setWord m a v) a = v := by
  have h0 : setWord m a v a = UInt8.ofNat v := if_pos rfl
  have h1 : setWord m a v (a + 1) = UInt8.ofNat (v / 256) := by simp [setWord]
  have h2 : setWord m a v (a + 2) = UInt8.ofNat (v / 65536) := by simp [setWord]
  have h3 : setWord m a v (a + 3) = UInt8.ofNat (v / 16777216) := by simp [setWord]
  unfold word
  rw [h0, h1, h2, h3]
  simp only [UInt8.toNat_ofNat']
  omega

/-- **Frame**: a byte outside the word. -/
theorem setWord_apart (h : x < a ∨ a + 4 ≤ x) : setWord m a v x = m x := by
  unfold setWord
  rw [if_neg (by omega), if_neg (by omega), if_neg (by omega), if_neg (by omega)]

theorem word_setWord_apart (h : b + 4 ≤ a ∨ a + 4 ≤ b) : word (setWord m a v) b = word m b :=
  word_congr fun _ _ _ => setWord_apart (by omega)

/-! ## 3. Ranges -/

/-- `n` bytes at `a` set to `v`. -/
def fill (m : ℕ → UInt8) (a : ℕ) (v : UInt8) (n x : ℕ) : UInt8 :=
  if a ≤ x ∧ x < a + n then v else m x

/-- `n` bytes at `a` taken from `src`. -/
def copy (m : ℕ → UInt8) (a src n x : ℕ) : UInt8 :=
  if a ≤ x ∧ x < a + n then m (x - a + src) else m x

theorem fill_apart {v : UInt8} (h : x < a ∨ a + n ≤ x) : fill m a v n x = m x :=
  if_neg (by omega)

variable {j src : ℕ}

theorem copy_apart (h : x < a ∨ a + n ≤ x) : copy m a src n x = m x :=
  if_neg (by omega)

theorem copy_at (h : j < n) : copy m a src n (a + j) = m (src + j) := by
  unfold copy
  rw [if_pos ⟨Nat.le_add_right a j, by omega⟩]
  congr 1
  omega

end Pintos.Lib
