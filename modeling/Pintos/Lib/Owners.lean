/-
  Subject:   Owners of cells that an allocator hands out, and the marks by which it knows which are
             taken.

  Every owner `i` that is live owns the cells `k` with `owns i k`. `Owners live owns marked` says that
  no two live owners share a cell and that all their cells are marked. A marked cell without an owner
  is lost, which is no harm to the others.
-/
import Mathlib.Tactic.Linarith

namespace Pintos.Lib

variable {ι κ : Type*}

/-- **No two live owners share a cell, and their cells are marked.** -/
structure Owners (live : ι → Prop) (owns : ι → κ → Prop) (marked : κ → Prop) : Prop where
  apart : ∀ i j k, live i → live j → owns i k → owns j k → i = j
  marked : ∀ i k, live i → owns i k → marked k

namespace Owners

variable {live live' : ι → Prop} {owns owns' : ι → κ → Prop} {marked marked' : κ → Prop}

section

variable (h : Owners live owns marked)

include h

theorem shrink (hl : ∀ i, live' i → live i) : Owners live' owns marked where
  apart i j k hi hj := h.apart i j k (hl i hi) (hl j hj)
  marked i k hi := h.marked i k (hl i hi)

theorem congr (ho : ∀ i k, live i → owns' i k → owns i k) : Owners live owns' marked where
  apart i j k hi hj hik hjk := h.apart i j k hi hj (ho i k hi hik) (ho j k hj hjk)
  marked i k hi hik := h.marked i k hi (ho i k hi hik)

theorem unowned {i : ι} {k : κ} (hi : live i) (hk : ¬ marked k) : ¬ owns i k :=
  fun hik => hk (h.marked i k hi hik)

theorem unmark
    (hm : ∀ i k, live i → owns i k → marked k → marked' k) : Owners live owns marked' where
  apart := h.apart
  marked i k hi hik := hm i k hi hik (h.marked i k hi hik)

theorem add {n : ι} (hl : ∀ i, live' i → live i ∨ i = n)
    (hm : ∀ k, owns n k → marked k) (hn : ∀ i k, live i → owns n k → ¬ owns i k) :
    Owners live' owns marked where
  apart i j k hi hj hik hjk := by
    rcases hl i hi with hi' | rfl
    · rcases hl j hj with hj' | rfl
      · exact h.apart i j k hi' hj' hik hjk
      · exact absurd hik (hn i k hi' hjk)
    · rcases hl j hj with hj' | rfl
      · exact absurd hjk (hn j k hj' hik)
      · rfl
  marked i k hi hik := by
    rcases hl i hi with hi' | rfl
    · exact h.marked i k hi' hik
    · exact hm k hik

end

end Owners

end Pintos.Lib
