import Mathlib.Tactic

/-!
# Byte ranges and blocks

Storage cut into blocks of one size: which blocks a range of bytes has a byte in common with.
-/

namespace Rfsck
namespace Storage

/-- The byte range from `lo` on of length `n` has a byte in common with a block. -/
def Meets (size lo n b : Nat) : Prop :=
  ∃ i, lo ≤ i ∧ i < lo + n ∧ b * size ≤ i ∧ i < (b + 1) * size

theorem meets_iff {size : Nat} (hpos : 0 < size) (lo n b : Nat) :
    Meets size lo n b ↔
      0 < n ∧ lo / size ≤ b ∧ b ≤ (lo + n - 1) / size := by
  constructor
  · rintro ⟨i, hlo, hhi, hb, hb'⟩
    have hi : i / size = b := Nat.div_eq_of_lt_le hb hb'
    refine ⟨by omega, ?_, ?_⟩
    · rw [← hi]
      exact Nat.div_le_div_right hlo
    · rw [← hi]
      exact Nat.div_le_div_right (by omega)
  · rintro ⟨hn, hb, hb'⟩
    have hfirst : lo < (b + 1) * size := (Nat.div_lt_iff_lt_mul hpos).mp (by omega)
    have hlast : b * size ≤ lo + n - 1 := (Nat.le_div_iff_mul_le hpos).mp hb'
    have hblock : (b + 1) * size = b * size + size := by
      ring
    exact ⟨max lo (b * size), by omega, by omega, by omega, by omega⟩

end Storage
end Rfsck
