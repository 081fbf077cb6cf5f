import Mathlib

/-! Decimal numbers padded with zeros, and their order as strings. -/
namespace Library.Padded

def zeroPadded (width n : Nat) : String := String.ofList (List.leftpad width '0' (Nat.toDigits 10 n))

private def lowDigits : Nat → Nat → List Char
  | 0, _ => []
  | width + 1, n => lowDigits width (n / 10) ++ [Nat.digitChar (n % 10)]

private theorem lowDigits_zero (width : Nat) : lowDigits width 0 = List.replicate width '0' := by
  induction width with
  | zero => rfl
  | succ width ih => rw [lowDigits, Nat.zero_div, ih, List.replicate_succ']; rfl

theorem leftpad_toDigits {width n : Nat} (hwidth : 0 < width) (hn : n < 10 ^ width) :
    List.leftpad width '0' (Nat.toDigits 10 n) = lowDigits width n := by
  induction width generalizing n with
  | zero => omega
  | succ width ih =>
    by_cases hlow : n < 10
    · rw [Nat.toDigits_of_lt_base hlow, lowDigits, Nat.div_eq_of_lt hlow, lowDigits_zero, Nat.mod_eq_of_lt hlow]
      rfl
    · have hpos : 0 < width := Nat.pos_of_ne_zero fun h => hlow (by simpa [h] using hn)
      have hdiv : n / 10 < 10 ^ width := Nat.div_lt_of_lt_mul (by rwa [Nat.pow_succ, Nat.mul_comm] at hn)
      rw [Nat.toDigits_of_base_le (by decide) (by omega), lowDigits, ← ih hpos hdiv]
      simp [List.leftpad]

private theorem digitChar_lt : ∀ b < 10, ∀ a < b, Nat.digitChar a < Nat.digitChar b := by decide

variable {width a b : Nat}

private theorem lowDigits_append_lt (h : a < b) (hb : b < 10 ^ width) (xs ys : List Char) :
    lowDigits width a ++ xs < lowDigits width b ++ ys := by
  induction width generalizing a b xs ys with
  | zero => simp at hb; omega
  | succ width ih =>
    simp only [lowDigits, List.append_assoc]
    rcases Nat.lt_or_ge (a / 10) (b / 10) with hlt | hge
    · exact ih hlt (Nat.div_lt_of_lt_mul (by rwa [Nat.pow_succ, Nat.mul_comm] at hb)) _ _
    · have heq : a / 10 = b / 10 := by omega
      rw [heq]
      exact List.append_left_lt (List.cons_lt_cons_iff.mpr (.inl (digitChar_lt _ (by omega) _ (by omega))))

/-- While they fit the width, padded numbers compare as strings like the numbers, whatever follows them. -/
theorem zeroPadded_append_lt (h : a < b) (hb : b < 10 ^ width) (s t : String) :
    zeroPadded width a ++ s < zeroPadded width b ++ t := by
  have hwidth : 0 < width := Nat.pos_of_ne_zero fun hzero => by simp [hzero] at hb; omega
  rw [String.lt_iff_toList_lt, String.toList_append, String.toList_append, zeroPadded, zeroPadded, String.toList_ofList,
    String.toList_ofList, leftpad_toDigits hwidth (h.trans hb), leftpad_toDigits hwidth hb]
  exact lowDigits_append_lt h hb _ _

end Library.Padded
