import Chickadee.Impl.Compact

/-!
This module contains the order of the names of `SSTable`s: below `10 ^ 20` it is the order of the
timestamps.
-/

namespace Chickadee

def padded (w n : Nat) : List Char :=
  (Nat.toDigits 10 n).leftpad w '0'

theorem padded_of_lt_ten {w n : Nat} (h : n < 10) :
    padded (w + 1) n = List.replicate w '0' ++ [n.digitChar] := by
  simp [padded, Nat.toDigits_of_lt_base h, List.leftpad]

theorem padded_succ (w n : Nat) :
    padded (w + 2) n = padded (w + 1) (n / 10) ++ [(n % 10).digitChar] := by
  by_cases hn : n < 10
  . rw [padded_of_lt_ten hn, Nat.div_eq_of_lt hn, Nat.mod_eq_of_lt hn, padded_of_lt_ten (by decide),
      List.replicate_succ']
    rfl
  . rw [padded, Nat.toDigits_of_base_le (by decide) (Nat.not_lt.mp hn)]
    simp [padded, List.leftpad]

theorem length_padded {w n : Nat} (h : n < 10 ^ (w + 1)) : (padded (w + 1) n).length = w + 1 := by
  induction w generalizing n with
  | zero => rw [padded_of_lt_ten (by simpa using h)]; rfl
  | succ w ih =>
    rw [padded_succ, List.length_append, ih]
    . rfl
    . rw [Nat.div_lt_iff_lt_mul (by decide), ← Nat.pow_succ]
      exact h

theorem digitChar_lt {a b : Nat} (h : a < b) (hb : b < 10) : a.digitChar < b.digitChar := by
  have : ∀ b : Fin 10, ∀ a : Fin 10, a < b → a.val.digitChar < b.val.digitChar := by decide
  exact this ⟨b, hb⟩ ⟨a, by omega⟩ h

theorem append_lt_append {l l' : List Char} (hlen : l.length = l'.length) (h : l < l')
    (r r' : List Char) : l ++ r < l' ++ r' := by
  induction l generalizing l' with
  | nil =>
    cases l' with
    | nil => exact absurd h (lt_irrefl _)
    | cons x l' => contradiction
  | cons x l ih =>
    cases l' with
    | nil => contradiction
    | cons x' l' =>
      rw [List.cons_append, List.cons_append, List.cons_lt_cons_iff]
      cases List.cons_lt_cons_iff.mp h with
      | inl hlt => exact Or.inl hlt
      | inr heq => exact Or.inr ⟨heq.1, ih (by simpa using hlen) heq.2⟩

theorem padded_lt {w a b : Nat} (h : a < b) (hb : b < 10 ^ (w + 1)) :
    padded (w + 1) a < padded (w + 1) b := by
  induction w generalizing a b with
  | zero =>
    have hb : b < 10 := by simpa using hb
    rw [padded_of_lt_ten (by omega), padded_of_lt_ten hb]
    exact List.cons_lt_cons_iff.mpr (Or.inl (digitChar_lt h hb))
  | succ w ih =>
    have hdiv : ∀ n < 10 ^ (w + 2), n / 10 < 10 ^ (w + 1) := by
      intro n hn
      rw [Nat.div_lt_iff_lt_mul (by decide), ← Nat.pow_succ]
      exact hn
    rw [padded_succ, padded_succ]
    by_cases heq : a / 10 = b / 10
    . rw [heq]
      apply List.append_left_lt
      exact List.cons_lt_cons_iff.mpr (Or.inl (digitChar_lt (by omega) (by omega)))
    . apply append_lt_append
      . rw [length_padded (hdiv a (h.trans hb)), length_padded (hdiv b hb)]
      . exact ih (by omega) (hdiv b hb)

namespace MemTable

theorem toList_fileName (ts : Nat) : (fileName ts).toList = padded 20 ts ++ ".sst".toList := by
  simp only [fileName, String.toList_append, String.toList_ofList, padded]

theorem fileName_lt {a b : Nat} (h : a < b) (hb : b < 10 ^ 20) : fileName a < fileName b := by
  rw [String.lt_iff_toList_lt, toList_fileName, toList_fileName]
  apply append_lt_append
  . rw [length_padded (w := 19) (h.trans hb), length_padded (w := 19) hb]
  . exact padded_lt (w := 19) h hb

theorem fileName_lt_iff {a b : Nat} (ha : a < 10 ^ 20) (hb : b < 10 ^ 20) :
    fileName a < fileName b ↔ a < b := by
  constructor
  . intro h
    by_contra hge
    cases Nat.lt_or_eq_of_le (Nat.not_lt.mp hge) with
    | inl hlt => exact lt_asymm h (fileName_lt hlt ha)
    | inr heq =>
      rw [heq] at h
      exact lt_irrefl _ h
  . intro h
    exact fileName_lt h hb

/--
The name tells the timestamp, however many digits it has.
-/
theorem fileName_injective : Function.Injective fileName := by
  intro a b h
  have hdigits : ∀ n, Nat.ofDigitChars 10 (padded 20 n) 0 = n := by
    intro n
    rw [padded, List.leftpad, Nat.ofDigitChars_append, Nat.ofDigitChars_replicate_zero,
      Nat.mul_zero, Nat.ofDigitChars_ten_toDigits]
  have hlist := congrArg String.toList h
  rw [toList_fileName, toList_fileName, List.append_left_inj] at hlist
  rw [← hdigits a, hlist, hdigits b]

end MemTable

end Chickadee
