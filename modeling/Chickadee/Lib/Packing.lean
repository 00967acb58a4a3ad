import Mathlib

/-!
This module contains the way to cut a list into parts one after the other, where a part is closed with
the element that makes it heavier than a limit.
-/

namespace Packing

variable {α : Type} (weight : α → Nat) (limit : Nat)

def total (as : List α) : Nat :=
  (as.map weight).sum

-- the parts of `part ++ as`, of which `part` has not been closed
def parts : List α → List α → List (List α)
  | part, [] => if part.isEmpty then [] else [part]
  | part, a :: as =>
    if limit < total weight (part ++ [a]) then
      (part ++ [a]) :: parts [] as
    else
      parts (part ++ [a]) as

variable {weight limit} {part : List α}

theorem total_append (as as' : List α) :
    total weight (as ++ as') = total weight as + total weight as' := by
  unfold total
  rw [List.map_append, List.sum_append]

theorem parts_of_ne_nil (h : part ≠ []) : parts weight limit part [] = [part] := by
  unfold parts
  rw [if_neg (by simpa using h)]

theorem parts_of_lt {a : α} (h : limit < total weight (part ++ [a])) (as : List α) :
    parts weight limit part (a :: as) = (part ++ [a]) :: parts weight limit [] as :=
  if_pos h

theorem parts_of_le {a : α} (h : total weight (part ++ [a]) ≤ limit) (as : List α) :
    parts weight limit part (a :: as) = parts weight limit (part ++ [a]) as :=
  if_neg (Nat.not_lt.mpr h)

theorem flatten_parts (part as : List α) : (parts weight limit part as).flatten = part ++ as := by
  induction as generalizing part with
  | nil =>
    unfold parts
    cases part with
    | nil => rfl
    | cons a part => rfl
  | cons a as ih =>
    unfold parts
    split
    . rw [List.flatten_cons, ih, List.nil_append, List.append_assoc]
      rfl
    . rw [ih, List.append_assoc]
      rfl

theorem lt_of_mem_dropLast {as p : List α} (h : p ∈ (parts weight limit part as).dropLast) :
    limit < total weight p := by
  induction as generalizing part with
  | nil =>
    unfold parts at h
    split at h <;> contradiction
  | cons a as ih =>
    unfold parts at h
    split at h
    . next hlt =>
      cases hrest : parts weight limit [] as with
      | nil =>
        rw [hrest] at h
        contradiction
      | cons q rest =>
        rw [hrest, List.dropLast_cons_of_ne_nil (List.cons_ne_nil _ _), ← hrest] at h
        cases List.mem_cons.mp h with
        | inl heq =>
          rw [heq]
          exact hlt
        | inr hmem => exact ih hmem
    . exact ih h

theorem total_flatten (ps : List (List α)) :
    total weight ps.flatten = (ps.map (total weight)).sum := by
  induction ps with
  | nil => rfl
  | cons p ps ih => rw [List.flatten_cons, total_append, ih, List.map_cons, List.sum_cons]

theorem length_parts_le (as : List α) :
    ((parts weight limit [] as).length - 1) * (limit + 1) ≤ total weight as := by
  have hflatten : (parts weight limit [] as).flatten = as := flatten_parts [] as
  have hlight : ∀ p ∈ (parts weight limit [] as).dropLast, limit < total weight p :=
    fun p hp => lt_of_mem_dropLast hp
  generalize parts weight limit [] as = ps at hflatten hlight ⊢
  have hfull : ∀ n ∈ ps.dropLast.map (total weight), limit + 1 ≤ n := by
    intro n hn
    rcases List.mem_map.mp hn with ⟨p, hp, rfl⟩
    exact hlight p hp
  have hcard := List.card_nsmul_le_sum _ _ hfull
  rw [smul_eq_mul, List.length_map, List.length_dropLast] at hcard
  have hsum : (ps.dropLast.map (total weight)).sum ≤ (ps.map (total weight)).sum :=
    ((List.dropLast_sublist ps).map _).sum_le_sum fun _ _ => Nat.zero_le _
  calc (ps.length - 1) * (limit + 1)
    _ ≤ (ps.dropLast.map (total weight)).sum := hcard
    _ ≤ (ps.map (total weight)).sum := hsum
    _ = total weight as := by rw [← total_flatten, hflatten]

end Packing
