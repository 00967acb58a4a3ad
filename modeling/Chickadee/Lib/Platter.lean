import Chickadee.Lib.Faulty

/-!
This module contains what a loss of power leaves of a file: what the file held at some moment since it
was last synced, or what it held on the way from one such moment to the next.
-/

namespace Platter

open Faulty

-- a part of a disk that has a call of its own to sync it
structure Area (κ δ β : Type) where
  get? : δ → Option (List β)
  sync : κ

namespace Area

variable {κ δ β : Type}

def Syncs (a : Area κ δ β) (faults : Nat → Option Nat) (call : κ) (history : List (Step κ δ)) : Prop :=
  call = a.sync ∧ faults history.length = none

/--
`bytes` is what may remain of the area when the power is lost on `d`, where the calls so far are
`history`. What was there before the area was created does not come back.
-/
inductive Remains (a : Area κ δ β) (faults : Nat → Option Nat) :
    δ → List (Step κ δ) → List β → Prop where
  | now {d : δ} {history : List (Step κ δ)} {bytes : List β} (h : a.get? d = some bytes) :
    Remains a faults d history bytes
  -- a part of what was being appended
  | torn {d : δ} {step : Step κ δ} {history : List (Step κ δ)} {old new bytes : List β}
    (hold : a.get? step.before = some old) (hnew : a.get? d = some new) (hle : old <+: bytes)
    (hge : bytes <+: new) : Remains a faults d (step :: history) bytes
  | earlier {d : δ} {step : Step κ δ} {history : List (Step κ δ)} {bytes : List β}
    (hsome : (a.get? d).isSome) (hsyncs : ¬a.Syncs faults step.call history)
    (h : Remains a faults step.before history bytes) : Remains a faults d (step :: history) bytes

def remains [DecidableEq κ] [DecidableEq β] (a : Area κ δ β) (faults : Nat → Option Nat) :
    δ → List (Step κ δ) → List β → Bool
  | d, [], bytes => a.get? d == some bytes
  | d, step :: history, bytes =>
    a.get? d == some bytes
      || ((a.get? step.before).any fun old => (a.get? d).any fun new =>
        old.isPrefixOf bytes && bytes.isPrefixOf new)
      || (a.get? d).isSome && !(step.call == a.sync && faults history.length == none)
        && a.remains faults step.before history bytes

-- nothing of the area can be lost
def Firm (a : Area κ δ β) (faults : Nat → Option Nat) (d : δ) (history : List (Step κ δ)) : Prop :=
  ∀ bytes, a.Remains faults d history bytes → a.get? d = some bytes

-- only the end of the area can be lost
def Growing (a : Area κ δ β) (faults : Nat → Option Nat) (d : δ) (history : List (Step κ δ)) : Prop :=
  ∀ bytes, a.Remains faults d history bytes → ∃ now, a.get? d = some now ∧ bytes <+: now

variable {a : Area κ δ β} {faults : Nat → Option Nat} {d : δ} {call : κ} {before : δ}
variable {history : List (Step κ δ)} {old new bytes : List β}

theorem Remains.isSome (h : a.Remains faults d history bytes) : (a.get? d).isSome := by
  cases h with
  | now h => exact Option.isSome_of_eq_some h
  | torn _ hnew => exact Option.isSome_of_eq_some hnew
  | earlier hsome => exact hsome

theorem remains_iff [DecidableEq κ] [DecidableEq β] :
    a.remains faults d history bytes = true ↔ a.Remains faults d history bytes := by
  induction history generalizing d with
  | nil =>
    unfold remains
    rw [beq_iff_eq]
    constructor
    . exact .now
    . intro h
      cases h with
      | now h => exact h
  | cons step history ih =>
    unfold remains
    simp only [Bool.or_eq_true, Bool.and_eq_true, Option.any_eq_true, List.isPrefixOf_iff_prefix,
      Bool.not_eq_true', Bool.and_eq_false_iff, beq_iff_eq, beq_eq_false_iff_ne, ih]
    constructor
    . rintro ((h | ⟨old, hold, new, hnew, hle, hge⟩) | ⟨⟨hsome, hsyncs⟩, h⟩)
      . exact .now h
      . exact .torn hold hnew hle hge
      . refine .earlier hsome ?_ h
        rintro ⟨hcall, hfault⟩
        cases hsyncs with
        | inl hne => exact hne hcall
        | inr hne => exact hne hfault
    . intro h
      cases h with
      | now h => exact Or.inl (Or.inl h)
      | torn hold hnew hle hge => exact Or.inl (Or.inr ⟨_, hold, _, hnew, hle, hge⟩)
      | earlier hsome hsyncs h =>
        refine Or.inr ⟨⟨hsome, ?_⟩, h⟩
        by_cases hcall : step.call = a.sync
        . exact Or.inr fun hfault => hsyncs ⟨hcall, hfault⟩
        . exact Or.inl hcall

instance [DecidableEq κ] [DecidableEq β] : Decidable (a.Remains faults d history bytes) :=
  decidable_of_iff _ remains_iff

theorem Remains.congr {faults' : Nat → Option Nat} (h : a.Remains faults d history bytes)
    (hfaults : ∀ i < history.length, faults' i = faults i) : a.Remains faults' d history bytes := by
  induction h with
  | now h => exact .now h
  | torn hold hnew hle hge => exact .torn hold hnew hle hge
  | earlier hsome hsyncs _ ih =>
    refine .earlier hsome ?_ (ih fun i hi => hfaults i (Nat.lt_succ_of_lt hi))
    rintro ⟨hcall, hfault⟩
    rw [hfaults _ (Nat.lt_succ_self _)] at hfault
    exact hsyncs ⟨hcall, hfault⟩

theorem Remains.of_eq (h : a.Remains faults d (⟨call, before⟩ :: history) bytes)
    (heq : a.get? d = a.get? before) : a.Remains faults before history bytes := by
  cases h with
  | now h =>
    rw [heq] at h
    exact .now h
  | torn hold hnew hle hge =>
    rw [heq, hold] at hnew
    cases hnew
    rw [hge.eq_of_length_le hle.length_le]
    exact .now hold
  | earlier _ _ h => exact h

theorem Remains.of_append (h : a.Remains faults d (⟨call, before⟩ :: history) bytes)
    (hold : a.get? before = some old) (hnew : a.get? d = some new) (hle : old <+: new) :
    a.Remains faults before history bytes ∨ old <+: bytes ∧ bytes <+: new := by
  cases h with
  | now h =>
    rw [hnew] at h
    cases h
    exact Or.inr ⟨hle, List.prefix_refl _⟩
  | torn hold' hnew' hle' hge' =>
    rw [hold] at hold'
    rw [hnew] at hnew'
    cases hold'
    cases hnew'
    exact Or.inr ⟨hle', hge'⟩
  | earlier _ _ h => exact Or.inl h

theorem Remains.of_nil (h : a.Remains faults d (⟨call, before⟩ :: history) bytes)
    (hnil : a.get? d = some []) : a.Remains faults before history bytes ∨ bytes = [] := by
  cases h with
  | now h =>
    rw [hnil] at h
    cases h
    exact Or.inr rfl
  | torn _ hnew _ hge =>
    rw [hnil] at hnew
    cases hnew
    exact Or.inr (List.prefix_nil.mp hge)
  | earlier _ _ h => exact Or.inl h

theorem Firm.nil : a.Firm faults d [] := by
  intro bytes h
  cases h with
  | now h => exact h

theorem Firm.absent (h : a.get? d = none) : a.Firm faults d history := by
  intro bytes hbytes
  have hsome := hbytes.isSome
  rw [h] at hsome
  contradiction

theorem Firm.step (h : a.Firm faults before history) (heq : a.get? d = a.get? before) :
    a.Firm faults d (⟨call, before⟩ :: history) := by
  intro bytes hbytes
  rw [heq]
  exact h bytes (hbytes.of_eq heq)

theorem Firm.of_syncs (hsyncs : a.Syncs faults call history) (heq : a.get? d = a.get? before) :
    a.Firm faults d (⟨call, before⟩ :: history) := by
  intro bytes hbytes
  cases hbytes with
  | now h => exact h
  | torn hold hnew hle hge =>
    rw [heq, hold] at hnew
    cases hnew
    rw [heq, hold, hge.eq_of_length_le hle.length_le]
  | earlier _ hnot => exact absurd hsyncs hnot

theorem Firm.of_created (h : a.get? before = none) : a.Firm faults d (⟨call, before⟩ :: history) := by
  intro bytes hbytes
  cases hbytes with
  | now h => exact h
  | torn hold =>
    rw [h] at hold
    contradiction
  | earlier _ _ hbefore =>
    have hsome := hbefore.isSome
    rw [h] at hsome
    contradiction

theorem Firm.growing (h : a.Firm faults d history) : a.Growing faults d history :=
  fun bytes hbytes => ⟨bytes, h bytes hbytes, List.prefix_refl bytes⟩

theorem Growing.step (h : a.Growing faults before history) (heq : a.get? d = a.get? before) :
    a.Growing faults d (⟨call, before⟩ :: history) := by
  intro bytes hbytes
  rw [heq]
  exact h bytes (hbytes.of_eq heq)

theorem Growing.append (h : a.Growing faults before history) (hold : a.get? before = some old)
    (hnew : a.get? d = some new) (hle : old <+: new) :
    a.Growing faults d (⟨call, before⟩ :: history) := by
  intro bytes hbytes
  refine ⟨new, hnew, ?_⟩
  cases hbytes.of_append hold hnew hle with
  | inl hbefore =>
    rcases h bytes hbefore with ⟨now, hnow, hbegins⟩
    rw [hold] at hnow
    cases hnow
    exact hbegins.trans hle
  | inr hbetween => exact hbetween.2

end Area

end Platter
