import Mathlib

/-!
This module contains labelled transition systems, the runs of them and forward simulations, which
carry what holds of the runs of one system over to those of another one.
-/

namespace Simulation

structure System (σ L : Type) where
  init : σ → Prop
  step : σ → L → σ → Prop

variable {σ τ L K : Type} {C : System σ L} {A : System τ K}

-- `s` is where a run with the labels `ls` ends, the earliest one first
inductive System.Reaches (C : System σ L) : List L → σ → Prop where
  | init {s : σ} (h : C.init s) : C.Reaches [] s
  | step {ls : List L} {s s' : σ} {l : L} (h : C.Reaches ls s) (hstep : C.step s l s') :
    C.Reaches (ls ++ [l]) s'

-- `P` says of the labels of a run and of the state it leads to what each step keeps
structure System.Invariant (C : System σ L) (P : List L → σ → Prop) : Prop where
  init : ∀ s, C.init s → P [] s
  step : ∀ ls s l s', C.Reaches ls s → P ls s → C.step s l s' → P (ls ++ [l]) s'

theorem System.Invariant.of_reaches {P : List L → σ → Prop} (h : C.Invariant P) {ls : List L} {s : σ}
    (hreaches : C.Reaches ls s) : P ls s := by
  induction hreaches with
  | init hinit => exact h.init _ hinit
  | step hprev hstep ih => exact h.step _ _ _ _ hprev ih hstep

def System.Moves (A : System τ K) (t : τ) : Option K → τ → Prop
  | some k, t' => A.step t k t'
  | none, t' => t' = t

/--
Whatever step `C` takes from `s`, from any `t` related to `s` a step of `A` leads to a related state,
with the label that `f` gives, or `t` is still related where `f` gives none.
-/
structure Forward (C : System σ L) (A : System τ K) (f : L → Option K) (R : σ → τ → Prop) :
    Prop where
  init : ∀ s, C.init s → ∃ t, A.init t ∧ R s t
  step : ∀ s l s' t, R s t → C.step s l s' → ∃ t', A.Moves t (f l) t' ∧ R s' t'

theorem System.Reaches.moves {ks : List K} {k : Option K} {t t' : τ} (h : A.Reaches ks t)
    (hmoves : A.Moves t k t') : A.Reaches (ks ++ k.toList) t' := by
  cases k with
  | some k => exact h.step hmoves
  | none =>
    rw [Option.toList_none, List.append_nil]
    cases hmoves
    exact h

namespace Forward

variable {f : L → Option K} {R : σ → τ → Prop}

theorem reaches (h : Forward C A f R) {ls : List L} {s : σ} (hreaches : C.Reaches ls s) :
    ∃ t, A.Reaches (ls.filterMap f) t ∧ R s t := by
  induction hreaches with
  | init hinit =>
    rcases h.init _ hinit with ⟨t, ht, hR⟩
    exact ⟨t, .init ht, hR⟩
  | @step ls _ _ l _ hstep ih =>
    rcases ih with ⟨t, ht, hR⟩
    rcases h.step _ _ _ _ hR hstep with ⟨t', hmoves, hR'⟩
    refine ⟨t', ?_, hR'⟩
    have hlast : [l].filterMap f = (f l).toList := by
      cases hf : f l with
      | none => rw [List.filterMap_cons_none hf]; rfl
      | some k => rw [List.filterMap_cons_some hf]; rfl
    rw [List.filterMap_append, hlast]
    exact ht.moves hmoves

theorem of_invariant {P : List K → τ → Prop} (h : Forward C A f R) (hP : A.Invariant P)
    {ls : List L} {s : σ} (hreaches : C.Reaches ls s) : ∃ t, P (ls.filterMap f) t ∧ R s t := by
  rcases h.reaches hreaches with ⟨t, ht, hR⟩
  exact ⟨t, hP.of_reaches ht, hR⟩

end Forward

end Simulation
