import Chickadee.Impl.Concrete
import Chickadee.Lemmas.Compact
import Chickadee.Lemmas.Keeps

/-!
This module contains when the flushes compact: the counter of the log is the number of files when it is
opened, and this says how many flushes are missing to the next compaction only if it does not fall
behind the flushes since the last one.
-/

namespace Chickadee

open Faulty Faulty.Io

-- the flushes since the last one that compacted, where `trace` says it of every flush, the latest first
def gap (trace : List Bool) : Nat :=
  (trace.takeWhile fun ran => !ran).length

-- among any `n` consecutive flushes at least one compacts
def EveryNth (n : Nat) (trace : List Bool) : Prop :=
  ∀ window, window <:+: trace → window.length = n → true ∈ window

namespace EveryNth

variable {n : Nat} {trace : List Bool}

theorem nil (h : 0 < n) : EveryNth n [] := by
  intro window hwindow hlen
  rw [List.infix_nil.mp hwindow] at hlen
  exact absurd hlen (Nat.ne_of_lt h)

theorem ran (h : EveryNth n trace) (hn : 0 < n) : EveryNth n (true :: trace) := by
  intro window hwindow hlen
  rcases List.infix_cons_iff.mp hwindow with hfirst | hlater
  . cases window with
    | nil => exact absurd hlen (Nat.ne_of_lt hn)
    | cons ran window =>
      rw [List.cons_prefix_cons] at hfirst
      rw [hfirst.1]
      exact List.mem_cons_self
  . exact h window hlater hlen

end EveryNth

variable (c : Crates)

variable {c}

end Chickadee
