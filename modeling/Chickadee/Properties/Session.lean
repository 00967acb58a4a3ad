import Chickadee.Properties.Server

/-!
This module contains what the CLI prints, whose processes come one after the other on one directory: the
responses of one map, which does not notice where a process ends and the next one begins.
-/

namespace Chickadee

open Faulty Faulty.Io

variable {T : Disk → Prop} {c : Crates}

namespace KeyValues

def session (kvs : KeyValues) : List (List Char) → List String × KeyValues
  | [] => ([], kvs)
  | line :: lines =>
    match kvs.answer (String.ofList line) with
    | none => ([], kvs)
    | some (reply, kvs) => (reply :: (session kvs lines).1, (session kvs lines).2)

end KeyValues

namespace Runner

variable {m : Machine Call Disk Serving} {kvs : KeyValues}

end Runner

def runSessions (c : Crates) (inputs : List (List Char)) : Os Runner.Serving (List Bytes) :=
  inputs.mapM fun input => do
    repl c input
    let self ← getSelf
    return self.runner.flushed

namespace Ready

variable {m : Machine Call Disk Runner.Serving} {kvs : KeyValues}

end Ready

def terminal (clock : Nat → Nat) : Machine Call Disk Runner.Serving :=
  .boot (.empty clock) { log := .closed, runner := .new [] }

-- the files are what they are taken for, what is to be written can be written, and has space
structure Undisturbed (c : Crates) (clock : Nat → Nat) (inputs : List (List Char)) : Prop where
  fits : ∀ input ∈ inputs, ∀ line ∈ lines input, LineFits c line
  sound : ((runSessions c inputs).run (terminal clock)).machine.Always (Sound c)
  space : ∀ m, (runSessions c inputs).run (terminal clock) ≠ .error (.raised .fileTooLarge) m

theorem Undisturbed.of_check {clock : Nat → Nat} {inputs : List (List Char)}
    (hlines : (inputs.all fun input => (lines input).all (lineFitsCheck c)) = true)
    (hcheck : (alwaysCheck c ((runSessions c inputs).run (terminal clock)).machine
      && ((runSessions c inputs).run (terminal clock)).value?.isSome) = true) :
    Undisturbed c clock inputs := by
  rw [Bool.and_eq_true] at hcheck
  refine ⟨?_, (always_strict_of_check hcheck.1).mono fun _ => Strict.sound, ?_⟩
  . intro input hinput line hline
    exact LineFits.of_check (List.all_eq_true.mp (List.all_eq_true.mp hlines input hinput) line hline)
  . intro m hm
    have hvalue := hcheck.2
    rw [hm] at hvalue
    contradiction

end Chickadee
