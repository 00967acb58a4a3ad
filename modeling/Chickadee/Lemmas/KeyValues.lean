import Chickadee.Impl.Server

/-!
This module contains what the clients of a server see: one map from keys to values, on which the lines
of all clients take effect one after the other.
-/

namespace Chickadee

abbrev KeyValues := String → Option String

namespace KeyValues

def execute (kvs : KeyValues) : Command → String × KeyValues
  | .set key value => (key ++ " => " ++ value, Function.update kvs key (some value))
  | .get key =>
    match kvs key with
    | some value => (key ++ " => " ++ value, kvs)
    | none => (key ++ " not found", kvs)
  | .delete key =>
    match kvs key with
    | some _ => (key ++ " deleted", Function.update kvs key none)
    | none => (key ++ " not found", kvs)
  | .quit | .help => (commandHint, kvs)

theorem execute_get_of_some {kvs : KeyValues} {key value : String} (h : kvs key = some value) :
    kvs.execute (.get key) = (key ++ " => " ++ value, kvs) := by
  simp only [execute, h]

theorem execute_get_of_none {kvs : KeyValues} {key : String} (h : kvs key = none) :
    kvs.execute (.get key) = (key ++ " not found", kvs) := by
  simp only [execute, h]

theorem execute_delete_of_some {kvs : KeyValues} {key value : String} (h : kvs key = some value) :
    kvs.execute (.delete key) = (key ++ " deleted", Function.update kvs key none) := by
  simp only [execute, h]

theorem execute_delete_of_none {kvs : KeyValues} {key : String} (h : kvs key = none) :
    kvs.execute (.delete key) = (key ++ " not found", kvs) := by
  simp only [execute, h]

def answer (kvs : KeyValues) (line : String) : Option (String × KeyValues) :=
  if line = "" then
    none
  else
    match Command.tryFrom (trim line) with
    | .ok .quit => none
    | .ok command => some (kvs.execute command)
    | .error e => some ("Error: " ++ e.message, kvs)

-- a command that writes nothing: neither a `Set` nor a `Delete` of a key that is there
def silent (kvs : KeyValues) : Command → Bool
  | .set _ _ => false
  | .delete key => (kvs key).isNone
  | .get _ | .quit | .help => true

theorem execute_silent {kvs : KeyValues} {command : Command} (h : kvs.silent command = true) :
    (kvs.execute command).2 = kvs := by
  cases command with
  | set key value => contradiction
  | get key =>
    cases hget : kvs key with
    | some value => rw [execute_get_of_some hget]
    | none => rw [execute_get_of_none hget]
  | delete key => rw [execute_delete_of_none (Option.isNone_iff_eq_none.mp h)]
  | quit => rfl
  | help => rfl

end KeyValues

structure Client where
  unsent : List Char
  replies : List String
  running : Bool

namespace Client

def pass (self : Client) (kvs : KeyValues) : Client × KeyValues :=
  match kvs.answer (String.ofList (splitLine self.unsent).1) with
  | some (reply, kvs) => (⟨(splitLine self.unsent).2, self.replies ++ [reply], true⟩, kvs)
  | none => (⟨(splitLine self.unsent).2, self.replies, false⟩, kvs)

theorem pass_unsent (self : Client) (kvs : KeyValues) :
    (self.pass kvs).1.unsent = (splitLine self.unsent).2 := by
  unfold pass
  split <;> rfl

def silent (self : Client) (kvs : KeyValues) : Prop :=
  ∀ command, Command.tryFrom (trim (String.ofList (splitLine self.unsent).1)) = .ok command →
    kvs.silent command = true

end Client

structure Clients (ι : Type) where
  kvs : KeyValues
  clients : ι → Client

namespace Clients

variable {ι : Type} [DecidableEq ι]

def start (inputs : ι → List Char) : Clients ι :=
  { kvs := fun _ => none, clients := fun i => ⟨inputs i, [], true⟩ }

def turn (self : Clients ι) (i : ι) : Clients ι :=
  if (self.clients i).running then
    { kvs := ((self.clients i).pass self.kvs).2
      clients := Function.update self.clients i ((self.clients i).pass self.kvs).1 }
  else
    self

def handle (self : Clients ι) : Event ι → Clients ι
  | .line i => self.turn i
  | .restart => self

def run (self : Clients ι) (events : List (Event ι)) : Clients ι :=
  events.foldl handle self

end Clients

end Chickadee
