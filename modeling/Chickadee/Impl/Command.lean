import Chickadee.Impl.Log
import Chickadee.Impl.Text

/-!
This module contains the commands, the parser of them, and what they do to a log and to the writer of
their client.
-/

namespace Chickadee

open Faulty Faulty.Io

inductive Command where
  | set (key value : String)
  | get (key : String)
  | delete (key : String)
  | quit
  | help
  deriving DecidableEq, Repr

inductive CommandError where
  | unrecognizedCommand
  | missingRequiredArguments
  | tooManyArguments
  deriving DecidableEq, Repr

def CommandError.message : CommandError → String
  | unrecognizedCommand => "unrecognized command"
  | missingRequiredArguments => "missing required arguments"
  | tooManyArguments => "too many arguments"

def Command.key : Command → Option String
  | set key _ | get key | delete key => some key
  | quit | help => none

-- `parts` is what the iterator has not returned yet
def Command.tryFrom (value : String) : Except CommandError Command :=
  match splitWhitespace value with
  | [] => .error .missingRequiredArguments
  | word :: parts =>
    match toLowercase word with
    | "set" | "s" =>
      match parts with
      | key :: value :: parts =>
        if parts.head?.isSome then .error .tooManyArguments else .ok (.set key value)
      | _ => .error .missingRequiredArguments
    | "get" | "g" =>
      match parts with
      | key :: parts =>
        if parts.head?.isSome then .error .tooManyArguments else .ok (.get key)
      | _ => .error .missingRequiredArguments
    | "delete" | "del" | "d" =>
      match parts with
      | key :: parts =>
        if parts.head?.isSome then .error .tooManyArguments else .ok (.delete key)
      | _ => .error .missingRequiredArguments
    | "quit" | "q" | "exit" => .ok .quit
    | "help" | "h" => .ok .help
    | _ => .error .unrecognizedCommand

def commandHint : String :=
  "set <key> <value>    (alias: s)\n" ++
  "get <key>            (alias: g)\n" ++
  "delete <key>         (alias: d, del)\n" ++
  "quit                 (alias: q, exit)"

-- the log and the bytes handed to the writer so far
structure Session where
  log : Log
  out : Bytes

namespace Session

variable {α : Type} (c : Crates)

def zoomLog (x : Os Log α) : Os Session α :=
  zoom Session.log (fun session log => { session with log := log }) x

def writeln (line : String) : Os Session Unit :=
  let bytes := bytesOf (line ++ "\n")
  syscall (.reply line)
    (fun d session => (.ok (), d, { session with out := session.out ++ bytes }))
    (fun n d session => (d, { session with out := session.out ++ bytes.dropLast.take n }))

def execute (command : Command) : Os Session Unit := do
  match command with
  | .set key value =>
    writeln (key ++ " => " ++ value)
    zoomLog (Log.write c (.set key value))
    zoomLog (Log.maybeFlush c)
  | .get key =>
    match ← zoomLog (Log.get c key) with
    | some (.set _ value) => writeln (key ++ " => " ++ value)
    | some (.delete _) | none => writeln (key ++ " not found")
  | .delete key =>
    if ← zoomLog (Log.contains c key) then
      writeln (key ++ " deleted")
      zoomLog (Log.write c (.delete key))
    else
      writeln (key ++ " not found")
    zoomLog (Log.maybeFlush c)
  | .quit => raise (.bail "quit must be handled by the run loop")
  | .help => writeln commandHint

end Session

end Chickadee
