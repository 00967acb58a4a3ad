import Chickadee.Impl.Command
import Chickadee.Impl.Run

/-!
This module contains the command loop that serves a client, and the server, whose clients share one log.
-/

namespace Chickadee

open Faulty Faulty.Io

/--
`BufRead::read_line`: the first line with its end, and what comes after it.
-/
def splitLine : List Char → List Char × List Char
  | [] => ([], [])
  | ch :: input =>
    if ch = '\n' then ([ch], input) else (ch :: (splitLine input).1, (splitLine input).2)

/--
`reader` is what has not been read yet, `writer` what has been handed to the writer and `flushed` the
part of it that was there at its last flush. The loop has ended where `running` is `false`.
-/
structure Runner where
  reader : List Char
  writer : Bytes
  flushed : Bytes
  running : Bool
  deriving DecidableEq, Repr

namespace Runner

def new (input : List Char) : Runner :=
  { reader := input, writer := [], flushed := [], running := true }

-- a runner and the log behind the mutex
structure Serving where
  log : Log
  runner : Runner

variable {α : Type} (c : Crates)

def readLine : Os Serving String :=
  readCall .readLine fun _ self =>
    let (line, rest) := splitLine self.runner.reader
    (.ok (String.ofList line), { self with runner := { self.runner with reader := rest } })

def flush : Os Serving Unit :=
  readCall .flushWriter fun _ self =>
    (.ok (), { self with runner := { self.runner with flushed := self.runner.writer } })

def stop : Os Serving Unit := do
  let self ← getSelf
  setSelf { self with runner := { self.runner with running := false } }

def zoomSession (x : Os Session α) : Os Serving α :=
  zoom (fun self => ⟨self.log, self.runner.writer⟩)
    (fun self session =>
      { log := session.log, runner := { self.runner with writer := session.out } }) x

def respond (x : Os Session Unit) : Os Serving Unit := do
  zoomSession x
  flush

-- the lock is held while the command is executed
def handleLine (line : String) : Os Serving Unit :=
  if line = "" then
    stop
  else
    match Command.tryFrom (trim line) with
    | .ok .quit => stop
    | .ok cmd => respond (Session.execute c cmd)
    | .error e => respond (Session.writeln ("Error: " ++ e.message))

-- the body of the loop of `run`
def pass : Os Serving Unit := do
  let line ← readLine
  handleLine c line

def loop : Nat → Os Serving Unit
  | 0 => raise .outOfFuel
  | fuel + 1 => do
    pass c
    let self ← getSelf
    if self.runner.running then
      loop fuel

-- a pass that does not end the loop takes a character of the input at least
def run : Os Serving Unit := do
  let self ← getSelf
  loop c (self.runner.reader.length + 1)

-- `pass` between `readLine` and `flush`; `false` where the loop ends
def answer (line : String) : Os Serving Bool :=
  if line = "" then do
    stop
    return false
  else
    match Command.tryFrom (trim line) with
    | .ok .quit => do
      stop
      return false
    | .ok cmd => do
      zoomSession (Session.execute c cmd)
      return true
    | .error e => do
      zoomSession (Session.writeln ("Error: " ++ e.message))
      return true

end Runner

-- the CLI, of which `input` is what comes in until it ends
def repl (c : Crates) (input : List Char) : Os Runner.Serving Unit := do
  zoom Runner.Serving.log (fun self log => { self with log := log }) (Log.reopen c)
  let self ← getSelf
  setSelf { self with runner := .new input }
  Runner.run c

structure Server (ι : Type) where
  log : Log
  runners : ι → Runner

/--
A client has its next line handled, or the server is started again.
-/
inductive Event (ι : Type) where
  | line (i : ι)
  | restart
  deriving DecidableEq, Repr

namespace Server

variable {ι : Type} [DecidableEq ι] (c : Crates)

def turn (i : ι) : Os (Server ι) Unit := do
  let self ← getSelf
  if (self.runners i).running then
    zoom (fun self => (⟨self.log, self.runners i⟩ : Runner.Serving))
      (fun self serving =>
        { log := serving.log, runners := Function.update self.runners i serving.runner })
      (Runner.pass c)

def restart : Os (Server ι) Unit :=
  zoom Server.log (fun self log => { self with log := log }) (Log.reopen c)

def handle : Event ι → Os (Server ι) Unit
  | .line i => turn c i
  | .restart => restart c

def serve (events : List (Event ι)) : Os (Server ι) Unit :=
  events.forM (handle c)

def waiting (clock : Nat → Nat) (inputs : ι → List Char) : Machine Call Disk (Server ι) :=
  .boot (.empty clock) { log := .closed, runners := fun i => .new (inputs i) }

end Server

/-! Threads -/

/--
Where a thread is in the loop of `run`: about to read a line, to answer one, or to flush.
-/
inductive Stage where
  | reading
  | parsed (line : String)
  | answered
  deriving DecidableEq, Repr

-- a server whose clients have a thread each
structure Threads (ι : Type) extends Server ι where
  stages : ι → Stage

namespace Threads

variable {ι : Type} [DecidableEq ι] {α : Type} (c : Crates)

def put (i : ι) (self : Threads ι) (serving : Runner.Serving) : Threads ι :=
  { self with log := serving.log, runners := Function.update self.runners i serving.runner }

def zoomRunner (i : ι) (x : Os Runner.Serving α) : Os (Threads ι) α :=
  zoom (fun self => (⟨self.log, self.runners i⟩ : Runner.Serving)) (put i) x

def goto (i : ι) (stage : Stage) : Os (Threads ι) Unit := do
  let self ← getSelf
  setSelf { self with stages := Function.update self.stages i stage }

-- other threads may come in between two steps, while no one has the lock
def advance (i : ι) : Os (Threads ι) Unit := do
  let self ← getSelf
  match self.stages i with
  | .reading =>
    let line ← zoomRunner i Runner.readLine
    goto i (.parsed line)
  | .parsed line =>
    if ← zoomRunner i (Runner.answer c line) then
      goto i .answered
  | .answered =>
    zoomRunner i Runner.flush
    goto i .reading

-- the thread of a client ends where its loop fails, the other ones go on
def step (i : ι) : Os (Threads ι) Bool := do
  match ← attempt (advance c i) with
  | .ok _ => return true
  | .error _ =>
    zoomRunner i Runner.stop
    return false

-- a new process, to which clients connect that send `inputs`
def start (inputs : ι → List Char) : Os (Threads ι) Unit := do
  zoom (fun self => self.log) (fun self log => { self with log := log }) (Log.reopen c)
  let self ← getSelf
  setSelf { self with runners := fun i => .new (inputs i), stages := fun _ => .reading }

def stopped (clock : Nat → Nat) : Machine Call Disk (Threads ι) :=
  .boot (.empty clock)
    { log := .closed, runners := fun _ => { Runner.new [] with running := false },
      stages := fun _ => .reading }

end Threads

end Chickadee
