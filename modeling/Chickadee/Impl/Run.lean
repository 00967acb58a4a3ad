import Chickadee.Impl.Log

/-!
This module contains the runs of the store: its operations, one after the other, and the questions
one can ask it in between.
-/

namespace Chickadee

open Faulty Faulty.Io

variable (c : Crates)

namespace Log

def reopen : Os Log Unit := do
  let log ← Log.new c false
  setSelf log

def closed : Log :=
  { walFile := ⟨.wal, 0⟩, memtable := .new, flushCount := 0 }

end Log

inductive Op where
  | write (entry : Entry)
  | flush
  | maybeFlush
  | compact
  | reopen
  deriving DecidableEq, Repr

namespace Op

def exec : Op → Os Log Unit
  | write entry => Log.write c entry
  | flush => Log.flush c
  | maybeFlush => Log.maybeFlush c
  | compact => Chickadee.compact c
  | reopen => Log.reopen c

def written : Op → Option Entry
  | write entry => some entry
  | _ => none

end Op

def runOps (ops : List Op) : Os Log Unit :=
  ops.forM (Op.exec c)

def Disk.empty (clock : Nat → Nat) : Disk :=
  { wal := .empty, sstables := .empty, clock := clock, ticks := 0 }

abbrev Store := Machine Call Disk Log

namespace Store

def fresh (clock : Nat → Nat) : Store :=
  .boot (.empty clock) .closed

def faultless (m : Store) : Store :=
  m.withFaults fun _ => none

def get (m : Store) (key : String) : Option (Option Entry) :=
  ((Log.get c key).run m.faultless).value?

-- what `get` answers on a log that is opened on the disk as it is
def getReopened (m : Store) (key : String) : Option (Option Entry) :=
  ((do Log.reopen c; Log.get c key).run m.faultless).value?

end Store

-- call number `i` fails, after `n` units of its work, and no other one does
def failAt (i n : Nat) : Nat → Option Nat :=
  fun j => if j = i then some n else none

/--
An operation is run while calls fail as `faults` says. Where `dies` is set, the process dies where
the operation ends, and the log is opened again.
-/
structure Attempt where
  op : Op
  faults : Nat → Option Nat
  dies : Bool

structure Incident where
  op : Op
  ok : Bool
  died : Bool
  deriving DecidableEq, Repr

namespace Attempt

def result (a : Attempt) (m : Store) : Result Call Disk Error Log Unit :=
  (a.op.exec c).run (m.resume a.faults)

def after (a : Attempt) (m : Store) : Store :=
  let m' : Store := (a.result c m).machine
  if a.dies then ((Log.reopen c).run m'.faultless).machine else m'

def incident (a : Attempt) (m : Store) : Incident :=
  ⟨a.op, (a.result c m).value?.isSome, a.dies⟩

end Attempt

-- the entry of the last write to the key, if it is a `Set`
def lastSet (ops : List Op) (key : String) : Option Entry :=
  ((ops.filterMap Op.written).reverse.find? fun entry => entry.key = key).filter Entry.isSet

end Chickadee
