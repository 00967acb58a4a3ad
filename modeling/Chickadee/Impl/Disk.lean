import Chickadee.Lib.Faulty
import Chickadee.Lib.SortedMap
import Chickadee.Impl.Basic

/-!
This module contains the disk the store runs on and the calls of `std::fs`, `std::io` and
`std::time` that the store makes. Every one of them may fail, a write after a part of its bytes.
-/

namespace Chickadee

open Faulty Faulty.Io

/--
The largest file offset, `i64::MAX`.
-/
def maxFileLen : Nat := 2 ^ 63 - 1

structure Contents where
  bytes : Bytes
  bound : bytes.length ≤ maxFileLen

namespace Contents

def empty : Contents :=
  ⟨[], Nat.zero_le _⟩

def length (c : Contents) : Nat :=
  c.bytes.length

/--
As much of `bytes` as fits a file.
-/
def clip (bytes : Bytes) : Contents :=
  ⟨bytes.take maxFileLen, List.length_take_le _ _⟩

end Contents

inductive Path where
  | wal
  | sstable (name : String)
  deriving DecidableEq, Repr

/--
The WAL, the `SSTable` directory and the system clock: `clock i` is what `SystemTime::now` answers
when it is asked for the time after `i` earlier readings, in microseconds since the epoch. A WAL that
was never created is one without bytes.
-/
structure Disk where
  wal : Contents
  sstables : SortedMap String Contents
  clock : Nat → Nat
  ticks : Nat

namespace Disk

def get? (d : Disk) : Path → Option Contents
  | .wal => some d.wal
  | .sstable name => d.sstables.get? name

/--
What an open file reads. A file that was removed is never read again.
-/
def read (d : Disk) (path : Path) : Contents :=
  (d.get? path).getD .empty

def write (d : Disk) (path : Path) (c : Contents) : Disk :=
  match path with
  | .wal => { d with wal := c }
  | .sstable name => { d with sstables := d.sstables.insert name c }

def remove (d : Disk) (name : String) : Disk :=
  { d with sstables := d.sstables.erase name }

end Disk

/--
An open file: where it was opened and its cursor.
-/
structure File where
  path : Path
  pos : Nat
  deriving DecidableEq, Repr

inductive SeekFrom where
  | start (n : Nat)
  /-- `back` bytes before the end. -/
  | fromEnd (back : Nat)
  deriving DecidableEq, Repr

inductive Call where
  | createDirAll
  | openFile (path : Path)
  | createFile (path : Path)
  | seek (path : Path) (target : SeekFrom)
  | streamPosition (path : Path)
  | readToEnd (path : Path)
  | readExact (path : Path) (n : Nat)
  | writeAll (path : Path) (data : Bytes)
  | setLen (path : Path) (n : Nat)
  | syncAll (path : Path)
  | metadata (path : Path)
  | readDir
  | removeFile (name : String)
  | now
  /-- The response of a command, handed to the writer of the client. -/
  | reply (line : String)
  | readLine
  /-- `flush` of the writer of the client. -/
  | flushWriter
  deriving DecidableEq, Repr

abbrev Os (σ α : Type) := Io Call Disk Error σ α

abbrev FileIo (α : Type) := Os File α

variable {σ α : Type}

/--
A call that leaves the disk as it is.
-/
def readCall (call : Call) (act : Disk → σ → Except Error α × σ) : Os σ α :=
  syscall call (fun d s => ((act d s).1, d, (act d s).2)) (fun _ d s => (d, s))

/--
`anyhow::Context` and `?` on an `Option`.
-/
def context (o : Option α) (msg : String) : Os σ α :=
  match o with
  | some a => pure a
  | none => raise (.context msg)

/--
`?` on a `Result`.
-/
def ofExcept (r : Except Error α) : Os σ α :=
  match r with
  | .ok a => pure a
  | .error e => raise e

def createDirAll : Os σ Unit :=
  readCall .createDirAll fun _ s => (.ok (), s)

def readDir : Os σ (List String) :=
  readCall .readDir fun d s => (.ok d.sstables.keys, s)

def removeFile (name : String) : Os σ Unit :=
  syscall (.removeFile name)
    (fun d s =>
      match d.sstables.get? name with
      | some _ => (.ok (), d.remove name, s)
      | none => (.error .notFound, d, s))
    (fun _ d s => (d, s))

/--
`File::open`.
-/
def openFile (path : Path) : Os σ File :=
  readCall (.openFile path) fun d s =>
    match d.get? path with
    | some _ => (.ok ⟨path, 0⟩, s)
    | none => (.error .notFound, s)

/--
`OpenOptions` with `create` and `write`.
-/
def createFile (path : Path) (truncate : Bool) : Os σ File :=
  syscall (.createFile path)
    (fun d s =>
      (.ok ⟨path, 0⟩, d.write path (if truncate then .empty else d.read path), s))
    (fun _ d s => (d, s))

/--
`SystemTime::now().duration_since(UNIX_EPOCH)`. It fails when the clock is before the epoch.
-/
def now : Os σ Nat :=
  syscall .now
    (fun d s => (.ok (d.clock d.ticks), { d with ticks := d.ticks + 1 }, s))
    (fun _ d s => ({ d with ticks := d.ticks + 1 }, s))

def streamPosition : FileIo Nat := do
  let f ← getSelf
  readCall (.streamPosition f.path) fun _ f => (.ok f.pos, f)

def seek (target : SeekFrom) : FileIo Unit := do
  let f ← getSelf
  readCall (.seek f.path target) fun d f =>
    match target with
    | .start n => (.ok (), { f with pos := n })
    | .fromEnd back =>
      if back ≤ (d.read f.path).length then
        (.ok (), { f with pos := (d.read f.path).length - back })
      else
        (.error .invalidSeek, f)

def readToEnd : FileIo Bytes := do
  let f ← getSelf
  readCall (.readToEnd f.path) fun d f =>
    (.ok ((d.read f.path).bytes.drop f.pos), { f with pos := max f.pos (d.read f.path).length })

def readExact (n : Nat) : FileIo Bytes := do
  let f ← getSelf
  readCall (.readExact f.path n) fun d f =>
    if f.pos + n ≤ (d.read f.path).length then
      (.ok (((d.read f.path).bytes.drop f.pos).take n), { f with pos := f.pos + n })
    else
      (.error .unexpectedEof, { f with pos := max f.pos (d.read f.path).length })

def metadataLen : FileIo Nat := do
  let f ← getSelf
  readCall (.metadata f.path) fun d f => (.ok (d.read f.path).length, f)

/--
`old` with `data` written over it from `pos` on.
-/
def overwrite (old : Bytes) (pos : Nat) (data : Bytes) : Bytes :=
  old.take pos ++ List.replicate (pos - old.length) 0 ++ data ++ old.drop (pos + data.length)

/--
A `write_all` that fails has written some of the data, but not all of it.
-/
def writeAll (data : Bytes) : FileIo Unit := do
  let f ← getSelf
  syscall (.writeAll f.path data)
    (fun d f =>
      let bytes := overwrite (d.read f.path).bytes f.pos data
      if h : bytes.length ≤ maxFileLen then
        (.ok (), d.write f.path ⟨bytes, h⟩, { f with pos := f.pos + data.length })
      else
        (.error .fileTooLarge, d.write f.path (.clip bytes), f))
    (fun n d f =>
      (d.write f.path (.clip (overwrite (d.read f.path).bytes f.pos (data.dropLast.take n))), f))

def setLen (n : Nat) : FileIo Unit := do
  let f ← getSelf
  syscall (.setLen f.path n)
    (fun d f =>
      let bytes := (d.read f.path).bytes.take n
      (.ok (), d.write f.path (.clip (bytes ++ List.replicate (n - bytes.length) 0)), f))
    (fun _ d s => (d, s))

def syncAll : FileIo Unit := do
  let f ← getSelf
  readCall (.syncAll f.path) fun _ f => (.ok (), f)

end Chickadee
