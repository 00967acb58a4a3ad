import Chickadee.Impl.Compact

/-!
This module contains the log: the owner of the WAL and the memtable, above the `SSTable`s.
-/

namespace Chickadee

open Faulty Faulty.Io

def compactEveryNFlushes : Nat := 10

structure Log where
  walFile : File
  memtable : MemTable
  flushCount : Nat

namespace Log

variable {σ α : Type} (c : Crates)

def new (truncate : Bool) : Os σ Log := do
  createDirAll
  createDirAll
  let walFile ← createFile .wal truncate
  let (memtable, walFile) ← on walFile (MemTable.fromFile c)
  let flushCount := (← readDir).length
  return { walFile := walFile, memtable := memtable, flushCount := flushCount }

def zoomWal (x : FileIo α) : Os Log α :=
  zoom Log.walFile (fun log file => { log with walFile := file }) x

def zoomMemtable (x : Os MemTable α) : Os Log α :=
  zoom Log.memtable (fun log memtable => { log with memtable := memtable }) x

def write (entry : Entry) : Os Log Unit := do
  zoomWal (headerWrite c.toCodec entry)
  zoomWal syncAll
  let _ ← zoomMemtable (MemTable.process c entry)

def visible (entry : Entry) : Option Entry :=
  if entry.isSet then some entry else none

def findEntry (key : String) : Nat → Os SSTable (Option Entry)
  | 0 => raise .outOfFuel
  | fuel + 1 => do
    match ← SSTable.readNextEntry c with
    | none => return none
    | some entry =>
      if entry.key = key then
        return some entry
      findEntry key fuel

def getFromTables (key : String) : List String → Os σ (Option Entry)
  | [] => return none
  | name :: rest => do
    match ← SSTable.fromPath c name with
    | none => getFromTables key rest
    | some sstable =>
      if sstable.bloomFilter.mayContain c (bytesOf key) then
        match ← on sstable (findEntry c key sstable.fuel) with
        | (some entry, _) => return visible entry
        | (none, _) => getFromTables key rest
      else
        getFromTables key rest

def get (key : String) : Os Log (Option Entry) := do
  let self ← getSelf
  match self.memtable.get key with
  | some entry => return visible entry
  | none =>
    let dirEntries := sortNewestFirst (← readDir)
    getFromTables c key dirEntries

def contains (key : String) : Os Log Bool := do
  return (← get c key).isSome

-- the part of `flush` before the automatic compaction
def flushTables : Os Log Unit := do
  zoomMemtable (MemTable.flushTo c)
  zoomWal (setLen 0)
  zoomWal (seek (.start 0))
  let self ← getSelf
  setSelf { self with flushCount := saturatingAdd self.flushCount 1 }

def flush : Os Log Unit := do
  flushTables c
  let self ← getSelf
  if self.flushCount % compactEveryNFlushes = 0 then
    compact c

def maybeFlush : Os Log Unit := do
  let self ← getSelf
  if self.memtable.shouldFlush then
    flush c

end Log

end Chickadee
