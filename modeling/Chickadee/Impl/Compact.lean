import Chickadee.Impl.MemTable

/-!
This module contains the compaction: a k-way merge of all `SSTable`s into a fresh set of them.
-/

namespace Chickadee

open Faulty Faulty.Io

variable {σ : Type} (c : Crates)

-- `sort_by_key(|e| Reverse(e.file_name()))`
def sortNewestFirst (names : List String) : List String :=
  names.insertionSort (fun a b => b ≤ a)

abbrev Cursor := Option Entry × SSTable

def minKey (sstables : List Cursor) : Option String :=
  ((sstables.filterMap Prod.fst).map Entry.key).min?

/-
The first file that holds `min` wins, every file that holds it advances. A winning tombstone is not
written.
-/
def mergeRound (min : String) :
    List Cursor → MemTable → List String → Os σ (List Cursor × MemTable × List String)
  | [], memtable, seenKeys => return ([], memtable, seenKeys)
  | (none, sstable) :: rest, memtable, seenKeys => do
    let (rest, memtable, seenKeys) ← mergeRound min rest memtable seenKeys
    return ((none, sstable) :: rest, memtable, seenKeys)
  | (some entry, sstable) :: rest, memtable, seenKeys => do
    if entry.key = min then
      let memtable ←
        if min ∉ seenKeys ∧ entry.isSet then
          Prod.snd <$> on memtable (MemTable.process c entry)
        else
          pure memtable
      let cursor ← on sstable (SSTable.readNextEntry c)
      let (rest, memtable, seenKeys) ← mergeRound min rest memtable (seenKeys.insert min)
      return (cursor :: rest, memtable, seenKeys)
    else
      let (rest, memtable, seenKeys) ← mergeRound min rest memtable seenKeys
      return ((some entry, sstable) :: rest, memtable, seenKeys)

def mergeLoop : Nat → List Cursor → MemTable → List String → Os σ MemTable
  | 0, _, _, _ => raise .outOfFuel
  | fuel + 1, sstables, memtable, seenKeys => do
    let sstables := sstables.filter fun cursor => cursor.1.isSome
    match minKey sstables with
    | none => return memtable
    | some min =>
      let (sstables, memtable, seenKeys) ← mergeRound c min sstables memtable seenKeys
      let memtable ←
        if memtable.shouldFlush then
          Prod.snd <$> on memtable (MemTable.flushTo c)
        else
          pure memtable
      mergeLoop fuel sstables memtable seenKeys

def mergeFuel (sstables : List SSTable) : Nat :=
  (sstables.map SSTable.fuel).sum + 1

def openTables (names : List String) : Os σ (List SSTable) := do
  let sstableOpts ← names.mapM (SSTable.fromPath c)
  return sstableOpts.reduceOption

def compact : Os σ Unit := do
  let entries := sortNewestFirst (← readDir)
  let toDelete := entries
  let sstables ← openTables c entries
  let cursors ← sstables.mapM fun sstable => on sstable (SSTable.readNextEntry c)
  let memtable ← mergeLoop c (mergeFuel sstables) cursors .new []
  if !memtable.isEmpty then
    let _ ← on memtable (MemTable.flushTo c)
  toDelete.forM removeFile

end Chickadee
