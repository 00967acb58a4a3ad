import Chickadee.Impl.BloomFilter

/-!
This module contains the reader of the `SSTable` files.
-/

namespace Chickadee

open Faulty Faulty.Io

structure SSTable where
  bloomFilter : BloomFilter
  bloomFilterPos : Nat
  file : File
  deriving DecidableEq, Repr

namespace SSTable

variable {σ : Type} (c : Crates)

-- what `from_path` does with the file once it is open
def fromFile : FileIo (Option (BloomFilter × Nat)) := do
  match ← readBloomFilter with
  | none => return none
  | some bloomFilter =>
    let footerLen ← context (checkedAdd bloomFilter.inner.length 4) "bloom filter footer too large"
    let len ← metadataLen
    let bloomFilterPos ← context (checkedSub len footerLen)
      "sstable shorter than its bloom filter footer"
    if !(← headerHasAtLeastOne c.toCodec) then
      return none
    return some (bloomFilter, bloomFilterPos)

def fromPath (name : String) : Os σ (Option SSTable) := do
  let file ← openFile (.sstable name)
  match ← on file (fromFile c) with
  | (none, _) => return none
  | (some (bloomFilter, bloomFilterPos), file) =>
    return some { bloomFilter := bloomFilter, bloomFilterPos := bloomFilterPos, file := file }

def zoomFile {α : Type} (x : FileIo α) : Os SSTable α :=
  zoom SSTable.file (fun sstable file => { sstable with file := file }) x

def readNextEntry : Os SSTable (Option Entry) := do
  let self ← getSelf
  if self.bloomFilterPos < (← zoomFile streamPosition) then
    return none
  zoomFile (headerReadNext c.toCodec)

/-
A bound on the number of calls of `readNextEntry` that return an entry: each one moves the cursor,
and none is made from beyond `bloomFilterPos`.
-/
def fuel (sstable : SSTable) : Nat :=
  sstable.bloomFilterPos + 2

end SSTable

end Chickadee
