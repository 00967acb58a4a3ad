import Chickadee.Impl.SSTable

/-!
This module contains the memtable: the most recent entry of every key, and the flush of it to a new
`SSTable`.
-/

namespace Chickadee

open Faulty Faulty.Io LittleEndian

structure MemTable where
  inner : SortedMap String Entry
  size : Nat
  keyed : ∀ p ∈ inner.entries, p.2.key = p.1

def flushThresholdMb : Nat := 4

namespace MemTable

variable {σ : Type} (c : Crates)

def new : MemTable :=
  { inner := .empty, size := 0, keyed := by simp [SortedMap.empty] }

def entrySize (entry : Entry) : Except Error Nat :=
  match c.serialize entry with
  | none => .error .wincode
  | some payload => .ok (saturatingAdd (bytesOf entry.key).length payload.length)

def store (self : MemTable) (entry : Entry) (size : Nat) : MemTable where
  inner := self.inner.insert entry.key entry
  size := size
  keyed := by
    intro p hp
    rcases SortedMap.mem_insertEntry hp with hp | hp
    . rw [hp]
    . exact self.keyed p hp

def process (entry : Entry) : Os MemTable (Option Entry) := do
  let self ← getSelf
  match self.inner.get? entry.key with
  | some previous =>
    let previousSize ← ofExcept (entrySize c previous)
    setSelf { self with size := saturatingSub self.size previousSize }
  | none => pure ()
  let size ← ofExcept (entrySize c entry)
  let self ← getSelf
  setSelf (self.store entry (saturatingAdd self.size size))
  return self.inner.get? entry.key

def shouldFlush (self : MemTable) : Bool :=
  flushThresholdMb * 2 ^ 20 < self.size

def clear (_self : MemTable) : MemTable :=
  new

def len (self : MemTable) : Nat :=
  self.inner.size

def isEmpty (self : MemTable) : Bool :=
  self.size == 0 && self.inner.isEmpty

def get (self : MemTable) (key : String) : Option Entry :=
  self.inner.get? key

def values (self : MemTable) : List Entry :=
  self.inner.values

def fromFileLoop : Nat → MemTable → FileIo MemTable
  | 0, _ => raise .outOfFuel
  | fuel + 1, memtable => do
    match ← attempt (headerReadNext c.toCodec) with
    | .ok (some entry) =>
      let (_, memtable) ← on memtable (process c entry)
      fromFileLoop fuel memtable
    | _ => return memtable

def fromFile : FileIo MemTable := do
  seek (.start 0)
  -- no call of the source: the loop reads at most one entry a byte
  let file ← getSelf
  let fuel := ((← peek).read file.path).length + 2
  fromFileLoop c fuel new

-- `format!("{ts:020}.sst")`
def fileName (ts : Nat) : String :=
  String.ofList ((Nat.toDigits 10 ts).leftpad 20 '0') ++ ".sst"

def writeEntries (entries : List Entry) (filter : BloomFilter) : FileIo BloomFilter :=
  entries.foldlM (fun filter entry => do
    headerWrite c.toCodec entry
    return filter.insert c (bytesOf entry.key)) filter

def writeTable (self : MemTable) : FileIo Unit := do
  -- 10 bits per key is ideal for k=7
  let bitCount ← context (checkedMul self.len 10) "bloom filter bit count overflow"
  let bloomFilter ← writeEntries c self.values (.new bitCount)
  writeAll bloomFilter.inner
  if 2 ^ 32 ≤ bitCount then
    raise .tryFromInt
  else
    writeAll (toLe 4 bitCount)
    syncAll

def flushTo : Os MemTable Unit := do
  let self ← getSelf
  if self.isEmpty then
    return
  createDirAll
  let ts ← now
  let file ← createFile (.sstable (fileName ts)) true
  let _ ← on file (self.writeTable c)
  setSelf self.clear

end MemTable

end Chickadee
