import Chickadee.Impl.Header

/-!
This module contains the bloom filter of an `SSTable` and the reader of its footer
`[filter_bytes][bit_count: u32 le]`.
-/

namespace Chickadee

open Faulty Faulty.Io LittleEndian

structure BloomFilter where
  bitCount : Nat
  inner : Bytes
  deriving DecidableEq, Repr

namespace BloomFilter

variable (c : Crates)

def positions (key : Bytes) (bitCount : Nat) : List Nat :=
  let h1 := c.xxh3 key 0
  let h2 := c.xxh3 key 1
  (List.range 7).filterMap fun i =>
    if bitCount = 0 then none else some ((h1 + UInt64.ofNat i * h2).toNat % bitCount)

def new (bitCount : Nat) : BloomFilter :=
  let byteCount := divCeil bitCount 8
  { bitCount := bitCount, inner := List.replicate byteCount 0 }

def setBit (inner : Bytes) (pos : Nat) : Bytes :=
  inner.modify (pos / 8) fun byte => byte ||| 1 <<< UInt8.ofNat (pos % 8)

def insert (filter : BloomFilter) (key : Bytes) : BloomFilter :=
  { filter with inner := (positions c key filter.bitCount).foldl setBit filter.inner }

def hasBit (inner : Bytes) (pos : Nat) : Bool :=
  match inner[pos / 8]? with
  | none => true
  | some byte => byte &&& 1 <<< UInt8.ofNat (pos % 8) != 0

def mayContain (filter : BloomFilter) (key : Bytes) : Bool :=
  (positions c key filter.bitCount).all (hasBit filter.inner)

end BloomFilter

def readBloomFilter : FileIo (Option BloomFilter) := do
  seek (.fromEnd 0)
  let size ← streamPosition
  if size < 4 then
    return none
  seek (.fromEnd 4)
  let bitCountBytes ← readExact 4
  let bitCount := ofLe bitCountBytes
  let byteCount := divCeil bitCount 8
  let footerLen ← context (checkedAdd byteCount 4) "bloom filter footer too large"
  match checkedSub size footerLen with
  | none => return none
  | some filterStart =>
    seek (.start filterStart)
    let inner ← readExact byteCount
    seek (.start 0)
    return some { bitCount := bitCount, inner := inner }

end Chickadee
