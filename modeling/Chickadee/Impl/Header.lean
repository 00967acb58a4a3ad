import Chickadee.Lib.LittleEndian
import Chickadee.Lib.Resync
import Chickadee.Impl.Disk

/-!
This module contains the on-disk record format `[magic: 2B][crc32: 4B][entry_len: 4B][payload]`: the
serializer, the deserializer, the writer that appends and the reader that resynchronises.
-/

namespace Chickadee

open Faulty Faulty.Io LittleEndian

def headerLen : Nat := 10

def magic : Nat := 0x4443

inductive CorruptionType where
  | notEnoughBytes
  | magicBytesMismatch
  | checksumMismatch
  | parseError
  deriving DecidableEq, Repr

variable {T : Type} (c : Codec T)

def Serializer.serialize (value : T) : Except Error Bytes :=
  match c.serialize value with
  | none => .error .wincode
  | some entryBytes =>
    let checksum := c.crc32 entryBytes
    let len := entryBytes.length
    if 2 ^ 32 ≤ len then
      .error .tryFromInt
    else
      .ok (toLe 2 magic ++ toLe 4 checksum.toNat ++ toLe 4 len ++ entryBytes)

def splitFirstChunk (n : Nat) (bytes : Bytes) : Except CorruptionType (Bytes × Bytes) :=
  if n ≤ bytes.length then .ok (bytes.take n, bytes.drop n) else .error .notEnoughBytes

def Deserializer.deserialize (value : Bytes) : Except CorruptionType (T × Nat) :=
  if value.length ≤ headerLen then
    .error .notEnoughBytes
  else do
    let (magicBytes, rest) ← splitFirstChunk 2 value
    if ofLe magicBytes ≠ magic then
      .error .magicBytesMismatch
    else do
      let (checksumBytes, rest) ← splitFirstChunk 4 rest
      let checksum := ofLe checksumBytes
      let (lenBytes, rest) ← splitFirstChunk 4 rest
      let len := ofLe lenBytes
      if rest.length < len then
        .error .notEnoughBytes
      else
        let entryBytes := rest.take len
        if checksum ≠ (c.crc32 entryBytes).toNat then
          .error .checksumMismatch
        else
          match c.deserialize entryBytes, checkedAdd headerLen len with
          | none, _ => .error .parseError
          | some _, none => .error .notEnoughBytes
          | some value, some consumed => .ok (value, consumed)

def parseRecord (bytes : Bytes) : Option (T × Nat) :=
  (Deserializer.deserialize c bytes).toOption

def headerWrite (value : T) : FileIo Unit := do
  seek (.fromEnd 0)
  let bytes ← ofExcept (Serializer.serialize c value)
  writeAll bytes

def headerReadNext : FileIo (Option T) := do
  let pos ← streamPosition
  seek (.fromEnd 0)
  let bufLen ← streamPosition
  seek (.start pos)
  if bufLen ≤ pos then
    return none
  let bytes ← readToEnd
  -- the loop over `p` with the first window that deserializes
  match Resync.scan (parseRecord c) bytes with
  | some (p, entry, len) =>
    let next ← context ((checkedAdd pos p).bind (checkedAdd · len)) "entry offset overflows u64"
    seek (.start next)
    return some entry
  | none => return none

def headerHasAtLeastOne : FileIo Bool := do
  let pos ← streamPosition
  seek (.start 0)
  let value ← headerReadNext c
  seek (.start pos)
  return value.isSome

end Chickadee
