import Chickadee.Impl.Command

/-!
This module contains the crates as they are: wincode at `Entry` with its default configuration, the
CRC-32 of crc32fast, and xxh3 on keys of one to three bytes, the only ones it is run on here.
-/

namespace Chickadee
namespace Concrete

open LittleEndian

def writeStr (s : String) : Bytes :=
  toLe 8 (bytesOf s).length ++ bytesOf s

def readStr (bytes : Bytes) : Option (String × Bytes) :=
  let len := ofLe (bytes.take 8)
  let rest := bytes.drop 8
  if bytes.length < 8 ∨ rest.length < len then
    none
  else
    (String.fromUTF8? ⟨(rest.take len).toArray⟩).map fun s => (s, rest.drop len)

def serialize : Entry → Option Bytes
  | .set key value => some (toLe 4 0 ++ writeStr key ++ writeStr value)
  | .delete key => some (toLe 4 1 ++ writeStr key)

def deserialize (bytes : Bytes) : Option Entry :=
  if bytes.length < 4 then
    none
  else
    match ofLe (bytes.take 4) with
    | 0 => do
      let (key, rest) ← readStr (bytes.drop 4)
      let (value, _) ← readStr rest
      return .set key value
    | 1 => do
      let (key, _) ← readStr (bytes.drop 4)
      return .delete key
    | _ => none

def crc32Bit (crc : UInt32) : UInt32 :=
  if crc &&& 1 = 1 then crc >>> 1 ^^^ 0xEDB88320 else crc >>> 1

def crc32 (bytes : Bytes) : UInt32 :=
  bytes.foldl (fun crc byte => crc32Bit^[8] (crc ^^^ byte.toUInt32)) 0xFFFFFFFF ^^^ 0xFFFFFFFF

def xxh3 (key : Bytes) (seed : UInt64) : UInt64 :=
  let byte (i : Nat) : UInt64 := (key.getD i 0).toUInt64
  let len := key.length
  let combined := byte 0 <<< 16 ||| byte (len / 2) <<< 24 ||| byte (len - 1) |||
    UInt64.ofNat len <<< 8
  let h := combined ^^^ ((0x396cfeb8 ^^^ 0xbe4ba423) + seed)
  let h := (h ^^^ h >>> 33) * 0xC2B2AE3D27D4EB4F
  let h := (h ^^^ h >>> 29) * 0x165667B19E3779F9
  h ^^^ h >>> 32

def crates : Crates where
  serialize := serialize
  deserialize := deserialize
  crc32 := crc32
  xxh3 := xxh3

end Concrete
end Chickadee
