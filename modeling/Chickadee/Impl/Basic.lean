import Mathlib

/-!
This module contains the entries of the store, the errors of it and the crates it is built on.
-/

namespace Chickadee

abbrev Bytes := List UInt8

/--
The bytes of a `str`. The order of `String` is the one of `str`: UTF-8 keeps the order of the
characters.
-/
def bytesOf (s : String) : Bytes :=
  s.toUTF8.data.toList

inductive Entry where
  | set (key value : String)
  /-- Tombstone. -/
  | delete (key : String)
  deriving DecidableEq, Repr

namespace Entry

def key : Entry → String
  | .set key _ => key
  | .delete key => key

def value : Entry → Option String
  | .set _ value => some value
  | .delete _ => none

def isSet (e : Entry) : Bool :=
  e.value.isSome

@[simp] theorem key_set (k v : String) : (set k v).key = k := rfl
@[simp] theorem key_delete (k : String) : (delete k).key = k := rfl
@[simp] theorem isSet_set (k v : String) : (set k v).isSet = true := rfl
@[simp] theorem isSet_delete (k : String) : (delete k).isSet = false := rfl

end Entry

/--
What the functions of the store return in `Err`, apart from the failures of system calls.
-/
inductive Error where
  /-- `wincode::serialize` rejected the value. -/
  | wincode
  /-- An integer does not fit the type it is converted to. -/
  | tryFromInt
  /-- `anyhow::Context` on a `None`. -/
  | context (msg : String)
  /-- `anyhow::bail!`. -/
  | bail (msg : String)
  | notFound
  | invalidSeek
  | unexpectedEof
  /-- The file would outgrow what a file offset can say. -/
  | fileTooLarge
  /-- A loop of the model ran out of fuel. No error of the source, and never reached. -/
  | outOfFuel
  deriving DecidableEq, Repr

/--
The crates the on-disk format rests on: `wincode::serialize` and `wincode::deserialize` at one type
and `crc32fast::hash`.
-/
structure Codec (T : Type) where
  serialize : T → Option Bytes
  deserialize : Bytes → Option T
  crc32 : Bytes → UInt32

/--
`xxh3 key seed` is `xxh3::hash64_with_seed`.
-/
structure Crates extends Codec Entry where
  xxh3 : Bytes → UInt64 → UInt64

/--
wincode decodes what it encoded to the same value, with a payload that is not empty and has a length
that fits the header.
-/
structure Codec.RoundTrips {T : Type} (c : Codec T) (value : T) (payload : Bytes) : Prop where
  serialize_eq : c.serialize value = some payload
  deserialize_eq : c.deserialize payload = some value
  pos : 0 < payload.length
  lt : payload.length < 2 ^ 32

def u64Max : Nat := 2 ^ 64 - 1

def checkedAdd (a b : Nat) : Option Nat :=
  if a + b ≤ u64Max then some (a + b) else none

def checkedSub (a b : Nat) : Option Nat :=
  if b ≤ a then some (a - b) else none

def checkedMul (a b : Nat) : Option Nat :=
  if a * b ≤ u64Max then some (a * b) else none

def saturatingAdd (a b : Nat) : Nat :=
  min (a + b) u64Max

def saturatingSub (a b : Nat) : Nat :=
  a - b

def divCeil (a b : Nat) : Nat :=
  (a + b - 1) / b

theorem checkedAdd_eq_some {a b : Nat} (h : a + b < 2 ^ 64) : checkedAdd a b = some (a + b) := by
  unfold checkedAdd u64Max
  rw [if_pos (by omega)]

theorem checkedMul_eq_some {a b : Nat} (h : a * b < 2 ^ 64) : checkedMul a b = some (a * b) := by
  unfold checkedMul u64Max
  rw [if_pos (by omega)]

theorem checkedSub_eq_some {a b : Nat} (h : b ≤ a) : checkedSub a b = some (a - b) := by
  unfold checkedSub
  rw [if_pos h]

end Chickadee
