import Mathlib

/-!
This module contains the functions of `str` that the parser of commands uses.
-/

namespace Chickadee

-- `char::is_whitespace`
def isWhitespace (ch : Char) : Bool :=
  let n := ch.toNat
  (9 ≤ n && n ≤ 13) || n == 0x20 || n == 0x85 || n == 0xA0 || n == 0x1680
    || (0x2000 ≤ n && n ≤ 0x200A) || n == 0x2028 || n == 0x2029 || n == 0x202F || n == 0x205F
    || n == 0x3000

def splitWhitespace (s : String) : List String :=
  ((s.toList.splitOnP isWhitespace).filter fun word => word ≠ []).map String.ofList

def trim (s : String) : String :=
  let start := s.toList.dropWhile isWhitespace
  String.ofList (start.reverse.dropWhile isWhitespace).reverse

/-
Beyond ASCII there are two characters with a letter of ASCII in their lower-case form: the sign of
the kelvin and the dotted capital I. The form of any other one is neither equal to a character of
ASCII, nor does it become one by what follows; here it stands for itself.
-/
def lowerChar (ch : Char) : List Char :=
  if ch.toNat = 0x212A then ['k']
  else if ch.toNat = 0x130 then ['i', Char.ofNat 0x307]
  else [ch.toLower]

def toLowercase (s : String) : String :=
  String.ofList (s.toList.flatMap lowerChar)

end Chickadee
