/-
  Hash codes of the Java types that keys are made of.
-/

namespace Java

/-- The `char`s of a code point: itself, or its surrogate pair. -/
def chars (c : Char) : List Nat :=
  if c.toNat < 0x10000 then [c.toNat]
  else [0xD800 + (c.toNat - 0x10000) / 0x400, 0xDC00 + (c.toNat - 0x10000) % 0x400]

/-- `String.hashCode`: the polynomial in 31 of the `char`s, in 32 bits. -/
def stringHash (s : String) : BitVec 32 :=
  (s.toList.flatMap chars).foldl (fun h c => 31 * h + BitVec.ofNat 32 c) 0

/-- `(int) (l ^ (l >>> 32))` -/
def longHash (l : BitVec 64) : BitVec 32 := (l ^^^ (l >>> 32)).truncate 32

end Java
