/-! # Letter case in ASCII

Names that are looked up without regard to case are ASCII, and no letter
outside ASCII has a lower-case form among their letters.
-/

namespace Cyclomatic

def lowerChar (c : Char) : Char :=
  if 'A' ≤ c && c ≤ 'Z' then Char.ofNat (c.toNat + 32) else c

def lowerText (s : String) : String := String.ofList (s.toList.map lowerChar)

def upperChar (c : Char) : Char :=
  if 'a' ≤ c && c ≤ 'z' then Char.ofNat (c.toNat - 32) else c

def upperText (s : String) : String := String.ofList (s.toList.map upperChar)

end Cyclomatic
