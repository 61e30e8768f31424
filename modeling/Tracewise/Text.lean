namespace Tracewise.Text

def commas (items : List String) : String := String.intercalate ", " items

def braced (items : List String) : String := "\x7b" ++ commas items ++ "\x7d"

def bracketed (items : List String) : String := "[" ++ commas items ++ "]"

def parenthesised (items : List String) : String := "(" ++ commas items ++ ")"

def cited (s : String) : String := "'" ++ s ++ "'"

namespace Numeral

def isSeparatedDigit (c : Char) : Bool := c.isDigit || c == '_'

def digitValue (c : Char) : Nat := c.toNat - '0'.toNat

def accumulate (acc : Nat) (cs : List Char) : Nat :=
  cs.foldl (fun n c => if c == '_' then n else 10 * n + digitValue c) acc

def magnitude? : List Char → Option Nat
  | [] => none
  | c :: cs =>
    if c.isDigit && cs.all isSeparatedDigit then some (accumulate (digitValue c) cs) else none

def parseChars? : List Char → Option Int
  | '-' :: cs => (magnitude? cs).map fun n => -(n : Int)
  | '+' :: cs => (magnitude? cs).map Int.ofNat
  | cs => (magnitude? cs).map Int.ofNat

def parse? (s : String) : Option Int := parseChars? s.toList

end Numeral

end Tracewise.Text
