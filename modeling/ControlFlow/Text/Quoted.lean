import ControlFlow.Text.Ignorable
import ControlFlow.Text.Mark
import ControlFlow.Text.Unprinted

/-!
# Texts between quotes

    A text is quoted so that every character of it can be seen and told apart.
    Quotes, backslashes and the common controls have short escapes; whatever
    else has no picture of its own, or would join its neighbour, is written as
    its code point in hexadecimal.
-/

namespace ControlFlow.Text.Quoted

/-- Whether a character stands for itself: it has a picture, no display leaves
    it out, and it does not join the character before it. -/
def isPlain (c : Char) : Bool :=
  !(unprinted.covers c.toNat || extendingMarks.covers c.toNat || ignorable.covers c.toNat)

/-- One character of a quoted text. -/
def encodeChar (c : Char) : List Char :=
  if c = '"' then ['\\', '"']
  else if c = '\\' then ['\\', '\\']
  else if c = '\t' then ['\\', 't']
  else if c = '\n' then ['\\', 'n']
  else if c = '\r' then ['\\', 'r']
  else if c.toNat = 0 then ['\\', '0']
  else if isPlain c then [c]
  else ['\\', 'u', '\x7b'] ++ Nat.toDigits 16 c.toNat ++ ['\x7d']

/-- A text between double quotes. -/
def encode (text : String) : String :=
  String.ofList (['"'] ++ text.toList.flatMap encodeChar ++ ['"'])

end ControlFlow.Text.Quoted
