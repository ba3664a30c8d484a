import Homoicon.Text.Extending
import Homoicon.Text.Printable

/-!
# Quoted text

The written form of a text: its characters between double quotes, with the quote, the backslash
and the characters that would not show by themselves replaced by escapes.
-/

namespace Homoicon.Text

/-- The escape by code point: a backslash, `u` and the lower case hexadecimal number in braces. -/
def codePointEscape (c : Char) : List Char :=
  ['\\', 'u', '\x7b'] ++ Nat.toDigits 16 c.toNat ++ ['\x7d']

/-- The half-width sound marks, which attach to the character before them but show by themselves. -/
def isSoundMark (c : Char) : Bool := c = '\uff9e' || c = '\uff9f'

/-- Whether `c` would not show by itself: it has no printed form, or it is drawn onto the character
before it. -/
def isHidden (c : Char) : Bool := !isPrintable c || (isExtending c && !isSoundMark c)

def quotedChar (c : Char) : List Char :=
  if c = '\x00' then ['\\', '0']
  else if c = '\t' then ['\\', 't']
  else if c = '\r' then ['\\', 'r']
  else if c = '\n' then ['\\', 'n']
  else if c = '"' then ['\\', '"']
  else if c = '\\' then ['\\', '\\']
  else if isHidden c then codePointEscape c
  else [c]

def quotedChars (cs : List Char) : List Char := cs.flatMap quotedChar

def quoted (s : String) : String :=
  String.ofList ('"' :: quotedChars s.toList ++ ['"'])

theorem isHidden_of_ascii {c : Char} (h : 32 ≤ c.toNat) (h' : c.toNat < 127) :
    isHidden c = false := by
  have hlt : c.toNat < 128 := by omega
  simp [isHidden, isPrintable_of_ascii h h', isExtending_of_ascii hlt]

@[simp] theorem quotedChars_nil : quotedChars [] = [] := rfl

@[simp] theorem quotedChars_cons (c : Char) (cs : List Char) :
    quotedChars (c :: cs) = quotedChar c ++ quotedChars cs := rfl

theorem toList_quoted (s : String) :
    (quoted s).toList = '"' :: (quotedChars s.toList ++ ['"']) := by
  simp [quoted]

end Homoicon.Text
