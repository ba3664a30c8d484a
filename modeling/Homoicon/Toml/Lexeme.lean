import Homoicon.Decimal.Reading

/-!
# Lexemes of TOML documents

Blanks, keys, strings, numbers and dates as readers on lists of characters.  A reader gives what it
found and the characters behind it, or nothing.
-/

namespace Homoicon.Toml

abbrev Reader (α : Type) := List Char → Option (α × List Char)

def skipSpaces (cs : List Char) : List Char := cs.dropWhile fun c => c = ' ' || c = '\t'

/-- Characters that may stand in comments and strings: no control character but the tab. -/
def isPlain (c : Char) : Bool := c = '\t' || (32 ≤ c.toNat && c.toNat ≠ 127)

/-- Behind a comment, if one comes next; it holds plain characters only. -/
def skipComment : List Char → List Char
  | '#' :: cs => cs.dropWhile isPlain
  | cs => cs

def newline? : List Char → Option (List Char)
  | '\n' :: cs => some cs
  | '\r' :: '\n' :: cs => some cs
  | _ => none

/-- Behind the blanks, comments and line ends between the items of an array. -/
def skipLines : Nat → List Char → List Char
  | 0, cs => cs
  | fuel + 1, cs =>
    let rest := skipComment (skipSpaces cs)
    match newline? rest with
    | some next => skipLines fuel next
    | none => rest

def literally? : List Char → List Char → Option (List Char)
  | [], cs => some cs
  | x :: xs, c :: cs => if x = c then literally? xs cs else none
  | _ :: _, [] => none

def hexDigit? (c : Char) : Option Nat :=
  if c.isDigit then some (c.toNat - '0'.toNat)
  else if 'a' ≤ c && c ≤ 'f' then some (c.toNat - 'a'.toNat + 10)
  else if 'A' ≤ c && c ≤ 'F' then some (c.toNat - 'A'.toNat + 10)
  else none

/-- Reads a character given by `count` hexadecimal digits. -/
def readCodePoint (count : Nat) : Reader Char := fun cs =>
  match (cs.take count).mapM hexDigit? with
  | some digits =>
    let n := digits.foldl (fun n d => 16 * n + d) 0
    if digits.length = count && n.isValidChar then some (Char.ofNat n, cs.drop count) else none
  | none => none

def readEscape : Reader Char
  | 'b' :: cs => some ('\x08', cs)
  | 't' :: cs => some ('\t', cs)
  | 'n' :: cs => some ('\n', cs)
  | 'f' :: cs => some ('\x0c', cs)
  | 'r' :: cs => some ('\r', cs)
  | '"' :: cs => some ('"', cs)
  | '\\' :: cs => some ('\\', cs)
  | 'u' :: cs => readCodePoint 4 cs
  | 'U' :: cs => readCodePoint 8 cs
  | _ => none

def pushChar (c : Char) : Option (List Char × List Char) → Option (List Char × List Char) :=
  Option.map fun (text, rest) => (c :: text, rest)

def readBasic : Nat → Reader (List Char)
  | 0, _ => none
  | _ + 1, [] => none
  | fuel + 1, c :: cs =>
    if c = '"' then some ([], cs)
    else if c = '\\' then
      match readEscape cs with
      | some (e, rest) => pushChar e (readBasic fuel rest)
      | none => none
    else if isPlain c then pushChar c (readBasic fuel cs)
    else none

def readLiteral (cs : List Char) : Option (List Char × List Char) :=
  let text := cs.takeWhile fun c => isPlain c && c ≠ '\x27'
  match cs.drop text.length with
  | '\x27' :: rest => some (text, rest)
  | _ => none

/-- The end of a string of several lines: three quotes, before which up to two more belong to the
string. -/
def closeLong? (quote : Char) (cs : List Char) : Option (List Char × List Char) :=
  let count := (cs.takeWhile (· = quote)).length
  if 3 ≤ count then
    let inner := min (count - 3) 2
    some (List.replicate inner quote, cs.drop (inner + 3))
  else none

def skipBlankLines : Nat → List Char → List Char
  | 0, cs => cs
  | fuel + 1, cs =>
    let rest := skipSpaces cs
    match newline? rest with
    | some next => skipBlankLines fuel next
    | none => rest

/-- Behind a backslash that ends a line: the line end and the blanks and line ends after it. -/
def joinLines? (cs : List Char) : Option (List Char) :=
  (newline? (skipSpaces cs)).map fun rest => skipBlankLines rest.length rest

def readLong (quote : Char) : Nat → Reader (List Char)
  | 0, _ => none
  | fuel + 1, cs =>
    match closeLong? quote cs with
    | some found => some found
    | none =>
      match newline? cs with
      | some rest => pushChar '\n' (readLong quote fuel rest)
      | none =>
        match cs with
        | [] => none
        | c :: rest =>
          if c = '\\' && quote = '"' then
            match readEscape rest with
            | some (e, behind) => pushChar e (readLong quote fuel behind)
            | none =>
              match joinLines? rest with
              | some behind => readLong quote fuel behind
              | none => none
          else if isPlain c then pushChar c (readLong quote fuel rest)
          else none

/-- Reads a string of several lines behind its opening quotes; a line end directly behind them does
not count. -/
def readLongString (quote : Char) (cs : List Char) : Option (List Char × List Char) :=
  let body := (newline? cs).getD cs
  readLong quote (body.length + 1) body

def readString : Reader String := fun cs =>
  let found :=
    match cs with
    | '"' :: '"' :: '"' :: rest => readLongString '"' rest
    | '"' :: rest => readBasic (rest.length + 1) rest
    | '\x27' :: '\x27' :: '\x27' :: rest => readLongString '\x27' rest
    | '\x27' :: rest => readLiteral rest
    | _ => none
  found.map fun (text, rest) => (String.ofList text, rest)

def isBareKey (c : Char) : Bool := c.isAlphanum || c = '_' || c = '-'

def readKeyPart : Reader String
  | '"' :: cs => (readBasic (cs.length + 1) cs).map fun (text, rest) => (String.ofList text, rest)
  | '\x27' :: cs => (readLiteral cs).map fun (text, rest) => (String.ofList text, rest)
  | cs =>
    let text := cs.takeWhile isBareKey
    if text.isEmpty then none else some (String.ofList text, cs.drop text.length)

/-- Keys have fewer parts than this, and arrays and tables in braces lie less deep. -/
def nestingLimit : Nat := 80

/-- Reads parts of a key with points between them, and blanks around each part. -/
def readKeyParts : Nat → Reader (List String)
  | 0, _ => none
  | fuel + 1, cs =>
    match readKeyPart (skipSpaces cs) with
    | none => none
    | some (part, rest) =>
      match skipSpaces rest with
      | '.' :: more => (readKeyParts fuel more).map fun (parts, behind) => (part :: parts, behind)
      | behind => some ([part], behind)

def readKey : Reader (List String) := fun cs =>
  (readKeyParts (cs.length + 1) cs).filter fun found => found.1.length < nestingLimit

/-! ### Numbers -/

/-- The digits of a word in which single underscores may stand between digits. -/
def digitsOf? (isDigit : Char → Bool) : List Char → Option (List Char)
  | [] => none
  | [c] => if isDigit c then some [c] else none
  | c :: '_' :: d :: cs =>
    if isDigit c && isDigit d then (digitsOf? isDigit (d :: cs)).map (c :: ·) else none
  | c :: cs => if isDigit c then (digitsOf? isDigit cs).map (c :: ·) else none

def valueIn (base : Nat) (digits : List Char) : Nat :=
  digits.foldl (fun n c => base * n + (hexDigit? c).getD 0) 0

def unsigned : List Char → List Char
  | '+' :: cs | '-' :: cs => cs
  | cs => cs

def plainDigits? (cs : List Char) : Option (List Char) :=
  match digitsOf? Char.isDigit cs with
  | some digits => if 1 < digits.length && digits.head? = some '0' then none else some digits
  | none => none

def integerOf? (cs : List Char) : Option Int :=
  let size :=
    match cs with
    | '0' :: 'x' :: digits => (digitsOf? (fun c => (hexDigit? c).isSome) digits).map (valueIn 16)
    | '0' :: 'o' :: digits => (digitsOf? (fun c => '0' ≤ c && c ≤ '7') digits).map (valueIn 8)
    | '0' :: 'b' :: digits => (digitsOf? (fun c => c = '0' || c = '1') digits).map (valueIn 2)
    | _ => (plainDigits? (unsigned cs)).map (valueIn 10)
  let value := size.map fun n => if cs.head? = some '-' then -(n : Int) else (n : Int)
  value.filter fun n => Int64.minValue.toInt ≤ n && n ≤ Int64.maxValue.toInt

def isExponent (cs : List Char) : Bool := (digitsOf? Char.isDigit (unsigned cs)).isSome

/-- Whether digits stand for a number beyond all finite ones. -/
def isBoundless (cs : List Char) : Bool :=
  match Decimal.readScientific? (cs.filter (· ≠ '_')) with
  | some size => size.nearestBits = Decimal.infinityBits
  | none => false

/-- Whether a word is a number with a fraction or an exponent, or one of the special numbers.  A
number too large to be held is refused, unless it is negative. -/
def isFloat (cs : List Char) : Bool :=
  let body := unsigned cs
  let word := String.ofList body
  let isMark (c : Char) : Bool := c = 'e' || c = 'E'
  let mantissa := body.takeWhile fun c => !isMark c
  let exponent := body.drop mantissa.length
  let whole := mantissa.takeWhile (· ≠ '.')
  let fraction := mantissa.drop whole.length
  word = "inf" || word = "nan" ||
    ((plainDigits? whole).isSome
      && (!fraction.isEmpty || !exponent.isEmpty)
      && (fraction.isEmpty || (digitsOf? Char.isDigit (fraction.drop 1)).isSome)
      && (exponent.isEmpty || isExponent (exponent.drop 1))
      && (cs.head? = some '-' || !isBoundless body))

/-! ### Dates and times -/

/-- A number of exactly `count` digits within bounds, and what follows. -/
def fixedDigits? (count low high : Nat) (cs : List Char) : Option (Nat × List Char) :=
  let digits := cs.take count
  let n := valueIn 10 digits
  if digits.length = count && digits.all Char.isDigit && low ≤ n && n ≤ high then
    some (n, cs.drop count)
  else none

def daysIn (year month : Nat) : Nat :=
  if month = 2 then
    if year % 4 = 0 && (year % 100 ≠ 0 || year % 400 = 0) then 29 else 28
  else if [4, 6, 9, 11].contains month then 30
  else 31

def afterDate? (cs : List Char) : Option (List Char) := do
  let (year, cs) ← fixedDigits? 4 0 9999 cs
  let cs ← literally? ['-'] cs
  let (month, cs) ← fixedDigits? 2 1 12 cs
  let cs ← literally? ['-'] cs
  let (_, cs) ← fixedDigits? 2 1 (daysIn year month) cs
  return cs

def afterTime? (cs : List Char) : Option (List Char) := do
  let (_, cs) ← fixedDigits? 2 0 23 cs
  let cs ← literally? [':'] cs
  let (_, cs) ← fixedDigits? 2 0 59 cs
  let cs ← literally? [':'] cs
  let (_, cs) ← fixedDigits? 2 0 60 cs
  match cs with
  | '.' :: rest =>
    if (rest.takeWhile Char.isDigit).isEmpty then none else return rest.dropWhile Char.isDigit
  | _ => return cs

/-- Whether the characters are an offset from universal time, or none. -/
def isOffset (cs : List Char) : Bool :=
  match cs with
  | [] => true
  | c :: rest =>
    if c = 'Z' || c = 'z' then rest.isEmpty
    else if c = '+' || c = '-' then
      match fixedDigits? 2 0 23 rest with
      | some (_, ':' :: minutes) =>
        match fixedDigits? 2 0 59 minutes with
        | some (_, []) => true
        | _ => false
      | _ => false
    else false

def isDateTime (cs : List Char) : Bool :=
  match afterDate? cs with
  | some [] => true
  | some (c :: rest) =>
    (c = 'T' || c = 't' || c = ' ') &&
      match afterTime? rest with
      | some offset => isOffset offset
      | none => false
  | none =>
    match afterTime? cs with
    | some rest => rest.isEmpty
    | none => false

end Homoicon.Toml
