import Homoicon.Source.Position
import Homoicon.Text.Alphabetic
import Homoicon.Text.Blank

/-!
# Tokens

Source text is a sequence of tokens with blanks and comments between them.  A comment runs from a
semicolon to the end of its line.  Every token knows where it starts and whether it is joined to the
token before it, with nothing in between.
-/

namespace Homoicon.Source

inductive Token where
  | opening (b : Bracket)
  | closing (b : Bracket)
  | text (s : String)
  | tag (s : String)
  | comma
  | apostrophe
  | atSign
  /-- A run of word characters, not yet told apart. -/
  | run (s : String)
  | endOfInput
  deriving DecidableEq, Inhabited

/-- How a token is shown: a text by its characters between quotes, as they are. -/
def Token.display : Token → String
  | .opening b => b.openText
  | .closing b => b.closeText
  | .text s => "\"" ++ s ++ "\""
  | .tag s => "<" ++ s ++ ">"
  | .comma => ","
  | .apostrophe => "'"
  | .atSign => "@"
  | .run s => s
  | .endOfInput => "end of input"

structure Spanned where
  token : Token
  position : Position
  /-- Nothing stands between this token and the one before it. -/
  joined : Bool
  deriving DecidableEq, Inhabited

/-- The text still to be read and its place. -/
structure Cursor where
  rest : List Char
  position : Position
  deriving DecidableEq, Inhabited

def Cursor.start (s : String) : Cursor := ⟨s.toList, {}⟩

def Cursor.skip (n : Nat) (c : Cursor) : Cursor :=
  ⟨c.rest.drop n, c.position.afterAll (c.rest.take n)⟩

def isDelimiter (c : Char) : Bool :=
  Text.isBlank c || ['[', ']', '(', ')', '"', ';', ',', '\x7b', '\x7d'].contains c

/-- The cursor behind leading blanks and comments; `inComment` says that a comment is open. -/
def skipTrivia (inComment : Bool) : List Char → Position → Cursor
  | [], p => ⟨[], p⟩
  | c :: cs, p =>
    if inComment then skipTrivia (c != '\n') cs (p.after c)
    else if Text.isBlank c then skipTrivia false cs (p.after c)
    else if c = ';' then skipTrivia true cs (p.after c)
    else ⟨c :: cs, p⟩

def isEscape (c : Char) : Bool := c = '^' || c = '\\'

def unescape (c : Char) : Char :=
  if c = 'n' || c = '/' then '\n' else if c = 't' || c = '-' then '\t' else c

/-- What a reader finds: the characters of the token and the cursor behind it. -/
abbrev Found := Except ScanError (List Char × Cursor)

def Found.push (c : Char) (f : Found) : Found := f.map fun (cs, k) => (c :: cs, k)

def readText : List Char → Position → Found
  | [], p => .error ⟨.unclosedText, p⟩
  | c :: cs, p =>
    if c = '"' then .ok ([], ⟨cs, p.after c⟩)
    else if c = '\n' then .error ⟨.newlineInText, p.after c⟩
    else if isEscape c then
      match cs with
      | [] => .error ⟨.endInEscape, p.after c⟩
      | d :: ds => Found.push (unescape d) (readText ds ((p.after c).after d))
    else Found.push c (readText cs (p.after c))

/-- Reads the rest of a text that began with a brace; `depth` inner braces are open. -/
def readBraced (depth : Nat) : List Char → Position → Found
  | [], p => .error ⟨.unclosedBraces, p⟩
  | c :: cs, p =>
    if c = '\x7b' then Found.push c (readBraced (depth + 1) cs (p.after c))
    else if c = '\x7d' then
      if depth = 0 then .ok ([], ⟨cs, p.after c⟩)
      else Found.push c (readBraced (depth - 1) cs (p.after c))
    else if c = '^' then
      match cs with
      | [] => .error ⟨.unclosedBraces, p.after c⟩
      | d :: ds => Found.push d (readBraced depth ds ((p.after c).after d))
    else Found.push c (readBraced depth cs (p.after c))

def readTag : List Char → Position → Found
  | [], p => .error ⟨.unclosedTag, p⟩
  | c :: cs, p =>
    if c = '>' then .ok ([], ⟨cs, p.after c⟩)
    else if Text.isBlank c then .error ⟨.blankInTag, p.after c⟩
    else Found.push c (readTag cs (p.after c))

def readRun (c : Cursor) : List Char × Cursor :=
  let run := c.rest.takeWhile fun ch => !isDelimiter ch
  (run, ⟨c.rest.dropWhile fun ch => !isDelimiter ch, c.position.afterAll run⟩)

/-- Whether an at sign before `next` is a token of its own. -/
def silences : List Char → Bool
  | next :: _ => !isDelimiter next || next = '(' || next = '['
  | [] => false

/-- Whether a less-than sign before `next` opens a tag; before anything else it belongs to a word
such as `<=`. -/
def opensTag : List Char → Bool
  | next :: _ => Text.isAlphabetic next || next = '.'
  | [] => false

/-- Reads the token at the cursor, where no blank and no comment stands. -/
def readToken (c : Cursor) : Except ScanError (Token × Cursor) :=
  let ofChars (make : String → Token) (f : Found) : Except ScanError (Token × Cursor) :=
    f.map fun (cs, k) => (make (String.ofList cs), k)
  match c.rest with
  | [] => .ok (.endOfInput, c)
  | ch :: cs =>
    let next := c.skip 1
    if ch = '[' then .ok (.opening .square, next)
    else if ch = ']' then .ok (.closing .square, next)
    else if ch = '(' then .ok (.opening .round, next)
    else if ch = ')' then .ok (.closing .round, next)
    else if ch = ',' then .ok (.comma, next)
    else if ch = '"' then ofChars .text (readText cs next.position)
    else if ch = '\x7b' then ofChars .text (readBraced 0 cs next.position)
    else if ch = '\x7d' then .error ⟨.unexpectedBrace, c.position⟩
    else if ch = '\x27' then .ok (.apostrophe, next)
    else if ch = '@' && silences cs then .ok (.atSign, next)
    else if ch = '<' && opensTag cs then ofChars .tag (readTag cs next.position)
    else
      let (run, behind) := readRun c
      .ok (.run (String.ofList run), behind)

def nextToken (c : Cursor) : Except ScanError (Spanned × Cursor) :=
  let here := skipTrivia false c.rest c.position
  (readToken here).map fun (token, behind) =>
    (⟨token, here.position, decide (here.position = c.position)⟩, behind)

/-- The tokens of a text, and the error that ended them, if any. -/
structure Lexed where
  tokens : List Spanned
  fault : Option ScanError
  deriving DecidableEq, Inhabited

/-- Reads at most `fuel` tokens.  Every token but the last has a character, so one more than the
number of characters is enough. -/
def lexFrom : Nat → Cursor → Lexed
  | 0, _ => ⟨[], none⟩
  | fuel + 1, c =>
    match nextToken c with
    | .error e => ⟨[], some e⟩
    | .ok (t, behind) =>
      if t.token = .endOfInput then ⟨[t], none⟩
      else
        let rest := lexFrom fuel behind
        ⟨t :: rest.tokens, rest.fault⟩

def lex (s : String) : Lexed := lexFrom (s.toList.length + 1) (Cursor.start s)

def tokenize (s : String) : Except ScanError (List Spanned) :=
  let l := lex s
  match l.fault with
  | some e => .error e
  | none => .ok l.tokens

end Homoicon.Source
