import Homoicon.Toml.Lexeme

/-!
# TOML documents

A document is a tree of tables.  A key may be given one value only, and a table may be opened by one
header only; tables that a header or a dotted key made on the way may still be added to.
-/

namespace Homoicon.Toml

inductive Origin where
  /-- By a header of its own, or as the root. -/
  | header
  | implicit
  | dotted
  | braces
  deriving DecidableEq, Inhabited

inductive Item where
  | string (s : String)
  | integer (n : Int)
  | float
  | boolean (b : Bool)
  | dateTime
  | array (items : List Item)
  | table (origin : Origin) (entries : List (String × Item))
  /-- Tables opened one after another under one name, the last first. -/
  | tables (items : List (List (String × Item)))

instance : Inhabited Item := ⟨.float⟩

abbrev Entries := List (String × Item)

namespace Entries

def item? (es : Entries) (key : String) : Option Item :=
  (es.find? fun e => e.1 == key).map (·.2)

def put (es : Entries) (key : String) (item : Item) : Entries :=
  if es.any fun e => e.1 == key then es.map fun e => if e.1 == key then (key, item) else e
  else es ++ [(key, item)]

/-- Gives a value to a key of a table.  The way of a dotted key may lead through tables made by
dotted keys or on the way to headers, and through the last of several tables under one name; the
table that holds the value must have been made by a dotted key. -/
def assign (es : Entries) (value : Item) : List String → Option Entries
  | [] => none
  | [key] => if (es.item? key).isSome then none else some (es.put key value)
  | key :: rest =>
    match es.item? key with
    | none => (assign [] value rest).map fun inner => es.put key (.table .dotted inner)
    | some (.table .dotted inner) =>
      (assign inner value rest).map fun inner => es.put key (.table .dotted inner)
    | some (.table .implicit inner) =>
      if rest.length < 2 then none
      else (assign inner value rest).map fun inner => es.put key (.table .implicit inner)
    | some (.tables (last :: others)) =>
      if rest.length < 2 then none
      else (assign last value rest).map fun last => es.put key (.tables (last :: others))
    | some _ => none

/-- Changes the table at the end of a path of headers.  Tables on the way are made if missing, and
of several tables under one name the last one counts. -/
def within (es : Entries) (change : Entries → Option Entries) : List String → Option Entries
  | [] => change es
  | key :: rest =>
    match es.item? key with
    | none => (within [] change rest).map fun inner => es.put key (.table .implicit inner)
    | some (.table .braces _) => none
    | some (.table origin inner) =>
      (within inner change rest).map fun inner => es.put key (.table origin inner)
    | some (.tables (last :: others)) =>
      (within last change rest).map fun last => es.put key (.tables (last :: others))
    | some _ => none

def openTable (key : String) (es : Entries) : Option Entries :=
  match es.item? key with
  | none => some (es.put key (.table .header []))
  | some (.table .implicit inner) => some (es.put key (.table .header inner))
  | some _ => none

def openNext (key : String) (es : Entries) : Option Entries :=
  match es.item? key with
  | none => some (es.put key (.tables [[]]))
  | some (.tables others) => some (es.put key (.tables ([] :: others)))
  | some _ => none

end Entries

def isWordChar (c : Char) : Bool := c.isAlphanum || ['+', '-', '_', '.', ':'].contains c

def wordItem? (cs : List Char) : Option Item :=
  if cs = "true".toList then some (.boolean true)
  else if cs = "false".toList then some (.boolean false)
  else
    match integerOf? cs with
    | some n => some (.integer n)
    | none =>
      if isFloat cs then some .float else if isDateTime cs then some .dateTime else none

/-- Reads a word; a date may go on with a time behind one blank. -/
def readWord : Reader Item := fun cs =>
  let word := cs.takeWhile isWordChar
  let rest := cs.drop word.length
  let longer :=
    match rest with
    | ' ' :: more => word ++ ' ' :: more.takeWhile isWordChar
    | _ => word
  if longer.length ≠ word.length && (afterDate? word == some []) && isDateTime longer then
    some (.dateTime, cs.drop longer.length)
  else (wordItem? word).map fun item => (item, rest)

mutual

/-- Reads a value that lies in `depth` arrays and tables. -/
def readValue : Nat → Nat → Reader Item
  | 0, _, _ => none
  | fuel + 1, depth, cs =>
    match cs with
    | '[' :: rest =>
      if nestingLimit ≤ depth + 1 then none
      else (readItems fuel (depth + 1) rest).map fun (items, behind) => (.array items, behind)
    | '\x7b' :: rest =>
      if nestingLimit ≤ depth + 1 then none
      else
        match skipSpaces rest with
        | '\x7d' :: behind => some (.table .braces [], behind)
        | inner => readPairs fuel (depth + 1) [] inner
    | '"' :: _ | '\x27' :: _ => (readString cs).map fun (s, behind) => (.string s, behind)
    | _ => readWord cs

/-- Reads the rest of an array; a comma may stand before its end. -/
def readItems : Nat → Nat → Reader (List Item)
  | 0, _, _ => none
  | fuel + 1, depth, cs =>
    match skipLines cs.length cs with
    | ']' :: behind => some ([], behind)
    | rest =>
      match readValue fuel depth rest with
      | none => none
      | some (item, behind) =>
        match skipLines behind.length behind with
        | ',' :: more =>
          (readItems fuel depth more).map fun (items, behind) => (item :: items, behind)
        | ']' :: behind => some ([item], behind)
        | _ => none

/-- Reads the rest of a table in braces, which stands on one line. -/
def readPairs : Nat → Nat → Entries → Reader Item
  | 0, _, _, _ => none
  | fuel + 1, depth, found, cs =>
    match readKey cs with
    | some (key, '=' :: rest) =>
      match readValue fuel depth (skipSpaces rest) with
      | some (value, behind) =>
        match found.assign value key with
        | some found =>
          match skipSpaces behind with
          | ',' :: more => readPairs fuel depth found more
          | '\x7d' :: behind => some (.table .braces found, behind)
          | _ => none
        | none => none
      | none => none
    | _ => none

end

structure Reading where
  root : Entries := []
  /-- The path of the table that keys now go to. -/
  current : List String := []

def Reading.pair (r : Reading) (cs : List Char) : Option (Reading × List Char) := do
  match ← readKey cs with
  | (key, '=' :: rest) =>
    let (value, behind) ← readValue (rest.length + 1) 0 (skipSpaces rest)
    let root ← r.root.within (fun es => es.assign value key) r.current
    return ({ r with root }, behind)
  | _ => none

/-- Reads a header of one table, or of one more table under a name. -/
def Reading.header (r : Reading) (cs : List Char) : Option (Reading × List Char) := do
  let (close, act, start) :=
    match cs with
    | '[' :: '[' :: rest => ([']', ']'], Entries.openNext, rest)
    | _ => ([']'], Entries.openTable, cs.drop 1)
  let (path, rest) ← readKey start
  let behind ← literally? close rest
  let key ← path.getLast?
  let root ← r.root.within (act key) path.dropLast
  return ({ root, current := path }, behind)

def readLines : Nat → Reading → List Char → Option Reading
  | 0, _, _ => none
  | fuel + 1, r, cs =>
    let start := skipSpaces cs
    let found :=
      match start with
      | '[' :: _ => r.header start
      | '#' :: _ | '\n' :: _ | '\r' :: _ | [] => some (r, start)
      | _ => r.pair start
    match found with
    | none => none
    | some (r, behind) =>
      match skipComment (skipSpaces behind) with
      | [] => some r
      | rest =>
        match newline? rest with
        | some next => readLines fuel r next
        | none => none

/-- Reads a document; a byte order mark in front does not count. -/
def read? (s : String) : Option Entries :=
  let cs :=
    match s.toList with
    | '\ufeff' :: rest => rest
    | cs => cs
  (readLines (cs.length + 1) {} cs).map (·.root)

end Homoicon.Toml
