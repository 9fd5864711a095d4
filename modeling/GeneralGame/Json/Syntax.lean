/-!
The text of JSON values. Numbers keep their digits and strings their code units: what they stand
for, and whether they stand for anything, is settled where a value is read off them.
-/
namespace GeneralGame

/-- A number as it is written. -/
structure JsonNumber where
  negative : Bool
  /-- The digits before the point, without a leading zero unless it is the only one. -/
  whole : List Nat
  /-- The digits after the point, at least one if there is a point. -/
  fraction : Option (List Nat)
  /-- Whether the exponent is negative, and its digits. -/
  exponent : Option (Bool × List Nat)

/-- A piece of a string: a character, or a code unit in hexadecimal. -/
inductive JsonPiece where
  | char (c : Char)
  | unit (n : Nat)

inductive Json where
  | null
  | bool (b : Bool)
  | number (n : JsonNumber)
  | string (pieces : List JsonPiece)
  | array (items : List Json)
  | object (fields : List (List JsonPiece × Json))

namespace Json

/-- What a piece of syntax is read from; the rest is what comes after it. -/
abbrev Reader (α : Type) := List Char → Option (α × List Char)

def isBlank (c : Char) : Bool := c = ' ' || c = '\n' || c = '\t' || c = '\r'

def skipBlanks (cs : List Char) : List Char := cs.dropWhile isBlank

def isDigit (c : Char) : Bool := '0' ≤ c && c ≤ '9'

def digitValue (c : Char) : Nat := c.toNat - '0'.toNat

/-- The digits at the front, which may be none. -/
def digits (cs : List Char) : List Nat × List Char :=
  ((cs.takeWhile isDigit).map digitValue, cs.dropWhile isDigit)

/-- The digits at the front, at least one. -/
def someDigits : Reader (List Nat) := fun cs =>
  match digits cs with
  | ([], _) => none
  | found => some found

def wholePart : Reader (List Nat) := fun cs => do
  let (ds, rest) ← someDigits cs
  if ds.head? = some 0 && ds.length ≠ 1 then none else return (ds, rest)

def fractionPart : Reader (Option (List Nat))
  | '.' :: cs => do
    let (ds, rest) ← someDigits cs
    return (some ds, rest)
  | cs => some (none, cs)

def exponentSign : List Char → Bool × List Char
  | '+' :: cs => (false, cs)
  | '-' :: cs => (true, cs)
  | cs => (false, cs)

def exponentPart : Reader (Option (Bool × List Nat))
  | c :: cs =>
    if c = 'e' || c = 'E' then do
      let (negative, cs) := exponentSign cs
      let (ds, rest) ← someDigits cs
      return (some (negative, ds), rest)
    else some (none, c :: cs)
  | [] => some (none, [])

/-- A number without its sign. -/
def unsigned (negative : Bool) : Reader JsonNumber := fun cs => do
  let (whole, cs) ← wholePart cs
  let (fraction, cs) ← fractionPart cs
  let (exponent, cs) ← exponentPart cs
  return ({ negative, whole, fraction, exponent }, cs)

def signed : Reader JsonNumber
  | '-' :: cs => unsigned true cs
  | cs => unsigned false cs

def hexValue (c : Char) : Option Nat :=
  if isDigit c then some (digitValue c)
  else if 'a' ≤ c && c ≤ 'f' then some (c.toNat - 'a'.toNat + 10)
  else if 'A' ≤ c && c ≤ 'F' then some (c.toNat - 'A'.toNat + 10)
  else none

/-- The piece that a letter stands for after a backslash. -/
def escape : Char → Option Char
  | '"' => some '"'
  | '\\' => some '\\'
  | '/' => some '/'
  | 'b' => some '\x08'
  | 'f' => some '\x0c'
  | 'n' => some '\n'
  | 'r' => some '\r'
  | 't' => some '\t'
  | _ => none

/-- The pieces of a string up to its closing quote. Control characters have to be escaped. -/
def pieces : Reader (List JsonPiece)
  | [] => none
  | '"' :: rest => some ([], rest)
  | '\\' :: 'u' :: a :: b :: c :: d :: cs => do
    let n := (((← hexValue a) * 16 + (← hexValue b)) * 16 + (← hexValue c)) * 16 + (← hexValue d)
    let (ps, rest) ← pieces cs
    return (.unit n :: ps, rest)
  | '\\' :: c :: cs => do
    let c ← escape c
    let (ps, rest) ← pieces cs
    return (.char c :: ps, rest)
  | c :: cs =>
    if c.toNat < 0x20 then none
    else do
      let (ps, rest) ← pieces cs
      return (.char c :: ps, rest)

/-- A word at the front. -/
def word (w : String) (value : Json) : Reader Json := fun cs =>
  if w.toList.isPrefixOf cs then some (value, cs.drop w.length) else none

mutual

/-- A value with the blanks before it. `fuel` bounds how many values, elements and fields it has. -/
def value : (fuel : Nat) → Reader Json
  | 0, _ => none
  | fuel + 1, cs =>
    match skipBlanks cs with
    | [] => none
    | '"' :: cs => do
      let (ps, rest) ← pieces cs
      return (.string ps, rest)
    | '[' :: cs =>
      match skipBlanks cs with
      | ']' :: rest => some (.array [], rest)
      | cs => do
        let (items, rest) ← elements fuel cs
        return (.array items, rest)
    | '\x7b' :: cs =>
      match skipBlanks cs with
      | '\x7d' :: rest => some (.object [], rest)
      | cs => do
        let (fields, rest) ← members fuel cs
        return (.object fields, rest)
    | 'n' :: cs => word "null" .null ('n' :: cs)
    | 't' :: cs => word "true" (.bool true) ('t' :: cs)
    | 'f' :: cs => word "false" (.bool false) ('f' :: cs)
    | cs => do
      let (n, rest) ← signed cs
      return (.number n, rest)

/-- The elements of an array up to its closing bracket, at least one. -/
def elements : (fuel : Nat) → Reader (List Json)
  | 0, _ => none
  | fuel + 1, cs => do
    let (item, cs) ← value fuel cs
    match skipBlanks cs with
    | ']' :: rest => return ([item], rest)
    | ',' :: cs => do
      let (items, rest) ← elements fuel cs
      return (item :: items, rest)
    | _ => none

/-- The fields of an object up to its closing brace, at least one. -/
def members : (fuel : Nat) → Reader (List (List JsonPiece × Json))
  | 0, _ => none
  | fuel + 1, cs =>
    match skipBlanks cs with
    | '"' :: cs => do
      let (key, cs) ← pieces cs
      match skipBlanks cs with
      | ':' :: cs => do
        let (item, cs) ← value fuel cs
        match skipBlanks cs with
        | '\x7d' :: rest => return ([(key, item)], rest)
        | ',' :: cs => do
          let (fields, rest) ← members fuel cs
          return ((key, item) :: fields, rest)
        | _ => none
      | _ => none
    | _ => none

end

/-- The value that a text is, with nothing but blanks around it. -/
def ofText? (text : String) : Option Json := do
  let cs := text.toList
  let (v, rest) ← value (2 * cs.length + 2) cs
  if (skipBlanks rest).isEmpty then return v else none

end Json

end GeneralGame
