import GeneralGame.Circuit.WellFormed

/-!
The byte form of a net. Numbers have a fixed width and come least byte first; a list, a text or a
table is its length in eight bytes and then its parts; an optional value is a byte 0 or 1 and then
the value. Each form is a `Codec`: a writer, and a reader that takes what was written off the front
of a list of bytes.
-/
namespace GeneralGame

abbrev Bytes := List UInt8

structure Codec (α : Type) where
  write : α → Bytes
  /-- The value at the front and the bytes after it; `none` where no value is written there. -/
  read : Bytes → Option (α × Bytes)

namespace Codec

variable {α β : Type}

def writeNat : Nat → Nat → Bytes
  | 0, _ => []
  | width + 1, n => UInt8.ofNat n :: writeNat width (n / 256)

def readNat : Nat → Bytes → Option (Nat × Bytes)
  | 0, bytes => some (0, bytes)
  | _ + 1, [] => none
  | width + 1, b :: bytes => do
    let (n, rest) ← readNat width bytes
    return (b.toNat + 256 * n, rest)

/-- Numbers of `width` bytes. -/
def nat (width : Nat) : Codec Nat := ⟨writeNat width, readNat width⟩

def length : Codec Nat := nat 8

def id : Codec ComponentId := nat 4

/-- One of two spellings of a byte. -/
def bool : Codec Bool where
  write b := [if b then 1 else 0]
  read
    | 0 :: rest => some (false, rest)
    | 1 :: rest => some (true, rest)
    | _ => none

def pair (a : Codec α) (b : Codec β) : Codec (α × β) where
  write x := a.write x.1 ++ b.write x.2
  read bytes := do
    let (x, rest) ← a.read bytes
    let (y, rest) ← b.read rest
    return ((x, y), rest)

/-- The form of `α` as a form of `β`, for values that `ofRead` accepts. -/
def convert (a : Codec α) (toWrite : β → α) (ofRead : α → Option β) : Codec β where
  write y := a.write (toWrite y)
  read bytes := do
    let (x, rest) ← a.read bytes
    return (← ofRead x, rest)

/-- As many values as the number says. -/
def readMany (a : Codec α) : Nat → Bytes → Option (List α × Bytes)
  | 0, bytes => some ([], bytes)
  | n + 1, bytes => do
    let (x, rest) ← a.read bytes
    let (xs, rest) ← readMany a n rest
    return (x :: xs, rest)

def list (a : Codec α) : Codec (List α) where
  write xs := length.write xs.length ++ xs.flatMap a.write
  read bytes := do
    let (n, rest) ← length.read bytes
    readMany a n rest

def array (a : Codec α) : Codec (Array α) :=
  (list a).convert Array.toList fun xs => some xs.toArray

def option (a : Codec α) : Codec (Option α) where
  write
    | none => [0]
    | some x => 1 :: a.write x
  read
    | 0 :: rest => some (none, rest)
    | 1 :: rest => do
      let (x, rest) ← a.read rest
      return (some x, rest)
    | _ => none

/-- The first `n` bytes and the rest. -/
def splitBytes : Nat → Bytes → Option (Bytes × Bytes)
  | 0, bytes => some ([], bytes)
  | _ + 1, [] => none
  | n + 1, b :: bytes => do
    let (front, rest) ← splitBytes n bytes
    return (b :: front, rest)

/-- A text in UTF-8. -/
def text : Codec String where
  write s := length.write s.utf8ByteSize ++ s.toUTF8.toList
  read bytes := do
    let (n, rest) ← length.read bytes
    let (front, rest) ← splitBytes n rest
    return (← String.fromUTF8? ⟨front.toArray⟩, rest)

/-- A number that tells the kind; a constant has its value after it. -/
def kind : Codec ComponentKind where
  write k :=
    let tag := (nat 4).write
    match k with
    | .proposition => tag 0
    | .and => tag 1
    | .or => tag 2
    | .not => tag 3
    | .transition => tag 4
    | .constant value => tag 5 ++ bool.write value
  read bytes := do
    let (n, rest) ← (nat 4).read bytes
    match n with
    | 0 => return (.proposition, rest)
    | 1 => return (.and, rest)
    | 2 => return (.or, rest)
    | 3 => return (.not, rest)
    | 4 => return (.transition, rest)
    | 5 => do
      let (value, rest) ← bool.read rest
      return (.constant value, rest)
    | _ => none

def component : Codec Component :=
  (pair kind (pair (list id) (option text))).convert
    (fun c => (c.kind, c.inputs, c.name))
    (fun (kind, inputs, name) => some { kind, inputs, name })

def move : Codec Move := text.convert Move.name fun s => some ⟨s⟩

def moveTable : Codec MoveTable :=
  (list (pair move id)).convert MoveTable.entries fun es => some (.ofList es)

def roleTable (a : Codec α) : Codec (RoleTable α) :=
  (array a).convert RoleTable.entries fun es => some ⟨es⟩

def net : Codec Net :=
  (pair (list text) <| pair (array component) <| pair id <| pair (array id) <|
    pair (roleTable moveTable) <| pair (roleTable (list (pair move id))) <|
    pair (roleTable (list (pair (nat 1) id))) id).convert
    (fun n => (n.roles, n.components, n.init, n.bases, n.inputs, n.legals, n.goals, n.terminal))
    (fun (roles, components, init, bases, inputs, legals, goals, terminal) =>
      some { roles, components, init, bases, inputs, legals, goals, terminal })

end Codec

namespace Net

def toBytes (net : Net) : Bytes := Codec.net.write net

/-- The net that the bytes start with; what comes after it is ignored. -/
def ofBytes (bytes : Bytes) : Except GameError Net :=
  match Codec.net.read bytes with
  | none => .error .malformedBytes
  | some (net, _) => do
    net.check
    return net

end Net

end GeneralGame
