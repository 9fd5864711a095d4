import GeneralGame.Circuit.Component
import GeneralGame.Json.Number
import GeneralGame.RoleTable
import GeneralGame.Search.Strategy

/-!
Values of the library read off JSON. A record is an object with its fields by name, in any order and
among others, or an array of all its fields in their order; one of several alternatives is its name,
or an object with the name and what belongs to it.
-/
namespace GeneralGame.Json

/-- The characters that the pieces stand for. Half of a surrogate pair stands for none. -/
def characters : List JsonPiece → Option (List Char)
  | [] => some []
  | .char c :: ps => do return c :: (← characters ps)
  | .unit high :: .unit low :: ps =>
    if 0xD800 ≤ high ∧ high < 0xDC00 then
      if 0xDC00 ≤ low ∧ low < 0xE000 then do
        let c := Char.ofNat (0x10000 + (high - 0xD800) * 0x400 + (low - 0xDC00))
        return c :: (← characters ps)
      else none
    else if 0xDC00 ≤ high ∧ high < 0xE000 then none
    else do return Char.ofNat high :: (← characters (.unit low :: ps))
  | .unit n :: ps =>
    if 0xD800 ≤ n ∧ n < 0xE000 then none else do return Char.ofNat n :: (← characters ps)

def textOf (ps : List JsonPiece) : Option String := (characters ps).map String.ofList

def text? : Json → Option String
  | .string ps => textOf ps
  | _ => none

def bool? : Json → Option Bool
  | .bool b => some b
  | _ => none

def list? : Json → Option (List Json)
  | .array items => some items
  | _ => none

/-- A whole number of so many bits. -/
def nat? (bits : Nat) : Json → Option Nat
  | .number n =>
    match n.value with
    | some (.natural n) => if n < 1 <<< bits then some n else none
    | _ => none
  | _ => none

/-- A whole number of 64 bits with a sign. -/
def int? : Json → Option Int
  | .number n =>
    match n.value with
    | some (.natural n) => if n < 1 <<< 63 then some n else none
    | some (.negative n) => some n
    | _ => none
  | _ => none

def float? : Json → Option Float
  | .number n =>
    match n.value with
    | some (.natural n) => some n.toFloat
    | some (.negative n) => some (-n.natAbs.toFloat)
    | some (.decimal x) => some x
    | none => none
  | _ => none

/-- The fields of a record, in the order of their names. A name that stands twice in an object
makes it none. -/
def fields? (names : List String) : Json → Option (List (Option Json))
  | .array items => if items.length = names.length then some (items.map some) else none
  | .object fs => do
    let fs ← fs.mapM fun (key, v) => do return (← textOf key, v)
    if names.any fun name => 1 < fs.countP fun f => f.1 = name then none
    else return names.map fun name => (fs.find? fun f => f.1 = name).map Prod.snd
  | _ => none

/-- The fields of a record that has to have all of them. -/
def allFields? (names : List String) (v : Json) : Option (List Json) := do
  (← fields? names v).mapM fun field => field

/-- The one field of a record. -/
def onlyField? (name : String) (v : Json) : Option Json := do
  match ← allFields? [name] v with
  | [field] => return field
  | _ => none

/-- The name of an alternative and what belongs to it. -/
def alternative? : Json → Option (String × Option Json)
  | .string ps => do return (← textOf ps, none)
  | .object [(key, v)] => do return (← textOf key, some v)
  | _ => none

/-- Nothing belongs to the alternative, or nothing but a null. -/
def isBare : Option Json → Bool
  | none | some .null => true
  | some _ => false

def heuristic? (v : Json) : Option Heuristic := do
  match ← alternative? v with
  | ("GoalProximity", rest) => if isBare rest then return .goalProximity else none
  | ("Mobility", some v) => return .mobility (← nat? 32 (← onlyField? "feasible" v))
  | ("Focus", some v) => return .focus (← nat? 32 (← onlyField? "feasible" v))
  | ("MonteCarlo", some v) => return .monteCarlo (← nat? 32 (← onlyField? "charges" v))
  | _ => none

def strategy? (v : Json) : Option Strategy := do
  match ← alternative? v with
  | ("Heuristic", some v) => return .heuristic (← heuristic? v)
  | (name, rest) =>
    if isBare rest then
      match name with
      | "Legal" => return .legal
      | "Random" => return .random
      | "Minimax" => return .minimax
      | "AlphaBeta" => return .alphaBeta
      | "MonteCarlo" => return .monteCarlo
      | "Uct" => return .uct
      | _ => none
    else none

def stats? (v : Json) : Option Stats := do
  match ← allFields? ["nodes_evaluated", "depth_charges", "iterations", "max_depth", "pruned",
    "time_us", "interrupted"] v with
  | [nodes, charges, iterations, maxDepth, pruned, timeUs, interrupted] =>
    return {
      nodes := ← nat? 64 nodes
      charges := ← nat? 64 charges
      iterations := ← nat? 64 iterations
      maxDepth := ← nat? 32 maxDepth
      pruned := ← nat? 64 pruned
      timeUs := ← nat? 64 timeUs
      interrupted := ← bool? interrupted }
  | _ => none

def config? (v : Json) : Option Config := do
  match ← allFields? ["minimax_margin_ms", "monte_carlo_margin_ms", "uct_margin_ms", "level_limit",
    "exploration_constant", "depth_charges", "charges_per_expansion", "seed"] v with
  | [exhaustive, monteCarlo, tree, level, exploration, charges, perExpansion, seed] =>
    return {
      exhaustiveMarginMs := ← nat? 64 exhaustive
      monteCarloMarginMs := ← nat? 64 monteCarlo
      treeMarginMs := ← nat? 64 tree
      levelLimit := ← nat? 32 level
      exploration := ← float? exploration
      depthCharges := ← nat? 32 charges
      chargesPerExpansion := ← nat? 32 perExpansion
      seed := .ofNat (← nat? 64 seed) }
  | _ => none

def state? (v : Json) : Option State := do
  return .ofFacts (← (← list? (← onlyField? "facts" v)).mapM (nat? 32))

def move? (v : Json) : Option Move := do return ⟨← text? v⟩

def jointMove? (v : Json) : Option JointMove := do
  return ⟨← (← list? (← onlyField? "moves" v)).mapM move?⟩

def roleId? (v : Json) : Option RoleId := do return .ofIndex (← nat? 8 v)

def roleTable? (v : Json) : Option (RoleTable Int) := do
  return ⟨(← (← list? (← onlyField? "data" v)).mapM int?).toArray⟩

def componentKind? (v : Json) : Option ComponentKind := do
  match ← alternative? v with
  | ("Constant", some v) => return .constant (← bool? v)
  | (name, rest) =>
    if isBare rest then
      match name with
      | "Proposition" => return .proposition
      | "And" => return .and
      | "Or" => return .or
      | "Not" => return .not
      | "Transition" => return .transition
      | _ => none
    else none

/-- A text that may be missing. -/
def optionalText? : Option Json → Option (Option String)
  | none | some .null => some none
  | some v => do return some (← text? v)

def component? (v : Json) : Option Component := do
  match ← fields? ["kind", "inputs", "name"] v with
  | [some kind, some inputs, name] =>
    return {
      kind := ← componentKind? kind
      inputs := ← (← list? inputs).mapM (nat? 32)
      name := ← optionalText? name }
  | _ => none

end GeneralGame.Json
