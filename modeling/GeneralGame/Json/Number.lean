import GeneralGame.Json.Syntax

/-!
What written numbers stand for. Whole numbers that fit 64 bits are exact. All others are read as a
significand of 64 bits times a power of ten, with one rounding for each of the two; digits that the
significand has no room for are dropped.
-/
namespace GeneralGame

inductive NumberValue where
  | natural (n : Nat)
  /-- A number below zero. -/
  | negative (n : Int)
  | decimal (x : Float)

namespace JsonNumber

/-- The significand with one more digit, while it fits 64 bits. -/
def pushDigit (significand digit : Nat) : Option Nat :=
  if significand * 10 + digit < UInt64.size then some (significand * 10 + digit) else none

/-- Takes as many digits as there is room for, and counts those it took and those left. -/
def pushDigits (significand taken : Nat) : List Nat → Nat × Nat × Nat
  | [] => (significand, taken, 0)
  | d :: ds =>
    match pushDigit significand d with
    | some significand => pushDigits significand (taken + 1) ds
    | none => (significand, taken, ds.length + 1)

/-- A significand times a power of ten, if it is finite. -/
def scale (x : Float) (exponent : Int) : Option Float :=
  if 0 ≤ exponent then
    if exponent ≤ 308 then
      let y := x * Float.ofScientific 1 false exponent.toNat
      if y.isInf then none else some y
    else if x == 0 then some x else none
  else if -308 ≤ exponent then some (x / Float.ofScientific 1 false (-exponent).toNat)
  else if x == 0 then some x
  else scale (x / 1e308) (exponent + 308)
termination_by (-exponent).toNat

def withSign (negative : Bool) (x : Float) : Float := if negative then -x else x

/-- The exponent that digits stand for, if it fits 31 bits. -/
def exponentValue (digits : List Nat) : Option Nat :=
  digits.foldlM (fun n d => if n * 10 + d < 1 <<< 31 then some (n * 10 + d) else none) 0

/-- The nearest exponent of 32 bits with a sign. -/
def clampExponent (e : Int) : Int := max (-2147483648) (min e 2147483647)

/-- The value of a significand with an exponent, `start` of which the digits account for. -/
def decimalValue (n : JsonNumber) (significand : Nat) (start : Int) : Option Float :=
  match n.exponent with
  | none => (scale significand.toFloat start).map (withSign n.negative)
  | some (negative, ds) =>
    match exponentValue ds with
    | some e =>
      let exponent := clampExponent (if negative then start - e else start + e)
      (scale significand.toFloat exponent).map (withSign n.negative)
    | none =>
      if significand ≠ 0 ∧ negative = false then none else some (withSign n.negative 0)

/-- The value of a number without point and exponent that has room. Minus zero is no whole
number. -/
def wholeValue (negative : Bool) (n : Nat) : NumberValue :=
  if negative = false then .natural n
  else if n = 0 ∨ 1 <<< 63 < n then .decimal (-n.toFloat)
  else .negative (-n)

/-- What the number stands for; nothing if it is too large. -/
def value (n : JsonNumber) : Option NumberValue :=
  let (significand, _, left) := pushDigits 0 0 n.whole
  match n.fraction with
  | some ds =>
    let (significand, taken, _) := pushDigits significand 0 ds
    (n.decimalValue significand (left - taken)).map .decimal
  | none =>
    if left = 0 ∧ n.exponent.isNone then some (wholeValue n.negative significand)
    else (n.decimalValue significand left).map .decimal

end JsonNumber

end GeneralGame
