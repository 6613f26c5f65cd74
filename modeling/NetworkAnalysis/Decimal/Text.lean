import NetworkAnalysis.Decimal.Shortest

/-!
# Written forms of doubles

Three forms of the same numbers are in use. Messages and text reports write a number positionally, with
the fewest digits that read back (`plain`) or with a fixed number of places (`fixed`). JSON documents
write it with a decimal point or, far from one, with an exponent (`json`), and have no form for numbers
that are not finite.
-/

namespace NetworkAnalysis.Decimal

/-- The text of `n` zeros. -/
def zeros (n : Nat) : String :=
  String.ofList (List.replicate n '0')

/-- A minus sign for a negative number. -/
def sign (negative : Bool) : String :=
  if negative then "-" else ""

/-- The decimal number `digits · 10^exponent` with a point where it belongs and no exponent; a whole
number has no point. -/
def Numeral.positional (d : Numeral) : String :=
  let text := toString d.digits
  if 0 ≤ d.exponent then
    text ++ zeros d.exponent.toNat
  else
    let places := (-d.exponent).toNat
    if places < text.length then
      let whole := text.length - places
      (text.take whole).toString ++ "." ++ (text.drop whole).toString
    else
      "0." ++ zeros (places - text.length) ++ text

/-- The written form of a double in messages: the fewest digits that read back, without an exponent,
with no point after a whole number. -/
def plain (x : Float) : String :=
  match classify x with
  | .nan => "NaN"
  | .infinite negative => sign negative ++ "inf"
  | .finite negative value =>
    if value.mantissa = 0 then sign negative ++ "0"
    else sign negative ++ (value.shortest .up).positional

/-- A double with exactly `places` digits after the point. -/
def fixed (places : Nat) (x : Float) : String :=
  match classify x with
  | .nan => "NaN"
  | .infinite negative => sign negative ++ "inf"
  | .finite negative value =>
    let text := toString (value.rounded places)
    let padded := zeros (places + 1 - text.length) ++ text
    let whole := padded.length - places
    let point := if places = 0 then "" else "."
    sign negative ++ (padded.take whole).toString ++ point ++ (padded.drop whole).toString

/-- The decimal number as a JSON document writes it: positional while at most sixteen digits stand before
the point, or at most four zeros between the point and the first digit; with a signed exponent beyond. -/
def Numeral.json (d : Numeral) : String :=
  let text := toString d.digits
  let point : Int := text.length + d.exponent
  if 0 ≤ d.exponent ∧ point ≤ 16 then
    text ++ zeros d.exponent.toNat ++ ".0"
  else if 0 < point ∧ point ≤ 16 then
    (text.take point.toNat).toString ++ "." ++ (text.drop point.toNat).toString
  else if -5 < point ∧ point ≤ 0 then
    "0." ++ zeros (-point).toNat ++ text
  else
    let mantissa :=
      if text.length = 1 then text
      else (text.take 1).toString ++ "." ++ (text.drop 1).toString
    mantissa ++ "e" ++ (if 0 < point then "+" else "") ++ toString (point - 1)

/-- The written form of a double in a JSON document; numbers that are not finite become `null`. -/
def json (x : Float) : String :=
  match classify x with
  | .nan => "null"
  | .infinite _ => "null"
  | .finite negative value =>
    if value.mantissa = 0 then sign negative ++ "0.0"
    else sign negative ++ (value.shortest .even).json

end NetworkAnalysis.Decimal
