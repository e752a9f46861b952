/-
Texts of floating point numbers.

Values are shown positionally with as few digits as read back.  Expressions
show a point in every number, and use an exponent outside of
`10 ^ -4 ≤ x < 10 ^ 16`.
-/
import ScopeLang.Floating.Shortest

namespace ScopeLang.Floating

/-- How a number is laid out. -/
structure Layout where
  /-- Whether whole numbers end in `.0`. -/
  keepsPoint : Bool
  /-- The scientific exponents written positionally, if not all of them. -/
  positional : Option (Int × Int)

/-- The layout of values. -/
def plain : Layout := ⟨false, none⟩

/-- The layout of literals in expressions. -/
def literal : Layout := ⟨true, some (-4, 16)⟩

def zeros (n : Nat) : String := String.ofList (List.replicate n '0')

/-- The exponent of the leading digit. -/
def Decimal.scientificExponent (d : Decimal) : Int :=
  d.exponent + ((toString d.digits).length - 1 : Nat)

/-- `12300`, `1.23` or `0.00123`. -/
def Decimal.positional (d : Decimal) (keepsPoint : Bool) : String :=
  let text := toString d.digits
  match d.exponent with
  | .ofNat e => text ++ zeros e ++ if keepsPoint then ".0" else ""
  | .negSucc e =>
      let places := e + 1
      if text.length ≤ places then "0." ++ zeros (places - text.length) ++ text
      else
        let chars := text.toList
        let whole := text.length - places
        String.ofList (chars.take whole) ++ "." ++ String.ofList (chars.drop whole)

/-- `1.23e-5`. -/
def Decimal.scientific (d : Decimal) : String :=
  let fraction := match (toString d.digits).toList with
    | [] => ""
    | [c] => String.ofList [c]
    | c :: rest => String.ofList (c :: '.' :: rest)
  fraction ++ "e" ++ toString d.scientificExponent

/-- Lays out a positive decimal. -/
def Layout.text (n : Layout) (d : Decimal) : String :=
  match n.positional with
  | none => d.positional n.keepsPoint
  | some (least, bound) =>
      if least ≤ d.scientificExponent ∧ d.scientificExponent < bound then
        d.positional n.keepsPoint
      else d.scientific

def signed (negative : Bool) (text : String) : String :=
  if negative then "-" ++ text else text

/-- The text of a decoded number. -/
def Layout.render (n : Layout) : Decoded → String
  | .nan => "NaN"
  | .infinite negative => signed negative "inf"
  | .zero negative => signed negative (if n.keepsPoint then "0.0" else "0")
  | .finite negative b => signed negative (n.text b.shortest)

/-- The text of a single precision number. -/
def renderFloat32 (n : Layout) (x : Float32) : String :=
  n.render (binary32.decode x.toBits.toNat)

/-- The text of a double precision number. -/
def renderFloat (n : Layout) (x : Float) : String :=
  n.render (binary64.decode x.toBits.toNat)

end ScopeLang.Floating
