/-
Texts of values.

The display text shows a value as a program would write it, with quotes around
nested texts; the verbose text names its kind instead.
-/
import ScopeLang.Ownership

namespace ScopeLang

namespace World

/-- The text of a callable; a method names its class while that is there. -/
def callableText (w : World) : Callable → String
  | .function h =>
      let p := (w.function h).procedure
      match p.body with
      | .native _ => "<native fn " ++ p.name ++ ">"
      | .user _ => "<fn " ++ p.name ++ ">"
  | .method h =>
      let m := w.method h
      match w.upgrade m.classId with
      | some c => "<method " ++ (w.classOf c).name ++ "." ++ m.procedure.name ++ ">"
      | none => "<method " ++ m.procedure.name ++ ">"
  | .classObject h => "<class " ++ (w.classOf h).name ++ ">"

/-- A nested text in quotes, any other value by `text`. -/
def quoted (text : Value → String) (v : Value) : String :=
  match v.datum with
  | .string s => "\"" ++ s ++ "\""
  | .char c => "'" ++ String.singleton c ++ "'"
  | _ => text v

/-- The text of a value nested at most `n` deep. -/
def textWithin (w : World) : Nat → Value → String
  | 0, _ => ""
  | n + 1, v =>
      match v.datum with
      | .null => "null"
      | .bool b => toString b
      | .number x => x.text Floating.plain
      | .char c => String.singleton c
      | .string s => s
      | .list h | .array h =>
          "[" ++ ", ".intercalate ((w.items h).map (quoted (textWithin w n))) ++ "]"
      | .set h =>
          "\x7b" ++ ", ".intercalate ((w.elements h).map (quoted (textWithin w n))) ++ "\x7d"
      | .dict h =>
          "\x7b" ++ ", ".intercalate ((w.entries h).map fun e =>
            quoted (textWithin w n) e.1 ++ ": " ++ quoted (textWithin w n) e.2) ++ "\x7d"
      | .callable c => w.callableText c
      | .object h => "<" ++ w.className h ++ " instance>"
      | .overloads h =>
          let set := w.overloadSet h
          "<fn " ++ set.name ++ " (" ++ toString set.overloads.length ++ " overloads)>"

/-- The display text of a value. -/
def text (w : World) (v : Value) : String := (w.hold v.cells).textWithin (w.size + 1) v

/-- The verbose text of a value. -/
def verbose (w : World) (v : Value) : String :=
  let sized (n : Nat) : String := v.kind.name ++ "[" ++ toString n ++ "]"
  let shown (text : String) : String := v.kind.name ++ "(" ++ text ++ ")"
  match v.datum with
  | .null => "Null"
  | .bool _ | .number _ => shown (w.text v)
  | .char _ | .string _ => shown (quoted w.text v)
  | .list h | .array h => sized (w.items h).length
  | .dict h => sized (w.entries h).length
  | .set h => sized (w.elements h).length
  | .callable c => "Callable(" ++ w.callableName c ++ ")"
  | .object h => "Instance(" ++ w.className h ++ ")"
  | .overloads h =>
      let set := w.overloadSet h
      "Overloads(" ++ set.name ++ ", " ++ toString set.overloads.length ++ ")"

end World

end ScopeLang
