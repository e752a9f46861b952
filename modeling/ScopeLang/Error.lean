/-
Errors.

An error has a kind, the span of the innermost expression or statement that
has one, and the innermost statement in which it arose.
-/
import ScopeLang.Value
import ScopeLang.Program.Term

namespace ScopeLang

/-- Why arguments do not bind to parameters. -/
inductive BindingFailure where
  | tooManyArguments (expected actual : Nat)
  | missingArgument (name : String)
  | unknownParameter (name : String)
  | duplicateArgument (name : String)
  | variadicByName (name : String)
deriving DecidableEq, Inhabited

namespace BindingFailure

def name : BindingFailure → String
  | tooManyArguments .. => "TooManyArguments"
  | missingArgument .. => "MissingArgument"
  | unknownParameter .. => "UnknownParameter"
  | duplicateArgument .. => "DuplicateArgument"
  | variadicByName .. => "VariadicByName"

def message : BindingFailure → String
  | tooManyArguments expected actual =>
      "expected at most " ++ toString expected ++ " arguments but got " ++ toString actual
  | missingArgument name => "missing argument for parameter `" ++ name ++ "`"
  | unknownParameter name => "no parameter named `" ++ name ++ "`"
  | duplicateArgument name => "parameter `" ++ name ++ "` is given more than once"
  | variadicByName name => "variadic parameter `" ++ name ++ "` can't be passed by name"

end BindingFailure

inductive ErrorKind where
  | undefinedVariable (name : String)
  | redeclaration (name : String)
  | constViolation (name : String)
  | typeMismatch (name expected actual : String)
  | functionNotFound (name : String)
  | noMatchingOverload (name : String) (candidates : Nat)
  | ambiguousOverload (name : String) (candidates : Nat)
  | argumentBinding (callee : String) (reason : BindingFailure)
  | missingConstructor (className constructor : String)
  | classRedefinition (name : String)
  | unsupportedOperator (operator operands : String)
  | divisionByZero
  | invalidChainAccess (target element : String)
  | invalidVirtualArgument (operation reason : String)
  | missingInstance (name : String)
  | invalidCallee (callee : Value)
  | missingReturn (name : String)
  | uncaughtThrow (value : Value)
  | scopeCycle (label : String)
  | misplacedControl (control place : String)
deriving Inhabited

namespace ErrorKind

def code : ErrorKind → String
  | undefinedVariable .. => "RT001"
  | redeclaration .. => "RT002"
  | constViolation .. => "RT003"
  | typeMismatch .. => "RT004"
  | functionNotFound .. => "RT005"
  | noMatchingOverload .. => "RT006"
  | ambiguousOverload .. => "RT007"
  | argumentBinding .. => "RT008"
  | missingConstructor .. => "RT009"
  | classRedefinition .. => "RT010"
  | unsupportedOperator .. => "RT011"
  | divisionByZero => "RT012"
  | invalidChainAccess .. => "RT013"
  | invalidVirtualArgument .. => "RT014"
  | missingInstance .. => "RT015"
  | invalidCallee .. => "RT016"
  | missingReturn .. => "RT017"
  | uncaughtThrow .. => "RT018"
  | scopeCycle .. => "RT019"
  | misplacedControl .. => "RT020"

def name : ErrorKind → String
  | undefinedVariable .. => "UndefinedVariable"
  | redeclaration .. => "Redeclaration"
  | constViolation .. => "ConstViolation"
  | typeMismatch .. => "TypeMismatch"
  | functionNotFound .. => "FunctionNotFound"
  | noMatchingOverload .. => "NoMatchingOverload"
  | ambiguousOverload .. => "AmbiguousOverload"
  | argumentBinding .. => "ArgumentBinding"
  | missingConstructor .. => "MissingConstructor"
  | classRedefinition .. => "ClassRedefinition"
  | unsupportedOperator .. => "UnsupportedOperator"
  | divisionByZero => "DivisionByZero"
  | invalidChainAccess .. => "InvalidChainAccess"
  | invalidVirtualArgument .. => "InvalidVirtualArgument"
  | missingInstance .. => "MissingInstance"
  | invalidCallee .. => "InvalidCallee"
  | missingReturn .. => "MissingReturn"
  | uncaughtThrow .. => "UncaughtThrow"
  | scopeCycle .. => "ScopeCycle"
  | misplacedControl .. => "MisplacedControl"

/-- The text of an error, where `text` shows its value. -/
def message (text : Value → String) : ErrorKind → String
  | undefinedVariable name => "Undefined Variable: " ++ name
  | redeclaration name => "Redeclaration: " ++ name ++ " is already declared in this scope"
  | constViolation name => "Const Violation: " ++ name ++ " can't be reassigned"
  | typeMismatch name expected actual =>
      "Type Mismatch: " ++ name ++ " expects " ++ expected ++ " but got " ++ actual
  | functionNotFound name => "Function Not Found: " ++ name
  | noMatchingOverload name candidates =>
      "No Matching Overload: none of the " ++ toString candidates ++ " overloads of " ++ name ++
        " accept the arguments"
  | ambiguousOverload name candidates =>
      "Ambiguous Overload: " ++ toString candidates ++ " overloads of " ++ name ++
        " match equally well"
  | argumentBinding callee reason =>
      "Invalid Arguments for " ++ callee ++ ": " ++ reason.message
  | missingConstructor className constructor =>
      "Missing Constructor: class " ++ className ++ " has no `" ++ constructor ++ "` method"
  | classRedefinition name => "Class Redefinition: " ++ name
  | unsupportedOperator operator operands =>
      "Unsupported Operator: " ++ operator ++ " for [" ++ operands ++ "]"
  | divisionByZero => "Division By Zero"
  | invalidChainAccess target element =>
      "Invalid Chain Access: `" ++ element ++ "` on " ++ target
  | invalidVirtualArgument operation reason =>
      "Invalid Argument to `" ++ operation ++ "`: " ++ reason
  | missingInstance name => "Missing Instance: `" ++ name ++ "` used outside of a method"
  | invalidCallee callee => "Invalid Callee: " ++ text callee
  | missingReturn name => "Missing Return: " ++ name ++ " must return a value"
  | uncaughtThrow value => "Uncaught Throw: " ++ text value
  | scopeCycle label => "Scope Cycle: scope `" ++ label ++ "` can't become its own ancestor"
  | misplacedControl control place => "Misplaced Control: `" ++ control ++ "` in " ++ place

/-- The heading of a report. -/
def headline : ErrorKind → String
  | undefinedVariable .. => "Attempted to use a name that is not defined"
  | redeclaration .. => "Attempted to declare a name twice in one scope"
  | constViolation .. => "Attempted to reassign a constant"
  | typeMismatch .. => "Value does not match the declared type"
  | functionNotFound .. => "Attempted to call an undefined function"
  | noMatchingOverload .. => "No overload accepts these arguments"
  | ambiguousOverload .. => "Several overloads match equally well"
  | argumentBinding .. => "Arguments could not be bound to parameters"
  | missingConstructor .. => "Class has no constructor"
  | classRedefinition .. => "Attempted to define a class twice"
  | unsupportedOperator .. => "Operator is not defined for these operands"
  | divisionByZero => "Attempted to divide by zero"
  | invalidChainAccess .. => "Invalid member access"
  | invalidVirtualArgument .. => "Invalid argument to a built-in operation"
  | missingInstance .. => "Instance reference used outside of a method"
  | invalidCallee .. => "Attempted to call a value that is not callable"
  | missingReturn .. => "Function ended without returning a value"
  | uncaughtThrow .. => "A thrown value was never caught"
  | scopeCycle .. => "Scope would become its own ancestor"
  | misplacedControl .. => "Control flow escaped its construct"

/-- The text beside the marked source of a report, where `text` shows values. -/
def reportLabel (text : Value → String) : ErrorKind → String
  | typeMismatch name expected actual =>
      "`" ++ name ++ "` expects " ++ expected ++ " but got " ++ actual
  | invalidCallee callee => text callee ++ " is not callable."
  | uncaughtThrow value => text value ++ " was thrown here."
  | undefinedVariable name | functionNotFound name => name ++ " has not been defined."
  | kind => kind.message text

/-- The values that an error carries. -/
def values : ErrorKind → List Value
  | invalidCallee callee => [callee]
  | uncaughtThrow value => [value]
  | _ => []

end ErrorKind

/-- The statement in which an error arose. -/
structure ErrorContext where
  statement : StatementKind
  /-- The label of the scope that the statement was run in. -/
  owner : String
deriving DecidableEq, Inhabited

structure RuntimeError where
  kind : ErrorKind
  span : Span := Span.none
  context : Option ErrorContext := none
deriving Inhabited

namespace RuntimeError

/-- Fills in the span of an error that has none. -/
def orSpan (e : RuntimeError) (span : Span) : RuntimeError :=
  { e with span := e.span.orElse span }

/-- Fills in the statement of an error that has none. -/
def withContext (e : RuntimeError) (statement : StatementKind) (owner : String) : RuntimeError :=
  match e.context with
  | some _ => e
  | none => { e with context := some ⟨statement, owner⟩ }

/-- The error in one line, with the line it arose on; `text` shows values. -/
def line (e : RuntimeError) (lines : LineTable) (text : Value → String) : String :=
  let start := "(" ++ toString (lines.lineOfSpan e.span) ++ ") [" ++ e.kind.code ++ "] " ++
    e.kind.message text
  match e.context with
  | some c => start ++ " \x7b" ++ c.statement.label ++ " in " ++ c.owner ++ "\x7d"
  | none => start

/-- The note of a report. -/
def note (e : RuntimeError) : Option String :=
  e.context.map fun c =>
    "raised by a " ++ c.statement.label ++ " statement in `" ++ c.owner ++ "`"

/-- The texts of a report. -/
structure Report where
  headline : String
  label : String
  note : Option String
deriving DecidableEq, Inhabited

/-- The report of an error, where `text` shows values. -/
def report (e : RuntimeError) (text : Value → String) : Report :=
  ⟨"[" ++ e.kind.code ++ "] Error: " ++ e.kind.headline, e.kind.reportLabel text, e.note⟩

end RuntimeError

end ScopeLang
