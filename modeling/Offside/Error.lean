import Offside.Program.Node
import Offside.Token.Error

set_option autoImplicit false

/-! # Errors

Why a source cannot be run to its end: its text has no tokens, its tokens make no program, or the
program fails. Each of these has a kind and a message. Besides that, reading and running have limits,
and a source that goes beyond one of them has no such error: nothing is reported about it. -/

namespace Offside

/-! ## Errors of form -/

/-- What a program lacks, or holds where it must not. -/
inductive SyntaxCause
  | noEndOfLine
  | noEndOfLineBeforeBlock
  | noBlock
  | noClassName
  | classDefined (name : String)
  | noBaseClassName
  | unknownBaseClass (name : String)
  | noEndOfLineAfterHeader
  | noClassBody
  | noMethod
  | noMethodName
  | noParameterName
  | noOpeningParenthesis
  | noClosingParenthesis
  | noColon
  | noExpression
  | noMemberName
  | notAssignable
  | oneArgumentNeeded
  | unknownClass (name : String)
  deriving DecidableEq, Repr, Inhabited

/-- The wording of a cause. -/
def SyntaxCause.text : SyntaxCause → String
  | noEndOfLine => "expected end of line"
  | noEndOfLineBeforeBlock => "expected end of line before block"
  | noBlock => "expected an indented block"
  | noClassName => "expected class name"
  | classDefined name => s!"class {Text.quote name} is already defined"
  | noBaseClassName => "expected base class name"
  | unknownBaseClass name => s!"unknown base class {Text.quote name}"
  | noEndOfLineAfterHeader => "expected end of line after class header"
  | noClassBody => "expected an indented class body"
  | noMethod => "expected 'def' in class body"
  | noMethodName => "expected method name"
  | noParameterName => "expected parameter name"
  | noOpeningParenthesis => "expected '('"
  | noClosingParenthesis => "expected ')'"
  | noColon => "expected ':'"
  | noExpression => "expected expression"
  | noMemberName => "expected field or method name"
  | notAssignable => "cannot assign to expression"
  | oneArgumentNeeded => "str() takes exactly one argument"
  | unknownClass name => s!"unknown class {Text.quote name}"

/-- A cause, the line at which it was found, and the token found there. -/
structure SyntaxError where
  cause : SyntaxCause
  line : Nat
  found : Token
  deriving DecidableEq, Repr, Inhabited

/-- The message of a syntax error. -/
def SyntaxError.message (e : SyntaxError) : String :=
  s!"{e.cause.text} at line {e.line}, got {e.found.text}"

/-! ## Errors of execution -/

/-- What an object was needed for. -/
inductive ObjectUse
  | fieldAssignment (field : String)
  | methodCall (method : String)
  | fieldAccess (path : String)
  deriving DecidableEq, Repr, Inhabited

/-- The wording of a use. -/
def ObjectUse.text : ObjectUse → String
  | fieldAssignment field => s!"assignment to field {Text.quote field}"
  | methodCall method => s!"call of method {Text.quote method}"
  | fieldAccess path => s!"field access {Text.quote path}"

/-- Why a program fails. Types are given by name. -/
inductive RuntimeError
  | undefinedName (name : String)
  | methodNotFound (className method : String) (arguments : Nat)
  | unsupportedOperands (op : ArithmeticOp) (left right : String)
  | noEquality (left right : String)
  | noOrdering (left right : String)
  | objectNeeded (use : ObjectUse) (found : String)
  | divisionByZero
  | returnOutsideMethod
  deriving DecidableEq, Repr, Inhabited

namespace RuntimeError

/-- The kind of an error. -/
def kind : RuntimeError → String
  | undefinedName _ => "NameError"
  | methodNotFound _ _ _ => "MethodError"
  | unsupportedOperands _ _ _ | noEquality _ _ | noOrdering _ _ | objectNeeded _ _ => "TypeError"
  | divisionByZero => "ZeroDivisionError"
  | returnOutsideMethod => "RuntimeError"

/-- The message of an error. -/
def message : RuntimeError → String
  | undefinedName name => s!"name {Text.quote name} is not defined"
  | methodNotFound className method arguments =>
      let owner := Text.quote className
      s!"class {owner} has no method {Text.quote method} taking {arguments} argument(s)"
  | unsupportedOperands op left right =>
      s!"unsupported operand types for {op.symbol}: {left} and {right}"
  | noEquality left right => s!"equality not supported between {left} and {right}"
  | noOrdering left right => s!"ordering not supported between {left} and {right}"
  | objectNeeded use found => s!"{use.text} requires a class instance, got {found}"
  | divisionByZero => "integer division by zero"
  | returnOutsideMethod => "'return' outside method"

end RuntimeError

/-! ## All errors -/

/-- What reading and running cannot go beyond. -/
inductive Limit
  /-- How deep a source may be nested, and a run may go. -/
  | depth
  /-- How many digits a number may have in text. -/
  | digits (f : Text.DigitFault)
  deriving DecidableEq, Repr, Inhabited

/-- Why a source cannot be run to its end. -/
inductive Error
  | lexical (e : LexicalError)
  | syntactic (e : SyntaxError)
  | runtime (e : RuntimeError)
  | limit (l : Limit)
  deriving DecidableEq, Repr, Inhabited

/-- What is reported about an error. -/
structure Diagnosis where
  kind : String
  message : String
  deriving DecidableEq, Repr, Inhabited

namespace Error

/-- What is reported about an error. A limit is not. -/
def diagnosis? : Error → Option Diagnosis
  | lexical e => some ⟨"LexerError", e.message⟩
  | syntactic e => some ⟨"ParseError", e.message⟩
  | runtime e => some ⟨e.kind, e.message⟩
  | limit _ => none

/-- The limit that was reached. -/
def limit? : Error → Option Limit
  | limit l => some l
  | _ => none

/-- The error that a source has when a read fails. -/
def ofRead : ReadError → Error
  | .lexical e => lexical e
  | .digits f => limit (.digits f)

@[simp] theorem ofRead_inj {e e' : ReadError} : ofRead e = ofRead e' ↔ e = e' := by
  cases e <;> cases e' <;> simp [ofRead]

@[simp] theorem ofRead_ne_syntactic (e : ReadError) (e' : SyntaxError) :
    ofRead e ≠ syntactic e' := by
  cases e <;> simp [ofRead]

@[simp] theorem ofRead_ne_depth (e : ReadError) : ofRead e ≠ limit .depth := by
  cases e <;> simp [ofRead]

end Error

end Offside
