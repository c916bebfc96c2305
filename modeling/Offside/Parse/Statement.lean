import Offside.Parse.Expression

set_option autoImplicit false

/-! # Statements

A source is a sequence of statements: class definitions, conditionals, and simple statements, which
fill one line each. A block is a line break, a step in, statements up to the matching step out. A
class stands in the table of classes from its body on, so that its methods can make objects of it;
its name must be new, and its parent must have been defined before. -/

namespace Offside

namespace Parse

variable {σ : Type} [TokenSupply σ]

/-! ## Simple statements -/

/-- What is assigned to: a name, or a field of the object at a path. -/
def assignTo (path : DottedPath) (value : Node) : Node :=
  match path.split? with
  | none => .assign path.first value
  | some (object, field) => .assignField (.path object) field value

/-- The value of a `return`, from behind that word on; a bare `return` yields nothing. -/
def returned (n : Nat) : Rule σ Node := do
  if (← current) = .newline then return .constant .empty else expression n

/-- The arguments of a `print`, from behind that word on. -/
def printed (n : Nat) : Rule σ (List Node) := do
  if (← current) = .newline then return [] else commaSeparated (expression n) n

/-- An expression, or an assignment to a path. -/
def assignment (n : Nat) : Rule σ Node := do
  let target ← expression n
  if ← accept (.char '=') then
    match target with
    | .path path =>
      let value ← expression n
      return assignTo path value
    | _ => fail .notAssignable
  else return target

/-- A statement of one line, without the line break. -/
def simpleStatement (n : Nat) : Rule σ Node := do
  if ← accept (.keyword .returnWord) then
    let value ← returned n
    return .returnValue value
  else if ← accept (.keyword .printWord) then
    let args ← printed n
    return .print args
  else assignment n

/-! ## Blocks -/

/-- A block of statements. -/
def suite (statement : Rule σ Node) (n : Nat) : Rule σ Node := do
  require .newline .noEndOfLineBeforeBlock
  require .indent .noBlock
  let statements ← many (accept .dedent) statement n
  return .sequence statements

/-- A conditional, from behind `if` on. -/
def conditional (statement : Rule σ Node) (n : Nat) : Rule σ Node := do
  let condition ← expression n
  require (.char ':') .noColon
  let body ← suite statement n
  if ← accept (.keyword .elseWord) then
    require (.char ':') .noColon
    let alternative ← suite statement n
    return .ifElse condition body alternative
  else return .ifThen condition body

/-! ## Classes -/

/-- The names of the parameters of a method, up to the closing parenthesis. -/
def parameters (n : Nat) : Rule σ (List String) := do
  if (← current) = .char ')' then return []
  else commaSeparated (requireName .noParameterName) n

/-- A method of a class. -/
def method (statement : Rule σ Node) (n : Nat) : Rule σ Method := do
  require (.keyword .defWord) .noMethod
  let name ← requireName .noMethodName
  require (.char '(') .noOpeningParenthesis
  let params ← parameters n
  require (.char ')') .noClosingParenthesis
  require (.char ':') .noColon
  let body ← suite statement n
  return ⟨name, params, .methodBody body⟩

/-- The parent of a class, if its header names one. -/
def baseClass : Rule σ (Option ClassRef) := do
  if ← accept (.char '(') then
    let name ← requireName .noBaseClassName
    match ← class? name with
    | none => fail (.unknownBaseClass name)
    | some c =>
      require (.char ')') .noClosingParenthesis
      return some c
  else return none

/-- A class definition, from behind `class` on. -/
def classDefinition (statement : Rule σ Node) (n : Nat) : Rule σ Node := do
  let name ← requireName .noClassName
  if (← class? name).isSome then fail (.classDefined name)
  let parent? ← baseClass
  require (.char ':') .noColon
  require .newline .noEndOfLineAfterHeader
  require .indent .noClassBody
  let c ← defineClass name parent?
  let methods ← many (accept .dedent) (method statement n) n
  setMethods c methods
  let parentName? ← parent?.mapM className
  report (.classDefined name parentName? (methods.map Method.name))
  return .classDefinition c

/-! ## Statements and programs -/

/-- A statement of at most `n` tokens. -/
def statement : Nat → Rule σ Node
  | 0 => throw (.limit .depth)
  | n + 1 => do
    if ← accept (.keyword .classWord) then classDefinition (statement n) n
    else if ← accept (.keyword .ifWord) then conditional (statement n) n
    else
      let s ← simpleStatement n
      require .newline .noEndOfLine
      return s

/-- The statements of a source of at most `n` tokens. -/
def statements (n : Nat) : Rule σ (List Node) := do
  let body ← many atEnd (statement n) n
  report (.parsed body.length)
  return body

end Parse

end Offside
