import Offside.Value

set_option autoImplicit false

/-! # Program trees

Statements and expressions form one kind of tree, `Node`, because every statement also has a value.
`Node.same` decides whether two trees are equal. -/

namespace Offside

/-- The arithmetic operations. -/
inductive ArithmeticOp
  | add
  | sub
  | mul
  | div
  deriving DecidableEq, Repr, Inhabited

/-- How an operation is written. -/
def ArithmeticOp.symbol : ArithmeticOp → String
  | add => "+"
  | sub => "-"
  | mul => "*"
  | div => "/"

/-- The comparisons. -/
inductive Comparator
  | equal
  | notEqual
  | less
  | greater
  | lessOrEqual
  | greaterOrEqual
  deriving DecidableEq, Repr, Inhabited

/-- A name, followed by the names of fields. -/
structure DottedPath where
  first : String
  rest : List String
  deriving DecidableEq, Repr, Inhabited

namespace DottedPath

/-- All names of a path. -/
def names (p : DottedPath) : List String := p.first :: p.rest

/-- The written form of a path. -/
def text (p : DottedPath) : String := ".".intercalate p.names

/-- The path of these names, if there are any. -/
def ofNames? : List String → Option DottedPath
  | [] => none
  | first :: rest => some ⟨first, rest⟩

/-- A path of several names as the path to an object and the name of a field of it. -/
def split? : DottedPath → Option (DottedPath × String)
  | ⟨_, []⟩ => none
  | ⟨first, name :: rest⟩ =>
    some (⟨first, (name :: rest).dropLast⟩, (name :: rest).getLast (List.cons_ne_nil name rest))

/-- The two parts of a path are the path. -/
theorem names_of_split? {p q : DottedPath} {name : String} (h : p.split? = some (q, name)) :
    p.names = q.names ++ [name] := by
  rcases p with ⟨first, _ | ⟨second, rest⟩⟩
  · simp [split?] at h
  · simp only [split?, Option.some.injEq, Prod.mk.injEq] at h
    obtain ⟨rfl, rfl⟩ := h
    simp only [names, List.cons_append, List.dropLast_concat_getLast]

end DottedPath

/-- A statement or an expression. -/
inductive Node
  /-- A literal. -/
  | constant (value : Value)
  /-- The value of a name or of a field. -/
  | path (p : DottedPath)
  /-- Binding a name. -/
  | assign (name : String) (value : Node)
  /-- Setting a field of an object. -/
  | assignField (object : Node) (field : String) (value : Node)
  /-- Printing values on one line. -/
  | print (arguments : List Node)
  /-- Printing one value, which is also the value of the statement. -/
  | printValue (argument : Node)
  /-- Calling a method of an object. -/
  | call (receiver : Node) (method : String) (arguments : List Node)
  /-- Making an object of a class. -/
  | construct (cls : ClassRef) (arguments : List Node)
  /-- The printed form of a value. -/
  | stringify (argument : Node)
  | not (argument : Node)
  | and (left right : Node)
  | or (left right : Node)
  | arithmetic (op : ArithmeticOp) (left right : Node)
  | compare (c : Comparator) (left right : Node)
  /-- Statements one after the other. -/
  | sequence (statements : List Node)
  /-- Leaving a method with a value. -/
  | returnValue (value : Node)
  /-- The body of a method, which catches what is returned in it. -/
  | methodBody (body : Node)
  /-- Binding the name of a class to the class. -/
  | classDefinition (cls : ClassRef)
  | ifThen (condition body : Node)
  | ifElse (condition body alternative : Node)
  deriving Repr, Inhabited

namespace Node

/-! ## Equality -/

mutual

/-- Whether two trees are equal: of one form, with equal names, constants, classes and parts. -/
def same : Node → Node → Bool
  | constant v, constant w => v == w
  | path p, path q => p == q
  | assign x a, assign y b => x == y && same a b
  | assignField o f a, assignField o' f' a' => same o o' && f == f' && same a a'
  | print as, print bs => sameList as bs
  | printValue a, printValue b => same a b
  | call o m as, call o' m' bs => same o o' && m == m' && sameList as bs
  | construct c as, construct d bs => c == d && sameList as bs
  | stringify a, stringify b => same a b
  | not a, not b => same a b
  | and a b, and a' b' => same a a' && same b b'
  | or a b, or a' b' => same a a' && same b b'
  | arithmetic op a b, arithmetic op' a' b' => op == op' && same a a' && same b b'
  | compare c a b, compare c' a' b' => c == c' && same a a' && same b b'
  | sequence as, sequence bs => sameList as bs
  | returnValue a, returnValue b => same a b
  | methodBody a, methodBody b => same a b
  | classDefinition c, classDefinition d => c == d
  | ifThen a b, ifThen a' b' => same a a' && same b b'
  | ifElse a b c, ifElse a' b' c' => same a a' && same b b' && same c c'
  | _, _ => false

/-- Whether two lists of trees are equal. -/
def sameList : List Node → List Node → Bool
  | [], [] => true
  | a :: as, b :: bs => same a b && sameList as bs
  | _, _ => false

end

mutual

theorem same_self : (a : Node) → same a a = true
  | constant v => by simp [same]
  | path p => by simp [same]
  | assign x a => by simp [same, same_self a]
  | assignField o f a => by simp [same, same_self o, same_self a]
  | print as => by simp [same, sameList_self as]
  | printValue a => by simp [same, same_self a]
  | call o m as => by simp [same, same_self o, sameList_self as]
  | construct c as => by simp [same, sameList_self as]
  | stringify a => by simp [same, same_self a]
  | not a => by simp [same, same_self a]
  | and a b => by simp [same, same_self a, same_self b]
  | or a b => by simp [same, same_self a, same_self b]
  | arithmetic op a b => by simp [same, same_self a, same_self b]
  | compare c a b => by simp [same, same_self a, same_self b]
  | sequence as => by simp [same, sameList_self as]
  | returnValue a => by simp [same, same_self a]
  | methodBody a => by simp [same, same_self a]
  | classDefinition c => by simp [same]
  | ifThen a b => by simp [same, same_self a, same_self b]
  | ifElse a b c => by simp [same, same_self a, same_self b, same_self c]

theorem sameList_self : (as : List Node) → sameList as as = true
  | [] => rfl
  | a :: as => by simp [sameList, same_self a, sameList_self as]

end

mutual

theorem eq_of_same : (a b : Node) → same a b = true → a = b
  | constant v, b, h => by cases b <;> simp_all [same]
  | path p, b, h => by cases b <;> simp_all [same]
  | assign x a, b, h => by
    cases b <;> simp [same] at h
    simp [h.1, eq_of_same _ _ h.2]
  | assignField o f a, b, h => by
    cases b <;> simp [same] at h
    simp [h.1.2, eq_of_same _ _ h.1.1, eq_of_same _ _ h.2]
  | print as, b, h => by
    cases b <;> simp [same] at h
    simp [eq_of_sameList _ _ h]
  | printValue a, b, h => by
    cases b <;> simp [same] at h
    simp [eq_of_same _ _ h]
  | call o m as, b, h => by
    cases b <;> simp [same] at h
    simp [h.1.2, eq_of_same _ _ h.1.1, eq_of_sameList _ _ h.2]
  | construct c as, b, h => by
    cases b <;> simp [same] at h
    simp [h.1, eq_of_sameList _ _ h.2]
  | stringify a, b, h => by
    cases b <;> simp [same] at h
    simp [eq_of_same _ _ h]
  | not a, b, h => by
    cases b <;> simp [same] at h
    simp [eq_of_same _ _ h]
  | and a b, c, h => by
    cases c <;> simp [same] at h
    simp [eq_of_same _ _ h.1, eq_of_same _ _ h.2]
  | or a b, c, h => by
    cases c <;> simp [same] at h
    simp [eq_of_same _ _ h.1, eq_of_same _ _ h.2]
  | arithmetic op a b, c, h => by
    cases c <;> simp [same] at h
    simp [h.1.1, eq_of_same _ _ h.1.2, eq_of_same _ _ h.2]
  | compare c a b, d, h => by
    cases d <;> simp [same] at h
    simp [h.1.1, eq_of_same _ _ h.1.2, eq_of_same _ _ h.2]
  | sequence as, b, h => by
    cases b <;> simp [same] at h
    simp [eq_of_sameList _ _ h]
  | returnValue a, b, h => by
    cases b <;> simp [same] at h
    simp [eq_of_same _ _ h]
  | methodBody a, b, h => by
    cases b <;> simp [same] at h
    simp [eq_of_same _ _ h]
  | classDefinition c, b, h => by cases b <;> simp_all [same]
  | ifThen a b, c, h => by
    cases c <;> simp [same] at h
    simp [eq_of_same _ _ h.1, eq_of_same _ _ h.2]
  | ifElse a b c, d, h => by
    cases d <;> simp [same] at h
    simp [eq_of_same _ _ h.1.1, eq_of_same _ _ h.1.2, eq_of_same _ _ h.2]

theorem eq_of_sameList : (as bs : List Node) → sameList as bs = true → as = bs
  | [], bs, h => by cases bs <;> simp_all [sameList]
  | a :: as, bs, h => by
    cases bs <;> simp [sameList] at h
    simp [eq_of_same _ _ h.1, eq_of_sameList _ _ h.2]

end

/-- `same` decides equality. -/
theorem same_iff {a b : Node} : same a b = true ↔ a = b :=
  ⟨eq_of_same a b, fun h => h ▸ same_self a⟩

instance : DecidableEq Node := fun _ _ => decidable_of_iff _ same_iff

end Node

end Offside
