import Mathlib.Logic.Relation
import Offside.Program.Node

set_option autoImplicit false

/-! # Parts of trees

The parts of a tree are those that it runs on its own bindings: its operands, and the statements of
its blocks. The body of a method is no part of the tree that catches what is returned in it, and the
methods of a class are no part of a tree that has a value which leads to the class.

A tree whose `return`s all stand among its statements is *placed*; those of a source are. -/

namespace Offside.Node

/-- The parts that are expressions of a statement or of an operation. -/
def operands : Node → List Node
  | assign _ value | printValue value | returnValue value | stringify value | not value => [value]
  | assignField object _ value => [object, value]
  | print arguments | construct _ arguments => arguments
  | call receiver _ arguments => receiver :: arguments
  | and left right | or left right | arithmetic _ left right | compare _ left right => [left, right]
  | ifThen condition _ | ifElse condition _ _ => [condition]
  | constant _ | path _ | sequence _ | methodBody _ | classDefinition _ => []

/-- The parts that stand in the blocks of a statement. -/
def statements : Node → List Node
  | sequence statements => statements
  | ifThen _ body => [body]
  | ifElse _ body alternative => [body, alternative]
  | _ => []

/-- The second tree is the first one, or a part of it, or a part of a part, and so on. -/
def Holds : Node → Node → Prop :=
  Relation.ReflTransGen fun n m => m ∈ n.operands ∨ m ∈ n.statements

/-- No `return` stands in the tree. -/
def ReturnFree (n : Node) : Prop := ∀ value, ¬ n.Holds (returnValue value)

theorem ReturnFree.of_parts {n : Node} (hn : ∀ value, n ≠ returnValue value)
    (hoperands : ∀ m ∈ n.operands, m.ReturnFree) (hstatements : n.statements = []) :
    n.ReturnFree := by
  intro value h
  rcases Relation.ReflTransGen.cases_head h with rfl | ⟨m, hm | hm, h⟩
  · exact hn value rfl
  · exact hoperands m hm value h
  · simp [hstatements] at hm

theorem returnFree_constant (v : Value) : (constant v).ReturnFree :=
  .of_parts (by simp) (by simp [operands]) rfl

theorem returnFree_path (p : DottedPath) : (path p).ReturnFree :=
  .of_parts (by simp) (by simp [operands]) rfl

/-- Every `return` of the tree is one of its statements, and none stands in an operand. -/
inductive Placed : Node → Prop
  | of_returnFree {n : Node} (h : n.ReturnFree) : Placed n
  | of_parts {n : Node} (hoperands : ∀ m ∈ n.operands, m.ReturnFree)
      (hstatements : ∀ m ∈ n.statements, Placed m) : Placed n

theorem Placed.returnFree_of_mem_operands {n m : Node} (h : n.Placed) (hm : m ∈ n.operands) :
    m.ReturnFree := by
  cases h with
  | of_returnFree h => exact fun value hvalue => h value (.head (.inl hm) hvalue)
  | of_parts hoperands hstatements => exact hoperands m hm

theorem Placed.of_mem_statements {n m : Node} (h : n.Placed) (hm : m ∈ n.statements) :
    m.Placed := by
  cases h with
  | of_returnFree h => exact .of_returnFree fun value hvalue => h value (.head (.inr hm) hvalue)
  | of_parts hoperands hstatements => exact hstatements m hm

end Offside.Node
