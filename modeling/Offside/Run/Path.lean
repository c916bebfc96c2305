import Offside.Run.Basic

set_option autoImplicit false

/-! # Dotted paths

The value of a path is found in the frame and the heap and changes neither. The first name is looked
up in the frame and each further one in the fields of the object before it; behind an empty value
the next name is looked up in the frame again, where a name that is not bound is empty. -/

namespace Offside

namespace RunState

/-- The value at the end of `names`, from the value `v` on, which stands at the path `text`. -/
def follow (σ : Setting) (st : RunState) (text : String) (v : Value) :
    List String → Except RuntimeError Value
  | [] => .ok v
  | name :: rest =>
    let text := text ++ "." ++ name
    match v with
    | .empty => st.follow σ text ((st.frame.get? name).getD .empty) rest
    | .object o =>
      match (st.heap.get o).fields.get? name with
      | some w => st.follow σ text w rest
      | none => .error (.undefinedName text)
    | _ => .error (.objectNeeded (.fieldAccess text) (σ.typeName st.heap v))

/-- The value of a path. -/
def resolve (σ : Setting) (st : RunState) (p : DottedPath) : Except RuntimeError Value :=
  match st.frame.get? p.first with
  | some v => st.follow σ p.first v p.rest
  | none => .error (.undefinedName p.first)

end RunState

/-- The value of a path in the current state. -/
def Run.resolve (σ : Setting) (p : DottedPath) : Run Value := do
  match (← get).resolve σ p with
  | .ok v => return v
  | .error e => fail e

end Offside
