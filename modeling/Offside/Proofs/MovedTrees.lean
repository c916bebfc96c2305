import Offside.Program.ClassTable
import Offside.Proofs.ProgramGrammar

set_option autoImplicit false

/-! # Trees with other classes

A tree refers to classes by their places in a table. `mapClasses` puts other places for them, and an
expression with other classes is an expression wherever its names stand for these. -/

namespace Offside

/-- The value with another class, if it is a class. -/
def Value.mapClass (f : ClassRef → ClassRef) : Value → Value
  | classObject c => classObject (f c)
  | v => v

namespace Node

variable (f : ClassRef → ClassRef)

mutual

/-- The tree with other classes. -/
def mapClasses : Node → Node
  | constant v => constant (v.mapClass f)
  | path p => path p
  | assign name value => assign name (mapClasses value)
  | assignField object field value => assignField (mapClasses object) field (mapClasses value)
  | print arguments => print (mapClassesAll arguments)
  | printValue argument => printValue (mapClasses argument)
  | call receiver method arguments => call (mapClasses receiver) method (mapClassesAll arguments)
  | construct cls arguments => construct (f cls) (mapClassesAll arguments)
  | stringify argument => stringify (mapClasses argument)
  | not argument => not (mapClasses argument)
  | and left right => and (mapClasses left) (mapClasses right)
  | or left right => or (mapClasses left) (mapClasses right)
  | arithmetic op left right => arithmetic op (mapClasses left) (mapClasses right)
  | compare c left right => compare c (mapClasses left) (mapClasses right)
  | sequence statements => sequence (mapClassesAll statements)
  | returnValue value => returnValue (mapClasses value)
  | methodBody body => methodBody (mapClasses body)
  | classDefinition cls => classDefinition (f cls)
  | ifThen condition body => ifThen (mapClasses condition) (mapClasses body)
  | ifElse condition body alternative =>
    ifElse (mapClasses condition) (mapClasses body) (mapClasses alternative)

/-- The trees with other classes. -/
def mapClassesAll : List Node → List Node
  | [] => []
  | n :: nodes => mapClasses n :: mapClassesAll nodes

end

@[simp] theorem mapClassesAll_eq_map (nodes : List Node) :
    mapClassesAll f nodes = nodes.map (mapClasses f) := by
  induction nodes with
  | nil => rfl
  | cons n nodes ih => rw [mapClassesAll, ih, List.map_cons]

end Node

/-- The method with other classes. -/
def Method.mapClasses (f : ClassRef → ClassRef) (m : Method) : Method :=
  { m with body := m.body.mapClasses f }

/-- The class with another parent and other classes in its methods. -/
def ClassDecl.mapClasses (f : ClassRef → ClassRef) (d : ClassDecl) : ClassDecl :=
  ⟨d.name, d.parent?.map f, d.methods.map (Method.mapClasses f)⟩

/-! ## Expressions with other classes -/

variable {class? class?' : String → Option ClassRef} {f : ClassRef → ClassRef} {l : Level}
  {us : List Token} {e : Node}

/-- The tokens of arguments with the other trees. -/
def mapArguments (f : ClassRef → ClassRef) (args : List (List Token × Node)) :
    List (List Token × Node) :=
  args.map fun a => (a.1, a.2.mapClasses f)

theorem map_fst_mapArguments (args : List (List Token × Node)) :
    (mapArguments f args).map Prod.fst = args.map Prod.fst := by
  simp [mapArguments]

theorem map_snd_mapArguments (args : List (List Token × Node)) :
    (mapArguments f args).map Prod.snd = (args.map Prod.snd).map (Node.mapClasses f) := by
  simp [mapArguments]

theorem forall_mem_mapArguments {args : List (List Token × Node)}
    {P : List Token → Node → Prop} (h : ∀ a ∈ args, P a.1 (a.2.mapClasses f)) :
    ∀ a ∈ mapArguments f args, P a.1 a.2 := by
  intro a ha
  obtain ⟨b, hb, rfl⟩ := List.mem_map.1 ha
  exact h b hb

section

variable (hf : ∀ name c, class? name = some c → class?' name = some (f c))
include hf

theorem Derives.mapClasses (h : Derives class? l us e) : Derives class?' l us (e.mapClasses f) := by
  induction h with
  | ofConjunction h ih => exact .ofConjunction ih
  | or _ _ hleft hright => exact .or hleft hright
  | ofNegation h ih => exact .ofNegation ih
  | and _ _ hleft hright => exact .and hleft hright
  | ofComparison h ih => exact .ofComparison ih
  | not h ih => exact .not ih
  | ofSum h ih => exact .ofSum ih
  | compare c _ _ hleft hright => exact .compare c hleft hright
  | ofProduct h ih => exact .ofProduct ih
  | add _ _ hleft hright => exact .add hleft hright
  | sub _ _ hleft hright => exact .sub hleft hright
  | ofUnary h ih => exact .ofUnary ih
  | mul _ _ hleft hright => exact .mul hleft hright
  | div _ _ hleft hright => exact .div hleft hright
  | ofPrimary h ih => exact .ofPrimary ih
  | negative h ih => exact .negative ih
  | number value => exact .number value
  | string text => exact .string text
  | true => exact .true
  | false => exact .false
  | none => exact .none
  | parentheses h ih => exact .parentheses ih
  | path p => exact .path p
  | @call p receiver method args hp hargs ih =>
    rw [Node.mapClasses, Node.mapClassesAll_eq_map, ← map_snd_mapArguments,
      ← map_fst_mapArguments]
    exact .call hp (forall_mem_mapArguments ih)
  | stringify h ih => exact .stringify ih
  | @construct name c args hc hargs ih =>
    rw [Node.mapClasses, Node.mapClassesAll_eq_map, ← map_snd_mapArguments,
      ← map_fst_mapArguments]
    exact .construct (hf name c hc) (forall_mem_mapArguments ih)

theorem DerivesSimple.mapClasses (h : DerivesSimple class? us e) :
    DerivesSimple class?' us (e.mapClasses f) := by
  cases h with
  | bareReturn => exact .bareReturn
  | returnValue h => exact .returnValue (h.mapClasses hf)
  | @print args hargs =>
    rw [Node.mapClasses, Node.mapClassesAll_eq_map, ← map_snd_mapArguments,
      ← map_fst_mapArguments]
    exact .print (forall_mem_mapArguments fun a ha => (hargs a ha).mapClasses hf)
  | expression h => exact .expression (h.mapClasses hf)
  | assign htarget h => exact .assign htarget (h.mapClasses hf)
  | assignField htarget hp h => exact .assignField htarget hp (h.mapClasses hf)

end

end Offside
