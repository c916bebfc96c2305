import Offside.Parse.Statement
import Offside.Proofs.Grammar
import Offside.Proofs.Rules

set_option autoImplicit false

/-! # The grammar of programs

The statements of a program stand one behind the other, each in the scope that those before it left:
a class is in the table from its own body on, and stays there, wherever its definition stands. -/

namespace Offside

namespace Scope

/-- The scope behind the header of a class. -/
def define (Γ : Scope) (name : String) (parent? : Option ClassRef) : Scope :=
  ⟨Γ.classes ++ [(name, Γ.table.next)], Γ.table.add ⟨name, parent?, []⟩⟩

/-- The scope behind the body of a class. -/
def setMethods (Γ : Scope) (c : ClassRef) (methods : List Method) : Scope :=
  ⟨Γ.classes, Γ.table.setMethods c methods⟩

end Scope

/-! ## Lines -/

/-- The tokens are a path, possibly in parentheses. -/
inductive Target : List Token → DottedPath → Prop
  | path (p : DottedPath) : Target p.tokens p
  | parentheses {us : List Token} {p : DottedPath} (h : Target us p) :
      Target (.char '(' :: (us ++ [.char ')'])) p

/-- The tokens are a statement of one line, and this is its tree. -/
inductive DerivesSimple (class? : String → Option ClassRef) : List Token → Node → Prop
  | bareReturn : DerivesSimple class? [.keyword .returnWord] (.returnValue (.constant .empty))
  | returnValue {us : List Token} {e : Node} (h : Derives class? .test us e) :
      DerivesSimple class? (.keyword .returnWord :: us) (.returnValue e)
  | print {args : List (List Token × Node)} (hargs : ∀ a ∈ args, Derives class? .test a.1 a.2) :
      DerivesSimple class? (.keyword .printWord :: commaTokens (args.map Prod.fst))
        (.print (args.map Prod.snd))
  | expression {us : List Token} {e : Node} (h : Derives class? .test us e) :
      DerivesSimple class? us e
  | assign {us vs : List Token} {name : String} {e : Node} (htarget : Target us ⟨name, []⟩)
      (h : Derives class? .test vs e) : DerivesSimple class? (us ++ .char '=' :: vs) (.assign name e)
  | assignField {us vs : List Token} {p object : DottedPath} {field : String} {e : Node}
      (htarget : Target us p) (hp : p.split? = some (object, field)) (h : Derives class? .test vs e) :
      DerivesSimple class? (us ++ .char '=' :: vs) (.assignField (.path object) field e)

/-- The tokens are what a class header says of its parent, or nothing. -/
inductive DerivesBase (Γ : Scope) : List Token → Option ClassRef → Prop
  | none : DerivesBase Γ [] none
  | some {name : String} {c : ClassRef} (h : Γ.classes.lookup name = some c) :
      DerivesBase Γ [.char '(', .name name, .char ')'] (some c)

/-! ## Blocks -/

/-- The tokens of a block around those of its lines. -/
def blockTokens (us : List Token) : List Token := .newline :: .indent :: (us ++ [.dedent])

/-- No step in is directly followed by a step out. -/
def NoEmptyBlock (ts : List Token) : Prop := ¬ [.indent, .dedent] <:+: ts

theorem NoEmptyBlock.mono {us ts : List Token} (h : NoEmptyBlock ts) (hus : us <:+: ts) :
    NoEmptyBlock us :=
  fun hempty => h (hempty.trans hus)

theorem NoEmptyBlock.of_blockTokens {us : List Token} (h : NoEmptyBlock (blockTokens us)) :
    us ≠ [] ∧ NoEmptyBlock us := by
  constructor
  · rintro rfl
    exact h (List.suffix_cons _ _).isInfix
  · exact h.mono ⟨[.newline, .indent], [.dedent], by simp [blockTokens]⟩

/-- Things one behind the other, each in the scope that the one before it left. -/
inductive Many {α : Type} (P : Scope → List Token → α → Scope → Prop) :
    Scope → List Token → List α → Scope → Prop
  | nil (Γ : Scope) : Many P Γ [] [] Γ
  | cons {Γ Γ₁ Γ' : Scope} {us vs : List Token} {x : α} {xs : List α} (h : P Γ us x Γ₁)
      (hs : Many P Γ₁ vs xs Γ') : Many P Γ (us ++ vs) (x :: xs) Γ'

/-- No things take no tokens. -/
theorem Many.eq_nil {α : Type} {P : Scope → List Token → α → Scope → Prop} {Γ Γ' : Scope}
    {us : List Token} {xs : List α} (h : Many P Γ us xs Γ') (hxs : xs = []) : us = [] := by
  cases h with
  | nil => rfl
  | cons h hs => simp at hxs

mutual

/-- The tokens are a statement, and this is its tree, where `callable` tells the classes whose name
may stand in front of arguments. -/
inductive DerivesStatement (callable : Scope → String → Option ClassRef) :
    Scope → List Token → Node → Scope → Prop
  | simple {Γ : Scope} {us : List Token} {e : Node} (h : DerivesSimple (callable Γ) us e) :
      DerivesStatement callable Γ (us ++ [.newline]) e Γ
  | ifThen {Γ Γ' : Scope} {us vs : List Token} {condition body : Node}
      (hcondition : Derives (callable Γ) .test us condition)
      (hbody : DerivesSuite callable Γ vs body Γ') :
      DerivesStatement callable Γ (.keyword .ifWord :: (us ++ .char ':' :: vs))
        (.ifThen condition body) Γ'
  | ifElse {Γ Γ₁ Γ' : Scope} {us vs ws : List Token} {condition body alternative : Node}
      (hcondition : Derives (callable Γ) .test us condition)
      (hbody : DerivesSuite callable Γ vs body Γ₁)
      (halternative : DerivesSuite callable Γ₁ ws alternative Γ') :
      DerivesStatement callable Γ
        (.keyword .ifWord :: (us ++ .char ':' :: (vs ++ .keyword .elseWord :: .char ':' :: ws)))
        (.ifElse condition body alternative) Γ'
  | classDefinition {Γ Γ' : Scope} {us vs : List Token} {name : String} {parent? : Option ClassRef}
      {methods : List Method} (hnew : Γ.classes.lookup name = none) (hbase : DerivesBase Γ us parent?)
      (hmethods : Many (DerivesMethod callable) (Γ.define name parent?) vs methods Γ')
      (hne : methods ≠ []) :
      DerivesStatement callable Γ
        (.keyword .classWord :: .name name :: (us ++ .char ':' :: blockTokens vs))
        (.classDefinition Γ.table.next) (Γ'.setMethods Γ.table.next methods)

/-- The tokens are a block of statements, and this is its tree. -/
inductive DerivesSuite (callable : Scope → String → Option ClassRef) :
    Scope → List Token → Node → Scope → Prop
  | mk {Γ Γ' : Scope} {us : List Token} {body : List Node}
      (hbody : Many (DerivesStatement callable) Γ us body Γ') (hne : body ≠ []) :
      DerivesSuite callable Γ (blockTokens us) (.sequence body) Γ'

/-- The tokens are a method of a class. -/
inductive DerivesMethod (callable : Scope → String → Option ClassRef) :
    Scope → List Token → Method → Scope → Prop
  | mk {Γ Γ' : Scope} {us : List Token} {name : String} {parameters : List String} {body : Node}
      (hbody : DerivesSuite callable Γ us body Γ') :
      DerivesMethod callable Γ
        (.keyword .defWord :: .name name ::
          (argumentTokens (parameters.map fun p => [.name p]) ++ .char ':' :: us))
        ⟨name, parameters, .methodBody body⟩ Γ'

end

/-- The tokens are a program, behind classes that are known from elsewhere. -/
def DerivesProgram (callable : Scope → String → Option ClassRef) (known : ClassTable)
    (tokens : List Token) (p : Program) : Prop :=
  ∃ us body Γ, tokens = us ++ [.endOfInput] ∧
    Many (DerivesStatement callable) ⟨[], known⟩ us body Γ ∧ p = ⟨Γ.classes, Γ.table, body⟩

end Offside
