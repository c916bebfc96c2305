import Offside.Proofs.ProgramGrammar
import Offside.Proofs.Tables

set_option autoImplicit false

/-! # Scopes only grow

Behind a statement the classes of before are all known, by the same names and with the same methods:
a class gets its methods at the end of its own definition and never again. -/

namespace Offside

namespace Scope

theorem mem_of_lookup {Γ : Scope} {name : String} {c : ClassRef}
    (h : Γ.classes.lookup name = some c) : (name, c) ∈ Γ.classes := by
  obtain ⟨before, after, hclasses, -⟩ := List.lookup_eq_some_iff.1 h
  exact hclasses ▸ List.mem_append_right _ (List.mem_cons_self ..)

@[simp] theorem size_define (Γ : Scope) (name : String) (parent? : Option ClassRef) :
    (Γ.define name parent?).table.size = Γ.table.size + 1 :=
  ClassTable.size_add ..

@[simp] theorem size_setMethods (Γ : Scope) (c : ClassRef) (methods : List Method) :
    (Γ.setMethods c methods).table.size = Γ.table.size :=
  ClassTable.size_setMethods ..

end Scope

/-- The second scope has the classes of the first one and possibly more. -/
structure Scope.Grows (Γ Γ' : Scope) : Prop where
  classes : Γ.classes <+: Γ'.classes
  table : Γ.table.Extends Γ'.table

namespace Scope.Grows

variable {Γ Γ' Γ'' : Scope}

theorem refl (Γ : Scope) : Γ.Grows Γ := ⟨List.prefix_refl _, .refl _⟩

theorem trans (h : Γ.Grows Γ') (h' : Γ'.Grows Γ'') : Γ.Grows Γ'' :=
  ⟨h.classes.trans h'.classes, h.table.trans h'.table⟩

theorem define (Γ : Scope) (name : String) (parent? : Option ClassRef) :
    Γ.Grows (Γ.define name parent?) :=
  ⟨List.prefix_append .., .add ..⟩

theorem setMethods (h : Γ.Grows Γ') (methods : List Method) :
    Γ.Grows (Γ'.setMethods Γ.table.next methods) :=
  ⟨h.classes, h.table.setMethods (Nat.le_refl _) methods⟩

end Scope.Grows

variable {callable : Scope → String → Option ClassRef}

mutual

theorem DerivesStatement.grows {Γ Γ' : Scope} {us : List Token} {e : Node} :
    DerivesStatement callable Γ us e Γ' → Γ.Grows Γ'
  | .simple _ => .refl _
  | .ifThen _ hbody => hbody.grows
  | .ifElse _ hbody halternative => hbody.grows.trans halternative.grows
  | .classDefinition _ _ hmethods _ =>
    ((Scope.Grows.define Γ _ _).trans (grows_of_many_methods hmethods)).setMethods _

theorem DerivesSuite.grows {Γ Γ' : Scope} {us : List Token} {e : Node} :
    DerivesSuite callable Γ us e Γ' → Γ.Grows Γ'
  | .mk hbody _ => grows_of_many hbody

theorem DerivesMethod.grows {Γ Γ' : Scope} {us : List Token} {m : Method} :
    DerivesMethod callable Γ us m Γ' → Γ.Grows Γ'
  | .mk hbody => hbody.grows

theorem grows_of_many {Γ Γ' : Scope} {us : List Token} {body : List Node} :
    Many (DerivesStatement callable) Γ us body Γ' → Γ.Grows Γ'
  | .nil _ => .refl _
  | .cons h hs => h.grows.trans (grows_of_many hs)

theorem grows_of_many_methods {Γ Γ' : Scope} {us : List Token} {methods : List Method} :
    Many (DerivesMethod callable) Γ us methods Γ' → Γ.Grows Γ'
  | .nil _ => .refl _
  | .cons h hs => h.grows.trans (grows_of_many_methods hs)

end

end Offside
