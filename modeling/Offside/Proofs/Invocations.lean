import Offside.CommandLine.Arguments

set_option autoImplicit false

/-! # What arguments ask for

The options of a command may stand anywhere, before the script and behind it. What accepted
arguments ask for can be read off them without going from left to right: the script is the one plain
argument that is no value of an option, a switch is on if it is anywhere among the arguments, and of
several levels the last one counts. -/

namespace Offside

/-! ## Arguments one by one -/

namespace Argument

/-- The text of a plain argument. -/
def plain? : Argument → Option String
  | plain text => some text
  | separator | option _ _ _ | unknown _ => none

/-- Whether an argument is this option. -/
def isOption (switch : Switch) : Argument → Bool
  | option s _ _ => s = switch
  | plain _ | separator | unknown _ => false

/-- The level that an argument names, if its value is joined to it. -/
def levelValue? : Argument → Option String
  | option .logLevel _ value? => value?
  | plain _ | separator | option _ _ _ | unknown _ => none

/-- The arguments with the values of options joined to them. Only the option for the level has a
value. -/
def joinValues : List Argument → List Argument
  | [] => []
  | .option .logLevel short none :: .plain value :: rest =>
    .option .logLevel short (some value) :: joinValues rest
  | a :: rest => a :: joinValues rest

end Argument

namespace Invocation

open Argument

/-- What arguments ask for, in whatever order they stand. -/
structure IsAskedBy (i : Invocation) (arguments : List Argument) : Prop where
  script : arguments.filterMap plain? = [i.script]
  typedReturns : i.typedReturns = arguments.any (isOption .typedReturns)
  tokens : i.tokens = arguments.any (isOption .tokens)
  level : i.level.name = (arguments.filterMap levelValue?).getLast?.getD LogLevel.warning.name

/-! ## Drafts -/

/-- What succeeds in two steps succeeds in each of them. -/
theorem ok_of_bind {ε α β : Type} {x : Except ε α} {f : α → Except ε β} {b : β}
    (h : x >>= f = .ok b) : ∃ a, x = .ok a ∧ f a = .ok b := by
  cases x with
  | error e => cases h
  | ok a => exact ⟨a, rfl, h⟩

/-- The name under which the level was given. -/
def Draft.levelName (d : Draft) : String := d.level?.elim "--" LogLevel.name

/-- What arguments add to a draft. -/
structure Draft.Takes (d : Draft) (arguments : List Argument) (d' : Draft) : Prop where
  script : d'.extras = [] →
    d.extras = [] ∧ d'.script?.toList = d.script?.toList ++ arguments.filterMap plain?
  typedReturns : d'.typedReturns = (d.typedReturns || arguments.any (isOption .typedReturns))
  tokens : d'.tokens = (d.tokens || arguments.any (isOption .tokens))
  levelName : d'.levelName = (arguments.filterMap levelValue?).getLast?.getD d.levelName

variable {d d₁ d' : Draft} {a : Argument} {rest : List Argument} {text : String}

namespace Draft.Takes

theorem nil (d : Draft) : d.Takes [] d := by
  constructor <;> simp

/-- One argument and then the others. -/
theorem cons (ha : d.Takes [a] d₁) (h : d₁.Takes rest d') : d.Takes (a :: rest) d' where
  script hextras := by
    obtain ⟨hextras₁, hrest⟩ := h.script hextras
    obtain ⟨hextras₀, hfirst⟩ := ha.script hextras₁
    refine ⟨hextras₀, ?_⟩
    rw [hrest, hfirst, List.append_assoc, ← List.filterMap_append, List.singleton_append]
  typedReturns := by
    rw [h.typedReturns, ha.typedReturns]
    simp [Bool.or_assoc]
  tokens := by
    rw [h.tokens, ha.tokens]
    simp [Bool.or_assoc]
  levelName := by
    show _ = (([a] ++ rest).filterMap levelValue?).getLast?.getD d.levelName
    rw [List.filterMap_append, List.getLast?_append, Option.getD_or, h.levelName, ha.levelName]

end Draft.Takes

/-- With an argument that means nothing the arguments are not accepted. -/
theorem takes_addExtra (d : Draft) (text : String) (ha : ∀ s short value?, a ≠ .option s short value?) :
    d.Takes [a] (d.addExtra text) := by
  cases a with
  | option s short value? => exact absurd rfl (ha s short value?)
  | plain | separator | unknown =>
    constructor <;> simp [Draft.addExtra, isOption, levelValue?, Draft.levelName]

/-- A separator that is skipped changes nothing. -/
theorem takes_separator (d : Draft) : d.Takes [.separator] d := by
  constructor <;> simp [plain?, isOption, levelValue?]

theorem takes_script (hd : d.script? = none) (text : String) :
    d.Takes [.plain text] { d with script? := some text } := by
  constructor <;> simp [hd, plain?, isOption, levelValue?, Draft.levelName]

theorem takes_takeSwitch {switch : Switch} {short : Bool} {value? : Option String}
    (h : takeSwitch d switch short value? = .ok d') : d.Takes [.option switch short value?] d' := by
  cases value? with
  | some value => cases short <;> simp [takeSwitch] at h
  | none =>
    cases switch with
    | help | logLevel => simp [takeSwitch] at h
    | typedReturns | tokens =>
      obtain rfl := Except.ok.inj h
      constructor <;> simp [plain?, isOption, levelValue?, Draft.levelName]

theorem name_of_ofName? {name : String} {level : LogLevel} (h : LogLevel.ofName? name = some level) :
    level.name = name := by
  simpa using List.find?_some h

theorem takes_takeLevel {value : String} (short : Bool) (h : takeLevel d value = .ok d') :
    d.Takes [.option .logLevel short (some value)] d' := by
  have hlevel : d' = { d with level? := d'.level? } ∧ d'.levelName = value := by
    unfold takeLevel at h
    split at h
    · next hvalue =>
      obtain rfl := Except.ok.inj h
      exact ⟨rfl, hvalue.symm⟩
    · split at h
      · next hname =>
        obtain rfl := Except.ok.inj h
        exact ⟨rfl, name_of_ofName? hname⟩
      · cases h
  obtain ⟨hd, hname⟩ := hlevel
  constructor
  · rw [hd]
    simp [plain?]
  · rw [hd]
    simp [isOption]
  · rw [hd]
    simp [isOption]
  · simpa [levelValue?] using hname

/-- What taking arguments from left to right comes to. -/
theorem takes_take {arguments : List Argument} (h : take d arguments = .ok d') :
    d.Takes (joinValues arguments) d' := by
  -- one argument after the other, except that a separator next to the script goes with it
  fun_induction take d arguments with
  | case1 d =>
    obtain rfl := Except.ok.inj h
    exact .nil d
  | case2 d text rest ih => exact (takes_addExtra d text (by simp)).cons (ih h)
  | case3 d rest hd ih => exact (takes_separator d).cons (ih h)
  | case4 d rest script hd ih => exact (takes_addExtra d "--" (by simp)).cons (ih h)
  | case5 d text rest hd ih => exact (takes_script hd text).cons ((takes_separator _).cons (ih h))
  | case6 d text rest script hd ih =>
    exact (takes_addExtra d text (by simp)).cons ((takes_addExtra _ "--" (by simp)).cons (ih h))
  | case7 d text rest hnext hd ih => exact (takes_script hd text).cons (ih h)
  | case8 d text rest hnext script hd ih => exact (takes_addExtra d text (by simp)).cons (ih h)
  | case9 d short value rest ih =>
    obtain ⟨d₁, hlevel, hrest⟩ := ok_of_bind h
    exact (takes_takeLevel short hlevel).cons (ih d₁ hrest)
  | case10 d short value rest ih =>
    obtain ⟨d₁, hlevel, hrest⟩ := ok_of_bind h
    exact (takes_takeLevel short hlevel).cons (ih d₁ hrest)
  | case11 d switch short value? rest hvalue hnext ih =>
    obtain ⟨d₁, hswitch, hrest⟩ := ok_of_bind h
    rw [joinValues]
    · exact (takes_takeSwitch hswitch).cons (ih d₁ hrest)
    · intro _ value others ha
      obtain ⟨hs, -, hv⟩ := Argument.option.inj ha
      exact fun hrest => hnext value others hrest hs hv

/-- Accepted arguments ask for what the invocation does. -/
theorem isAskedBy_of_ofArguments {texts : List String} {i : Invocation}
    (h : ofArguments texts = .ok i) :
    ∃ arguments, ofTexts texts = .ok arguments ∧ i.IsAskedBy (joinValues arguments) := by
  unfold ofArguments at h
  cases htexts : ofTexts texts with
  | error e => simp [htexts] at h
  | ok arguments =>
    simp only [htexts] at h
    obtain ⟨d, htake, h⟩ := ok_of_bind h
    have htakes := takes_take htake
    refine ⟨arguments, rfl, ?_⟩
    split at h
    · cases h
    · next script hscript =>
      split at h
      · cases h
      · next hextras =>
        split at h
        · cases h
        · next level hlevel =>
          obtain rfl := Except.ok.inj h
          obtain ⟨-, hplain⟩ := htakes.script (Decidable.of_not_not hextras)
          have hname := htakes.levelName
          simp only [Draft.levelName, hlevel] at hname
          exact ⟨by simpa [hscript, Draft.initial] using hplain.symm, htakes.typedReturns,
            htakes.tokens, hname⟩

end Invocation

end Offside
