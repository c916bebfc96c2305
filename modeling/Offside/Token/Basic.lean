import Offside.Text.Decimal

set_option autoImplicit false

/-! # Tokens

The vocabulary between text and tree. A token is a literal, a name, a punctuation character, a
keyword, a comparison of two characters, or a mark of the block structure: the end of a line, one
step of indentation in or out, and the end of the input.

`Token.text` is the written form in messages and listings, `Expectation` what a reader of tokens may
ask for: a kind of token, or a kind together with what the token carries. -/

namespace Offside

/-- The reserved words. -/
inductive Keyword
  | classWord
  | returnWord
  | ifWord
  | elseWord
  | defWord
  | printWord
  | andWord
  | orWord
  | notWord
  | noneWord
  | trueWord
  | falseWord
  deriving DecidableEq, Repr, Inhabited

namespace Keyword

/-- How a reserved word is spelled. -/
def spelling : Keyword → String
  | classWord => "class"
  | returnWord => "return"
  | ifWord => "if"
  | elseWord => "else"
  | defWord => "def"
  | printWord => "print"
  | andWord => "and"
  | orWord => "or"
  | notWord => "not"
  | noneWord => "None"
  | trueWord => "True"
  | falseWord => "False"

/-- The name of a reserved word in listings. -/
def name : Keyword → String
  | classWord => "Class"
  | returnWord => "Return"
  | ifWord => "If"
  | elseWord => "Else"
  | defWord => "Def"
  | printWord => "Print"
  | andWord => "And"
  | orWord => "Or"
  | notWord => "Not"
  | noneWord => "None"
  | trueWord => "True"
  | falseWord => "False"

/-- All reserved words. -/
def all : List Keyword :=
  [classWord, returnWord, ifWord, elseWord, defWord, printWord, andWord, orWord, notWord, noneWord,
   trueWord, falseWord]

/-- The reserved word spelled `word`. -/
def ofSpelling? (word : String) : Option Keyword :=
  all.find? fun k => k.spelling == word

theorem mem_all (k : Keyword) : k ∈ all := by
  cases k <;> decide

/-- Reading the spelling of a reserved word gives it back. -/
theorem ofSpelling?_spelling (k : Keyword) : ofSpelling? k.spelling = some k := by
  cases k <;> decide

end Keyword

/-- The comparisons that are written with two characters. -/
inductive PairedSign
  | equal
  | notEqual
  | lessOrEqual
  | greaterOrEqual
  deriving DecidableEq, Repr, Inhabited

namespace PairedSign

/-- The first character; the second is always `=`. -/
def first : PairedSign → Char
  | equal => '='
  | notEqual => '!'
  | lessOrEqual => '<'
  | greaterOrEqual => '>'

/-- The name in listings. -/
def name : PairedSign → String
  | equal => "Eq"
  | notEqual => "NotEq"
  | lessOrEqual => "LessOrEq"
  | greaterOrEqual => "GreaterOrEq"

/-- The sign that `c` begins when `=` follows it. -/
def ofFirst? (c : Char) : Option PairedSign :=
  if c = '=' then some equal
  else if c = '!' then some notEqual
  else if c = '<' then some lessOrEqual
  else if c = '>' then some greaterOrEqual
  else none

/-- The sign written `c` and then `d`. -/
def ofPair? (c d : Char) : Option PairedSign :=
  if d = '=' then ofFirst? c else none

theorem ofFirst?_first (s : PairedSign) : ofFirst? s.first = some s := by
  cases s <;> decide

end PairedSign

/-- The characters that are tokens by themselves. -/
def punctuation : List Char :=
  ['=', '!', '<', '>', '+', '-', '*', '/', ':', '(', ')', ',', '.']

/-- One token of a source. -/
inductive Token
  | number (value : Nat)
  | name (name : String)
  | char (c : Char)
  | string (text : String)
  | keyword (word : Keyword)
  | paired (sign : PairedSign)
  | newline
  | indent
  | dedent
  | endOfInput
  deriving DecidableEq, Repr, Inhabited

/-- What a token is, apart from what it carries. -/
inductive TokenKind
  | number
  | name
  | char
  | string
  | keyword (word : Keyword)
  | paired (sign : PairedSign)
  | newline
  | indent
  | dedent
  | endOfInput
  deriving DecidableEq, Repr, Inhabited

namespace TokenKind

/-- The name of a kind in listings. -/
def label : TokenKind → String
  | number => "Number"
  | name => "Id"
  | char => "Char"
  | string => "String"
  | keyword word => word.name
  | paired sign => sign.name
  | newline => "Newline"
  | indent => "Indent"
  | dedent => "Dedent"
  | endOfInput => "Eof"

/-- Whether tokens of this kind carry a value. -/
def carriesValue : TokenKind → Bool
  | number | name | char | string => true
  | _ => false

/-- All kinds. -/
def all : List TokenKind :=
  [number, name, char, string] ++ Keyword.all.map keyword ++
    [PairedSign.equal, PairedSign.notEqual, PairedSign.lessOrEqual,
      PairedSign.greaterOrEqual].map paired ++
    [newline, indent, dedent, endOfInput]

/-- The kind with a given name. -/
def ofLabel? (s : String) : Option TokenKind :=
  all.find? fun k => k.label == s

end TokenKind

/-- What a token may carry: a number, or a text. -/
inductive Payload
  | number (value : Int)
  | text (value : String)
  deriving DecidableEq, Repr, Inhabited

/-- The plain written form of a payload. -/
def Payload.plain : Payload → String
  | number value => toString value
  | text value => value

namespace Token

/-- What the token is, apart from what it carries. -/
def kind : Token → TokenKind
  | number _ => .number
  | name _ => .name
  | char _ => .char
  | string _ => .string
  | keyword word => .keyword word
  | paired sign => .paired sign
  | newline => .newline
  | indent => .indent
  | dedent => .dedent
  | endOfInput => .endOfInput

/-- What the token carries. -/
def payload? : Token → Option Payload
  | number value => some (.number value)
  | name s | string s => some (.text s)
  | char c => some (.text c.toString)
  | _ => none

/-- Whether the token marks the structure of lines and blocks other than the end of the input. -/
def isLayout : Token → Bool
  | newline | indent | dedent => true
  | _ => false

end Token

/-- What may be asked of a token: its kind, and possibly what it carries. -/
structure Expectation where
  kind : TokenKind
  payload? : Option Payload
  deriving DecidableEq, Repr, Inhabited

namespace Expectation

/-- Whether `t` is what was asked for. -/
def holdsOf (e : Expectation) (t : Token) : Bool :=
  t.kind == e.kind && (e.payload?.isNone || t.payload? == e.payload?)

/-- The written form: `Kind{value}` when a value is asked of a kind that carries one, and the name of
the kind otherwise. -/
def text (e : Expectation) : String :=
  match e.payload? with
  | some p => if e.kind.carriesValue then e.kind.label ++ "\x7b" ++ p.plain ++ "\x7d" else e.kind.label
  | none => e.kind.label

/-- Whether the written form exists: a number in it must not have too many digits. -/
def isWritable (e : Expectation) : Bool :=
  match e.payload? with
  | some (.number value) => !e.kind.carriesValue || Text.isWritable value.natAbs
  | _ => true

end Expectation

/-- The written form of a token, for instance `Number{42}` or `Newline`. -/
def Token.text (t : Token) : String :=
  Expectation.text ⟨t.kind, t.payload?⟩

/-- A token is what its own kind and payload ask for. -/
theorem Expectation.holdsOf_self (t : Token) :
    Expectation.holdsOf ⟨t.kind, t.payload?⟩ t = true := by
  simp [Expectation.holdsOf]

end Offside
