import Antecedent.Test.Basic
import Antecedent.Double.Text

/-!
# Text of tests

Tests are written with parentheses, the operator first. Names come from a symbol table; a symbol
that the table does not know is written `<?>`.
-/

namespace Antecedent

namespace SymbolTable

/-- The name of a symbol inside the text of a test. -/
def display (t : SymbolTable) (x : Symbol) : String := (t.name? x).getD "<?>"

end SymbolTable

/-- Writes a literal. -/
def Literal.text (names : SymbolTable) : Literal Symbol → String
  | integer i => toString i
  | float x => x.text
  | symbol s => names.display s
  | string s => "\"" ++ names.display s ++ "\""
  | instanceName s => "[" ++ names.display s ++ "]"

def Side.text : Side → String
  | candidate => "local"
  | matched depth => "lhs" ++ toString depth
  | joining => "rhs"
  | nested depth => "nrhs" ++ toString depth

def Segment.text (s : Segment) : String :=
  "[" ++ toString s.position ++ (if s.sequence then "..]" else "]")

/-- Writes an address; a field whose slot has no known name is written by its number. -/
def Address.text (names : SymbolTable) : Address → String
  | entity => "*"
  | field index name segment =>
    (name.bind names.name?).getD ("#" ++ toString index) ++ (segment.map Segment.text).getD ""

def Fetch.text (names : SymbolTable) (f : Fetch) : String :=
  f.kind.name ++ ":" ++ f.side.text ++ ":" ++ f.address.text names

namespace Test

/-- The word for equality, or for inequality. -/
def equalityWord (negated : Bool) : String := if negated then "neq" else "eq"

/-- An operator and its arguments, already written, in parentheses. -/
def parenthesize (words : List String) : String := "(" ++ " ".intercalate words ++ ")"

mutual

/-- Writes a test. -/
def text (names : SymbolTable) : Test → String
  | node (.const v) _ => v.text names
  | node (.global x) _ => "?*" ++ names.display x ++ "*"
  | node (.get f) _ => f.text names
  | node (.compare kind left right negated) _ =>
    parenthesize [kind.name ++ "-" ++ equalityWord negated, left.text names, right.text names]
  | node (.testConstant f negated) args =>
    parenthesize ((f.kind.name ++ "-const-" ++ equalityWord negated) :: f.text names ::
      textAll names args)
  | node (.call f) args => parenthesize (names.display f :: textAll names args)
  | node .and args => parenthesize ("and" :: textAll names args)
  | node .or args => parenthesize ("or" :: textAll names args)
  | node .not args => parenthesize ("not" :: textAll names args)
  | node .eq args => parenthesize ("eq" :: textAll names args)
  | node .neq args => parenthesize ("neq" :: textAll names args)

def textAll (names : SymbolTable) : List Test → List String
  | [] => []
  | t :: ts => text names t :: textAll names ts

end

end Test

end Antecedent
