import Antecedent.Restriction

/-!
# Environments and options

An environment holds what a rule may refer to besides its own variables: the symbol table, the
functions whose arguments are restricted, and the defined global variables. Options say which
checks are made while a rule is compiled.
-/

namespace Antecedent

/-- The restrictions on the arguments of a function. -/
structure Signature where
  /-- The restrictions of the first arguments, one by one. -/
  positional : List (Option Restriction)
  /-- The restriction of every further argument. -/
  rest : Option Restriction
  deriving DecidableEq, Repr

namespace Signature

def unrestricted : Signature := ⟨[], none⟩

/-- Restricts every argument alike. -/
def uniform (r : Restriction) : Signature := ⟨[], some r⟩

def ofPositional (rs : List (Option Restriction)) : Signature := ⟨rs, none⟩

/-- The restriction of the argument with the given index, counted from zero. -/
def arg (s : Signature) (i : Nat) : Option Restriction :=
  match s.positional[i]? with
  | some r => r
  | none => s.rest

end Signature

/-- What rules may refer to. -/
structure Environment where
  symbols : SymbolTable
  /-- The known functions; the first entry of a function counts. -/
  functions : List (Symbol × Signature)
  globals : List Symbol

namespace Environment

def empty : Environment := ⟨.empty, [], []⟩

/-- The signature of a function, if it is known. -/
def signature? (e : Environment) (f : Symbol) : Option Signature := e.functions.lookup f

def isGlobal (e : Environment) (x : Symbol) : Bool := e.globals.contains x

/-- The name of a symbol, or a stand-in for a symbol of another table. -/
def name (e : Environment) (x : Symbol) : String := (e.symbols.name? x).getD "<unknown>"

def intern (e : Environment) (s : String) : Symbol × Environment :=
  let (x, symbols) := e.symbols.intern s
  (x, { e with symbols })

/-- Defines a function, or replaces its signature. -/
def defineFunction (e : Environment) (name : String) (s : Signature) : Symbol × Environment :=
  let (f, e) := e.intern name
  (f, { e with functions := (f, s) :: e.functions })

def defineGlobal (e : Environment) (name : String) : Symbol × Environment :=
  let (x, e) := e.intern name
  (x, { e with globals := x :: e.globals })

/-- The functions every rule may use: arithmetic, comparison and two functions on strings. -/
def builtins : List (String × Signature) :=
  (["+", "-", "*", "/", ">", "<", ">=", "<=", "=", "<>", "abs", "mod"].map fun f =>
    (f, .uniform .numeric)) ++
  [("str-length", .ofPositional [some .lexeme]),
    ("sub-string", .ofPositional [some .numeric, some .numeric, some .lexeme])]

def withBuiltins : Environment :=
  builtins.foldl (fun e (name, s) => (e.defineFunction name s).2) empty

end Environment

/-- Which checks are made. -/
structure Options where
  /-- Report literals that violate a restriction and references that can never match. -/
  staticChecks : Bool
  /-- The greatest nesting depth of an expression. -/
  maxDepth : Nat
  deriving DecidableEq, Repr

def Options.standard : Options := ⟨true, 128⟩

end Antecedent
