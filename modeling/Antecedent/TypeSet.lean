/-!
# Value types

The primitive types of values and sets of them. A set is a mask of eight bits, one per type in
the order of `ValueType.all`, so that union and intersection are the operations on bits.
-/

namespace Antecedent

/-- The primitive types a value can have. -/
inductive ValueType where
  | symbol
  | string
  | integer
  | float
  | instanceName
  | factAddress
  | instanceAddress
  | externalAddress
  deriving DecidableEq, Repr

namespace ValueType

/-- Every type, in the order in which sets of types are written. -/
def all : List ValueType :=
  [symbol, string, integer, float, instanceName, factAddress, instanceAddress, externalAddress]

/-- The position of a type in `all`. -/
def index : ValueType → Nat
  | symbol => 0
  | string => 1
  | integer => 2
  | float => 3
  | instanceName => 4
  | factAddress => 5
  | instanceAddress => 6
  | externalAddress => 7

def name : ValueType → String
  | symbol => "SYMBOL"
  | string => "STRING"
  | integer => "INTEGER"
  | float => "FLOAT"
  | instanceName => "INSTANCE_NAME"
  | factAddress => "FACT_ADDRESS"
  | instanceAddress => "INSTANCE_ADDRESS"
  | externalAddress => "EXTERNAL_ADDRESS"

end ValueType

/-- A set of value types. -/
structure TypeSet where
  mask : BitVec 8
  deriving DecidableEq, Repr

namespace TypeSet

def empty : TypeSet := ⟨0⟩

def all : TypeSet := ⟨BitVec.allOnes 8⟩

def single (t : ValueType) : TypeSet := ⟨BitVec.twoPow 8 t.index⟩

def contains (s : TypeSet) (t : ValueType) : Bool := s.mask.getLsbD t.index

def isEmpty (s : TypeSet) : Bool := s.mask == 0

instance : Union TypeSet := ⟨fun s t => ⟨s.mask ||| t.mask⟩⟩

instance : Inter TypeSet := ⟨fun s t => ⟨s.mask &&& t.mask⟩⟩

instance : SDiff TypeSet := ⟨fun s t => ⟨s.mask &&& ~~~t.mask⟩⟩

@[simp] theorem contains_empty (t : ValueType) : empty.contains t = false := by
  simp [empty, contains]

@[simp] theorem contains_all (t : ValueType) : all.contains t = true := by
  cases t <;> decide

@[simp] theorem contains_single (s t : ValueType) : (single s).contains t = decide (s = t) := by
  cases s <;> cases t <;> decide

@[simp] theorem contains_union (a b : TypeSet) (t : ValueType) :
    (a ∪ b).contains t = (a.contains t || b.contains t) :=
  BitVec.getLsbD_or

@[simp] theorem contains_inter (a b : TypeSet) (t : ValueType) :
    (a ∩ b).contains t = (a.contains t && b.contains t) :=
  BitVec.getLsbD_and

@[simp] theorem contains_sdiff (a b : TypeSet) (t : ValueType) :
    (a \ b).contains t = (a.contains t && !b.contains t) := by
  cases t <;> simp [contains, SDiff.sdiff, ValueType.index]

/-- Sets with the same members are equal. -/
theorem eq_of_contains {a b : TypeSet} (h : ∀ t, a.contains t = b.contains t) : a = b := by
  obtain ⟨a⟩ := a
  obtain ⟨b⟩ := b
  congr 1
  refine BitVec.eq_of_getLsbD_eq fun i hi => ?_
  match i, hi with
  | 0, _ => exact h .symbol
  | 1, _ => exact h .string
  | 2, _ => exact h .integer
  | 3, _ => exact h .float
  | 4, _ => exact h .instanceName
  | 5, _ => exact h .factAddress
  | 6, _ => exact h .instanceAddress
  | 7, _ => exact h .externalAddress

/-- The types in a list. -/
def ofList (ts : List ValueType) : TypeSet := ts.foldl (fun s t => s ∪ single t) empty

def number : TypeSet := ofList [.integer, .float]

def lexeme : TypeSet := ofList [.symbol, .string]

def address : TypeSet := ofList [.factAddress, .instanceAddress]

/-- The set with a given name: one type, or a named family of types. -/
def named? (name : String) : Option TypeSet :=
  match ValueType.all.find? fun t => t.name = name with
  | some t => some (single t)
  | none =>
    if name = "NUMBER" then some number
    else if name = "LEXEME" then some lexeme
    else if name = "ADDRESS" then some address
    else none

/-- The names of the members, separated by bars. -/
def text (s : TypeSet) : String :=
  " | ".intercalate ((ValueType.all.filter s.contains).map ValueType.name)

end TypeSet

end Antecedent
