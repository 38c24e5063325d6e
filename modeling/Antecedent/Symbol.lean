/-!
# Symbols and symbol tables

A name that occurs in a rule is interned once: its symbol is its position in a table of distinct
names, so equal names have equal symbols and later names never renumber earlier ones.

* `SymbolTable.intern` answers the symbol of a name, adding the name at the end when it is new.
* `SymbolTable.find?` and `SymbolTable.name?` look up in the two directions.
-/

namespace Antecedent

/-- An interned name, given by its position in a symbol table. -/
structure Symbol where
  index : Nat
  deriving DecidableEq, Repr

/-- Symbols are ordered by the time of their interning. -/
instance : Ord Symbol := ⟨fun a b => compare a.index b.index⟩

/-- A table of distinct names in the order of their first interning. -/
structure SymbolTable where
  names : List String
  nodup : names.Nodup

namespace SymbolTable

def empty : SymbolTable := ⟨[], List.nodup_nil⟩

instance : Inhabited SymbolTable := ⟨empty⟩

def size (t : SymbolTable) : Nat := t.names.length

def isEmpty (t : SymbolTable) : Bool := t.names.isEmpty

/-- The symbol of a name that was interned before. -/
def find? (t : SymbolTable) (name : String) : Option Symbol :=
  (t.names.idxOf? name).map Symbol.mk

/-- The name of a symbol, if the symbol belongs to the table. -/
def name? (t : SymbolTable) (x : Symbol) : Option String := t.names[x.index]?

/-- The message for a symbol that does not belong to the table. -/
def outOfRange (x : Symbol) : String := s!"Interner: symbol {x.index} out of range"

/-- The name of a symbol, or the message that says why there is none. -/
def resolve (t : SymbolTable) (x : Symbol) : Except String String :=
  match t.name? x with
  | some name => .ok name
  | none => .error (outOfRange x)

theorem nodup_append_of_idxOf? {names : List String} {name : String} (h : names.Nodup)
    (hn : names.idxOf? name = none) : (names ++ [name]).Nodup := by
  rw [List.nodup_append]
  refine ⟨h, by simp, fun a ha b hb => ?_⟩
  rw [List.mem_singleton] at hb
  rintro rfl
  exact List.idxOf?_eq_none_iff.1 hn (hb ▸ ha)

/-- The symbol of a name: the old one if the name is known, else a new one at the end. -/
def intern (t : SymbolTable) (name : String) : Symbol × SymbolTable :=
  match h : t.names.idxOf? name with
  | some i => (⟨i⟩, t)
  | none => (⟨t.names.length⟩, ⟨t.names ++ [name], nodup_append_of_idxOf? t.nodup h⟩)

theorem name?_eq_some_iff {t : SymbolTable} {x : Symbol} {name : String} :
    t.name? x = some name ↔ t.find? name = some x := by
  obtain ⟨i⟩ := x
  simp only [name?, find?, Option.map_eq_some_iff, Symbol.mk.injEq, exists_eq_right]
  rw [List.idxOf?_eq_some_iff]
  constructor
  · intro h
    obtain ⟨hi, hn⟩ := List.getElem?_eq_some_iff.1 h
    refine ⟨hi, by simp [hn], fun j hj => ?_⟩
    have hne := (List.nodup_iff_pairwise_ne.1 t.nodup)
    rw [List.pairwise_iff_getElem] at hne
    simpa [← hn] using hne j i (by omega) hi hj
  · rintro ⟨hi, hn, -⟩
    exact List.getElem?_eq_some_iff.2 ⟨hi, by simpa using hn⟩

/-- Interning answers a symbol of the name. -/
@[simp] theorem name?_intern (t : SymbolTable) (name : String) :
    (t.intern name).2.name? (t.intern name).1 = some name := by
  unfold intern
  split
  next i h => exact name?_eq_some_iff.2 (by simp [find?, h])
  next => simp [name?]

/-- Interning keeps the names of all older symbols. -/
theorem name?_intern_of_name? {t : SymbolTable} {x : Symbol} {old : String}
    (h : t.name? x = some old) (name : String) : (t.intern name).2.name? x = some old := by
  unfold intern
  split
  next => exact h
  next =>
    obtain ⟨hx, -⟩ := List.getElem?_eq_some_iff.1 h
    simpa [name?, List.getElem?_append_left hx] using h

/-- The table of the given names, each interned in turn. -/
def ofNames (names : List String) : SymbolTable :=
  names.foldl (fun t name => (t.intern name).2) empty

end SymbolTable

/-- Computations that intern names as they go. -/
abbrev Interning := StateM SymbolTable

/-- Interns a name in the current table. -/
def Interning.name (s : String) : Interning Symbol := fun t => t.intern s

end Antecedent
