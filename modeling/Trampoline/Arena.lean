/-!
# Arenas

A dense arena keeps values in the order in which they were added and knows each by its index. A
side table keeps further values for some of the indices.
-/

namespace Trampoline

/-- The number of a value in an arena. -/
structure ArenaId where
  index : Nat
  deriving DecidableEq, Repr, Inhabited

/-- The short form of a number, such as `#3`. -/
def ArenaId.concise (id : ArenaId) : String := "#" ++ toString id.index

/-- The long form of a number, with the name of what it counts. -/
def ArenaId.render (counted : String) (id : ArenaId) : String := counted ++ id.concise

/-- Values that are only ever added. -/
structure Arena (α : Type) where
  values : Array α
  deriving Inhabited

namespace Arena

variable {α : Type}

/-- The arena without values. -/
def empty : Arena α := ⟨#[]⟩

/-- Add a value; its number is how many there were before. -/
def alloc (arena : Arena α) (value : α) : ArenaId × Arena α :=
  (⟨arena.values.size⟩, ⟨arena.values.push value⟩)

/-- The value of a number. -/
def get? (arena : Arena α) (id : ArenaId) : Option α := arena.values[id.index]?

/-- Change the value of a number. -/
def modify (arena : Arena α) (id : ArenaId) (change : α -> α) : Arena α :=
  ⟨arena.values.modify id.index change⟩

/-- How many values there are. -/
def size (arena : Arena α) : Nat := arena.values.size

/-- Numbers with their values, starting at a number. -/
def enumerate : (start : Nat) -> List α -> List (ArenaId × α)
  | _, [] => []
  | start, value :: rest => (⟨start⟩, value) :: enumerate (start + 1) rest

/-- All values with their numbers, in order. -/
def entries (arena : Arena α) : List (ArenaId × α) := enumerate 0 arena.values.toList

end Arena

/-- Values for some of the numbers of an arena, one for each at most. -/
structure SideTable (α : Type) where
  entries : List (ArenaId × α)
  deriving Inhabited

namespace SideTable

variable {α : Type}

/-- The table without values. -/
def empty : SideTable α := ⟨[]⟩

/-- The value of a number. -/
def get? (table : SideTable α) (id : ArenaId) : Option α :=
  (table.entries.find? fun entry => entry.1 = id).map Prod.snd

/-- Whether a number has a value. -/
def contains (table : SideTable α) (id : ArenaId) : Bool := (table.get? id).isSome

/-- Give a number a value, in place of the one it has. -/
def insert (table : SideTable α) (id : ArenaId) (value : α) : SideTable α :=
  ⟨(id, value) :: table.entries.filter fun entry => entry.1 != id⟩

/-- How many numbers have a value. -/
def size (table : SideTable α) : Nat := table.entries.length

end SideTable

end Trampoline
