/-!
Finite maps kept as their entries in key order, and finite sets as maps to `Unit`.

Two keys are the same when `compare` says so; storing under a key already present replaces the
value and keeps the key first stored.
-/

namespace Recompile

universe u v w

structure OrdMap (κ : Type u) (α : Type v) where
  entries : List (κ × α)
deriving Repr, DecidableEq

namespace OrdMap

variable {κ : Type u} {α : Type v} {β : Type w}

def empty : OrdMap κ α := ⟨[]⟩

instance : EmptyCollection (OrdMap κ α) := ⟨empty⟩

instance : Inhabited (OrdMap κ α) := ⟨empty⟩

def size (m : OrdMap κ α) : Nat := m.entries.length

def isEmpty (m : OrdMap κ α) : Bool := m.entries.isEmpty

def keys (m : OrdMap κ α) : List κ := m.entries.map (·.1)

def values (m : OrdMap κ α) : List α := m.entries.map (·.2)

def map (f : κ → α → β) (m : OrdMap κ α) : OrdMap κ β :=
  ⟨m.entries.map fun e => (e.1, f e.1 e.2)⟩

def filter (p : κ → α → Bool) (m : OrdMap κ α) : OrdMap κ α :=
  ⟨m.entries.filter fun e => p e.1 e.2⟩

variable [Ord κ]

def entry? (m : OrdMap κ α) (k : κ) : Option (κ × α) :=
  m.entries.find? fun e => compare k e.1 == .eq

def get? (m : OrdMap κ α) (k : κ) : Option α := (m.entry? k).map (·.2)

def contains (m : OrdMap κ α) (k : κ) : Bool := (m.entry? k).isSome

def put (k : κ) (a : α) : List (κ × α) → List (κ × α)
  | [] => [(k, a)]
  | (j, b) :: rest =>
      match compare k j with
      | .lt => (k, a) :: (j, b) :: rest
      | .eq => (j, a) :: rest
      | .gt => (j, b) :: put k a rest

def insert (m : OrdMap κ α) (k : κ) (a : α) : OrdMap κ α := ⟨put k a m.entries⟩

def erase (m : OrdMap κ α) (k : κ) : OrdMap κ α :=
  ⟨m.entries.filter fun e => compare k e.1 != .eq⟩

/-- Stores the pairs from left to right. -/
def ofList (pairs : List (κ × α)) : OrdMap κ α :=
  pairs.foldl (fun m e => m.insert e.1 e.2) empty

end OrdMap

abbrev OrdSet (κ : Type u) := OrdMap κ Unit

namespace OrdSet

variable {κ : Type u}

def toList (s : OrdSet κ) : List κ := s.keys

variable [Ord κ]

def add (s : OrdSet κ) (k : κ) : OrdSet κ := if s.contains k then s else s.insert k ()

def addAll (s : OrdSet κ) (ks : List κ) : OrdSet κ := ks.foldl add s

def ofList (ks : List κ) : OrdSet κ := addAll OrdMap.empty ks

end OrdSet

end Recompile
