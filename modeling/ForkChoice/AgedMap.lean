import ForkChoice.Time
import Std.Data.ExtTreeMap

/-!
# Maps whose entries age

An entry remembers when it was made or last touched. Reading and changing its value leave its age
alone.

* `AgedMap.ensure`: an entry made if there is none.
* `AgedMap.touch`: an entry made young again.
* `AgedMap.expire`: the old entries removed.
-/

namespace ForkChoice

/-- A value and the time its entry was made or last touched. -/
structure Aged (α : Type) where
  value : α
  touched : Time
  deriving DecidableEq

/-- A map from keys to values that have an age. -/
structure AgedMap (κ α : Type) [Ord κ] where
  entries : Std.ExtTreeMap κ (Aged α)

namespace AgedMap

variable {κ α : Type} [Ord κ]

def empty : AgedMap κ α := ⟨∅⟩

variable [Std.TransOrd κ]

def get? (m : AgedMap κ α) (k : κ) : Option α := m.entries[k]?.map (·.value)

/-- The time the entry of a key was made or last touched. -/
def touched? (m : AgedMap κ α) (k : κ) : Option Time := m.entries[k]?.map (·.touched)

def size (m : AgedMap κ α) : Nat := m.entries.size

def isEmpty (m : AgedMap κ α) : Bool := m.entries.isEmpty

/-- The keys in ascending order. -/
def keys (m : AgedMap κ α) : List κ := m.entries.keys

/-- Keys and values in ascending order of keys. -/
def toList (m : AgedMap κ α) : List (κ × α) := m.entries.toList.map fun e => (e.1, e.2.value)

/-- Makes an entry if the key has none. -/
def ensure (m : AgedMap κ α) (now : Time) (k : κ) (initial : α) : AgedMap κ α :=
  ⟨m.entries.insertIfNew k ⟨initial, now⟩⟩

def modify (m : AgedMap κ α) (k : κ) (f : α → α) : AgedMap κ α :=
  ⟨m.entries.modify k fun e => { e with value := f e.value }⟩

def map (m : AgedMap κ α) (f : α → α) : AgedMap κ α :=
  ⟨m.entries.map fun _ e => { e with value := f e.value }⟩

/-- Makes the entry of a key as young as one made now. -/
def touch (m : AgedMap κ α) (now : Time) (k : κ) : AgedMap κ α :=
  ⟨m.entries.modify k fun e => { e with touched := now }⟩

def touchAll (m : AgedMap κ α) (now : Time) (ks : List κ) : AgedMap κ α :=
  ks.foldl (fun m k => m.touch now k) m

def contains (m : AgedMap κ α) (k : κ) : Bool := m.entries.contains k

/-- The entries that were made or last touched less than `age` ago. None is that old when no
representable time is. -/
def fresh (m : AgedMap κ α) (now : Time) (age : Duration) : AgedMap κ α :=
  match now.before? age with
  | some cut => ⟨m.entries.filter fun _ e => cut < e.touched⟩
  | none => m

/-- Removes the entries that are not fresh and tells how many they were. -/
def expire (m : AgedMap κ α) (now : Time) (age : Duration) : Nat × AgedMap κ α :=
  (m.size - (m.fresh now age).size, m.fresh now age)

end AgedMap

end ForkChoice
