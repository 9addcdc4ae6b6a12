import ForkChoice.Ledger
import Std.Data.ExtTreeMap
import Std.Data.ExtTreeSet

/-!
# Ledgers by name

A name spells a path from genesis, one character for each ledger on it, so that the prefixes of a
name are the names of the ancestors. A character ends at most one name.

* `Naming.resolve`: the ledger of a name, created together with its ancestors if need be.
* `Naming.accept`: a ledger outside the scheme of names.
-/

namespace ForkChoice

/-- Names given so far, over the archive that holds their ledgers. -/
structure Naming where
  archive : Archive
  /-- The ledgers that have a name. -/
  known : Std.ExtTreeMap String Ledger
  /-- The characters that end a name. -/
  spent : Std.ExtTreeSet Char
  /-- The transactions made for names, numbered from 1. -/
  issued : Nat

namespace Naming

/-- Genesis has the empty name. -/
def empty : Naming where
  archive := .empty
  known := (∅ : Std.ExtTreeMap String Ledger).insert "" .genesis
  spent := ∅
  issued := 0

/-- The child of `parent` by a transaction of the caller's choice. -/
def accept (n : Naming) (parent : Ledger) (tx : Nat) : Ledger × Naming :=
  let (child, archive) := n.archive.accept parent tx
  (child, { n with archive })

/-- The ledger of a name that is spelled backwards. Its last character is spent before its parent
is looked for, and the transaction that leads to it is numbered after the parent is there. -/
def resolveReversed : List Char → Naming → Except Fault (Ledger × Naming)
  | [], n => .ok (n.known.getD "" .genesis, n)
  | last :: rest, n =>
    let name := String.ofList (last :: rest).reverse
    match n.known[name]? with
    | some ledger => .ok (ledger, n)
    | none =>
      if n.spent.contains last then .error (.reusedName name)
      else do
        let (parent, n) ← resolveReversed rest { n with spent := n.spent.insert last }
        let n := { n with issued := n.issued + 1 }
        let (ledger, n) := n.accept parent n.issued
        .ok (ledger, { n with known := n.known.insert name ledger })

def resolve (n : Naming) (name : String) : Except Fault (Ledger × Naming) :=
  resolveReversed name.toList.reverse n

end Naming

end ForkChoice
