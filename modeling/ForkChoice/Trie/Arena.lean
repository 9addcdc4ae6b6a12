import ForkChoice.Loop
import ForkChoice.Trie.Preferred
import ForkChoice.Trie.Slots
import ForkChoice.Trie.Withdraw

/-!
# The trie in an arena

The nodes of a trie stand in the slots of an arena and know the slots of their parent and of their
children. An operation goes from slot to slot in loops; to come upon an empty slot is a fault.

* `Cell`: what a slot holds.
* `ArenaTrie`: a trie whose nodes are in an arena.
* `ArenaTrie.find`, `ArenaTrie.seek`: the two ways to look up a ledger.
* `ArenaTrie.insert`, `ArenaTrie.withdraw`: votes cast and taken away.
* `ArenaTrie.preferred`, `ArenaTrie.check`: the walk to the preferred ledger, and the audit.
* `ArenaTrie.tree`: the trie as a tree, for output.
-/

namespace ForkChoice

/-- A node that refers to other nodes by their slots. -/
structure Cell (Slot : Type) where
  segment : Segment
  tipSupport : Nat
  branchSupport : Nat
  children : List Slot
  parent : Option Slot

/-- The node without its branches. -/
def Cell.bare {Slot : Type} (c : Cell Slot) : Node :=
  ⟨c.segment, c.tipSupport, c.branchSupport, []⟩

def Cell.changeTip {Slot : Type} (change : Nat → Except Fault Nat) (c : Cell Slot) :
    Except Fault (Cell Slot) := do
  let tip ← change c.tipSupport
  .ok { c with tipSupport := tip }

variable {Slot : Type}

namespace Slots

variable (A : Slots Slot (Cell Slot))

/-- The cell in a slot, which must be occupied. -/
def read (s : A.Store) (i : Slot) : Except Fault (Cell Slot) :=
  match A.get s i with
  | some c => .ok c
  | none => .error .emptySlot

/-- Changes the cell in a slot. -/
def modify (s : A.Store) (i : Slot) (f : Cell Slot → Except Fault (Cell Slot)) :
    Except Fault A.Store := do
  let c ← A.read s i
  let c ← f c
  .ok (A.set s i c)

end Slots

/-- A trie whose nodes stand in the slots of an arena. -/
structure ArenaTrie (A : Slots Slot (Cell Slot)) where
  root : Slot
  store : A.Store
  seqSupport : Std.ExtTreeMap Nat Nat

namespace ArenaTrie

variable {A : Slots Slot (Cell Slot)}

def empty (A : Slots Slot (Cell Slot)) : ArenaTrie A :=
  let (root, store) := A.put A.empty ⟨.genesis, 0, 0, [], none⟩
  ⟨root, store, ∅⟩

/-! ## Looking up ledgers -/

/-- The first of the children that agrees with a ledger past `place`, and how far it agrees. -/
def firstBeyond (s : A.Store) (l : Ledger) (place : Nat) :
    List Slot → Except Fault (Option (Slot × Nat))
  | [] => .ok none
  | k :: rest => do
    let child ← A.read s k
    if place < child.segment.agreement l then .ok (some (k, child.segment.agreement l))
    else firstBeyond s l place rest

/-- Goes on to a child as long as the ledger agrees with the whole segment. -/
def findStep (s : A.Store) (l : Ledger) :
    Slot × Nat → Except Fault ((Slot × Nat) ⊕ (Slot × Nat))
  | (i, place) => do
    let c ← A.read s i
    if place = c.segment.stop then
      match ← firstBeyond s l place c.children with
      | some next => .ok (.inl next)
      | none => .ok (.inr (i, place))
    else .ok (.inr (i, place))

/-- The slot of the node that agrees longest with a ledger, and the first place at which the two
differ. -/
def find (t : ArenaTrie A) (l : Ledger) : Computation (Slot × Nat) := do
  let c ← A.read t.store t.root
  loop (findStep t.store l) (t.root, c.segment.agreement l)

/-- Looks at the slot on top of a stack and puts its children on the stack. -/
def seekStep (s : A.Store) (id : Nat) : List Slot → Except Fault (List Slot ⊕ Option Slot)
  | [] => .ok (.inr none)
  | i :: stack => do
    let c ← A.read s i
    if c.segment.tip.id = id then .ok (.inr (some i))
    else .ok (.inl (c.children.reverse ++ stack))

/-- The slot of the node whose tip has the identifier. -/
def seek (t : ArenaTrie A) (id : Nat) : Computation (Option Slot) :=
  loop (seekStep t.store id) [t.root]

/-- The votes for a ledger. -/
def tipSupport (t : ArenaTrie A) (l : Ledger) : Computation Nat := do
  match ← t.seek l.id with
  | some i => do
    let c ← A.read t.store i
    pure c.tipSupport
  | none => pure 0

/-- The votes for a ledger and all that descends from it. -/
def branchSupport (t : ArenaTrie A) (l : Ledger) : Computation Nat := do
  match ← t.seek l.id with
  | some i => do
    let c ← A.read t.store i
    pure c.branchSupport
  | none => do
    let (i, place) ← t.find l
    let c ← A.read t.store i
    pure (if l.seq < place ∧ l.seq < c.segment.stop then c.branchSupport else 0)

/-- Whether there are no votes. -/
def isEmpty (t : ArenaTrie A) : Except Fault Bool := do
  let c ← A.read t.store t.root
  .ok (c.branchSupport == 0)

/-! ## Casting votes -/

/-- Cuts a cell in two. The far side moves into a slot of its own and takes over the votes of the
tip and the children. -/
def cut (s : A.Store) (i : Slot) (c : Cell Slot) (near far : Segment) :
    Except Fault A.Store := do
  let (j, s) := A.put s { c with segment := far, parent := some i }
  let s ← c.children.foldlM
    (fun s k => A.modify s k fun child => .ok { child with parent := some j }) s
  A.modify s i fun c => .ok { c with segment := near, tipSupport := 0, children := [j] }

/-- Cuts a cell at a place inside its segment. -/
def cutAt (s : A.Store) (i : Slot) (c : Cell Slot) (place : Nat) : Except Fault A.Store :=
  match c.segment.before place, c.segment.after place with
  | some near, some far => cut s i c near far
  | _, _ => .ok s

/-- Puts a cell without votes below a slot. -/
def attach (s : A.Store) (i : Slot) (segment : Segment) : Except Fault (Slot × A.Store) := do
  let (j, s) := A.put s ⟨segment, 0, 0, [], some i⟩
  let s ← A.modify s i fun c => .ok { c with children := c.children ++ [j] }
  .ok (j, s)

/-- The slot for the tip of a history that leaves a node at `place`: a new one if the history goes
on from there. -/
def attachRest (s : A.Store) (i : Slot) (l : Ledger) (place : Nat) :
    Except Fault (Slot × A.Store) :=
  match (Segment.ofLedger l).after place with
  | some rest => attach s i rest
  | none => .ok (i, s)

/-- Makes room for votes for a ledger whose history leaves the trie in the node in a slot, at
`place`, and adds them to the tip there. -/
def graft (s : A.Store) (l : Ledger) (votes : Nat) (i : Slot) (place : Nat) :
    Except Fault (Slot × A.Store) := do
  let c ← A.read s i
  let s ← cutAt s i c place
  let (j, s) ← attachRest s i l place
  let s ← A.modify s j (Cell.changeTip (credit · votes))
  .ok (j, s)

/-- Changes the votes of a branch and goes on to the parent. -/
def climbStep (change : Nat → Except Fault Nat) :
    A.Store × Option Slot → Except Fault ((A.Store × Option Slot) ⊕ A.Store)
  | (s, none) => .ok (.inr s)
  | (s, some i) => do
    let c ← A.read s i
    let branch ← change c.branchSupport
    .ok (.inl (A.set s i { c with branchSupport := branch }, c.parent))

/-- Adds votes for a ledger. -/
def insert (t : ArenaTrie A) (l : Ledger) (votes : Nat) : Computation (ArenaTrie A) := do
  if votes = 0 then return t
  let (i, place) ← t.find l
  let (j, s) ← graft t.store l votes i place
  let s ← loop (climbStep (credit · votes)) (s, some j)
  let held ← credit (t.seqSupport.getD l.seq 0) votes
  return ⟨t.root, s, t.seqSupport.insert l.seq held⟩

/-! ## Withdrawing votes -/

variable [DecidableEq Slot]

/-- Takes a slot off a list, the last one moving into the gap. -/
def swapRemove (i : Slot) : List Slot → List Slot
  | [] => []
  | k :: rest => if k = i then closeGap rest else k :: swapRemove i rest

/-- Frees a slot that has become needless, and takes it off the children of its parent. -/
def erase (s : A.Store) (parent i : Slot) : Except Fault A.Store := do
  let s ← A.modify s parent fun c => .ok { c with children := swapRemove i c.children }
  .ok (A.free s i)

/-- Takes a node out, or joins it to its only branch, if it is not needed, and goes on to its
parent. -/
def collapseStep (root : Slot) :
    A.Store × Slot → Except Fault ((A.Store × Slot) ⊕ A.Store)
  | (s, i) => do
    if i = root then return .inr s
    let c ← A.read s i
    if c.tipSupport ≠ 0 then return .inr s
    match c.parent, c.children with
    | some parent, [] => do
      let s ← erase s parent i
      return .inl (s, parent)
    | some parent, [k] => do
      let s ← A.modify s k fun child =>
        .ok { child with segment := c.segment.join child.segment, parent := some parent }
      let s ← A.modify s parent fun c => .ok { c with children := c.children ++ [k] }
      let s ← erase s parent i
      return .inl (s, parent)
    | _, _ => return .inr s

/-- Takes up to so many votes from a ledger and tells whether it had any. -/
def withdraw (t : ArenaTrie A) (l : Ledger) (votes : Nat) :
    Computation (Bool × ArenaTrie A) := do
  match ← t.seek l.id with
  | none => return (false, t)
  | some i => do
    let c ← A.read t.store i
    if c.tipSupport = 0 then return (false, t)
    let taken := min votes c.tipSupport
    let s ← A.modify t.store i (Cell.changeTip (debit · taken))
    let seqSupport := t.seqSupport.alter l.seq fun held =>
      match held.map (· - taken) with
      | some 0 => none
      | left => left
    let s ← loop (climbStep (debit · taken)) (s, some i)
    let s ← loop (collapseStep t.root) (s, i)
    return (true, ⟨t.root, s, seqSupport⟩)

/-! ## The preferred ledger -/

/-- Goes along one segment and on to its favourite branch. -/
def preferredStep (s : A.Store) (largestIssued : Nat) :
    Slot × Nat × Tally → Except Fault ((Slot × Nat × Tally) ⊕ Option Tip)
  | (i, votes, ahead) => do
    let c ← A.read s i
    let next := c.segment.start + 1
    let u ← Uncommitted.absorb (max next largestIssued) votes ahead
    let (next, u) ← Uncommitted.advance c.segment.stop c.branchSupport next u.votes u.ahead
    if next < c.segment.stop then return .inr ((c.segment.before next).map (·.tip))
    let children ← c.children.mapM (A.read s)
    match ← Node.favorite (children.map (·.bare)) with
    | none => return .inr (some c.segment.tip)
    | some (place, margin) =>
      if u.votes < margin ∨ u.votes = 0 then
        match c.children[place]? with
        | some k => return .inl (k, u.votes, u.ahead)
        | none => return .inr (some c.segment.tip)
      else return .inr (some c.segment.tip)

/-- The preferred tip, if there are any votes. -/
def preferred (t : ArenaTrie A) (largestIssued : Nat) : Computation (Option Tip) := do
  if ← t.isEmpty then return none
  loop (preferredStep t.store largestIssued) (t.root, 0, t.seqSupport.toList)

/-! ## Audit and output -/

/-- The votes of the children of a slot together, if each is there and knows its parent. -/
def supportBelow (s : A.Store) (i : Slot) : List Slot → Option Nat
  | [] => some 0
  | k :: rest => do
    let child ← A.get s k
    guard (child.parent = some i)
    let others ← supportBelow s i rest
    return child.branchSupport + others

/-- Adds votes to a table by sequence number. -/
def note (table : Std.ExtTreeMap Nat Nat) (seq votes : Nat) :
    Except Fault (Std.ExtTreeMap Nat Nat) :=
  if votes = 0 then .ok table
  else do
    let held ← credit (table.getD seq 0) votes
    .ok (table.insert seq held)

/-- Examines the slot on top of a stack, notes the votes for its tip in a table and puts its
children on the stack. -/
def checkStep (t : ArenaTrie A) : List Slot × Std.ExtTreeMap Nat Nat →
    Except Fault ((List Slot × Std.ExtTreeMap Nat Nat) ⊕ Bool)
  | ([], table) => .ok (.inr (table.toList == t.seqSupport.toList))
  | (i :: stack, table) => do
    let some c := A.get t.store i | return .inr false
    if i ≠ t.root ∧ c.tipSupport = 0 ∧ c.children.length < 2 then return .inr false
    let table ← note table (c.segment.stop - 1) c.tipSupport
    let some below := supportBelow t.store i c.children | return .inr false
    if c.tipSupport + below ≠ c.branchSupport then return .inr false
    return .inl (c.children.reverse ++ stack, table)

/-- Whether the trie keeps its own rules. -/
def check (t : ArenaTrie A) : Computation Bool := loop (checkStep t) ([t.root], ∅)

/-- A node that is being read, with the children that are still to come and the branches that are
there already, the last one first. -/
structure Frame (Slot : Type) where
  cell : Cell Slot
  pending : List Slot
  branches : List Node

/-- Goes down to the next child of the node that is being read, or up again with the whole node. -/
def treeStep (s : A.Store) : Frame Slot × List (Frame Slot) →
    Except Fault ((Frame Slot × List (Frame Slot)) ⊕ Node)
  | (⟨c, k :: pending, branches⟩, outer) => do
    let child ← A.read s k
    .ok (.inl (⟨child, child.children, []⟩, ⟨c, pending, branches⟩ :: outer))
  | (⟨c, [], branches⟩, []) =>
    .ok (.inr ⟨c.segment, c.tipSupport, c.branchSupport, branches.reverse⟩)
  | (⟨c, [], branches⟩, ⟨d, pending, others⟩ :: outer) =>
    let node := ⟨c.segment, c.tipSupport, c.branchSupport, branches.reverse⟩
    .ok (.inl (⟨d, pending, node :: others⟩, outer))

/-- The node in a slot with all that is below it. -/
def nodeAt (s : A.Store) (i : Slot) : Computation Node := do
  let c ← A.read s i
  loop (treeStep s) (⟨c, c.children, []⟩, [])

def tree (t : ArenaTrie A) : Computation Trie := do
  let root ← nodeAt t.store t.root
  return ⟨root, t.seqSupport⟩

end ArenaTrie

end ForkChoice
