import StackTemplate.Tree.Walk

/-!
# Substitution

A batch of replacements is applied in one walk from the root. Each child slot on the way is offered
to the replacements, and what they give is offered again, until nothing replaces it; then the walk
goes on below what the slot now holds. Final literals are never replaced.

A chain of replacements that runs in a circle is followed for as many steps as the tree has nodes.
-/

namespace StackTemplate

/-- Staged replacements of nodes by nodes; of two for one node the first in the list counts. -/
abbrev Replacements := List (NodeId × NodeId)

namespace Tree

/-- Follows replacements from a node for at most `steps` steps. It stops at a final literal, at an
id without a node, and where there is nothing new. -/
def followWithin (t : Tree) (replacement : NodeId → Option NodeId) :
    (steps : Nat) → NodeId → NodeId
  | 0, id => id
  | steps + 1, id =>
    if t.isFinal id || (t.node? id).isNone then id
    else
      match replacement id with
      | some next => if next = id then id else t.followWithin replacement steps next
      | none => id

/-- What a slot that holds a node shall hold. -/
def follow (t : Tree) (replacement : NodeId → Option NodeId) (id : NodeId) : NodeId :=
  t.followWithin replacement t.size id

/-- Rewires the parent links for a slot of `parent` that changed from `old` to `new`. -/
def relink (t : Tree) (parent old new : NodeId) : Tree :=
  if old = new then t
  else
    let t := if t.parent? old = some parent then t.setParent old none else t
    t.link parent new

/-- Puts new nodes into the slots of `parent` and rewires the parent links slot by slot. -/
def replaceChildren (t : Tree) (parent : NodeId) (new : List NodeId) : Tree :=
  match t.kind? parent with
  | none => t
  | some kind =>
    (kind.children.zip new).foldl (fun t (old, new) => t.relink parent old new)
      (t.setKind parent (kind.refill new))

/-- The number of places in which two lists differ. -/
def changes (old new : List NodeId) : Nat :=
  (old.zip new).countP fun (a, b) => a != b

/-- Substitutes in the slots of a node, and then below what they hold, `depth` levels deep. The
number of changed slots comes first. -/
def substituteBelow (replacement : NodeId → Option NodeId) :
    (depth : Nat) → NodeId → Tree → Nat × Tree
  | 0, _, t => (0, t)
  | depth + 1, id, t =>
    let old := t.children id
    let new := old.map (t.follow replacement)
    new.foldl
      (fun (count, t) child =>
        let (more, t) := substituteBelow replacement depth child t
        (count + more, t))
      (changes old new, t.replaceChildren id new)

/-- The number of child slots of all nodes. -/
def slotCount (t : Tree) : Nat := totalOf (fun id => (t.children id).length) (List.range t.size)

/-- How deep a walk that ends can go. If a path of the walk met a node twice with the same content
of all slots, the walk below the second would meet it again, without end. So no path is longer than
the number of nodes times the number of ways to fill the slots with nodes. -/
def walkDepth (t : Tree) : Nat := Nat.pow t.size (t.slotCount + 1)

/-- Substitutes everywhere within reach of the root. The number of changed slots comes first. -/
def substitute (t : Tree) (replacement : NodeId → Option NodeId) : Nat × Tree :=
  substituteBelow replacement t.walkDepth t.root t

/-- Applies staged replacements. The number of changed slots comes first. -/
def apply (t : Tree) (staged : Replacements) : Nat × Tree :=
  if staged.isEmpty then (0, t) else t.substitute fun id => staged.lookup id

/-! ### Checked substitution -/

/-- Puts `new` into a slot of `parent` that holds `old`, and rewires the parent links. The slot and
the nodes must exist. -/
def replaceSlotChecked (t : Tree) (parent : NodeId) (slot : Nat) (old new : NodeId) :
    Except Fault Tree := do
  let kind ← (← t.node parent).kind.setSlot slot new
  let t := t.setKind parent kind
  let before ← t.node old
  let t := if before.parent = some parent then t.setParent old none else t
  let _ ← t.node new
  pure (t.link parent new)

/-- Puts new nodes into the slots of `parent`, one slot after the other. Slots that keep their
content are not written. -/
def replaceChildrenChecked (t : Tree) (parent : NodeId) (new : List NodeId) : Except Fault Tree :=
  ((t.children parent).zip new).zipIdx.foldlM
    (fun t ((old, new), slot) =>
      if old = new then pure t else t.replaceSlotChecked parent slot old new) t

/-- Substitutes as `substituteBelow` does, but stops at the first slot that would be left dangling
and writes slots one by one. The slots of a node are looked at before the ones below it. -/
def substituteBelowChecked (replacement : NodeId → Option NodeId) :
    (depth : Nat) → NodeId → Tree → Except Fault (Nat × Tree)
  | 0, _, t => .ok (0, t)
  | depth + 1, id, t => do
    let old := t.children id
    let new := old.map (t.follow replacement)
    let _ ← new.mapM t.node
    let t ← t.replaceChildrenChecked id new
    new.foldlM
      (fun (count, t) child => do
        let (more, t) ← substituteBelowChecked replacement depth child t
        pure (count + more, t))
      (changes old new, t)

/-- Applies staged replacements, which must lead to existing nodes wherever a slot on the walk takes
them. -/
def applyChecked (t : Tree) (staged : Replacements) : Except Fault (Nat × Tree) :=
  if staged.isEmpty then .ok (0, t)
  else substituteBelowChecked (fun id => staged.lookup id) t.walkDepth t.root t

end Tree

end StackTemplate
