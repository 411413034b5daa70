import DiagramRegistry.Disk.Tree

/-
# Changes between two states of a disk

What has to be done to a disk in one state to bring it into another, in an order in which it
can be done: directories from the top down, then files, then removals from the bottom up.
-/
namespace DiagramRegistry

/-- A change of what is at a place. -/
inductive Change where
  /-- Make a directory. -/
  | makeDirectory (place : Place)
  /-- Write a file. -/
  | writeFile (place : Place) (contents : Contents)
  /-- Remove a file. -/
  | removeFile (place : Place)
  /-- Remove a directory without entries. -/
  | removeDirectory (place : Place)
deriving DecidableEq, Repr

namespace Change

/-- What has to be done about an entry of the new state. -/
def toward? (old : Disk) : Place × Node → Option Change
  | (p, .directory) => if old.at? p = some .directory then none else some (.makeDirectory p)
  | (p, .file f) =>
    match old.at? p with
    | some (.file g) => if g.contents = f.contents then none else some (.writeFile p f.contents)
    | _ => some (.writeFile p f.contents)

/-- What has to be done about an entry of the old state. -/
def away? (new : Disk) : Place × Node → Option Change
  | (p, n) =>
    if (new.at? p).isSome then none
    else some (match n with
      | .directory => .removeDirectory p
      | .file _ => .removeFile p)

/-- Shorter places first. -/
def byDepth (entries : List (Place × Node)) : List (Place × Node) :=
  entries.mergeSort fun a b => a.1.length ≤ b.1.length

/-- What leads from one state to another. -/
def between (old new : Disk) : List Change :=
  (byDepth new.entries).filterMap (toward? old) ++
    (byDepth old.entries).reverse.filterMap (away? new)

end Change

end DiagramRegistry
