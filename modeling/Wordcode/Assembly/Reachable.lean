import Wordcode.Instruction

/-!
# Reachable blocks

Control may pass from a block to the targets of its jumps and, unless the block is closed, to the
block it falls through to. A search from the entry marks what can be reached.
-/

set_option autoImplicit false

namespace Wordcode

/-- The blocks to which control may pass from a block. -/
def Block.successors (b : Block) : List BlockId :=
  b.instructions.toList.filterMap Instruction.target ++
    if b.terminal then [] else b.next.toList

/-- The state of a search: what has been found, and what of it is still to be looked at. -/
structure Search where
  found : Array Bool
  pending : List BlockId

namespace Search

def discover : Search → BlockId → Search
  | ⟨found, pending⟩, b =>
    if found[b]? = some false then ⟨found.setIfInBounds b true, b :: pending⟩
    else ⟨found, pending⟩

def start (size : Nat) (b : BlockId) : Search := discover ⟨Array.replicate size false, []⟩ b

/-- At most `rounds` blocks are looked at. A block is pending only once, so as many rounds as
there are blocks are enough. -/
def run (blocks : Array Block) : Nat → Search → Search
  | 0, s => s
  | _ + 1, ⟨found, []⟩ => ⟨found, []⟩
  | rounds + 1, ⟨found, b :: rest⟩ =>
    run blocks rounds ((blocks.getD b {}).successors.foldl discover ⟨found, rest⟩)

end Search

/-- For each block whether it can be reached from `entry`. -/
def reachable (blocks : Array Block) (entry : BlockId) : Array Bool :=
  (Search.run blocks blocks.size (Search.start blocks.size entry)).found

end Wordcode
