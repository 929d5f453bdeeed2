import Wordcode.Assembly.Reachable

/-!
# Laying out blocks

The order of the blocks in the finished code: the chain of fall-throughs from the entry, then the
chains of the reachable blocks left over, by their numbers. Unreachable blocks have no place.
-/

set_option autoImplicit false

namespace Wordcode

structure Placement where
  placed : Array Bool
  order : Array BlockId

namespace Placement

/-- Places the chain of fall-throughs from `start` up to the first block placed already, which
takes at most as many steps as there are blocks. -/
def chain (blocks : Array Block) (live : Array Bool) : Nat → Placement → Option BlockId → Placement
  | steps + 1, ⟨placed, order⟩, some b =>
    if placed[b]? = some false then
      let order := if live.getD b false then order.push b else order
      chain blocks live steps ⟨placed.setIfInBounds b true, order⟩ (blocks.getD b {}).next
    else ⟨placed, order⟩
  | _, p, _ => p

/-- Places the chain from a block that is reachable and not placed yet. -/
def leftover (blocks : Array Block) (live : Array Bool) (p : Placement) (b : BlockId) :
    Placement :=
  if live.getD b false && !p.placed.getD b true then chain blocks live blocks.size p (some b)
  else p

end Placement

def layout (blocks : Array Block) (live : Array Bool) (entry : BlockId) : List BlockId :=
  let first :=
    Placement.chain blocks live blocks.size ⟨Array.replicate blocks.size false, #[]⟩ (some entry)
  ((List.range blocks.size).foldl (Placement.leftover blocks live) first).order.toList

/-- Every block that falls through must stand right before the block it falls through to. -/
def checkLayout (blocks : Array Block) : List BlockId → Except CompileError Unit
  | [] => .ok ()
  | b :: rest =>
    let blk := blocks.getD b {}
    match if blk.terminal then none else blk.next with
    | none => checkLayout blocks rest
    | some n =>
      if rest.head? = some n then checkLayout blocks rest
      else .error (.fault (.notLaidOutAfter b n))

end Wordcode
