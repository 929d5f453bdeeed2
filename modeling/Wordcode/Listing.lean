import Std.Data.TreeSet
import Wordcode.Code.Text
import Wordcode.Decode

/-!
# Listings

A code object as text: a heading, one line per instruction, then the listings of the nested code
objects, each indented by one level more. Code that cannot be decoded shows the reason in place
of its instructions, and ends there. There is no text at all if the target of a jump overflows.
-/

set_option autoImplicit false

namespace Wordcode.Listing

def rule : String := "════════════════════════════════════════"

def indentation (level : Nat) : String := String.ofList (List.replicate (2 * level) ' ')

/-- What an operand stands for, if that can be told from the code object. -/
def meaning? (c : CodeObject) (d : Decoded) : Except Overflow (Option String) :=
  let slot := d.arg.toNat
  match d.opcode with
  | .loadConst => .ok (c.constants[slot]?.map Constant.text)
  | .loadName | .storeName | .deleteName | .loadGlobal | .storeGlobal | .deleteGlobal | .loadAttr
  | .storeAttr | .deleteAttr | .loadMethod | .importName | .importFrom => .ok c.names[slot]?
  | .loadFast | .storeFast | .deleteFast => .ok c.varnames[slot]?
  | .loadDeref | .storeDeref | .deleteDeref | .loadClosure | .loadClassderef =>
    .ok (c.derefName? slot)
  | .compareOp => .ok Opcode.relations[slot]?
  | .isOp => .ok (some (if slot = 0 then "is" else "is not"))
  | .containsOp => .ok (some (if slot = 0 then "in" else "not in"))
  | _ => d.jumpTarget.map fun target => target.map fun t => s!"to {t}"

def operand (c : CodeObject) (d : Decoded) : Except Overflow String :=
  if !d.opcode.hasOperand then .ok ""
  else
    (meaning? c d).map fun
      | some m => s!"{d.arg} ({m})"
      | none => s!"{d.arg}"

/-- The line column names a source line only where it changes. -/
def lineColumn (line last : Option UInt32) : String :=
  match line with
  | some l => if line ≠ last then Text.padLeft 4 ' ' s!"{l}" else "    "
  | none => "    "

structure State where
  out : String
  last : Option UInt32

/-- Adds the line of one instruction. -/
def addInstruction (c : CodeObject) (indent : String) (targets : Std.TreeSet UInt32) (s : State)
    (d : Decoded) : Except Overflow State := do
  let line := c.lineAt? d.offset
  let marker := if targets.contains d.offset then "►" else " "
  let offset := Text.padLeft 4 '0' s!"{d.offset}"
  let name := Text.padRight 22 d.opcode.mnemonic
  let row := s!"{indent}{lineColumn line s.last} {offset} {marker} {name}{← operand c d}\n"
  return ⟨s.out ++ row, line⟩

def heading (c : CodeObject) (indent : String) : String :=
  s!"{indent}{rule}\n{indent} {c.qualname} ({c.filename}:{c.firstLine})\n" ++
  s!"{indent} args: {c.argCount} posonly: {c.posonlyCount} kwonly: {c.kwonlyCount}  " ++
  s!"stack: {c.stackSize}  flags: {c.flags.text}\n{indent}{rule}\n"

def jumpTargets (ds : List Decoded) : Except Overflow (Std.TreeSet UInt32) :=
  ds.foldlM (fun s d => d.jumpTarget.map fun target => target.elim s s.insert) ∅

def instructions (c : CodeObject) (indent out : String) (ds : List Decoded) :
    Except Overflow String := do
  let s ← ds.foldlM (addInstruction c indent (← jumpTargets ds)) ⟨out, none⟩
  return s.out ++ "\n"

mutual

/-- Adds the listing of a code object at an indentation level. -/
def addCode (level : Nat) (out : String) : CodeObject → Except Overflow String
  | c@⟨_, _, _, _, _, _, _, _, _, _, constants, _, _, _, _, _, _⟩ =>
    let indent := indentation level
    let out := out ++ heading c indent
    match decode c.code with
    | .error e => .ok (out ++ s!"{indent}<{e.message}>\n")
    | .ok ds => do addNested (level + 1) (← instructions c indent out ds) constants

/-- Adds the listings of the code objects among some constants. -/
def addNested (level : Nat) (out : String) : List Constant → Except Overflow String
  | [] => .ok out
  | .code c :: rest => do addNested level (← addCode level out c) rest
  | _ :: rest => addNested level out rest

end

end Wordcode.Listing

namespace Wordcode

def CodeObject.listing (c : CodeObject) : Except Overflow String := Listing.addCode 0 "" c

end Wordcode
