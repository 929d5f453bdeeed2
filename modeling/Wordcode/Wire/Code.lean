import Wordcode.Code
import Wordcode.Wire.Field
import Wordcode.Wire.Reader

/-!
# The binary form of code objects and constants

Beside the fields that are written there are those of a constant's key, which tells apart what a
constant table keeps apart: unlike things of equal value, zeros of different sign. A code object
counts by its serial number only.
-/

set_option autoImplicit false

namespace Wordcode
open Wire

def LineRange.fields (fs : Fields) (r : LineRange) : Fields :=
  ((fs.word r.start).word r.stop).word r.line

mutual

def Constant.fields (fs : Fields) : Constant → Fields
  | .none => fs.tag 0
  | .ellipsis => fs.tag 1
  | .bool b => (fs.tag 2).bool b
  | .int n => (fs.tag 3).push (.int n)
  | .float x => (fs.tag 4).push (.float x)
  | .complex re im => ((fs.tag 5).push (.float re)).push (.float im)
  | .str s => (fs.tag 6).text s
  | .bytes bs => (fs.tag 7).bytes bs
  | .tuple items => Constant.fieldsOfAll ((fs.tag 8).push (.size items.length)) items
  | .code c => CodeObject.fields (fs.tag 9) c

def Constant.fieldsOfAll (fs : Fields) : List Constant → Fields
  | [] => fs
  | c :: cs => Constant.fieldsOfAll (Constant.fields fs c) cs

def CodeObject.fields (fs : Fields) : CodeObject → Fields
  | ⟨name, qualname, filename, firstLine, flags, argCount, posonlyCount, kwonlyCount, stackSize,
      serial, constants, names, varnames, cellvars, freevars, code, lines⟩ =>
    let fs := ((fs.text name).text qualname).text filename
    let fs := (fs.word firstLine).word flags.bits
    let fs := ((fs.word argCount).word posonlyCount).word kwonlyCount
    let fs := (fs.word stackSize).word serial
    let fs := Constant.fieldsOfAll (fs.push (.size constants.length)) constants
    let fs := (((fs.texts names).texts varnames).texts cellvars).texts freevars
    (fs.bytes code).list LineRange.fields lines

end

namespace Constant

mutual

def keyFields (fs : Fields) : Constant → Fields
  | .none => fs.tag 0
  | .ellipsis => fs.tag 1
  | .bool b => (fs.tag 2).bool b
  | .int n => (fs.tag 3).push (.int n)
  | .float x => (fs.tag 4).push (.float x)
  | .complex re im => ((fs.tag 5).push (.float re)).push (.float im)
  | .str s => (fs.tag 6).text s
  | .bytes bs => (fs.tag 7).bytes bs
  | .tuple items => keyFieldsOfAll ((fs.tag 8).push (.size items.length)) items
  | .code c => (fs.tag 9).word c.serial

def keyFieldsOfAll (fs : Fields) : List Constant → Fields
  | [] => fs
  | c :: cs => keyFieldsOfAll (keyFields fs c) cs

end

/-- What a constant table tells constants apart by. -/
def key (c : Constant) : List UInt8 := Fields.encode (keyFields #[] c)

/-- Equality of values, in which a NaN differs from itself. -/
def same (c d : Constant) : Bool := Fields.same (fields #[] c) (fields #[] d)

end Constant

namespace Wire.Reader

def lineRange : Reader LineRange := do return ⟨← word, ← word, ← word⟩

mutual

/-- Reads a constant nested at most `depth` levels. A level takes at least a byte, so where
`depth` is the number of bytes left it is used up only at the end of the input. -/
def constant : Nat → Reader Constant
  | 0 => fail .unexpectedEnd
  | depth + 1 => do
    match (← word).toNat with
    | 0 => return .none
    | 1 => return .ellipsis
    | 2 => return .bool (← bool)
    | 3 => return .int (← int)
    | 4 => return .float (← float)
    | 5 => return .complex (← float) (← float)
    | 6 => return .str (← text)
    | 7 => return .bytes (← bytes)
    | 8 => return .tuple (← list (constant depth))
    | 9 => return .code (← codeObject depth)
    | _ => fail .badTag

def codeObject : Nat → Reader CodeObject
  | 0 => fail .unexpectedEnd
  | depth + 1 => do
    let name ← text
    let qualname ← text
    let filename ← text
    let firstLine ← word
    let flags ← word
    let argCount ← word
    let posonlyCount ← word
    let kwonlyCount ← word
    let stackSize ← word
    let serial ← word
    let constants ← list (constant depth)
    let names ← texts
    let varnames ← texts
    let cellvars ← texts
    let freevars ← texts
    let code ← bytes
    let lines ← list lineRange
    return ⟨name, qualname, filename, firstLine, ⟨flags⟩, argCount, posonlyCount, kwonlyCount,
      stackSize, serial, constants, names, varnames, cellvars, freevars, code, lines⟩

end

end Wire.Reader

namespace CodeObject

def encode (c : CodeObject) : List UInt8 := Fields.encode (fields #[] c)

/-- Reads a code object from the front of `input`; what follows it is ignored. -/
def decode (input : List UInt8) : Except ReadError CodeObject :=
  (Reader.codeObject input.length input).map Prod.fst

def same (c d : CodeObject) : Bool := Fields.same (fields #[] c) (fields #[] d)

end CodeObject
end Wordcode
