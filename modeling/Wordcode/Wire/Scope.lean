import Wordcode.Options
import Wordcode.Scope
import Wordcode.Wire.Field
import Wordcode.Wire.Reader

/-!
# The binary form of scope tables and options
-/

set_option autoImplicit false

namespace Wordcode
open Wire

def ScopeKind.all : List ScopeKind := [.module, .classBody, .function, .lambda, .comprehension]

def Resolution.all : List Resolution := [.local, .globalImplicit, .globalExplicit, .free, .cell]

def Symbols.pairFields (fs : Fields) (p : String × Resolution) : Fields :=
  (fs.text p.1).choice Resolution.all p.2

namespace ScopeTable

mutual

def fields (fs : Fields) : ScopeTable → Fields
  | ⟨name, kind, line, posonly, params, kwonly, vararg, kwarg, symbols, needsClassCell,
      isGenerator, children⟩ =>
    let fs := ((fs.text name).choice ScopeKind.all kind).word line
    let fs := ((fs.texts posonly).texts params).texts kwonly
    let fs := (fs.option Fields.text vararg).option Fields.text kwarg
    let fs := fs.list Symbols.pairFields symbols
    let fs := (fs.bool needsClassCell).bool isGenerator
    fieldsOfAll (fs.push (.size children.length)) children

def fieldsOfAll (fs : Fields) : List ScopeTable → Fields
  | [] => fs
  | t :: ts => fieldsOfAll (fields fs t) ts

end

def encode (t : ScopeTable) : List UInt8 := Fields.encode (fields #[] t)

end ScopeTable

namespace Wire.Reader

def symbolPair : Reader (String × Resolution) := do return (← text, ← choice Resolution.all)

/-- A name that comes twice keeps its first place and takes its last resolution. -/
def symbols : Reader Symbols := do
  return (← list symbolPair).foldl (fun s p => s.assign p.1 p.2) []

def scopeTable : Nat → Reader ScopeTable
  | 0 => fail .unexpectedEnd
  | depth + 1 => do
    let name ← text
    let kind ← choice ScopeKind.all
    let line ← word
    let posonly ← texts
    let params ← texts
    let kwonly ← texts
    let vararg ← option text
    let kwarg ← option text
    let symbols ← symbols
    let needsClassCell ← bool
    let isGenerator ← bool
    let children ← list (scopeTable depth)
    return ⟨name, kind, line, posonly, params, kwonly, vararg, kwarg, symbols, needsClassCell,
      isGenerator, children⟩

end Wire.Reader

def ScopeTable.decode (input : List UInt8) : Except ReadError ScopeTable :=
  (Reader.scopeTable input.length input).map Prod.fst

def Options.encode (o : Options) : List UInt8 :=
  Fields.encode ((Fields.text #[] o.filename).push (.byte o.optimize))

end Wordcode
