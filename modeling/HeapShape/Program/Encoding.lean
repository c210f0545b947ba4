import HeapShape.Json.Parser
import HeapShape.Json.Record
import HeapShape.Program.Basic

/-
  Programs as JSON documents.

  Key definitions include:
    * `Program.ofJson?`
    * `Program.toJson`
    * `Program.parse?`
-/

-- Operations

namespace HeapShape

open Json

/- A type name that may be left out. -/
def typeField
    (j : Option Json) : Option (Option String) :=
  defaulted none (optional? text?) j

namespace Operation

/- The values in an operation may be nested so deep. -/
def room : Nat :=
  122

/- The operation of a kind with its fields. -/
def ofFields?
    (kind : String)
    (j : Json) : Option Operation := do
  match kind with
  | "alloc" =>
    match ← j.fields? ["dst", "site", "kind", "size", "ty"]
    with
    | [dst, site, kind, size, ty] =>
      return alloc (← required word? dst)
        (← required word? site)
        (← required (taggedChoice? AllocKind.ofName?) kind)
        (← required word? size) (← typeField ty)
    | _ => none
  | "copy" =>
    match ← j.fields? ["dst", "src"] with
    | [dst, src] =>
      return copy (← required word? dst)
        (← required word? src)
    | _ => none
  | "field_addr" =>
    match ← j.fields? ["dst", "base", "offset"] with
    | [dst, base, offset] =>
      return fieldAddr (← required word? dst)
        (← required word? base) (← required word? offset)
    | _ => none
  | "index_addr" =>
    match ← j.fields? ["dst", "base", "stride"] with
    | [dst, base, stride] =>
      return indexAddr (← required word? dst)
        (← required word? base) (← required word? stride)
    | _ => none
  | "load" =>
    match ← j.fields? ["dst", "addr", "ty"] with
    | [dst, addr, ty] =>
      return load (← required word? dst)
        (← required word? addr) (← typeField ty)
    | _ => none
  | "store" =>
    match ← j.fields? ["addr", "value", "ty"] with
    | [addr, value, ty] =>
      return store (← required word? addr)
        (← defaulted none (optional? word?) value)
        (← typeField ty)
    | _ => none
  | "global_addr" =>
    match ← j.fields? ["dst", "global"] with
    | [dst, global] =>
      return globalAddr (← required word? dst)
        (← required word? global)
    | _ => none
  | "return" =>
    match ← j.fields? ["value"] with
    | [value] => return ret (← required word? value)
    | _ => none
  | "int_to_ptr" =>
    match ← j.fields? ["dst"] with
    | [dst] => return intToPtr (← required word? dst)
    | _ => none
  | "ptr_to_int" =>
    match ← j.fields? ["src"] with
    | [src] => return ptrToInt (← required word? src)
    | _ => none
  | _ => none

/- Read an operation. -/
def ofJson?
    (origin : Origin)
    (j : Json) : Option Operation := do
  let (kind, j) ← j.tagged? origin room "op"
  ofFields? kind j

/- Write an operation, with every field. -/
def toJson : Operation → Json
| alloc dst site kind size type? =>
    obj [("op", str "alloc"), ("dst", nat dst),
      ("site", nat site), ("kind", str kind.name),
      ("size", nat size), ("ty", ofOption str type?)]
| copy dst src =>
    obj [("op", str "copy"), ("dst", nat dst),
      ("src", nat src)]
| fieldAddr dst base offset =>
    obj [("op", str "field_addr"), ("dst", nat dst),
      ("base", nat base), ("offset", nat offset)]
| indexAddr dst base stride =>
    obj [("op", str "index_addr"), ("dst", nat dst),
      ("base", nat base), ("stride", nat stride)]
| load dst addr type? =>
    obj [("op", str "load"), ("dst", nat dst),
      ("addr", nat addr), ("ty", ofOption str type?)]
| store addr value? type? =>
    obj [("op", str "store"), ("addr", nat addr),
      ("value", ofOption nat value?),
      ("ty", ofOption str type?)]
| globalAddr dst global =>
    obj [("op", str "global_addr"), ("dst", nat dst),
      ("global", nat global)]
| ret value =>
    obj [("op", str "return"), ("value", nat value)]
| intToPtr dst =>
    obj [("op", str "int_to_ptr"), ("dst", nat dst)]
| ptrToInt src =>
    obj [("op", str "ptr_to_int"), ("src", nat src)]

end Operation

-- Functions And Globals

open Json

namespace Formal

/- Read a formal. -/
def ofJson?
    (j : Json) : Option Formal := do
  match ← j.fields? ["value", "is_pointer"] with
  | [value, isPointer] =>
    return {
      value := ← required word? value
      isPointer := ← required bool? isPointer }
  | _ => none

/- Write a formal. -/
def toJson
    (f : Formal) : Json :=
  obj [("value", nat f.value), ("is_pointer", bool f.isPointer)]

end Formal

namespace FunctionDef

/- The fields of a function, in order. -/
def fieldNames : List String :=
  ["id", "name", "formals", "returns_pointer",
    "is_declaration", "is_variadic", "body"]

/- Read a function. -/
def ofJson?
    (origin : Origin)
    (j : Json) : Option FunctionDef := do
  match ← j.fields? fieldNames with
  | [id, name, formals, returns, decl, variadic, body] =>
    return {
      id := ← required word? id
      name := ← required text? name
      formals :=
        ← defaulted [] (list? Formal.ofJson?) formals
      returnsPointer := ← defaulted false bool? returns
      isDeclaration := ← defaulted false bool? decl
      isVariadic := ← defaulted false bool? variadic
      body :=
        ← defaulted []
          (list? (Operation.ofJson? origin)) body }
  | _ => none

/- Write a function. -/
def toJson
    (f : FunctionDef) : Json :=
  obj [
    ("id", nat f.id),
    ("name", str f.name),
    ("formals", arr (f.formals.map Formal.toJson)),
    ("returns_pointer", bool f.returnsPointer),
    ("is_declaration", bool f.isDeclaration),
    ("is_variadic", bool f.isVariadic),
    ("body", arr (f.body.map Operation.toJson))]

end FunctionDef

namespace Global

/- Read a global. -/
def ofJson?
    (j : Json) : Option Global := do
  match ← j.fields? ["id", "name", "size"] with
  | [id, name, size] =>
    return {
      id := ← required word? id
      name := ← required text? name
      size := ← defaulted 0 word? size }
  | _ => none

/- Write a global. -/
def toJson
    (g : Global) : Json :=
  obj [("id", nat g.id), ("name", str g.name),
    ("size", nat g.size)]

end Global

-- Call Sites

open Json

namespace CallTarget

/- The values in a call target may be nested so deep. -/
def room : Nat :=
  123

/- The target of a kind with its fields. -/
def ofFields?
    (kind : String)
    (j : Json) : Option CallTarget := do
  match kind with
  | "direct" =>
    match ← j.fields? ["callee"] with
    | [callee] => return direct (← required word? callee)
    | _ => none
  | "indirect" =>
    match ← j.fields? ["candidates", "complete"] with
    | [candidates, complete] =>
      return indirect
        (← required (list? word?) candidates)
        (← required bool? complete)
    | _ => none
  | "inline_asm" =>
    let _ ← j.fields? []
    return inlineAsm
  | _ => none

/- Read a call target. -/
def ofJson?
    (origin : Origin)
    (j : Json) : Option CallTarget := do
  let (kind, j) ← j.tagged? origin room "kind"
  ofFields? kind j

/- Write a call target. -/
def toJson : CallTarget → Json
| direct callee =>
    obj [("kind", str "direct"), ("callee", nat callee)]
| indirect candidates complete =>
    obj [("kind", str "indirect"),
      ("candidates", arr (candidates.map nat)),
      ("complete", bool complete)]
| inlineAsm => obj [("kind", str "inline_asm")]

end CallTarget

namespace CallSite

/- Read a call site. -/
def ofJson?
    (origin : Origin)
    (j : Json) : Option CallSite := do
  match ← j.fields?
      ["id", "caller", "target", "actuals", "result"] with
  | [id, caller, target, actuals, result] =>
    return {
      id := ← required word? id
      caller := ← required word? caller
      target :=
        ← required (CallTarget.ofJson? origin) target
      actuals :=
        ← defaulted [] (list? (optional? word?)) actuals
      result? := ← defaulted none (optional? word?) result }
  | _ => none

/- Write a call site. -/
def toJson
    (cs : CallSite) : Json :=
  obj [
    ("id", nat cs.id),
    ("caller", nat cs.caller),
    ("target", cs.target.toJson),
    ("actuals", arr (cs.actuals.map (ofOption nat))),
    ("result", ofOption nat cs.result?)]

end CallSite

-- Programs

open Json

namespace Program

/- Read a program. -/
def ofJson?
    (origin : Origin)
    (j : Json) : Option Program := do
  match ← j.fields?
      ["name", "functions", "globals", "call_sites"] with
  | [name, functions, globals, callSites] =>
    return {
      name := ← required text? name
      functions :=
        ← defaulted []
          (list? (FunctionDef.ofJson? origin)) functions
      globals :=
        ← defaulted [] (list? Global.ofJson?) globals
      callSites :=
        ← defaulted []
          (list? (CallSite.ofJson? origin)) callSites }
  | _ => none

/- Write a program. -/
def toJson
    (p : Program) : Json :=
  obj [
    ("name", str p.name),
    ("functions", arr (p.functions.map FunctionDef.toJson)),
    ("globals", arr (p.globals.map Global.toJson)),
    ("call_sites", arr (p.callSites.map CallSite.toJson))]

/- Read the text of a program. -/
def parse?
    (text : String) : Option Program := do
  ofJson? .text (← Json.parse? text)

end Program

end HeapShape
