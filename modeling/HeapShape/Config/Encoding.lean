import HeapShape.Config.Basic
import HeapShape.Json.Record

/-
  Configurations as JSON documents.

  Key definitions include:
    * `Config.ofJson?`
    * `Config.toJson`
    * `Config.replaceParts?`
-/

namespace HeapShape

open Json

namespace GraphConfig

/- The settings, in order. -/
def fieldNames : List String :=
  ["type_aware_fields", "pointer_size"]

/- Read graph settings. -/
def ofJson?
    (j : Json) : Option GraphConfig := do
  match ← j.fields? fieldNames with
  | [types, size] =>
    return {
      typeAwareFields := ← defaulted false bool? types
      pointerSize := ← defaulted 8 word? size }
  | _ => none

/- Write graph settings. -/
def toJson
    (c : GraphConfig) : Json :=
  obj [
    ("type_aware_fields", bool c.typeAwareFields),
    ("pointer_size", nat c.pointerSize)]

end GraphConfig

namespace CloningPolicy

/- The settings, in order. -/
def fieldNames : List String :=
  ["strip_allocas", "track_call_paths", "no_escape",
    "skip_unused_globals", "prune_foreign"]

/- Read a cloning policy. -/
def ofJson?
    (j : Json) : Option CloningPolicy := do
  match ← j.fields? fieldNames with
  | [strip, track, escape, skip, prune] =>
    return {
      stripAllocas := ← defaulted true bool? strip
      trackCallPaths := ← defaulted false bool? track
      noEscape := ← defaulted false bool? escape
      skipUnusedGlobals := ← defaulted true bool? skip
      pruneForeign := ← defaulted true bool? prune }
  | _ => none

/- Write a cloning policy. -/
def toJson
    (c : CloningPolicy) : Json :=
  obj [
    ("strip_allocas", bool c.stripAllocas),
    ("track_call_paths", bool c.trackCallPaths),
    ("no_escape", bool c.noEscape),
    ("skip_unused_globals", bool c.skipUnusedGlobals),
    ("prune_foreign", bool c.pruneForeign)]

end CloningPolicy

namespace FixpointConfig

/- The settings, in order. -/
def fieldNames : List String :=
  ["only_modified_injectivity", "max_iterations",
    "unique_scalar_closure", "alloc_site_closure",
    "check_postcondition"]

/- Read fixpoint settings. -/
def ofJson?
    (j : Json) : Option FixpointConfig := do
  match ← j.fields? fieldNames with
  | [only, limit, scalars, sites, check] =>
    return {
      onlyModifiedInjectivity := ← defaulted true bool? only
      maxIterations := ← defaulted 100000 longWord? limit
      uniqueScalarClosure := ← defaulted true bool? scalars
      allocSiteClosure := ← defaulted true bool? sites
      checkPostcondition := ← defaulted true bool? check }
  | _ => none

/- Write fixpoint settings. -/
def toJson
    (c : FixpointConfig) : Json :=
  obj [
    ("only_modified_injectivity",
      bool c.onlyModifiedInjectivity),
    ("max_iterations", nat c.maxIterations),
    ("unique_scalar_closure", bool c.uniqueScalarClosure),
    ("alloc_site_closure", bool c.allocSiteClosure),
    ("check_postcondition", bool c.checkPostcondition)]

end FixpointConfig

namespace Config

/- The parts of a configuration, in order. -/
def fieldNames : List String :=
  ["kind", "graph", "cloning", "fixpoint"]

/- Read a configuration. -/
def ofJson?
    (j : Json) : Option Config := do
  match ← j.fields? fieldNames with
  | [kind, graph, cloning, fixpoint] =>
    return {
      kind := ← defaulted .contextSensitive
        (choice? AnalysisKind.ofName?) kind
      graph := ← defaulted {} GraphConfig.ofJson? graph
      cloning :=
        ← defaulted {} CloningPolicy.ofJson? cloning
      fixpoint :=
        ← defaulted {} FixpointConfig.ofJson? fixpoint }
  | _ => none

/- Write a configuration. -/
def toJson
    (c : Config) : Json :=
  obj [
    ("kind", str c.kind.name),
    ("graph", c.graph.toJson),
    ("cloning", c.cloning.toJson),
    ("fixpoint", c.fixpoint.toJson)]

end Config

-- Replacing Parts

open Json

/-
  Replace a part of a configuration by a member of a document. An absent or
  null member replaces nothing.
-/
def Config.replacePart?
    {α : Type}
    (read : Json → Option α)
    (set : α → Config → Config)
    (part? : Option Json)
    (c : Config) : Option Config :=
  match part? with
  | none => some c
  | some null => some c
  | some j => (read j).map fun a => set a c

/- Replace the parts of a configuration that are given. -/
def Config.replaceParts?
    (c : Config)
    (j : Json) : Option Config := do
  let c ← replacePart? (choice? AnalysisKind.ofName?)
    (fun k c => { c with kind := k }) (j.member? "kind") c
  let c ← replacePart? GraphConfig.ofJson?
    (fun g c => { c with graph := g }) (j.member? "graph") c
  let c ← replacePart? CloningPolicy.ofJson?
    (fun p c => { c with cloning := p })
    (j.member? "cloning") c
  replacePart? FixpointConfig.ofJson?
    (fun f c => { c with fixpoint := f })
    (j.member? "fixpoint") c

end HeapShape
