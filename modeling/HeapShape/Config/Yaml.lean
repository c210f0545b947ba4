import HeapShape.Config.Encoding
import HeapShape.Yaml.Parser
import HeapShape.Yaml.Printer

/-
  Configurations as YAML documents.

  Reading accepts any part of a configuration and checks the result; writing
  shows every setting.

  Key definitions include:
    * `Config.ofYaml?`
    * `Config.toYaml`
    * `Config.read`
    * `Config.write`
-/

-- Sections

namespace HeapShape

open Yaml

/- Write a truth value. -/
def Yaml.ofBool
    (b : Bool) : Yaml :=
  word (if b then "true" else "false")

/- Write a number. -/
def Yaml.ofNat
    (n : Nat) : Yaml :=
  word (toString n)

/- Write a mapping. -/
def Yaml.record
    (fields : List (String × Yaml)) : Yaml :=
  map (fields.map fun (name, y) => (word name, y))

namespace GraphConfig

/- Read graph settings. -/
def ofYaml?
    (y : Yaml) : Option GraphConfig := do
  match ← y.fields? fieldNames with
  | [types, size] =>
    return {
      typeAwareFields := ← defaulted false bool? types
      pointerSize :=
        ← defaulted 8 (natural? (1 <<< 32)) size }
  | _ => none

/- Write graph settings. -/
def toYaml
    (c : GraphConfig) : Yaml :=
  record [
    ("type_aware_fields", ofBool c.typeAwareFields),
    ("pointer_size", ofNat c.pointerSize)]

end GraphConfig

namespace CloningPolicy

/- Read a cloning policy. -/
def ofYaml?
    (y : Yaml) : Option CloningPolicy := do
  match ← y.fields? fieldNames with
  | [strip, track, escape, skip, prune] =>
    return {
      stripAllocas := ← defaulted true bool? strip
      trackCallPaths := ← defaulted false bool? track
      noEscape := ← defaulted false bool? escape
      skipUnusedGlobals := ← defaulted true bool? skip
      pruneForeign := ← defaulted true bool? prune }
  | _ => none

/- Write a cloning policy. -/
def toYaml
    (c : CloningPolicy) : Yaml :=
  record [
    ("strip_allocas", ofBool c.stripAllocas),
    ("track_call_paths", ofBool c.trackCallPaths),
    ("no_escape", ofBool c.noEscape),
    ("skip_unused_globals", ofBool c.skipUnusedGlobals),
    ("prune_foreign", ofBool c.pruneForeign)]

end CloningPolicy

namespace FixpointConfig

/- Read fixpoint settings. -/
def ofYaml?
    (y : Yaml) : Option FixpointConfig := do
  match ← y.fields? fieldNames with
  | [only, most, scalars, sites, check] =>
    return {
      onlyModifiedInjectivity := ← defaulted true bool? only
      maxIterations :=
        ← defaulted 100000 (natural? (1 <<< 64)) most
      uniqueScalarClosure := ← defaulted true bool? scalars
      allocSiteClosure := ← defaulted true bool? sites
      checkPostcondition := ← defaulted true bool? check }
  | _ => none

/- Write fixpoint settings. -/
def toYaml
    (c : FixpointConfig) : Yaml :=
  record [
    ("only_modified_injectivity",
      ofBool c.onlyModifiedInjectivity),
    ("max_iterations", ofNat c.maxIterations),
    ("unique_scalar_closure", ofBool c.uniqueScalarClosure),
    ("alloc_site_closure", ofBool c.allocSiteClosure),
    ("check_postcondition", ofBool c.checkPostcondition)]

end FixpointConfig

-- Whole Configurations

open Yaml

namespace Config

/- Read a configuration. -/
def ofYaml?
    (y : Yaml) : Option Config := do
  match ← y.fields? fieldNames with
  | [kind, graph, cloning, fixpoint] =>
    return {
      kind := ← defaulted .contextSensitive
        (choice? AnalysisKind.ofName?) kind
      graph := ← defaulted {} GraphConfig.ofYaml? graph
      cloning := ← defaulted {} CloningPolicy.ofYaml? cloning
      fixpoint :=
        ← defaulted {} FixpointConfig.ofYaml? fixpoint }
  | _ => none

/- Write a configuration. -/
def toYaml
    (c : Config) : Yaml :=
  record [
    ("kind", word c.kind.name),
    ("graph", c.graph.toYaml),
    ("cloning", c.cloning.toYaml),
    ("fixpoint", c.fixpoint.toYaml)]

/- Read and check the text of a configuration. -/
def read
    (text : String) : Except ConfigError Config :=
  match (Yaml.parse? text).bind ofYaml? with
  | none => .error .document
  | some c => do
      c.validate
      return c

/- The text of a configuration. -/
def write
    (c : Config) : String :=
  c.toYaml.render

end Config

end HeapShape
