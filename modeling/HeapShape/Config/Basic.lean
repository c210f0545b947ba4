/-
  Settings of an analysis.

  A `Config` selects one of five analyses and holds three groups of
  settings: how graphs are built, how structure is copied across calls, and
  how the fixpoint runs. Every setting has a default.

  Key definitions include:
    * `AnalysisKind`
    * `GraphConfig`
    * `CloningPolicy`
    * `FixpointConfig`
    * `Config`
    * `Config.validate`
    * `Preset`
    * `Config.ofPreset`
    * `ConfigError`
-/

-- Errors

namespace HeapShape

/- Why a configuration is refused. -/
inductive ConfigError where
  /- A setting lies outside its range. -/
  | range
      (field : String)
      (value least greatest : Nat)
      (hint : String)
  /- No preset has this name. -/
  | unknownPreset (name : String)
  /- No analysis has this name. -/
  | unknownKind (name : String)
  /- The text is no configuration document. -/
  | document
deriving DecidableEq, Repr

/- The wording of a refused configuration. -/
def ConfigError.message : ConfigError → String
| .range field value least greatest hint =>
    "Invalid range for field '" ++ field ++ "': "
      ++ toString value ++ " not in " ++ toString least
      ++ "..=" ++ toString greatest ++ ". " ++ hint
| .unknownPreset name =>
    "Unknown preset '" ++ name ++ "'. Valid presets: "
      ++ "fast, balanced, thorough, custom"
| .unknownKind name =>
    "Unknown analysis kind '" ++ name ++ "'. Valid kinds: "
      ++ "flat, context_insensitive, bottom_up, "
      ++ "bottom_up_top_down, context_sensitive"
| .document => "malformed configuration document"

/-
  Lower-case the ASCII letters of a name. The names below are ASCII, and no
  other letter has one of their letters as its lower case.
-/
def lowerName
    (text : String) : String :=
  text.map Char.toLower

-- Analysis Kinds

/- The five analyses of a whole program. -/
inductive AnalysisKind where
  /- One collapsed object holds all memory. -/
  | flat
  /- One graph for the program, calls merged in place. -/
  | contextInsensitive
  /- Callee summaries copied into callers. -/
  | bottomUp
  /- A bottom-up pass, then caller context copied down. -/
  | bottomUpTopDown
  /- A bottom-up pass, then a fixpoint over call sites. -/
  | contextSensitive
deriving DecidableEq, Repr

namespace AnalysisKind

instance : Inhabited AnalysisKind :=
  ⟨contextSensitive⟩

/- Every kind. -/
def all : List AnalysisKind :=
  [flat, contextInsensitive, bottomUp, bottomUpTopDown,
    contextSensitive]

/- The name of a kind. -/
def name : AnalysisKind → String
| flat => "flat"
| contextInsensitive => "context_insensitive"
| bottomUp => "bottom_up"
| bottomUpTopDown => "bottom_up_top_down"
| contextSensitive => "context_sensitive"

/- The abbreviation of a kind, if it has one. -/
def short? : AnalysisKind → Option String
| flat => none
| contextInsensitive => some "ci"
| bottomUp => some "bu"
| bottomUpTopDown => some "butd"
| contextSensitive => some "cs"

/- The kind with exactly this name. -/
def ofName?
    (text : String) : Option AnalysisKind :=
  all.find? fun k => k.name == text

/-
  Read the name or the abbreviation of a kind, in any case, with hyphens for
  underscores.
-/
def parse
    (text : String) : Except ConfigError AnalysisKind :=
  let wanted :=
    (lowerName text).map fun c => if c = '-' then '_' else c
  let hit := all.find? fun k =>
    k.name == wanted || k.short? == some wanted
  match hit with
  | some k => .ok k
  | none => .error (.unknownKind text)

end AnalysisKind

-- Settings

/- How graphs are built. -/
structure GraphConfig where
  /- Links at one offset are told apart by type. -/
  typeAwareFields : Bool := false
  /- The width in bytes of a pointer field. -/
  pointerSize : Nat := 8
deriving DecidableEq, Repr, Inhabited

/- How structure is copied across calls. -/
structure CloningPolicy where
  /- Stack sites of a callee stay out of its callers. -/
  stripAllocas : Bool := true
  /- Each copied site records the calls it crossed. -/
  trackCallPaths : Bool := false
  /- Stack sites of a caller stay out of its callees. -/
  noEscape : Bool := false
  /- Only globals the callee names are copied down. -/
  skipUnusedGlobals : Bool := true
  /- Caller-only structure is deleted from callees. -/
  pruneForeign : Bool := true
deriving DecidableEq, Repr, Inhabited

/- How the fixpoint runs. -/
structure FixpointConfig where
  /- Only modified nodes count in the injectivity test. -/
  onlyModifiedInjectivity : Bool := true
  /- Items the work list may process; 0 sets no limit. -/
  maxIterations : Nat := 100000
  /- Unique scalars are made to agree across calls. -/
  uniqueScalarClosure : Bool := true
  /- Allocation sites are made to agree across calls. -/
  allocSiteClosure : Bool := true
  /- Every call site is checked again at the end. -/
  checkPostcondition : Bool := true
deriving DecidableEq, Repr, Inhabited

/- All settings of one analysis. -/
structure Config where
  kind : AnalysisKind := .contextSensitive
  graph : GraphConfig := {}
  cloning : CloningPolicy := {}
  fixpoint : FixpointConfig := {}
deriving DecidableEq, Repr, Inhabited

/- Pointer fields are 1 to 16 bytes wide. -/
def GraphConfig.validate
    (c : GraphConfig) : Except ConfigError Unit :=
  if 1 ≤ c.pointerSize ∧ c.pointerSize ≤ 16 then .ok ()
  else
    .error (.range "pointer_size" c.pointerSize 1 16
      "Pointer width is measured in bytes")

/- At most a hundred million items may be processed. -/
def FixpointConfig.validate
    (c : FixpointConfig) : Except ConfigError Unit :=
  if c.maxIterations ≤ 100000000 then .ok ()
  else
    .error (.range "max_iterations" c.maxIterations 0
      100000000 "Use 0 for an unbounded fixpoint")

/- The graph settings are checked before the fixpoint's. -/
def Config.validate
    (c : Config) : Except ConfigError Unit := do
  c.graph.validate
  c.fixpoint.validate

-- Presets

/- Configurations for common uses. -/
inductive Preset where
  | fast
  | balanced
  | thorough
  | custom
deriving DecidableEq, Repr

namespace Preset

instance : Inhabited Preset :=
  ⟨thorough⟩

/- Every preset. -/
def all : List Preset :=
  [fast, balanced, thorough, custom]

/- The name of a preset. -/
def name : Preset → String
| fast => "fast"
| balanced => "balanced"
| thorough => "thorough"
| custom => "custom"

/- The analysis a preset selects. -/
def analysisKind : Preset → AnalysisKind
| fast => .contextInsensitive
| balanced => .bottomUpTopDown
| thorough => .contextSensitive
| custom => .contextSensitive

/- Read the name of a preset, in any case. -/
def parse
    (text : String) : Except ConfigError Preset :=
  match all.find? fun p => p.name == lowerName text with
  | some p => .ok p
  | none => .error (.unknownPreset text)

end Preset

/-
  The configuration of a preset: the defaults with its kind, and call paths
  for `thorough`.
-/
def Config.ofPreset
    (p : Preset) : Config where
  kind := p.analysisKind
  cloning := { trackCallPaths := p == .thorough }

end HeapShape
