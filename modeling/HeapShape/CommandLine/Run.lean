import HeapShape.CommandLine.Basic
import HeapShape.Config.Yaml
import HeapShape.Program.Encoding
import HeapShape.Report

/-
  Running commands.

  A configuration file counts before a preset, and a kind replaces the kind
  of either. Wrong settings are reported before the program to analyse is
  looked at.

  Key definitions include:
    * `Outcome`
    * `loadConfig`
    * `AnalyzeRequest.prepare`
    * `Command.run`
-/

-- Outcomes

namespace HeapShape

/- How a command ended. -/
inductive ExitStatus where
  | success
  | failure
  | usage
  | fault
deriving DecidableEq, Repr, Inhabited

/- The code of an exit status. -/
def ExitStatus.code : ExitStatus → Nat
| success => 0
| failure => 1
| usage => 2
| fault => 101

/- What a command writes and how it ends. -/
structure Outcome where
  status : ExitStatus
  output : String := ""
  /- What went wrong, for people. -/
  complaint : String := ""
deriving DecidableEq, Repr, Inhabited

namespace Outcome

/- A command that did what it was asked for. -/
def succeed
    (output : String) : Outcome where
  status := .success
  output := output

/- A command that failed before it wrote anything. -/
def fail
    (complaint : String) : Outcome where
  status := .failure
  complaint := complaint

/- A command that was stopped by a fault. -/
def ofFault
    (output : String)
    (f : Fault) : Outcome where
  status := .fault
  output := output
  complaint := f.message

end Outcome

/- How the program is used. -/
def usageText : String :=
  "Usage: heap-shape <COMMAND>\n\n"
    ++ "Commands:\n"
    ++ "  analyze <MODULE> [-c FILE] [-p PRESET] [-k KIND]"
    ++ " [--dump]\n"
    ++ "  config [-p PRESET]\n"

/- Arguments that make no command. -/
def Outcome.misused : Outcome where
  status := .usage
  complaint := usageText

-- Configurations

/- Files by path; none for one that cannot be read. -/
abbrev Files :=
  String → Option String

/- The configuration of a file, a preset, or neither. -/
def baseConfig
    (files : Files)
    (path? preset? : Option String) : Except String Config :=
  match path?, preset? with
  | some path, _ =>
    match files path with
    | none => .error ("cannot read " ++ path)
    | some text =>
      (Config.read text).mapError ConfigError.message
  | none, some name =>
    ((Preset.parse name).map Config.ofPreset).mapError
      ConfigError.message
  | none, none => .ok {}

/- The configuration that a command asks for. -/
def loadConfig
    (files : Files)
    (path? preset? kind? : Option String) :
    Except String Config := do
  let config ← baseConfig files path? preset?
  match kind? with
  | none => return config
  | some name =>
    let kind ←
      (AnalysisKind.parse name).mapError ConfigError.message
    return { config with kind := kind }

-- Commands

namespace AnalyzeRequest

/- The configuration and the program of a request. -/
def prepare
    (files : Files)
    (r : AnalyzeRequest) : Except String (Config × Program) := do
  let config ←
    loadConfig files r.configPath? r.preset? r.kind?
  match files r.modulePath with
  | none => .error ("cannot read " ++ r.modulePath)
  | some text =>
    match Program.parse? text with
    | none => .error ("not a module: " ++ r.modulePath)
    | some p => return (config, p)

/- The outcome of a request once its analysis has run. -/
def conclude
    (r : AnalyzeRequest)
    (p : Program)
    (elapsed : String)
    (ran : Checked (Analysis.Ran AnalysisStats)) : Outcome :=
  match ran with
  | .error f => .ofFault "" f
  | .ok (.error e, _) => .fail e.message
  | .ok (.ok stats, a) =>
    let report : Report :=
      { program := p
        analysis := a
        stats := stats
        elapsed := elapsed }
    match report.render r.dump with
    | (output, none) => .succeed output
    | (output, some f) => .ofFault output f

end AnalyzeRequest

namespace Command

/- Do what a command asks for. -/
def run
    (files : Files)
    (elapsed : String) : Command → Outcome
| help => .succeed usageText
| config preset? =>
    match loadConfig files none preset? none with
    | .error e => .fail e
    | .ok c => .succeed c.write
| analyze r =>
    match r.prepare files with
    | .error e => .fail e
    | .ok (settings, p) =>
        r.conclude p elapsed ((Analysis.new settings).run p)

/- Do what arguments ask for. -/
def runArguments
    (files : Files)
    (elapsed : String)
    (args : List String) : Outcome :=
  match parse? args with
  | none => .misused
  | some c => c.run files elapsed

end Command

end HeapShape
