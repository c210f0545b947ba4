import HeapShape.CommandLine.Run

/-
  The program.

  It reads the files that the command names, runs the command and writes
  what it says.
-/

namespace HeapShape

/- The text of a file; none if it cannot be read. -/
def readFile?
    (path : String) : IO (Option String) := do
  try
    return some (← IO.FS.readFile path)
  catch _ =>
    return none

/- Milliseconds with two decimals, from nanoseconds. -/
def milliseconds
    (nanos : Nat) : String :=
  let hundredths := (nanos + 5000) / 10000
  let rest := hundredths % 100
  toString (hundredths / 100) ++ "."
    ++ (if rest < 10 then "0" else "") ++ toString rest

/- Run a command, taking the time of an analysis. -/
def perform
    (files : Files)
    (c : Command) : IO Outcome := do
  match c with
  | .analyze r =>
    match r.prepare files with
    | .error e => return .fail e
    | .ok (config, p) =>
      let start ← IO.monoNanosNow
      let ran ← IO.lazyPure fun _ =>
        (Analysis.new config).run p
      let stop ← IO.monoNanosNow
      let elapsed := milliseconds (stop - start)
      return r.conclude p elapsed ran
  | c => return c.run files ""

end HeapShape

open HeapShape in
def main
    (args : List String) : IO UInt32 := do
  let outcome ←
    match Command.parse? args with
    | none => pure Outcome.misused
    | some c =>
      let texts ← c.paths.mapM fun path => do
        return (path, ← readFile? path)
      let files := fun path => (texts.lookup path).join
      perform files c
  (← IO.getStdout).putStr outcome.output
  if !outcome.complaint.isEmpty then
    (← IO.getStderr).putStr (outcome.complaint ++ "\n")
  return outcome.status.code.toUInt32
