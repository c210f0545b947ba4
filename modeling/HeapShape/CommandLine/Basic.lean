/-
  Commands and their arguments.

  An option takes its value from the next argument, from the same argument
  after an equals sign, or, for a one-letter option, directly after the
  letter. Each option is given at most once. After a double dash every
  argument stands for itself.

  Key definitions include:
    * `Command`
    * `Argument`
    * `readArguments`
    * `Command.parse?`
-/

-- Options

namespace HeapShape

/- The options of all commands. -/
inductive Switch where
  | config
  | preset
  | kind
  | dump
  | help
deriving DecidableEq, Repr, Inhabited

namespace Switch

/- Every option. -/
def all : List Switch :=
  [config, preset, kind, dump, help]

/- The long name of an option. -/
def name : Switch → String
| config => "config"
| preset => "preset"
| kind => "kind"
| dump => "dump"
| help => "help"

/- The letter of an option that has one. -/
def letter? : Switch → Option Char
| config => some 'c'
| preset => some 'p'
| kind => some 'k'
| dump => none
| help => some 'h'

/- Whether an option has a value. -/
def takesValue : Switch → Bool
| config => true
| preset => true
| kind => true
| dump => false
| help => false

/- Whether an option names a file. -/
def isPath : Switch → Bool
| config => true
| _ => false

end Switch

/- One argument of a command. -/
inductive Argument where
  | positional (text : String)
  | flag (s : Switch)
  | valued (s : Switch) (value : String)
deriving DecidableEq, Repr

/- What the text of an argument is. -/
inductive ArgumentForm where
  | complete (a : Argument)
  | awaitsValue (s : Switch)
  | unknown
deriving DecidableEq, Repr

-- Reading Arguments

/- An option, with or without a value attached to it. -/
def optionForm
    (s : Switch)
    (value? : Option (List Char)) : ArgumentForm :=
  match s.takesValue, value? with
  | true, some value =>
    .complete (.valued s (String.ofList value))
  | true, none => .awaitsValue s
  | false, none => .complete (.flag s)
  | false, some _ => .unknown

/- The form of an argument after two dashes. -/
def longForm
    (allowed : List Switch)
    (cs : List Char) : ArgumentForm :=
  let name := String.ofList (cs.takeWhile (· != '='))
  let value? :=
    match cs.dropWhile (· != '=') with
    | [] => none
    | _ :: value => some value
  match allowed.find? fun s => s.name == name with
  | some s => optionForm s value?
  | none => .unknown

/- The form of an argument after one dash. -/
def shortForm
    (allowed : List Switch)
    (letter : Char)
    (cs : List Char) : ArgumentForm :=
  let value? :=
    match cs with
    | [] => none
    | '=' :: value => some value
    | value => some value
  match allowed.find? fun s => s.letter? == some letter with
  | some s => optionForm s value?
  | none => .unknown

/- The form of an argument. -/
def argumentForm
    (allowed : List Switch)
    (text : String) : ArgumentForm :=
  match text.toList with
  | '-' :: '-' :: cs => longForm allowed cs
  | '-' :: letter :: cs => shortForm allowed letter cs
  | _ => .complete (.positional text)

/- An argument that can only be an option. -/
def looksLikeOption
    (text : String) : Bool :=
  match text.toList with
  | '-' :: _ :: _ => true
  | _ => false

/-
  Read the arguments of a command. Nothing is read after a request for help.
-/
def readArguments
    (allowed : List Switch) :
    List String → Option (List Argument)
| [] => some []
| text :: rest =>
    if text = "--" then
      some (rest.map .positional)
    else
      match argumentForm allowed text with
      | .complete (.flag .help) => some [.flag .help]
      | .complete a =>
          (readArguments allowed rest).map (a :: ·)
      | .awaitsValue s =>
          match rest with
          | [] => none
          | value :: rest =>
              if looksLikeOption value then none
              else
                (readArguments allowed rest).map
                  (.valued s value :: ·)
      | .unknown => none

-- Commands

/- What to analyse, and how. -/
structure AnalyzeRequest where
  modulePath : String
  configPath? : Option String := none
  preset? : Option String := none
  kind? : Option String := none
  dump : Bool := false
deriving DecidableEq, Repr, Inhabited

/- What the program is asked to do. -/
inductive Command where
  | analyze (r : AnalyzeRequest)
  | config (preset? : Option String)
  | help
deriving DecidableEq, Repr, Inhabited

/- The positional arguments. -/
def positionals
    (args : List Argument) : List String :=
  args.filterMap fun a =>
    match a with
    | .positional text => some text
    | _ => none

/- The value of an option. -/
def valueOf?
    (s : Switch)
    (args : List Argument) : Option String :=
  args.findSome? fun a =>
    match a with
    | .valued s' value => if s' = s then some value else none
    | _ => none

/- How often an option is given. -/
def countOf
    (s : Switch)
    (args : List Argument) : Nat :=
  args.countP fun a =>
    match a with
    | .positional _ => false
    | .flag s' => s' == s
    | .valued s' _ => s' == s

/-
  Whether arguments are well-formed: no option twice, no empty path, and not
  too many positional arguments.
-/
def areWellFormed
    (most : Nat)
    (args : List Argument) : Bool :=
  Switch.all.all (fun s => countOf s args ≤ 1)
    && Switch.all.all (fun s =>
      !s.isPath || valueOf? s args != some "")
    && (positionals args).length ≤ most
    && !(positionals args).contains ""

/- Whether help is asked for. -/
def asksForHelp
    (args : List Argument) : Bool :=
  args.contains (.flag .help)

namespace Command

/- The command of the arguments after `analyze`. -/
def analyze?
    (texts : List String) : Option Command := do
  let args ← readArguments Switch.all texts
  if !areWellFormed 1 args then
    none
  else if asksForHelp args then
    return help
  else
    let path ← (positionals args).head?
    return analyze {
      modulePath := path
      configPath? := valueOf? .config args
      preset? := valueOf? .preset args
      kind? := valueOf? .kind args
      dump := countOf .dump args > 0 }

/- The command of the arguments after `config`. -/
def config?
    (texts : List String) : Option Command := do
  let args ← readArguments [.preset, .help] texts
  if !areWellFormed 0 args then
    none
  else if asksForHelp args then
    return help
  else
    return config (valueOf? .preset args)

/- The command of all arguments; none if they are wrong. -/
def parse? : List String → Option Command
| "analyze" :: texts => analyze? texts
| "config" :: texts => config? texts
| ["help"] => some help
| ["help", "analyze"] => some help
| ["help", "config"] => some help
| ["help", "help"] => some help
| "--help" :: _ => some help
| "-h" :: _ => some help
| _ => none

/- The files that a command reads. -/
def paths : Command → List String
| analyze r => r.configPath?.toList ++ [r.modulePath]
| config _ => []
| help => []

end Command

end HeapShape
