import HeapShape.Yaml.Basic

/-
  Writing YAML text.

  Mappings are written in block style, two columns deeper than the mapping
  around them. Sequences, what they hold, and empty mappings are written in
  flow style.

  Key definitions include:
    * `Yaml.flowText`
    * `Yaml.blockEntries`
    * `Yaml.render`
-/

-- Flow Style

namespace HeapShape

namespace Yaml

/- A text in single quotes; a quote is written twice. -/
def quoted
    (cs : List Char) : List Char :=
  let doubled := cs.flatMap fun c =>
    if c = '\'' then ['\'', '\''] else [c]
  '\'' :: doubled ++ ['\'']

mutual

/- A document on one line. -/
def flowText : Yaml → List Char
| scalar true text => text.toList
| scalar false text => quoted text.toList
| seq items => '[' :: flowItems items ++ [']']
| map entries => '\x7b' :: flowEntries entries ++ ['\x7d']

/- The items of a sequence, with commas between them. -/
def flowItems : List Yaml → List Char
| [] => []
| [item] => flowText item
| item :: rest => flowText item ++ [',', ' '] ++ flowItems rest

/- The entries of a mapping, with commas between them. -/
def flowEntries : List (Yaml × Yaml) → List Char
| [] => []
| [(key, value)] => flowText key ++ [':', ' '] ++ flowText value
| (key, value) :: rest =>
    flowText key ++ [':', ' '] ++ flowText value
      ++ [',', ' '] ++ flowEntries rest

end

end Yaml

end HeapShape

-- Block Style

namespace HeapShape

namespace Yaml

mutual

/- What follows the colon of a key, with its line break. -/
def blockValue : Nat → Yaml → List Char
| depth, map (entry :: rest) =>
    '\n' :: blockEntries (depth + 2) (entry :: rest)
| _, y => ' ' :: flowText y ++ ['\n']

/- The entries of a mapping in a column. -/
def blockEntries : Nat → List (Yaml × Yaml) → List Char
| _, [] => []
| depth, (key, value) :: rest =>
    List.replicate depth ' ' ++ flowText key ++ [':']
      ++ blockValue depth value ++ blockEntries depth rest

end

/- The text of a document. -/
def render : Yaml → String
| map (entry :: rest) =>
    String.ofList (blockEntries 0 (entry :: rest))
| y => String.ofList (flowText y ++ ['\n'])

end Yaml

end HeapShape
