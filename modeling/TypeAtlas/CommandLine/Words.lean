/-!
# Words of a command line

A command line is a list of words. Options begin with a dash and may stand anywhere after the name
of the command; an option takes a value, or it is a flag. All words that are no options and no
values are operands, and so are all words after a double dash.
-/

namespace TypeAtlas.CommandLine

/-! ## §1 Options and commands -/

/-- The options of the commands. -/
inductive Switch where
  | schema | runtime | importPath | config | depth | output | directEdges | json | verbose | method
  deriving Repr, DecidableEq

namespace Switch

/-- The long name of an option, without its dashes. -/
def long : Switch → String
  | .schema => "schema"
  | .runtime => "runtime"
  | .importPath => "import-path"
  | .config => "config"
  | .depth => "depth"
  | .output => "output"
  | .directEdges => "direct-edges"
  | .json => "json"
  | .verbose => "verbose"
  | .method => "method"

/-- The short name of an option. -/
def short? : Switch → Option Char
  | .schema => some 's'
  | .runtime => some 'r'
  | .importPath => some 'I'
  | .config => some 'c'
  | .depth => some 'd'
  | .output => some 'o'
  | .directEdges => none
  | .json => some 'j'
  | .verbose => some 'v'
  | .method => some 'm'

/-- Whether an option takes a value. -/
def takesValue : Switch → Bool
  | .runtime | .directEdges | .json | .verbose => false
  | _ => true

end Switch

/-- The commands. -/
inductive Command where
  | analyze | resolve | refs | closure | inspect
  deriving Repr, DecidableEq

namespace Command

/-- All commands. -/
def all : List Command := [.analyze, .resolve, .refs, .closure, .inspect]

/-- The name of a command. -/
def name : Command → String
  | .analyze => "analyze"
  | .resolve => "resolve"
  | .refs => "refs"
  | .closure => "closure"
  | .inspect => "inspect"

/-- The options of a command. -/
def switches : Command → List Switch
  | .analyze =>
    [.schema, .runtime, .importPath, .config, .depth, .output, .directEdges, .json, .verbose]
  | .resolve => [.schema, .runtime, .config, .json]
  | .refs => [.schema, .runtime, .config, .depth, .json]
  | .closure => [.schema, .runtime, .config, .depth, .json, .verbose]
  | .inspect => [.schema, .runtime, .config, .depth, .method, .json]

/-- The option of the given long name. -/
def withLong? (c : Command) (name : List Char) : Option Switch :=
  c.switches.find? fun s => s.long.toList == name

/-- The option of the given short name. -/
def withShort? (c : Command) (name : Char) : Option Switch :=
  c.switches.find? fun s => s.short? == some name

end Command

/-! ## §2 Reading words -/

/-- An option as given: a flag, or an option with its value. -/
abbrev Setting := Switch × Option String

/-- What one word with options says. -/
structure Reading where
  /-- The options that are complete with this word. -/
  settings : List Setting := []
  /-- The option whose value is the next word. -/
  awaiting : Option Switch := none

/-- What a word of short names says, without its dash. The first option that takes a value has the
    rest of the word for it, or the next word if nothing is left. -/
def readShort (c : Command) : List Char → Option Reading
  | [] => some {}
  | name :: rest => do
    let s ← c.withShort? name
    if s.takesValue then
      if rest.isEmpty then return { awaiting := some s }
      else return { settings := [(s, some (String.ofList rest))] }
    else
      let later ← readShort c rest
      return { later with settings := (s, none) :: later.settings }

/-- What a word with a long name says, without its dashes. An equals sign parts the name from the
    value. -/
def readLong (c : Command) (cs : List Char) : Option Reading := do
  let s ← c.withLong? (cs.takeWhile (· != '='))
  match cs.dropWhile (· != '='), s.takesValue with
  | _ :: value, true => return { settings := [(s, some (String.ofList value))] }
  | _ :: _, false => none
  | [], true => return { awaiting := some s }
  | [], false => return { settings := [(s, none)] }

/-- What a word says, if it is a word with options. A dash alone is none. -/
def readWord (c : Command) (word : String) : Option (Option Reading) :=
  match word.toList with
  | '-' :: '-' :: cs => some (readLong c cs)
  | '-' :: x :: cs => some (readShort c (x :: cs))
  | _ => none

/-- What a list of words says. -/
structure Given where
  /-- The options, in the order in which they stand. -/
  settings : List Setting := []
  /-- The operands. -/
  operands : List String := []
  deriving Repr, DecidableEq

namespace Given

/-- With options in front. -/
def adding (settings : List Setting) (g : Given) : Given :=
  { g with settings := settings ++ g.settings }

/-- With an operand in front. -/
def addingOperand (word : String) (g : Given) : Given := { g with operands := word :: g.operands }

/-- Whether a flag is given. -/
def has (g : Given) (s : Switch) : Bool := g.settings.any fun e => e.1 == s

/-- The values of an option, in the order in which they stand. -/
def values (g : Given) (s : Switch) : List String :=
  g.settings.filterMap fun e => if e.1 = s then e.2 else none

/-- The value of an option. Of several the last one counts. -/
def value? (g : Given) (s : Switch) : Option String := (g.values s).getLast?

end Given

/-- What the words after the name of a command say, if they are well formed: every option is one of
    the command, and it has a value exactly if it takes one. -/
def readWords (c : Command) : List String → Option Given
  | [] => some {}
  | "--" :: rest => some { operands := rest }
  | word :: rest =>
    match readWord c word with
    | none => (readWords c rest).map (Given.addingOperand word)
    | some none => none
    | some (some { settings, awaiting := none }) => (readWords c rest).map (Given.adding settings)
    | some (some { settings, awaiting := some s }) =>
      match rest with
      | [] => none
      | value :: rest => (readWords c rest).map (Given.adding (settings ++ [(s, some value)]))

end TypeAtlas.CommandLine
