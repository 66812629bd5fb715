import Branchwise.Json.Decoder

/-!
# Arguments of a command line

Words that start with a hyphen are options.  A long option may be cut short as long as it stays
unique, and may carry its value after an equals sign; short options may be run together.  An
argument takes the double hyphen beside its word and drops it.
-/

namespace Branchwise.Cli

inductive Flag where
  | help
  | version
  | verbose
  | typedefs
  | config
  | json
  | root
  | depth
  | dot
  | paths
  | coverage
deriving DecidableEq, Repr, Inhabited

def Flag.takesValue : Flag → Bool
  | .typedefs | .config | .root | .depth | .coverage => true
  | _ => false

structure Grammar where
  options : List (String × Flag)
  arguments : Nat
  hasRest : Bool
deriving Repr, Inhabited

inductive Stop where
  | usage
  | help
  | version
deriving DecidableEq, Repr, Inhabited

inductive Word where
  | argument (text : String)
  | dashes
  | option (flag : Flag) (value : Option String)
  | cluster (flags : List Flag)
  | refused
  | unknown
deriving DecidableEq, Repr, Inhabited

namespace Grammar

def lookup? (g : Grammar) (name : String) : Option Flag := g.options.lookup name

def splitValue (word : List Char) : String × Option String :=
  match word.dropWhile (· ≠ '=') with
  | [] => (String.ofList word, none)
  | _ :: value => (String.ofList (word.takeWhile (· ≠ '=')), some (String.ofList value))

def withoutLineEnd (cs : List Char) : List Char :=
  if cs.getLast? = some '\n' then cs.dropLast else cs

/-- Whether a word is spelled like a negative number; a line end may follow. -/
def looksNegative (word : List Char) : Bool :=
  match withoutLineEnd word with
  | '-' :: digits =>
    match digits.dropWhile Text.isDigit with
    | [] => !digits.isEmpty
    | '.' :: fraction => !fraction.isEmpty && fraction.all Text.isDigit
    | _ => false
  | _ => false

def cluster (g : Grammar) (letters : List Char) : Word :=
  match letters.mapM fun c => g.lookup? (String.ofList ['-', c]) with
  | some flags => .cluster flags
  | none => .refused

/-- A word that starts with a hyphen and is no option: a negative number, a text with a blank, or an
option that is not understood. -/
def otherwise (word : List Char) : Word :=
  if looksNegative word || word.contains ' ' then .argument (String.ofList word) else .unknown

/-- The part of a word that starts with one hyphen and a letter.  An equals sign may stand before
the letters that follow. -/
def classifyShort (g : Grammar) (c : Char) (cs : List Char) : Word :=
  match g.lookup? (String.ofList ['-', c]), cs with
  | none, _ => otherwise ('-' :: c :: cs)
  | some _, ['='] => .refused
  | some _, '=' :: cs => g.cluster (c :: cs)
  | some _, cs => g.cluster (c :: cs)

/-- The part of a word that starts with two hyphens; only one that names several options cannot be
told. -/
def classifyLong (g : Grammar) (word : List Char) : Except Stop Word :=
  let (name, value) := splitValue word
  match g.lookup? name, g.options.filter fun o => name.toList.isPrefixOf o.1.toList with
  | some f, _ => .ok (.option f value)
  | none, [] => .ok (otherwise word)
  | none, [o] => .ok (.option o.2 value)
  | none, _ => .error .usage

def classify (g : Grammar) (word : String) : Except Stop Word :=
  match word.toList with
  | '-' :: c :: cs =>
    match g.lookup? word with
    | some f => .ok (.option f none)
    | none => if c = '-' then g.classifyLong ('-' :: c :: cs) else .ok (g.classifyShort c cs)
  | _ => .ok (.argument word)

def classifyAll (g : Grammar) : List String → Except Stop (List Word)
  | [] => .ok []
  | "--" :: rest => .ok (.dashes :: rest.map .argument)
  | w :: rest => do
    let part ← g.classify w
    return part :: (← g.classifyAll rest)

end Grammar

structure Reading where
  options : List (Flag × Json)
  arguments : List Json
  rest : Option (List String)
  hasExtra : Bool
deriving Repr, Inhabited

namespace Reading

def start : Reading := ⟨[], [], none, false⟩

def value? (r : Reading) (f : Flag) : Option Json :=
  ((r.options.filter fun o => o.1 = f).getLast?).map Prod.snd

def has (r : Reading) (f : Flag) : Bool := (r.value? f).isSome

def isOption : Word → Bool
  | .argument _ | .dashes => false
  | _ => true

def texts (ws : List Word) : List String :=
  ws.filterMap fun
    | .argument t => some t
    | _ => none

def wordValue (text : String) : Json := if text = "--" then .arr [] else .str text

/-- Takes arguments from the front of some words, as many as the grammar has left. -/
def takeArguments : Nat → List Word → List Json → List Json × List Word
  | 0, ws, taken => (taken, ws)
  | _ + 1, [], taken => (taken, [])
  | left + 1, .dashes :: .argument t :: ws, taken => takeArguments left ws (taken ++ [.str t])
  | left + 1, .argument t :: .dashes :: ws, taken => takeArguments left ws (taken ++ [.str t])
  | left + 1, .argument t :: ws, taken => takeArguments left ws (taken ++ [wordValue t])
  | _ + 1, ws, taken => (taken, ws)

def restOf (ws : List Word) : List String :=
  if ws.contains .dashes then texts ws else (texts ws).erase "--"

/-- Takes what a grammar has left from the front of some words.  The rest is taken as soon as all
arguments are there, even if it is empty. -/
def takeWords (g : Grammar) (r : Reading) (ws : List Word) : Reading × List Word :=
  let (taken, ws) := takeArguments (g.arguments - r.arguments.length) ws []
  let r := { r with arguments := r.arguments ++ taken }
  if g.hasRest && r.rest.isNone && g.arguments ≤ r.arguments.length then
    ({ r with rest := some (restOf (ws.takeWhile fun w => !isOption w)) },
      ws.dropWhile fun w => !isOption w)
  else (r, ws)

/-- The value of an option as it is used; a word that is no number where one is needed is not
accepted. -/
def convert (f : Flag) (text : String) : Except Stop Json :=
  match wordValue text, f with
  | .str s, .depth =>
    match (Json.str s).toInt with
    | .ok n => .ok (.int n)
    | .error _ => .error .usage
  | .str s, .coverage =>
    match Number.real? s.toList with
    | some x => .ok (.real x)
    | none => .error .usage
  | j, _ => .ok j

def addOption (r : Reading) (f : Flag) (value : Json) : Reading :=
  { r with options := r.options ++ [(f, value)] }

def takeFlag (r : Reading) : Flag → Except Stop Reading
  | .help => .error .help
  | .version => .error .version
  | f => .ok (r.addOption f .null)

def takeOption (r : Reading) (f : Flag) (value : Option String) (ws : List Word) :
    Except Stop (Reading × List Word) := do
  match f.takesValue, value, ws with
  | true, some v, ws => return (r.addOption f (← convert f v), ws)
  | true, none, .argument v :: ws => return (r.addOption f (← convert f v), ws)
  | false, none, ws => return (← r.takeFlag f, ws)
  | _, _, _ => .error .usage

/-- Reads words, options and others in turn.  Every step takes a word at least. -/
def readWords (g : Grammar) : Nat → List Word → Reading → Except Stop Reading
  | 0, _, r => .ok r
  | fuel + 1, ws, r =>
    match ws with
    | .option f value :: rest => do
      let (r, rest) ← r.takeOption f value rest
      readWords g fuel rest r
    | .cluster flags :: rest => do
      readWords g fuel rest (← flags.foldlM takeFlag r)
    | .refused :: _ => .error .usage
    | .unknown :: rest => readWords g fuel rest { r with hasExtra := true }
    | ws =>
      let (r, rest) := takeWords g r ws
      let misplaced := rest.length = ws.length
      let rest := if misplaced then rest.dropWhile fun w => !isOption w else rest
      let r := { r with hasExtra := r.hasExtra || (misplaced && !ws.isEmpty) }
      if rest.isEmpty then .ok r else readWords g fuel rest r

def ofWords (g : Grammar) (words : List String) : Except Stop Reading := do
  let ws ← g.classifyAll words
  let r ← readWords g (ws.length + 1) ws .start
  if r.arguments.length < g.arguments || r.hasExtra then .error .usage else .ok r

end Reading

/-! ## Commands -/

inductive Command where
  | validate
  | complexity (functions : List String)
  | callgraph (root depth : Json) (dot : Bool)
  | branches (function : Json) (paths dot : Bool)
  | synthesize (function coverage : Json)
  | solve (function guard : Json)
deriving Repr, Inhabited

structure Invocation where
  command : Command
  input : String
  typedefs : Option String
  config : Option String
  json : Bool
deriving Repr, Inhabited

def globalGrammar : Grammar :=
  ⟨[("-h", .help), ("--help", .help), ("--version", .version), ("-v", .verbose),
    ("--verbose", .verbose)], 0, false⟩

def commandGrammar (own : List (String × Flag)) (arguments : Nat) (hasRest : Bool) : Grammar :=
  ⟨[("-h", .help), ("--help", .help), ("--typedefs", .typedefs), ("--config", .config),
    ("--json", .json)] ++ own, arguments, hasRest⟩

def grammar? : String → Option Grammar
  | "validate" => some (commandGrammar [] 1 false)
  | "complexity" => some (commandGrammar [] 1 true)
  | "callgraph" =>
    some (commandGrammar [("--root", .root), ("--depth", .depth), ("--dot", .dot)] 1 false)
  | "branches" => some (commandGrammar [("--paths", .paths), ("--dot", .dot)] 2 false)
  | "synthesize" => some (commandGrammar [("--coverage", .coverage)] 2 false)
  | "solve" => some (commandGrammar [] 3 false)
  | _ => none

def commandOf (name : String) (r : Reading) : Except Stop Command :=
  match name, r.arguments with
  | "validate", _ => .ok .validate
  | "complexity", _ => .ok (.complexity (r.rest.getD []))
  | "callgraph", _ => .ok (.callgraph ((r.value? .root).getD .null)
      ((r.value? .depth).getD (.int (-1))) (r.has .dot))
  | "branches", [_, function] => .ok (.branches function (r.has .paths) (r.has .dot))
  | "synthesize", [_, function] =>
    .ok (.synthesize function ((r.value? .coverage).getD .null))
  | "solve", [_, function, guard] => .ok (.solve function guard)
  | _, _ => .error .usage

def fileOf (r : Reading) (f : Flag) : Option String :=
  ((r.value? f).map Json.textOrEmpty).filter fun t => !t.isEmpty

def readCommand (name : String) (words : List String) : Except Stop Invocation :=
  match grammar? name with
  | none => .error .usage
  | some g => do
    let r ← Reading.ofWords g words
    return {
      command := ← commandOf name r
      input := (r.arguments.headD .null).textOrEmpty
      typedefs := fileOf r .typedefs
      config := fileOf r .config
      json := r.has .json }

/-- Reads the options before the command, and then the command.  The words and the parts they play
go side by side. -/
def readInvocation : List (String × Word) → Bool → Except Stop Invocation
  | [], hasExtra => .error (if hasExtra then .usage else .help)
  | (_, .option f value) :: rest, hasExtra => do
    let _ ← Reading.start.takeOption f value []
    readInvocation rest hasExtra
  | (_, .cluster flags) :: rest, hasExtra => do
    let _ ← flags.foldlM Reading.takeFlag .start
    readInvocation rest hasExtra
  | (_, .refused) :: _, _ | (_, .dashes) :: _, _ => .error .usage
  | (_, .unknown) :: rest, _ => readInvocation rest true
  | (name, .argument _) :: rest, hasExtra => do
    let i ← readCommand name (rest.map Prod.fst)
    if hasExtra then .error .usage else .ok i

def parse (words : List String) : Except Stop Invocation := do
  readInvocation (words.zip (← globalGrammar.classifyAll words)) false

end Branchwise.Cli
