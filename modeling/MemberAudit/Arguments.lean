/-
The arguments of the program. A setting takes its value from its own word, after
an equals sign, or from the next word, which must not look like an option itself.
The word `--` ends the options; what follows it would be positional, and the
program has no positional arguments.

A setting that awaits its value, or has just got it from the next word, is looked
at when the next option or the end of the arguments comes. So of two faults an
unknown word wins over a value before it that is missing or empty (`settle` is
not asked then).

What the program's own options need is here. A setting has one name, written out, and
takes one value; one-letter settings, abbreviations, values that come in several words
and commands within the command are left out, and every word is text.
-/
namespace MemberAudit

structure Arguments where
  input : String
  config : Option String := none
  reportDir : Option String := none
  baseline : Option String := none
  projectName : Option String := none
  output : Option String := none
  quiet : Bool := false
  timing : Bool := false
  deriving DecidableEq, Repr

/-- Why reading arguments stops. -/
inductive UsageStop where
  | missingRequired
  | invalidValue
  | unknown
  | conflict
  | tooManyValues
  | help
  | version
  deriving DecidableEq, Repr

namespace Arguments

/-- The options that take a value. -/
inductive Setting where
  | input
  | config
  | reportDir
  | baseline
  | projectName
  | output
  deriving DecidableEq, Repr

/-- The options that take none. -/
inductive Flag where
  | quiet
  | timing
  deriving DecidableEq, Repr

/-- What the name of an option means. -/
inductive Meaning where
  | setting (setting : Setting)
  | flag (flag : Flag)
  /-- A stop by request. -/
  | request (stop : UsageStop)
  deriving DecidableEq, Repr

def meaning? : String → Option Meaning
  | "input" => some (.setting .input)
  | "config" => some (.setting .config)
  | "report-dir" => some (.setting .reportDir)
  | "baseline" => some (.setting .baseline)
  | "project-name" => some (.setting .projectName)
  | "output" => some (.setting .output)
  | "quiet" => some (.flag .quiet)
  | "timing" => some (.flag .timing)
  | "help" => some (.request .help)
  | "version" => some (.request .version)
  | _ => none

/-- The meaning of a one-letter option. -/
def letterMeaning? : Char → Option UsageStop
  | 'h' => some .help
  | 'V' => some .version
  | _ => none

/-- What a word of the command line looks like. -/
inductive Word where
  | terminator
  | long (name : String) (value? : Option String)
  | short (letter : Char)
  | plain (text : String)
  deriving DecidableEq, Repr

def Word.ofString (s : String) : Word :=
  match s.toList with
  | ['-', '-'] => .terminator
  | '-' :: '-' :: rest =>
    match rest.dropWhile (· ≠ '=') with
    | [] => .long (String.ofList rest) none
    | _ :: value => .long (String.ofList (rest.takeWhile (· ≠ '='))) (some (String.ofList value))
  | '-' :: letter :: _ => .short letter
  | _ => .plain s

/-- What has been read: the settings and flags given, and the setting whose value
has not been looked at, with the value if it has come. -/
structure State where
  settings : List (Setting × String)
  flags : List Flag
  pending : Option (Setting × Option String)
  deriving DecidableEq, Repr

/-- A setting given its value. All but the project name must not be empty. -/
def State.set (state : State) (setting : Setting) (value : String) : Except UsageStop State :=
  if (state.settings.lookup setting).isSome then .error .conflict
  else if value.isEmpty && setting ≠ .projectName then .error .invalidValue
  else .ok { state with settings := state.settings ++ [(setting, value)] }

/-- The pending setting given its value. -/
def State.settle (state : State) : Except UsageStop State :=
  match state.pending with
  | none => .ok state
  | some (_, none) => .error .invalidValue
  | some (setting, some value) => { state with pending := none }.set setting value

/-- The state after an option that is spelled out. -/
def State.option (state : State) (name : String) (value? : Option String) :
    Except UsageStop State :=
  match meaning? name, value? with
  | none, _ => .error .unknown
  | some (.setting setting), some value => do (← state.settle).set setting value
  | some (.setting setting), none => do
    let state ← state.settle
    return { state with pending := some (setting, none) }
  | some (.flag _), some _ => .error .tooManyValues
  | some (.flag flag), none => do
    let state ← state.settle
    if state.flags.contains flag then .error .conflict
    else return { state with flags := state.flags ++ [flag] }
  | some (.request _), some _ => .error .tooManyValues
  | some (.request stop), none => do
    let _ ← state.settle
    .error stop

/-- The state after a word. -/
def State.step (state : State) : Word → Except UsageStop State
  | .terminator => .ok state
  | .long name value? => state.option name value?
  | .short letter =>
    match letterMeaning? letter with
    | none => .error .unknown
    | some stop => do
      let _ ← state.settle
      .error stop
  | .plain text =>
    match state.pending with
    | some (setting, none) => .ok { state with pending := some (setting, some text) }
    | _ => .error .unknown

/-- The state after all words. -/
def State.read (state : State) : List Word → Except UsageStop State
  | [] => state.settle
  | .terminator :: [] => state.settle
  | .terminator :: _ :: _ => .error .unknown
  | word :: rest => do (← state.step word).read rest

/-- The arguments, once all words are read. -/
def ofState (state : State) : Except UsageStop Arguments :=
  match state.settings.lookup .input with
  | none => .error .missingRequired
  | some input => .ok
    { input
      config := state.settings.lookup .config
      reportDir := state.settings.lookup .reportDir
      baseline := state.settings.lookup .baseline
      projectName := state.settings.lookup .projectName
      output := state.settings.lookup .output
      quiet := state.flags.contains .quiet
      timing := state.flags.contains .timing }

/-- The arguments of a command line without the program's name. -/
def parse (words : List String) : Except UsageStop Arguments := do
  ofState (← State.read ⟨[], [], none⟩ (words.map Word.ofString))

end Arguments
end MemberAudit
