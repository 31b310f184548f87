import EntityScript.Number

/-!
The options of the interpreter, as written in an options file. A line is blank, a comment, a
setting, or malformed; the first malformed line refuses the whole file. Of several settings of one
option the last one counts, and a value that cannot be read sets the option back to its default.
-/

namespace EntityScript

structure Config where
  timerPoolSize : Nat := 512
  maxGlobals : Nat := 1024
  maxLocals : Nat := 256
  maxCallDepth : Nat := 64
  maxSteps : Nat := 10000
  /-- Comparisons of numbers by an operator for texts hold. -/
  legacyOperators : Bool := true
  seed : Option Nat := none
  logLevel : String := "info"
deriving DecidableEq, Repr

structure ConfigError where
  line : Nat
  text : String
deriving DecidableEq, Repr

namespace ConfigError

def message (e : ConfigError) : String :=
  s!"Invalid config line {e.line}: expected key = value, got \"{e.text}\""

/-- The message where errors of several kinds are shown together. -/
def labelledMessage (e : ConfigError) : String := s!"Configuration error: {e.message}"

end ConfigError

inductive OptionLine
  | skipped
  | setting (key value : String)
  | malformed (text : String)
deriving DecidableEq, Repr

/-- Reads a line. The key ends at the first equals sign. -/
def OptionLine.read (line : List Char) : OptionLine :=
  let line := Text.trim line
  if line.isEmpty || line.head? == some '#' then .skipped
  else
    match line.dropWhile (· != '=') with
    | [] => .malformed (String.ofList line)
    | _ :: value =>
      .setting (String.ofList (Text.trim (line.takeWhile (· != '='))))
        (String.ofList (Text.trim value))

def readSwitch? : String → Option Bool
  | "true" => some true
  | "false" => some false
  | _ => none

namespace Config

/-- The options after one setting. Unknown keys change nothing. -/
def apply (c : Config) (key value : String) : Config :=
  let defaults : Config := {}
  match key with
  | "timer_pool_size" =>
    { c with timerPoolSize := (Number.parseUnsigned? value).getD defaults.timerPoolSize }
  | "max_global_variables" =>
    { c with maxGlobals := (Number.parseUnsigned? value).getD defaults.maxGlobals }
  | "max_local_variables" => { c with maxLocals := (Number.parseUnsigned? value).getD defaults.maxLocals }
  | "max_call_depth" => { c with maxCallDepth := (Number.parseUnsigned? value).getD defaults.maxCallDepth }
  | "max_steps_per_event" => { c with maxSteps := (Number.parseUnsigned? value).getD defaults.maxSteps }
  | "legacy_operator_defaults" =>
    { c with legacyOperators := (readSwitch? value).getD defaults.legacyOperators }
  | "rng_seed" => { c with seed := Number.parseUnsigned? value }
  | "log_level" => { c with logLevel := Text.lowercase value }
  | _ => c

def applyLines (c : Config) (number : Nat) : List (List Char) → Except ConfigError Config
  | [] => .ok c
  | line :: rest =>
    match OptionLine.read line with
    | .skipped => applyLines c (number + 1) rest
    | .setting key value => applyLines (c.apply key value) (number + 1) rest
    | .malformed text => .error ⟨number, text⟩

def parse (text : String) : Except ConfigError Config :=
  applyLines {} 1 (Text.lines text.toList)

def describe (c : Config) : List String :=
  [ "Interpreter configuration:",
    s!"    Timer pool: {c.timerPoolSize} slots",
    s!"    Variables: {c.maxGlobals} global / {c.maxLocals} local",
    s!"    Call depth: {c.maxCallDepth}",
    s!"    Steps per event: {c.maxSteps}",
    s!"    Legacy operator defaults: {c.legacyOperators}",
    match c.seed with
    | some seed => s!"    RNG seed: {seed}"
    | none => "    RNG seed: (entropy)",
    s!"    Log level: {c.logLevel}" ]

end Config

end EntityScript
