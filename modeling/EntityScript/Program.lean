import EntityScript.Simulation

/-!
The program: its arguments name a script, an event and a file of options. The options are read before
the script. What goes wrong is reported with its causes, the outermost first.
-/

namespace EntityScript

inductive FileError
  | notFound
  | notDirectory
  | isDirectory
  | nameTooLong
  | notText
  | other (text : String)

def FileError.message : FileError → String
  | notFound => "No such file or directory (os error 2)"
  | notDirectory => "Not a directory (os error 20)"
  | isDirectory => "Is a directory (os error 21)"
  | nameTooLong => "File name too long (os error 36)"
  | notText => "stream did not contain valid UTF-8"
  | other text => text

inductive ProgramError
  | usage
  | unreadableOptions (path : String) (cause : FileError)
  | malformedOptions (path : String) (cause : ConfigError)
  | unreadableScript (path : String) (cause : FileError)

namespace ProgramError

def headline : ProgramError → String
  | usage => "usage: ember <script-file> [event] [config-file]"
  | unreadableOptions path _ | malformedOptions path _ => s!"loading config {path}"
  | unreadableScript path _ => s!"loading script {path}"

def causes : ProgramError → List String
  | usage => []
  | unreadableOptions path cause => [s!"Failed to read {path}: {cause.message}", cause.message]
  | malformedOptions _ cause => [cause.message]
  | unreadableScript _ cause => [s!"Failed to load script: {cause.message}", cause.message]

/-- A text whose further lines begin with `indent`. -/
def hang (indent : List Char) (text : String) : String :=
  String.ofList (text.toList.flatMap fun c => if c = '\n' then '\n' :: indent else [c])

/-- The causes as they are shown: one stands alone, and several are numbered. -/
def showCauses : List String → String
  | [] => ""
  | [cause] => "\n\nCaused by:\n    " ++ hang (List.replicate 4 ' ') cause
  | causes =>
    let numbered := causes.mapIdx fun i cause =>
      s!"\n    {i}: " ++ hang (List.replicate 7 ' ') cause
    "\n\nCaused by:" ++ String.join numbered

def message (e : ProgramError) : String := e.headline ++ showCauses e.causes

end ProgramError

structure Arguments where
  script : String
  event : String := "init"
  options : Option String := none
deriving DecidableEq, Repr

/-- The arguments by their places. Further ones do not count. -/
def Arguments.ofList? : List String → Option Arguments
  | [] => none
  | [script] => some { script }
  | [script, event] => some { script, event }
  | script :: event :: options :: _ => some { script, event, options }

namespace FilePath

/-- The last part of a path, unless the path ends in a directory that has no name of its own. -/
def fileName? (path : String) : Option String :=
  let parts := (Text.pieces (· == '/') path.toList).map String.ofList
  match (parts.filter fun part => part != "" && part != ".").getLast? with
  | some ".." => none
  | name => name

/-- A file name without its ending. A dot at the beginning begins no ending. -/
def stem (name : String) : String :=
  match name.toList.reverse.dropWhile (· != '.') with
  | [] => name
  | [_] => name
  | _ :: front => String.ofList front.reverse

end FilePath

/-- The text of a script file, one character for each byte. -/
def textOfBytes (bytes : ByteArray) : String :=
  String.ofList (bytes.toList.map fun b => Char.ofNat b.toNat)

def readOptions (path : String) : Except FileError ByteArray → Except ProgramError Config
  | .error cause => .error (.unreadableOptions path cause)
  | .ok bytes =>
    match String.fromUTF8? bytes with
    | none => .error (.unreadableOptions path .notText)
    | some text =>
      match Config.parse text with
      | .error cause => .error (.malformedOptions path cause)
      | .ok config => .ok config

def simulateFile (config : Config) (seed : Nat) (args : Arguments) :
    Except FileError ByteArray → Except ProgramError Report
  | .error cause => .error (.unreadableScript args.script cause)
  | .ok bytes =>
    let fileName := FilePath.fileName? args.script
    let script := Script.ofText (fileName.getD "") (textOfBytes bytes)
    let name := Text.lowercase ((fileName.map FilePath.stem).getD "entity")
    .ok (Report.simulate config seed args.script script name args.event)

/-- The program, given a way to read files and a seed for options that name none. -/
def program {m : Type → Type} [Monad m] (read : String → m (Except FileError ByteArray)) (seed : Nat)
    (arguments : List String) : m (Except ProgramError Report) := do
  match Arguments.ofList? arguments with
  | none => return .error .usage
  | some args =>
    let config ←
      match args.options with
      | none => pure (.ok {})
      | some path => readOptions path <$> read path
    match config with
    | .error e => return .error e
    | .ok config => simulateFile config seed args <$> read args.script

end EntityScript
