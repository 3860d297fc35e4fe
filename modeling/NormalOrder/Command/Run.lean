/- Running a source from its bytes to its output. -/
import NormalOrder.Command.Arguments
import NormalOrder.Program.Execute
import NormalOrder.Program.Source

namespace NormalOrder.Command

inductive SourceError
  | noSuchFile
  | isDirectory
  | invalidText
  | other (reason : String)
deriving DecidableEq

inductive RunError
  | source (cause : SourceError)
  | parse (cause : ParseError)
  | execution (cause : LineHalt)
deriving DecidableEq

def SourceError.message : SourceError → String
  | noSuchFile => "No such file or directory (os error 2)"
  | isDirectory => "Is a directory (os error 21)"
  | invalidText => "stream did not contain valid UTF-8"
  | other reason => reason

def RunError.message : RunError → String
  | source cause =>
    let cause := cause.message
    s!"Input file error: {cause}"
  | parse cause =>
    let cause := cause.message
    s!"Parse error: {cause}"
  | execution cause =>
    let cause := cause.message
    s!"Execution error: {cause}"

def parseProgram (text : String) : Telling ParseError Program := do
  match Program.parse text with
  | .ok program =>
    Telling.tell (.parsed program.length)
    return program
  | .error e => throw e

/-- The output of a program text: its values, as outlines if asked. -/
def runText (fuel : Nat) (limits : Limits) (tree : Bool) (text : String) :
    Telling RunError String := do
  let program ← (parseProgram text).mapError .parse
  let values ← (program.execute fuel limits).mapError .execution
  return if tree then Program.outlineValues values else Program.inlineValues values

/-- The output of a source of which the bytes are known, or why they are not. -/
def runSource (fuel : Nat) (settings : Settings) (source : Except SourceError ByteArray) :
    Telling RunError String := do
  match source with
  | .error e => throw (.source e)
  | .ok bytes =>
    match String.fromUTF8? bytes with
    | none => throw (.source .invalidText)
    | some text =>
      Telling.tell (.running bytes.size)
      runText fuel settings.limits settings.tree text

structure Exit where
  code : Nat
  output : String
  complaint : Option String

/-- The end of a run: its output is a line more, and its error goes to standard error. -/
def Exit.ofRun : Except RunError String → Exit
  | .ok output => ⟨0, output ++ "\n", none⟩
  | .error e => ⟨1, "", some e.message⟩

def help : String :=
  "\n".intercalate
    ["Reduces the terms of a λ-calculus program to normal form.",
      "",
      "Options:",
      "  -s, --src-filepath <PATH>  the program; standard input without it",
      "      --max-steps <COUNT>    the most steps of a reduction, 0 for no bound",
      "      --max-depth <COUNT>    the deepest nesting of a reduction",
      "  -t, --tree                 print values as outlines",
      "  -v, --verbose              tell what happens",
      "  -h, --help                 print this",
      "  -V, --version              print the version",
      ""]

def version : String := "normal-order 0.1.0\n"

def Refusal.message : Refusal → String
  | unknown => "unexpected argument"
  | missingValue => "a value is required"
  | invalidValue => "not a number of 64 bits"
  | repeated => "given more than once"
  | unwantedValue => "no value expected"
  | .help => Command.help
  | .version => Command.version

/-- The end after refused arguments: help and version are output, all else an error of usage. -/
def Exit.ofRefusal : Refusal → Exit
  | .help => ⟨0, help, none⟩
  | .version => ⟨0, version, none⟩
  | refusal => ⟨2, "", some refusal.message⟩

end NormalOrder.Command
