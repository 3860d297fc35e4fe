/- The arguments of the command line. -/
import NormalOrder.Decimal.Digits
import NormalOrder.Reduction.Basic

namespace NormalOrder.Command

structure Settings where
  sourcePath : Option String := none
  maxSteps : Nat := 1000000
  maxDepth : Nat := 512
  tree : Bool := false
  verbose : Bool := false
deriving DecidableEq

def Settings.limits (settings : Settings) : Limits where
  maxSteps := if settings.maxSteps = 0 then none else some settings.maxSteps
  maxDepth := settings.maxDepth

/-- Why arguments are not accepted. -/
inductive Refusal
  | unknown
  | missingValue
  | invalidValue
  | repeated
  | unwantedValue
  | help
  | version
deriving DecidableEq

inductive Key
  | sourcePath
  | maxSteps
  | maxDepth
deriving DecidableEq

inductive Switch
  | tree
  | verbose
  | help
  | version
deriving DecidableEq

/-- What a word or a letter behind dashes means. -/
inductive Meaning
  | key (key : Key)
  | switch (switch : Switch)
deriving DecidableEq

def Meaning.ofWord? : List Char → Option Meaning := fun word =>
  match String.ofList word with
  | "src-filepath" => some (.key .sourcePath)
  | "max-steps" => some (.key .maxSteps)
  | "max-depth" => some (.key .maxDepth)
  | "tree" => some (.switch .tree)
  | "verbose" => some (.switch .verbose)
  | "help" => some (.switch .help)
  | "version" => some (.switch .version)
  | _ => none

def Meaning.ofLetter? : Char → Option Meaning
  | 's' => some (.key .sourcePath)
  | 't' => some (.switch .tree)
  | 'v' => some (.switch .verbose)
  | 'h' => some (.switch .help)
  | 'V' => some (.switch .version)
  | _ => none

/-- The largest number that an option takes: the largest of 64 bits. -/
def largestCount : Nat := 18446744073709551615

/-- A number as the value of an option: digits, perhaps behind a plus. -/
def count? (text : List Char) : Option Nat :=
  let ds := match text with
    | '+' :: more => more
    | _ => text
  if !ds.isEmpty && ds.all Char.isDigit && Decimal.value ds ≤ largestCount then
    some (Decimal.value ds)
  else none

/-- An option whose value is not taken in yet. That happens when the next option or switch comes,
or after the last argument. -/
structure Pending where
  key : Key
  value : Option (List Char)

structure Progress where
  sourcePath : Option String := none
  maxSteps : Option Nat := none
  maxDepth : Option Nat := none
  tree : Bool := false
  verbose : Bool := false
  pending : Option Pending := none
  /-- Whether a bare `--` has ended the options. -/
  ended : Bool := false

namespace Progress

def assign (p : Progress) (key : Key) (value : List Char) : Except Refusal Progress :=
  match key with
  | .sourcePath =>
    if p.sourcePath.isSome then .error .repeated
    else .ok { p with sourcePath := some (String.ofList value) }
  | .maxSteps =>
    if p.maxSteps.isSome then .error .repeated
    else
      match count? value with
      | some n => .ok { p with maxSteps := some n }
      | none => .error .invalidValue
  | .maxDepth =>
    if p.maxDepth.isSome then .error .repeated
    else
      match count? value with
      | some n => .ok { p with maxDepth := some n }
      | none => .error .invalidValue

def settle (p : Progress) : Except Refusal Progress :=
  match p.pending with
  | none => .ok p
  | some ⟨_, none⟩ => .error .missingValue
  | some ⟨key, some value⟩ => assign { p with pending := none } key value

def turnOn (p : Progress) (switch : Switch) : Except Refusal Progress := do
  let p ← p.settle
  match switch with
  | .tree => if p.tree then throw .repeated else return { p with tree := true }
  | .verbose => if p.verbose then throw .repeated else return { p with verbose := true }
  | .help => throw .help
  | .version => throw .version

/-- Takes in an option, after what is pending. Without a value of its own it waits for one. -/
def take (p : Progress) (key : Key) (value : Option (List Char)) : Except Refusal Progress := do
  let p ← p.settle
  match value with
  | some value => p.assign key value
  | none => return { p with pending := some ⟨key, none⟩ }

def readWord (p : Progress) (text : List Char) : Except Refusal Progress :=
  let word := text.takeWhile (· ≠ '=')
  let value := if word.length < text.length then some (text.drop (word.length + 1)) else none
  match Meaning.ofWord? word with
  | some (.key key) => p.take key value
  | some (.switch switch) => if value.isSome then .error .unwantedValue else p.turnOn switch
  | none => .error .unknown

/-- Reads letters behind one dash. What follows the letter of an option is its value, with or
without an equals sign. -/
def readLetters (p : Progress) : List Char → Except Refusal Progress
  | [] => .ok p
  | c :: text =>
    match Meaning.ofLetter? c with
    | some (.switch switch) => p.turnOn switch >>= fun p => p.readLetters text
    | some (.key key) =>
      match text with
      | [] => p.take key none
      | '=' :: value => p.take key (some value)
      | value => p.take key (some value)
    | none => .error .unknown

def readValue (p : Progress) (text : List Char) : Except Refusal Progress :=
  match p.pending with
  | some ⟨key, none⟩ => .ok { p with pending := some ⟨key, some text⟩ }
  | _ => .error .unknown

/-- Reads an argument. A single dash is a value like any other. -/
def read (p : Progress) (argument : String) : Except Refusal Progress :=
  if p.ended then .error .unknown
  else
    match argument.toList with
    | ['-', '-'] => .ok { p with ended := true }
    | '-' :: '-' :: text => p.readWord text
    | '-' :: c :: text => p.readLetters (c :: text)
    | text => p.readValue text

def settings (p : Progress) : Settings :=
  let default : Settings := {}
  { sourcePath := p.sourcePath
    maxSteps := p.maxSteps.getD default.maxSteps
    maxDepth := p.maxDepth.getD default.maxDepth
    tree := p.tree
    verbose := p.verbose }

end Progress

def Settings.ofArguments (arguments : List String) : Except Refusal Settings := do
  let read ← arguments.foldlM Progress.read {}
  let settled ← read.settle
  return settled.settings

end NormalOrder.Command
