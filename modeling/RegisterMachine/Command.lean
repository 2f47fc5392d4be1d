import RegisterMachine.Command.Directory
import RegisterMachine.Failure
import RegisterMachine.Goedel.Program
import RegisterMachine.Machine
import RegisterMachine.Program.Listing
import RegisterMachine.Source.Grammar

/-!
# The command line

Arguments that are flags may stand anywhere; the others are a file and the inputs of a run, or the
numbers to decode.

* `Request.ofArgs` — what a command line asks for.
* `wantedFile?` — the file that it needs.
* `Outcome` — exit code and the two texts that a command writes.
* `answer` — what a command line leads to, given how files are read, within a budget of turns.
-/

set_option autoImplicit false

namespace RegisterMachine.Command

/-- What a file of program text is wanted for. -/
structure FileRequest where
  file : String
  inputs : List String
  listing : Bool
  encode : Bool
  deriving DecidableEq, Repr

/-- What a command line asks for. -/
inductive Request where
  | help
  | nothing
  | decode (numbers : List String)
  | program (request : FileRequest)
  deriving DecidableEq, Repr

structure Outcome where
  exit : Nat
  stdout : String
  stderr : String
  deriving DecidableEq, Repr

/-- The arguments that are neither a file nor a number. Reports are not written here, so `--trace`
changes nothing. -/
def flags : List String := ["--encode", "--decode", "--listing", "--trace", "--help", "-h"]

def usage : String :=
  "URM - Unbounded Register Machine\n\nUsage:\n" ++
  "  urm <file.urm> [inputs...]      Run a program, x2.. = inputs, prints x1\n" ++
  "  urm --listing <file.urm>        Show the validated program\n" ++
  "  urm --encode <file.urm>         Print the program's Gödel numbers\n" ++
  "  urm --decode <n1> [n2...]       Rebuild a program from Gödel numbers\n" ++
  "  urm --trace <file.urm> [...]    Log every step (RUST_LOG=trace)\n" ++
  "  urm --help, -h                  Show this help\n"

/-- What the arguments ask for. Help wins over decoding, and decoding over everything else. -/
def Request.ofArgs (args : List String) : Request :=
  let positional := args.filter fun a => !flags.contains a
  if args.isEmpty || args.contains "--help" || args.contains "-h" then .help
  else if args.contains "--decode" then .decode positional
  else
    match positional with
    | [] => .nothing
    | file :: inputs =>
        .program
          { file, inputs
            listing := args.contains "--listing"
            encode := args.contains "--encode" }

def sourceExtension : String := "urm"

def isSource (path : String) : Bool := extension? path == some sourceExtension

def wantedFile? (args : List String) : Option String :=
  match Request.ofArgs args with
  | .program r => if isSource r.file then some r.file else none
  | _ => none

namespace Outcome

def success (stdout : String) : Outcome := ⟨0, stdout, ""⟩

def failure (stdout complaint : String) : Outcome := ⟨1, stdout, complaint ++ "\n"⟩

end Outcome

/-- The text with blanks after it, up to a width. -/
def column (width : Nat) (s : String) : String :=
  s ++ String.ofList (List.replicate (width - s.length) ' ')

def encodedLine (i : Instruction) (n : Nat) : String :=
  column 40 i.text ++ " " ++ Nat.repr n ++ "\n"

def encodedText (c : Goedel.Encoded) : String :=
  String.join (List.zipWith encodedLine c.program.instructions c.numbers)

/-- Reads all arguments, or gives the first that cannot be read. -/
def readAll (read : String → Option Nat) (args : List String) : Except String (List Nat) :=
  args.mapM fun a => match read a with
    | some n => .ok n
    | none => .error a

def decodeNumbers (args : List String) : Outcome :=
  match readAll number? args with
  | .error a => .failure "" s!"Error: '{a}' is not a natural number"
  | .ok numbers =>
      match Goedel.decodeProgram numbers with
      | .error e => .failure "" ("Decode error: " ++ e.message)
      | .ok p => .success (p.text ++ "\n")

/-- Runs a program after `shown` was written. -/
def runProgram (budget : Nat) (r : FileRequest) (p : Program) (shown : String) : Option Outcome :=
  match readAll input? r.inputs with
  | .error a => some (.failure shown s!"Error: input '{a}' is not a natural number")
  | .ok inputs =>
      match (Machine.new false).run budget p inputs with
      | .error e => some (.failure shown ("Runtime error: " ++ (Failure.validation e).message))
      | .ok none => none
      | .ok (some run) => some (.success (shown ++ run.line))

/-- Does what is asked with a program: shows it, encodes it or runs it. Only showing and encoding
check it first. -/
def useProgram (budget : Nat) (r : FileRequest) (p : Program) : Option Outcome :=
  if r.listing || r.encode then
    match p.validate with
    | .error e => some (.failure "" ("Validation error: " ++ e.message))
    | .ok v =>
        let shown := if r.listing then v.program.listing else ""
        if r.encode then
          match Goedel.encodeProgram v.program with
          | .error e => some (.failure shown ("Validation error: " ++ e.message))
          | .ok c => some (.success (shown ++ encodedText c))
        else runProgram budget r v.program shown
  else runProgram budget r p ""

def useFile (budget : Nat) (read : String → Except ReadFault String) (r : FileRequest) :
    Option Outcome :=
  if isSource r.file then
    match read r.file with
    | .error fault => some (.failure "" ("Failed to read '" ++ r.file ++ "': " ++ fault.message))
    | .ok source =>
        match Program.parse source with
        | .error e => some (.failure "" ("Parse error: " ++ r.file ++ ":" ++ e.message))
        | .ok p => useProgram budget r p
  else some (.failure "" ("Error: expected a .urm file, got " ++ r.file))

/-- What a command line leads to. The result is `none` if a run takes more turns than `budget`. -/
def answer (budget : Nat) (read : String → Except ReadFault String) (args : List String) :
    Option Outcome :=
  match Request.ofArgs args with
  | .help => some (.success usage)
  | .nothing => some ⟨1, usage, ""⟩
  | .decode numbers => some (decodeNumbers numbers)
  | .program r => useFile budget read r

end RegisterMachine.Command
