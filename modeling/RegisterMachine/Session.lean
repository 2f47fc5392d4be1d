import RegisterMachine.Bytes.Sequence
import RegisterMachine.Failure
import RegisterMachine.Goedel.Program
import RegisterMachine.Machine
import RegisterMachine.Program.Listing
import RegisterMachine.Source.Grammar

/-!
# Sessions: one program and one machine, worked on step by step

A session holds a program, a machine, and copies of programs under names. An action changes them and
gives a reply. An action that fails keeps what it changed before it failed.

* `Session` — the state; `Action` — what can be asked for; `Reply` — what is answered.
* `Session.perform` — one action, within a budget of turns for a run.
-/

set_option autoImplicit false

namespace RegisterMachine

/-- What is worked on. -/
structure Session where
  program : Program
  machine : Machine
  /-- The programs kept under names, the latest first. -/
  saved : List (String × Program)
  deriving Repr

/-- Nothing is there yet, and the machine does not trace. -/
def Session.new : Session := ⟨.empty, .new false, []⟩

inductive Action where
  | clear
  | newMachine (traced : Bool)
  | resetMachine (inputs : List Nat)
  | add (draft : Draft)
  | addText (text : String)
  | addTexts (texts : List String)
  /-- Builds and adds one draft after another, up to the first that cannot be built. -/
  | addDrafts (drafts : List Draft)
  /-- Builds all drafts, then adds all of them. -/
  | addBuilt (drafts : List Draft)
  | collect (drafts : List Draft)
  | parse (source : String)
  | decode (numbers : List Nat)
  | validate
  | run (inputs : List Nat)
  /-- Runs the program and writes its result to a place that may be limited to some bytes. -/
  | emit (inputs : List Nat) (capacity : Option Nat)
  | encode
  /-- Encodes the program, writes and reads the bytes of that, and takes the program decoded from
  it. -/
  | roundTrip
  | get (label : Nat)
  | text
  | listing
  | save (name : String)
  | load (name : String)
  | equals (name : String)
  deriving DecidableEq, Repr

inductive Reply where
  | done
  | terminal (label : Nat)
  | output (value : Nat)
  | emitted (value : Nat) (text : String)
  | numbers (ns : List Nat)
  | roundTrip (bytes : List UInt8) (equal : Bool)
  | found (i : Option Instruction)
  | text (s : String)
  | truth (b : Bool)
  /-- The one stage of the action failed. -/
  | refused (cause : Failure)
  /-- A stage of an action with several stages failed, so the stage matters. -/
  | failed (cause : Failure)
  deriving DecidableEq, Repr

structure Response where
  session : Session
  reply : Reply
  events : List Event
  deriving Repr

namespace Session

def lookup? (s : Session) (name : String) : Option Program := s.saved.lookup name

def answer (s : Session) (reply : Reply) : Response := ⟨s, reply, []⟩

def withProgram (s : Session) (p : Program) : Session := { s with program := p }

def adding {ε : Type} (s : Session) (fail : ε → Failure) (built : Except ε (List Instruction)) :
    Response :=
  match built with
  | .error e => s.answer (.refused (fail e))
  | .ok is => (s.withProgram (s.program.addAll is)).answer .done

def taking {ε : Type} (s : Session) (fail : ε → Failure) (made : Except ε Program) : Response :=
  match made with
  | .error e => s.answer (.refused (fail e))
  | .ok p => (s.withProgram p).answer .done

/-- Adds things one by one, up to the first that cannot be read. -/
def addingEach {α ε : Type} (s : Session) (fail : ε → Failure) (read : α → Except ε Instruction)
    (xs : List α) : Response :=
  let (p, error) := s.program.addEach read xs
  (s.withProgram p).answer ((error.map fun e => Reply.failed (fail e)).getD .done)

def validate (s : Session) : Response :=
  match s.program.validate with
  | .error e => s.answer (.refused (.validation e))
  | .ok v => ⟨s.withProgram v.program, .terminal v.terminal, v.events⟩

/-- Runs the program; `report` says how a failed check is answered and `finish` how a run is. -/
def running (budget : Nat) (s : Session) (inputs : List Nat) (report : Failure → Reply)
    (finish : Run → Reply) : Option Response :=
  match s.machine.run budget s.program inputs with
  | .error e => some (s.answer (report (.validation e)))
  | .ok none => none
  | .ok (some r) => some ⟨{ s with program := r.program, machine := r.machine }, finish r, r.events⟩

def emission (capacity : Option Nat) (r : Run) : Reply :=
  if capacity.any (· < r.line.utf8ByteSize) then .failed .output else .emitted r.output r.line

def encode (s : Session) : Response :=
  match Goedel.encodeProgram s.program with
  | .error e => s.answer (.refused (.validation e))
  | .ok c => ⟨s.withProgram c.program, .numbers c.numbers, c.events⟩

def decode (s : Session) (numbers : List Nat) : Response :=
  let (decoded, events) := Goedel.decodeReporting numbers
  { s.taking .decode decoded with events }

/-- Encodes the program to bytes and takes what is decoded from them. -/
def roundTrip (s : Session) : Response :=
  match Goedel.encodeProgram s.program with
  | .error e => s.answer (.refused (.validation e))
  | .ok c =>
      let s := s.withProgram c.program
      let bytes := Bytes.write c.numbers
      match Bytes.read bytes with
      | .error e => ⟨s, .failed (.serialization e), c.events⟩
      | .ok numbers =>
          match Goedel.decodeReporting numbers with
          | (.error e, events) => ⟨s, .failed (.decode e), c.events ++ events⟩
          | (.ok p, events) =>
              ⟨s.withProgram p, .roundTrip bytes (p == c.program), c.events ++ events⟩

/-- Performs one action. The result is `none` if a run takes more turns than `budget`. -/
def perform (budget : Nat) (s : Session) : Action → Option Response
  | .clear => some ((s.withProgram .empty).answer .done)
  | .newMachine traced => some ({ s with machine := .new traced }.answer .done)
  | .resetMachine inputs => some ({ s with machine := s.machine.reset inputs }.answer .done)
  | .add draft => some (s.adding .instruction (draft.build.map ([·])))
  | .addText text => some (s.adding .parse ((Source.parseOne text).map ([·])))
  | .addTexts texts => some (s.addingEach .parse Source.parseOne texts)
  | .addDrafts drafts => some (s.addingEach .instruction Draft.build drafts)
  | .addBuilt drafts => some (s.adding .instruction (drafts.mapM Draft.build))
  | .collect drafts => some (s.taking .instruction ((drafts.mapM Draft.build).map .ofList))
  | .parse source => some (s.taking .parse (Program.parse source))
  | .decode numbers => some (s.decode numbers)
  | .validate => some s.validate
  | .run inputs => s.running budget inputs .refused fun r => .output r.output
  | .emit inputs capacity => s.running budget inputs .failed (emission capacity)
  | .encode => some s.encode
  | .roundTrip => some s.roundTrip
  | .get label => some (s.answer (.found (s.program.get? label)))
  | .text => some (s.answer (.text s.program.text))
  | .listing => some (s.answer (.text s.program.listing))
  | .save name => some ({ s with saved := (name, s.program) :: s.saved }.answer .done)
  | .load name => some ((s.withProgram ((s.lookup? name).getD s.program)).answer .done)
  | .equals name => some (s.answer (.truth ((s.lookup? name).any (s.program == ·))))

end Session

end RegisterMachine
