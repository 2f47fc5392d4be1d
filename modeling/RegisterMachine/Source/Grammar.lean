import RegisterMachine.Source.Scan
import RegisterMachine.Program

/-!
# From tokens to instructions

A line is empty or holds one instruction:

```text
L. xR = V
L. xR = xR + 1
L. xR = xR - 1
L. xD = xS
L. if xR == 0 goto T else goto F
L. stop
```

A value may have a minus sign; whether that makes an instruction is for the draft to say. The first
token that does not fit is reported where it stands. A rule that a number breaks is reported at the
token after the number, and unusable numbers at the start of their line.

* `Cursor`, `Reader` — the tokens of a line that are still to be read.
* `Reader.draft`, `Reader.instruction` — one line, up to its last token and to its end.
* `parseLine` — the instruction of a line, if there is one.
* `parseLexemes`, `parse`, `parseOne` — the instructions of a token list, of a text, and the only
  instruction of a text.
* `Program.parse` — the program that a text describes.
-/

set_option autoImplicit false

namespace RegisterMachine.Source

/-- What is left of a line, and the place of the last token read. -/
structure Cursor where
  last : Position
  rest : List Lexeme
  deriving DecidableEq, Repr

namespace Cursor

def peek (c : Cursor) : Option Token := c.rest.head?.map Lexeme.token

/-- Where the next token stands; past the end of the list, where the last one stood. -/
def position (c : Cursor) : Position := (c.rest.head?.map Lexeme.position).getD c.last

def advance (c : Cursor) : Cursor :=
  match c.rest with
  | [] => c
  | lexeme :: rest => ⟨lexeme.position, rest⟩

end Cursor

abbrev Reader := StateT Cursor (Except ParseError)

namespace Reader

variable {α : Type}

/-- A mistake at the place of the next token. -/
def fail (fault : Fault) : Reader α := do throw ⟨(← get).position, fault⟩

def unexpected (what : Expectation) : Reader α := do fail (.expected what (← get).peek)

def peek : Reader (Option Token) := do return (← get).peek

def skip : Reader Unit := modify Cursor.advance

def token (t : Token) (what : Expectation) : Reader Unit := do
  if (← peek) = some t then skip else unexpected what

def int (what : Expectation) : Reader Int := do
  match ← peek with
  | some (.int n) => skip; return n
  | _ => unexpected what

def register : Reader Int := do
  match ← peek with
  | some (.register n) => skip; return n
  | _ => unexpected .register

/-- Reads what comes after `if`. -/
def branch (label : Int) : Reader Draft := do
  let tested ← register
  token .equal .equal
  if (← int .zero) ≠ 0 then fail .testNotZero
  token .gotoWord .gotoWord
  let ifZero ← int .target
  token .elseWord .elseWord
  token .gotoWord .gotoWord
  let otherwise ← int .target
  return .branch label tested ifZero otherwise

/-- Reads what comes after `xD = xS`: a change by one, or nothing. -/
def update (label dest source : Int) : Reader Draft := do
  match ← peek with
  | some .plus => step (.increment label dest)
  | some .minus => step (.decrement label dest)
  | _ => return .copy label dest source
where
  /-- Reads a sign and the number 1 in a line that describes `result`. -/
  step (result : Draft) : Reader Draft := do
    skip
    if (← int .one) ≠ 1 then fail .changeNotOne
    if source ≠ dest then fail (.foreignUpdate dest source)
    return result

def assignment (label : Int) : Reader Draft := do
  let dest ← register
  token .assign .assign
  match ← peek with
  | some (.int _) => return .set label dest (← int .value)
  | some .minus => skip; return .set label dest (-(← int .value))
  | some (.register _) => update label dest (← register)
  | _ => unexpected .valueOrRegister

def draft : Reader Draft := do
  let label ← int .label
  token .dot .dotAfterLabel
  match ← peek with
  | some .stopWord => skip; return .stop label
  | some .ifWord => skip; branch label
  | some (.register _) => assignment label
  | _ => unexpected .instruction

/-- Makes sure that the line is at its end. -/
def lineEnd : Reader Unit := do
  match ← peek with
  | none => return
  | some t => if t.endsLine then return else unexpected .endOfLine

def instruction (start : Position) : Reader Instruction := do
  let d ← draft
  match d.build with
  | .error cause => throw ⟨start, .illegal cause⟩
  | .ok i => lineEnd; return i

end Reader

/-- The instruction of a line, given with the token that ends it; `none` for an empty line. -/
def parseLine (line : List Lexeme) : Except ParseError (Option Instruction) :=
  match line with
  | [] => .ok none
  | first :: _ =>
      if first.token.endsLine then .ok none
      else do
        let (i, _) ← (Reader.instruction first.position).run ⟨first.position, line⟩
        return some i

/-- The lines of a token list, each with the token that ends it. Nothing after the first end of
input counts. -/
def splitLines (lexemes : List Lexeme) : List (List Lexeme) :=
  lexemes.foldr
    (fun x lines =>
      match x.token with
      | .endOfInput => [[x]]
      | .newline => [x] :: lines
      | _ =>
          match lines with
          | [] => [[x]]
          | line :: more => (x :: line) :: more)
    []

def parseLexemes (lexemes : List Lexeme) : Except ParseError (List Instruction) := do
  let parsed ← (splitLines lexemes).mapM parseLine
  return parsed.reduceOption

/-- The instructions of a text. All of it is scanned before any line is read. -/
def parse (source : String) : Except ParseError (List Instruction) := do
  parseLexemes (← tokenize source)

/-- The instruction of a text that holds exactly one. -/
def parseOne (source : String) : Except ParseError Instruction := do
  match ← parse source with
  | [i] => return i
  | is => throw ⟨⟨1, 1⟩, .instructionCount is.length⟩

end RegisterMachine.Source

namespace RegisterMachine

def Program.parse (source : String) : Except Source.ParseError Program := do
  return .ofList (← Source.parse source)

end RegisterMachine
