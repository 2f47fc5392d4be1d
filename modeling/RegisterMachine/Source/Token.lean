import RegisterMachine.Draft

/-!
# Tokens of program text, and what can be wrong with it

* `Position` — line and column, both from 1; columns count characters.
* `Token`, `Lexeme` — a token, and a token where it stands.
* `Fault` — a mistake in program text; `ParseError` — a mistake and its place.
* `ParseError.message` — the report `line:column: mistake`.

Numbers in tokens are integers, so that a list of tokens made by hand may hold negative ones.
-/

set_option autoImplicit false

namespace RegisterMachine.Source

structure Position where
  line : Nat
  column : Nat
  deriving DecidableEq, Repr

inductive Token where
  | int (n : Int)
  /-- `x` and a number. -/
  | register (n : Int)
  | dot
  | assign
  | equal
  | plus
  | minus
  | ifWord
  | gotoWord
  | elseWord
  | stopWord
  | newline
  | endOfInput
  deriving DecidableEq, Repr

namespace Token

def shown : Token → String
  | int n => s!"'{n}'"
  | register n => s!"'x{n}'"
  | dot => "'.'"
  | assign => "'='"
  | equal => "'=='"
  | plus => "'+'"
  | minus => "'-'"
  | ifWord => "'if'"
  | gotoWord => "'goto'"
  | elseWord => "'else'"
  | stopWord => "'stop'"
  | newline => "end of line"
  | endOfInput => "end of input"

def endsLine : Token → Bool
  | newline | endOfInput => true
  | _ => false

end Token

structure Lexeme where
  token : Token
  position : Position
  deriving DecidableEq, Repr

/-- What a line needs at some point. -/
inductive Expectation where
  | label
  | dotAfterLabel
  | instruction
  | register
  | equal
  | zero
  | gotoWord
  | target
  | elseWord
  | assign
  | value
  | valueOrRegister
  | one
  | endOfLine
  deriving DecidableEq, Repr

def Expectation.text : Expectation → String
  | label => "label"
  | dotAfterLabel => "'.' after label"
  | instruction => "instruction"
  | register => "register"
  | equal => "'=='"
  | zero => "0"
  | gotoWord => "'goto'"
  | target => "target label"
  | elseWord => "'else'"
  | assign => "'='"
  | value => "value"
  | valueOrRegister => "value or register"
  | one => "1"
  | endOfLine => "end of line"

/-- A mistake in program text. -/
inductive Fault where
  | numberOutOfRange (digits : String)
  | unknownWord (word : String)
  | unexpectedCharacter (c : Char)
  /-- Another token than the one needed; `none` is the end of a list that no token ends. -/
  | expected (what : Expectation) (found : Option Token)
  | testNotZero
  | changeNotOne
  /-- A register gets the changed value of another one. -/
  | foreignUpdate (dest source : Int)
  /-- One instruction was asked for, and there are none or several. -/
  | instructionCount (found : Nat)
  | illegal (cause : InstructionError)
  deriving DecidableEq, Repr

def Fault.message : Fault → String
  | numberOutOfRange digits => s!"number '{digits}' is out of range"
  | unknownWord word => s!"unknown word '{word}'"
  | unexpectedCharacter c => s!"unexpected character '{c}'"
  | expected what found =>
      let needed := what.text
      let seen := (found.getD .endOfInput).shown
      s!"expected {needed}, found {seen}"
  | testNotZero => "branches can only test against 0"
  | changeNotOne => "registers can only change by 1"
  | foreignUpdate dest source => s!"x{dest} can only be updated from itself, found x{source}"
  | instructionCount found => s!"expected exactly one instruction, found {found}"
  | illegal cause => cause.message

structure ParseError where
  position : Position
  fault : Fault
  deriving DecidableEq, Repr

def ParseError.message (e : ParseError) : String :=
  let line := e.position.line
  let column := e.position.column
  let text := e.fault.message
  s!"{line}:{column}: {text}"

end RegisterMachine.Source
