import RegisterMachine.Numeral
import RegisterMachine.Source.Token

/-!
# From characters to tokens

Text is scanned line by line. Blanks part tokens and mean nothing else, and a `#` starts a comment
that runs to the end of its line. Every token is as long as it can be.

* `scanToken` — the token at the start of a text, its spelling and what comes after it.
* `scanLine` — the tokens of one line with their places.
* `tokenize` — the tokens of a whole text, with a token for every line end and one for its end.

Principal result: `append_of_scanToken` — a token's spelling and what comes after it are the text.
-/

set_option autoImplicit false

namespace RegisterMachine.Source

/-- Characters that part tokens inside a line. -/
def isBlank (c : Char) : Bool := c == ' ' || c == '\t' || c == '\r'

/-- Characters that a word may go on with. -/
def isWordChar (c : Char) : Bool := c.isAlphanum || c == '_'

def keywords : List (String × Token) :=
  [("if", .ifWord), ("goto", .gotoWord), ("else", .elseWord), ("stop", .stopWord)]

/-- A token at the start of a text. -/
structure Scanned where
  token : Token
  spelling : List Char
  rest : List Char
  deriving DecidableEq, Repr

def numberToken (make : Int → Token) (digits : List Char) : Except Fault Token :=
  match Numeral.ofDigits? Numeral.maxWord digits with
  | some n => .ok (make n)
  | none => .error (.numberOutOfRange (String.ofList digits))

def wordToken (word : List Char) : Except Fault Token :=
  match keywords.lookup (String.ofList word) with
  | some token => .ok token
  | none => .error (.unknownWord (String.ofList word))

/-- The token at the start of the text `c :: cs`, where `c` is neither blank nor the start of a
comment. -/
def scanToken (c : Char) (cs : List Char) : Except Fault Scanned :=
  match c with
  | '.' => .ok ⟨.dot, [c], cs⟩
  | '+' => .ok ⟨.plus, [c], cs⟩
  | '-' => .ok ⟨.minus, [c], cs⟩
  | '=' =>
      match cs with
      | '=' :: rest => .ok ⟨.equal, ['=', '='], rest⟩
      | _ => .ok ⟨.assign, [c], cs⟩
  | _ =>
      if c == 'x' && cs.head?.any Char.isDigit then do
        let digits := cs.takeWhile Char.isDigit
        return ⟨← numberToken .register digits, c :: digits, cs.dropWhile Char.isDigit⟩
      else if c.isDigit then do
        let digits := c :: cs.takeWhile Char.isDigit
        return ⟨← numberToken .int digits, digits, cs.dropWhile Char.isDigit⟩
      else if c.isAlpha then do
        let word := c :: cs.takeWhile isWordChar
        return ⟨← wordToken word, word, cs.dropWhile isWordChar⟩
      else .error (.unexpectedCharacter c)

/-- Nothing is lost between a token and what comes after it. -/
theorem append_of_scanToken {c : Char} {cs : List Char} {s : Scanned} (h : scanToken c cs = .ok s) :
    s.spelling ++ s.rest = c :: cs ∧ s.spelling ≠ [] := by
  unfold scanToken at h
  split at h
  · cases h; simp
  · cases h; simp
  · cases h; simp
  · split at h <;> cases h <;> simp
  · split at h
    · simp only [bind, Except.bind] at h
      split at h <;> cases h
      simp [List.takeWhile_append_dropWhile]
    · split at h
      · simp only [bind, Except.bind] at h
        split at h <;> cases h
        simp [List.takeWhile_append_dropWhile]
      · split at h
        · simp only [bind, Except.bind] at h
          split at h <;> cases h
          simp [List.takeWhile_append_dropWhile]
        · cases h

/-- A token takes at least one character. -/
theorem length_rest_of_scanToken {c : Char} {cs : List Char} {s : Scanned}
    (h : scanToken c cs = .ok s) : s.rest.length ≤ cs.length := by
  obtain ⟨happ, hne⟩ := append_of_scanToken h
  have hlen := congrArg List.length happ
  have hpos := List.length_pos_iff.2 hne
  simp at hlen
  omega

/-- The tokens of what is left of a line, of which the next character is at `column`. -/
def scanFrom (line column : Nat) (text : List Char) : Except ParseError (List Lexeme) :=
  match text with
  | [] => .ok []
  | c :: cs =>
      if isBlank c then scanFrom line (column + 1) cs
      else if c == '#' then .ok []
      else
        match _h : scanToken c cs with
        | .error fault => .error ⟨⟨line, column⟩, fault⟩
        | .ok s => do
            let others ← scanFrom line (column + s.spelling.length) s.rest
            return ⟨s.token, ⟨line, column⟩⟩ :: others
termination_by text.length
decreasing_by
  · simp
  · have := length_rest_of_scanToken _h
    simp
    omega

def scanLine (line : Nat) (text : List Char) : Except ParseError (List Lexeme) :=
  scanFrom line 1 text

/-- The tokens of consecutive lines, the first of which has number `line`. -/
def scanLines (line : Nat) : List (List Char) → Except ParseError (List Lexeme)
  | [] => .ok []
  | [text] => do
      let here ← scanLine line text
      return here ++ [⟨.endOfInput, ⟨line, text.length + 1⟩⟩]
  | text :: more => do
      let here ← scanLine line text
      let others ← scanLines (line + 1) more
      return here ++ ⟨.newline, ⟨line, text.length + 1⟩⟩ :: others

/-- The lines of a text; there is one more than it has line feeds. -/
def linesOf (source : String) : List (List Char) := source.toList.splitOn '\n'

def tokenize (source : String) : Except ParseError (List Lexeme) := scanLines 1 (linesOf source)

end RegisterMachine.Source
