import RegisterMachine.Proofs.Phrases
import RegisterMachine.Proofs.Spelling

/-!
# Places only matter for complaints

Nothing that is read depends on where its tokens stand.  If the tokens of a text are moved, the same
is read, and a complaint is moved with the token that it is about.

* `Lexeme.moved f`, `ParseError.moved f`, `Cursor.moved f` — a token, a complaint and the rest of a
  line, with every place `p` changed to `f p`.
* `Reader.Moves f r` — in a moved line, `r` reads the same and its complaints are moved.  There is
  one rule for each of the readers that lines are read with.
* `Position.down k` — the place `k` lines further down; `scanLines_down` — a text that starts
  further down is scanned to the same tokens or the same complaint, further down.

Principal result: `parseLexemes_moved` — moved tokens are read as they were, and complaints about
them are moved.
-/

set_option autoImplicit false

namespace RegisterMachine.Source

variable {f : Position → Position}

/-- The token at its new place. -/
def Lexeme.moved (f : Position → Position) (x : Lexeme) : Lexeme := ⟨x.token, f x.position⟩

/-- The same complaint at its new place. -/
def ParseError.moved (f : Position → Position) (e : ParseError) : ParseError :=
  ⟨f e.position, e.fault⟩

/-- The cursor in the moved line. -/
def Cursor.moved (f : Position → Position) (c : Cursor) : Cursor :=
  ⟨f c.last, c.rest.map (Lexeme.moved f)⟩

namespace Cursor

theorem peek_moved (c : Cursor) : (c.moved f).peek = c.peek := by
  obtain ⟨last, rest⟩ := c
  cases rest <;> rfl

theorem position_moved (c : Cursor) : (c.moved f).position = f c.position := by
  obtain ⟨last, rest⟩ := c
  cases rest <;> rfl

theorem advance_moved (c : Cursor) : (c.moved f).advance = c.advance.moved f := by
  obtain ⟨last, rest⟩ := c
  cases rest <;> rfl

end Cursor

namespace Reader

variable {α β : Type} {what : Expectation}

/-- In a moved line, `r` reads the same, and its complaints are moved. -/
def Moves (f : Position → Position) (r : Reader α) : Prop :=
  ∀ c, r.run (c.moved f) =
    ((r.run c).map fun result => (result.1, result.2.moved f)).mapError (ParseError.moved f)

theorem moves_pure (a : α) : Moves f (pure a : Reader α) := fun _ => rfl

theorem Moves.bind {r : Reader β} {k : β → Reader α} (h : Moves f r) (hk : ∀ b, Moves f (k b)) :
    Moves f (r >>= k) := by
  intro c
  rw [StateT.run_bind, StateT.run_bind, h c]
  cases r.run c with
  | error e => rfl
  | ok result => exact hk result.1 result.2

/-- A complaint about the next token moves with it, and nothing is read behind it. -/
theorem moves_fail_bind (fault : Fault) (k : β → Reader α) : Moves f (fail fault >>= k) := by
  intro c
  show Except.error (⟨(c.moved f).position, fault⟩ : ParseError) = _
  rw [c.position_moved]
  rfl

theorem moves_unexpected : Moves f (unexpected what : Reader α) := by
  intro c
  show Except.error (⟨(c.moved f).position, .expected what (c.moved f).peek⟩ : ParseError) = _
  rw [c.position_moved, c.peek_moved]
  rfl

theorem moves_peek : Moves f peek := by
  intro c
  show Except.ok ((c.moved f).peek, c.moved f) = _
  rw [c.peek_moved]
  rfl

theorem moves_skip : Moves f skip := by
  intro c
  show Except.ok ((), (c.moved f).advance) = _
  rw [c.advance_moved]
  rfl

theorem moves_token {t : Token} : Moves f (token t what) := by
  refine moves_peek.bind fun found => ?_
  split
  · exact moves_skip
  · exact moves_unexpected

theorem moves_int : Moves f (int what) := by
  refine moves_peek.bind fun found => ?_
  split
  · exact moves_skip.bind fun _ => moves_pure _
  · exact moves_unexpected

theorem moves_register : Moves f register := by
  refine moves_peek.bind fun found => ?_
  split
  · exact moves_skip.bind fun _ => moves_pure _
  · exact moves_unexpected

theorem moves_branch (label : Int) : Moves f (branch label) := by
  refine moves_register.bind fun tested => moves_token.bind fun _ => moves_int.bind fun zero => ?_
  dsimp only
  split
  · exact moves_fail_bind _ _
  · refine moves_token.bind fun _ => moves_int.bind fun ifZero => moves_token.bind fun _ => ?_
    exact moves_token.bind fun _ => moves_int.bind fun otherwise => moves_pure _

theorem moves_step (dest source : Int) (result : Draft) :
    Moves f (update.step dest source result) := by
  refine moves_skip.bind fun _ => moves_int.bind fun one => ?_
  dsimp only
  split
  · exact moves_fail_bind _ _
  · split
    · exact moves_fail_bind _ _
    · exact moves_pure _

theorem moves_update (label dest source : Int) : Moves f (update label dest source) := by
  refine moves_peek.bind fun found => ?_
  split
  · exact moves_step dest source _
  · exact moves_step dest source _
  · exact moves_pure _

theorem moves_assignment (label : Int) : Moves f (assignment label) := by
  refine moves_register.bind fun dest => moves_token.bind fun _ => moves_peek.bind fun found => ?_
  split
  · exact moves_int.bind fun value => moves_pure _
  · exact moves_skip.bind fun _ => moves_int.bind fun value => moves_pure _
  · exact moves_register.bind fun source => moves_update label dest source
  · exact moves_unexpected

theorem moves_draft : Moves f draft := by
  refine moves_int.bind fun label => moves_token.bind fun _ => moves_peek.bind fun found => ?_
  split
  · exact moves_skip.bind fun _ => moves_pure _
  · exact moves_skip.bind fun _ => moves_branch label
  · exact moves_assignment label
  · exact moves_unexpected

theorem moves_lineEnd : Moves f lineEnd := by
  refine moves_peek.bind fun found => ?_
  split
  · exact moves_pure _
  · split
    · exact moves_pure _
    · exact moves_unexpected

/-- An instruction in a moved line, whose start moved as well. -/
theorem run_instruction_moved (start : Position) (c : Cursor) :
    (instruction (f start)).run (c.moved f) =
      (((instruction start).run c).map fun result => (result.1, result.2.moved f)).mapError
        (ParseError.moved f) := by
  rw [instruction, StateT.run_bind, moves_draft c, instruction, StateT.run_bind]
  cases draft.run c with
  | error e => rfl
  | ok result =>
    obtain ⟨d, c'⟩ := result
    dsimp only [Except.map, Except.mapError, ok_bind]
    cases d.build with
    | error cause => rfl
    | ok i => exact (moves_lineEnd.bind fun _ => moves_pure i) c'

end Reader

/-! ## Lines and lists -/

theorem parseLine_moved (line : List Lexeme) :
    parseLine (line.map (Lexeme.moved f)) = (parseLine line).mapError (ParseError.moved f) := by
  cases line with
  | nil => rfl
  | cons first more =>
    by_cases hfirst : first.token.endsLine = true
    · have hmoved : parseLine ((first :: more).map (Lexeme.moved f)) = .ok none := if_pos hfirst
      have hline : parseLine (first :: more) = .ok none := if_pos hfirst
      rw [hmoved, hline]
      rfl
    · have hmoved : parseLine ((first :: more).map (Lexeme.moved f)) =
          (Reader.instruction (f first.position)).run
            (Cursor.moved f ⟨first.position, first :: more⟩) >>=
            fun result => .ok (some result.1) := if_neg hfirst
      have hline : parseLine (first :: more) =
          (Reader.instruction first.position).run ⟨first.position, first :: more⟩ >>=
            fun result => .ok (some result.1) := if_neg hfirst
      rw [hmoved, hline, Reader.run_instruction_moved]
      cases (Reader.instruction first.position).run ⟨first.position, first :: more⟩ <;> rfl

theorem splitLines_moved (lexemes : List Lexeme) :
    splitLines (lexemes.map (Lexeme.moved f)) =
      (splitLines lexemes).map (List.map (Lexeme.moved f)) := by
  induction lexemes with
  | nil => rfl
  | cons x xs ih =>
    cases hx : x.token.endsLine with
    | false =>
      have hmoved : (Lexeme.moved f x).token.endsLine = false := hx
      rw [List.map_cons, splitLines_cons hmoved, splitLines_cons hx, ih]
      cases splitLines xs <;> rfl
    | true =>
      obtain ⟨t, position⟩ := x
      cases t with
      | newline => exact congrArg ([Lexeme.moved f ⟨.newline, position⟩] :: ·) ih
      | endOfInput => rfl
      | _ => cases hx

/-- Complaints may be changed before or after all elements were read. -/
theorem mapM_mapError {α β ε ε' : Type} (g : ε → ε') (read : α → Except ε β) (xs : List α) :
    xs.mapM (fun x => (read x).mapError g) = (xs.mapM read).mapError g := by
  induction xs with
  | nil => rfl
  | cons x xs ih =>
    rw [List.mapM_cons, List.mapM_cons, ih]
    cases read x with
    | error e => rfl
    | ok y => cases xs.mapM read <;> rfl

/-- **Moved tokens are read as they were,** and complaints about them are moved. -/
theorem parseLexemes_moved (lexemes : List Lexeme) :
    parseLexemes (lexemes.map (Lexeme.moved f)) =
      (parseLexemes lexemes).mapError (ParseError.moved f) := by
  have hlines : ((splitLines lexemes).map (List.map (Lexeme.moved f))).mapM parseLine =
      ((splitLines lexemes).mapM parseLine).mapError (ParseError.moved f) := by
    rw [List.mapM_map, ← mapM_mapError]
    exact congrArg (fun read => List.mapM read _) (funext parseLine_moved)
  rw [parseLexemes, splitLines_moved, hlines, parseLexemes]
  cases (splitLines lexemes).mapM parseLine <;> rfl

/-! ## Scanning further down -/

/-- The place `k` lines further down. -/
def Position.down (k : Nat) (p : Position) : Position := ⟨p.line + k, p.column⟩

/-- The same tokens or the same complaint, `k` lines further down. -/
def scannedDown (k : Nat) (scanned : Except ParseError (List Lexeme)) :
    Except ParseError (List Lexeme) :=
  (scanned.map (List.map (Lexeme.moved (Position.down k)))).mapError
    (ParseError.moved (Position.down k))

theorem scanFrom_down (k line column : Nat) (text : List Char) :
    scanFrom (line + k) column text = scannedDown k (scanFrom line column text) := by
  fun_induction scanFrom line column text with
  | case1 => exact scanFrom_nil
  | case2 column c cs hc ih => rw [scanFrom_blank hc, ih]
  | case3 column c cs hc hcomment =>
    rw [beq_iff_eq.1 hcomment]
    exact scanFrom_comment
  | case4 column c cs hc hcomment fault hscan =>
    rw [scanFrom_cons (by simpa using hc) (by simpa using hcomment), hscan]
    rfl
  | case5 column c cs hc hcomment s hscan ih =>
    rw [scanFrom_cons (by simpa using hc) (by simpa using hcomment), hscan]
    dsimp only
    rw [ih]
    cases scanFrom line (column + s.spelling.length) s.rest <;> rfl

theorem scanLines_singleton (line : Nat) (text : List Char) :
    scanLines line [text] =
      (scanLine line text).map (· ++ [⟨.endOfInput, ⟨line, text.length + 1⟩⟩]) := by
  rw [scanLines]
  cases scanLine line text <;> rfl

theorem scanLines_cons {texts : List (List Char)} (hne : texts ≠ []) (line : Nat)
    (text : List Char) :
    scanLines line (text :: texts) = do
      let here ← scanLine line text
      let others ← scanLines (line + 1) texts
      return here ++ ⟨.newline, ⟨line, text.length + 1⟩⟩ :: others := by
  cases texts with
  | nil => exact absurd rfl hne
  | cons next more => rfl

/-- **A text that starts further down is scanned alike.** -/
theorem scanLines_down (k line : Nat) (texts : List (List Char)) :
    scanLines (line + k) texts = scannedDown k (scanLines line texts) := by
  induction texts generalizing line with
  | nil => rfl
  | cons text texts ih =>
    have hline : scanLine (line + k) text = scannedDown k (scanLine line text) :=
      scanFrom_down k line 1 text
    by_cases hne : texts = []
    · subst hne
      rw [scanLines_singleton, scanLines_singleton, hline]
      cases scanLine line text with
      | error e => rfl
      | ok here => simp [scannedDown, Except.map, Except.mapError, Lexeme.moved, Position.down]
    · rw [scanLines_cons hne, scanLines_cons hne, hline, Nat.add_right_comm, ih (line + 1)]
      cases scanLine line text with
      | error e => rfl
      | ok here =>
        cases scanLines (line + 1) texts with
        | error e => rfl
        | ok others =>
          simp [scannedDown, bind, Except.bind, pure, Except.pure, Except.map, Except.mapError,
            Lexeme.moved, Position.down]

end RegisterMachine.Source
