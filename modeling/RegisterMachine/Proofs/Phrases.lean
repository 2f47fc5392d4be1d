import RegisterMachine.Proofs.Admission

/-!
# The lines of the language, and how they are read

* `Phrase ts d` — the tokens `ts` are a line that describes the draft `d`.
* `Reader.run_draft_of_phrase` — a phrase is read to its last token, wherever its tokens stand.
* `illegalAt` — a complaint about the numbers of a line, placed; `parseLine_of_phrase` — the line of
  a phrase is its draft, with complaints placed at its first token.
* `parseLexemes_line` — a line and what is behind it are read one after the other;
  `parseLexemes_append` — so are a phrase and what is behind the end of its line;
  `parseLexemes_newlines`, `parseLexemes_of_endsLine` — blank lines before or behind it give
  nothing.

Principal result: `parseOne_of_phrase` — a text with one phrase and blank lines around it is read as
the instruction of that phrase.
-/

set_option autoImplicit false

namespace RegisterMachine.Source

variable {ts : List Token} {d : Draft}

/-- `Phrase ts d`: a line of the tokens `ts` describes `d`. -/
inductive Phrase : List Token → Draft → Prop
  | set (label register value : Int) :
      Phrase [.int label, .dot, .register register, .assign, .int value] (.set label register value)
  | setNegated (label register value : Int) :
      Phrase [.int label, .dot, .register register, .assign, .minus, .int value]
        (.set label register (-value))
  | increment (label register : Int) :
      Phrase [.int label, .dot, .register register, .assign, .register register, .plus, .int 1]
        (.increment label register)
  | decrement (label register : Int) :
      Phrase [.int label, .dot, .register register, .assign, .register register, .minus, .int 1]
        (.decrement label register)
  | copy (label dest source : Int) :
      Phrase [.int label, .dot, .register dest, .assign, .register source] (.copy label dest source)
  | branch (label register ifZero otherwise : Int) :
      Phrase [.int label, .dot, .ifWord, .register register, .equal, .int 0, .gotoWord, .int ifZero,
        .elseWord, .gotoWord, .int otherwise] (.branch label register ifZero otherwise)
  | stop (label : Int) : Phrase [.int label, .dot, .stopWord] (.stop label)

/-- A phrase stays within its line. -/
theorem Phrase.endsLine_eq_false (h : Phrase ts d) : ∀ t ∈ ts, t.endsLine = false := by
  cases h <;> simp [Token.endsLine]

theorem Phrase.ne_nil (h : Phrase ts d) : ts ≠ [] := by
  cases h <;> simp

/-! ## Readers -/

theorem ok_bind {α β ε : Type} (a : α) (f : α → Except ε β) : (Except.ok a >>= f) = f a := rfl

/-- A list that begins with the token `t` has it at some place. -/
theorem forall_lexeme {P : List Lexeme → Prop} {t : Token}
    (h : ∀ position xs, xs.map Lexeme.token = ts → P (⟨t, position⟩ :: xs)) :
    ∀ xs, xs.map Lexeme.token = t :: ts → P xs := by
  intro xs hx
  obtain ⟨⟨u, position⟩, ys, rfl, rfl, hy⟩ := List.map_eq_cons_iff.1 hx
  exact h position ys hy

theorem forall_lexeme_nil {P : List Lexeme → Prop} (h : P []) :
    ∀ xs, xs.map Lexeme.token = [] → P xs := by
  intro xs hx
  obtain rfl := List.map_eq_nil_iff.1 hx
  exact h

namespace Reader

variable {last : Position} {after : List Lexeme}

/-- A register that is updated from itself, by one. -/
theorem run_step (dest : Int) (result : Draft) (sign : Token) (p q : Position) :
    (update.step dest dest result).run ⟨last, ⟨sign, p⟩ :: ⟨.int 1, q⟩ :: after⟩ =
      .ok (result, ⟨q, after⟩) := by
  unfold update.step
  simp only [ne_eq, not_true_eq_false, if_false]
  rfl

/-- Without a sign behind it, a register is copied. -/
theorem run_update (label dest source : Int)
    (h : ∀ x ∈ after.head?, x.token ≠ .plus ∧ x.token ≠ .minus) :
    (update label dest source).run ⟨last, after⟩ =
      .ok (.copy label dest source, ⟨last, after⟩) := by
  cases after with
  | nil => rfl
  | cons x xs =>
    obtain ⟨hplus, hminus⟩ := h x rfl
    obtain ⟨t, position⟩ := x
    cases t with
    | plus => exact absurd rfl hplus
    | minus => exact absurd rfl hminus
    | _ => rfl

/-- **A phrase is read to its last token.**  Only a sign behind a copy would be read as well. -/
theorem run_draft_of_phrase (h : Phrase ts d) (last : Position)
    (ha : ∀ x ∈ after.head?, x.token ≠ .plus ∧ x.token ≠ .minus) :
    ∀ line, line.map Lexeme.token = ts →
      ∃ last', draft.run ⟨last, line ++ after⟩ = .ok (d, ⟨last', after⟩) := by
  cases h with
  | set label register value =>
    iterate 5 apply forall_lexeme; intro _
    exact forall_lexeme_nil ⟨_, rfl⟩
  | setNegated label register value =>
    iterate 6 apply forall_lexeme; intro _
    exact forall_lexeme_nil ⟨_, rfl⟩
  | increment label register =>
    iterate 7 apply forall_lexeme; intro _
    exact forall_lexeme_nil ⟨_, run_step register _ _ _ _⟩
  | decrement label register =>
    iterate 7 apply forall_lexeme; intro _
    exact forall_lexeme_nil ⟨_, run_step register _ _ _ _⟩
  | copy label dest source =>
    iterate 5 apply forall_lexeme; intro _
    exact forall_lexeme_nil ⟨_, run_update label dest source ha⟩
  | branch label register ifZero otherwise =>
    iterate 11 apply forall_lexeme; intro _
    exact forall_lexeme_nil ⟨_, rfl⟩
  | stop label =>
    iterate 3 apply forall_lexeme; intro _
    exact forall_lexeme_nil ⟨_, rfl⟩

theorem run_lineEnd (h : ∀ x ∈ after.head?, x.token.endsLine = true) :
    lineEnd.run ⟨last, after⟩ = .ok ((), ⟨last, after⟩) := by
  cases after with
  | nil => rfl
  | cons x xs =>
    have hline : lineEnd.run ⟨last, x :: xs⟩ =
      (if x.token.endsLine then pure () else unexpected .endOfLine : Reader Unit).run
        ⟨last, x :: xs⟩ := rfl
    rw [hline, h x rfl]
    rfl

end Reader

/-! ## Lines -/

/-- A line whose numbers make no instruction is reported where it starts. -/
def illegalAt (start : Position) (cause : InstructionError) : ParseError := ⟨start, .illegal cause⟩

variable {line after : List Lexeme} {first x : Lexeme}

theorem ne_sign_of_endsLine {t : Token} (h : t.endsLine = true) : t ≠ .plus ∧ t ≠ .minus := by
  constructor <;> (rintro rfl; cases h)

/-- **The line of a phrase is its draft,** whatever token ends it. -/
theorem parseLine_of_phrase (h : Phrase (line.map Lexeme.token) d) (hf : line.head? = some first)
    (ha : ∀ x ∈ after.head?, x.token.endsLine = true) :
    parseLine (line ++ after) = (d.build.mapError (illegalAt first.position)).map some := by
  obtain ⟨more, rfl⟩ := List.head?_eq_some_iff.1 hf
  have hfirst : first.token.endsLine = false := h.endsLine_eq_false first.token (by simp)
  obtain ⟨last, hdraft⟩ := Reader.run_draft_of_phrase h first.position
    (fun x hx => ne_sign_of_endsLine (ha x hx)) (first :: more) rfl
  rw [List.cons_append] at hdraft ⊢
  rw [parseLine, if_neg (by simp [hfirst]), Reader.instruction, StateT.run_bind, hdraft, ok_bind]
  dsimp only
  cases d.build with
  | error cause => rfl
  | ok i =>
    dsimp only
    rw [StateT.run_bind, Reader.run_lineEnd ha]
    rfl

/-! ## Lists of tokens -/

theorem splitLines_cons (hx : x.token.endsLine = false) (xs : List Lexeme) :
    splitLines (x :: xs) =
      match splitLines xs with
      | [] => [[x]]
      | next :: more => (x :: next) :: more := by
  obtain ⟨t, position⟩ := x
  cases t with
  | newline => cases hx
  | endOfInput => cases hx
  | _ => rfl

/-- A line end is the end of the line that is collected before it. -/
theorem splitLines_of_endsLine (hx : x.token.endsLine = true) (xs : List Lexeme) :
    ∃ more, splitLines (x :: xs) = [x] :: more := by
  obtain ⟨t, position⟩ := x
  cases t with
  | newline => exact ⟨splitLines xs, rfl⟩
  | endOfInput => exact ⟨[], rfl⟩
  | _ => cases hx

/-- Lines hold nothing but what they were cut from. -/
theorem mem_of_mem_splitLines {lexemes : List Lexeme} :
    ∀ line ∈ splitLines lexemes, ∀ x ∈ line, x ∈ lexemes := by
  induction lexemes with
  | nil => intro line hl; cases hl
  | cons y ys ih =>
    have hmore : ∀ line ∈ splitLines ys, ∀ x ∈ line, x ∈ y :: ys :=
      fun line hl x hx => List.mem_cons_of_mem y (ih line hl x hx)
    obtain ⟨t, position⟩ := y
    cases t with
    | endOfInput => simp [splitLines]
    | newline =>
      have hsplit : splitLines (⟨.newline, position⟩ :: ys) =
        [⟨.newline, position⟩] :: splitLines ys := rfl
      rw [hsplit, List.forall_mem_cons]
      exact ⟨by simp, hmore⟩
    | _ =>
      rw [splitLines_cons rfl]
      cases hys : splitLines ys with
      | nil => simp
      | cons next others =>
        rw [hys, List.forall_mem_cons] at hmore
        simp only [List.forall_mem_cons]
        exact ⟨⟨List.mem_cons_self, hmore.1⟩, hmore.2⟩

theorem splitLines_append (hl : ∀ x ∈ line, x.token.endsLine = false) (hne : line ≠ []) :
    splitLines (line ++ after) =
      match splitLines after with
      | [] => [line]
      | next :: more => (line ++ next) :: more := by
  induction line with
  | nil => exact absurd rfl hne
  | cons x xs ih =>
    rw [List.cons_append, splitLines_cons (hl x List.mem_cons_self)]
    cases xs with
    | nil => rw [List.nil_append]; cases splitLines after <;> rfl
    | cons y ys =>
      rw [ih (fun z hz => hl z (List.mem_cons_of_mem x hz)) (List.cons_ne_nil y ys)]
      cases splitLines after <;> rfl

theorem parseLexemes_newline (hx : x.token = .newline) (xs : List Lexeme) :
    parseLexemes (x :: xs) = parseLexemes xs := by
  obtain ⟨t, position⟩ := x
  cases hx
  show (List.mapM parseLine ([⟨.newline, position⟩] :: splitLines xs) >>= _) = _
  rw [List.mapM_cons, parseLexemes]
  cases (splitLines xs).mapM parseLine <;> rfl

theorem parseLexemes_endOfInput (hx : x.token = .endOfInput) (xs : List Lexeme) :
    parseLexemes (x :: xs) = .ok [] := by
  obtain ⟨t, position⟩ := x
  cases hx
  rfl

theorem parseLexemes_newlines {before : List Lexeme} (h : ∀ x ∈ before, x.token = .newline)
    (xs : List Lexeme) : parseLexemes (before ++ xs) = parseLexemes xs := by
  induction before with
  | nil => rfl
  | cons x before ih =>
    rw [List.cons_append, parseLexemes_newline (h x List.mem_cons_self),
      ih fun y hy => h y (List.mem_cons_of_mem x hy)]

theorem parseLexemes_of_endsLine {xs : List Lexeme} (h : ∀ x ∈ xs, x.token.endsLine = true) :
    parseLexemes xs = .ok [] := by
  induction xs with
  | nil => rfl
  | cons x xs ih =>
    have hx := h x List.mem_cons_self
    obtain ⟨t, position⟩ := x
    cases t with
    | newline =>
      rw [parseLexemes_newline rfl]
      exact ih fun y hy => h y (List.mem_cons_of_mem _ hy)
    | endOfInput => exact parseLexemes_endOfInput rfl xs
    | _ => cases hx

/-- **A line comes first, then what is behind it.**  The token that ends the line is read with it
and again. -/
theorem parseLexemes_line (hl : ∀ x ∈ line, x.token.endsLine = false)
    (ha : ∀ x ∈ after.head?, x.token.endsLine = true) :
    parseLexemes (line ++ after) = do
      let o ← parseLine (line ++ after.take 1)
      let is ← parseLexemes after
      return o.toList ++ is := by
  have hblank (x : Lexeme) (hx : x.token.endsLine = true) : parseLine [x] = .ok none := by
    rw [parseLine, if_pos hx]
  by_cases hne : line = []
  · subst hne
    cases after with
    | nil => rfl
    | cons x xs =>
      have hfirst : parseLine ([] ++ (x :: xs).take 1) = .ok none := hblank x (ha x rfl)
      rw [hfirst, ok_bind, List.nil_append]
      cases parseLexemes (x :: xs) <;> rfl
  · unfold parseLexemes
    rw [splitLines_append hl hne]
    cases after with
    | nil =>
      show (List.mapM parseLine [line] >>= _) = _
      rw [List.mapM_cons, List.take_nil, List.append_nil]
      cases parseLine line with
      | error e => rfl
      | ok o => cases o <;> rfl
    | cons x xs =>
      obtain ⟨more, hmore⟩ := splitLines_of_endsLine (ha x rfl) xs
      rw [hmore]
      show (List.mapM parseLine ((line ++ [x]) :: more) >>= _) =
        (parseLine (line ++ [x]) >>= fun o => (List.mapM parseLine ([x] :: more) >>= _) >>= _)
      rw [List.mapM_cons, List.mapM_cons, hblank x (ha x rfl)]
      cases parseLine (line ++ [x]) with
      | error e => rfl
      | ok o => cases more.mapM parseLine <;> cases o <;> rfl

/-- **A phrase comes first, then what is behind it.** -/
theorem parseLexemes_append (h : Phrase (line.map Lexeme.token) d) (hf : line.head? = some first)
    (ha : ∀ x ∈ after.head?, x.token.endsLine = true) :
    parseLexemes (line ++ after) = do
      let i ← d.build.mapError (illegalAt first.position)
      let is ← parseLexemes after
      return i :: is := by
  have hl : ∀ x ∈ line, x.token.endsLine = false :=
    fun x hx => h.endsLine_eq_false x.token (List.mem_map_of_mem hx)
  have hend : ∀ x ∈ (after.take 1).head?, x.token.endsLine = true := by
    simpa [List.head?_take] using ha
  rw [parseLexemes_line hl ha, parseLine_of_phrase h hf hend]
  cases d.build <;> rfl

/-- **The only phrase of a text is its instruction,** whatever blank lines are around it. -/
theorem parseOne_of_phrase {source : String} {before : List Lexeme}
    (hs : tokenize source = .ok (before ++ (line ++ after)))
    (hb : ∀ x ∈ before, x.token = .newline) (h : Phrase (line.map Lexeme.token) d)
    (hf : line.head? = some first) (ha : ∀ x ∈ after, x.token.endsLine = true) :
    parseOne source = d.build.mapError (illegalAt first.position) := by
  have hhead : ∀ x ∈ after.head?, x.token.endsLine = true :=
    fun x hx => ha x (List.mem_of_mem_head? hx)
  rw [parseOne, parse, hs, ok_bind, parseLexemes_newlines hb, parseLexemes_append h hf hhead,
    parseLexemes_of_endsLine ha]
  cases d.build <;> rfl

end RegisterMachine.Source
