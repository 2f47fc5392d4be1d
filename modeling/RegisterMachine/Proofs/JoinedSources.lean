import RegisterMachine.Proofs.LineGrammar
import RegisterMachine.Proofs.Relocation

/-!
# Texts that are joined by a line feed

Text is read line by line, so two texts with a line feed between them are read one after the other.
The whole text is scanned before a line is read, but neither a token nor a comment goes on behind
the line feed.

* `linesOf_join` — the lines of the joined text; `length_linesOf` — there is one more than line
  feeds.
* `scanLines_append_of_ok`, `scanLines_append_of_error` — lines behind other lines are scanned where
  they stand.
* `parseLexemes_append_newline` — what is read up to a line feed, and then what is behind it;
  `parseLexemes_newline_iff` — the end of a line is accepted where the end of the text is.
* `parse_join`, `parse_join_of_error` — what is read from a joined text, if its first part can be
  read or not.
* `parse_intercalate` — texts with one instruction each, joined.

Principal result: `sources_compose` — the instructions of a joined text are those of its parts, and
complaints about the second part are about the same line, further down.
-/

set_option autoImplicit false

namespace RegisterMachine.Source

variable {a b : String} {line column : Nat} {is xs ys : List Instruction}

/-! ## Lines -/

theorem linesOf_join (a b : String) : linesOf (a ++ "\n" ++ b) = linesOf a ++ linesOf b := by
  have hjoin : (a ++ "\n" ++ b).toList = a.toList ++ '\n' :: b.toList := by simp
  rw [linesOf, hjoin, List.splitOn_append_cons_self, linesOf, linesOf]

theorem length_linesOf (a : String) : (linesOf a).length = a.toList.count '\n' + 1 := by
  unfold linesOf List.splitOn
  induction a.toList with
  | nil => rfl
  | cons c cs ih =>
    rw [List.splitOnP_cons_eq_if_modifyHead, List.count_cons]
    split <;> simp [ih]

theorem linesOf_ne_nil (a : String) : linesOf a ≠ [] := by
  intro h
  have := length_linesOf a
  rw [h] at this
  cases this

/-! ## Tokens -/

/-- Every token of a line has a spelling. -/
theorem spells_of_scanFrom {text : List Char} {here : List Lexeme}
    (h : scanFrom line column text = .ok here) : ∀ x ∈ here, ∃ w, Spells x.token w := by
  fun_induction scanFrom line column text generalizing here with
  | case1 => cases h; simp
  | case2 column c cs hc ih => exact ih h
  | case3 column c cs hc hcomment => cases h; simp
  | case4 column c cs hc hcomment fault hscan => cases h
  | case5 column c cs hc hcomment s hscan ih =>
    obtain ⟨others, hothers, h⟩ := bind_eq_ok_iff.1 h
    cases h
    intro x hx
    rcases List.mem_cons.1 hx with rfl | hx
    · exact ⟨_, (spells_of_scanToken hscan).1⟩
    · exact ih hothers x hx

/-- No token of a line ends it. -/
theorem endsLine_of_scanFrom {text : List Char} {here : List Lexeme}
    (h : scanFrom line column text = .ok here) : ∀ x ∈ here, x.token.endsLine = false := by
  intro x hx
  obtain ⟨w, hw⟩ := spells_of_scanFrom h x hx
  exact hw.endsLine_eq_false

/-- A token of a text ends a line, or it has a spelling. -/
theorem spells_of_scanLines {texts : List (List Char)} {lexemes : List Lexeme}
    (h : scanLines line texts = .ok lexemes) :
    ∀ x ∈ lexemes, x.token.endsLine = true ∨ ∃ w, Spells x.token w := by
  fun_induction scanLines line texts generalizing lexemes with
  | case1 => cases h; simp
  | case2 line text =>
    obtain ⟨here, hhere, h⟩ := bind_eq_ok_iff.1 h
    cases h
    intro x hx
    rcases List.mem_append.1 hx with hx | hx
    · exact .inr (spells_of_scanFrom hhere x hx)
    · exact .inl (by simp [List.mem_singleton.1 hx, Token.endsLine])
  | case3 line text more _ ih =>
    obtain ⟨here, hhere, h⟩ := bind_eq_ok_iff.1 h
    obtain ⟨others, hothers, h⟩ := bind_eq_ok_iff.1 h
    cases h
    intro x hx
    rcases List.mem_append.1 hx with hx | hx
    · exact .inr (spells_of_scanFrom hhere x hx)
    · rcases List.mem_cons.1 hx with rfl | hx
      · exact .inl rfl
      · exact ih hothers x hx

theorem scanLine_ne_endOfInput {text : List Char} {here : List Lexeme}
    (h : scanLine line text = .ok here) :
    ∀ x ∈ here, x.token ≠ .endOfInput := by
  intro x hx hend
  have := endsLine_of_scanFrom h x hx
  rw [hend] at this
  cases this

/-- **Lines behind lines that can be scanned.**  The end of the first ones becomes the end of a
line. -/
theorem scanLines_append_of_ok {texts : List (List Char)} {lexemes : List Lexeme} (hne : texts ≠ [])
    (h : scanLines line texts = .ok lexemes) :
    ∃ here position, lexemes = here ++ [⟨.endOfInput, position⟩] ∧
      (∀ x ∈ here, x.token ≠ .endOfInput) ∧
      ∀ more, more ≠ [] → scanLines line (texts ++ more) =
        (scanLines (line + texts.length) more).map fun others =>
          here ++ ⟨.newline, position⟩ :: others := by
  induction texts generalizing line lexemes with
  | nil => exact absurd rfl hne
  | cons text texts ih =>
    by_cases hlast : texts = []
    · subst hlast
      rw [scanLines_singleton] at h
      cases hhere : scanLine line text with
      | error e => rw [hhere] at h; cases h
      | ok here =>
        rw [hhere] at h
        cases h
        refine ⟨here, _, rfl, scanLine_ne_endOfInput hhere, fun more hmore => ?_⟩
        rw [List.singleton_append, scanLines_cons hmore, hhere]
        cases scanLines (line + 1) more <;> rfl
    · rw [scanLines_cons hlast] at h
      obtain ⟨here, hhere, h⟩ := bind_eq_ok_iff.1 h
      obtain ⟨others, hothers, h⟩ := bind_eq_ok_iff.1 h
      cases h
      obtain ⟨there, position, rfl, hthere, hmore⟩ := ih hlast hothers
      refine ⟨here ++ ⟨.newline, ⟨line, text.length + 1⟩⟩ :: there, position, by simp, ?_,
        fun more hm => ?_⟩
      · intro x hx
        rcases List.mem_append.1 hx with hx | hx
        · exact scanLine_ne_endOfInput hhere x hx
        · rcases List.mem_cons.1 hx with rfl | hx
          · exact fun e => by cases e
          · exact hthere x hx
      · rw [List.cons_append, scanLines_cons (by simp [hm]), hhere, hmore more hm, List.length_cons,
          Nat.add_assoc line, Nat.add_comm 1]
        cases scanLines (line + (texts.length + 1)) more with
        | error e => rfl
        | ok rest => simp [bind, Except.bind, pure, Except.pure, Except.map]

/-- Lines are refused because of the first one or because of one behind it. -/
theorem scanLines_eq_error {text : List Char} {texts : List (List Char)} {e : ParseError}
    (h : scanLines line (text :: texts) = .error e) :
    scanLine line text = .error e ∨
      ∃ here, scanLine line text = .ok here ∧ scanLines (line + 1) texts = .error e := by
  cases texts with
  | nil =>
    rcases bind_eq_error_iff.1 h with h | ⟨here, _, h⟩
    · exact .inl h
    · cases h
  | cons next more =>
    rcases bind_eq_error_iff.1 h with h | ⟨here, hhere, h⟩
    · exact .inl h
    · rcases bind_eq_error_iff.1 h with h | ⟨others, _, h⟩
      · exact .inr ⟨here, hhere, h⟩
      · cases h

/-- Lines that cannot be scanned are refused whatever stands behind them. -/
theorem scanLines_append_of_error {texts : List (List Char)} {e : ParseError}
    (h : scanLines line texts = .error e) (more : List (List Char)) :
    scanLines line (texts ++ more) = .error e := by
  induction texts generalizing line with
  | nil => cases h
  | cons text texts ih =>
    by_cases hmore : texts ++ more = []
    · obtain ⟨rfl, rfl⟩ := List.append_eq_nil_iff.1 hmore
      exact h
    · rw [List.cons_append, scanLines_cons hmore]
      rcases scanLines_eq_error h with hhere | ⟨here, hhere, hothers⟩
      · rw [hhere]
        rfl
      · rw [hhere, ok_bind, ih hothers]
        rfl

/-- **The tokens of a joined text.** -/
theorem tokenize_join_of_ok {lexemes : List Lexeme} (h : tokenize a = .ok lexemes) :
    ∃ here position, lexemes = here ++ [⟨.endOfInput, position⟩] ∧
      (∀ x ∈ here, x.token ≠ .endOfInput) ∧
      ∀ b, tokenize (a ++ "\n" ++ b) = (scannedDown (a.toList.count '\n' + 1) (tokenize b)).map
        fun others => here ++ ⟨.newline, position⟩ :: others := by
  obtain ⟨here, position, rfl, hhere, hmore⟩ := scanLines_append_of_ok (linesOf_ne_nil a) h
  refine ⟨here, position, rfl, hhere, fun b => ?_⟩
  rw [tokenize, linesOf_join, hmore _ (linesOf_ne_nil b), scanLines_down, length_linesOf, tokenize]

theorem tokenize_join_of_error {e : ParseError} (h : tokenize a = .error e) (b : String) :
    tokenize (a ++ "\n" ++ b) = .error e := by
  rw [tokenize, linesOf_join]
  exact scanLines_append_of_error h (linesOf b)

/-! ## Instructions -/

theorem splitLines_ne_nil {lexemes : List Lexeme} (hne : lexemes ≠ []) :
    splitLines lexemes ≠ [] := by
  obtain ⟨x, xs, rfl⟩ := List.exists_cons_of_ne_nil hne
  cases hx : x.token.endsLine with
  | false =>
    rw [splitLines_cons hx]
    cases splitLines xs <;> simp
  | true =>
    obtain ⟨more, hmore⟩ := splitLines_of_endsLine hx xs
    simp [hmore]

theorem splitLines_append_newline {here : List Lexeme} (h : ∀ x ∈ here, x.token ≠ .endOfInput)
    (position : Position) (others : List Lexeme) :
    splitLines (here ++ ⟨.newline, position⟩ :: others) =
      splitLines (here ++ [⟨.newline, position⟩]) ++ splitLines others := by
  induction here with
  | nil => rfl
  | cons x xs ih =>
    have ih := ih fun y hy => h y (List.mem_cons_of_mem x hy)
    cases hx : x.token.endsLine with
    | false =>
      rw [List.cons_append, splitLines_cons hx, ih, List.cons_append, splitLines_cons hx]
      cases hlines : splitLines (xs ++ [⟨.newline, position⟩]) with
      | nil => exact absurd hlines (splitLines_ne_nil (by simp))
      | cons next more => rfl
    | true =>
      obtain ⟨t, place⟩ := x
      cases t with
      | newline => exact congrArg ([⟨.newline, place⟩] :: ·) ih
      | endOfInput => exact absurd rfl (h _ List.mem_cons_self)
      | _ => cases hx

/-- **What is read up to a line feed, and then what is behind it.** -/
theorem parseLexemes_append_newline {here : List Lexeme} (h : ∀ x ∈ here, x.token ≠ .endOfInput)
    (position : Position) (others : List Lexeme) :
    parseLexemes (here ++ ⟨.newline, position⟩ :: others) = do
      let is ← parseLexemes (here ++ [⟨.newline, position⟩])
      let js ← parseLexemes others
      return is ++ js := by
  unfold parseLexemes
  rw [splitLines_append_newline h, List.mapM_append]
  cases (splitLines (here ++ [⟨.newline, position⟩])).mapM parseLine with
  | error e => rfl
  | ok os =>
    cases (splitLines others).mapM parseLine with
    | error e => rfl
    | ok more => exact congrArg Except.ok (List.reduceOption_append os more)

/-- The end of a line is accepted where the end of the text is.  Complaints may differ. -/
theorem parseLexemes_newline_iff {here : List Lexeme} (h : ∀ x ∈ here, x.token ≠ .endOfInput)
    (position : Position) :
    parseLexemes (here ++ [⟨.newline, position⟩]) = .ok is ↔
      parseLexemes (here ++ [⟨.endOfInput, position⟩]) = .ok is := by
  have hend : .endOfInput ∉ here.map Lexeme.token := by
    intro hmem
    obtain ⟨x, hx, htoken⟩ := List.mem_map.1 hmem
    exact h x hx htoken
  rw [parseLexemes_eq_ok_iff, parseLexemes_eq_ok_iff, List.map_append, List.map_append,
    List.map_singleton,
    List.map_singleton, tokenLines_append_newline hend, tokenLines_append_endOfInput hend]
  exact textMeans_append_blank

/-- **A text behind a text that can be read.** -/
theorem parse_join (ha : parse a = .ok xs) (b : String) :
    parse (a ++ "\n" ++ b) = ((parse b).map (xs ++ ·)).mapError
      (ParseError.moved (Position.down (a.toList.count '\n' + 1))) := by
  obtain ⟨lexemes, htokens, hparse⟩ := bind_eq_ok_iff.1 ha
  obtain ⟨here, position, rfl, hhere, hjoin⟩ := tokenize_join_of_ok htokens
  rw [parse, hjoin b, parse]
  cases tokenize b with
  | error e => rfl
  | ok others =>
    have hline := (parseLexemes_newline_iff hhere position).2 hparse
    show parseLexemes (here ++ ⟨.newline, position⟩ :: others.map (Lexeme.moved _)) = _
    rw [parseLexemes_append_newline hhere, hline, ok_bind, parseLexemes_moved, ok_bind]
    cases parseLexemes others <;> rfl

theorem parse_join_of_error {e : ParseError} (ha : parse a = .error e) (b : String) :
    ∃ e', parse (a ++ "\n" ++ b) = .error e' := by
  rcases bind_eq_error_iff.1 ha with htokens | ⟨lexemes, htokens, hparse⟩
  · refine ⟨e, ?_⟩
    rw [parse, tokenize_join_of_error htokens]
    rfl
  · obtain ⟨here, position, rfl, hhere, hjoin⟩ := tokenize_join_of_ok htokens
    rw [parse, hjoin b]
    cases tokenize b with
    | error e' => exact ⟨_, rfl⟩
    | ok others =>
      show ∃ e',
        parseLexemes (here ++ ⟨.newline, position⟩ :: others.map (Lexeme.moved _)) = .error e'
      rw [parseLexemes_append_newline hhere]
      cases hline : parseLexemes (here ++ [⟨.newline, position⟩]) with
      | error e' => exact ⟨e', rfl⟩
      | ok is =>
        rw [(parseLexemes_newline_iff hhere position).1 hline] at hparse
        cases hparse

/-! ## Many texts -/

theorem parse_of_parseOne {i : Instruction} (h : parseOne a = .ok i) : parse a = .ok [i] := by
  obtain ⟨is, his, h⟩ := bind_eq_ok_iff.1 h
  split at h
  · cases h
    exact his
  · cases h

theorem parse_empty : parse "" = .ok [] := by
  have hscan : tokenize "" = .ok [⟨.endOfInput, ⟨1, 1⟩⟩] := by
    show (scanFrom 1 1 [] >>= _) = _
    rw [scanFrom_nil]
    rfl
  rw [parse, hscan, ok_bind, parseLexemes_endOfInput rfl]

/-- **Texts with one instruction each, joined.** -/
theorem parse_intercalate {sources : List String}
    (h : List.Forall₂ (fun source i => parseOne source = .ok i) sources is) :
    parse ("\n".intercalate sources) = .ok is := by
  induction h with
  | nil => exact parse_empty
  | @cons source i sources is hi hmore ih =>
    cases sources with
    | nil =>
      cases hmore
      rw [String.intercalate_singleton, parse_of_parseOne hi]
    | cons next more =>
      rw [String.intercalate_cons_cons, parse_join (parse_of_parseOne hi), ih]
      rfl

theorem addEach_of_forall₂ {sources : List String}
    (h : List.Forall₂ (fun source i => parseOne source = .ok i) sources is) (p : Program) :
    p.addEach parseOne sources = (p.addAll is, none) := by
  induction h generalizing p with
  | nil => rfl
  | cons hi _ ih =>
    rw [Program.addEach, hi]
    exact ih (p.add _)

/-- **Texts are read line by line.**  A joined text is read exactly if its parts are, and gives the
instructions of the first and then those of the second.  If only the second cannot be read, the
complaint is the one about it, as many lines further down as the first has.  So texts with one
instruction each make one program, whether they are joined and read or added one after the other. -/
theorem sources_compose :
    (∀ (a b : String) (xs : List Instruction), parse (a ++ "\n" ++ b) = .ok xs ↔
      ∃ xa xb, parse a = .ok xa ∧ parse b = .ok xb ∧ xs = xa ++ xb) ∧
    (∀ (a b : String) (xa : List Instruction) (e : ParseError),
      parse a = .ok xa → parse b = .error e → parse (a ++ "\n" ++ b) =
        .error ⟨⟨e.position.line + a.toList.count '\n' + 1, e.position.column⟩, e.fault⟩) ∧
    ∀ sources : List String, (∀ source ∈ sources, ∃ i, parseOne source = .ok i) →
      ∃ p, Program.parse ("\n".intercalate sources) = .ok p ∧
        Program.empty.addEach parseOne sources = (p, none) := by
  refine ⟨fun a b xs => ?_, fun a b xa e ha hb => ?_, fun sources h => ?_⟩
  · cases ha : parse a with
    | error e =>
      obtain ⟨e', he'⟩ := parse_join_of_error ha b
      simp [he']
    | ok xa =>
      rw [parse_join ha]
      cases parse b with
      | error e => simp [Except.map, Except.mapError]
      | ok xb => simp [Except.map, Except.mapError, eq_comm]
  · rw [parse_join ha, hb]
    rfl
  · obtain ⟨is, hmap⟩ := exists_mapM_eq_ok h
    have his := mapM_eq_ok_iff.1 hmap
    refine ⟨.ofList is, ?_, addEach_of_forall₂ his .empty⟩
    rw [Program.parse, parse_intercalate his]
    rfl

/-- A comment ends at the seam, a line that breaks off there is complained of two lines further
down, and blank lines around an instruction do no harm. -/
theorem sources_compose_at_seams :
    parse ("1. x1 = 5 # = x1\n" ++ "\n" ++ "2. x1 = x1 +\n3. stop") =
      .error ⟨⟨3, 13⟩, .expected .one (some .newline)⟩ ∧
    Program.parse ("\n".intercalate ["3. x1 = x2 # 4. stop", "\n1. stop\n"]) =
      .ok (.ofList [⟨3, .copy 1 2⟩, ⟨1, .stop⟩]) ∧
    Program.empty.addEach parseOne ["3. x1 = x2 # 4. stop", "\n1. stop\n"] =
      (.ofList [⟨3, .copy 1 2⟩, ⟨1, .stop⟩], none) := by
  have ha : parse "1. x1 = 5 # = x1\n" = .ok [⟨1, .set 1 5⟩] := by decide +kernel
  have hb : parse "2. x1 = x1 +\n3. stop" = .error ⟨⟨1, 13⟩, .expected .one (some .newline)⟩ := by
    decide +kernel
  have hcount : "1. x1 = 5 # = x1\n".toList.count '\n' = 1 := by decide +kernel
  have hc : parseOne "3. x1 = x2 # 4. stop" = .ok ⟨3, .copy 1 2⟩ := by decide +kernel
  have hd : parseOne "\n1. stop\n" = .ok ⟨1, .stop⟩ := by decide +kernel
  have hjoin := sources_compose.2.1 _ _ _ _ ha hb
  rw [hcount] at hjoin
  have hadded := addEach_of_forall₂ (.cons hc (.cons hd .nil)) .empty
  obtain ⟨p, hparse, hp⟩ := sources_compose.2.2 ["3. x1 = x2 # 4. stop", "\n1. stop\n"] (by
    simp [hc, hd])
  obtain rfl : _ = p := congrArg Prod.fst (hadded.symm.trans hp)
  exact ⟨hjoin, hparse, hadded⟩

end RegisterMachine.Source
