import Mathlib.Data.List.DropRight
import RegisterMachine.Proofs.Spelling

/-!
# How a text is laid out, and where its tokens stand

A text is cut into tokens and gaps.  A gap has blanks, and perhaps a comment that runs to the end of
its line.  Line feeds are tokens.  A token is as long as it can be, and its place is given by the
characters before it.

* `placeAfter before` — the place behind the characters `before`.
* `Gap g rest` — `g` is a gap, with `rest` behind it.
* `Layout before text lexemes` — the text behind `before` is laid out as these tokens, up to the end
  of input.
* `scanOn start text` — scanning a text of which the first character stands at `start`.  There is
  one equation for each part of a layout: `scanOn_gap`, `scanOn_newline`, `scanOn_token`.
* `exists_gap`, `exists_token` — every text starts with a gap, and then with a token if it can be
  scanned.
* `Layout.scanOn_eq`, `layout_of_scanOn` — so what is laid out is scanned, and the other way round;
  `tokenize_eq_ok_iff` — a text is scanned to tokens exactly if it is laid out as these tokens.
* `Layout.exists_end`, `Layout.of_mem` — the last token of a layout, and the places and numbers of
  all of them.

Principal result: `tokens_are_laid_out` — this, and what it says about the last token and about
numbers.
-/

set_option autoImplicit false

namespace RegisterMachine.Source

variable {t : Token} {c : Char} {g w rest text before : List Char} {lexemes : List Lexeme}
  {start : Position}

/-! ## Places -/

/-- The place `k` characters further on in the line. -/
def Position.right (k : Nat) (p : Position) : Position := ⟨p.line, p.column + k⟩

/-- The start of the next line. -/
def Position.nextLine (p : Position) : Position := ⟨p.line + 1, 1⟩

/-- The place behind some characters: lines are counted by line feeds, and columns from the last one
of them. -/
def placeAfter (before : List Char) : Position :=
  ⟨1 + before.count '\n', 1 + (before.rtakeWhile (· != '\n')).length⟩

theorem placeAfter_nil : placeAfter [] = ⟨1, 1⟩ := rfl

theorem placeAfter_newline (before : List Char) :
    placeAfter (before ++ ['\n']) = (placeAfter before).nextLine := by
  simp [placeAfter, Position.nextLine, List.rtakeWhile_concat_neg, Nat.add_assoc]

theorem placeAfter_append (hw : '\n' ∉ w) (before : List Char) :
    placeAfter (before ++ w) = (placeAfter before).right w.length := by
  have hpass : ∀ c ∈ w.reverse, (c != '\n') = true := by
    intro c hc
    rw [bne_iff_ne]
    rintro rfl
    exact hw (List.mem_reverse.1 hc)
  have hcount : (before ++ w).count '\n' = before.count '\n' := by
    rw [List.count_append, List.count_eq_zero.2 hw, Nat.add_zero]
  have hcolumn : ((before ++ w).rtakeWhile (· != '\n')).length =
      (before.rtakeWhile (· != '\n')).length + w.length := by
    simp only [List.rtakeWhile, List.reverse_append, List.takeWhile_append_of_pos hpass,
      List.length_reverse, List.length_append]
  rw [placeAfter, hcount, hcolumn, ← Nat.add_assoc]
  rfl

/-! ## Gaps and layouts -/

/-- `Gap g rest`: between two tokens, or before the first or behind the last one, stands `g`, and
`rest` comes next. -/
inductive Gap : List Char → List Char → Prop
  | blanks {g rest : List Char} (hg : ∀ c ∈ g, isBlank c = true) : Gap g rest
  /-- A comment runs to the end of its line. -/
  | comment {g text rest : List Char} (hg : ∀ c ∈ g, isBlank c = true) (ht : '\n' ∉ text)
      (hr : ∀ c ∈ rest.head?, c = '\n') : Gap (g ++ '#' :: text) rest

/-- `Layout before text lexemes`: the text behind `before` has gaps and these tokens in turn. -/
inductive Layout : List Char → List Char → List Lexeme → Prop
  | endOfInput {before g : List Char} (hg : Gap g []) :
      Layout before g [⟨.endOfInput, placeAfter (before ++ g)⟩]
  | newline {before g rest : List Char} {lexemes : List Lexeme} (hg : Gap g ('\n' :: rest))
      (hmore : Layout (before ++ g ++ ['\n']) rest lexemes) :
      Layout before (g ++ '\n' :: rest) (⟨.newline, placeAfter (before ++ g)⟩ :: lexemes)
  | token {before g w rest : List Char} {t : Token} {lexemes : List Lexeme} (hg : Gap g (w ++ rest))
      (hs : Spells t w) (he : t.EndsBefore rest) (hmore : Layout (before ++ g ++ w) rest lexemes) :
      Layout before (g ++ (w ++ rest)) (⟨t, placeAfter (before ++ g)⟩ :: lexemes)

theorem newline_not_mem_blanks (hg : ∀ c ∈ g, isBlank c = true) : '\n' ∉ g :=
  fun hmem => absurd (hg _ hmem) (by decide)

/-- A gap stays within its line. -/
theorem Gap.newline_not_mem (h : Gap g rest) : '\n' ∉ g := by
  cases h with
  | blanks hg => exact newline_not_mem_blanks hg
  | comment hg ht _ => simp [newline_not_mem_blanks hg, ht]

theorem Gap.cons (hc : isBlank c = true) (h : Gap g rest) : Gap (c :: g) rest := by
  cases h with
  | blanks hg => exact .blanks (List.forall_mem_cons.2 ⟨hc, hg⟩)
  | comment hg ht hr => exact .comment (g := c :: _) (List.forall_mem_cons.2 ⟨hc, hg⟩) ht hr

/-- **Every text starts with a gap,** behind which neither a blank nor a comment follows. -/
theorem exists_gap (text : List Char) : ∃ g rest, text = g ++ rest ∧ Gap g rest ∧
    ∀ c ∈ rest.head?, isBlank c = false ∧ (c == '#') = false := by
  induction text with
  | nil => exact ⟨[], [], rfl, .blanks (by simp), by simp⟩
  | cons c cs ih =>
    by_cases hblank : isBlank c = true
    · obtain ⟨g, rest, rfl, hg, hrest⟩ := ih
      exact ⟨c :: g, rest, rfl, hg.cons hblank, hrest⟩
    · by_cases hcomment : c = '#'
      · subst hcomment
        have hnext : ∀ c ∈ (cs.dropWhile (· != '\n')).head?, c = '\n' :=
          fun c hc => by simpa using of_mem_head?_dropWhile c hc
        refine ⟨'#' :: cs.takeWhile (· != '\n'), cs.dropWhile (· != '\n'), ?_, ?_, ?_⟩
        · rw [List.cons_append, List.takeWhile_append_dropWhile]
        · refine .comment (g := []) (by simp) (fun hmem => ?_) hnext
          simpa using List.mem_takeWhile_imp hmem
        · intro c hc
          rw [hnext c hc]
          decide
      · exact ⟨[], c :: cs, rfl, .blanks (by simp), by simp [hblank, hcomment]⟩

/-! ## Scanning from anywhere -/

/-- The end of a line at `place`, and the tokens of the lines below it. -/
def scanBelow (place : Position) : List (List Char) → Except ParseError (List Lexeme)
  | [] => .ok [⟨.endOfInput, place⟩]
  | lines => (scanLines (place.line + 1) lines).map (⟨.newline, place⟩ :: ·)

/-- The tokens of lines of which the first one starts at `start`. -/
def scanLinesFrom (start : Position) : List (List Char) → Except ParseError (List Lexeme)
  | [] => .ok []
  | text :: more => do
      let here ← scanFrom start.line start.column text
      let others ← scanBelow (start.right text.length) more
      return here ++ others

/-- The tokens of a text whose first character stands at `start`. -/
def scanOn (start : Position) (text : List Char) : Except ParseError (List Lexeme) :=
  scanLinesFrom start (text.splitOn '\n')

theorem scanLines_eq (line : Nat) (texts : List (List Char)) :
    scanLines line texts = scanLinesFrom ⟨line, 1⟩ texts := by
  match texts with
  | [] => rfl
  | [text] =>
    simp [scanLines, scanLinesFrom, scanBelow, scanLine, Position.right, Nat.add_comm, bind,
      Except.bind]
  | text :: next :: more =>
    rw [scanLines, scanLinesFrom, scanBelow]
    · simp only [scanLine, Position.right, Nat.add_comm 1]
      cases scanFrom line 1 text with
      | error e => rfl
      | ok here => cases scanLines (line + 1) (next :: more) <;> rfl
    · simp
    · simp

theorem tokenize_eq_scanOn (source : String) : tokenize source = scanOn ⟨1, 1⟩ source.toList :=
  scanLines_eq 1 (linesOf source)

theorem scanOn_nil (start : Position) : scanOn start [] = .ok [⟨.endOfInput, start⟩] := by
  rw [scanOn, List.splitOn_nil, scanLinesFrom, scanFrom_nil]
  rfl

theorem scanOn_newline (start : Position) (rest : List Char) :
    scanOn start ('\n' :: rest) = (scanOn start.nextLine rest).map (⟨.newline, start⟩ :: ·) := by
  have hsplit : ('\n' :: rest).splitOn '\n' = [] :: rest.splitOn '\n' :=
    List.splitOn_append_cons_self [] rest
  rw [scanOn, hsplit, scanLinesFrom, scanFrom_nil, scanBelow, scanOn, Position.nextLine,
    ← scanLines_eq]
  · cases hlines : scanLines (start.line + 1) (rest.splitOn '\n') with
    | error e => simp [Position.right, hlines, bind, Except.bind, Except.map]
    | ok others => simp [Position.right, hlines, bind, Except.bind, Except.map, pure, Except.pure]
  · exact List.splitOn_ne_nil '\n' rest

/-- Every text starts with a line. -/
theorem exists_first_line (text : List Char) :
    ∃ first after more, text = first ++ after ∧ '\n' ∉ first ∧
      (∀ c ∈ after.head?, c = '\n') ∧
      ∀ w, '\n' ∉ w → (w ++ text).splitOn '\n' = (w ++ first) :: more := by
  by_cases hmem : '\n' ∈ text
  · obtain ⟨first, after, rfl, hfirst⟩ := List.eq_append_cons_of_mem hmem
    refine ⟨first, '\n' :: after, after.splitOn '\n', rfl, hfirst, by simp, fun w hw => ?_⟩
    rw [← List.append_assoc, List.splitOn_append_cons_self_of_not_mem (by simp [hw, hfirst])]
  · refine ⟨text, [], [], by simp, hmem, by simp, fun w hw => ?_⟩
    rw [List.splitOn_eq_singleton (by simp [hw, hmem])]

/-- What is read at the start of a line is read at the start of a text.  The rest of the line begins
as the rest of the text does. -/
theorem scanOn_append (read : List Lexeme) (hw : '\n' ∉ w)
    (h : ∀ first, '\n' ∉ first → (∀ c ∈ first.head?, c ∈ rest.head?) →
      scanFrom start.line start.column (w ++ first) =
        (scanFrom start.line (start.column + w.length) first).map (read ++ ·)) :
    scanOn start (w ++ rest) = (scanOn (start.right w.length) rest).map (read ++ ·) := by
  obtain ⟨first, after, more, rfl, hfirst, _, hsplit⟩ := exists_first_line rest
  have hhead : ∀ c ∈ first.head?, c ∈ (first ++ after).head? := by
    intro c hc
    rw [List.head?_append, Option.mem_def.1 hc]
    rfl
  have hplace : start.right (w ++ first).length = (start.right w.length).right first.length := by
    simp [Position.right, Nat.add_assoc]
  have hrest : (first ++ after).splitOn '\n' = first :: more := hsplit [] (by simp)
  rw [scanOn, hsplit w hw, scanLinesFrom, h first hfirst hhead, hplace, scanOn, hrest,
    scanLinesFrom]
  show _ = Except.map _ (scanFrom start.line (start.column + w.length) first >>= _)
  cases scanFrom start.line (start.column + w.length) first with
  | error e => rfl
  | ok here =>
    cases scanBelow ((start.right w.length).right first.length) more with
    | error e => rfl
    | ok others => exact congrArg Except.ok (List.append_assoc read here others)

theorem scanFrom_blanks {line column : Nat} (hg : ∀ c ∈ g, isBlank c = true) :
    scanFrom line column (g ++ rest) = scanFrom line (column + g.length) rest := by
  induction g generalizing column with
  | nil => rfl
  | cons c cs ih =>
    obtain ⟨hc, hcs⟩ := List.forall_mem_cons.1 hg
    rw [List.cons_append, scanFrom_blank hc, ih hcs, List.length_cons]
    congr 1
    omega

/-- **Nothing is read in a gap.** -/
theorem scanOn_gap (h : Gap g rest) :
    scanOn start (g ++ rest) = scanOn (start.right g.length) rest := by
  have hnothing (scanned : Except ParseError (List Lexeme)) : scanned.map ([] ++ ·) = scanned := by
    cases scanned <;> rfl
  rw [scanOn_append [] h.newline_not_mem, hnothing]
  intro first hfirst hhead
  rw [hnothing]
  cases h with
  | blanks hg => exact scanFrom_blanks hg
  | comment hg ht hr =>
    -- behind a comment, nothing is left of the line
    have hempty : first = [] := by
      cases first with
      | nil => rfl
      | cons c cs =>
        have hc : c = '\n' := hr c (hhead c rfl)
        exact absurd List.mem_cons_self (hc ▸ hfirst)
    rw [hempty, List.append_nil, scanFrom_blanks hg, scanFrom_comment, scanFrom_nil]

/-- **A token that does not go on is read.** -/
theorem scanOn_token (hs : Spells t w) (he : t.EndsBefore rest) :
    scanOn start (w ++ rest) = (scanOn (start.right w.length) rest).map (⟨t, start⟩ :: ·) := by
  refine scanOn_append [⟨t, start⟩] hs.newline_not_mem fun first _ hhead => ?_
  exact scanFrom_append hs fun c hc => he c (hhead c hc)

/-- A line feed makes no token longer. -/
theorem Token.continues_newline (t : Token) : t.continues '\n' = false := by
  cases t <;> rfl

/-- **A text that can be scanned starts with a token,** if it starts neither with a gap nor with a
line feed. -/
theorem exists_token (hblank : isBlank c = false) (hcomment : (c == '#') = false) (hc : c ≠ '\n')
    (h : scanOn start (c :: rest) = .ok lexemes) :
    ∃ t w more, c :: rest = w ++ more ∧ Spells t w ∧ t.EndsBefore more := by
  obtain ⟨first, after, lines, rfl, _, hafter, hsplit⟩ := exists_first_line rest
  have hlines : (c :: (first ++ after)).splitOn '\n' = (c :: first) :: lines :=
    hsplit [c] (by simpa using hc.symm)
  rw [scanOn, hlines, scanLinesFrom, scanFrom_cons hblank hcomment] at h
  cases hscan : scanToken c first with
  | error fault => rw [hscan] at h; cases h
  | ok s =>
    obtain ⟨hs, he⟩ := spells_of_scanToken hscan
    obtain ⟨htext, _⟩ := append_of_scanToken hscan
    refine ⟨s.token, s.spelling, s.rest ++ after, ?_, hs, fun d hd => ?_⟩
    · rw [← List.append_assoc, htext, List.cons_append]
    · -- at the end of its line the token is followed by a line feed, if by anything
      cases hrest : s.rest with
      | nil =>
        rw [hrest] at hd
        rw [hafter d hd]
        exact s.token.continues_newline
      | cons d' ds =>
        rw [hrest] at hd
        exact he d (hrest ▸ hd)

/-! ## Layouts are what is scanned -/

/-- What is read first, and then the rest. -/
theorem map_cons_eq_ok_iff {x : Lexeme} {scanned : Except ParseError (List Lexeme)} :
    scanned.map (x :: ·) = .ok lexemes ↔
      ∃ others, scanned = .ok others ∧ lexemes = x :: others := by
  cases scanned with
  | error e => simp [Except.map]
  | ok others => simp [Except.map, eq_comm]

theorem Layout.scanOn_eq (h : Layout before text lexemes) :
    scanOn (placeAfter before) text = .ok lexemes := by
  induction h with
  | @endOfInput before g hg =>
    rw [← List.append_nil g, scanOn_gap hg, ← placeAfter_append hg.newline_not_mem, scanOn_nil,
      List.append_nil]
  | @newline before g rest lexemes hg _ ih =>
    rw [scanOn_gap hg, ← placeAfter_append hg.newline_not_mem, scanOn_newline, ← placeAfter_newline,
      ih]
    rfl
  | @token before g w rest t lexemes hg hs he _ ih =>
    rw [scanOn_gap hg, ← placeAfter_append hg.newline_not_mem, scanOn_token hs he,
      ← placeAfter_append hs.newline_not_mem, ih]
    rfl

theorem layout_of_scanOn (h : scanOn (placeAfter before) text = .ok lexemes) :
    Layout before text lexemes := by
  induction hn : text.length using Nat.strongRecOn generalizing before text lexemes with
  | ind n ih =>
    obtain ⟨g, rest, rfl, hg, hrest⟩ := exists_gap text
    rw [scanOn_gap hg, ← placeAfter_append hg.newline_not_mem] at h
    cases rest with
    | nil =>
      rw [scanOn_nil] at h
      cases h
      rw [List.append_nil]
      exact .endOfInput hg
    | cons c cs =>
      by_cases hc : c = '\n'
      · subst hc
        rw [scanOn_newline, ← placeAfter_newline] at h
        obtain ⟨others, hothers, rfl⟩ := map_cons_eq_ok_iff.1 h
        exact .newline hg (ih _ (by simp at hn; omega) hothers rfl)
      · obtain ⟨hblank, hcomment⟩ := hrest c rfl
        obtain ⟨t, w, more, htext, hs, he⟩ := exists_token hblank hcomment hc h
        rw [htext] at h hg hn ⊢
        rw [scanOn_token hs he, ← placeAfter_append hs.newline_not_mem] at h
        obtain ⟨others, hothers, rfl⟩ := map_cons_eq_ok_iff.1 h
        have hpos : 0 < w.length := by
          obtain ⟨d, ds, rfl⟩ := hs.exists_cons
          simp
        exact .token hg hs he (ih _ (by simp at hn; omega) hothers rfl)

/-- **A text is scanned to tokens exactly if it is laid out as these tokens.** -/
theorem tokenize_eq_ok_iff {source : String} :
    tokenize source = .ok lexemes ↔ Layout [] source.toList lexemes := by
  rw [tokenize_eq_scanOn, ← placeAfter_nil]
  exact ⟨layout_of_scanOn, Layout.scanOn_eq⟩

/-- The end of input is the last token, and only the last, and stands behind the text. -/
theorem Layout.exists_end (h : Layout before text lexemes) :
    ∃ here, lexemes = here ++ [⟨.endOfInput, placeAfter (before ++ text)⟩] ∧
      ∀ x ∈ here, x.token ≠ .endOfInput := by
  induction h with
  | endOfInput hg => exact ⟨[], rfl, by simp⟩
  | @newline before g rest lexemes hg _ ih =>
    obtain ⟨here, rfl, hhere⟩ := ih
    refine ⟨⟨.newline, placeAfter (before ++ g)⟩ :: here, by simp, ?_⟩
    rw [List.forall_mem_cons]
    exact ⟨nofun, hhere⟩
  | @token before g w rest t lexemes hg hs _ _ ih =>
    obtain ⟨here, rfl, hhere⟩ := ih
    refine ⟨⟨t, placeAfter (before ++ g)⟩ :: here, by simp, ?_⟩
    rw [List.forall_mem_cons]
    refine ⟨?_, hhere⟩
    rintro rfl
    cases hs

/-- Every token stands behind some of the characters, and it ends a line or can be written. -/
theorem Layout.of_mem (h : Layout before text lexemes) : ∀ x ∈ lexemes,
    (∃ b, b <+: before ++ text ∧ x.position = placeAfter b) ∧
      (x.token.endsLine = true ∨ x.token.Writable) := by
  induction h with
  | @endOfInput before g hg =>
    intro x hx
    rw [List.mem_singleton.1 hx]
    exact ⟨⟨before ++ g, List.prefix_refl _, rfl⟩, .inl rfl⟩
  | @newline before g rest lexemes hg _ ih =>
    rw [List.forall_mem_cons]
    refine ⟨⟨⟨before ++ g, ?_, rfl⟩, .inl rfl⟩, fun x hx => ?_⟩
    · rw [← List.append_assoc]
      exact List.prefix_append _ _
    · simpa using ih x hx
  | @token before g w rest t lexemes hg hs _ _ ih =>
    rw [List.forall_mem_cons]
    refine ⟨⟨⟨before ++ g, ?_, rfl⟩, .inr hs.writable⟩, fun x hx => ?_⟩
    · rw [← List.append_assoc]
      exact List.prefix_append _ _
    · simpa using ih x hx

/-- **Tokens are where they are written.**  A text is scanned to tokens exactly if it has gaps and
spellings of these tokens in turn, where no spelling goes on behind its token and every token has
the place of its first character.  The end of input comes last and only there, with the place behind
the whole text.  No number of a token is negative or above the limit, so that its negation is within
the limits as well. -/
theorem tokens_are_laid_out (source : String) (lexemes : List Lexeme) :
    (tokenize source = .ok lexemes ↔ Layout [] source.toList lexemes) ∧
    (tokenize source = .ok lexemes →
      (∃ here, lexemes = here ++ [⟨.endOfInput, placeAfter source.toList⟩] ∧
        ∀ x ∈ here, x.token ≠ .endOfInput) ∧
      ∀ x ∈ lexemes, ∀ n, x.token = .int n ∨ x.token = .register n →
        0 ≤ n ∧ n ≤ 9223372036854775807 ∧ -9223372036854775808 < -n) := by
  refine ⟨tokenize_eq_ok_iff, fun h => ?_⟩
  have hlayout := tokenize_eq_ok_iff.1 h
  refine ⟨hlayout.exists_end, fun x hx n hn => ?_⟩
  have hrange : InRange n := by
    rcases (hlayout.of_mem x hx).2 with hend | hwritable
    · rcases hn with hn | hn <;> (rw [hn] at hend; cases hend)
    · rcases hn with hn | hn <;> (rw [hn] at hwritable; exact hwritable)
  obtain ⟨hlow, hhigh⟩ := hrange
  have hmax : (Numeral.maxWord : Int) = 9223372036854775807 := rfl
  omega

/-- Tokens without blanks between them, zeros before a number, and a comment that ends in a carriage
return. -/
theorem unspaced_tokens_are_laid_out :
    Layout [] "x07==if\t# = 1\r\n 1.-2".toList
      [⟨.register 7, ⟨1, 1⟩⟩, ⟨.equal, ⟨1, 4⟩⟩, ⟨.ifWord, ⟨1, 6⟩⟩, ⟨.newline, ⟨1, 15⟩⟩,
        ⟨.int 1, ⟨2, 2⟩⟩, ⟨.dot, ⟨2, 3⟩⟩, ⟨.minus, ⟨2, 4⟩⟩, ⟨.int 2, ⟨2, 5⟩⟩,
        ⟨.endOfInput, ⟨2, 6⟩⟩] ∧
    (0 ≤ (7 : Int) ∧ (7 : Int) ≤ 9223372036854775807 ∧ -9223372036854775808 < -(7 : Int)) := by
  have h : tokenize "x07==if\t# = 1\r\n 1.-2" = .ok
      [⟨.register 7, ⟨1, 1⟩⟩, ⟨.equal, ⟨1, 4⟩⟩, ⟨.ifWord, ⟨1, 6⟩⟩, ⟨.newline, ⟨1, 15⟩⟩,
        ⟨.int 1, ⟨2, 2⟩⟩, ⟨.dot, ⟨2, 3⟩⟩, ⟨.minus, ⟨2, 4⟩⟩, ⟨.int 2, ⟨2, 5⟩⟩,
        ⟨.endOfInput, ⟨2, 6⟩⟩] := by decide +kernel
  obtain ⟨hiff, hmore⟩ := tokens_are_laid_out _ _
  exact ⟨hiff.1 h, (hmore h).2 _ List.mem_cons_self 7 (.inr rfl)⟩

end RegisterMachine.Source
