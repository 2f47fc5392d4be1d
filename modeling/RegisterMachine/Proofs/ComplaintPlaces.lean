import RegisterMachine.Proofs.JoinedSources
import RegisterMachine.Proofs.Layouts

/-!
# The place of a complaint

A text that can be scanned is refused because of its first bad line, and the complaint is placed in
that line or right behind it.

* `ReadsAlone text` — the line `text` can be read if there is nothing else.
* `PointsAt lines place` — `place` is in the first of the lines that cannot be read alone;
  `PointsAt.first`, `PointsAt.below` — this is the first line, or it is one below a line that can be
  read.
* `exists_mem_of_complaint` — a complaint is placed at one of the tokens.  If the tokens stay where
  they are, so must the complaint, for it would be moved with them.
* `position_of_mem_line` — the tokens of a text without line feeds stand in its only line.
* `pointsAt_first_line` — a text whose first line cannot be read is refused because of it.

Principal result: `complaint_names_first_bad_line` — line and column of complaints about a text that
can be scanned.
-/

set_option autoImplicit false

namespace RegisterMachine.Source

variable {a b source : String} {e e' : ParseError} {lexemes : List Lexeme} {line : List Char}
  {lines : List (List Char)} {place : Position}

/-! ## Lines that can be read -/

/-- The line can be read if there is nothing else. -/
def ReadsAlone (text : List Char) : Prop := ∃ is, parse (String.ofList text) = .ok is

/-- The first of the lines that cannot be read alone has the number of the place, and the column is
one of its characters or the end behind them. -/
def PointsAt (lines : List (List Char)) (place : Position) : Prop :=
  ∃ before bad after, lines = before ++ bad :: after ∧ (∀ text ∈ before, ReadsAlone text) ∧
    ¬ ReadsAlone bad ∧
    place.line = before.length + 1 ∧ 1 ≤ place.column ∧ place.column ≤ bad.length + 1

theorem PointsAt.first (hbad : ¬ ReadsAlone line) (hline : place.line = 1)
    (hlow : 1 ≤ place.column) (hhigh : place.column ≤ line.length + 1) (lines : List (List Char)) :
    PointsAt (line :: lines) place :=
  ⟨[], line, lines, rfl, by simp, hbad, hline, hlow, hhigh⟩

theorem PointsAt.below (h : PointsAt lines place) (hline : ReadsAlone line) :
    PointsAt (line :: lines) (place.down 1) := by
  obtain ⟨before, bad, after, rfl, hbefore, hbad, hnumber, hcolumn⟩ := h
  refine ⟨line :: before, bad, after, rfl, List.forall_mem_cons.2 ⟨hline, hbefore⟩, hbad, ?_,
    hcolumn⟩
  simp [Position.down, hnumber]

/-! ## Places of tokens -/

/-- The place, if it is one of those that are kept, else one in the next line. -/
def Position.keeping (kept : List Position) (p : Position) : Position :=
  if p ∈ kept then p else p.nextLine

/-- **A complaint is placed at one of the tokens.** -/
theorem exists_mem_of_complaint (h : parseLexemes lexemes = .error e) :
    ∃ x ∈ lexemes, x.position = e.position := by
  by_contra hnone
  let f := Position.keeping (lexemes.map Lexeme.position)
  -- no token is moved by `f`, so the complaint is not moved either
  have hstay : lexemes.map (Lexeme.moved f) = lexemes := by
    refine (List.map_congr_left fun x hx => ?_).trans (List.map_id lexemes)
    have hplace : f x.position = x.position := if_pos (List.mem_map_of_mem hx)
    rw [Lexeme.moved, hplace, id]
  have hmoved := parseLexemes_moved (f := f) lexemes
  rw [hstay, h] at hmoved
  have hplace : e.position = f e.position := congrArg ParseError.position (Except.error.inj hmoved)
  have hgone : f e.position = e.position.nextLine := if_neg (by simpa using hnone)
  have := congrArg Position.line (hplace.trans hgone)
  simp [Position.nextLine] at this

/-- The tokens of a text without line feeds stand in its only line. -/
theorem position_of_mem_line (hline : '\n' ∉ a.toList) (h : tokenize a = .ok lexemes) :
    ∀ x ∈ lexemes, x.position.line = 1 ∧ 1 ≤ x.position.column ∧
      x.position.column ≤ a.toList.length + 1 := by
  intro x hx
  obtain ⟨⟨w, hstart, hplace⟩, _⟩ := (tokenize_eq_ok_iff.1 h).of_mem x hx
  have hw : '\n' ∉ w := fun hmem => hline (hstart.subset hmem)
  have hlen : w.length ≤ a.toList.length := hstart.length_le
  have hright := placeAfter_append hw []
  rw [List.nil_append, placeAfter_nil] at hright
  rw [hplace, hright]
  refine ⟨rfl, ?_, ?_⟩
  · show 1 ≤ 1 + w.length
    omega
  · show 1 + w.length ≤ a.toList.length + 1
    omega

/-! ## The first bad line -/

theorem linesOf_line (hline : '\n' ∉ a.toList) : linesOf a = [a.toList] :=
  List.splitOn_eq_singleton hline

theorem not_readsAlone_of_error (h : parse a = .error e) : ¬ ReadsAlone a.toList := by
  rintro ⟨is, his⟩
  rw [String.ofList_toList, h] at his
  cases his

/-- A complaint about tokens at the places of a line points into that line, if it cannot be read. -/
theorem pointsAt_of_places {others : List Lexeme} (hline : '\n' ∉ a.toList)
    (ha : parse a = .error e') (hscan : tokenize a = .ok lexemes)
    (hplaces : ∀ x ∈ others, ∃ y ∈ lexemes, y.position = x.position)
    (h : parseLexemes others = .error e) (lines : List (List Char)) :
    PointsAt (a.toList :: lines) e.position := by
  obtain ⟨x, hx, hx'⟩ := exists_mem_of_complaint h
  obtain ⟨y, hy, hy'⟩ := hplaces x hx
  obtain ⟨hnumber, hlow, hhigh⟩ := position_of_mem_line hline hscan y hy
  rw [hy', hx'] at hnumber hlow hhigh
  exact .first (not_readsAlone_of_error ha) hnumber hlow hhigh lines

/-- A text without line feeds is its own bad line. -/
theorem pointsAt_line (hline : '\n' ∉ a.toList) (hscan : tokenize a = .ok lexemes)
    (h : parse a = .error e) :
    PointsAt (linesOf a) e.position := by
  have hparse : parseLexemes lexemes = .error e := by
    rwa [parse, hscan, ok_bind] at h
  rw [linesOf_line hline]
  exact pointsAt_of_places hline h hscan (fun x hx => ⟨x, hx, rfl⟩) hparse []

/-- If a joined text can be scanned, so can its parts. -/
theorem tokenize_parts (h : tokenize (a ++ "\n" ++ b) = .ok lexemes) :
    (∃ xs, tokenize a = .ok xs) ∧ ∃ ys, tokenize b = .ok ys := by
  cases ha : tokenize a with
  | error cause =>
    rw [tokenize_join_of_error ha] at h
    cases h
  | ok xs =>
    obtain ⟨here, position, _, _, hjoin⟩ := tokenize_join_of_ok ha
    rw [hjoin b] at h
    cases hb : tokenize b with
    | error cause => rw [hb] at h; cases h
    | ok ys => exact ⟨⟨xs, rfl⟩, ys, rfl⟩

/-- **A text whose first line cannot be read is refused because of that line.** -/
theorem pointsAt_first_line (hline : '\n' ∉ a.toList)
    (hscan : tokenize (a ++ "\n" ++ b) = .ok lexemes) (ha : parse a = .error e')
    (h : parse (a ++ "\n" ++ b) = .error e) :
    PointsAt (linesOf (a ++ "\n" ++ b)) e.position := by
  rw [linesOf_join, linesOf_line hline, List.singleton_append]
  obtain ⟨⟨tokens, hfirst⟩, others, hothers⟩ := tokenize_parts hscan
  obtain ⟨here, position, rfl, hhere, hjoin⟩ := tokenize_join_of_ok hfirst
  -- the line is refused as well if a line feed ends it, perhaps with another complaint
  have hend : parseLexemes (here ++ [⟨.newline, position⟩]) = .error e := by
    cases hnewline : parseLexemes (here ++ [⟨.newline, position⟩]) with
    | ok is =>
      have hread := (parseLexemes_newline_iff hhere position).1 hnewline
      rw [parse, hfirst, ok_bind, hread] at ha
      cases ha
    | error cause =>
      rw [← h, parse, hjoin b, hothers]
      show _ = parseLexemes (here ++ ⟨.newline, position⟩ :: others.map (Lexeme.moved _))
      rw [parseLexemes_append_newline hhere, hnewline]
      rfl
  refine pointsAt_of_places hline ha hfirst (fun x hx => ?_) hend (linesOf b)
  rcases List.mem_append.1 hx with hx | hx
  · exact ⟨x, List.mem_append_left _ hx, rfl⟩
  · rw [List.mem_singleton.1 hx]
    exact ⟨⟨.endOfInput, position⟩, by simp, rfl⟩

/-- A text is one line, or it is a line and a text that is joined to it. -/
theorem line_or_join (source : String) : '\n' ∉ source.toList ∨
    ∃ a b : String, source = a ++ "\n" ++ b ∧ '\n' ∉ a.toList ∧
      b.toList.length < source.toList.length := by
  by_cases hmem : '\n' ∈ source.toList
  · right
    obtain ⟨first, after, heq, hfirst⟩ := List.eq_append_cons_of_mem hmem
    have hsource : source = String.ofList first ++ "\n" ++ String.ofList after := by
      rw [← String.toList_inj]
      simpa using heq
    refine ⟨String.ofList first, String.ofList after, hsource, by simpa using hfirst, ?_⟩
    rw [heq, String.toList_ofList, List.length_append, List.length_cons]
    omega
  · exact .inl hmem

/-- **A complaint about a text that can be scanned points at its first bad line.** -/
theorem pointsAt_of_complaint (hscan : tokenize source = .ok lexemes)
    (h : parse source = .error e) :
    PointsAt (linesOf source) e.position := by
  induction hn : source.toList.length using Nat.strongRecOn generalizing source lexemes e with
  | ind n ih =>
    rcases line_or_join source with hline | ⟨a, b, rfl, hline, hlt⟩
    · exact pointsAt_line hline hscan h
    · cases ha : parse a with
      | error e' => exact pointsAt_first_line hline hscan ha h
      | ok is =>
        -- the complaint is the one about the text below, further down by one line
        rw [parse_join ha] at h
        cases hb : parse b with
        | ok js => rw [hb] at h; cases h
        | error e' =>
          rw [hb, List.count_eq_zero.2 hline] at h
          cases h
          obtain ⟨_, others, hothers⟩ := tokenize_parts hscan
          have hbelow := ih b.toList.length (hn ▸ hlt) hothers hb rfl
          rw [linesOf_join, linesOf_line hline, List.singleton_append]
          refine hbelow.below ⟨is, ?_⟩
          rwa [String.ofList_toList]

/-- **Complaints name the first bad line.**  If a text can be scanned and cannot be read, the
complaint has the number of the first line that cannot be read alone, and all lines above it can.
Its column is that of a character of this line, or the one behind the last. -/
theorem complaint_names_first_bad_line (source : String) (lexemes : List Lexeme) (e : ParseError)
    (hscan : tokenize source = .ok lexemes) (h : parse source = .error e) :
    ∃ before bad after, linesOf source = before ++ bad :: after ∧
      (∀ text ∈ before, ∃ is, parse (String.ofList text) = .ok is) ∧
      (∃ e', parse (String.ofList bad) = .error e') ∧
      e.position.line = before.length + 1 ∧ 1 ≤ e.position.column ∧
        e.position.column ≤ bad.length + 1 := by
  obtain ⟨before, bad, after, hlines, hbefore, hbad, hplace⟩ := pointsAt_of_complaint hscan h
  refine ⟨before, bad, after, hlines, hbefore, ?_, hplace⟩
  cases hparse : parse (String.ofList bad) with
  | ok is => exact absurd ⟨is, hparse⟩ hbad
  | error e' => exact ⟨e', rfl⟩

/-- The third line breaks off, and the complaint is placed at the line feed behind its last
character; the lines above are a comment and an instruction, and the line below is bad as well. -/
theorem complaint_names_line_that_breaks_off :
    parse "# x0\n1. stop\r\n2. x1 = x1 +\n0. stop" =
      .error ⟨⟨3, 13⟩, .expected .one (some .newline)⟩ ∧
    ∃ before bad after, linesOf "# x0\n1. stop\r\n2. x1 = x1 +\n0. stop" = before ++ bad :: after ∧
      (∀ text ∈ before, ∃ is, parse (String.ofList text) = .ok is) ∧
      (∃ e', parse (String.ofList bad) = .error e') ∧
      3 = before.length + 1 ∧ 1 ≤ 13 ∧ 13 ≤ bad.length + 1 := by
  have h : parse "# x0\n1. stop\r\n2. x1 = x1 +\n0. stop" =
      .error ⟨⟨3, 13⟩, .expected .one (some .newline)⟩ := by decide +kernel
  have hok : (tokenize "# x0\n1. stop\r\n2. x1 = x1 +\n0. stop").toBool = true := by decide +kernel
  cases hscan : tokenize "# x0\n1. stop\r\n2. x1 = x1 +\n0. stop" with
  | error cause => rw [hscan] at hok; cases hok
  | ok lexemes => exact ⟨h, complaint_names_first_bad_line _ lexemes _ hscan h⟩

end RegisterMachine.Source
