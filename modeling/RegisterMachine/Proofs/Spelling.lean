import Mathlib.Data.List.TakeWhile
import RegisterMachine.Source.Scan

/-!
# Spellings of tokens, and what scanning makes of them

A token has many spellings, for numbers may have zeros in front.  Scanning takes the longest one, so
a spelling is read as its token only if the character behind it could not be part of it.

* `Spells t w` — the characters `w` are a spelling of `t`.
* `Token.continues t c` — a token `t` would go on with `c`; `Token.EndsBefore t rest` — it does not
  go on into `rest`.
* `scanToken_of_spells` — then the token is scanned and nothing else; `spells_of_scanToken` —
  whatever is scanned is spelled as it stands there, and does not go on.
* `scanFrom_blank`, `scanFrom_comment`, `scanFrom_cons`, `scanFrom_append` — a line of which a
  blank, a comment or a token comes first.
* `Token.spelling` — the shortest spelling; `Token.padded` — one with zeros in front of its number;
  `written` — tokens in a line, with a blank before each but the dot.

Principal result: `scanLine_written` — a line of written tokens is scanned to these tokens, and the
first of them stands in the first column.
-/

set_option autoImplicit false

namespace RegisterMachine.Source

variable {t : Token} {c : Char} {w rest digits : List Char} {line column : Nat}

/-- `Spells t w`: the characters `w` are a way to write `t`. -/
inductive Spells : Token → List Char → Prop
  | int {digits : List Char} (hne : digits ≠ []) (hd : ∀ c ∈ digits, c.isDigit = true)
      (hn : Numeral.ofDigits digits ≤ Numeral.maxWord) :
      Spells (.int (Numeral.ofDigits digits)) digits
  | register {digits : List Char} (hne : digits ≠ []) (hd : ∀ c ∈ digits, c.isDigit = true)
      (hn : Numeral.ofDigits digits ≤ Numeral.maxWord) :
      Spells (.register (Numeral.ofDigits digits)) ('x' :: digits)
  | dot : Spells .dot ['.']
  | assign : Spells .assign ['=']
  | equal : Spells .equal ['=', '=']
  | plus : Spells .plus ['+']
  | minus : Spells .minus ['-']
  | ifWord : Spells .ifWord ['i', 'f']
  | gotoWord : Spells .gotoWord ['g', 'o', 't', 'o']
  | elseWord : Spells .elseWord ['e', 'l', 's', 'e']
  | stopWord : Spells .stopWord ['s', 't', 'o', 'p']

/-- Would `t`, followed by `c`, be the beginning of a longer token? -/
def Token.continues : Token → Char → Bool
  | .int _, c | .register _, c => c.isDigit
  | .assign, c => c == '='
  | .ifWord, c | .gotoWord, c | .elseWord, c | .stopWord, c => isWordChar c
  | _, _ => false

/-- `t` does not go on into what stands behind it. -/
def Token.EndsBefore (t : Token) (rest : List Char) : Prop :=
  ∀ c ∈ rest.head?, t.continues c = false

/-! ## One token -/

theorem takeWhile_append_of_head {α : Type} {p : α → Bool} {w rest : List α}
    (hw : ∀ c ∈ w, p c = true) (hr : ∀ c ∈ rest.head?, p c = false) :
    (w ++ rest).takeWhile p = w ∧ (w ++ rest).dropWhile p = rest := by
  rw [List.takeWhile_append_of_pos hw, List.dropWhile_append_of_pos hw]
  cases rest with
  | nil => simp
  | cons c cs => simp [hr c rfl]

theorem numberToken_eq_ok {make : Int → Token} (hn : Numeral.ofDigits digits ≤ Numeral.maxWord) :
    numberToken make digits = .ok (make (Numeral.ofDigits digits)) := by
  simp [numberToken, Numeral.ofDigits?_eq, hn]

/-- A digit starts a number. -/
theorem scanToken_of_isDigit (hc : c.isDigit = true) (cs : List Char) :
    scanToken c cs = (numberToken .int (c :: cs.takeWhile Char.isDigit)).map fun t =>
      ⟨t, c :: cs.takeWhile Char.isDigit, cs.dropWhile Char.isDigit⟩ := by
  have hx : c ≠ 'x' := by
    rintro rfl
    exact absurd hc (by decide)
  unfold scanToken
  split
  · exact absurd hc (by decide)
  · exact absurd hc (by decide)
  · exact absurd hc (by decide)
  · exact absurd hc (by decide)
  · simp only [beq_iff_eq, hx, hc, Bool.and_eq_true, false_and, if_false, if_true]
    cases numberToken .int (c :: cs.takeWhile Char.isDigit) <;> rfl

/-- An `x` and a digit start a register. -/
theorem scanToken_x {cs : List Char} (hd : cs.head?.any Char.isDigit = true) :
    scanToken 'x' cs = (numberToken .register (cs.takeWhile Char.isDigit)).map fun t =>
      ⟨t, 'x' :: cs.takeWhile Char.isDigit, cs.dropWhile Char.isDigit⟩ := by
  have hcase : scanToken 'x' cs = if 'x' == 'x' && cs.head?.any Char.isDigit then _ else _ := rfl
  rw [hcase, if_pos (by simp [hd])]
  cases numberToken .register (cs.takeWhile Char.isDigit) <;> rfl

/-- Any other letter starts a word. -/
theorem scanToken_of_isAlpha (hc : c.isAlpha = true) (hx : c ≠ 'x') (hd : c.isDigit = false)
    (cs : List Char) :
    scanToken c cs = (wordToken (c :: cs.takeWhile isWordChar)).map fun t =>
      ⟨t, c :: cs.takeWhile isWordChar, cs.dropWhile isWordChar⟩ := by
  unfold scanToken
  split
  · exact absurd hc (by decide)
  · exact absurd hc (by decide)
  · exact absurd hc (by decide)
  · exact absurd hc (by decide)
  · simp only [beq_iff_eq, hx, hc, hd, Bool.and_eq_true, false_and, if_false, if_true,
      Bool.false_eq_true]
    cases wordToken (c :: cs.takeWhile isWordChar) <;> rfl

/-- A keyword that does not go on is scanned as its token. -/
theorem scanToken_keyword (hc : c.isAlpha = true) (hx : c ≠ 'x') (hd : c.isDigit = false)
    (hw : w.all isWordChar = true) (hr : ∀ a ∈ rest.head?, isWordChar a = false)
    (ht : wordToken (c :: w) = .ok t) : scanToken c (w ++ rest) = .ok ⟨t, c :: w, rest⟩ := by
  obtain ⟨htake, hdrop⟩ := takeWhile_append_of_head (List.all_eq_true.1 hw) hr
  rw [scanToken_of_isAlpha hc hx hd, htake, hdrop, ht]
  rfl

/-- **A spelling that does not go on is scanned as its token.** -/
theorem scanToken_of_spells (hs : Spells t (c :: w)) (he : t.EndsBefore rest) :
    scanToken c (w ++ rest) = .ok ⟨t, c :: w, rest⟩ := by
  generalize hcw : c :: w = text at hs
  cases hs with
  | int _ hd hn =>
    subst hcw
    obtain ⟨htake, hdrop⟩ :=
      takeWhile_append_of_head (fun a ha => hd a (List.mem_cons_of_mem c ha)) he
    rw [scanToken_of_isDigit (hd c List.mem_cons_self), htake, hdrop, numberToken_eq_ok hn]
    rfl
  | register hne hd hn =>
    cases hcw
    obtain ⟨htake, hdrop⟩ := takeWhile_append_of_head hd he
    have hhead : (w ++ rest).head?.any Char.isDigit = true := by
      cases w with
      | nil => exact absurd rfl hne
      | cons d ds => simp [hd d List.mem_cons_self]
    rw [scanToken_x hhead, htake, hdrop, numberToken_eq_ok hn]
    rfl
  | dot => cases hcw; rfl
  | assign =>
    cases hcw
    cases rest with
    | nil => rfl
    | cons d ds =>
      have hne : d ≠ '=' := by simpa [Token.EndsBefore, Token.continues] using he
      simp only [scanToken, List.nil_append]
      split
      · rename_i heq
        exact absurd (List.cons.inj heq).1 hne
      · rfl
  | equal => cases hcw; rfl
  | plus => cases hcw; rfl
  | minus => cases hcw; rfl
  | ifWord | gotoWord | elseWord | stopWord =>
    cases hcw
    exact scanToken_keyword (by decide) (by decide) (by decide) (by decide) he rfl

theorem eq_of_numberToken {make : Int → Token} (h : numberToken make digits = .ok t) :
    Numeral.ofDigits digits ≤ Numeral.maxWord ∧ t = make (Numeral.ofDigits digits) := by
  rw [numberToken, Numeral.ofDigits?_eq] at h
  split at h
  · rename_i n hn
    split at hn
    · rename_i hle
      cases hn
      exact ⟨hle, (Except.ok.inj h).symm⟩
    · cases hn
  · cases h

theorem mem_keywords_of_wordToken (h : wordToken w = .ok t) : (String.ofList w, t) ∈ keywords := by
  unfold wordToken at h
  split at h
  · rename_i token hlookup
    cases h
    obtain ⟨before, after, hwords, _⟩ := List.lookup_eq_some_iff.1 hlookup
    simp [hwords]
  · cases h

/-- A word that is scanned is a keyword, and it goes on as long as there are letters, digits or
bars. -/
theorem keyword_of_wordToken (h : wordToken w = .ok t) : Spells t w ∧ t.continues = isWordChar := by
  have hmem := mem_keywords_of_wordToken h
  have hw : w = (String.ofList w).toList := String.toList_ofList.symm
  rw [hw]
  generalize String.ofList w = word at hmem
  simp only [keywords, List.mem_cons, Prod.mk.injEq, List.not_mem_nil, or_false] at hmem
  rcases hmem with ⟨rfl, rfl⟩ | ⟨rfl, rfl⟩ | ⟨rfl, rfl⟩ | ⟨rfl, rfl⟩
  · exact ⟨.ifWord, rfl⟩
  · exact ⟨.gotoWord, rfl⟩
  · exact ⟨.elseWord, rfl⟩
  · exact ⟨.stopWord, rfl⟩

/-- Dropping ends before a character that is not dropped. -/
theorem of_mem_head?_dropWhile {p : Char → Bool} {cs : List Char} :
    ∀ a ∈ (cs.dropWhile p).head?, p a = false := by
  intro a ha
  have := List.head?_dropWhile_not p cs
  rw [Option.mem_def.1 ha] at this
  exact this

/-- **What is scanned is spelled as it stands there, and it does not go on.** -/
theorem spells_of_scanToken {s : Scanned} (h : scanToken c rest = .ok s) :
    Spells s.token s.spelling ∧ s.token.EndsBefore s.rest := by
  unfold scanToken at h
  split at h
  · cases h; exact ⟨.dot, fun _ _ => rfl⟩
  · cases h; exact ⟨.plus, fun _ _ => rfl⟩
  · cases h; exact ⟨.minus, fun _ _ => rfl⟩
  · split at h
    · cases h; exact ⟨.equal, fun _ _ => rfl⟩
    · rename_i hne
      cases h
      refine ⟨.assign, fun a ha => beq_false_of_ne ?_⟩
      rintro rfl
      obtain ⟨more, hmore⟩ := List.head?_eq_some_iff.1 ha
      exact hne more hmore
  · split at h
    · -- the letter `x`, and at least one digit
      rename_i hx
      simp only [Bool.and_eq_true, beq_iff_eq] at hx
      obtain ⟨rfl, hhead⟩ := hx
      simp only [bind, Except.bind] at h
      split at h
      · cases h
      · rename_i token htoken
        cases h
        obtain ⟨hle, rfl⟩ := eq_of_numberToken htoken
        refine ⟨.register ?_ (fun _ => List.mem_takeWhile_imp) hle, of_mem_head?_dropWhile⟩
        cases rest with
        | nil => cases hhead
        | cons d ds =>
          have hd : d.isDigit = true := hhead
          rw [List.takeWhile_cons_of_pos hd]
          exact List.cons_ne_nil _ _
    · split at h
      · -- digits
        rename_i hc
        simp only [bind, Except.bind] at h
        split at h
        · cases h
        · rename_i token htoken
          cases h
          obtain ⟨hle, rfl⟩ := eq_of_numberToken htoken
          refine ⟨.int (List.cons_ne_nil _ _) (fun a ha => ?_) hle, of_mem_head?_dropWhile⟩
          rcases List.mem_cons.1 ha with rfl | ha
          · exact hc
          · exact List.mem_takeWhile_imp ha
      · split at h
        · -- a word
          simp only [bind, Except.bind] at h
          split at h
          · cases h
          · rename_i token htoken
            cases h
            obtain ⟨hspells, hcontinues⟩ := keyword_of_wordToken htoken
            refine ⟨hspells, ?_⟩
            unfold Token.EndsBefore
            rw [hcontinues]
            exact of_mem_head?_dropWhile
        · cases h

/-- A token of a line does not end it. -/
theorem Spells.endsLine_eq_false (h : Spells t w) : t.endsLine = false := by
  cases h <;> rfl

theorem Spells.exists_cons (h : Spells t w) : ∃ c cs, w = c :: cs := by
  cases h with
  | int hne _ _ => exact List.exists_cons_of_ne_nil hne
  | _ => exact ⟨_, _, rfl⟩

/-- No token goes on behind a line feed. -/
theorem Spells.newline_not_mem (h : Spells t w) : '\n' ∉ w := by
  have hdigits {digits : List Char} (hd : ∀ c ∈ digits, c.isDigit = true) : '\n' ∉ digits :=
    fun hmem => absurd (hd _ hmem) (by decide)
  cases h with
  | int _ hd _ => exact hdigits hd
  | register _ hd _ => simp [hdigits hd]
  | _ => decide

/-- A token starts neither with a blank nor with the sign of a comment. -/
theorem Spells.head (h : Spells t (c :: w)) : isBlank c = false ∧ (c == '#') = false := by
  generalize hcw : c :: w = text at h
  cases h with
  | int _ hd _ =>
    subst hcw
    have hc := hd c List.mem_cons_self
    have hne (d : Char) (hd : d.isDigit = false) : (c == d) = false := by
      apply beq_false_of_ne
      rintro rfl
      rw [hd] at hc
      cases hc
    simp [isBlank, hne]
  | _ => cases hcw; decide

/-! ## A line -/

theorem scanFrom_nil : scanFrom line column [] = .ok [] := by
  rw [scanFrom]

theorem scanFrom_blank (hc : isBlank c = true) :
    scanFrom line column (c :: rest) = scanFrom line (column + 1) rest := by
  rw [scanFrom, if_pos hc]

theorem scanFrom_comment : scanFrom line column ('#' :: rest) = .ok [] := by
  rw [scanFrom, if_neg (by decide), if_pos (by decide)]

/-- A line goes on with a token, or it is refused where the token should start. -/
theorem scanFrom_cons (hblank : isBlank c = false) (hcomment : (c == '#') = false) :
    scanFrom line column (c :: rest) =
      match scanToken c rest with
      | .error fault => .error ⟨⟨line, column⟩, fault⟩
      | .ok s => (scanFrom line (column + s.spelling.length) s.rest).map
          fun others => ⟨s.token, ⟨line, column⟩⟩ :: others := by
  rw [scanFrom, hblank, hcomment]
  simp only [Bool.false_eq_true, if_false]
  split
  · rename_i fault hfault
    rw [hfault]
  · rename_i s hs
    rw [hs]
    dsimp only
    cases scanFrom line (column + s.spelling.length) s.rest <;> rfl

/-- **A token at the start of a line, and what follows it.** -/
theorem scanFrom_append (hs : Spells t w) (he : t.EndsBefore rest) :
    scanFrom line column (w ++ rest) = (scanFrom line (column + w.length) rest).map
      fun others => ⟨t, ⟨line, column⟩⟩ :: others := by
  obtain ⟨c, cs, rfl⟩ := hs.exists_cons
  obtain ⟨hblank, hcomment⟩ := hs.head
  rw [List.cons_append, scanFrom_cons hblank hcomment, scanToken_of_spells hs he]

/-! ## Tokens written out -/

/-- The shortest spelling.  A line end has none inside a line. -/
def Token.spelling : Token → List Char
  | .int n => Nat.toDigits 10 n.toNat
  | .register n => 'x' :: Nat.toDigits 10 n.toNat
  | .dot => ['.']
  | .assign => ['=']
  | .equal => ['=', '=']
  | .plus => ['+']
  | .minus => ['-']
  | .ifWord => ['i', 'f']
  | .gotoWord => ['g', 'o', 't', 'o']
  | .elseWord => ['e', 'l', 's', 'e']
  | .stopWord => ['s', 't', 'o', 'p']
  | .newline | .endOfInput => []

/-- Numbers that text can hold: without a sign, and up to a limit. -/
def InRange (n : Int) : Prop := 0 ≤ n ∧ n ≤ Numeral.maxWord

instance (n : Int) : Decidable (InRange n) := inferInstanceAs (Decidable (_ ∧ _))

/-- Tokens that a line can hold: line ends are none of them, and numbers have a limit. -/
def Token.Writable : Token → Prop
  | .int n | .register n => InRange n
  | .newline | .endOfInput => False
  | _ => True

/-- A spelling with zeros in front of its number. -/
def Token.padded (zeros : Nat) : Token → List Char
  | .int n => List.replicate zeros '0' ++ Nat.toDigits 10 n.toNat
  | .register n => 'x' :: (List.replicate zeros '0' ++ Nat.toDigits 10 n.toNat)
  | t => t.spelling

/-- **Zeros in front of a number do not change it.** -/
theorem Token.Writable.spells_padded (h : t.Writable) (zeros : Nat) :
    Spells t (t.padded zeros) := by
  have number {n : Int} (hn : InRange n) :
      List.replicate zeros '0' ++ Nat.toDigits 10 n.toNat ≠ [] ∧
      (∀ c ∈ List.replicate zeros '0' ++ Nat.toDigits 10 n.toNat, c.isDigit = true) ∧
      Numeral.ofDigits (List.replicate zeros '0' ++ Nat.toDigits 10 n.toNat) ≤ Numeral.maxWord ∧
      ((Numeral.ofDigits (List.replicate zeros '0' ++ Nat.toDigits 10 n.toNat) : Nat) : Int) =
        n := by
    have hvalue : Numeral.ofDigits (List.replicate zeros '0' ++ Nat.toDigits 10 n.toNat) =
        n.toNat := by
      rw [Numeral.ofDigits, Nat.ofDigitChars_append, Nat.ofDigitChars_replicate_zero, Nat.mul_zero]
      exact Numeral.ofDigits_toDigits n.toNat
    rw [hvalue]
    obtain ⟨hlow, hhigh⟩ := hn
    refine ⟨by simp [Nat.toDigits_ne_nil], fun c hc => ?_, by omega, by omega⟩
    rcases List.mem_append.1 hc with hc | hc
    · rw [List.eq_of_mem_replicate hc]
      decide
    · exact Nat.isDigit_of_mem_toDigits (by decide) (by decide) hc
  cases t with
  | int n =>
    obtain ⟨hne, hd, hle, hn⟩ := number h
    have := Spells.int hne hd hle
    rwa [hn] at this
  | register n =>
    obtain ⟨hne, hd, hle, hn⟩ := number h
    have := Spells.register hne hd hle
    rwa [hn] at this
  | newline => exact h.elim
  | endOfInput => exact h.elim
  | dot => exact .dot
  | assign => exact .assign
  | equal => exact .equal
  | plus => exact .plus
  | minus => exact .minus
  | ifWord => exact .ifWord
  | gotoWord => exact .gotoWord
  | elseWord => exact .elseWord
  | stopWord => exact .stopWord

theorem Token.Writable.spells (h : t.Writable) : Spells t t.spelling := by
  have hspells := h.spells_padded 0
  cases t <;> exact hspells

/-- Whatever has a spelling can be written. -/
theorem Spells.writable (h : Spells t w) : t.Writable := by
  cases h with
  | int _ _ hn => exact ⟨Int.natCast_nonneg _, Int.ofNat_le.2 hn⟩
  | register _ _ hn => exact ⟨Int.natCast_nonneg _, Int.ofNat_le.2 hn⟩
  | _ => trivial

/-- A token with a blank in front, unless it is a dot. -/
def spaced (t : Token) : List Char := if t = .dot then t.spelling else ' ' :: t.spelling

/-- Tokens in a line, with a blank before each but the first and the dots. -/
def written : List Token → List Char
  | [] => []
  | t :: ts => t.spelling ++ ts.flatMap spaced

theorem Token.newline_not_mem_spelling (t : Token) : '\n' ∉ t.spelling := by
  have digits (n : Nat) : '\n' ∉ Nat.toDigits 10 n := by
    intro h
    exact absurd (Nat.isDigit_of_mem_toDigits (by decide) (by decide) h) (by decide)
  cases t <;> simp [Token.spelling, digits]

/-- Nothing that is written in a line ends it. -/
theorem newline_not_mem_written (ts : List Token) : '\n' ∉ written ts := by
  have hspaced (t : Token) : '\n' ∉ spaced t := by
    unfold spaced
    split <;> simp [Token.newline_not_mem_spelling]
  cases ts with
  | nil => simp [written]
  | cons t ts => simp [written, Token.newline_not_mem_spelling, hspaced]

/-- Neither a blank nor a dot makes a token longer. -/
theorem endsBefore_spaced (t : Token) (ts : List Token) : t.EndsBefore (ts.flatMap spaced) := by
  cases ts with
  | nil => intro c hc; cases hc
  | cons u us =>
    intro c hc
    have hhead : c = '.' ∨ c = ' ' := by
      by_cases hu : u = .dot
      · simp [spaced, hu, Token.spelling] at hc
        exact .inl hc.symm
      · simp [spaced, hu] at hc
        exact .inr hc.symm
    rcases hhead with rfl | rfl <;> cases t <;> rfl

theorem scanFrom_spelling_append {ts : List Token} {others : List Lexeme} (ht : t.Writable)
    (h : scanFrom line (column + t.spelling.length) (ts.flatMap spaced) = .ok others) :
    scanFrom line column (t.spelling ++ ts.flatMap spaced) =
      .ok (⟨t, ⟨line, column⟩⟩ :: others) := by
  rw [scanFrom_append ht.spells (endsBefore_spaced t ts), h]
  rfl

theorem scanFrom_spaced {ts : List Token} (h : ∀ t ∈ ts, t.Writable) (line column : Nat) :
    ∃ lexemes, scanFrom line column (ts.flatMap spaced) = .ok lexemes ∧
      lexemes.map Lexeme.token = ts := by
  induction ts generalizing column with
  | nil => exact ⟨[], scanFrom_nil, rfl⟩
  | cons t ts ih =>
    have ht := h t List.mem_cons_self
    have ih := ih fun u hu => h u (List.mem_cons_of_mem t hu)
    rw [List.flatMap_cons, spaced]
    split
    · obtain ⟨others, hscan, hmap⟩ := ih (column + t.spelling.length)
      exact ⟨_, scanFrom_spelling_append ht hscan, by simp [hmap]⟩
    · obtain ⟨others, hscan, hmap⟩ := ih (column + 1 + t.spelling.length)
      rw [List.cons_append, scanFrom_blank (by decide)]
      exact ⟨_, scanFrom_spelling_append ht hscan, by simp [hmap]⟩

/-- **Written tokens are scanned as they were,** and the first stands in the first column. -/
theorem scanLine_written {ts : List Token} (h : ∀ t ∈ ts, t.Writable) (line : Nat) :
    ∃ lexemes, scanLine line (written ts) = .ok lexemes ∧ lexemes.map Lexeme.token = ts ∧
      ∀ x ∈ lexemes.head?, x.position = ⟨line, 1⟩ := by
  cases ts with
  | nil => exact ⟨[], scanFrom_nil, rfl, fun x hx => by cases hx⟩
  | cons t ts =>
    obtain ⟨others, hscan, hmap⟩ :=
      scanFrom_spaced (fun u hu => h u (List.mem_cons_of_mem t hu)) line (1 + t.spelling.length)
    exact ⟨_, scanFrom_spelling_append (h t List.mem_cons_self) hscan, by simp [hmap], by simp⟩

end RegisterMachine.Source
