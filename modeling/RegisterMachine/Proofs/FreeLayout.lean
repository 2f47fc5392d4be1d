import RegisterMachine.Proofs.Layouts
import RegisterMachine.Proofs.LineGrammar

/-!
# Blanks, comments and zeros do not matter

The same tokens can be written out in many ways.  Numbers may have zeros in front, any blanks may
stand before, between and behind the tokens, and a line may end with a comment.  All of these texts
are scanned to the same tokens, so the same instructions are read from them.

* `WrittenOut ts text` — a way to write out the tokens `ts`; `exists_writtenOut` — there is one for
  all tokens that have a spelling, and for line ends.
* `Token.EndsBefore.gap` — a token does not go on into a gap; `WrittenOut.endsBefore` — nor into
  what is written out behind it.
* `WrittenOut.exists_layout` — a text that is written out is laid out as these tokens.

Principal result: `layout_does_not_matter` — what is scanned and read does not depend on the way of
writing.
-/

set_option autoImplicit false

namespace RegisterMachine.Source

variable {t : Token} {ts : List Token} {c : Char} {g rest text : List Char}

/-- `WrittenOut ts text`: the tokens are written in turn, with any blanks around them.  Two tokens
of a line have at least one blank between them; next to a line end none is needed.  A comment may
stand before a line end and at the end of the text. -/
inductive WrittenOut : List Token → List Char → Prop
  | nil {g : List Char} (hg : Gap g []) : WrittenOut [] g
  | newline {ts : List Token} {g rest : List Char} (hg : Gap g ('\n' :: rest))
      (hmore : WrittenOut ts rest) :
      WrittenOut (.newline :: ts) (g ++ '\n' :: rest)
  | token {t : Token} {ts : List Token} {g rest : List Char} (zeros : Nat) (ht : t.Writable)
      (hg : ∀ c ∈ g, isBlank c = true)
      (hparted : ∀ u ∈ ts.head?, u ≠ .newline → ∃ c ∈ rest.head?, isBlank c = true)
      (hmore : WrittenOut ts rest) : WrittenOut (t :: ts) (g ++ (t.padded zeros ++ rest))

/-! ## There is always a way -/

theorem WrittenOut.cons_blank (hc : isBlank c = true) (h : WrittenOut ts text) :
    WrittenOut ts (c :: text) := by
  cases h with
  | nil hg => exact .nil (hg.cons hc)
  | newline hg hmore => exact .newline (hg.cons hc) hmore
  | token zeros ht hg hparted hmore =>
    exact .token (g := c :: _) zeros ht (List.forall_mem_cons.2 ⟨hc, hg⟩) hparted hmore

theorem exists_writtenOut (h : ∀ t ∈ ts, t = .newline ∨ t.Writable) :
    ∃ text, WrittenOut ts text := by
  induction ts with
  | nil => exact ⟨[], .nil (.blanks (by simp))⟩
  | cons t ts ih =>
    obtain ⟨text, htext⟩ := ih fun u hu => h u (List.mem_cons_of_mem t hu)
    rcases h t List.mem_cons_self with rfl | ht
    · exact ⟨_, .newline (g := []) (.blanks (by simp)) htext⟩
    · refine ⟨_,
        .token (g := []) 0 ht (by simp) (fun u _ _ => ?_) (htext.cons_blank (c := ' ') rfl)⟩
      exact ⟨' ', rfl, rfl⟩

/-! ## Written out is laid out -/

/-- Neither a blank nor the sign of a comment makes a token longer. -/
theorem Token.continues_gap (hc : isBlank c = true ∨ c = '#') : t.continues c = false := by
  have hcases : c = ' ' ∨ c = '\t' ∨ c = '\r' ∨ c = '#' := by
    simpa [isBlank, or_assoc] using hc
  rcases hcases with rfl | rfl | rfl | rfl <;> cases t <;> rfl

/-- **A token does not go on into a gap.** -/
theorem Token.EndsBefore.gap (he : t.EndsBefore rest) (hg : Gap g rest) :
    t.EndsBefore (g ++ rest) := by
  have hblank {b more : List Char} (hb : ∀ c ∈ b, isBlank c = true) (hmore : t.EndsBefore more) :
      t.EndsBefore (b ++ more) := by
    cases b with
    | nil => exact hmore
    | cons d ds =>
      intro c hc
      cases hc
      exact Token.continues_gap (.inl (hb d List.mem_cons_self))
  cases hg with
  | blanks hb => exact hblank hb he
  | comment hb _ _ =>
    rw [List.append_assoc]
    refine hblank hb fun c hc => ?_
    cases hc
    exact Token.continues_gap (.inr rfl)

/-- A token does not go on into what is written out behind it. -/
theorem WrittenOut.endsBefore (h : WrittenOut ts rest)
    (hparted : ∀ u ∈ ts.head?, u ≠ .newline → ∃ c ∈ rest.head?, isBlank c = true) (t : Token) :
    t.EndsBefore rest := by
  cases h with
  | nil hg =>
    have hnil : t.EndsBefore [] := fun c hc => by cases hc
    simpa using hnil.gap hg
  | newline hg _ =>
    refine Token.EndsBefore.gap (fun c hc => ?_) hg
    cases hc
    exact t.continues_newline
  | @token u _ _ _ _ hu _ _ _ =>
    intro c hc
    have hne : u ≠ .newline := by
      rintro rfl
      exact hu
    obtain ⟨d, hd, hblank⟩ := hparted u rfl hne
    cases Option.mem_unique hc hd
    exact Token.continues_gap (.inl hblank)

/-- **A text that is written out is laid out as its tokens.** -/
theorem WrittenOut.exists_layout (h : WrittenOut ts text) (before : List Char) :
    ∃ lexemes, Layout before text lexemes ∧ lexemes.map Lexeme.token = ts ++ [.endOfInput] := by
  induction h generalizing before with
  | nil hg => exact ⟨_, .endOfInput hg, rfl⟩
  | newline hg _ ih =>
    obtain ⟨lexemes, hlayout, htokens⟩ := ih (before ++ _ ++ ['\n'])
    exact ⟨_, .newline hg hlayout, by simp [htokens]⟩
  | token zeros ht hg hparted hmore ih =>
    obtain ⟨lexemes, hlayout, htokens⟩ := ih (before ++ _ ++ _)
    refine ⟨_, .token (.blanks hg) (ht.spells_padded zeros) ?_ hlayout, by simp [htokens]⟩
    exact hmore.endsBefore hparted _

/-- **The way of writing does not matter.**  A text that writes out tokens is scanned to just these
tokens and the end of input.  So from two texts that write out the same tokens the same instructions
are read, or from neither.  Line ends, and all tokens that have a spelling, can be written out. -/
theorem layout_does_not_matter :
    (∀ (ts : List Token) (source : String), WrittenOut ts source.toList →
      ∃ lexemes, tokenize source = .ok lexemes ∧ lexemes.map Lexeme.token = ts ++ [.endOfInput]) ∧
    (∀ (ts : List Token) (a b : String), WrittenOut ts a.toList → WrittenOut ts b.toList →
      ∀ is, parse a = .ok is ↔ parse b = .ok is) ∧
    ∀ ts : List Token, (∀ t ∈ ts, t = .newline ∨ t.Writable) → ∃ text, WrittenOut ts text := by
  have hscan (ts : List Token) (source : String) (h : WrittenOut ts source.toList) :
      ∃ lexemes, tokenize source = .ok lexemes ∧
        lexemes.map Lexeme.token = ts ++ [.endOfInput] := by
    obtain ⟨lexemes, hlayout, htokens⟩ := h.exists_layout []
    exact ⟨lexemes, tokenize_eq_ok_iff.2 hlayout, htokens⟩
  refine ⟨hscan, fun ts a b ha hb is => ?_, fun ts => exists_writtenOut⟩
  obtain ⟨xs, hxs, hxtokens⟩ := hscan ts a ha
  obtain ⟨ys, hys, hytokens⟩ := hscan ts b hb
  rw [parse, hxs, ok_bind, parse, hys, ok_bind, parseLexemes_eq_ok_iff, parseLexemes_eq_ok_iff,
    hxtokens, hytokens]

/-- A line with single blanks, and the same line with zeros, tabs, and a comment before a carriage
return. -/
theorem layout_does_not_matter_in_one_line :
    (∃ lexemes, tokenize "\t007 .\t stop # x1\r\n\r" = .ok lexemes ∧
      lexemes.map Lexeme.token = [.int 7, .dot, .stopWord, .newline, .endOfInput]) ∧
    ∀ is, parse "7 . stop\n" = .ok is ↔ parse "\t007 .\t stop # x1\r\n\r" = .ok is := by
  have ha : WrittenOut [.int 7, .dot, .stopWord, .newline] "7 . stop\n".toList := by
    rw [show "7 . stop\n".toList = ['7', ' ', '.', ' ', 's', 't', 'o', 'p', '\n'] by decide +kernel]
    refine .token (g := []) 0 ⟨by decide, by decide⟩ (by simp) (fun _ _ _ => ⟨' ', rfl, rfl⟩) ?_
    refine .token (g := [' ']) 0 trivial (by simp [isBlank]) (fun _ _ _ => ⟨' ', rfl, rfl⟩) ?_
    refine .token (g := [' ']) 0 trivial (by simp [isBlank]) (by simp) ?_
    exact .newline (g := []) (.blanks (by simp)) (.nil (.blanks (by simp)))
  have hb : WrittenOut [.int 7, .dot, .stopWord, .newline] "\t007 .\t stop # x1\r\n\r".toList := by
    rw [show "\t007 .\t stop # x1\r\n\r".toList =
      ['\t', '0', '0', '7', ' ', '.', '\t', ' ', 's', 't', 'o', 'p', ' ', '#', ' ', 'x', '1',
        '\r', '\n', '\r'] by decide +kernel]
    refine .token (g := ['\t']) 2 ⟨by decide, by decide⟩ (by simp [isBlank])
      (fun _ _ _ => ⟨' ', rfl, rfl⟩) ?_
    refine .token (g := [' ']) 0 trivial (by simp [isBlank]) (fun _ _ _ => ⟨'\t', rfl, rfl⟩) ?_
    refine .token (g := ['\t', ' ']) 0 trivial (by simp [isBlank]) (by simp) ?_
    have hcomment : Gap [' ', '#', ' ', 'x', '1', '\r'] ['\n', '\r'] :=
      .comment (g := [' ']) (by simp [isBlank]) (by decide) (by simp)
    exact .newline hcomment (.nil (.blanks (by simp [isBlank])))
  exact ⟨layout_does_not_matter.1 _ _ hb, layout_does_not_matter.2.1 _ _ _ ha hb⟩

end RegisterMachine.Source
