import Mathlib.Data.List.TakeWhile
import RegisterMachine.Proofs.Phrases
import RegisterMachine.Proofs.Spelling

/-!
# Which lists of tokens are accepted

A list of tokens is accepted if every line of it is blank or a phrase with usable numbers.  The
tokens behind the first end of input belong to no line.

* `Reader.Passes r c P` — whatever `r` reads from `c`, the tokens that it passes are related to it
  by `P`.  There is one rule for each of the readers that lines are read with; `passes_draft` — what
  is read as a draft is a phrase for it.
* `LineMeans ts o` — a line of the tokens `ts` is blank, and `o` is `none`, or describes the
  instruction in `o`; `lineMeans_some_iff` — that is, it is a phrase with the numbers of a
  well-formed instruction.
* `parseLine_eq_ok_iff` — a line is accepted exactly if it means something.
* `tokenLines ts` — the lines of a list of tokens; `TextMeans lines is` — lines that describe `is`
  in order.
* `parseLexemes_eq_ok_iff` — a list is accepted exactly if its lines are.

Principal result: `grammar_decides_acceptance` — this, and that nothing behind the first end of
input matters.
-/

set_option autoImplicit false

namespace RegisterMachine.Source

variable {c : Cursor} {t : Token} {ts us : List Token} {i : Instruction} {is : List Instruction}
  {o : Option Instruction} {line after lexemes : List Lexeme}

/-! ## What readers pass -/

namespace Reader

variable {α β : Type} {P : List Token → α → Prop} {what : Expectation}

/-- Whatever `r` reads from `c`, the tokens that it passes are related to it by `P`. -/
def Passes (r : Reader α) (c : Cursor) (P : List Token → α → Prop) : Prop :=
  ∀ a c', r.run c = .ok (a, c') →
    ∃ ts, c.rest.map Lexeme.token = ts ++ c'.rest.map Lexeme.token ∧ P ts a

theorem passes_pure {a : α} (h : P [] a) : Passes (pure a) c P := by
  intro b c' hb
  cases hb
  exact ⟨[], rfl, h⟩

theorem passes_fail {fault : Fault} : Passes (fail fault) c P := by
  intro a c' h
  cases h

theorem passes_unexpected : Passes (unexpected what) c P := by
  intro a c' h
  cases h

/-- Readers after one another pass their tokens after one another. -/
theorem Passes.bind {r : Reader β} {k : β → Reader α}
    (h : Passes r c fun ts b => ∀ c', Passes (k b) c' fun us a => P (ts ++ us) a) :
    Passes (r >>= k) c P := by
  intro a c' hrun
  rw [StateT.run_bind] at hrun
  obtain ⟨⟨b, c₁⟩, hb, ha⟩ := bind_eq_ok_iff.1 hrun
  obtain ⟨ts, hts, hk⟩ := h b c₁ hb
  obtain ⟨us, hus, hP⟩ := hk c₁ a c' ha
  exact ⟨ts ++ us, by rw [hts, hus, List.append_assoc], hP⟩

theorem passes_skip {P : List Token → Unit → Prop} (hc : c.peek = some t) (h : P [t] ()) :
    Passes skip c P := by
  intro a c' hrun
  cases hrun
  refine ⟨[t], ?_, h⟩
  obtain ⟨last, rest⟩ := c
  cases rest with
  | nil => cases hc
  | cons x xs =>
    cases hc
    rfl

/-- A look at the next token passes nothing. -/
theorem passes_peek {k : Option Token → Reader α} (h : Passes (k c.peek) c P) :
    Passes (peek >>= k) c P := h

theorem passes_token {P : List Token → Unit → Prop} (h : P [t] ()) : Passes (token t what) c P := by
  refine passes_peek ?_
  split
  · exact passes_skip ‹_› h
  · exact passes_unexpected

theorem passes_int {P : List Token → Int → Prop} (h : ∀ n, P [.int n] n) :
    Passes (int what) c P := by
  refine passes_peek ?_
  split
  · rename_i n hn
    exact (passes_skip hn fun c' => passes_pure (h n)).bind
  · exact passes_unexpected

theorem passes_register {P : List Token → Int → Prop} (h : ∀ n, P [.register n] n) :
    Passes register c P := by
  refine passes_peek ?_
  split
  · rename_i n hn
    exact (passes_skip hn fun c' => passes_pure (h n)).bind
  · exact passes_unexpected

theorem passes_branch {label : Int} {P : List Token → Draft → Prop}
    (h : ∀ register ifZero otherwise, P [.register register, .equal, .int 0, .gotoWord, .int ifZero,
        .elseWord, .gotoWord, .int otherwise] (.branch label register ifZero otherwise)) :
    Passes (branch label) c P := by
  refine Passes.bind (passes_register fun register c => ?_)
  refine Passes.bind (passes_token fun c => ?_)
  refine Passes.bind (passes_int fun zero c => ?_)
  dsimp only
  split
  · exact passes_fail.bind
  · rename_i hzero
    obtain rfl : zero = 0 := not_not.1 hzero
    refine Passes.bind (passes_token fun c => ?_)
    refine Passes.bind (passes_int fun ifZero c => ?_)
    refine Passes.bind (passes_token fun c => ?_)
    refine Passes.bind (passes_token fun c => ?_)
    refine Passes.bind (passes_int fun otherwise c => ?_)
    exact passes_pure (h register ifZero otherwise)

theorem passes_step {dest source : Int} {result : Draft} {P : List Token → Draft → Prop}
    (hc : c.peek = some t) (h : source = dest → P [t, .int 1] result) :
    Passes (update.step dest source result) c P := by
  refine Passes.bind (passes_skip hc fun c => ?_)
  refine Passes.bind (passes_int fun one c => ?_)
  dsimp only
  split
  · exact passes_fail.bind
  · rename_i hone
    obtain rfl : one = 1 := not_not.1 hone
    split
    · exact passes_fail.bind
    · rename_i hsource
      exact passes_pure (h (not_not.1 hsource))

theorem passes_update {label dest source : Int} {P : List Token → Draft → Prop}
    (hplus : source = dest → P [.plus, .int 1] (.increment label dest))
    (hminus : source = dest → P [.minus, .int 1] (.decrement label dest))
    (hcopy : P [] (.copy label dest source)) : Passes (update label dest source) c P := by
  refine passes_peek ?_
  split
  · exact passes_step ‹_› hplus
  · exact passes_step ‹_› hminus
  · exact passes_pure hcopy

/-- **What is read as a draft is a phrase for it.** -/
theorem passes_draft : Passes draft c Phrase := by
  refine Passes.bind (passes_int fun label c => ?_)
  refine Passes.bind (passes_token fun c => ?_)
  refine passes_peek ?_
  split
  · exact Passes.bind (passes_skip ‹_› fun c => passes_pure (.stop label))
  · exact Passes.bind (passes_skip ‹_› fun c => passes_branch (.branch label))
  · refine Passes.bind (passes_register fun dest c => ?_)
    refine Passes.bind (passes_token fun c => ?_)
    refine passes_peek ?_
    split
    · exact Passes.bind (passes_int fun value c => passes_pure (.set label dest value))
    · refine Passes.bind (passes_skip ‹_› fun c => ?_)
      exact Passes.bind (passes_int fun value c => passes_pure (.setNegated label dest value))
    · refine Passes.bind (passes_register fun source c => ?_)
      refine passes_update ?_ ?_ (.copy label dest source)
      · rintro rfl
        exact .increment label source
      · rintro rfl
        exact .decrement label source
    · exact passes_unexpected
  · exact passes_unexpected

theorem lineEnd_eq_ok {u : Unit} {c' : Cursor} (h : lineEnd.run c = .ok (u, c')) :
    c' = c ∧ ∀ x ∈ c.rest.head?, x.token.endsLine = true := by
  obtain ⟨last, rest⟩ := c
  cases rest with
  | nil =>
    cases h
    exact ⟨rfl, by simp⟩
  | cons x xs =>
    have hline : lineEnd.run ⟨last, x :: xs⟩ =
      (if x.token.endsLine then pure () else unexpected .endOfLine : Reader Unit).run
        ⟨last, x :: xs⟩ := rfl
    rw [hline] at h
    split at h
    · rename_i hx
      cases h
      exact ⟨rfl, by simp [hx]⟩
    · cases h

end Reader

/-! ## One line -/

/-- A line is blank, or it is a phrase whose numbers make an instruction. -/
inductive LineMeans : List Token → Option Instruction → Prop
  | blank : LineMeans [] none
  | phrase {ts : List Token} {d : Draft} {i : Instruction} (hp : Phrase ts d)
      (hb : d.build = .ok i) : LineMeans ts (some i)

/-- **A line means an instruction** if it is a phrase with the numbers of that instruction, and the
instruction is well-formed. -/
theorem lineMeans_some_iff : LineMeans ts (some i) ↔ Phrase ts i.draft ∧ i.WellFormed := by
  constructor
  · intro h
    cases h with
    | phrase hp hb =>
      obtain ⟨rfl, hw⟩ := Draft.build_eq_ok_iff.1 hb
      exact ⟨hp, hw⟩
  · rintro ⟨hp, hw⟩
    exact .phrase hp (Draft.build_draft hw)

/-- A line that is read is a phrase up to its end. -/
theorem phrase_of_instruction {start : Position} {c' : Cursor}
    (h : (Reader.instruction start).run c = .ok (i, c')) :
    ∃ ts d, Phrase ts d ∧ d.build = .ok i ∧
      c.rest.map Lexeme.token = ts ++ c'.rest.map Lexeme.token ∧
      ∀ x ∈ c'.rest.head?, x.token.endsLine = true := by
  rw [Reader.instruction, StateT.run_bind] at h
  obtain ⟨⟨d, c₁⟩, hd, h⟩ := bind_eq_ok_iff.1 h
  obtain ⟨ts, hts, hp⟩ := Reader.passes_draft d c₁ hd
  dsimp only at h
  cases hb : d.build with
  | error cause => rw [hb] at h; cases h
  | ok j =>
    rw [hb] at h
    dsimp only at h
    rw [StateT.run_bind] at h
    obtain ⟨⟨_, c₂⟩, hend, hret⟩ := bind_eq_ok_iff.1 h
    obtain ⟨rfl, hhead⟩ := Reader.lineEnd_eq_ok hend
    cases hret
    exact ⟨ts, d, hp, hb, hts, hhead⟩

/-- Two lists that agree have the same first line. -/
theorem line_eq_of_append_eq {ts us vs ws : List Token} (ht : ∀ t ∈ ts, t.endsLine = false)
    (hu : ∀ t ∈ us, t.endsLine = false) (hv : ∀ t ∈ vs.head?, t.endsLine = true)
    (hw : ∀ t ∈ ws.head?, t.endsLine = true) (h : ts ++ vs = us ++ ws) : ts = us := by
  have first {xs ys : List Token} (hx : ∀ t ∈ xs, t.endsLine = false)
      (hy : ∀ t ∈ ys.head?, t.endsLine = true) : (xs ++ ys).takeWhile (!·.endsLine) = xs :=
    (takeWhile_append_of_head (fun t ht => by simp [hx t ht]) fun t ht => by simp [hy t ht]).1
  rw [← first ht hv, h, first hu hw]

/-- **A line is accepted exactly if it means something,** whatever token ends it. -/
theorem parseLine_eq_ok_iff (hl : ∀ x ∈ line, x.token.endsLine = false)
    (ha : ∀ x ∈ after.head?, x.token.endsLine = true) :
    parseLine (line ++ after) = .ok o ↔ LineMeans (line.map Lexeme.token) o := by
  constructor
  · intro h
    cases line with
    | nil =>
      have hnone : parseLine ([] ++ after) = .ok none := by
        cases after with
        | nil => rfl
        | cons x xs => exact if_pos (ha x rfl)
      rw [hnone] at h
      cases h
      exact .blank
    | cons x xs =>
      rw [List.cons_append, parseLine, if_neg (by simp [hl x List.mem_cons_self])] at h
      obtain ⟨⟨i, c'⟩, hi, h⟩ := bind_eq_ok_iff.1 h
      cases h
      obtain ⟨ts, d, hp, hb, hts, hhead⟩ := phrase_of_instruction hi
      have heq : (x :: xs).map Lexeme.token = ts := by
        rw [← List.cons_append, List.map_append] at hts
        refine line_eq_of_append_eq ?_ hp.endsLine_eq_false ?_ ?_ hts
        · simpa using hl
        · simpa using ha
        · simpa using hhead
      rw [heq]
      exact .phrase hp hb
  · generalize htokens : line.map Lexeme.token = tokens
    intro h
    cases h with
    | blank =>
      obtain rfl := List.map_eq_nil_iff.1 htokens
      cases after with
      | nil => rfl
      | cons x xs => exact if_pos (ha x rfl)
    | phrase hp hb =>
      subst htokens
      obtain ⟨first, more, rfl⟩ := List.exists_cons_of_ne_nil (List.map_eq_nil_iff.not.1 hp.ne_nil)
      rw [parseLine_of_phrase hp rfl ha, hb]
      rfl

/-! ## Many lines -/

/-- The lines of a list of tokens, up to the first end of input. -/
def tokenLines (ts : List Token) : List (List Token) :=
  (ts.takeWhile (· != .endOfInput)).splitOn .newline

/-- The lines describe the instructions `is`, one after the other. -/
def TextMeans (lines : List (List Token)) (is : List Instruction) : Prop :=
  ∃ os, List.Forall₂ LineMeans lines os ∧ os.reduceOption = is

theorem tokenLines_append_newline (h : .endOfInput ∉ ts) :
    tokenLines (ts ++ .newline :: us) = tokenLines ts ++ tokenLines us := by
  have hall : ∀ t ∈ ts, (t != .endOfInput) = true := fun t ht => bne_iff_ne.2 fun e => h (e ▸ ht)
  have hself : ts.takeWhile (· != .endOfInput) = ts := List.takeWhile_eq_self_iff.2 hall
  rw [tokenLines, List.takeWhile_append_of_pos hall, List.takeWhile_cons_of_pos rfl,
    List.splitOn_append_cons_self, tokenLines, hself, tokenLines]

theorem tokenLines_append_endOfInput (h : .endOfInput ∉ ts) :
    tokenLines (ts ++ .endOfInput :: us) = tokenLines ts := by
  have hall : ∀ t ∈ ts, (t != .endOfInput) = true := fun t ht => bne_iff_ne.2 fun e => h (e ▸ ht)
  have hself : ts.takeWhile (· != .endOfInput) = ts := List.takeWhile_eq_self_iff.2 hall
  rw [tokenLines, List.takeWhile_append_of_pos hall, List.takeWhile_cons_of_neg (by simp),
    List.append_nil, tokenLines, hself]

/-- A list without line ends is one line. -/
theorem tokenLines_of_line (h : ∀ t ∈ ts, t.endsLine = false) : tokenLines ts = [ts] := by
  have hend : ∀ t ∈ ts, (t != .endOfInput) = true := by
    intro t ht
    refine bne_iff_ne.2 ?_
    rintro rfl
    cases h _ ht
  have hnewline : .newline ∉ ts := fun ht => by cases h _ ht
  rw [tokenLines, List.takeWhile_eq_self_iff.2 hend, List.splitOn_eq_singleton hnewline]

theorem textMeans_cons {lines : List (List Token)} :
    TextMeans (ts :: lines) is ↔
      ∃ o js, LineMeans ts o ∧ TextMeans lines js ∧ o.toList ++ js = is := by
  constructor
  · rintro ⟨os, hos, rfl⟩
    obtain ⟨o, more, ho, hmore, rfl⟩ := List.forall₂_cons_left_iff.1 hos
    refine ⟨o, _, ho, ⟨more, hmore, rfl⟩, ?_⟩
    cases o <;> rfl
  · rintro ⟨o, js, ho, ⟨more, hmore, rfl⟩, rfl⟩
    refine ⟨o :: more, .cons ho hmore, ?_⟩
    cases o <;> rfl

theorem textMeans_nil : TextMeans [] is ↔ is = [] := by
  constructor
  · rintro ⟨os, hos, rfl⟩
    cases hos
    rfl
  · rintro rfl
    exact ⟨[], .nil, rfl⟩

theorem textMeans_singleton : TextMeans [ts] is ↔ ∃ o, LineMeans ts o ∧ o.toList = is := by
  rw [textMeans_cons]
  simp [textMeans_nil]

/-- Lines behind other lines describe more instructions. -/
theorem textMeans_append {lines more : List (List Token)} :
    TextMeans (lines ++ more) is ↔
      ∃ js ks, TextMeans lines js ∧ TextMeans more ks ∧ js ++ ks = is := by
  induction lines generalizing is with
  | nil => simp [textMeans_nil]
  | cons ts lines ih =>
    rw [List.cons_append, textMeans_cons]
    constructor
    · rintro ⟨o, rest, ho, hrest, rfl⟩
      obtain ⟨js, ks, hjs, hks, rfl⟩ := ih.1 hrest
      exact ⟨o.toList ++ js, ks, textMeans_cons.2 ⟨o, js, ho, hjs, rfl⟩, hks, List.append_assoc ..⟩
    · rintro ⟨first, ks, hfirst, hks, rfl⟩
      obtain ⟨o, js, ho, hjs, rfl⟩ := textMeans_cons.1 hfirst
      exact ⟨o, js ++ ks, ho, ih.2 ⟨js, ks, hjs, hks, rfl⟩, (List.append_assoc ..).symm⟩

/-- A blank line at the end describes nothing. -/
theorem textMeans_append_blank {lines : List (List Token)} :
    TextMeans (lines ++ [[]]) is ↔ TextMeans lines is := by
  have hblank (ks : List Instruction) : TextMeans [[]] ks ↔ ks = [] := by
    rw [textMeans_singleton]
    constructor
    · rintro ⟨o, ho, rfl⟩
      generalize hts : ([] : List Token) = ts at ho
      cases ho with
      | blank => rfl
      | phrase hp _ => exact absurd hts.symm hp.ne_nil
    · rintro rfl
      exact ⟨none, .blank, rfl⟩
  rw [textMeans_append]
  simp [hblank]

/-- Every list starts with a line, and goes on with the token that ends it. -/
theorem exists_line (lexemes : List Lexeme) : ∃ line after, lexemes = line ++ after ∧
    (∀ x ∈ line, x.token.endsLine = false) ∧ ∀ x ∈ after.head?, x.token.endsLine = true := by
  induction lexemes with
  | nil => exact ⟨[], [], rfl, by simp, by simp⟩
  | cons x xs ih =>
    cases hx : x.token.endsLine with
    | true => exact ⟨[], x :: xs, rfl, by simp, by simp [hx]⟩
    | false =>
      obtain ⟨line, after, rfl, hl, ha⟩ := ih
      exact ⟨x :: line, after, rfl, by simpa [hx] using hl, ha⟩

/-- **A list is accepted exactly if its lines mean something.** -/
theorem parseLexemes_eq_ok_iff :
    parseLexemes lexemes = .ok is ↔ TextMeans (tokenLines (lexemes.map Lexeme.token)) is := by
  induction hn : lexemes.length using Nat.strongRecOn generalizing lexemes is with
  | ind n ih =>
    obtain ⟨line, after, rfl, hl, ha⟩ := exists_line lexemes
    have htokens : ∀ t ∈ line.map Lexeme.token, t.endsLine = false := by simpa using hl
    have hend : .endOfInput ∉ line.map Lexeme.token := fun h => by cases htokens _ h
    have hhead : ∀ x ∈ (after.take 1).head?, x.token.endsLine = true := by
      simpa [List.head?_take] using ha
    have hline (o : Option Instruction) := parseLine_eq_ok_iff (o := o) hl hhead
    -- the line gives its own instruction, and the rest is a shorter list unless the input ends
    have hfirst : parseLexemes (line ++ after) = .ok is ↔
        ∃ o js, LineMeans (line.map Lexeme.token) o ∧ parseLexemes after = .ok js ∧
          o.toList ++ js = is := by
      rw [parseLexemes_line hl ha, bind_eq_ok_iff]
      simp only [bind_eq_ok_iff, hline]
      constructor
      · rintro ⟨o, ho, js, hjs, h⟩
        exact ⟨o, js, ho, hjs, Except.ok.inj h⟩
      · rintro ⟨o, js, ho, hjs, rfl⟩
        exact ⟨o, ho, js, hjs, rfl⟩
    rw [hfirst, List.map_append]
    cases after with
    | nil =>
      have hnil : parseLexemes [] = .ok [] := rfl
      rw [hnil, List.map_nil, List.append_nil, tokenLines_of_line htokens]
      simp [textMeans_singleton]
    | cons x xs =>
      obtain ⟨t, position⟩ := x
      cases t with
      | newline =>
        have hlt : xs.length < n := by
          simp at hn
          omega
        rw [parseLexemes_newline rfl, List.map_cons, tokenLines_append_newline hend,
          tokenLines_of_line htokens, List.singleton_append, textMeans_cons]
        simp only [ih xs.length hlt rfl]
      | endOfInput =>
        rw [parseLexemes_endOfInput rfl, List.map_cons, tokenLines_append_endOfInput hend,
          tokenLines_of_line htokens]
        simp [textMeans_singleton]
      | _ => cases ha _ rfl

/-- Nothing behind an end of input belongs to a line. -/
theorem splitLines_endOfInput (before : List Lexeme) (position : Position) (after : List Lexeme) :
    splitLines (before ++ ⟨.endOfInput, position⟩ :: after) =
      splitLines (before ++ [⟨.endOfInput, position⟩]) := by
  unfold splitLines
  rw [List.foldr_append, List.foldr_append]
  rfl

/-- **Lists of tokens are accepted exactly by the grammar.**  The tokens before the first end of
input, or all of them if there is none, are cut into lines at the newlines.  The list is accepted if
every line is blank or a phrase whose numbers make an instruction, and these instructions are the
result, in order.  Numbers make an instruction if they are those of a well-formed one.  Where the
tokens stand does not matter, and what is behind an end of input matters neither for a result nor
for a complaint. -/
theorem grammar_decides_acceptance :
    (∀ (lexemes : List Lexeme) (is : List Instruction), parseLexemes lexemes = .ok is ↔
      ∃ os, List.Forall₂ LineMeans (tokenLines (lexemes.map Lexeme.token)) os ∧
        os.reduceOption = is) ∧
    (∀ (ts : List Token) (i : Instruction),
      LineMeans ts (some i) ↔ Phrase ts i.draft ∧ i.WellFormed) ∧
    ∀ (before after after' : List Lexeme) (position : Position),
      parseLexemes (before ++ ⟨.endOfInput, position⟩ :: after) =
        parseLexemes (before ++ ⟨.endOfInput, position⟩ :: after') := by
  refine ⟨fun lexemes is => parseLexemes_eq_ok_iff, fun ts i => lineMeans_some_iff,
    fun before after after' position => ?_⟩
  rw [parseLexemes, splitLines_endOfInput before position after, parseLexemes,
    splitLines_endOfInput before position after']

/-- A blank line, an instruction, and a line that is cut off by an end of input. -/
example (start : Position) : parseLexemes
    [⟨.newline, start⟩, ⟨.int 7, start⟩, ⟨.dot, start⟩, ⟨.register 2, start⟩, ⟨.assign, start⟩,
      ⟨.register 2, start⟩, ⟨.minus, start⟩, ⟨.int 1, start⟩, ⟨.newline, start⟩,
      ⟨.endOfInput, start⟩, ⟨.elseWord, start⟩] = .ok [⟨7, .decrement 2⟩] := by
  rfl

end RegisterMachine.Source
