import RegisterMachine.Proofs.AdmissionPaths
import RegisterMachine.Proofs.JoinedSources
import RegisterMachine.Proofs.ProgramCodec

/-!
# Programs come back from their text

The text of a program has one line for each instruction and none for a gap.  Gaps come back from the
labels.

* `Instruction.line_draft` — the text of an instruction is the line of its draft.
* `parseOne_text` — so a line is read as the instruction that it was written for.
* `parse_texts` — so a text is read as the instructions that it was written for, in order.
* `constructible_of_parse` — whatever is read from a text is such an instruction.

Principal result: `text_round_trip` — instructions and programs come back from their text, so
programs with one text are equal.
-/

set_option autoImplicit false

namespace RegisterMachine

open Source

variable {i : Instruction} {is : List Instruction}

/-! ## One instruction -/

theorem toString_natCast (n : Nat) : toString (n : Int) = toString n := rfl

/-- The text of an instruction is the line of its draft. -/
theorem Instruction.line_draft (i : Instruction) : i.draft.line = i.text := by
  obtain ⟨label, op⟩ := i
  cases op with
  | set register value =>
    have hneg : ¬ (value : Int) < 0 := by omega
    simp only [Instruction.draft, Draft.line, if_neg hneg, Instruction.text, Op.text,
      toString_natCast, Int.natAbs_natCast, Draft.toString_text, String.append_assoc]
    rfl
  | _ =>
    simp only [Instruction.draft, Draft.line, Instruction.text, Op.text, toString_natCast,
      Draft.toString_text, String.append_assoc]
    rfl

theorem Instruction.Constructible.writable (h : i.Constructible) : i.draft.Writable := by
  apply Draft.writable_of_numbers
  intro n hn
  rw [Instruction.numbers_draft] at hn
  obtain ⟨k, hk, rfl⟩ := List.mem_map.1 hn
  have hle := (Instruction.constructible_iff.1 h).2 k hk
  exact ⟨by omega, by omega⟩

/-- **A written instruction is read as it was.** -/
theorem parseOne_text (h : i.Constructible) : parseOne i.text = .ok i := by
  rw [← i.line_draft, h.writable.parseOne_line,
    Draft.build_draft (Instruction.constructible_iff.1 h).1]
  rfl

/-! ## Many lines -/

/-- **A written list of instructions is read as it was.** -/
theorem parse_texts (h : ∀ i ∈ is, i.Constructible) :
    parse ("\n".intercalate (is.map Instruction.text)) = .ok is := by
  apply parse_intercalate
  rw [List.forall₂_map_left_iff, List.forall₂_same]
  exact fun i hi => parseOne_text (h i hi)

/-! ## What is read -/

namespace Source

variable {ts : List Token} {d : Draft}

/-- The numbers of a phrase are those of its tokens, but for the sign of a constant. -/
theorem Phrase.numbers_le (h : Phrase ts d) (hts : ∀ t ∈ ts, t.Writable) :
    ∀ n ∈ d.numbers, -(Numeral.maxWord : Int) ≤ n ∧ n ≤ Numeral.maxWord := by
  have low {n : Int} (hn : InRange n) : -(Numeral.maxWord : Int) ≤ n ∧ n ≤ Numeral.maxWord := by
    obtain ⟨hlow, hhigh⟩ := hn
    omega
  cases h with
  | setNegated label register value =>
    simp only [List.forall_mem_cons, Token.Writable] at hts
    obtain ⟨hl, _, hr, _, _, ⟨hlow, hhigh⟩, _⟩ := hts
    simp only [Draft.numbers, List.forall_mem_cons]
    exact ⟨low hl, low hr, by omega, by simp⟩
  | _ =>
    simp only [List.forall_mem_cons, Token.Writable] at hts
    simp only [Draft.numbers, List.forall_mem_cons]
    simp [low, hts]

theorem constructible_of_parseLine {line : List Lexeme}
    (hl : ∀ x ∈ line, x.token.endsLine = true ∨ ∃ w, Spells x.token w)
    (h : parseLine line = .ok (some i)) : i.Constructible := by
  cases line with
  | nil => cases h
  | cons first more =>
    rw [parseLine] at h
    split at h
    · cases h
    · obtain ⟨⟨j, c⟩, hj, h⟩ := bind_eq_ok_iff.1 h
      cases h
      obtain ⟨ts, d, hp, hb, hts, _⟩ := phrase_of_instruction hj
      have hwritable : ∀ t ∈ ts, t.Writable := by
        intro t ht
        have hmem : t ∈ (first :: more).map Lexeme.token := by
          rw [hts]
          exact List.mem_append_left _ ht
        obtain ⟨x, hx, rfl⟩ := List.mem_map.1 hmem
        rcases hl x hx with hend | ⟨w, hw⟩
        · rw [hp.endsLine_eq_false _ ht] at hend
          cases hend
        · exact hw.writable
      refine ⟨d, fun n hn => ?_, hb⟩
      have := hp.numbers_le hwritable n hn
      omega

/-- **Whatever is read from a text has 64-bit numbers.** -/
theorem constructible_of_parse {source : String} (h : parse source = .ok is) :
    ∀ i ∈ is, i.Constructible := by
  obtain ⟨lexemes, htokens, h⟩ := bind_eq_ok_iff.1 h
  obtain ⟨parsed, hparsed, h⟩ := bind_eq_ok_iff.1 h
  cases h
  intro i hi
  obtain ⟨line, hline, hl⟩ := exists_of_mem_mapM hparsed (List.reduceOption_mem_iff.1 hi)
  exact constructible_of_parseLine
    (fun x hx => spells_of_scanLines htokens x (mem_of_mem_splitLines line hline x hx)) hl

end Source

/-! ## Programs -/

namespace Program

variable {p q : Program}

theorem Built.parse_text (hp : p.Built is) (hc : ∀ i ∈ is, i.Constructible)
    (hs : p.slots.size ≤ Numeral.maxWord) : Program.parse p.text = .ok p.restored := by
  rw [Program.parse, text, parse_texts (hp.constructible hc hs)]
  rfl

end Program

/-- **Instructions and programs come back from their text.**  An instruction of 64-bit numbers is
read from its text as it was.  A program whose slots can be counted is read from its text with the
same slots, gaps included.  So programs with the same text have the same slots. -/
theorem text_round_trip :
    (∀ i : Instruction, i.Constructible → parseOne i.text = .ok i) ∧
    (∀ (p : Program) (is : List Instruction), p.Built is → (∀ i ∈ is, i.Constructible) →
      p.slots.size ≤ Numeral.maxWord →
      ∃ q, Program.parse p.text = .ok q ∧ (q == p) = true ∧ q.slots = p.slots) ∧
    ∀ (p q : Program) (is js : List Instruction), p.Built is → (∀ i ∈ is, i.Constructible) →
      p.slots.size ≤ Numeral.maxWord → q.Built js → (∀ j ∈ js, j.Constructible) →
      q.slots.size ≤ Numeral.maxWord → p.text = q.text → (p == q) = true := by
  refine ⟨fun i => parseOne_text, ?_, ?_⟩
  · intro p is hp hc hs
    have hslots := hp.tidy.slots_restored
    exact ⟨p.restored, hp.parse_text hc hs, Program.beq_iff.2 hslots, hslots⟩
  · intro p q is js hp hc hs hq hd ht htext
    have hback := hp.parse_text hc hs
    rw [htext, hq.parse_text hd ht, Except.ok.injEq] at hback
    rw [Program.beq_iff, ← hp.tidy.slots_restored, ← hback, hq.tidy.slots_restored]

/-- A gap, the largest number, a register copied to itself, and a stop that the check put under
label 4. -/
theorem sparse_text_round_trip :
    ∃ v, (Program.ofList [⟨5, .copy 2 2⟩, ⟨1, .set 1 9223372036854775807⟩,
        ⟨3, .decrement 4⟩]).validate = .ok v ∧
      v.program.text = "1. x1 = 9223372036854775807\n3. x4 = x4 - 1\n4. stop\n5. x2 = x2" ∧
      v.program.get? 2 = none ∧
      ∃ q, Program.parse v.program.text = .ok q ∧ q.slots = v.program.slots := by
  have hp : Program.Built _ [⟨5, .copy 2 2⟩, ⟨1, .set 1 9223372036854775807⟩, ⟨3, .decrement 4⟩] :=
    .ofList (by decide)
  obtain ⟨q, hq, _, hslots⟩ := text_round_trip.2.1 _ _ (hp.check rfl) (by decide) (by decide)
  exact ⟨_, rfl, by decide +kernel, rfl, q, hq, hslots⟩

end RegisterMachine
