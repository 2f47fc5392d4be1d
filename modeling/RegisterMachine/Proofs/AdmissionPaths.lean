import RegisterMachine.Proofs.InstructionCodec
import RegisterMachine.Proofs.Phrases
import RegisterMachine.Proofs.Spelling

/-!
# The three ways to an instruction agree

The numbers of an instruction may be given as they are, in a line of text, or in the fields of a
number.

* `Draft.line` — the line that is written for a draft; `Draft.tokens` — its tokens.
* `Draft.vector` — the fields of a draft, the tag first.
* `Draft.Writable` — the drafts that a line can be written for: their numbers have 63 bits, and only
  a constant has a sign.
* `Writable.scanLine_line` — the line of such a draft is scanned to its tokens, which are a phrase
  for it.
* `parseOne_line`, `decodeInstruction_vector` — a line and a vector lead where the draft leads.

Principal result: `admission_paths_agree` — all three give the same instruction, or complain of the
same number.
-/

set_option autoImplicit false

namespace RegisterMachine

open Source

namespace Draft

/-- The operation that a draft is for. -/
def opcode : Draft → Opcode
  | set .. => .set
  | increment .. => .increment
  | decrement .. => .decrement
  | copy .. => .copy
  | branch .. => .branch
  | stop .. => .stop

/-- The fields with the numbers of a draft, the tag of its operation first. -/
def vector (d : Draft) : List Nat := d.opcode.tag :: d.numbers.map Int.toNat

/-- The line with the numbers of a draft.  A negative constant is written as a minus sign, a blank
and its absolute value. -/
def line : Draft → String
  | set label register value =>
      let size := value.natAbs
      if value < 0 then s!"{label}. x{register} = - {size}" else s!"{label}. x{register} = {size}"
  | increment label register => s!"{label}. x{register} = x{register} + 1"
  | decrement label register => s!"{label}. x{register} = x{register} - 1"
  | copy label dest source => s!"{label}. x{dest} = x{source}"
  | branch label register ifZero otherwise =>
      s!"{label}. if x{register} == 0 goto {ifZero} else goto {otherwise}"
  | stop label => s!"{label}. stop"

/-- The tokens of that line. -/
def tokens : Draft → List Token
  | set label register value =>
      if value < 0 then [.int label, .dot, .register register, .assign, .minus, .int (-value)]
      else [.int label, .dot, .register register, .assign, .int value]
  | increment label register =>
      [.int label, .dot, .register register, .assign, .register register, .plus, .int 1]
  | decrement label register =>
      [.int label, .dot, .register register, .assign, .register register, .minus, .int 1]
  | copy label dest source => [.int label, .dot, .register dest, .assign, .register source]
  | branch label register ifZero otherwise =>
      [.int label, .dot, .ifWord, .register register, .equal, .int 0, .gotoWord, .int ifZero,
        .elseWord, .gotoWord, .int otherwise]
  | stop label => [.int label, .dot, .stopWord]

/-- A line can be written for the draft. -/
def Writable : Draft → Prop
  | set label register value =>
      InRange label ∧ InRange register ∧ -(Numeral.maxWord : Int) ≤ value ∧ value ≤ Numeral.maxWord
  | d => ∀ n ∈ d.numbers, InRange n

variable {d : Draft}

theorem phrase_tokens (d : Draft) : Phrase d.tokens d := by
  cases d with
  | set label register value =>
    rw [tokens]
    split
    · have := Phrase.setNegated label register (-value)
      rwa [Int.neg_neg] at this
    · exact .set label register value
  | increment label register => exact .increment label register
  | decrement label register => exact .decrement label register
  | copy label dest source => exact .copy label dest source
  | branch label register ifZero otherwise => exact .branch label register ifZero otherwise
  | stop label => exact .stop label

theorem Writable.tokens (h : d.Writable) : ∀ t ∈ d.tokens, t.Writable := by
  have h0 : InRange 0 := by decide
  have h1 : InRange 1 := by decide
  cases d with
  | set label register value =>
    obtain ⟨hl, hr, hlow, hhigh⟩ := h
    rw [Draft.tokens]
    split
    · have hsize : InRange (-value) := ⟨by omega, by omega⟩
      simp [Token.Writable, hl, hr, hsize]
    · have hsize : InRange value := ⟨by omega, by omega⟩
      simp [Token.Writable, hl, hr, hsize]
  | _ => simp_all [Draft.tokens, Writable, numbers, Token.Writable]

theorem writable_of_numbers (h : ∀ n ∈ d.numbers, InRange n) : d.Writable := by
  cases d with
  | set label register value =>
    simp only [numbers, List.forall_mem_cons] at h
    obtain ⟨hl, hr, ⟨hlow, hhigh⟩, _⟩ := h
    exact ⟨hl, hr, by omega, hhigh⟩
  | _ => exact h

theorem toString_text (s : String) : toString s = s := rfl

theorem toDigits_one : Nat.toDigits 10 1 = ['1'] := rfl

theorem toList_repr {n : Int} (h : InRange n) : n.repr.toList = Nat.toDigits 10 n.toNat := by
  obtain ⟨k, rfl⟩ := Int.eq_ofNat_of_zero_le h.1
  exact Nat.toList_repr

theorem Writable.toList_line (h : d.Writable) : d.line.toList = written d.tokens := by
  cases d with
  | set label register value =>
    obtain ⟨hl, hr, _⟩ := h
    by_cases hneg : value < 0
    · have hsize : (-value).toNat = value.natAbs := by omega
      simp [line, Draft.tokens, written, spaced, Token.spelling, toString_text, toList_repr, hl, hr,
        hneg, hsize]
    · have hsize : value.toNat = value.natAbs := by omega
      simp [line, Draft.tokens, written, spaced, Token.spelling, toString_text, toList_repr, hl, hr,
        hneg, hsize]
  | _ =>
    simp only [Writable, numbers, List.forall_mem_cons] at h
    simp [line, Draft.tokens, written, spaced, Token.spelling, toString_text, toList_repr,
      toDigits_one, h]

/-- **The line of a draft is scanned to its tokens,** and the label stands in the first column. -/
theorem Writable.scanLine_line (h : d.Writable) (k : Nat) :
    ∃ lexemes first, scanLine k d.line.toList = .ok lexemes ∧ lexemes.map Lexeme.token = d.tokens ∧
      lexemes.head? = some first ∧ first.position = ⟨k, 1⟩ := by
  obtain ⟨lexemes, hscan, hmap, hpos⟩ := scanLine_written h.tokens k
  rw [← h.toList_line] at hscan
  cases lexemes with
  | nil => exact absurd hmap.symm d.phrase_tokens.ne_nil
  | cons first more => exact ⟨_, first, hscan, hmap, rfl, hpos first rfl⟩

/-- **A line leads where its draft leads,** and complaints are placed at the label. -/
theorem Writable.parseOne_line (h : d.Writable) :
    parseOne d.line = d.build.mapError (illegalAt ⟨1, 1⟩) := by
  obtain ⟨lexemes, first, hscan, hmap, hfirst, hpos⟩ := h.scanLine_line 1
  have hlines : linesOf d.line = [d.line.toList] := by
    apply List.splitOn_eq_singleton
    rw [h.toList_line]
    exact newline_not_mem_written d.tokens
  have htokens : tokenize d.line =
      .ok ([] ++ (lexemes ++ [⟨.endOfInput, ⟨1, d.line.toList.length + 1⟩⟩])) := by
    rw [tokenize, hlines, scanLines, hscan]
    rfl
  rw [← hpos]
  refine parseOne_of_phrase htokens (by simp) ?_ hfirst (by simp [Token.endsLine])
  rw [hmap]
  exact d.phrase_tokens

end Draft

/-! ## Fields -/

namespace Goedel

variable {d : Draft}

theorem draft?_numbers (h : ∀ n ∈ d.numbers, InRange n) :
    draft? d.opcode (d.numbers.map Int.toNat) = some d := by
  cases d <;> simp_all [Draft.opcode, Draft.numbers, draft?, InRange]

/-- **A vector leads where its draft leads.** -/
theorem decodeInstruction_vector (h : ∀ n ∈ d.numbers, InRange n) :
    decodeInstruction (encode d.vector) = d.build.mapError .illegal := by
  have hfind : (d.numbers.map Int.toNat).find? (Numeral.maxWord < ·) = none := by
    rw [find?_maxWord_eq_none_iff]
    intro n hn
    obtain ⟨k, hk, rfl⟩ := List.mem_map.1 hn
    have := (h k hk).2
    omega
  rw [decodeInstruction, decode_encode, ok_bind, Draft.vector, ofFields]
  simp only [Opcode.ofTag?_tag, draft?_numbers h, hfind]

end Goedel

/-! ## All three -/

/-- **The three ways to an instruction agree.**  With numbers of 63 bits and no sign, a line of text
and the fields of a number give the instruction that the draft gives, or complain of the number that
the draft complains of: the text at its label, in the first column, and the number as it is.  So
does a line with a negative constant.  It does not matter how the line is laid out, or which blank
lines stand around it: the complaint is always at the label. -/
theorem admission_paths_agree :
    (∀ d : Draft, (∀ n ∈ d.numbers, 0 ≤ n ∧ n ≤ Numeral.maxWord) →
      parseOne d.line = d.build.mapError (illegalAt ⟨1, 1⟩) ∧
      Goedel.decodeInstruction (Goedel.encode d.vector) = d.build.mapError .illegal) ∧
    (∀ label register value : Int, 0 ≤ label ∧ label ≤ Numeral.maxWord →
      0 ≤ register ∧ register ≤ Numeral.maxWord → -(Numeral.maxWord : Int) ≤ value ∧ value < 0 →
      parseOne (Draft.set label register value).line =
        (Draft.set label register value).build.mapError (illegalAt ⟨1, 1⟩)) ∧
    ∀ (d : Draft) (source : String) (before line after : List Lexeme) (first : Lexeme),
      tokenize source = .ok (before ++ (line ++ after)) → (∀ x ∈ before, x.token = .newline) →
      line.map Lexeme.token = d.tokens → line.head? = some first →
      (∀ x ∈ after, x.token.endsLine = true) →
      parseOne source = d.build.mapError (illegalAt first.position) := by
  refine ⟨fun d hd => ⟨?_, Goedel.decodeInstruction_vector hd⟩, ?_, ?_⟩
  · exact Draft.Writable.parseOne_line (Draft.writable_of_numbers hd)
  · intro label register value hl hr hv
    exact Draft.Writable.parseOne_line ⟨hl, hr, hv.1, by omega⟩
  · intro d source before line after first hs hb hl hf ha
    refine parseOne_of_phrase hs hb ?_ hf ha
    rw [hl]
    exact d.phrase_tokens

/-- Where several numbers are unusable, all complain of the same one.  The second text has its label
in the second column of line 3, behind a comment. -/
theorem admission_paths_agree_on_complaints :
    parseOne "3. if x0 == 0 goto 0 else goto 9223372036854775807" =
      .error ⟨⟨1, 1⟩, .illegal (.register 0)⟩ ∧
    Goedel.decodeInstruction (Goedel.encode [4, 3, 0, 0, 9223372036854775807]) =
      .error (.illegal (.register 0)) ∧
    parseOne "7. x2 = - 5" = .error ⟨⟨1, 1⟩, .illegal (.value (-5))⟩ ∧
    parseOne "\n# above\n\t0. x0=x00 + 01 # beside\n" = .error ⟨⟨3, 2⟩, .illegal (.label 0)⟩ := by
  obtain ⟨hparse, hdecode⟩ :=
    admission_paths_agree.1 (.branch 3 0 0 9223372036854775807) (by decide)
  have hset := admission_paths_agree.2.1 7 2 (-5) (by decide) (by decide) (by decide)
  have htokens : tokenize "\n# above\n\t0. x0=x00 + 01 # beside\n" =
      .ok ([⟨.newline, ⟨1, 1⟩⟩, ⟨.newline, ⟨2, 8⟩⟩] ++
        ([⟨.int 0, ⟨3, 2⟩⟩, ⟨.dot, ⟨3, 3⟩⟩, ⟨.register 0, ⟨3, 5⟩⟩, ⟨.assign, ⟨3, 7⟩⟩,
          ⟨.register 0, ⟨3, 8⟩⟩, ⟨.plus, ⟨3, 12⟩⟩, ⟨.int 1, ⟨3, 14⟩⟩] ++
        [⟨.newline, ⟨3, 25⟩⟩, ⟨.endOfInput, ⟨4, 1⟩⟩])) := by cbv
  refine ⟨hparse, hdecode, hset, ?_⟩
  exact admission_paths_agree.2.2 (.increment 0 0) _ _ _ _ _ htokens (by decide) rfl rfl (by decide)

end RegisterMachine
