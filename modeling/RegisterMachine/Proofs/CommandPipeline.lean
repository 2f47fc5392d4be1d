import Mathlib.Data.List.DropRight
import RegisterMachine.Command
import RegisterMachine.Proofs.ProgramText
import RegisterMachine.Proofs.RepeatedCalls

/-!
# Encoding a file on the command line, and decoding what was written

The numbers of a program are written as the last word of each line, behind the instruction.  These
words are the arguments of another command.

* `AsksToEncode args file`, `AsksToDecode args numbers` — the command lines meant here, with flags
  at any place.
* `Prints s lines` — the text `s` consists of these lines, each ended by a line feed.
* `lastWord` — what is behind the last blank of a line; `textColumn` — what is before it, without
  the blanks that fill the column.  `lastWord_encodedRow`, `textColumn_encodedRow` — both come back
  from a line of an encoded program, even if its instruction is wider than the column.
* `endsSolid_text` — no blank ends the text of an instruction, so those that fill the column can be
  told from it.
* `number?_repr` — a number is read from its decimal digits; `not_mem_flags_of_number?` — which are
  no flag.
* `answer_of_asksToEncode`, `answer_of_asksToDecode` — what the two commands answer.

Principal result: `encode_then_decode` — decoding what was written for a file writes the text of its
program, which is the column of instructions.
-/

set_option autoImplicit false

namespace RegisterMachine

variable {p : Program} {v : Validated} {i : Instruction} {is : List Instruction}

/-! ## Programs that are read from a text -/

namespace Program

theorem exists_built_of_parse {source : String} (h : Program.parse source = .ok p) :
    ∃ is, p.Built is ∧ ∀ i ∈ is, i.Constructible := by
  obtain ⟨is, his, h⟩ := bind_eq_ok_iff.1 h
  cases h
  exact ⟨is, .ofList (Source.wellFormed_of_parse his), Source.constructible_of_parse his⟩

/-- A checked program has a stop, so its text has a line. -/
theorem Tidy.instructions_ne_nil (h : p.Tidy) (hv : p.validate = .ok v) :
    v.program.instructions ≠ [] := by
  obtain ⟨hpass, rfl⟩ := validate_eq_ok_iff.1 hv
  obtain ⟨label, hs⟩ := h.stopLabels_withStop hpass
  intro hnil
  rw [stopLabels, hnil] at hs
  cases hs

theorem Tidy.text_restored (h : p.Tidy) : p.restored.text = p.text := by
  rw [text, h.instructions_restored, text]

end Program

theorem Instruction.Constructible.newline_not_mem_text (h : i.Constructible) :
    '\n' ∉ i.text.toList := by
  rw [← i.line_draft, h.writable.toList_line]
  exact Source.newline_not_mem_written _

namespace Command

theorem not_mem_toDigits {c : Char} (hc : c.isDigit = false) (n : Nat) : c ∉ Nat.toDigits 10 n := by
  intro h
  rw [Nat.isDigit_of_mem_toDigits (by decide) (by decide) h] at hc
  cases hc

/-! ## The two columns of a line -/

/-- What is behind the last blank of a line. -/
def lastWord (line : List Char) : String := String.ofList (line.rtakeWhile (· != ' '))

/-- What is before the last blank of a line, without further blanks at its end. -/
def textColumn (line : List Char) : List Char := (line.rdropWhile (· != ' ')).rdropWhile (· == ' ')

/-- A line is cut at its last blank. -/
theorem rtakeWhile_append_blank {front word : List Char} (hw : ' ' ∉ word) :
    (front ++ ' ' :: word).rtakeWhile (· != ' ') = word ∧
      (front ++ ' ' :: word).rdropWhile (· != ' ') = front ++ [' '] := by
  have hall : ∀ c ∈ word.reverse, (c != ' ') = true := by
    intro c hc
    rw [bne_iff_ne]
    rintro rfl
    exact hw (List.mem_reverse.1 hc)
  constructor
  · simp [List.rtakeWhile, List.takeWhile_append_of_pos hall]
  · simp [List.rdropWhile, List.dropWhile_append_of_pos hall]

/-- The text ends with something other than a blank. -/
def EndsSolid (s : String) : Prop := ∃ c ∈ s.toList.getLast?, c ≠ ' '

theorem EndsSolid.append {t : String} (s : String) (h : EndsSolid t) : EndsSolid (s ++ t) := by
  obtain ⟨c, hc, hne⟩ := h
  rw [Option.mem_def] at hc
  exact ⟨c, by simp [List.getLast?_append, hc], hne⟩

theorem endsSolid_repr (n : Nat) : EndsSolid (Nat.repr n) := by
  have hne : (Nat.repr n).toList ≠ [] := by simp [Nat.toDigits_ne_nil]
  refine ⟨_, List.getLast?_eq_some_getLast hne, fun h => ?_⟩
  have hmem := List.getLast_mem hne
  rw [h, Nat.toList_repr] at hmem
  exact not_mem_toDigits rfl n hmem

/-- The text of an instruction ends with a digit or with a letter. -/
theorem endsSolid_text (i : Instruction) : EndsSolid i.text := by
  refine EndsSolid.append _ ?_
  cases i.op with
  | set register value => exact .append _ (endsSolid_repr value)
  | increment register => exact .append _ ⟨'1', rfl, by decide⟩
  | decrement register => exact .append _ ⟨'1', rfl, by decide⟩
  | copy dest source => exact .append _ (endsSolid_repr source)
  | branch register ifZero otherwise => exact .append _ (endsSolid_repr otherwise)
  | stop => exact ⟨'p', rfl, by decide⟩

/-- Blanks at the end of a line are dropped, and nothing else. -/
theorem EndsSolid.rdropWhile_append_blanks {s : String} (h : EndsSolid s) (k : Nat) :
    (s.toList ++ List.replicate k ' ').rdropWhile (· == ' ') = s.toList := by
  induction k with
  | zero =>
    obtain ⟨c, hc, hne⟩ := h
    rw [List.replicate_zero, List.append_nil, List.rdropWhile_eq_self_iff]
    intro hs hblank
    rw [List.getLast?_eq_some_getLast hs, Option.mem_some_iff] at hc
    exact hne (hc ▸ eq_of_beq hblank)
  | succ k ih =>
    rw [List.replicate_succ', ← List.append_assoc, List.rdropWhile_concat_pos _ _ _ (by rfl), ih]

/-! ## Lines of an encoded program -/

/-- A line of an encoded program without its line feed. -/
def encodedRow (i : Instruction) (n : Nat) : List Char :=
  i.text.toList ++ List.replicate (40 - i.text.length) ' ' ++ ' ' :: Nat.toDigits 10 n

theorem toList_encodedLine (i : Instruction) (n : Nat) :
    (encodedLine i n).toList = encodedRow i n ++ ['\n'] := by
  simp [encodedLine, column, encodedRow]

theorem lastWord_encodedRow (i : Instruction) (n : Nat) :
    lastWord (encodedRow i n) = Nat.repr n := by
  rw [lastWord, encodedRow, (rtakeWhile_append_blank (not_mem_toDigits rfl n)).1, ← Nat.toList_repr,
    String.ofList_toList]

theorem textColumn_encodedRow (i : Instruction) (n : Nat) :
    textColumn (encodedRow i n) = i.text.toList := by
  -- the blank before the number is one more of those that fill the column
  have hblanks := (endsSolid_text i).rdropWhile_append_blanks (40 - i.text.length + 1)
  rw [textColumn, encodedRow, (rtakeWhile_append_blank (not_mem_toDigits rfl n)).2,
    List.append_assoc, ← List.replicate_succ', hblanks]

theorem newline_not_mem_encodedRow (h : i.Constructible) (n : Nat) : '\n' ∉ encodedRow i n := by
  have hdigits : '\n' ∉ Nat.toDigits 10 n := not_mem_toDigits rfl n
  simp [encodedRow, h.newline_not_mem_text, hdigits]

/-- The lines that are written for instructions when they are encoded. -/
def encodedRows (is : List Instruction) : List (List Char) :=
  is.map fun i => encodedRow i (Goedel.encodeInstruction i)

theorem map_lastWord_encodedRows (is : List Instruction) :
    (encodedRows is).map lastWord = (is.map Goedel.encodeInstruction).map Nat.repr := by
  simp [encodedRows, Function.comp_def, lastWord_encodedRow]

theorem map_textColumn_encodedRows (is : List Instruction) :
    (encodedRows is).map textColumn = is.map fun i => i.text.toList := by
  simp [encodedRows, Function.comp_def, textColumn_encodedRow]

/-! ## What is printed -/

/-- The text consists of the given lines, each of them ended by a line feed. -/
def Prints (s : String) (lines : List (List Char)) : Prop := Source.linesOf s = lines ++ [[]]

/-- Lines that are ended one by one are the lines of the text. -/
theorem splitOn_ended {rows : List (List Char)} (h : ∀ row ∈ rows, '\n' ∉ row) :
    (rows.flatMap (· ++ ['\n'])).splitOn '\n' = rows ++ [[]] := by
  induction rows with
  | nil => rfl
  | cons row rows ih =>
    have hrow := h row List.mem_cons_self
    rw [List.flatMap_cons, List.append_assoc, List.singleton_append, List.splitOn_append_cons_self,
      List.splitOn_eq_singleton hrow, ih fun r hr => h r (List.mem_cons_of_mem row hr)]
    rfl

theorem prints_encodedText {c : Goedel.Encoded}
    (hn : c.numbers = c.program.instructions.map Goedel.encodeInstruction)
    (hc : ∀ i ∈ c.program.instructions, i.Constructible) :
    Prints (encodedText c) (encodedRows c.program.instructions) := by
  have hlines : (encodedText c).toList =
      (encodedRows c.program.instructions).flatMap (· ++ ['\n']) := by
    rw [encodedText, hn, String.toList_join, List.zipWith_map_right, List.zipWith_self,
      List.flatMap_map, encodedRows, List.flatMap_map]
    simp only [toList_encodedLine]
  rw [Prints, Source.linesOf, hlines]
  apply splitOn_ended
  intro row hrow
  obtain ⟨i, hi, rfl⟩ := List.mem_map.1 hrow
  exact newline_not_mem_encodedRow (hc i hi) _

theorem prints_text (hne : p.instructions ≠ []) (hc : ∀ i ∈ p.instructions, i.Constructible) :
    Prints (p.text ++ "\n") (p.instructions.map fun i => i.text.toList) := by
  have hlines : Source.linesOf p.text = p.instructions.map fun i => i.text.toList := by
    have htexts : p.instructions.map (fun i => i.text.toList) ≠ [] := by simpa using hne
    rw [Source.linesOf, Program.text, String.toList_intercalate, List.map_map]
    refine List.splitOn_intercalate _ ?_ htexts
    intro line hline
    obtain ⟨i, hi, rfl⟩ := List.mem_map.1 hline
    exact (hc i hi).newline_not_mem_text
  have hjoin := Source.linesOf_join p.text ""
  rw [String.append_empty] at hjoin
  rw [Prints, hjoin, hlines]
  rfl

/-! ## Numbers as arguments -/

/-- **A number is read from its decimal digits,** however many there are. -/
theorem number?_repr (n : Nat) : number? (Nat.repr n) = some n := by
  have hnobar : '_' ∉ Nat.toDigits 10 n := not_mem_toDigits rfl n
  have hplus : dropPlus (Nat.toDigits 10 n) = Nat.toDigits 10 n := by
    unfold dropPlus
    split
    · rename_i cs h
      have hmem : '+' ∈ Nat.toDigits 10 n := h ▸ List.mem_cons_self
      exact absurd hmem (not_mem_toDigits rfl n)
    · rfl
  have hbar : (Nat.toDigits 10 n).filter (· != '_') = Nat.toDigits 10 n := by
    rw [List.filter_eq_self]
    intro c hc
    rw [bne_iff_ne]
    exact ne_of_mem_of_not_mem hc hnobar
  have hhead : (Nat.toDigits 10 n).head? ≠ some '_' := fun h => hnobar (List.mem_of_head? h)
  have hnumeral : isNumeral (Nat.toDigits 10 n) = true := by
    have hdigit : ∀ c ∈ Nat.toDigits 10 n, c.isDigit = true :=
      fun c => Nat.isDigit_of_mem_toDigits (by decide) (by decide)
    simpa [isNumeral, Nat.toDigits_ne_nil] using hdigit
  simp only [number?, Nat.toList_repr, hplus, hbar]
  rw [if_pos ⟨hhead, hnumeral⟩, Numeral.ofDigits_toDigits]

theorem readAll_repr (ns : List Nat) : readAll number? (ns.map Nat.repr) = .ok ns := by
  rw [readAll, mapM_eq_ok_iff, List.forall₂_map_left_iff, List.forall₂_same]
  intro n _
  rw [number?_repr]

theorem not_mem_flags_of_number? {a : String} {n : Nat} (h : number? a = some n) : a ∉ flags := by
  have hflags : ∀ flag ∈ flags, number? flag = none := by decide
  intro hmem
  rw [hflags a hmem] at h
  cases h

/-! ## Command lines -/

/-- The command line asks to encode a file and nothing else.  Arguments after the file are not
looked at. -/
structure AsksToEncode (args : List String) (file : String) : Prop where
  encode : "--encode" ∈ args
  alone : ∀ flag ∈ ["--decode", "--listing", "--help", "-h"], flag ∉ args
  first : (args.filter (· ∉ flags)).head? = some file

/-- The command line asks to decode these numbers. -/
structure AsksToDecode (args numbers : List String) : Prop where
  decode : "--decode" ∈ args
  alone : ∀ flag ∈ ["--help", "-h"], flag ∉ args
  others : args.filter (· ∉ flags) = numbers

section

variable {args numbers : List String} {file source : String}

theorem AsksToEncode.ofArgs_eq (h : AsksToEncode args file) :
    ∃ inputs, Request.ofArgs args = .program ⟨file, inputs, false, true⟩ := by
  obtain ⟨hencode, halone, hfirst⟩ := h
  obtain ⟨inputs, hothers⟩ := List.head?_eq_some_iff.1 hfirst
  have hne := List.ne_nil_of_mem hencode
  simp only [List.forall_mem_cons] at halone
  simp only [decide_not] at hothers
  exact ⟨inputs, by simp [Request.ofArgs, hothers, hencode, halone, hne]⟩

theorem AsksToDecode.ofArgs_eq (h : AsksToDecode args numbers) :
    Request.ofArgs args = .decode numbers := by
  obtain ⟨hdecode, halone, hothers⟩ := h
  have hne := List.ne_nil_of_mem hdecode
  simp only [List.forall_mem_cons] at halone
  simp only [decide_not] at hothers
  simp [Request.ofArgs, hothers, hdecode, halone, hne]

/-- Numbers can be given behind the flag, since none of them is a flag itself. -/
theorem asksToDecode_repr (ns : List Nat) :
    AsksToDecode ("--decode" :: ns.map Nat.repr) (ns.map Nat.repr) := by
  have hword : ∀ a ∈ ns.map Nat.repr, a ∉ flags := by
    intro a ha
    obtain ⟨n, _, rfl⟩ := List.mem_map.1 ha
    exact not_mem_flags_of_number? (number?_repr n)
  refine ⟨List.mem_cons_self, ?_, ?_⟩
  · intro flag hflag hmem
    have hshort : ∀ flag ∈ ["--help", "-h"], flag ∈ flags ∧ flag ≠ "--decode" := by decide
    obtain ⟨hflags, hne⟩ := hshort flag hflag
    exact hword flag (List.mem_of_ne_of_mem hne hmem) hflags
  · rw [List.filter_cons_of_neg (by decide), List.filter_eq_self]
    exact fun a ha => decide_eq_true (hword a ha)

/-- **A file whose program passes its check is encoded.**  Encoding checks the program once more,
and finds it closed. -/
theorem answer_of_asksToEncode {read : String → Except ReadFault String}
    (hargs : AsksToEncode args file) (hfile : isSource file = true) (hread : read file = .ok source)
    (hparse : Program.parse source = .ok p) (hv : p.validate = .ok v) :
    ∃ c : Goedel.Encoded, c.program = v.program ∧
      c.numbers = v.program.instructions.map Goedel.encodeInstruction ∧
      ∀ budget, answer budget read args = some (.success (encodedText c)) := by
  obtain ⟨inputs, hrequest⟩ := hargs.ofArgs_eq
  obtain ⟨is, hp, _⟩ := Program.exists_built_of_parse hparse
  obtain ⟨c, hc, hprog, hn⟩ := (hp.closes_closed hv).exists_encodeProgram
  refine ⟨c, hprog, hn, fun budget => ?_⟩
  simp [answer, hrequest, useFile, hfile, hread, hparse, useProgram, hv, hc]

theorem answer_of_asksToDecode {ns : List Nat} (hargs : AsksToDecode args (ns.map Nat.repr))
    (hp : Goedel.decodeProgram ns = .ok p) (budget : Nat)
    (read : String → Except ReadFault String) :
    answer budget read args = some (.success (p.text ++ "\n")) := by
  simp [answer, hargs.ofArgs_eq, decodeNumbers, readAll_repr, hp]

/-- **Decoding what was written for a file writes the text of its program.**  Take a file whose
source parses to a program that passes its check, with a last label that can be encoded.  Encoding
it exits with 0.  The last words of the lines that are written can be given to decoding as they are;
decoding them, with flags at any place, exits with 0 and writes the text of the checked program,
whose lines are the column of instructions. -/
theorem encode_then_decode {read : String → Except ReadFault String}
    (hargs : AsksToEncode args file) (hfile : isSource file = true) (hread : read file = .ok source)
    (hparse : Program.parse source = .ok p) (hv : p.validate = .ok v)
    (hsize : v.program.slots.size ≤ Numeral.maxWord) :
    ∃ (stdout : String) (lines : List (List Char)),
      (∀ budget, answer budget read args = some ⟨0, stdout, ""⟩) ∧ Prints stdout lines ∧
      AsksToDecode ("--decode" :: lines.map lastWord) (lines.map lastWord) ∧
      (∀ args' budget read', AsksToDecode args' (lines.map lastWord) →
        answer budget read' args' = some ⟨0, v.program.text ++ "\n", ""⟩) ∧
      Prints (v.program.text ++ "\n") (lines.map textColumn) := by
  obtain ⟨is, hp, his⟩ := Program.exists_built_of_parse hparse
  have hclosed := hp.check hv
  have hc := hclosed.constructible his hsize
  obtain ⟨c, hprog, hn, hanswer⟩ := answer_of_asksToEncode hargs hfile hread hparse hv
  rw [← hprog] at hn
  have hprints := prints_encodedText hn (hprog ▸ hc)
  rw [hprog] at hprints
  refine ⟨encodedText c, encodedRows v.program.instructions, hanswer, hprints, ?_, ?_, ?_⟩
  · rw [map_lastWord_encodedRows]
    exact asksToDecode_repr _
  · intro args' budget read' hargs'
    rw [map_lastWord_encodedRows] at hargs'
    have hdecoded := Goedel.decodeProgram_map_encodeInstruction hc
    rw [← Program.restored] at hdecoded
    rw [answer_of_asksToDecode hargs' hdecoded, hclosed.tidy.text_restored, Outcome.success]
  · rw [map_textColumn_encodedRows]
    exact prints_text (hp.tidy.instructions_ne_nil hv) hc

end

/-- A file with a gap and with an instruction that is wider than the column.  Its program jumps to
its terminal label, which it has in use, so the check puts a stop behind it. -/
theorem encode_then_decode_sparse_file :
    let source := "# a loop\n3. if x123456789012 == 0 goto 3 else goto 3\n\n1. x2 = x1"
    let text := "1. x2 = x1\n3. if x123456789012 == 0 goto 3 else goto 3\n4. stop\n"
    ∃ (stdout : String) (lines : List (List Char)),
      (∀ budget, answer budget (Directory.read ⟨[("a.b.urm", source)]⟩)
        ["--trace", "./a.b.urm", "7", "--encode"] = some ⟨0, stdout, ""⟩) ∧
      Prints stdout lines ∧ Prints text (lines.map textColumn) ∧
      ∀ budget read,
        answer budget read ("--decode" :: lines.map lastWord) = some ⟨0, text, ""⟩ := by
  intro source text
  let is : List Instruction := [⟨3, .branch 123456789012 3 3⟩, ⟨1, .copy 2 1⟩]
  have hargs : AsksToEncode ["--trace", "./a.b.urm", "7", "--encode"] "./a.b.urm" :=
    ⟨by decide, by decide, by decide +kernel⟩
  have hread : Directory.read ⟨[("a.b.urm", source)]⟩ "./a.b.urm" = .ok source := by decide +kernel
  have hparse : Program.parse source = .ok (.ofList is) := by
    have his : Source.parse source = .ok is := by decide +kernel
    rw [Program.parse, his]
    rfl
  have hv : (Program.ofList is).validate = .ok ⟨(Program.ofList is).withStop, _, _⟩ := rfl
  have htext : (Program.ofList is).withStop.text ++ "\n" = text := by decide +kernel
  obtain ⟨stdout, lines, hencode, hprints, hasks, hdecode, hcolumn⟩ :=
    encode_then_decode hargs (by decide +kernel) hread hparse hv (by decide +kernel)
  rw [htext] at hdecode hcolumn
  exact ⟨stdout, lines, hencode, hprints, hcolumn, fun budget read => hdecode _ budget read hasks⟩

end Command

end RegisterMachine
