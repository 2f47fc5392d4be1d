import RegisterMachine.Program.Listing
import RegisterMachine.Proofs.CommandPipeline

/-!
# What can be read from a listing

A listing is text.  Its lines are told apart by their line feeds, the label of a line is the number
at its start, and a line is marked if the target sign occurs in it.

* `Listing.line label marked content` — a line below the header; `lineLabel`, `isMarked` — what is
  read from a line; `lineLabel_line`, `isMarked_line` — both come back, however many digits the
  label has.
* `Listing.markedLabels s` — the labels of the marked lines of a text.
* `Program.IsTarget p label` — some branch of `p` may jump to `label`.
* `Program.slotRows`, `Program.endRows` — the two parts of the rows of a listing;
  `map_label_listingRows` — their labels count up from 1; `Passes.mem_range_of_isTarget` — and come
  to every target, if the program passes its check.
* `prints_listing` — the text of a listing has these rows as its lines, below the header.

Principal result: `listing_shows_every_target_once` — in the listing of a checked program each slot
has its line and each target of a branch its mark, on one line.
-/

set_option autoImplicit false

namespace RegisterMachine

variable {p : Program} {v : Validated} {is : List Instruction}

/-! ## Lines -/

namespace Numeral

theorem toList_padded (width n : Nat) : (padded width n).toList =
    List.replicate (width - (Nat.repr n).length) '0' ++ Nat.toDigits 10 n := by
  simp [Numeral.padded]

theorem isDigit_of_mem_padded {width n : Nat} {c : Char} (h : c ∈ (padded width n).toList) :
    c.isDigit = true := by
  rw [toList_padded, List.mem_append] at h
  rcases h with h | h
  · rw [List.eq_of_mem_replicate h]
    decide
  · exact Nat.isDigit_of_mem_toDigits (by decide) (by decide) h

/-- Zeros in front do not change the number. -/
theorem ofDigits_padded (width n : Nat) : ofDigits (padded width n).toList = n := by
  rw [toList_padded, ofDigits, Nat.ofDigitChars_append, Nat.ofDigitChars_replicate_zero,
    Nat.mul_zero]
  exact ofDigits_toDigits n

end Numeral

namespace Listing

/-- A line below the header: the label in four places or more, the target sign or a blank for it,
and the content. -/
def line (label : Nat) (marked : Bool) (content : String) : List Char :=
  (Numeral.padded 4 label).toList ++ ' ' :: (if marked then '►' else ' ') :: ' ' :: content.toList

/-- The number at the start of a line. -/
def lineLabel (line : List Char) : Nat := Numeral.ofDigits (line.takeWhile Char.isDigit)

/-- Does the line have a target sign in it? -/
def isMarked (line : List Char) : Bool := line.contains '►'

/-- The labels of the marked lines of a text, from top to bottom. -/
def markedLabels (s : String) : List Nat := ((Source.linesOf s).filter isMarked).map lineLabel

@[simp] theorem lineLabel_line (label : Nat) (marked : Bool) (content : String) :
    lineLabel (line label marked content) = label := by
  have hdigits : (line label marked content).takeWhile Char.isDigit =
      (Numeral.padded 4 label).toList := by
    rw [line, List.takeWhile_append_of_pos fun c hc => Numeral.isDigit_of_mem_padded hc,
      List.takeWhile_cons_of_neg (by decide), List.append_nil]
  rw [lineLabel, hdigits, Numeral.ofDigits_padded]

/-- A character other than a digit and a blank is in a line as the target sign, or in its
content. -/
theorem mem_line {c : Char} (hd : c.isDigit = false) (hb : c ≠ ' ') {label : Nat} {marked : Bool}
    {content : String} :
    c ∈ line label marked content ↔ (c = '►' ∧ marked = true) ∨ c ∈ content.toList := by
  have hlabel : c ∉ (Numeral.padded 4 label).toList := by
    intro hc
    rw [Numeral.isDigit_of_mem_padded hc] at hd
    cases hd
  cases marked <;> simp [line, hlabel, hb]

theorem isMarked_line {content : String} (hc : '►' ∉ content.toList) (label : Nat) (marked : Bool) :
    isMarked (line label marked content) = marked := by
  rw [isMarked, Bool.eq_iff_iff, List.contains_iff_mem, mem_line rfl (by decide)]
  simp [hc]

end Listing

/-- The text of an operation is made of digits and of the characters that are listed here. -/
theorem Op.not_mem_text {c : Char} (hd : c.isDigit = false) (hc : c ∉ "x =+-ifgotelsp".toList)
    (op : Op) :
    c ∉ op.text.toList := by
  have hdigits (n : Nat) : c ∉ Nat.toDigits 10 n := Command.not_mem_toDigits hd n
  have h01 : c ≠ '0' ∧ c ≠ '1' := by
    constructor <;> rintro rfl <;> cases hd
  simp only [String.reduceToList, List.mem_cons, List.not_mem_nil, or_false, not_or] at hc
  cases op <;> simp [Op.text, Draft.toString_text, hdigits, h01, hc]

namespace Listing

variable {c : Char}

/-- What a line shows beside its label has digits, brackets and small letters in it, but for
instance no line feed and no target sign. -/
theorem Content.not_mem_text (hd : c.isDigit = false) (hc : c ∉ "x =+-ifgotelspmynd()".toList)
    (content : Content) :
    c ∉ content.text.toList := by
  simp only [String.reduceToList, List.mem_cons, List.not_mem_nil, or_false, not_or] at hc
  cases content with
  | operation op => exact op.not_mem_text hd (by simp [hc])
  | empty => simp [Content.text, hc]
  | finish => simp [Content.text, hc]

theorem Row.toList_text (r : Row) : r.text.toList = line r.label r.marked r.content.text := by
  cases h : r.marked <;> simp [Row.text, line, h]

theorem map_lineLabel_text (rows : List Row) :
    (rows.map fun r => r.text.toList).map lineLabel = rows.map Row.label := by
  rw [List.map_map]
  refine List.map_congr_left fun r _ => ?_
  rw [Function.comp_apply, r.toList_text, lineLabel_line]

theorem Row.isMarked_text (r : Row) : isMarked r.text.toList = r.marked := by
  rw [r.toList_text, isMarked_line (Content.not_mem_text rfl (by simp) _)]

theorem Row.newline_not_mem_text (r : Row) : '\n' ∉ r.text.toList := by
  rw [r.toList_text, mem_line rfl (by simp)]
  have hcontent : '\n' ∉ r.content.text.toList := Content.not_mem_text rfl (by simp) _
  simp [hcontent]

end Listing

/-! ## Rows -/

namespace Program

/-- Some branch of the program may jump to the label. -/
def IsTarget (p : Program) (label : Nat) : Prop := ∃ i ∈ p.instructions, label ∈ i.op.targets

instance (p : Program) (label : Nat) : Decidable (p.IsTarget label) :=
  inferInstanceAs (Decidable (∃ i ∈ p.instructions, label ∈ i.op.targets))

theorem contains_targets (p : Program) (label : Nat) :
    (p.jumps.map Prod.snd).contains label = decide (p.IsTarget label) := by
  rw [Bool.eq_iff_iff, List.contains_iff_mem, decide_eq_true_iff, List.mem_map]
  constructor
  · rintro ⟨jump, hj, rfl⟩
    obtain ⟨i, hi, t, ht, rfl⟩ := mem_jumps.1 hj
    exact ⟨i, hi, ht⟩
  · rintro ⟨i, hi, ht⟩
    exact ⟨(i.label, label), mem_jumps.2 ⟨i, hi, label, ht, rfl⟩, rfl⟩

open Listing

/-- What a slot shows: its operation, or that it has none. -/
def slotContent (slot : Option Instruction) : Content :=
  (slot.map fun i => Content.operation i.op).getD .empty

/-- **Only an empty slot is shown as one,** and no slot as the end: no operation has a bracket in
its text. -/
theorem text_slotContent (slot : Option Instruction) :
    (∀ i, slot = some i → (slotContent slot).text = i.op.text) ∧
    ((slotContent slot).text = "(empty)" ↔ slot = none) ∧ (slotContent slot).text ≠ "(end)" := by
  cases slot with
  | none => exact ⟨nofun, ⟨fun _ => rfl, fun _ => rfl⟩, by simp [slotContent, Content.text]⟩
  | some i =>
    have hbracket : '(' ∉ i.op.text.toList := i.op.not_mem_text rfl (by simp)
    have hne {s : String} (hs : '(' ∈ s.toList) : i.op.text ≠ s := fun h => hbracket (h ▸ hs)
    refine ⟨fun j h => ?_, ⟨fun h => absurd h (hne (by simp)), nofun⟩, hne (by simp)⟩
    cases h
    rfl

/-- The rows of the slots. -/
def slotRows (p : Program) : List Row :=
  (p.slots.toList.zipIdx 1).map fun entry =>
    ⟨entry.2, decide (p.IsTarget entry.2), slotContent entry.1⟩

/-- The row of the terminal label, if it is jumped to and has no slot. -/
def endRows (p : Program) : List Row :=
  if p.slots.size < p.terminalLabel ∧ p.IsTarget p.terminalLabel then
    [⟨p.terminalLabel, true, .finish⟩]
  else []

theorem listingRows_eq (p : Program) : p.listingRows = p.slotRows ++ p.endRows := by
  simp only [listingRows, slotRows, endRows, contains_targets, Bool.and_eq_true, decide_eq_true_eq,
    slotContent]

theorem length_slotRows (p : Program) : p.slotRows.length = p.slots.size := by
  simp [slotRows]

theorem getElem?_slotRows {k : Nat} {slot : Option Instruction} (h : p.slots[k]? = some slot) :
    p.slotRows[k]? = some ⟨k + 1, decide (p.IsTarget (k + 1)), slotContent slot⟩ := by
  simp [slotRows, List.getElem?_zipIdx, h, Nat.add_comm 1 k]

/-- **A row is marked exactly if its label is a target.** -/
theorem marked_of_mem_listingRows {r : Row} (h : r ∈ p.listingRows) :
    r.marked = decide (p.IsTarget r.label) := by
  rw [listingRows_eq, List.mem_append] at h
  rcases h with h | h
  · obtain ⟨entry, _, rfl⟩ := List.mem_map.1 h
    rfl
  · unfold endRows at h
    split at h
    · rename_i hend
      rw [List.mem_singleton.1 h]
      exact (decide_eq_true hend.2).symm
    · cases h

theorem terminalLabel_le_slots (p : Program) : p.terminalLabel ≤ p.slots.size + 1 :=
  Nat.le_trans p.terminalLabel_le (Nat.succ_le_succ p.size_le_slots)

/-- The labels of the rows are those of the slots, and one more if the terminal label has a row.  As
the terminal label is at most one past the slots, that is the next one. -/
theorem map_label_listingRows (p : Program) :
    p.listingRows.map Row.label = List.range' 1 (p.slots.size + p.endRows.length) := by
  have hslots : p.slotRows.map Row.label = List.range' 1 p.slots.size := by
    rw [slotRows, List.map_map]
    exact (List.zipIdx_map_snd 1 p.slots.toList).trans (by rw [Array.length_toList])
  have hend : p.endRows.map Row.label = List.range' (1 + p.slots.size) p.endRows.length := by
    have hterminal := p.terminalLabel_le_slots
    unfold endRows
    split
    · rename_i h
      have hlabel : p.terminalLabel = 1 + p.slots.size := by omega
      simp [hlabel]
    · rfl
  rw [listingRows_eq, List.map_append, hslots, hend, List.range'_append_1]

/-- **No target is left without a row:** it is the label of a slot, or the terminal label, which
then has its own. -/
theorem Passes.mem_range_of_isTarget (h : p.Passes) {label : Nat} (ht : p.IsTarget label) :
    label ∈ List.range' 1 (p.slots.size + p.endRows.length) := by
  obtain ⟨i, hi, htarget⟩ := ht
  obtain ⟨hlow, hhigh⟩ := h.targets i hi label htarget
  have hterminal := p.terminalLabel_le_slots
  rw [List.mem_range'_1]
  by_cases hslot : label ≤ p.slots.size
  · omega
  · have hlabel : label = p.terminalLabel := by omega
    have hend : p.endRows.length = 1 := by
      rw [endRows, if_pos ⟨by omega, hlabel ▸ ⟨i, hi, htarget⟩⟩]
      rfl
    omega

/-! ## The text -/

/-- The three lines above the rows. -/
def header (p : Program) : List (List Char) :=
  let rule := List.replicate 40 '═'
  [rule, s!" {p.size} instructions, {p.slots.size} slots".toList, rule]

theorem header_eq (p : Program) : p.header = [rule, p.listingTitle, rule].map String.toList := by
  have hrule : rule.toList = List.replicate 40 '═' := String.toList_ofList
  rw [header, List.map_cons, List.map_cons, List.map_singleton, hrule, listingTitle]

theorem not_mem_header {c : Char} (hd : c.isDigit = false) (hc : c ∉ "═ instruco,l".toList) :
    ∀ line ∈ p.header, c ∉ line := by
  have hdigits (n : Nat) : c ∉ Nat.toDigits 10 n := Command.not_mem_toDigits hd n
  simp only [String.reduceToList, List.mem_cons, List.not_mem_nil, or_false, not_or] at hc
  simp [header, Draft.toString_text, hdigits, hc]

/-- **The lines of a listing are the header and the rows.** -/
theorem prints_listing (p : Program) :
    Command.Prints p.listing (p.header ++ p.listingRows.map fun r => r.text.toList) := by
  have hlines : p.listing.toList =
      (p.header ++ p.listingRows.map fun r => r.text.toList).flatMap (· ++ ['\n']) := by
    have hended (s : String) : (s ++ "\n").toList = s.toList ++ ['\n'] := String.toList_append
    simp only [listing, String.toList_join, header_eq, List.flatMap_append, List.flatMap_map,
      List.map_append, hended]
  rw [Command.Prints, Source.linesOf, hlines]
  apply Command.splitOn_ended
  intro line hline
  rcases List.mem_append.1 hline with hline | hline
  · exact not_mem_header rfl (by simp) line hline
  · obtain ⟨r, _, rfl⟩ := List.mem_map.1 hline
    exact r.newline_not_mem_text

/-- The marked labels of a listing are the labels of its rows that are targets. -/
theorem markedLabels_listing (p : Program) : markedLabels p.listing =
    (List.range' 1 (p.slots.size + p.endRows.length)).filter fun label =>
      decide (p.IsTarget label) := by
  have hheader : p.header.filter isMarked = [] := by
    rw [List.filter_eq_nil_iff]
    intro line hline
    rw [isMarked, List.contains_iff_mem]
    exact not_mem_header rfl (by simp) line hline
  have hrows : (p.listingRows.map fun r => r.text.toList).filter isMarked =
      (p.listingRows.filter fun r => decide (p.IsTarget r.label)).map fun r => r.text.toList := by
    rw [List.filter_map]
    refine congrArg _ (List.filter_congr fun r hr => ?_)
    rw [Function.comp_apply, r.isMarked_text, marked_of_mem_listingRows hr]
  have hlast : [([] : List Char)].filter isMarked = [] := rfl
  have hprints : Source.linesOf p.listing = _ := p.prints_listing
  rw [markedLabels, hprints, List.filter_append, List.filter_append, hheader, hrows, hlast,
    List.nil_append, List.append_nil, map_lineLabel_text, ← map_label_listingRows, List.filter_map]
  rfl

end Program

/-- **A listing shows every slot, and every target once.**  The listing of a checked program
consists of the header, of one line for each slot, with labels from 1 on, and of a last line for the
terminal label if that is jumped to and has no slot.  A line shows the operation of its slot, and
that it is empty exactly if there is none.  The labels on marked lines are the targets of the
branches, and none of them is on two lines. -/
theorem listing_shows_every_target_once (hp : p.Built is) (hv : p.validate = .ok v) :
    ∃ slotLines endLines : List (List Char),
      Command.Prints v.program.listing (v.program.header ++ slotLines ++ endLines) ∧
      slotLines.length = v.program.slots.size ∧
      (slotLines ++ endLines).map Listing.lineLabel =
        List.range' 1 (v.program.slots.size + endLines.length) ∧
      (∀ k slot, v.program.slots[k]? = some slot → ∃ content,
        slotLines[k]? = some (Listing.line (k + 1) (decide (v.program.IsTarget (k + 1))) content) ∧
        (∀ i, slot = some i → content = i.op.text) ∧
        (content = "(empty)" ↔ slot = none) ∧ content ≠ "(end)") ∧
      endLines = (if v.program.slots.size < v.terminal ∧ v.program.IsTarget v.terminal then
        [Listing.line v.terminal true "(end)"] else []) ∧
      (Listing.markedLabels v.program.listing).Nodup ∧
      ∀ label, label ∈ Listing.markedLabels v.program.listing ↔
        ∃ i ∈ v.program.instructions, label ∈ i.op.targets := by
  obtain ⟨hpass, rfl⟩ := Program.validate_eq_ok_iff.1 hv
  have hpass' : p.withStop.Passes := hp.passes_withStop hpass
  rw [← hp.terminalLabel_withStop]
  -- that the checked program passes again and keeps its terminal label is all that the history is
  -- needed for
  generalize p.withStop = q at hpass' ⊢
  refine ⟨q.slotRows.map fun r => r.text.toList, q.endRows.map fun r => r.text.toList,
    ?_, ?_, ?_, ?_, ?_, ?_, ?_⟩
  · rw [List.append_assoc, ← List.map_append, ← q.listingRows_eq]
    exact q.prints_listing
  · rw [List.length_map, q.length_slotRows]
  · rw [← List.map_append, Listing.map_lineLabel_text, ← q.listingRows_eq, List.length_map,
      q.map_label_listingRows]
  · intro k slot hslot
    refine ⟨(Program.slotContent slot).text, ?_, Program.text_slotContent slot⟩
    rw [List.getElem?_map, Program.getElem?_slotRows hslot, Option.map_some,
      Listing.Row.toList_text]
  · rw [Program.endRows, apply_ite (List.map _), List.map_singleton, Listing.Row.toList_text]
    rfl
  · rw [q.markedLabels_listing]
    exact List.Nodup.filter _ List.nodup_range'
  · intro label
    rw [q.markedLabels_listing, List.mem_filter, decide_eq_true_iff]
    exact ⟨fun h => h.2, fun h => ⟨hpass'.mem_range_of_isTarget h, h⟩⟩

/-- Two slots, and a jump to the label past them. -/
theorem listing_marks_label_past_slots :
    ∃ p v, p = Program.ofList [⟨1, .stop⟩, ⟨2, .branch 1 1 3⟩] ∧ p.validate = .ok v ∧
      v.program = p ∧
      Command.Prints p.listing (p.header ++
        [Listing.line 1 true "stop", Listing.line 2 false "if x1 == 0 goto 1 else goto 3"] ++
        [Listing.line 3 true "(end)"]) ∧
      (Listing.markedLabels p.listing).Nodup ∧
      ∀ label, label ∈ Listing.markedLabels p.listing ↔ label = 1 ∨ label = 3 := by
  have hp : Program.Built _ [⟨1, .stop⟩, ⟨2, .branch 1 1 3⟩] := .ofList (by decide)
  obtain ⟨slotLines, endLines, hprints, hlength, _, hlines, rfl, hnodup, hmem⟩ :=
    listing_shows_every_target_once hp rfl
  obtain ⟨_, hfirst, hstop, _⟩ := hlines 0 _ rfl
  obtain ⟨_, hsecond, hbranch, _⟩ := hlines 1 _ rfl
  rw [hstop _ rfl] at hfirst
  rw [hbranch _ rfl] at hsecond
  obtain ⟨first, second, rfl⟩ := List.length_eq_two.1 hlength
  cases hfirst
  cases hsecond
  refine ⟨_, _, rfl, rfl, rfl, hprints, hnodup, fun label => (hmem label).trans ?_⟩
  show (∃ i ∈ [(⟨1, .stop⟩ : Instruction), ⟨2, .branch 1 1 3⟩], label ∈ i.op.targets) ↔ _
  simp [Op.targets]

end RegisterMachine
