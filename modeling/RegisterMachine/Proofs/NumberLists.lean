import Mathlib.Data.Finset.Sort
import RegisterMachine.Proofs.Extensionality
import RegisterMachine.Proofs.ProgramCodec

/-!
# Lists of numbers, decoded and encoded again

A list of numbers may hold its instructions in any order and several under one label.  The program
decoded from it keeps the last of each label, and encoding that program lists them by label, with a
stop if there is none.

* `label?` — the label of the instruction that a number stands for; `labelsOf ns` — the labels of a
  list.
* `lastNumber? ns label` — the last number of a list that stands for an instruction with `label`.
* `KeepsStop ns` — one of those numbers is that of a stop; `freeLabel` — where a stop is put if none
  of them is.
* `exists_instructions` — a list that is decoded holds the numbers of instructions;
  `lastNumber?_map`, `labelsOf_map`, `keepsStop_map_iff` — what that means for the definitions
  above.
* `Tidy.map_instructions` — what is listed in slot order is listed by increasing labels.
* `Tidy.size_slots_eq`, `freeLabel_eq` — the label of the stop that a check supplies.

Principal result: `reencoding_normalizes` — the numbers that come out.
-/

set_option autoImplicit false

namespace RegisterMachine

variable {is : List Instruction} {i : Instruction} {p q : Program}

namespace Program

/-! ## Programs listed by label -/

/-- **Slot order is the order of the labels.** -/
theorem Tidy.map_instructions {β : Type} {f : Instruction → β} {g : Nat → β} (h : p.Tidy)
    (hfg : ∀ i ∈ p.instructions, f i = g i.label) :
    p.instructions.map f = (p.labels.toFinset.sort (· ≤ ·)).map g := by
  have hsort : p.labels.toFinset.sort (· ≤ ·) = p.labels :=
    (List.toFinset_sort (· ≤ ·) h.labels_nodup).2 (h.labels_pairwise.imp Nat.le_of_lt)
  rw [hsort, labels, List.map_map]
  exact List.map_congr_left hfg

/-- The last slot is that of the largest label. -/
theorem Tidy.size_slots_eq (h : p.Tidy) : p.slots.size = p.labels.toFinset.sup id := by
  apply Nat.le_antisymm
  · by_cases hs : p.slots.size = 0
    · omega
    · have hmem : p.slots.size ∈ p.labels.toFinset := by
        rw [List.mem_toFinset, h.mem_labels_iff]
        exact h.get?_size hs
      exact Finset.le_sup (f := id) hmem
  · refine Finset.sup_le fun label hl => ?_
    rw [List.mem_toFinset, h.mem_labels_iff] at hl
    obtain ⟨i, hi⟩ := hl
    exact le_size_of_get? hi

/-- The labels of a program: those that its caller used, and that of the remembered stop. -/
theorem Follows.toFinset_labels (h : p.Follows is) :
    p.labels.toFinset = labelSet is ∪ p.implicitStop.toFinset := by
  ext label
  rw [List.mem_toFinset, h.mem_labels_iff, Finset.mem_union, Option.mem_toFinset, Option.mem_def]

theorem toFinset_labels_ofList (his : ∀ i ∈ is, i.WellFormed) :
    (ofList is).labels.toFinset = labelSet is := by
  rw [(Built.ofList his).follows.toFinset_labels, implicitStop_ofList]
  simp

end Program

namespace Goedel

open Program

variable {ns : List Nat}

/-! ## Numbers and their labels -/

/-- The label of the instruction that `n` stands for. -/
def label? (n : Nat) : Option Nat := (decodeInstruction n).toOption.map Instruction.label

/-- The labels that the numbers stand for. -/
def labelsOf (ns : List Nat) : Finset Nat := (ns.filterMap label?).toFinset

/-- The last of the numbers that stand for an instruction with `label`. -/
def lastNumber? (ns : List Nat) (label : Nat) : Option Nat :=
  ns.reverse.find? (label? · == some label)

/-- The last number under some label is that of a stop. -/
def KeepsStop (ns : List Nat) : Prop :=
  ∃ label n, lastNumber? ns label = some n ∧ decodeInstruction n = .ok ⟨label, .stop⟩

/-- The label of a supplied stop: one past the number of labels, or one past the largest if that is
in use. -/
def freeLabel (labels : Finset Nat) : Nat :=
  if labels.card + 1 ∈ labels then labels.sup id + 1 else labels.card + 1

theorem label?_encodeInstruction (h : i.Constructible) :
    label? (encodeInstruction i) = some i.label := by
  rw [label?, decode_encodeInstruction h]
  rfl

/-- **A list that is decoded holds the numbers of instructions,** which are added in order. -/
theorem exists_instructions (h : decodeProgram ns = .ok q) :
    ∃ is, (∀ i ∈ is, i.Constructible) ∧ ns = is.map encodeInstruction ∧ q = .ofList is := by
  rw [decodeProgram_eq] at h
  cases hall : ns.mapM decodeInstruction with
  | error cause => rw [hall] at h; cases h
  | ok is =>
    rw [hall] at h
    cases h
    refine ⟨is, forall_of_mapM (fun n i hi => (decodeInstruction_eq_ok_iff.1 hi).1) hall, ?_, rfl⟩
    rw [← List.forall₂_eq_eq_eq, List.forall₂_map_right_iff]
    refine (mapM_eq_ok_iff.1 hall).imp fun n i hi => ?_
    exact (decodeInstruction_eq_ok_iff.1 hi).2.symm

section Encoded

variable (hc : ∀ i ∈ is, i.Constructible)

include hc

theorem filterMap_label?_map :
    (is.map encodeInstruction).filterMap label? = is.map Instruction.label := by
  rw [List.filterMap_map, ← List.filterMap_eq_map]
  exact List.filterMap_congr fun i hi => label?_encodeInstruction (hc i hi)

theorem labelsOf_map : labelsOf (is.map encodeInstruction) = labelSet is := by
  rw [labelsOf, filterMap_label?_map hc, labelSet]

theorem lastNumber?_map (label : Nat) :
    lastNumber? (is.map encodeInstruction) label = (latest is label).map encodeInstruction := by
  rw [lastNumber?, ← List.map_reverse, List.find?_map, latest]
  congr 1
  refine List.find?_congr fun i hi => ?_
  have hl := label?_encodeInstruction (hc i (List.mem_reverse.1 hi))
  simp [hl]

theorem keepsStop_map_iff :
    KeepsStop (is.map encodeInstruction) ↔ ∃ label, latest is label = some ⟨label, .stop⟩ := by
  constructor
  · rintro ⟨label, n, hn, hstop⟩
    rw [lastNumber?_map hc] at hn
    obtain ⟨i, hi, rfl⟩ := Option.map_eq_some_iff.1 hn
    rw [decode_encodeInstruction (hc i (label_of_latest hi).1)] at hstop
    exact ⟨label, Except.ok.inj hstop ▸ hi⟩
  · rintro ⟨label, h⟩
    refine ⟨label, encodeInstruction ⟨label, .stop⟩, ?_,
      decode_encodeInstruction (hc _ (label_of_latest h).1)⟩
    rw [lastNumber?_map hc, h]
    rfl

end Encoded

/-! ## Programs encoded again -/

/-- **Where a check puts a stop,** said by the labels alone. -/
theorem freeLabel_eq (his : ∀ i ∈ is, i.WellFormed) :
    freeLabel (labelSet is) = (ofList is).stopPlace := by
  have hp := Built.ofList his
  have hfree : ((ofList is).get? ((labelSet is).card + 1)).isNone ↔
      (labelSet is).card + 1 ∉ labelSet is := by
    rw [get?_ofList fun i hi => (his i hi).label_pos, mem_labelSet, not_not,
      Option.isNone_iff_eq_none]
  rw [freeLabel, stopPlace, hp.follows.terminalLabel_eq, hp.tidy.size_slots_eq,
    toFinset_labels_ofList his]
  by_cases hmem : (labelSet is).card + 1 ∈ labelSet is
  · rw [if_pos hmem, if_neg (hfree.not.2 (not_not.2 hmem))]
  · rw [if_neg hmem, if_pos (hfree.2 hmem)]

theorem stopLabels_ofList_ne_nil_iff (his : ∀ i ∈ is, i.WellFormed) :
    (ofList is).stopLabels ≠ [] ↔ ∃ label, latest is label = some ⟨label, .stop⟩ := by
  rw [← List.isEmpty_eq_false_iff, List.isEmpty_eq_false_iff_exists_mem]
  refine exists_congr fun label => ?_
  rw [(Built.ofList his).tidy.mem_stopLabels_iff, get?_ofList fun i hi => (his i hi).label_pos]

/-- Encoding lists, by label, the last number of each and the stop that was supplied. -/
theorem numbers_of_encodeProgram {e : Encoded} (hc : ∀ i ∈ is, i.Constructible)
    (he : encodeProgram (ofList is) = .ok e) :
    e.numbers.map some =
      ((labelSet is ∪ e.program.implicitStop.toFinset).sort (· ≤ ·)).map fun label =>
        if e.program.implicitStop = some label then some (encodeInstruction ⟨label, .stop⟩)
        else lastNumber? (is.map encodeInstruction) label := by
  have his : ∀ i ∈ is, i.WellFormed := fun i hi => (Instruction.constructible_iff.1 (hc i hi)).1
  obtain ⟨_, hprog, hnumbers⟩ := encodeProgram_eq_ok he
  have hfollows : e.program.Follows is := hprog ▸ (Built.ofList his).follows.withStop
  rw [hnumbers, ← hprog, List.map_map, ← hfollows.toFinset_labels]
  refine hfollows.tidy.map_instructions fun i hi => ?_
  have hget := hfollows.tidy.mem_instructions_iff.1 hi
  by_cases hstop : e.program.implicitStop = some i.label
  · rw [hfollows.get?_implicitStop hstop, Option.some.injEq] at hget
    rw [if_pos hstop, hget]
    rfl
  · rw [hfollows.get, implicitAt, if_neg hstop, Option.or_none] at hget
    rw [if_neg hstop, lastNumber?_map hc, hget]
    rfl

/-- A stop is supplied exactly if the caller left none, and under a free label. -/
theorem implicitStop_of_encodeProgram {e : Encoded} (his : ∀ i ∈ is, i.WellFormed)
    (he : encodeProgram (ofList is) = .ok e) :
    ((∃ label, latest is label = some ⟨label, .stop⟩) → e.program.implicitStop = none) ∧
    ((¬ ∃ label, latest is label = some ⟨label, .stop⟩) →
      e.program.implicitStop = some (freeLabel (labelSet is)) ∧
        freeLabel (labelSet is) ∉ labelSet is) := by
  obtain ⟨_, hprog, _⟩ := encodeProgram_eq_ok he
  rw [hprog, ← stopLabels_ofList_ne_nil_iff his]
  constructor
  · intro h
    obtain ⟨label, hl⟩ := List.exists_mem_of_ne_nil _ h
    rw [withStop_of_mem hl, implicitStop_ofList]
  · intro h
    have hnil : (ofList is).stopLabels = [] := not_not.1 h
    have hstop : (ofList is).withStop.implicitStop = some (freeLabel (labelSet is)) := by
      rw [implicitStop_withStop hnil, freeLabel_eq his]
    refine ⟨hstop, ?_⟩
    rw [mem_labelSet, not_not]
    exact (Built.ofList his).follows.withStop.free hstop

/-- Numbers in the order of their labels are the last of their labels. -/
theorem map_lastNumber?_of_sorted (hc : ∀ i ∈ is, i.Constructible)
    (hs : (is.map Instruction.label).Pairwise (· < ·)) :
    ((labelSet is).sort (· ≤ ·)).map (lastNumber? (is.map encodeInstruction)) =
      (is.map encodeInstruction).map some := by
  have hn : (is.map Instruction.label).Nodup := hs.imp Nat.ne_of_lt
  have hsort : (labelSet is).sort (· ≤ ·) = is.map Instruction.label :=
    (List.toFinset_sort (· ≤ ·) hn).2 (hs.imp Nat.le_of_lt)
  rw [hsort, List.map_map, List.map_map]
  refine List.map_congr_left fun i hi => ?_
  have hlatest : latest is i.label = some i := (latest_eq_some_iff hn).2 ⟨hi, rfl⟩
  show lastNumber? _ i.label = some (encodeInstruction i)
  rw [lastNumber?_map hc, hlatest]
  rfl

/-- **Numbers with distinct labels may be given in any order.** -/
theorem decodeProgram_perm {ms : List Nat} (hc : ∀ i ∈ is, i.Constructible)
    (hn : (is.map Instruction.label).Nodup) (h : ms.Perm (is.map encodeInstruction)) :
    decodeProgram ms = .ok (ofList is) := by
  have his : ∀ i ∈ is, i.WellFormed := fun i hi => (Instruction.constructible_iff.1 (hc i hi)).1
  have hall : List.Forall₂ (fun n i => decodeInstruction n = .ok i)
      (is.map encodeInstruction) is := by
    rw [List.forall₂_map_left_iff, List.forall₂_same]
    exact fun i hi => decode_encodeInstruction (hc i hi)
  obtain ⟨js, hjs, hperm⟩ := List.perm_comp_forall₂ h hall
  rw [decodeProgram_eq, mapM_eq_ok_iff.2 hjs, ofList_perm hperm.symm hn his]
  rfl

/-- **Encoding a decoded list normalizes it.**  If one of the last numbers of the labels is a stop,
these numbers come out, by increasing labels.  Otherwise the number of a stop comes out as well, in
the place of its label: one past the number of labels, or one past the largest.  So a list that has
its labels in order and a stop comes out as it was, and numbers with distinct labels may be given in
any order. -/
theorem reencoding_normalizes {e : Encoded} (hq : decodeProgram ns = .ok q)
    (he : encodeProgram q = .ok e) :
    (KeepsStop ns → e.numbers.map some = ((labelsOf ns).sort (· ≤ ·)).map (lastNumber? ns)) ∧
    (¬ KeepsStop ns →
      let stop := freeLabel (labelsOf ns)
      e.program.implicitStop = some stop ∧ stop ∉ labelsOf ns ∧
      e.numbers.map some = ((insert stop (labelsOf ns)).sort (· ≤ ·)).map fun label =>
        if label = stop then some (encodeInstruction ⟨stop, .stop⟩) else lastNumber? ns label) ∧
    ((ns.filterMap label?).Pairwise (· < ·) →
      (∃ n ∈ ns, ∃ label, decodeInstruction n = .ok ⟨label, .stop⟩) → e.numbers = ns) ∧
    ∀ ms, ms.Perm ns → (ns.filterMap label?).Nodup → decodeProgram ms = .ok q := by
  obtain ⟨is, hc, rfl, rfl⟩ := exists_instructions hq
  have his : ∀ i ∈ is, i.WellFormed := fun i hi => (Instruction.constructible_iff.1 (hc i hi)).1
  have hnumbers := numbers_of_encodeProgram hc he
  obtain ⟨hnone, hsome⟩ := implicitStop_of_encodeProgram his he
  rw [labelsOf_map hc, keepsStop_map_iff hc, filterMap_label?_map hc]
  have hkept (h : ∃ label, latest is label = some ⟨label, .stop⟩) : e.numbers.map some =
      ((labelSet is).sort (· ≤ ·)).map (lastNumber? (is.map encodeInstruction)) := by
    simpa [hnone h] using hnumbers
  refine ⟨hkept, fun h => ?_, fun hs hstop => ?_, fun ms hms hn => decodeProgram_perm hc hn hms⟩
  · obtain ⟨hstop, hfree⟩ := hsome h
    refine ⟨hstop, hfree, ?_⟩
    have hunion : labelSet is ∪ (some (freeLabel (labelSet is))).toFinset =
        insert (freeLabel (labelSet is)) (labelSet is) := by
      rw [Option.toFinset_some, Finset.union_singleton]
    rw [hnumbers, hstop, hunion]
    refine List.map_congr_left fun label _ => ?_
    by_cases hl : label = freeLabel (labelSet is)
    · rw [if_pos hl, if_pos (congrArg some hl.symm), hl]
    · rw [if_neg hl, if_neg fun e => hl (Option.some.inj e).symm]
  · obtain ⟨n, hn, label, hdecode⟩ := hstop
    obtain ⟨i, hi, rfl⟩ := List.mem_map.1 hn
    rw [decode_encodeInstruction (hc i hi), Except.ok.injEq] at hdecode
    have hlatest : latest is label = some ⟨label, .stop⟩ :=
      (latest_eq_some_iff (hs.imp Nat.ne_of_lt)).2 ⟨hdecode ▸ hi, rfl⟩
    have hsame := hkept ⟨label, hlatest⟩
    rw [map_lastNumber?_of_sorted hc hs] at hsame
    exact List.map_injective_iff.2 (Option.some_injective _) hsame

/-- A stop that is overwritten does not come out, and one is put into the gap; a list in order comes
out as it was. -/
theorem reencoding_normalizes_unordered_list :
    (∃ q e,
      decodeProgram ([⟨5, .copy 1 2⟩, ⟨1, .stop⟩, ⟨1, .set 1 7⟩].map encodeInstruction) = .ok q ∧
      encodeProgram q = .ok e ∧ e.program.implicitStop = some 3 ∧
      e.numbers.map some =
        [⟨1, .set 1 7⟩, ⟨3, .stop⟩, ⟨5, .copy 1 2⟩].map fun i => some (encodeInstruction i)) ∧
    ∃ q e, decodeProgram ([⟨2, .set 1 7⟩, ⟨4, .stop⟩].map encodeInstruction) = .ok q ∧
      encodeProgram q = .ok e ∧ e.numbers = [⟨2, .set 1 7⟩, ⟨4, .stop⟩].map encodeInstruction := by
  constructor
  · let is : List Instruction := [⟨5, .copy 1 2⟩, ⟨1, .stop⟩, ⟨1, .set 1 7⟩]
    have hc : ∀ i ∈ is, i.Constructible := by decide
    have hkeeps : ¬ KeepsStop (is.map encodeInstruction) := by
      rw [keepsStop_map_iff hc]
      rintro ⟨label, h⟩
      have hlabel : label = 1 := by simpa [is] using (label_of_latest h).1
      subst hlabel
      cases h
    have hq := decodeProgram_map_encodeInstruction hc
    obtain ⟨hstop, _, hnumbers⟩ := (reencoding_normalizes hq (e := ⟨_, _, _⟩) rfl).2.1 hkeeps
    have hfree : freeLabel (labelSet is) = 3 := by decide
    have hset : insert 3 (labelSet is) = [1, 3, 5].toFinset := by decide
    rw [labelsOf_map hc, hfree] at hstop hnumbers
    rw [hset, (List.toFinset_sort (· ≤ ·) (by decide)).2 (by decide)] at hnumbers
    refine ⟨_, _, hq, rfl, hstop, hnumbers.trans ?_⟩
    simp only [lastNumber?_map hc]
    rfl
  · have hc : ∀ i ∈ [⟨2, .set 1 7⟩, ⟨4, .stop⟩], Instruction.Constructible i := by decide
    have hq := decodeProgram_map_encodeInstruction hc
    have hsame := (reencoding_normalizes hq (e := ⟨_, _, _⟩) rfl).2.2.1
    rw [filterMap_label?_map hc] at hsame
    exact ⟨_, _, hq, rfl, hsame (by decide)
      ⟨_, List.mem_map_of_mem (by decide), 4, decode_encodeInstruction (hc ⟨4, .stop⟩ (by decide))⟩⟩

end Goedel

end RegisterMachine
