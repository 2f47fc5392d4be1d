import Mathlib.Data.Set.Card
import RegisterMachine.Proofs.Checking

/-!
# Programs and what their callers added

A program grows by additions, with checks at any point in between.  A check that passes may leave a
stop behind; a check that fails leaves nothing.

* `Program.Built p is` — `p` comes from the empty program by adding `is` in order, with any number
  of checks anywhere in between.
* `Program.Follows p is` — the store invariant: `p` reads as `latest is`, except for one label that
  nobody added and that holds the remembered stop.
* `Follows.empty`, `Follows.add`, `Follows.withStop` — each step keeps it; `Built.follows` — so it
  holds after every history.

Consequences: `Follows.terminalLabel_eq` — the terminal label counts the labels of the caller and
nothing else; `Built.terminalLabel_withStop` — so a check does not move it; `Built.passes_withStop`
— a program that passed passes again.
-/

set_option autoImplicit false

namespace RegisterMachine.Program

variable {p : Program} {is : List Instruction} {i : Instruction}

/-- `p` was built from nothing by adding `is` in order, with checks in between. -/
inductive Built : Program → List Instruction → Prop
  | empty : Built empty []
  | add {p : Program} {is : List Instruction} {i : Instruction} (h : Built p is)
      (hi : i.WellFormed) : Built (p.add i) (is ++ [i])
  | check {p : Program} {is : List Instruction} {v : Validated} (h : Built p is)
      (hv : p.validate = .ok v) : Built v.program is

/-- The remembered stop of a program, as far as reading `label` goes. -/
def implicitAt (p : Program) (label : Nat) : Option Instruction :=
  if p.implicitStop = some label then some ⟨label, .stop⟩ else none

/-- `p` reads as the latest of `is`, apart from a stop under a label that nobody added. -/
structure Follows (p : Program) (is : List Instruction) : Prop where
  tidy : p.Tidy
  free : ∀ {label : Nat}, p.implicitStop = some label → latest is label = none
  get : ∀ label : Nat, p.get? label = (latest is label).or (p.implicitAt label)

/-! ## One step of a history -/

theorem Follows.empty : Follows empty [] := by
  refine ⟨Tidy.empty, fun h => ?_, fun label => ?_⟩
  · cases h
  · rw [get?_empty, latest_nil]
    rfl

theorem latest_concat (is : List Instruction) (i : Instruction) (label : Nat) :
    latest (is ++ [i]) label = if label = i.label then some i else latest is label := by
  rw [latest_append, latest_singleton]
  split <;> rfl

theorem Follows.add (h : p.Follows is) (hi : 1 ≤ i.label) : (p.add i).Follows (is ++ [i]) := by
  have hstop : ∀ label : Nat, (p.add i).implicitStop = some label ↔
      p.implicitStop = some label ∧ label ≠ i.label := by
    intro label
    simp only [Program.add]
    split
    · rename_i e
      refine ⟨fun hl => (by cases hl), fun hl => ?_⟩
      rw [e] at hl
      exact absurd (Option.some.inj hl.1).symm hl.2
    · rename_i e
      refine ⟨fun hl => ⟨hl, fun he => e (he ▸ hl)⟩, fun hl => hl.1⟩
  refine ⟨h.tidy.add hi, ?_, ?_⟩
  · intro label hl
    obtain ⟨hl, hne⟩ := (hstop label).1 hl
    rw [latest_concat, if_neg hne]
    exact h.free hl
  · intro label
    rw [get?_add p hi, latest_concat]
    split
    · rfl
    · rename_i hne
      rw [h.get label]
      simp [implicitAt, hstop, hne]

/-- The remembered stop is where it was put. -/
theorem Follows.get?_implicitStop (h : p.Follows is) {label : Nat}
    (hl : p.implicitStop = some label) : p.get? label = some ⟨label, .stop⟩ := by
  rw [h.get label, h.free hl, implicitAt, if_pos hl]
  rfl

/-- A program without any stop remembers none. -/
theorem Follows.implicitStop_eq_none (h : p.Follows is) (hs : p.stopLabels = []) :
    p.implicitStop = none := by
  cases hl : p.implicitStop with
  | none => rfl
  | some label =>
    have := h.tidy.mem_stopLabels_iff.2 (h.get?_implicitStop hl)
    rw [hs] at this
    cases this

theorem Follows.withStop (h : p.Follows is) : p.withStop.Follows is := by
  cases hs : p.stopLabels with
  | cons label others => rw [withStop_of_mem (hs ▸ List.mem_cons_self)]; exact h
  | nil =>
    have hnone := h.implicitStop_eq_none hs
    have hget : ∀ label, p.get? label = latest is label := by
      intro label
      rw [h.get label, implicitAt, hnone, if_neg (by simp), Option.or_none]
    have hfree : latest is p.stopPlace = none := by rw [← hget, get?_stopPlace]
    refine ⟨h.tidy.withStop, ?_, ?_⟩
    · intro label hl
      rw [implicitStop_withStop hs] at hl
      exact Option.some.inj hl ▸ hfree
    · intro label
      rw [get?_withStop hs, implicitAt, implicitStop_withStop hs, hget]
      by_cases he : label = p.stopPlace
      · rw [if_pos he, if_pos (congrArg some he.symm), he, hfree]
        rfl
      · rw [if_neg he, if_neg fun e => he (Option.some.inj e).symm, Option.or_none]

/-! ## Whole histories -/

/-- **Every history keeps the store invariant.** -/
theorem Built.follows (h : p.Built is) : p.Follows is := by
  induction h with
  | empty => exact Follows.empty
  | add _ hi ih => exact ih.add hi.label_pos
  | check _ hv ih =>
    obtain ⟨_, rfl⟩ := validate_eq_ok_iff.1 hv
    exact ih.withStop

theorem Built.tidy (h : p.Built is) : p.Tidy := h.follows.tidy

theorem Built.withStop (h : p.Built is) (hp : p.Passes) : p.withStop.Built is :=
  h.check (validate_eq_ok_iff.2 ⟨hp, rfl⟩)

theorem Built.addAll (h : p.Built is) {js : List Instruction} (hjs : ∀ j ∈ js, j.WellFormed) :
    (p.addAll js).Built (is ++ js) := by
  unfold Program.addAll
  induction js generalizing p is with
  | nil => rw [List.append_nil]; exact h
  | cons j js ih =>
    have := ih (h.add (hjs j List.mem_cons_self)) fun k hk => hjs k (List.mem_cons_of_mem _ hk)
    rwa [List.append_assoc, List.singleton_append] at this

theorem Built.ofList (his : ∀ i ∈ is, i.WellFormed) : (ofList is).Built is := by
  have := Built.empty.addAll his
  rwa [List.nil_append] at this

theorem Built.wellFormed (h : p.Built is) : ∀ i ∈ is, i.WellFormed := by
  induction h with
  | empty => intro i hi; cases hi
  | add _ hj ih =>
    intro i hi
    rcases List.mem_append.1 hi with hi | hi
    · exact ih i hi
    · exact List.mem_singleton.1 hi ▸ hj
  | check _ _ ih => exact ih

/-- What a program stores was added by its caller, or is the stop that it remembers. -/
theorem Follows.mem_instructions (h : p.Follows is) (hi : i ∈ p.instructions) :
    i ∈ is ∨ p.implicitStop = some i.label ∧ i.op = .stop := by
  rw [h.tidy.mem_instructions_iff, h.get i.label] at hi
  rcases Option.or_eq_some_iff.1 hi with hi | ⟨_, hi⟩
  · exact .inl (label_of_latest hi).1
  · unfold implicitAt at hi
    split at hi
    · rename_i e
      exact .inr ⟨e, by rw [← Option.some.inj hi]⟩
    · cases hi

theorem Built.mem_wellFormed (h : p.Built is) (hi : i ∈ p.instructions) : i.WellFormed := by
  rcases h.follows.mem_instructions hi with his | ⟨_, hop⟩
  · exact h.wellFormed i his
  · refine ⟨h.tidy.one_le_label hi, ?_, ?_⟩
    · intro t ht
      rw [hop] at ht
      cases ht
    · intro r hr
      rw [hop] at hr
      cases hr

/-! ## Counting -/

/-- The labels that occur in a list of instructions. -/
def labelSet (is : List Instruction) : Finset Nat := (is.map Instruction.label).toFinset

theorem mem_labelSet {label : Nat} : label ∈ labelSet is ↔ latest is label ≠ none := by
  rw [labelSet, List.mem_toFinset, ne_eq, latest_eq_none_iff, not_not]

theorem Follows.mem_labels_iff (h : p.Follows is) {label : Nat} :
    label ∈ p.labels ↔ label ∈ labelSet is ∨ p.implicitStop = some label := by
  rw [h.tidy.mem_labels_iff, h.get label, mem_labelSet, implicitAt]
  cases latest is label with
  | some i => simp
  | none => by_cases hl : p.implicitStop = some label <;> simp [hl]

/-- **The store holds one instruction for each label of the caller, and the remembered stop.** -/
theorem Follows.size_eq (h : p.Follows is) :
    p.size = (labelSet is).card + if p.implicitStop.isSome then 1 else 0 := by
  have hcard : p.size = p.labels.toFinset.card := by
    rw [List.toFinset_card_of_nodup h.tidy.labels_nodup, length_labels]
  rw [hcard]
  cases hl : p.implicitStop with
  | none =>
    have : p.labels.toFinset = labelSet is := by
      ext label
      rw [List.mem_toFinset, h.mem_labels_iff, hl]
      simp
    rw [this]
    rfl
  | some stop =>
    have : p.labels.toFinset = insert stop (labelSet is) := by
      ext label
      rw [List.mem_toFinset, h.mem_labels_iff, hl, Finset.mem_insert, or_comm, Option.some.injEq,
        eq_comm]
    rw [this, Finset.card_insert_of_notMem]
    · rfl
    · rw [mem_labelSet, not_not]
      exact h.free hl

/-- The remembered stop is stored, so leaving it out of the count takes nothing below zero. -/
theorem Follows.one_le_size (h : p.Follows is) (hl : p.implicitStop.isSome) : 1 ≤ p.size := by
  rw [h.size_eq, if_pos hl]
  exact Nat.le_add_left _ _

/-- **The terminal label is one past the number of labels that the caller used.** -/
theorem Follows.terminalLabel_eq (h : p.Follows is) :
    p.terminalLabel = (labelSet is).card + 1 := by
  unfold terminalLabel
  rw [h.size_eq]
  omega

theorem Built.terminalLabel_withStop (h : p.Built is) :
    p.withStop.terminalLabel = p.terminalLabel := by
  rw [h.follows.withStop.terminalLabel_eq, h.follows.terminalLabel_eq]

/-- A program that passed its check passes it again. -/
theorem Built.passes_withStop (h : p.Built is) (hp : p.Passes) : p.withStop.Passes := by
  constructor
  · intro i hi t ht
    rw [h.terminalLabel_withStop]
    rcases h.tidy.mem_instructions_withStop hi with hi | rfl
    · exact hp.targets i hi t ht
    · cases ht
  · obtain ⟨label, hs⟩ := h.tidy.stopLabels_withStop hp
    rw [hs]
    exact Nat.le_refl 1

end RegisterMachine.Program
