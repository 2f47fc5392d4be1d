import RegisterMachine.Proofs.Admission
import RegisterMachine.Proofs.History

/-!
# Programs are equal when they read alike

Equality compares slots, with their gaps and with their number.  Neither depends on how the slots
came to be filled, in which order and over which earlier instructions.

* `Tidy.beq_iff_get?` — tidy programs are equal exactly if every label reads the same.
* `ofList_eq_of_beq` — between programs that are collected from lists, equality leaves nothing out.
* `latest_perm`, `ofList_perm` — instructions with distinct labels may be collected in any order.

Principal result: `collected_programs_are_extensional` — two lists give equal programs exactly if
they agree on the last instruction under every label.
-/

set_option autoImplicit false

namespace RegisterMachine

variable {is js : List Instruction} {p q : Program}

/-- With distinct labels, the order of a list has no influence on what is last under a label. -/
theorem latest_perm (h : is.Perm js) (hn : (is.map Instruction.label).Nodup) (label : Nat) :
    latest is label = latest js label := by
  have hm : (js.map Instruction.label).Nodup := (h.map _).nodup_iff.1 hn
  apply Option.ext
  intro i
  rw [latest_eq_some_iff hn, latest_eq_some_iff hm, h.mem_iff]

namespace Program

/-- **Tidy programs are equal exactly if they read alike.** -/
theorem Tidy.beq_iff_get? (hp : p.Tidy) (hq : q.Tidy) :
    (p == q) = true ↔ ∀ label, p.get? label = q.get? label := by
  rw [beq_iff]
  constructor
  · intro h label
    unfold get?
    rw [h]
  · exact hp.slots_eq hq

theorem beq_ofList_iff (his : ∀ i ∈ is, i.WellFormed) (hjs : ∀ j ∈ js, j.WellFormed) :
    (ofList is == ofList js) = true ↔ ∀ label, latest is label = latest js label := by
  rw [(Built.ofList his).tidy.beq_iff_get? (Built.ofList hjs).tidy]
  simp only [get?_ofList fun i hi => (his i hi).label_pos,
    get?_ofList fun j hj => (hjs j hj).label_pos]

/-- Collected programs remember no stop of their own, so nothing tells equal ones apart. -/
theorem ofList_eq_of_beq (h : (ofList is == ofList js) = true) : ofList is = ofList js := by
  have hslots : (ofList is).slots = (ofList js).slots := beq_iff.1 h
  have hstop : (ofList is).implicitStop = (ofList js).implicitStop := by
    rw [implicitStop_ofList, implicitStop_ofList]
  calc ofList is = ⟨(ofList is).slots, (ofList is).implicitStop⟩ := rfl
    _ = ⟨(ofList js).slots, (ofList js).implicitStop⟩ := by rw [hslots, hstop]

/-- **Instructions with distinct labels may be added in any order.** -/
theorem ofList_perm (h : is.Perm js) (hn : (is.map Instruction.label).Nodup)
    (his : ∀ i ∈ is, i.WellFormed) :
    ofList is = ofList js := by
  have hjs : ∀ j ∈ js, j.WellFormed := fun j hj => his j (h.mem_iff.2 hj)
  exact ofList_eq_of_beq ((beq_ofList_iff his hjs).2 (latest_perm h hn))

/-- **Programs are equal when they read alike, however they were collected.**  Two lists of
instructions, with repeated labels and with gaps, give equal programs exactly if the last
instruction under every label is the same in both, or missing in both; and exactly if both programs
find the same under every label.  Equal ones are then the same in all respects.  In particular
instructions with distinct labels, in any order, give one program, with one size, terminal label,
text and outcome of its check. -/
theorem collected_programs_are_extensional (his : ∀ i ∈ is, i.WellFormed)
    (hjs : ∀ j ∈ js, j.WellFormed) :
    ((ofList is == ofList js) = true ↔ ∀ label, latest is label = latest js label) ∧
    ((ofList is == ofList js) = true ↔ ∀ label, (ofList is).get? label = (ofList js).get? label) ∧
    ((ofList is == ofList js) = true ↔ ofList is = ofList js) ∧
    (is.Perm js → (is.map Instruction.label).Nodup →
      (ofList is == ofList js) = true ∧ (ofList is).size = (ofList js).size ∧
      (ofList is).terminalLabel = (ofList js).terminalLabel ∧ (ofList is).text = (ofList js).text ∧
      (ofList is).validate = (ofList js).validate) := by
  refine ⟨beq_ofList_iff his hjs, (Built.ofList his).tidy.beq_iff_get? (Built.ofList hjs).tidy,
    ⟨ofList_eq_of_beq, fun h => beq_iff.2 (congrArg slots h)⟩, fun hperm hn => ?_⟩
  rw [ofList_perm hperm hn his]
  exact ⟨beq_iff.2 rfl, rfl, rfl, rfl, rfl⟩

/-- A label is used twice in each list and nobody uses label 2; the second pair is a list and its
reverse. -/
theorem collected_programs_with_repeats_are_extensional :
    (∀ label, latest [⟨4, .stop⟩, ⟨1, .set 1 5⟩, ⟨3, .increment 2⟩, ⟨1, .copy 1 2⟩] label =
      latest [⟨1, .copy 1 2⟩, ⟨3, .decrement 7⟩, ⟨3, .increment 2⟩, ⟨4, .stop⟩] label) ∧
    (ofList [⟨6, .stop⟩, ⟨1, .branch 2 4 1⟩, ⟨3, .increment 1⟩]).validate =
      (ofList [⟨3, .increment 1⟩, ⟨1, .branch 2 4 1⟩, ⟨6, .stop⟩]).validate := by
  have hfirst : ∀ i ∈ [⟨4, .stop⟩, ⟨1, .set 1 5⟩, ⟨3, .increment 2⟩, ⟨1, .copy 1 2⟩],
      Instruction.WellFormed i := by decide
  have hsecond : ∀ i ∈ [⟨1, .copy 1 2⟩, ⟨3, .decrement 7⟩, ⟨3, .increment 2⟩, ⟨4, .stop⟩],
      Instruction.WellFormed i := by decide
  have hlist : ∀ i ∈ [⟨6, .stop⟩, ⟨1, .branch 2 4 1⟩, ⟨3, .increment 1⟩],
      Instruction.WellFormed i := by decide
  have hreversed : ∀ i ∈ [⟨3, .increment 1⟩, ⟨1, .branch 2 4 1⟩, ⟨6, .stop⟩],
      Instruction.WellFormed i := by decide
  obtain ⟨hrepeats, _⟩ := collected_programs_are_extensional hfirst hsecond
  obtain ⟨_, _, _, horder⟩ := collected_programs_are_extensional hlist hreversed
  obtain ⟨_, _, _, _, hvalidate⟩ := horder (by decide) (by decide)
  exact ⟨hrepeats.1 (by decide), hvalidate⟩

-- Past a check, equal programs may differ in whose their stop is, and so in the terminal label.
example :
    ((ofList [⟨1, .set 1 5⟩]).withStop == ofList [⟨1, .set 1 5⟩, ⟨2, .stop⟩]) = true ∧
    (ofList [⟨1, .set 1 5⟩]).withStop.terminalLabel = 2 ∧
    (ofList [⟨1, .set 1 5⟩, ⟨2, .stop⟩]).terminalLabel = 3 := by decide

end Program

end RegisterMachine
