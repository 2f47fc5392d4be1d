import RegisterMachine.Proofs.Store

/-!
# What a program that passes its check looks like

* `Program.Passes` — every jump goes to `1 … terminalLabel` and there is one stop at most.
* `validate_eq_ok_iff` — a check succeeds exactly on the programs that pass, and what it returns.
* `get?_withStop`, `Tidy.withStop` — closing a program fills one free label with a stop and changes
  nothing else; `Tidy.stopLabels_withStop` — then there is exactly one stop.
* `validate_of_stop` — a program that has its stop is left as it is.
-/

set_option autoImplicit false

namespace RegisterMachine.Program

variable {p : Program} {i : Instruction}

/-- Jumps stay within the terminal label, and there is one stop at most. -/
structure Passes (p : Program) : Prop where
  targets : ∀ i ∈ p.instructions, ∀ t ∈ i.op.targets, 1 ≤ t ∧ t ≤ p.terminalLabel
  stops : p.stopLabels.length ≤ 1

theorem mem_jumps {jump : Nat × Nat} :
    jump ∈ p.jumps ↔ ∃ i ∈ p.instructions, ∃ t ∈ i.op.targets, (i.label, t) = jump := by
  simp [jumps]

theorem strayJump?_eq_none_iff :
    p.strayJump? = none ↔
      ∀ i ∈ p.instructions, ∀ t ∈ i.op.targets, 1 ≤ t ∧ t ≤ p.terminalLabel := by
  unfold strayJump?
  rw [List.find?_eq_none]
  constructor
  · intro h i hi t ht
    have := h (i.label, t) (mem_jumps.2 ⟨i, hi, t, ht, rfl⟩)
    simp at this
    omega
  · intro h jump hj
    obtain ⟨i, hi, t, ht, rfl⟩ := mem_jumps.1 hj
    have := h i hi t ht
    simp
    omega

theorem verdict_eq_ok_iff {t : Nat} : p.verdict = .ok t ↔ p.Passes ∧ t = p.terminalLabel := by
  unfold verdict
  cases hs : p.strayJump? with
  | some jump =>
    refine ⟨fun h => by simp at h, fun h => ?_⟩
    rw [strayJump?_eq_none_iff.2 h.1.targets] at hs
    cases hs
  | none =>
    have ht := strayJump?_eq_none_iff.1 hs
    by_cases hn : 2 ≤ p.stopLabels.length
    · simp only [if_pos hn]
      refine ⟨fun h => (by cases h), fun h => ?_⟩
      have := h.1.stops
      omega
    · simp only [if_neg hn, Except.ok.injEq]
      exact ⟨fun h => ⟨⟨ht, by omega⟩, h.symm⟩, fun h => h.2.symm⟩

/-- **A check succeeds exactly on the programs that pass.** -/
theorem validate_eq_ok_iff {v : Validated} :
    p.validate = .ok v ↔ p.Passes ∧ v = ⟨p.withStop, p.terminalLabel, p.validationEvents⟩ := by
  unfold validate
  cases h : p.verdict with
  | error e =>
    refine ⟨fun hv => (by cases hv), fun hv => ?_⟩
    rw [verdict_eq_ok_iff.2 ⟨hv.1, rfl⟩] at h
    cases h
  | ok t =>
    obtain ⟨hp, rfl⟩ := verdict_eq_ok_iff.1 h
    exact ⟨fun hv => ⟨hp, (Except.ok.inj hv).symm⟩, fun hv => congrArg Except.ok hv.2.symm⟩

/-! ## Stops -/

theorem Tidy.mem_stopLabels_iff (h : p.Tidy) {label : Nat} :
    label ∈ p.stopLabels ↔ p.get? label = some ⟨label, .stop⟩ := by
  rw [stopLabels, List.mem_map]
  constructor
  · rintro ⟨⟨label, op⟩, hi, rfl⟩
    obtain ⟨hi, hs⟩ := List.mem_filter.1 hi
    have hop : op = .stop := Instruction.isStop_iff.1 hs
    subst hop
    exact h.mem_instructions_iff.1 hi
  · intro hg
    exact ⟨⟨label, .stop⟩, List.mem_filter.2 ⟨h.mem_instructions_iff.2 hg, rfl⟩, rfl⟩

theorem Tidy.stopLabels_nodup (h : p.Tidy) : p.stopLabels.Nodup :=
  h.labels_nodup.sublist (List.filter_sublist.map _)

theorem terminalLabel_le (p : Program) : p.terminalLabel ≤ p.size + 1 := by
  unfold terminalLabel
  omega

theorem one_le_stopPlace (p : Program) : 1 ≤ p.stopPlace := by
  unfold stopPlace
  split
  · unfold terminalLabel
    omega
  · omega

theorem stopPlace_le (p : Program) : p.stopPlace ≤ p.slots.size + 1 := by
  have := p.terminalLabel_le
  have := p.size_le_slots
  unfold stopPlace
  split <;> omega

/-- The label for a stop is free. -/
@[simp] theorem get?_stopPlace (p : Program) : p.get? p.stopPlace = none := by
  unfold stopPlace
  split
  · rename_i h
    exact Option.isNone_iff_eq_none.1 h
  · exact get?_eq_none_of_size_lt (Nat.lt_succ_self _)

/-! ## Closing a program -/

theorem withStop_of_mem {label : Nat} (h : label ∈ p.stopLabels) : p.withStop = p := by
  unfold withStop
  rw [if_neg]
  rw [List.isEmpty_iff]
  exact List.ne_nil_of_mem h

theorem get?_withStop (h : p.stopLabels = []) (label : Nat) :
    p.withStop.get? label = if label = p.stopPlace then some ⟨label, .stop⟩ else p.get? label := by
  unfold withStop
  rw [if_pos (List.isEmpty_iff.2 h)]
  show (p.add ⟨p.stopPlace, .stop⟩).get? label = _
  rw [get?_add p p.one_le_stopPlace]
  split
  · rename_i e
    rw [e]
  · rfl

theorem implicitStop_withStop (h : p.stopLabels = []) :
    p.withStop.implicitStop = some p.stopPlace := by
  unfold withStop
  rw [if_pos (List.isEmpty_iff.2 h)]

theorem size_slots_withStop_le (p : Program) : p.withStop.slots.size ≤ p.slots.size + 1 := by
  unfold withStop
  split
  · show (p.add ⟨p.stopPlace, .stop⟩).slots.size ≤ _
    rw [size_slots_add p p.one_le_stopPlace]
    exact Nat.max_le.2 ⟨Nat.le_succ _, p.stopPlace_le⟩
  · exact Nat.le_succ _

theorem Tidy.withStop (h : p.Tidy) : p.withStop.Tidy := by
  unfold Program.withStop
  split
  · obtain ⟨hl, hu⟩ := h.add (i := ⟨p.stopPlace, .stop⟩) p.one_le_stopPlace
    exact ⟨hl, hu⟩
  · exact h

/-- What was stored before stays, and what is new is a stop. -/
theorem Tidy.mem_instructions_withStop (h : p.Tidy) (hi : i ∈ p.withStop.instructions) :
    i ∈ p.instructions ∨ i = ⟨p.stopPlace, .stop⟩ := by
  cases hs : p.stopLabels with
  | cons label others =>
    rw [withStop_of_mem (hs ▸ List.mem_cons_self)] at hi
    exact .inl hi
  | nil =>
    rw [h.withStop.mem_instructions_iff, get?_withStop hs] at hi
    split at hi
    · rename_i e
      exact .inr ((Option.some.inj hi).symm.trans (by rw [e]))
    · exact .inl (h.mem_instructions_iff.2 hi)

/-- **A closed program that passed its check has exactly one stop.** -/
theorem Tidy.stopLabels_withStop (h : p.Tidy) (hp : p.Passes) :
    ∃ label, p.withStop.stopLabels = [label] := by
  cases hs : p.stopLabels with
  | cons label others =>
    have hlen := hp.stops
    rw [hs, List.length_cons] at hlen
    obtain rfl : others = [] := List.length_eq_zero_iff.1 (by omega)
    exact ⟨label, by rw [withStop_of_mem (hs ▸ List.mem_cons_self), hs]⟩
  | nil =>
    refine ⟨p.stopPlace, List.perm_singleton.1 ?_⟩
    rw [List.perm_ext_iff_of_nodup h.withStop.stopLabels_nodup (List.nodup_singleton _)]
    intro label
    rw [h.withStop.mem_stopLabels_iff, get?_withStop hs, List.mem_singleton]
    split
    · rename_i e
      simp [e]
    · rename_i e
      have : label ∉ p.stopLabels := by simp [hs]
      rw [h.mem_stopLabels_iff] at this
      simp [e, this]

/-- A program that passes and has its stop is checked without a change. -/
theorem validate_of_stop (hp : p.Passes) {label : Nat} (hs : label ∈ p.stopLabels) :
    p.validate = .ok ⟨p, p.terminalLabel, p.validationEvents⟩ := by
  rw [validate_eq_ok_iff.2 ⟨hp, rfl⟩, withStop_of_mem hs]

end RegisterMachine.Program
