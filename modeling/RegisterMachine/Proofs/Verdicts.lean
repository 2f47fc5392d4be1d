import RegisterMachine.Proofs.SessionHistory

/-!
# Checks and what they go by

A check should go by what the caller added.  A stop that an earlier check left behind is not counted
when the terminal label is computed, but it is counted among the stops.

* `Ruling` — what a check says, without the details of a complaint; `Program.ruling` — the ruling on
  a program.
* `Follows.instructions_filter` — without its remembered stop a program holds what a fresh one
  holds, in the same order.  Hence `Follows.strayJump?_ofList` — both have the same first stray jump
  — and `Follows.length_stopLabels` — the remembered stop is one stop more.
* `Program.Clashes p fresh` — `p` remembers a stop and the caller added exactly one.

Principal result: `ruling_eq_fresh_iff` — after every history the ruling is that on a fresh program
with the same additions, unless two stops clash; then a program is rejected that would have passed.
`rejected_after_check` is such a history.
-/

set_option autoImplicit false

namespace RegisterMachine

/-- What a check says. -/
inductive Ruling where
  /-- The program is in order and has this terminal label. -/
  | terminal (label : Nat)
  | strayJump
  | multipleStops
  deriving DecidableEq, Repr

namespace Program

variable {p : Program} {is : List Instruction}

/-- The ruling of a check on `p`. -/
def ruling (p : Program) : Ruling :=
  match p.validate with
  | .ok v => .terminal v.terminal
  | .error (.branchTarget ..) => .strayJump
  | .error (.multipleStops _) => .multipleStops

/-- The ruling goes by the jumps first, then by the stops. -/
theorem ruling_eq (p : Program) : p.ruling =
    if p.strayJump?.isSome then .strayJump
    else if 2 ≤ p.stopLabels.length then .multipleStops
    else .terminal p.terminalLabel := by
  unfold ruling validate verdict
  cases p.strayJump? with
  | some jump => rfl
  | none =>
    by_cases hs : 2 ≤ p.stopLabels.length
    · simp only [if_pos hs]
      rfl
    · simp only [if_neg hs]
      rfl

/-! ## A program and a fresh one with the same additions -/

/-- What contributes nothing to a concatenation may be left out before. -/
theorem flatMap_filter_of_nil {α β : Type} {q : α → Bool} {f : α → List β} {xs : List α}
    (h : ∀ x ∈ xs, q x = false → f x = []) : (xs.filter q).flatMap f = xs.flatMap f := by
  induction xs with
  | nil => rfl
  | cons x xs ih =>
    have ih := ih fun y hy => h y (List.mem_cons_of_mem x hy)
    cases hx : q x with
    | true => simp [hx, ih]
    | false => simp [hx, ih, h x List.mem_cons_self hx]

/-- Is `i` something other than the remembered stop? -/
def isAdded (p : Program) (i : Instruction) : Bool := p.implicitStop != some i.label

theorem Follows.op_of_not_isAdded (h : p.Follows is) {i : Instruction} (hi : i ∈ p.instructions)
    (hs : p.isAdded i = false) : i.op = .stop := by
  have hl : p.implicitStop = some i.label := by simpa [isAdded] using hs
  have hg := h.tidy.mem_instructions_iff.1 hi
  rw [h.get?_implicitStop hl] at hg
  rw [← Option.some.inj hg]

/-- **Without its remembered stop, a program holds what a fresh one holds,** in the same order. -/
theorem Follows.instructions_filter (h : p.Follows is) (his : ∀ i ∈ is, i.WellFormed) :
    p.instructions.filter p.isAdded = (ofList is).instructions := by
  have hfresh : (ofList is).Tidy := (Built.ofList his).tidy
  have hp : (p.instructions.filter p.isAdded).Pairwise (fun i j => i.label < j.label) :=
    h.tidy.instructions_pairwise.filter _
  have hf := hfresh.instructions_pairwise
  refine List.Perm.eq_of_pairwise (fun i j _ _ hij hji => absurd hij (Nat.lt_asymm hji)) hp hf ?_
  refine (List.perm_ext_iff_of_nodup ?_ ?_).2 fun i => ?_
  · exact hp.imp fun hlt e => Nat.ne_of_lt hlt (congrArg _ e)
  · exact hf.imp fun hlt e => Nat.ne_of_lt hlt (congrArg _ e)
  · rw [List.mem_filter, h.tidy.mem_instructions_iff, hfresh.mem_instructions_iff,
      get?_ofList fun j hj => (his j hj).label_pos, h.get, implicitAt]
    cases hl : latest is i.label with
    | none =>
      by_cases hs : p.implicitStop = some i.label
      · simp [isAdded, hs]
      · simp [hs]
    | some j =>
      have hs : p.implicitStop ≠ some i.label := fun e => by rw [h.free e] at hl; cases hl
      simp [isAdded, hs]

/-- A remembered stop makes no jumps. -/
theorem Follows.jumps_ofList (h : p.Follows is) (his : ∀ i ∈ is, i.WellFormed) :
    (ofList is).jumps = p.jumps := by
  unfold jumps
  rw [← h.instructions_filter his]
  refine flatMap_filter_of_nil fun i hi hs => ?_
  rw [h.op_of_not_isAdded hi hs]
  rfl

theorem Follows.terminalLabel_ofList (h : p.Follows is) (his : ∀ i ∈ is, i.WellFormed) :
    (ofList is).terminalLabel = p.terminalLabel := by
  rw [(Built.ofList his).follows.terminalLabel_eq, h.terminalLabel_eq]

/-- **Both have the same first stray jump.** -/
theorem Follows.strayJump?_ofList (h : p.Follows is) (his : ∀ i ∈ is, i.WellFormed) :
    (ofList is).strayJump? = p.strayJump? := by
  unfold strayJump?
  rw [h.jumps_ofList his, h.terminalLabel_ofList his]

theorem length_stopLabels_eq_countP (p : Program) :
    p.stopLabels.length = p.instructions.countP Instruction.isStop := by
  rw [stopLabels, List.length_map, List.countP_eq_length_filter]

/-- **The remembered stop is one stop more.** -/
theorem Follows.length_stopLabels (h : p.Follows is) (his : ∀ i ∈ is, i.WellFormed) :
    p.stopLabels.length =
      (ofList is).stopLabels.length + if p.implicitStop.isSome then 1 else 0 := by
  -- everything that is not added is a stop, and there is as much of it as the sizes differ by
  have hall : (p.instructions.filter (!p.isAdded ·)).countP Instruction.isStop =
      (p.instructions.filter (!p.isAdded ·)).length := by
    rw [List.countP_eq_length]
    intro i hi
    obtain ⟨hi, hs⟩ := List.mem_filter.1 hi
    exact Instruction.isStop_iff.2 (h.op_of_not_isAdded hi (by simpa using hs))
  have hsize := h.size_eq
  have hfresh := (Built.ofList his).follows.size_eq
  rw [implicitStop_ofList, Option.isSome_none, if_neg Bool.false_ne_true, size] at hfresh
  rw [size, List.length_eq_length_filter_add p.isAdded, h.instructions_filter his] at hsize
  rw [length_stopLabels_eq_countP, length_stopLabels_eq_countP,
    List.countP_eq_countP_filter_add _ _ p.isAdded, h.instructions_filter his, hall]
  omega

/-! ## Rulings -/

/-- Two stops clash: `p` remembers one, and `fresh`, which is otherwise in order, has one of its
own. -/
def Clashes (p fresh : Program) : Prop :=
  p.implicitStop.isSome ∧ fresh.strayJump? = none ∧ fresh.stopLabels.length = 1

instance (p fresh : Program) : Decidable (p.Clashes fresh) :=
  inferInstanceAs (Decidable (_ ∧ _ ∧ _))

/-- **Without a clash, the ruling is that on a fresh program.** -/
theorem Built.ruling_eq_ofList (h : p.Built is) (hc : ¬ p.Clashes (Program.ofList is)) :
    p.ruling = (Program.ofList is).ruling := by
  have hstray := h.follows.strayJump?_ofList h.wellFormed
  rw [p.ruling_eq, (Program.ofList is).ruling_eq, hstray,
    h.follows.terminalLabel_ofList h.wellFormed, h.follows.length_stopLabels h.wellFormed]
  cases hs : p.strayJump? with
  | some jump => rfl
  | none =>
    -- one stop more matters only if there was exactly one
    have hcount : 2 ≤
      (Program.ofList is).stopLabels.length + (if p.implicitStop.isSome then 1 else 0) ↔
        2 ≤ (Program.ofList is).stopLabels.length := by
      by_cases hi : p.implicitStop.isSome
      · have hne : (Program.ofList is).stopLabels.length ≠ 1 := fun e => hc ⟨hi, hstray.trans hs, e⟩
        rw [if_pos hi]
        omega
      · rw [if_neg hi, Nat.add_zero]
    simp only [hcount]

theorem Built.ruling_of_clashes (h : p.Built is) (hc : p.Clashes (Program.ofList is)) :
    p.ruling = .multipleStops ∧ (Program.ofList is).ruling = .terminal p.terminalLabel := by
  obtain ⟨hi, hstray, hone⟩ := hc
  constructor
  · rw [p.ruling_eq, ← h.follows.strayJump?_ofList h.wellFormed, hstray,
      h.follows.length_stopLabels h.wellFormed, hone, if_pos hi]
    rfl
  · rw [(Program.ofList is).ruling_eq, hstray, hone, h.follows.terminalLabel_ofList h.wellFormed]
    rfl

end Program

namespace Session

/-- **Checks go by what the caller added, unless two stops clash.**  After every history, a check
rules on the program as on a fresh one with the same additions, terminal label included, exactly if
the program does not remember a stop while the caller's instructions have exactly one and no stray
jump.  In that case the program is rejected for its stops although a fresh one passes. -/
theorem ruling_eq_fresh_iff {s : Session} {L : Ledger} (h : Reached s L) :
    let p := s.program
    let fresh := Program.ofList L.added
    (p.ruling = fresh.ruling ↔ ¬ p.Clashes fresh) ∧
    (p.Clashes fresh → p.ruling = .multipleStops ∧ fresh.ruling = .terminal p.terminalLabel) ∧
    (p.ruling = .multipleStops → 2 ≤ fresh.stopLabels.length ∨ p.Clashes fresh) := by
  intro p fresh
  have hp : p.Built L.added := h.kept.program
  refine ⟨⟨fun heq hc => ?_, hp.ruling_eq_ofList⟩, hp.ruling_of_clashes, fun hm => ?_⟩
  · obtain ⟨hmultiple, hterminal⟩ := hp.ruling_of_clashes hc
    rw [hmultiple, hterminal] at heq
    cases heq
  · by_cases hc : p.Clashes fresh
    · exact .inr hc
    · rw [hp.ruling_eq_ofList hc, Program.ruling_eq] at hm
      split at hm
      · cases hm
      · split at hm
        · exact .inl ‹_›
        · cases hm

/-- A remembered stop in slot 2 does no harm as long as the caller adds no stop. -/
theorem ruling_eq_fresh_after_check :
    ∃ s : Session, s.program.implicitStop = some 2 ∧ s.program.ruling = .terminal 3 ∧
      s.program.ruling = (Program.ofList [⟨1, .set 1 1⟩, ⟨3, .increment 1⟩]).ruling := by
  have h₁ := @Reached.act _ _ 0 (.add (.set 1 1 1)) _ .new rfl
  have h₂ := @Reached.act _ _ 0 .validate _ h₁ rfl
  have h₃ := @Reached.act _ _ 0 (.add (.increment 3 1)) _ h₂ rfl
  exact ⟨_, rfl, rfl, (ruling_eq_fresh_iff h₃).1.2 (by decide)⟩

/-- With a stop under label 3 instead, the caller's only stop is one too many. -/
theorem rejected_after_check :
    ∃ (s : Session) (L : Ledger), Reached s L ∧ L.added = [⟨1, .set 1 1⟩, ⟨3, .stop⟩] ∧
      s.program.ruling = .multipleStops ∧ (Program.ofList L.added).ruling = .terminal 3 ∧
      (Program.ofList L.added).stopLabels = [3] ∧ s.program.stopLabels = [2, 3] := by
  have h₁ := @Reached.act _ _ 0 (.add (.set 1 1 1)) _ .new rfl
  have h₂ := @Reached.act _ _ 0 .validate _ h₁ rfl
  have h₃ := @Reached.act _ _ 0 (.add (.stop 3)) _ h₂ rfl
  exact ⟨_, _, h₃, rfl, rfl, rfl, rfl, rfl⟩

end Session

end RegisterMachine
