import Mathlib.Data.List.Sort
import RegisterMachine.Proofs.SessionHistory

/-!
# What a check says, and what it leaves

A check has three outcomes, and each is described here by what is stored, without the way in which
it is searched.

* `Op.StraysTo top op target` — `target` is the first target of a branch above `top`, the one for
  zero before the other.
* `Program.Strays p top` — some stored branch goes above `top`;
  `Program.FirstStray p top label target` — the one with the smallest label does so from `label` to
  `target`.  `Built.strayJump?_eq_some_iff` — that is the jump which is found.
* `Program.StopsAt p labels` — `labels` lists the stored stops in increasing order;
  `Tidy.stopsAt_stopLabels` — there is such a list, and `StopsAt.unique` — only one.
* `Built.validate_eq_branchTarget_iff`, `Built.validate_eq_multipleStops_iff`,
  `Built.exists_validate_iff` — the outcomes.
* `Session.perform_of_failed_check` — an action whose check fails leaves the session as it was.

Principal result: `check_outcomes` — all of this after every history of a session.
-/

set_option autoImplicit false

namespace RegisterMachine

variable {p : Program} {is : List Instruction} {top label target : Nat}

/-! ## The first stray jump -/

namespace Op

variable {op : Op}

/-- `StraysTo top op target`: of the targets of a branch, `target` is the first above `top`. -/
inductive StraysTo (top : Nat) : Op → Nat → Prop
  | ifZero {register ifZero otherwise : Nat} (h : top < ifZero) :
      StraysTo top (.branch register ifZero otherwise) ifZero
  | otherwise {register ifZero otherwise : Nat} (h : ifZero ≤ top) (h' : top < otherwise) :
      StraysTo top (.branch register ifZero otherwise) otherwise

/-- The first target that a check objects to. -/
def strayTarget? (top : Nat) (op : Op) : Option Nat := op.targets.find? fun t => t == 0 || top < t

theorem strayTarget?_eq_none_iff (h : ∀ t ∈ op.targets, 1 ≤ t) :
    op.strayTarget? top = none ↔ ∀ t ∈ op.targets, t ≤ top := by
  rw [strayTarget?, List.find?_eq_none]
  refine forall₂_congr fun t ht => ?_
  have := h t ht
  simp
  omega

theorem strayTarget?_eq_some_iff (h : ∀ t ∈ op.targets, 1 ≤ t) :
    op.strayTarget? top = some target ↔ op.StraysTo top target := by
  cases op with
  | branch register ifZero otherwise =>
    simp only [targets, List.forall_mem_cons] at h
    obtain ⟨hz, ho, _⟩ := h
    have hz0 : (ifZero == 0) = false := by simp; omega
    have ho0 : (otherwise == 0) = false := by simp; omega
    simp only [strayTarget?, targets, List.find?_cons, List.find?_nil, hz0, ho0, Bool.false_or]
    constructor
    · intro hfind
      split at hfind
      · rename_i hlt
        cases hfind
        exact .ifZero (by simpa using hlt)
      · rename_i hle
        split at hfind
        · rename_i hlt
          cases hfind
          exact .otherwise (by simpa using hle) (by simpa using hlt)
        · cases hfind
    · rintro (hlt | ⟨hle, hlt⟩)
      · simp [hlt]
      · have hnot : ¬ top < ifZero := by omega
        simp [hnot, hlt]
  | _ =>
    refine ⟨fun hfind => ?_, fun hstray => ?_⟩
    · cases hfind
    · cases hstray

end Op

namespace Program

/-- Some stored branch has a target above `top`. -/
def Strays (p : Program) (top : Nat) : Prop := ∃ i ∈ p.instructions, ∃ t ∈ i.op.targets, top < t

/-- The branch under `label` strays to `target`, and no branch under a smaller label strays. -/
structure FirstStray (p : Program) (top label target : Nat) : Prop where
  found : ∃ i ∈ p.get? label, i.op.StraysTo top target
  earlier : ∀ l < label, ∀ i ∈ p.get? l, ∀ t ∈ i.op.targets, t ≤ top

theorem strayJump?_eq (p : Program) : p.strayJump? =
    p.instructions.findSome? fun i =>
      (i.op.strayTarget? p.terminalLabel).map fun t => (i.label, t) := by
  unfold strayJump? jumps
  rw [List.find?_flatMap]
  congr 1
  funext i
  rw [List.find?_map]
  rfl

theorem Built.strayJump?_eq_none_iff (hp : p.Built is) :
    p.strayJump? = none ↔ ¬ p.Strays p.terminalLabel := by
  rw [Program.strayJump?_eq_none_iff, Strays]
  push Not
  refine forall₂_congr fun i hi => forall₂_congr fun t ht => ?_
  exact and_iff_right ((hp.mem_wellFormed hi).targets_pos t ht)

/-- In a list with increasing labels, what stands before an element has smaller labels, and nothing
else has. -/
theorem mem_before_iff {before after : List Instruction} {i j : Instruction}
    (h : (before ++ i :: after).Pairwise fun i j => i.label < j.label) :
    j ∈ before ↔ j ∈ before ++ i :: after ∧ j.label < i.label := by
  obtain ⟨_, hafter, hcross⟩ := List.pairwise_append.1 h
  have hlast := (List.pairwise_cons.1 hafter).1
  constructor
  · intro hj
    exact ⟨List.mem_append_left _ hj, hcross j hj i List.mem_cons_self⟩
  · rintro ⟨hj, hlt⟩
    rcases List.mem_append.1 hj with hj | hj
    · exact hj
    · rcases List.mem_cons.1 hj with rfl | hj
      · exact absurd hlt (Nat.lt_irrefl _)
      · have := hlast j hj
        omega

/-- **The jump that is found is the first one that strays.** -/
theorem Built.strayJump?_eq_some_iff (hp : p.Built is) :
    p.strayJump? = some (label, target) ↔ p.FirstStray p.terminalLabel label target := by
  have hpos {i : Instruction} (hi : i ∈ p.instructions) := (hp.mem_wellFormed hi).targets_pos
  have hsorted := hp.tidy.instructions_pairwise
  rw [strayJump?_eq, List.findSome?_eq_some_iff]
  constructor
  · rintro ⟨before, i, after, hsplit, hfound, hbefore⟩
    obtain ⟨t, ht, he⟩ := Option.map_eq_some_iff.1 hfound
    cases he
    have hi : i ∈ p.instructions := by simp [hsplit]
    refine ⟨⟨i, hp.tidy.mem_instructions_iff.1 hi, (Op.strayTarget?_eq_some_iff (hpos hi)).1 ht⟩,
      ?_⟩
    intro l hl j hj
    have hlabel := hp.tidy.label_get? hj
    have hjs : j ∈ p.instructions := hp.tidy.mem_instructions_iff.2 (hlabel ▸ hj)
    have hjb : j ∈ before := by
      rw [hsplit] at hsorted hjs
      exact (mem_before_iff hsorted).2 ⟨hjs, by omega⟩
    exact (Op.strayTarget?_eq_none_iff (hpos hjs)).1 (Option.map_eq_none_iff.1 (hbefore j hjb))
  · rintro ⟨⟨i, hi, hstray⟩, hearlier⟩
    have hlabel := hp.tidy.label_get? hi
    have his : i ∈ p.instructions := hp.tidy.mem_instructions_iff.2 (hlabel ▸ hi)
    obtain ⟨before, after, hsplit⟩ := List.append_of_mem his
    refine ⟨before, i, after, hsplit, ?_, fun j hj => ?_⟩
    · rw [(Op.strayTarget?_eq_some_iff (hpos his)).2 hstray, ← hlabel]
      rfl
    · rw [hsplit] at hsorted
      obtain ⟨hjs, hlt⟩ := (mem_before_iff hsorted).1 hj
      rw [← hsplit] at hjs
      have hle := hearlier j.label (by omega) j (hp.tidy.mem_instructions_iff.1 hjs)
      rw [(Op.strayTarget?_eq_none_iff (hpos hjs)).2 hle]
      rfl

/-! ## The stops -/

/-- `labels` are the labels of all stops, in increasing order. -/
structure StopsAt (p : Program) (labels : List Nat) : Prop where
  increasing : labels.Pairwise (· < ·)
  mem_iff : ∀ label, label ∈ labels ↔ p.get? label = some ⟨label, .stop⟩

theorem StopsAt.unique {as bs : List Nat} (ha : p.StopsAt as) (hb : p.StopsAt bs) : as = bs := by
  refine ha.increasing.eq_of_mem_iff hb.increasing fun label => ?_
  rw [ha.mem_iff, hb.mem_iff]

theorem Tidy.stopsAt_stopLabels (h : p.Tidy) : p.StopsAt p.stopLabels :=
  ⟨h.labels_pairwise.sublist (List.filter_sublist.map _), fun _ => h.mem_stopLabels_iff⟩

/-! ## The three outcomes -/

theorem validate_eq_error_iff {e : ValidationError} :
    p.validate = .error e ↔ p.verdict = .error e := by
  unfold validate
  cases p.verdict with
  | error cause => simp [bind, Except.bind]
  | ok terminal => simp [bind, Except.bind, pure, Except.pure]

/-- **A stray jump is reported exactly if it is the first.** -/
theorem Built.validate_eq_branchTarget_iff (hp : p.Built is) {max : Nat} :
    p.validate = .error (.branchTarget label target max) ↔
      p.FirstStray p.terminalLabel label target ∧ max = p.terminalLabel := by
  rw [validate_eq_error_iff, verdict, ← hp.strayJump?_eq_some_iff]
  cases p.strayJump? with
  | some jump => simp [Prod.ext_iff, and_assoc, eq_comm]
  | none =>
    dsimp only
    split <;> simp

/-- **Stops are reported exactly if there are two and no jump strays.** -/
theorem Built.validate_eq_multipleStops_iff (hp : p.Built is) {labels : List Nat} :
    p.validate = .error (.multipleStops labels) ↔
      ¬ p.Strays p.terminalLabel ∧ p.StopsAt labels ∧ 2 ≤ labels.length := by
  have hstops := hp.tidy.stopsAt_stopLabels
  have hlabels : p.StopsAt labels ↔ p.stopLabels = labels :=
    ⟨fun h => hstops.unique h, fun h => h ▸ hstops⟩
  rw [validate_eq_error_iff, verdict, ← hp.strayJump?_eq_none_iff, hlabels]
  cases p.strayJump? with
  | some jump => simp
  | none =>
    dsimp only
    split
    · rename_i htwo
      simp only [Except.error.injEq, ValidationError.multipleStops.injEq, true_and]
      exact ⟨fun h => ⟨h, h ▸ htwo⟩, And.left⟩
    · rename_i hfew
      simp only [reduceCtorEq, true_and, false_iff, not_and]
      rintro rfl
      exact hfew

/-- **A check passes exactly if no jump strays and there is one stop at most.** -/
theorem Built.exists_validate_iff (hp : p.Built is) {labels : List Nat} (hs : p.StopsAt labels) :
    (∃ v, p.validate = .ok v) ↔ ¬ p.Strays p.terminalLabel ∧ labels.length ≤ 1 := by
  obtain rfl := hp.tidy.stopsAt_stopLabels.unique hs
  rw [← hp.strayJump?_eq_none_iff, Program.strayJump?_eq_none_iff]
  constructor
  · rintro ⟨v, hv⟩
    obtain ⟨hpass, _⟩ := validate_eq_ok_iff.1 hv
    exact ⟨hpass.targets, hpass.stops⟩
  · rintro ⟨htargets, hstops⟩
    exact ⟨_, validate_eq_ok_iff.2 ⟨⟨htargets, hstops⟩, rfl⟩⟩

/-- What was stored before is stored after closing. -/
theorem get?_withStop_of_some {i : Instruction} (h : p.get? label = some i) :
    p.withStop.get? label = some i := by
  cases hs : p.stopLabels with
  | cons stop others => rw [withStop_of_mem (hs ▸ List.mem_cons_self), h]
  | nil =>
    have hne : label ≠ p.stopPlace := by
      rintro rfl
      rw [get?_stopPlace] at h
      cases h
    rw [get?_withStop hs, if_neg hne, h]

/-- What is stored after closing and was not before is the stop in its place. -/
theorem of_get?_withStop {i : Instruction} (h : p.get? label = none)
    (hw : p.withStop.get? label = some i) :
    p.stopLabels = [] ∧ label = p.stopPlace ∧ i = ⟨label, .stop⟩ := by
  cases hs : p.stopLabels with
  | cons stop others =>
    rw [withStop_of_mem (hs ▸ List.mem_cons_self), h] at hw
    cases hw
  | nil =>
    rw [get?_withStop hs] at hw
    split at hw
    · exact ⟨rfl, ‹_›, (Option.some.inj hw).symm⟩
    · rw [h] at hw
      cases hw

end Program

/-! ## Sessions -/

namespace Session

variable {s : Session} {L : Ledger}

/-- **An action whose check fails leaves the session as it was,** and says why. -/
theorem perform_of_failed_check {e : ValidationError} (he : s.program.validate = .error e)
    (budget : Nat) :
    s.perform budget .validate = some ⟨s, .refused (.validation e), []⟩ ∧
    s.perform budget .encode = some ⟨s, .refused (.validation e), []⟩ ∧
    ∀ inputs, s.perform budget (.run inputs) = some ⟨s, .refused (.validation e), []⟩ ∧
      ∀ capacity,
        s.perform budget (.emit inputs capacity) = some ⟨s, .failed (.validation e), []⟩ := by
  have hrun (inputs : List Nat) : s.machine.run budget s.program inputs = .error e := by
    rw [Machine.run, he]
    rfl
  have hencode : Goedel.encodeProgram s.program = .error e := by
    rw [Goedel.encodeProgram, he]
    rfl
  refine ⟨?_, ?_, fun inputs => ⟨?_, fun capacity => ?_⟩⟩
  · simp only [perform, Session.validate, he]
    rfl
  · simp only [perform, Session.encode, hencode]
    rfl
  · simp only [perform, running, hrun]
    rfl
  · simp only [perform, running, hrun]
    rfl

/-- **The outcomes of a check, after every history.**  Let `top` be one more than the number of
labels under which the caller added instructions, and `stops` the labels of all stored stops in
increasing order.

A check complains of a jump exactly if some stored branch goes above `top`, and then of the first:
under the smallest label, and the target for zero before the other one.  Otherwise it complains of
the stops, and lists them, exactly if there are two or more.  Otherwise it passes with the terminal
label `top`.  Then there is exactly one stop, and whatever was stored is still there.  At most one
label was filled, with a stop, and only if there was none: `top` if it was free, else the label
behind the last slot.

A check that fails changes neither the program nor the machine, whichever action it was made for. -/
theorem check_outcomes (h : Reached s L) :
    let p := s.program
    let top := (Program.labelSet L.added).card + 1
    (∀ label target max, p.validate = .error (.branchTarget label target max) ↔
      p.FirstStray top label target ∧ max = top) ∧
    ((∃ label target, p.validate = .error (.branchTarget label target top)) ↔ p.Strays top) ∧
    (∃ stops, p.StopsAt stops ∧
      (∀ labels, p.validate = .error (.multipleStops labels) ↔
        ¬ p.Strays top ∧ 2 ≤ stops.length ∧ labels = stops) ∧
      ((∃ v, p.validate = .ok v) ↔ ¬ p.Strays top ∧ stops.length ≤ 1) ∧
      ∀ v, p.validate = .ok v →
        (∀ budget,
          s.perform budget .validate = some ⟨s.withProgram v.program, .terminal top, v.events⟩) ∧
        v.terminal = top ∧
        (∃ label, v.program.StopsAt [label]) ∧
        (∀ label i, p.get? label = some i → v.program.get? label = some i) ∧
        ∀ label i, p.get? label = none → v.program.get? label = some i →
          stops = [] ∧ i = ⟨label, .stop⟩ ∧
            label = if p.get? top = none then top else p.slots.size + 1) ∧
    ∀ e, p.validate = .error e → ∀ budget,
      s.perform budget .validate = some ⟨s, .refused (.validation e), []⟩ ∧
      s.perform budget .encode = some ⟨s, .refused (.validation e), []⟩ ∧
      ∀ inputs, s.perform budget (.run inputs) = some ⟨s, .refused (.validation e), []⟩ ∧
        ∀ capacity,
          s.perform budget (.emit inputs capacity) = some ⟨s, .failed (.validation e), []⟩ := by
  intro p top
  have hp : p.Built L.added := h.kept.program
  have htop : p.terminalLabel = top := hp.follows.terminalLabel_eq
  have hstops := hp.tidy.stopsAt_stopLabels
  refine ⟨?_, ?_, ⟨p.stopLabels, hstops, ?_, ?_, ?_⟩, fun e => perform_of_failed_check⟩
  · intro label target max
    rw [← htop]
    exact hp.validate_eq_branchTarget_iff
  · simp only [← htop, hp.validate_eq_branchTarget_iff, and_true, ← hp.strayJump?_eq_some_iff]
    rw [← not_iff_not, ← hp.strayJump?_eq_none_iff]
    simp [Option.eq_none_iff_forall_ne_some]
  · intro labels
    rw [← htop, hp.validate_eq_multipleStops_iff]
    refine and_congr_right fun _ => ⟨fun ⟨hs, htwo⟩ => ?_, fun ⟨htwo, hs⟩ => ?_⟩
    · obtain rfl := hs.unique hstops
      exact ⟨htwo, rfl⟩
    · subst hs
      exact ⟨hstops, htwo⟩
  · rw [← htop]
    exact hp.exists_validate_iff hstops
  · intro v hv
    obtain ⟨hpass, rfl⟩ := Program.validate_eq_ok_iff.1 hv
    refine ⟨fun budget => ?_, htop, ?_, fun label i => Program.get?_withStop_of_some, ?_⟩
    · simp only [perform, Session.validate]
      rw [hv, htop]
    · obtain ⟨label, hlabel⟩ := hp.tidy.stopLabels_withStop hpass
      exact ⟨label, hlabel ▸ hp.tidy.withStop.stopsAt_stopLabels⟩
    · intro label i hfree hfilled
      obtain ⟨hnone, hplace, hi⟩ := Program.of_get?_withStop hfree hfilled
      refine ⟨hnone, hi, ?_⟩
      rw [hplace, Program.stopPlace, htop]
      simp only [Option.isNone_iff_eq_none]

/-- After a run that left a stop under label 2, a branch is added that strays twice.  The check
names its target for zero, and the machine keeps the registers and the steps of the run. -/
theorem check_outcomes_after_run :
    ∃ s : Session, s.program.implicitStop = some 2 ∧ s.machine.registers = ⟨#[1, 5]⟩ ∧
      s.machine.steps = 2 ∧
      s.program.validate = .error (.branchTarget 3 9 3) ∧
      s.perform 0 (.run [7]) = some ⟨s, .refused (.validation (.branchTarget 3 9 3)), []⟩ := by
  have h₁ := @Reached.act _ _ 0 (.add (.set 1 1 1)) _ .new rfl
  have h₂ := @Reached.act _ _ 2 (.run [5]) _ h₁ rfl
  have h₃ := @Reached.act _ _ 0 (.add (.branch 3 1 9 4)) _ h₂ rfl
  obtain ⟨hstray, _, _, hfailed⟩ := check_outcomes h₃
  have he := (hstray 3 9 3).2 ⟨⟨⟨_, rfl, .ifZero (by decide)⟩, by decide⟩, rfl⟩
  exact ⟨_, rfl, rfl, rfl, he, ((hfailed _ he 0).2.2 [7]).1⟩

end Session

end RegisterMachine
