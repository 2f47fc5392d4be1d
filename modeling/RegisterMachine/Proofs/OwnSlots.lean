import RegisterMachine.Proofs.DecodedRuns

/-!
# Runs of the caller's own slots

A program without a stop gets one before it is run, under the terminal label if that label is free,
else behind the last slot.  What does the caller see of it?  Under the terminal label there may be a
gap with instructions behind it.  Left alone, a run would step over that gap; the stop ends it
there.

* `Config.AtTerminalGap` — control stands at the gap under the terminal label.
* `Config.Settles slots terminal c d` — the run of the slots as they are ends in `d`, if arriving at
  that gap is an end as well; `Settles.ends_iff`, `Ends.settles` — how this hangs together with
  `Ends`.  `settles_agree_iff` — when the two make no difference.
* `Filled` — two slot arrays that differ by one stop; `Filled.leaves_iff` — the run of the filled
  slots against that of the slots as they are; `withStop_filled` — a check fills the slots in this
  way.

Principal result: `own_slots_run_iff` — a run yields what the caller's own slots yield, if arriving
at the gap under the terminal label is an end, and when that proviso can be left out.
`stop_fills_gap` is a program for which it cannot.
-/

set_option autoImplicit false

namespace RegisterMachine

variable {slots filled : Array (Option Instruction)} {terminal place : Nat} {c d e : Config}

namespace Config

/-- Control stands at an empty slot that has the terminal label. -/
def AtTerminalGap (slots : Array (Option Instruction)) (terminal : Nat) (c : Config) : Prop :=
  slots[c.pc]? = some none ∧ c.pc + 1 = terminal

/-- From `c` the run ends in `d`, or gets as far as `d` and stands at the gap under the terminal
label. -/
inductive Settles (slots : Array (Option Instruction)) (terminal : Nat) : Config → Config → Prop
  | arrived {c : Config} (h : c.AtTerminalGap slots terminal) : Settles slots terminal c c
  | done {c d : Config} (h : c.turn slots terminal = .done d) : Settles slots terminal c d
  | next {c c' d : Config} (hgap : ¬ c.AtTerminalGap slots terminal)
      (h : c.turn slots terminal = .next c') (rest : Settles slots terminal c' d) :
      Settles slots terminal c d

/-- No run ends at a gap. -/
theorem not_atTerminalGap_of_done (h : c.turn slots terminal = .done d) :
    ¬ d.AtTerminalGap slots terminal := by
  rintro ⟨hgap, _⟩
  rcases turn_eq_done_iff.1 h with ⟨hs, rfl⟩ | ⟨i, hs, _, rfl⟩
  · rw [hs] at hgap
    cases hgap
  · have hgap : slots[c.pc]? = some none := hgap
    rw [hs] at hgap
    cases hgap

/-- Behind a gap the run goes on; otherwise it is over. -/
theorem Settles.ends_iff (h : Settles slots terminal c d) (e : Config) :
    (d.AtTerminalGap slots terminal → (Ends slots terminal c e ↔ Ends slots terminal d e)) ∧
    (¬ d.AtTerminalGap slots terminal → (Ends slots terminal c e ↔ d = e)) := by
  induction h with
  | arrived hgap => exact ⟨fun _ => Iff.rfl, fun hno => absurd hgap hno⟩
  | done ht =>
    exact ⟨fun hgap => absurd hgap (not_atTerminalGap_of_done ht), fun _ => ends_iff_of_done ht⟩
  | next _ ht _ ih =>
    rw [ends_iff_of_next ht]
    exact ih

theorem Ends.settles (h : Ends slots terminal c e) : ∃ d, Settles slots terminal c d := by
  induction h with
  | done ht => exact ⟨_, .done ht⟩
  | @next c c' _ ht _ ih =>
    by_cases hgap : c.AtTerminalGap slots terminal
    · exact ⟨c, .arrived hgap⟩
    · obtain ⟨d, hd⟩ := ih
      exact ⟨d, .next hgap ht hd⟩

/-- **When arriving at the gap need not be an end.** -/
theorem settles_agree_iff :
    (∀ x, (∃ d, Settles slots terminal c d ∧ d.registers.output = x) ↔ Leaves slots terminal c x) ↔
      ∀ d, Settles slots terminal c d → d.AtTerminalGap slots terminal →
        Leaves slots terminal d d.registers.output :=
  outputs_agree_iff (fun _ hd hgap e => (hd.ends_iff e).1 hgap)
    (fun _ hd hgap e => (hd.ends_iff e).2 hgap)
    (fun _ he => he.settles) (fun _ _ he he' => he.unique he')

theorem turn_congr (h : filled[c.pc]? = slots[c.pc]?) :
    c.turn filled terminal = c.turn slots terminal := by
  unfold turn
  rw [h]

end Config

/-! ## One slot filled with a stop -/

/-- `filled` is `slots` with a stop under the label `place`, which was free.  If it was a gap, then
the one under the terminal label, and that gap is not left open. -/
structure Filled (slots filled : Array (Option Instruction)) (terminal place : Nat) : Prop where
  elsewhere : ∀ {k : Nat}, k + 1 ≠ place → filled[k]? = slots[k]?
  there : ∀ {k : Nat}, k + 1 = place → filled[k]? = some (some ⟨place, .stop⟩)
  free : ∀ {k : Nat}, k + 1 = place → slots[k]? = none ∨ slots[k]? = some none ∧ k + 1 = terminal
  gap : ∀ {k : Nat}, slots[k]? = some none → k + 1 = terminal → k + 1 = place

namespace Filled

open Config

/-- At the stop, the run of the slots as they are settles without another turn. -/
theorem settles_there (h : Filled slots filled terminal place) (hc : c.pc + 1 = place) :
    Settles slots terminal c c := by
  rcases h.free hc with hnone | hgap
  · exact .done (turn_eq_done_iff.2 (.inl ⟨hnone, rfl⟩))
  · exact .arrived hgap

theorem turn_there (h : Filled slots filled terminal place) (hc : c.pc + 1 = place) :
    c.turn filled terminal = .done ⟨c.pc, c.registers, c.steps + 1⟩ :=
  turn_eq_done_iff.2 (.inr ⟨_, h.there hc, .inl rfl, rfl⟩)

theorem settles (h : Filled slots filled terminal place) (hd : Ends filled terminal c d) :
    ∃ d', Settles slots terminal c d' ∧ d'.registers = d.registers := by
  induction hd with
  | @done c d ht =>
    by_cases hc : c.pc + 1 = place
    · rw [h.turn_there hc] at ht
      cases ht
      exact ⟨c, h.settles_there hc, rfl⟩
    · rw [turn_congr (h.elsewhere hc)] at ht
      exact ⟨d, .done ht, rfl⟩
  | @next c c' _ ht _ ih =>
    by_cases hc : c.pc + 1 = place
    · rw [h.turn_there hc] at ht
      cases ht
    · rw [turn_congr (h.elsewhere hc)] at ht
      obtain ⟨d', hd', hregs⟩ := ih
      exact ⟨d', .next (fun hgap => hc (h.gap hgap.1 hgap.2)) ht hd', hregs⟩

theorem ends (h : Filled slots filled terminal place) (hd : Settles slots terminal c d) :
    ∃ d', Ends filled terminal c d' ∧ d'.registers = d.registers := by
  induction hd with
  | @arrived c hgap => exact ⟨_, .done (h.turn_there (h.gap hgap.1 hgap.2)), rfl⟩
  | @done c d ht =>
    by_cases hc : c.pc + 1 = place
    · -- the slots as they are end here because there is no slot, not because of an instruction
      rcases turn_eq_done_iff.1 ht with ⟨_, rfl⟩ | ⟨i, hs, _⟩
      · exact ⟨_, .done (h.turn_there hc), rfl⟩
      · rcases h.free hc with hnone | ⟨hgap, _⟩
        · rw [hnone] at hs
          cases hs
        · rw [hgap] at hs
          cases hs
    · exact ⟨d, .done ((turn_congr (h.elsewhere hc)).trans ht), rfl⟩
  | @next c c' d hgap ht _ ih =>
    have hc : c.pc + 1 ≠ place := by
      intro hc
      rcases h.free hc with hnone | hfree
      · rw [turn_eq_done_iff.2 (.inl ⟨hnone, rfl⟩)] at ht
        cases ht
      · exact hgap hfree
    obtain ⟨d', hd', hregs⟩ := ih
    exact ⟨d', .next ((turn_congr (h.elsewhere hc)).trans ht) hd', hregs⟩

/-- **The stop ends a run where the slots as they are settle.** -/
theorem leaves_iff (h : Filled slots filled terminal place) (x : Nat) :
    Leaves filled terminal c x ↔ ∃ d, Settles slots terminal c d ∧ d.registers.output = x := by
  constructor
  · rintro ⟨d, hd, rfl⟩
    obtain ⟨d', hd', hregs⟩ := h.settles hd
    exact ⟨d', hd', by rw [hregs]⟩
  · rintro ⟨d, hd, rfl⟩
    obtain ⟨d', hd', hregs⟩ := h.ends hd
    exact ⟨d', hd', by rw [hregs]⟩

end Filled

namespace Program

variable {p : Program} {is : List Instruction}

theorem slots_withStop (hs : p.stopLabels = []) : p.withStop.slots =
    Cells.update none p.slots (p.stopPlace - 1) fun _ => some ⟨p.stopPlace, .stop⟩ := by
  unfold withStop
  rw [if_pos (List.isEmpty_iff.2 hs)]
  rfl

/-- **A check fills one free label with a stop,** and leaves no gap under the terminal label. -/
theorem withStop_filled (hs : p.stopLabels = []) :
    Filled p.slots p.withStop.slots p.terminalLabel p.stopPlace := by
  have h1 := p.one_le_stopPlace
  have hle := p.stopPlace_le
  constructor
  · intro k hk
    rw [slots_withStop hs, Cells.getElem?_update_of_ne _ _ _ (by omega)]
    split
    · rfl
    · rw [if_neg (by omega), Array.getElem?_eq_none (by omega)]
  · intro k hk
    have hget := get?_withStop hs (k + 1)
    rw [if_pos hk, hk] at hget
    exact get?_succ_eq_some_iff.1 (hk ▸ hget)
  · intro k hk
    by_cases hT : (p.get? p.terminalLabel).isNone
    · have hterm : k + 1 = p.terminalLabel := by rw [hk, stopPlace, if_pos hT]
      have hfree : (p.slots[k]?).join = none := by rw [← get?_succ, hk, get?_stopPlace]
      cases hslot : p.slots[k]? with
      | none => exact .inl rfl
      | some slot =>
        rw [hslot] at hfree
        exact .inr ⟨congrArg some hfree, hterm⟩
    · have hlast : p.stopPlace = p.slots.size + 1 := by rw [stopPlace, if_neg hT]
      exact .inl (Array.getElem?_eq_none (by omega))
  · intro k hgap hk
    have hfree : p.get? p.terminalLabel = none := by rw [← hk, get?_succ, hgap]; rfl
    rw [stopPlace, hfree, hk]
    rfl

end Program

/-- **What a run makes of a program without a stop.**  It yields what the caller's own slots yield,
with gaps as no-ops, where a jump to the terminal label, walking past the last slot, and arriving at
a gap under the terminal label are the ends.  The last of these can be left out exactly if going on
behind that gap ends with the output that is there already, as it does if there is no such gap. -/
theorem own_slots_run_iff {p : Program} {v : Validated} (hs : p.stopLabels = [])
    (hv : p.validate = .ok v) (m : Machine) (inputs : List Nat) :
    (∀ x, m.Yields p inputs x ↔
      ∃ d, Config.Settles p.slots v.terminal (.start inputs) d ∧ d.registers.output = x) ∧
    ((∀ x, m.Yields p inputs x ↔ Config.Leaves p.slots v.terminal (.start inputs) x) ↔
      ∀ d, Config.Settles p.slots v.terminal (.start inputs) d →
        d.AtTerminalGap p.slots v.terminal →
        Config.Leaves p.slots v.terminal d d.registers.output) ∧
    (p.slots[v.terminal - 1]? ≠ some none →
      ∀ x, m.Yields p inputs x ↔ Config.Leaves p.slots v.terminal (.start inputs) x) := by
  obtain ⟨_, rfl⟩ := Program.validate_eq_ok_iff.1 hv
  have hsettles : ∀ x, m.Yields p inputs x ↔
      ∃ d, Config.Settles p.slots p.terminalLabel (.start inputs) d ∧ d.registers.output = x := by
    intro x
    rw [Machine.yields_iff_leaves hv]
    exact (Program.withStop_filled hs).leaves_iff x
  have hagree := @Config.settles_agree_iff p.slots p.terminalLabel (.start inputs)
  simp only [← hsettles] at hagree
  refine ⟨hsettles, hagree, fun hno => hagree.2 fun d _ hgap => absurd ?_ hno⟩
  obtain ⟨hslot, hpc⟩ := hgap
  show p.slots[p.terminalLabel - 1]? = some none
  rw [← hpc, Nat.add_sub_cancel, hslot]

/-- The terminal label 3 is in use, so the stop goes behind the last slot and nothing changes. -/
theorem own_slots_run_without_gap :
    ∃ v, (Program.ofList [⟨1, .set 1 1⟩, ⟨3, .increment 1⟩]).validate = .ok v ∧ v.terminal = 3 ∧
      v.program.get? 4 = some ⟨4, .stop⟩ ∧
      Config.Leaves (Program.ofList [⟨1, .set 1 1⟩, ⟨3, .increment 1⟩]).slots v.terminal
        (.start []) 2 := by
  refine ⟨_, rfl, rfl, rfl, ?_⟩
  exact ((own_slots_run_iff rfl rfl (.new false) []).2.2 (by decide) 2).1 ⟨_, ⟨4, rfl⟩, rfl⟩

/-- The terminal label 3 is a gap before the last slot.  The stop that fills it ends the run at 1,
while the caller's own slots go on to 2. -/
theorem stop_fills_gap :
    ∃ p v, p = Program.ofList [⟨1, .set 1 1⟩, ⟨4, .increment 1⟩] ∧ p.stopLabels = [] ∧
      p.validate = .ok v ∧ (Machine.new false).Yields p [] 1 ∧
      Config.Leaves p.slots v.terminal (.start []) 2 ∧
      ¬ ∀ x,
        (Machine.new false).Yields p [] x ↔ Config.Leaves p.slots v.terminal (.start []) x := by
  have h1 : (Machine.new false).Yields (Program.ofList [⟨1, .set 1 1⟩, ⟨4, .increment 1⟩]) [] 1 :=
    ⟨_, ⟨3, rfl⟩, rfl⟩
  have h2 : Config.Leaves (Program.ofList [⟨1, .set 1 1⟩, ⟨4, .increment 1⟩]).slots 3
      (.start []) 2 :=
    ⟨_, (Config.ends_iff_exec false []).2 ⟨5, _, rfl⟩, rfl⟩
  refine ⟨_, _, rfl, rfl, rfl, h1, h2, fun h => ?_⟩
  have := h1.unique ((h 2).2 h2)
  omega

end RegisterMachine
