import Mathlib.Logic.Relation
import RegisterMachine.Proofs.Runs

/-!
# Execution never leaves the program

A run may go on for ever, so what holds along it is said of every configuration that it comes
through.

* `Config.Reaches slots terminal c d` — the run from `c` comes through `d`; `Reaches.exec_eq` — that
  is where the loop of `exec` is, after as many turns as the steps say.
* `Confined.reaches_pc_le` — control gets as far as the end of the slots and no further.
* `Confined.jump` — a jump that does not end the run lands on a slot.
* `Confined.falls_of_pc_eq` — the end of the slots is reached from the last slot only, never by a
  jump.
* `Built.last_used_withStop` — a program that passed its check has a last slot, and it is in use.

Principal result: `execution_stays_inside` — all of this for every configuration of every run, and
the three ways in which a run can end.
-/

set_option autoImplicit false

namespace RegisterMachine

variable {slots : Array (Option Instruction)} {terminal : Nat} {c d : Config} {i : Instruction}

namespace Config

/-- The run from `c` comes through `d`. -/
def Reaches (slots : Array (Option Instruction)) (terminal : Nat) : Config → Config → Prop :=
  Relation.ReflTransGen fun c d => c.turn slots terminal = .next d

theorem steps_of_turn (h : c.turn slots terminal = .next d) : d.steps = c.steps + 1 := by
  rcases turn_eq_next_iff.1 h with ⟨_, rfl⟩ | ⟨i, _, ⟨_, rfl⟩ | ⟨label, _, _, rfl⟩⟩ <;> rfl

theorem exec_of_turn (h : c.turn slots terminal = .next d) (traced : Bool) (budget : Nat)
    (log : List Event) : ∃ log', exec slots terminal traced (budget + 1) c log =
      exec slots terminal traced budget d log' := by
  refine ⟨if traced then (c.observe slots).toList ++ log else log, ?_⟩
  rw [exec]
  simp only [h]

/-- **The loop comes through every configuration that is reached,** one turn for each step. -/
theorem Reaches.exec_eq (h : Reaches slots terminal c d) (traced : Bool) (budget : Nat)
    (log : List Event) : ∃ n log', d.steps = c.steps + n ∧
      exec slots terminal traced (n + budget) c log = exec slots terminal traced budget d log' := by
  induction h generalizing budget with
  | refl => exact ⟨0, log, rfl, by rw [Nat.zero_add]⟩
  | @tail b d _ ht ih =>
    obtain ⟨n, log', hn, hexec⟩ := ih (budget + 1)
    obtain ⟨log'', hturn⟩ := exec_of_turn ht traced budget log'
    refine ⟨n + 1, log'', ?_, ?_⟩
    · rw [steps_of_turn ht, hn, Nat.add_assoc]
    · rw [← hturn, ← hexec]
      congr 1
      omega

end Config

/-! ## Confined slots -/

namespace Confined

theorem reaches_pc_le (h : Confined slots terminal) (hc : c.pc ≤ slots.size)
    (hr : Config.Reaches slots terminal c d) : d.pc ≤ slots.size := by
  induction hr with
  | refl => exact hc
  | tail _ ht _ => exact h.pc_le ht

/-- **A jump goes to the terminal label or to a slot.** -/
theorem jump (h : Confined slots terminal) (hs : slots[c.pc]? = some (some i)) {label : Nat}
    (hf : i.op.flow c.registers = .jump label) :
    1 ≤ label ∧ (label = terminal ∨ label ≤ slots.size) ∧
    (label ≠ terminal → label - 1 < slots.size ∧
      c.turn slots terminal = .next ⟨label - 1, c.registers, c.steps + 1⟩) := by
  obtain ⟨hpos, hle⟩ := h.targets hs label (Op.of_flow_eq_jump hf).1
  refine ⟨hpos, hle, fun hne => ⟨?_, ?_⟩⟩
  · have := hle.resolve_left hne
    omega
  · exact Config.turn_eq_next_iff.2 (.inr ⟨i, hs, .inr ⟨label, hf, hne, rfl⟩⟩)

/-- **The end of the slots is reached by falling through the last one.** -/
theorem falls_of_pc_eq (h : Confined slots terminal) (hlast : slots.back? ≠ some none)
    (ht : c.turn slots terminal = .next d) (hd : d.pc = slots.size) :
    c.pc + 1 = slots.size ∧ ∃ i, slots[c.pc]? = some (some i) ∧ i.op.flow c.registers = .next := by
  rcases Config.turn_eq_next_iff.1 ht with ⟨hs, rfl⟩ | ⟨i, hs, ⟨hf, rfl⟩ | ⟨label, hf, hne, rfl⟩⟩
  · -- the last slot would be a gap
    refine absurd ?_ hlast
    rw [Array.back?_eq_getElem?, ← hs]
    congr 1
    dsimp only at hd
    omega
  · exact ⟨hd, i, hs, hf⟩
  · obtain ⟨_, _, hland⟩ := h.jump hs hf
    have := (hland hne).1
    dsimp only at hd
    omega

end Confined

theorem Program.Built.last_used_withStop {p : Program} {is : List Instruction} (hp : p.Built is)
    (hpass : p.Passes) : 0 < p.withStop.slots.size ∧ p.withStop.slots.back? ≠ some none := by
  refine ⟨?_, hp.tidy.withStop.last_used⟩
  obtain ⟨label, hs⟩ := hp.tidy.stopLabels_withStop hpass
  have hstop : label ∈ p.withStop.stopLabels := by simp [hs]
  have hget := hp.tidy.withStop.mem_stopLabels_iff.1 hstop
  have hle := Program.le_size_of_get? hget
  have hpos : label ≠ 0 := by
    rintro rfl
    cases hget
  omega

/-- **Execution never leaves the program.**  Take any configuration that a run comes through, in
however many turns.  Its slot is one of the program or the one past the last.  The instruction there
names registers from `x1` on.  If it jumps, then to the terminal label, which ends the run, or to a
label that has a slot, where the run goes on.  And if the run ends there, then at a stop, by a jump
to the terminal label, or past the last slot, which it came to by falling through the last
instruction. -/
theorem execution_stays_inside {p : Program} {is : List Instruction} (hp : p.Built is)
    {v : Validated} (hv : p.validate = .ok v) (inputs : List Nat) {c : Config}
    (hc : Config.Reaches v.program.slots v.terminal (.start inputs) c) :
    let slots := v.program.slots
    (∀ traced budget log, ∃ log',
      exec slots v.terminal traced (c.steps + budget) (.start inputs) log =
        exec slots v.terminal traced budget c log') ∧
    c.pc ≤ slots.size ∧
    (∀ i, slots[c.pc]? = some (some i) →
      (∀ register ∈ i.op.registers, 1 ≤ register) ∧
      ∀ label, i.op.flow c.registers = .jump label →
        1 ≤ label ∧ (label = v.terminal ∨ label ≤ slots.size) ∧
        (label ≠ v.terminal → label - 1 < slots.size ∧
          c.turn slots v.terminal = .next ⟨label - 1, c.registers, c.steps + 1⟩)) ∧
    (∀ d, c.turn slots v.terminal = .done d →
      (∃ i, slots[c.pc]? = some (some i) ∧ i.op = .stop) ∨
      (∃ i, slots[c.pc]? = some (some i) ∧ i.op.flow c.registers = .jump v.terminal) ∨
      c.pc = slots.size ∧ ∃ b i, Config.Reaches slots v.terminal (.start inputs) b ∧
        b.turn slots v.terminal = .next c ∧ b.pc + 1 = slots.size ∧
        slots[b.pc]? = some (some i) ∧ i.op.flow b.registers = .next) := by
  intro slots
  have hconf : Confined slots v.terminal := hp.confined hv
  have hpc : c.pc ≤ slots.size := hconf.reaches_pc_le (Nat.zero_le _) hc
  refine ⟨?_, hpc, ?_, ?_⟩
  · intro traced budget log
    obtain ⟨n, log', hn, hexec⟩ := hc.exec_eq traced budget log
    obtain rfl : c.steps = n := by rw [hn]; exact Nat.zero_add n
    exact ⟨log', hexec⟩
  · exact fun i hs => ⟨hconf.registers hs, fun label hf => hconf.jump hs hf⟩
  · intro d hd
    rcases Config.turn_eq_done_iff.1 hd with ⟨hnone, rfl⟩ | ⟨i, hs, hstop | hjump, _⟩
    · have hend : c.pc = slots.size := Nat.le_antisymm hpc (Array.getElem?_eq_none_iff.1 hnone)
      obtain ⟨hpass, rfl⟩ := Program.validate_eq_ok_iff.1 hv
      obtain ⟨hpos, hlast⟩ := hp.last_used_withStop hpass
      -- the first slot exists, so the run did not start past the end
      rcases Relation.ReflTransGen.cases_tail hc with rfl | ⟨b, hb, ht⟩
      · exact absurd hend (Nat.ne_of_lt hpos)
      · obtain ⟨hb1, i, hs, hf⟩ := hconf.falls_of_pc_eq hlast ht hend
        exact .inr (.inr ⟨hend, b, i, hb, ht, hb1, hs, hf⟩)
    · exact .inl ⟨i, hs, hstop⟩
    · exact .inr (.inl ⟨i, hs, hjump⟩)

/-- A jump over the only stop, and an end past the last of three slots. -/
theorem execution_falls_through_last_slot :
    ∃ (v : Validated) (c : Config),
      (Program.ofList [⟨1, .branch 1 3 2⟩, ⟨2, .stop⟩, ⟨3, .set 1 5⟩]).validate = .ok v ∧
      Config.Reaches v.program.slots v.terminal (.start []) c ∧ c.steps = 2 ∧
      c.turn v.program.slots v.terminal = .done c ∧ c.pc = v.program.slots.size ∧
      ∃ b : Config, b.turn v.program.slots v.terminal = .next c ∧
        b.pc + 1 = v.program.slots.size := by
  have hp : Program.Built _ [⟨1, .branch 1 3 2⟩, ⟨2, .stop⟩, ⟨3, .set 1 5⟩] := .ofList (by decide)
  have hreach : Config.Reaches #[some ⟨1, .branch 1 3 2⟩, some ⟨2, .stop⟩, some ⟨3, .set 1 5⟩] 4
      (.start []) ⟨3, ⟨#[5]⟩, 2⟩ := .tail (.tail .refl rfl) rfl
  refine ⟨_, _, rfl, hreach, rfl, rfl, ?_⟩
  rcases (execution_stays_inside hp rfl [] hreach).2.2.2 _ rfl with ⟨i, hs, _⟩ | ⟨i, hs, _⟩ | hend
  · cases hs
  · cases hs
  · obtain ⟨hpc, b, _, _, hb, hb1, _⟩ := hend
    exact ⟨hpc, b, hb, hb1⟩

end RegisterMachine
