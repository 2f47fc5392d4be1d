import RegisterMachine.Machine
import RegisterMachine.Proofs.Admission
import RegisterMachine.Proofs.History

/-!
# Runs without a budget

`exec` counts down a budget.  Here the budget is taken away: a run either ends in a configuration or
goes on for ever, whatever is reported on the way.

* `turn_eq_done_iff`, `turn_eq_next_iff` — everything that one turn can do.
* `Config.Ends slots terminal c d` — from `c` the run ends in `d`; `ends_iff_exec` — that is what
  `exec` computes under some budget, traced or not; `Ends.unique` — a run ends in one way only.
* `Exit`, `Config.exit` — how a run that ended was left.
* `Confined slots terminal` — jumps stay inside and registers count from 1; `Confined.pc_le` — so
  control never gets beyond the end of the slots; `Built.confined` — every program that passed its
  check is confined.
* `Machine.Halts m p inputs r` — the run of `p` on `inputs` is over and leaves `r`;
  `Machine.Halts.ends_of_validate`, `Machine.halts_of_ends` — the two readings agree.
-/

set_option autoImplicit false

namespace RegisterMachine

variable {slots : Array (Option Instruction)} {terminal : Nat} {c d e : Config}

theorem Op.flow_eq_halt_iff {op : Op} {r : Registers} : op.flow r = .halt ↔ op = .stop := by
  cases op <;> simp [Op.flow]

/-- Only a branch jumps: it goes to one of its targets and writes nothing. -/
theorem Op.of_flow_eq_jump {op : Op} {r : Registers} {label : Nat} (h : op.flow r = .jump label) :
    label ∈ op.targets ∧ op.apply r = r := by
  cases op with
  | branch register ifZero otherwise =>
    refine ⟨?_, rfl⟩
    simp only [Op.flow, Flow.jump.injEq] at h
    split at h <;> simp [Op.targets, h]
  | _ => cases h

namespace Config

theorem turn_eq_done_iff : c.turn slots terminal = .done d ↔
    (slots[c.pc]? = none ∧ c = d) ∨
    ∃ i, slots[c.pc]? = some (some i) ∧ (i.op = .stop ∨ i.op.flow c.registers = .jump terminal) ∧
      ⟨c.pc, c.registers, c.steps + 1⟩ = d := by
  unfold turn
  cases hs : slots[c.pc]? with
  | none => simp
  | some slot =>
    cases slot with
    | none => simp
    | some i =>
      cases hf : i.op.flow c.registers with
      | next =>
        have : i.op ≠ .stop := fun e => by rw [e] at hf; cases hf
        simp [hf, this]
      | halt =>
        have hop := Op.flow_eq_halt_iff.1 hf
        simp [hop, Op.flow, Op.apply]
      | jump label =>
        obtain ⟨_, happ⟩ := Op.of_flow_eq_jump hf
        have : i.op ≠ .stop := fun e => by rw [e] at hf; cases hf
        by_cases ht : label = terminal
        · simp [hf, happ, ht]
        · simp [hf, ht, this]

theorem turn_eq_next_iff : c.turn slots terminal = .next d ↔
    (slots[c.pc]? = some none ∧ ⟨c.pc + 1, c.registers, c.steps + 1⟩ = d) ∨
    ∃ i, slots[c.pc]? = some (some i) ∧
      (i.op.flow c.registers = .next ∧ ⟨c.pc + 1, i.op.apply c.registers, c.steps + 1⟩ = d ∨
        ∃ label, i.op.flow c.registers = .jump label ∧ label ≠ terminal ∧
          ⟨label - 1, c.registers, c.steps + 1⟩ = d) := by
  unfold turn
  cases hs : slots[c.pc]? with
  | none => simp
  | some slot =>
    cases slot with
    | none => simp
    | some i =>
      cases hf : i.op.flow c.registers with
      | next => simp [hf]
      | halt => simp [hf]
      | jump label =>
        obtain ⟨_, happ⟩ := Op.of_flow_eq_jump hf
        by_cases ht : label = terminal
        · simp [hf, ht]
        · simp [hf, ht, happ]

/-- From `c` the run ends in `d`. -/
inductive Ends (slots : Array (Option Instruction)) (terminal : Nat) : Config → Config → Prop
  | done {c d : Config} (h : c.turn slots terminal = .done d) : Ends slots terminal c d
  | next {c c' d : Config} (h : c.turn slots terminal = .next c')
      (rest : Ends slots terminal c' d) :
      Ends slots terminal c d

theorem Ends.unique (h : Ends slots terminal c d) (h' : Ends slots terminal c e) : d = e := by
  induction h with
  | done ht =>
    cases h' with
    | done ht' => rw [ht] at ht'; cases ht'; rfl
    | next ht' _ => rw [ht] at ht'; cases ht'
  | next ht _ ih =>
    cases h' with
    | done ht' => rw [ht] at ht'; cases ht'
    | next ht' rest' => rw [ht] at ht'; cases ht'; exact ih rest'

theorem ends_of_exec {traced : Bool} {budget : Nat} {log log' : List Event}
    (h : exec slots terminal traced budget c log = some (d, log')) : Ends slots terminal c d := by
  induction budget generalizing c log with
  | zero => cases h
  | succ budget ih =>
    unfold exec at h
    cases ht : c.turn slots terminal with
    | done c' =>
      simp only [ht, Option.some.injEq, Prod.mk.injEq] at h
      exact .done (h.1 ▸ ht)
    | next c' =>
      simp only [ht] at h
      exact .next ht (ih h)

theorem Ends.exec (h : Ends slots terminal c d) (traced : Bool) (log : List Event) :
    ∃ budget log', RegisterMachine.exec slots terminal traced budget c log = some (d, log') := by
  induction h generalizing log with
  | @done c _ ht =>
    refine ⟨1, if traced then (c.observe slots).toList ++ log else log, ?_⟩
    unfold RegisterMachine.exec
    rw [ht]
  | @next c _ _ ht _ ih =>
    obtain ⟨budget, log', hb⟩ := ih (if traced then (c.observe slots).toList ++ log else log)
    refine ⟨budget + 1, log', ?_⟩
    unfold RegisterMachine.exec
    simp only [ht]
    exact hb

/-- **A run ends exactly if `exec` computes its end under some budget.** -/
theorem ends_iff_exec (traced : Bool) (log : List Event) : Ends slots terminal c d ↔
    ∃ budget log', exec slots terminal traced budget c log = some (d, log') :=
  ⟨fun h => h.exec traced log, fun ⟨_, _, h⟩ => ends_of_exec h⟩

end Config

/-- How a run is left. -/
inductive Exit where
  | pastEnd
  | stop
  | jump
  deriving DecidableEq, Repr

/-- How a run that ended in `d` was left: past the last slot, at a stop, or by a jump. -/
def Config.exit (slots : Array (Option Instruction)) (d : Config) : Exit :=
  match slots[d.pc]? with
  | some (some i) => if i.op = .stop then .stop else .jump
  | _ => .pastEnd

/-! ## Control stays inside -/

/-- Instructions name registers from `x1` on, and jump into the slots or to the terminal label. -/
structure Confined (slots : Array (Option Instruction)) (terminal : Nat) : Prop where
  registers : ∀ {k : Nat} {i : Instruction}, slots[k]? = some (some i) → ∀ r ∈ i.op.registers, 1 ≤ r
  targets : ∀ {k : Nat} {i : Instruction}, slots[k]? = some (some i) → ∀ t ∈ i.op.targets,
    1 ≤ t ∧ (t = terminal ∨ t ≤ slots.size)

theorem Confined.pc_le (h : Confined slots terminal) (ht : c.turn slots terminal = .next d) :
    d.pc ≤ slots.size := by
  rcases Config.turn_eq_next_iff.1 ht with ⟨hs, rfl⟩ | ⟨i, hs, ⟨_, rfl⟩ | ⟨label, hf, hne, rfl⟩⟩
  · exact (Array.getElem?_eq_some_iff.1 hs).1
  · exact (Array.getElem?_eq_some_iff.1 hs).1
  · obtain ⟨_, hl | hl⟩ := h.targets hs label (Op.of_flow_eq_jump hf).1
    · exact absurd hl hne
    · exact Nat.le_trans (Nat.sub_le _ _) hl

theorem Program.Built.confined {p : Program} {is : List Instruction} {v : Validated}
    (hp : p.Built is) (hv : p.validate = .ok v) : Confined v.program.slots v.terminal := by
  obtain ⟨hpass, rfl⟩ := Program.validate_eq_ok_iff.1 hv
  have hb := hp.withStop hpass
  have hterm := hp.terminalLabel_withStop
  constructor
  · intro k i hk
    exact (hb.mem_wellFormed (Program.mem_instructions.2 ⟨k, hk⟩)).registers_pos
  · intro k i hk t ht
    obtain ⟨h1, hle⟩ :=
      (hp.passes_withStop hpass).targets i (Program.mem_instructions.2 ⟨k, hk⟩) t ht
    have htop := p.withStop.terminalLabel_le
    have hsize := p.withStop.size_le_slots
    refine ⟨h1, ?_⟩
    show t = p.terminalLabel ∨ t ≤ p.withStop.slots.size
    omega

namespace Machine

variable {m : Machine} {p : Program} {inputs : List Nat} {r : Run}

/-- The run of `p` on `inputs` is over and leaves `r`. -/
def Halts (m : Machine) (p : Program) (inputs : List Nat) (r : Run) : Prop :=
  ∃ budget, m.run budget p inputs = .ok (some r)

theorem run_eq_ok_iff {budget : Nat} {result : Option Run} : m.run budget p inputs = .ok result ↔
    ∃ v, p.validate = .ok v ∧ m.execute budget v inputs = result := by
  unfold run
  rw [bind_eq_ok_iff]
  simp [pure, Except.pure]

/-- An execution takes turns from the inputs on until the run ends, and reports its start, the turns
and its end. -/
theorem execute_eq_some_iff {budget : Nat} {v : Validated} : m.execute budget v inputs = some r ↔
    ∃ d log, exec v.program.slots v.terminal m.traced budget (.start inputs) [] = some (d, log) ∧
      ⟨v.program, ⟨d.registers, d.steps, m.traced⟩,
        v.events ++ .runStarted inputs v.program.size v.terminal :: log.reverse ++
          [.runFinished d.registers.output d.steps]⟩ = r := by
  unfold execute
  simp only [start_reset, traced_reset]
  constructor
  · intro h
    obtain ⟨⟨d, log⟩, hd, h⟩ := Option.bind_eq_some_iff.1 h
    exact ⟨d, log, hd, Option.some.inj h⟩
  · rintro ⟨d, log, hd, rfl⟩
    rw [hd]
    rfl

theorem ends_of_execute {budget : Nat} {v : Validated} (h : m.execute budget v inputs = some r) :
    ∃ d, Config.Ends v.program.slots v.terminal (.start inputs) d ∧ r.program = v.program ∧
      r.machine = ⟨d.registers, d.steps, m.traced⟩ := by
  obtain ⟨d, log, hd, rfl⟩ := execute_eq_some_iff.1 h
  exact ⟨d, Config.ends_of_exec hd, rfl, rfl⟩

theorem Halts.ends (h : m.Halts p inputs r) : ∃ v d, p.validate = .ok v ∧
    Config.Ends v.program.slots v.terminal (.start inputs) d ∧ r.program = v.program ∧
      r.machine = ⟨d.registers, d.steps, m.traced⟩ := by
  obtain ⟨budget, h⟩ := h
  obtain ⟨v, hv, h⟩ := run_eq_ok_iff.1 h
  obtain ⟨d, hd⟩ := ends_of_execute h
  exact ⟨v, d, hv, hd⟩

theorem Halts.ends_of_validate (h : m.Halts p inputs r) {v : Validated} (hv : p.validate = .ok v) :
    ∃ d, Config.Ends v.program.slots v.terminal (.start inputs) d ∧
      r.machine = ⟨d.registers, d.steps, m.traced⟩ := by
  obtain ⟨v', d, hv', hd, _, hm⟩ := h.ends
  rw [hv] at hv'
  cases hv'
  exact ⟨d, hd, hm⟩

theorem halts_of_ends (m : Machine) {v : Validated} {d : Config} (hv : p.validate = .ok v)
    (hd : Config.Ends v.program.slots v.terminal (.start inputs) d) :
    ∃ r, m.Halts p inputs r ∧ r.program = v.program ∧
      r.machine = ⟨d.registers, d.steps, m.traced⟩ := by
  obtain ⟨budget, log, hb⟩ := hd.exec m.traced []
  have hr := execute_eq_some_iff.2 ⟨d, log, hb, rfl⟩
  exact ⟨_, ⟨budget, run_eq_ok_iff.2 ⟨v, hv, hr⟩⟩, rfl, rfl⟩

/-- A run that passes its check is never refused; at worst it goes on for ever. -/
theorem run_eq_ok_of_validate (m : Machine) {v : Validated} (hv : p.validate = .ok v) (budget : Nat)
    (inputs : List Nat) : ∃ result, m.run budget p inputs = .ok result :=
  ⟨_, run_eq_ok_iff.2 ⟨v, hv, rfl⟩⟩

end Machine

end RegisterMachine
