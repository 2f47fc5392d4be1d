import RegisterMachine.Proofs.AbstractMachine
import RegisterMachine.Proofs.Courses

/-!
# Tracing observes a run and does not interfere

A machine that traces reports on every instruction before it is executed.  The reports tell the
whole run, and making them changes nothing else.

* `replay` — follows reports on executed instructions: each must show the registers that the ones
  before it lead to.  `Course.replay_reports` — the reports on a course replay it.
* `Abstract.Told slots terminal s es rho` — the same with the transitions of the abstract machine:
  its run from `s` ends with the registers `rho`, and `es` shows it state by state.
  `Course.told` — the reports on a course tell the abstract run.
* `Course.steps_eq` — the reports and the gaps together count the steps.
* `isStep_of_mem_reports`, `isStep_of_mem_validationEvents` — which reports are on executed
  instructions; `Machine.Halts.filter_events` — so what a run reports falls apart into the reports
  on its course and the others.

Principal result: `tracing_only_observes` — a traced run and the same run without tracing, and what
the reports tell.
-/

set_option autoImplicit false

namespace RegisterMachine

open Config

variable {slots : Array (Option Instruction)} {terminal : Nat} {c d : Config} {cs : List Config}
  {s : Abstract.State}

/-- The registers that reports on executed instructions lead to.  Every report has to show the
registers as they are at that point, and its instruction is applied to them. -/
def replay : Registers → List Event → Option Registers
  | r, [] => some r
  | r, .step _ i cells :: es => if cells = r.cells then replay (i.op.apply r) es else none
  | _, _ :: _ => none

namespace Abstract

variable (slots : Array (Option Instruction)) (terminal : Nat)

/-- What is reported on a state: nothing without an instruction in its slot, and otherwise the slot,
the instruction and cells that hold the registers from 1 on. -/
inductive Shown : State → List Event → Prop
  | silent {pc : Nat} {rho : Nat → Nat} (h : ∀ i, slots[pc]? ≠ some (some i)) : Shown ⟨pc, rho⟩ []
  | step {pc : Nat} {i : Instruction} {cells : Array Nat} {rho : Nat → Nat}
      (h : slots[pc]? = some (some i)) (hcells : ∀ k, cells.getD k 0 = rho (k + 1)) :
      Shown ⟨pc, rho⟩ [.step pc i cells]

/-- The run from a state ends with the registers `rho`, and the events are what is reported on the
states that it comes through. -/
inductive Told : State → List Event → (Nat → Nat) → Prop
  | past {rho : Nat → Nat} : Told ⟨slots.size, rho⟩ [] rho
  | last {s : State} {es : List Event} (h : Final slots terminal s) (hs : Shown slots s es) :
      Told s es s.rho
  | step {s s' : State} {es es' : List Event} {rho : Nat → Nat} (h : Transition slots terminal s s')
      (hs : Shown slots s es) (rest : Told s' es' rho) : Told s (es ++ es') rho

end Abstract

/-! ## The reports on a course -/

/-- The report on a turn is replayed as the turn itself; where there is none, the registers stay. -/
theorem replay_observe (slots : Array (Option Instruction)) (c : Config) (es : List Event) :
    replay c.registers ((c.observe slots).toList ++ es) = replay (c.applied slots) es := by
  rw [observe_eq, applied]
  cases c.current? slots with
  | none => rfl
  | some i => exact if_pos rfl

/-- **The reports on a course replay it.** -/
theorem Config.Course.replay_reports (h : Course slots terminal c cs d) :
    replay c.registers (reports slots cs) = some d.registers := by
  refine h.registers_induction (motive := fun r cs r' => replay r (reports slots cs) = some r')
    (fun r => rfl) ?_
  intro c cs r' ih
  rw [reports_cons, replay_observe, ih]

/-- The report on a turn shows the state that the machine represents. -/
theorem Represents.shown_observe (h : Represents c s) (slots : Array (Option Instruction)) :
    Abstract.Shown slots s (c.observe slots).toList := by
  obtain ⟨pc, rho⟩ := s
  obtain ⟨hpc, hget⟩ := h
  subst hpc
  unfold observe
  rcases hs : slots[c.pc]? with _ | _ | i
  · exact .silent fun i => by simp [hs]
  · exact .silent fun i => by simp [hs]
  · exact .step hs fun k => by simpa [Registers.get] using hget (k + 1)

/-- **The reports on a course tell the abstract run.** -/
theorem Config.Course.told (hc : Confined slots terminal) (h : Course slots terminal c cs d)
    (hpc : c.pc ≤ slots.size) (hrep : Represents c s) :
    ∃ rho, Abstract.Told slots terminal s (reports slots cs) rho ∧
      ∀ register, d.registers.get register = rho register := by
  induction h generalizing s with
  | @done c d ht =>
    have hshown := hrep.shown_observe slots
    rw [reports_cons, reports_nil, List.append_nil]
    rcases final_of_turn hrep ht with ⟨hnone, rfl⟩ | ⟨hf, rfl⟩
    · obtain ⟨pc, rho⟩ := s
      obtain rfl : pc = slots.size := hrep.pc_eq_size hpc hnone
      have hquiet : c.observe slots = none := by
        unfold observe
        rw [hnone]
      rw [hquiet]
      exact ⟨rho, .past, hrep.get⟩
    · exact ⟨s.rho, .last hf hshown, hrep.get⟩
  | next ht _ ih =>
    obtain ⟨s', hs', hrep', -⟩ := transition_of_turn hc hrep ht
    obtain ⟨rho, htold, hget⟩ := ih (hc.pc_le ht) hrep'
    rw [reports_cons]
    exact ⟨rho, .step hs' (hrep.shown_observe slots) htold, hget⟩

/-- **Every step of a course is reported or crosses a gap.** -/
theorem Config.Course.steps_eq (h : Course slots terminal c cs d) :
    d.steps = c.steps + (reports slots cs).length + gaps slots cs := by
  induction h with
  | @done c d ht =>
    have hsteps : d.steps = _ := steps_turn ht
    rw [reports_cons, gaps_cons, List.length_append, hsteps]
    simp
  | @next c c' d cs ht _ ih =>
    have hsteps : c'.steps = _ := steps_turn ht
    rw [reports_cons, gaps_cons, List.length_append, ih, hsteps]
    omega

/-! ## All reports of a run -/

theorem isStep_of_mem_reports {e : Event} (h : e ∈ reports slots cs) : e.isStep = true := by
  obtain ⟨c, _, hc⟩ := List.mem_filterMap.1 h
  rw [observe_eq, Option.map_eq_some_iff] at hc
  obtain ⟨i, _, rfl⟩ := hc
  rfl

theorem isStep_of_mem_validationEvents {p : Program} {e : Event} (h : e ∈ p.validationEvents) :
    e.isStep = false := by
  unfold Program.validationEvents at h
  split at h
  all_goals
    simp only [List.nil_append, List.cons_append, List.mem_cons, List.not_mem_nil, or_false] at h
    rcases h with rfl | rfl <;> rfl

/-- **The reports of a run fall apart** into those on its course, if the machine traces, and the
others. -/
theorem Machine.Halts.filter_events {m : Machine} {p : Program} {inputs : List Nat} {r : Run}
    (h : m.Halts p inputs r) : ∃ v cs d, p.validate = .ok v ∧
    Course v.program.slots v.terminal (.start inputs) cs d ∧ r.program = v.program ∧
    r.machine = ⟨d.registers, d.steps, m.traced⟩ ∧
    r.events.filter Event.isStep = (if m.traced then reports v.program.slots cs else []) ∧
    r.events.filter (fun e => !e.isStep) = v.events ++
      [.runStarted inputs v.program.size v.terminal, .runFinished d.registers.output d.steps] := by
  obtain ⟨v, cs, d, hv, hcs, hprog, hm, hev⟩ := h.course
  have hcheck : ∀ e ∈ v.events, e.isStep = false := by
    obtain ⟨_, rfl⟩ := Program.validate_eq_ok_iff.1 hv
    exact fun e he => isStep_of_mem_validationEvents he
  have hcourse : ∀ e ∈ if m.traced then reports v.program.slots cs else [], e.isStep = true := by
    intro e he
    split at he
    · exact isStep_of_mem_reports he
    · cases he
  refine ⟨v, cs, d, hv, hcs, hprog, hm, ?_, ?_⟩
  · have hnone : v.events.filter Event.isStep = [] :=
      List.filter_eq_nil_iff.2 fun e he => by simp [hcheck e he]
    have hall := List.filter_eq_self.2 hcourse
    rw [hev, List.filter_append, List.filter_append, hnone,
      List.filter_cons_of_neg Bool.false_ne_true, hall]
    simp [Event.isStep]
  · have hall : v.events.filter (fun e => !e.isStep) = v.events :=
      List.filter_eq_self.2 fun e he => by simp [hcheck e he]
    have hnone :
        (if m.traced then reports v.program.slots cs else []).filter (fun e => !e.isStep) = [] :=
      List.filter_eq_nil_iff.2 fun e he => by simp [hcourse e he]
    rw [hev, List.filter_append, List.filter_append, hall, List.filter_cons_of_pos rfl, hnone]
    simp [Event.isStep]

/-- **Tracing observes a run and does not interfere.**  Take one machine, once with tracing and once
without, and run a program on both.  Both runs end, or none does.  If they end, they have the same
result, steps, registers and program, and without its reports on executed instructions the traced
run reports what the other one does.

Those reports tell the run.  On the course that it takes they are made in every slot that holds an
instruction, in order, and show the slot, the instruction and the registers before it.  Applying
each instruction to the registers that its report shows gives those of the next report, from the
inputs on and to the end of the run: with the operations of the machine, and for a program that was
built from instructions with the transitions of the abstract machine too.  And every step is
reported or crosses a gap. -/
theorem tracing_only_observes (m : Machine) (p : Program) (inputs : List Nat) :
    let on : Machine := { m with traced := true }
    let off : Machine := { m with traced := false }
    ((∃ r, on.Halts p inputs r) ↔ ∃ r, off.Halts p inputs r) ∧
    ∀ r r', on.Halts p inputs r → off.Halts p inputs r' →
      r.output = r'.output ∧ r.machine.steps = r'.machine.steps ∧
      r.machine.registers = r'.machine.registers ∧ r.program = r'.program ∧
      r.events.filter (fun e => !e.isStep) = r'.events ∧
      (∃ cs d, Course r.program.slots p.terminalLabel (.start inputs) cs d ∧
        r.machine = ⟨d.registers, d.steps, true⟩ ∧
        r.events.filter Event.isStep = cs.filterMap (fun c =>
          (c.current? r.program.slots).map fun i => .step c.pc i c.registers.cells) ∧
        replay (.ofInputs inputs) (r.events.filter Event.isStep) = some r.machine.registers ∧
        (r.events.filter Event.isStep).length + gaps r.program.slots cs = r.machine.steps) ∧
      ∀ is, p.Built is → ∃ rho,
        Abstract.Told r.program.slots p.terminalLabel (Abstract.start inputs)
          (r.events.filter Event.isStep) rho ∧
        ∀ register, r.machine.registers.get register = rho register := by
  intro on off
  refine ⟨⟨fun ⟨_, hr⟩ => hr.on off, fun ⟨_, hr⟩ => hr.on on⟩, fun r r' hr hr' => ?_⟩
  obtain ⟨v, cs, d, hv, hcs, hprog, hm, hsteps, hrest⟩ := hr.filter_events
  obtain ⟨v', cs', d', hv', hcs', hprog', hm', hev'⟩ := hr'.course
  obtain rfl : v = v' := Except.ok.inj (hv.symm.trans hv')
  obtain ⟨rfl, rfl⟩ := hcs.unique hcs'
  have hterm : v.terminal = p.terminalLabel := by
    obtain ⟨_, rfl⟩ := Program.validate_eq_ok_iff.1 hv
    rfl
  rw [Run.output, Run.output, hm, hm', hprog, hprog', hrest, hev', hsteps]
  refine ⟨rfl, rfl, rfl, rfl, by simp [off], ⟨cs, d, hterm ▸ hcs, rfl, ?_, hcs.replay_reports, ?_⟩,
    fun is hp => ?_⟩
  · exact List.filterMap_congr fun c _ => observe_eq v.program.slots c
  · have := hcs.steps_eq
    simp only [Config.start] at this
    simp only [on, if_true]
    omega
  · have htold := hcs.told (hp.confined hv) (Nat.zero_le _) (represents_start inputs)
    simpa only [on, if_true, hterm] using htold

/-- The run crosses the gap at label 2 twice, jumps back once, and is left by a jump to label 3.
Four of its six steps are reported. -/
theorem tracing_observes_jump_over_gap :
    ∃ r r', (Machine.new true).Halts (.ofList [⟨1, .decrement 2⟩, ⟨3, .branch 2 3 1⟩]) [2] r ∧
      (Machine.new false).Halts (.ofList [⟨1, .decrement 2⟩, ⟨3, .branch 2 3 1⟩]) [2] r' ∧
      r.machine.steps = 6 ∧ r'.machine.steps = 6 ∧ r'.machine.registers.cells = #[0, 0] ∧
      r.events.filter (fun e => !e.isStep) = r'.events ∧
      replay (.ofInputs [2]) [.step 0 ⟨1, .decrement 2⟩ #[0, 2], .step 2 ⟨3, .branch 2 3 1⟩ #[0, 1],
        .step 0 ⟨1, .decrement 2⟩ #[0, 1], .step 2 ⟨3, .branch 2 3 1⟩ #[0, 0]] =
          some r.machine.registers ∧
      ∃ rho, Abstract.Told r.program.slots 3 (Abstract.start [2])
        [.step 0 ⟨1, .decrement 2⟩ #[0, 2], .step 2 ⟨3, .branch 2 3 1⟩ #[0, 1],
          .step 0 ⟨1, .decrement 2⟩ #[0, 1], .step 2 ⟨3, .branch 2 3 1⟩ #[0, 0]] rho ∧
        ∀ register, r.machine.registers.get register = rho register := by
  obtain ⟨hiff, hboth⟩ :=
    tracing_only_observes (.new true) (.ofList [⟨1, .decrement 2⟩, ⟨3, .branch 2 3 1⟩]) [2]
  have hr : (Machine.new true).Halts (.ofList [⟨1, .decrement 2⟩, ⟨3, .branch 2 3 1⟩]) [2] _ :=
    ⟨6, rfl⟩
  obtain ⟨r', hr'⟩ := hiff.1 ⟨_, hr⟩
  obtain ⟨_, hsteps, hregs, _, hevents, ⟨_, _, _, _, _, hreplay, _⟩, htold⟩ := hboth _ r' hr hr'
  exact ⟨_, r', hr, hr', rfl, hsteps.symm, congrArg Registers.cells hregs.symm, hevents, hreplay,
    htold _ (.ofList (by decide))⟩

end RegisterMachine
