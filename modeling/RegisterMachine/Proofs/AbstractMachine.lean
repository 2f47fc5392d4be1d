import Mathlib.Logic.Function.Basic
import RegisterMachine.Proofs.Runs

/-!
# The abstract register machine

The textbook machine: a program counter and a total function from register indices to numbers.  It
knows nothing of arrays that grow, of budgets or of reports.

* `Abstract.Transition` — the transitions that go on: a gap only advances, `set`, `increment`,
  `decrement` and `copy` update one register and advance, a branch that misses the terminal label
  jumps.
* `Abstract.Final` — the transitions that end a run: a stop, and a branch to the terminal label.
* `Abstract.Ends slots terminal s n rho` — the run from `s` ends after exactly `n` transitions with
  the registers `rho`.  Standing at the end of the slots is an end without a transition.
* `Represents c s` — the simulation relation; `transition_of_turn`, `final_of_turn` and
  `turn_of_transition`, `turn_of_final` — one turn of the machine against one transition.

Principal result: `run_refines_abstract` — a machine run halts with an output and a step count
exactly if the abstract run does, and then the cells are an initial part of the abstract registers
that leaves out nothing but zeros.
-/

set_option autoImplicit false

namespace RegisterMachine

namespace Abstract

structure State where
  pc : Nat
  rho : Nat → Nat

/-- `x1` is zero, the inputs follow from `x2` on, and all else is zero. -/
def start (inputs : List Nat) : State :=
  ⟨0, fun register => if 2 ≤ register then inputs.getD (register - 2) 0 else 0⟩

/-- Where a branch goes. -/
def target (rho : Nat → Nat) (register ifZero otherwise : Nat) : Nat :=
  if rho register = 0 then ifZero else otherwise

variable (slots : Array (Option Instruction)) (terminal : Nat)

/-- The transitions after which a run goes on. -/
inductive Transition : State → State → Prop
  | gap {pc : Nat} {rho : Nat → Nat} (h : slots[pc]? = some none) :
      Transition ⟨pc, rho⟩ ⟨pc + 1, rho⟩
  | set {pc label register value : Nat} {rho : Nat → Nat}
      (h : slots[pc]? = some (some ⟨label, .set register value⟩)) :
      Transition ⟨pc, rho⟩ ⟨pc + 1, Function.update rho register value⟩
  | increment {pc label register : Nat} {rho : Nat → Nat}
      (h : slots[pc]? = some (some ⟨label, .increment register⟩)) :
      Transition ⟨pc, rho⟩ ⟨pc + 1, Function.update rho register (rho register + 1)⟩
  | monus {pc label register : Nat} {rho : Nat → Nat}
      (h : slots[pc]? = some (some ⟨label, .decrement register⟩)) :
      Transition ⟨pc, rho⟩ ⟨pc + 1, Function.update rho register (rho register - 1)⟩
  | copy {pc label dest source : Nat} {rho : Nat → Nat}
      (h : slots[pc]? = some (some ⟨label, .copy dest source⟩)) :
      Transition ⟨pc, rho⟩ ⟨pc + 1, Function.update rho dest (rho source)⟩
  | jump {pc label register ifZero otherwise : Nat} {rho : Nat → Nat}
      (h : slots[pc]? = some (some ⟨label, .branch register ifZero otherwise⟩))
      (ht : target rho register ifZero otherwise ≠ terminal) :
      Transition ⟨pc, rho⟩ ⟨target rho register ifZero otherwise - 1, rho⟩

/-- The states whose transition ends the run. -/
inductive Final : State → Prop
  | stop {pc label : Nat} {rho : Nat → Nat} (h : slots[pc]? = some (some ⟨label, .stop⟩)) :
      Final ⟨pc, rho⟩
  | jump {pc label register ifZero otherwise : Nat} {rho : Nat → Nat}
      (h : slots[pc]? = some (some ⟨label, .branch register ifZero otherwise⟩))
      (ht : target rho register ifZero otherwise = terminal) : Final ⟨pc, rho⟩

/-- The run from a state ends after exactly `n` transitions with the registers `rho`. -/
inductive Ends : State → Nat → (Nat → Nat) → Prop
  | past {rho : Nat → Nat} : Ends ⟨slots.size, rho⟩ 0 rho
  | last {s : State} (h : Final slots terminal s) : Ends s 1 s.rho
  | step {s s' : State} {n : Nat} {rho : Nat → Nat} (h : Transition slots terminal s s')
      (rest : Ends s' n rho) : Ends s (n + 1) rho

end Abstract

open Abstract

variable {slots : Array (Option Instruction)} {terminal : Nat} {c d : Config} {s s' : State}

/-- The machine stands where the abstract one stands, and every register reads the same. -/
structure Represents (c : Config) (s : State) : Prop where
  pc : c.pc = s.pc
  get : ∀ register, c.registers.get register = s.rho register

theorem represents_start (inputs : List Nat) :
    Represents (.start inputs) (Abstract.start inputs) := by
  refine ⟨rfl, fun register => ?_⟩
  simp only [Config.start, Registers.ofInputs, Registers.get, Abstract.start]
  rcases register with _ | _ | k
  · rfl
  · rfl
  · simp

/-- A write to a register is a write to the function that it stands for. -/
theorem get_update_eq {r : Registers} {rho : Nat → Nat}
    (h : ∀ register, r.get register = rho register) {register : Nat} (hr : 1 ≤ register)
    (f : Nat → Nat) (other : Nat) :
    (r.update register f).get other = Function.update rho register (f (rho register)) other := by
  rw [r.get_update hr]
  by_cases e : other = register
  · subst e
    rw [if_pos rfl, Function.update_self, h]
  · rw [if_neg e, Function.update_of_ne e, h]

theorem flow_branch {r : Registers} {rho : Nat → Nat}
    (h : ∀ register, r.get register = rho register) (register ifZero otherwise : Nat) :
    (Op.branch register ifZero otherwise).flow r =
      .jump (target rho register ifZero otherwise) := by
  simp [Op.flow, Registers.isZero, h, target]

/-! ## One turn, one transition -/

/-- An operation that writes one register and goes on is one write to the function. -/
theorem turn_of_write {pc register : Nat} {rho : Nat → Nat} {i : Instruction}
    (h : Represents c ⟨pc, rho⟩) (hs : slots[pc]? = some (some i)) (hr : 1 ≤ register)
    (hflow : i.op.flow c.registers = .next) (f : Nat → Nat)
    (happ : i.op.apply c.registers = c.registers.update register f) :
    ∃ d, c.turn slots terminal = .next d ∧
      Represents d ⟨pc + 1, Function.update rho register (f (rho register))⟩ ∧
      d.steps = c.steps + 1 := by
  have hpc : c.pc = pc := h.pc
  subst hpc
  refine ⟨_, Config.turn_eq_next_iff.2 (.inr ⟨i, hs, .inl ⟨hflow, rfl⟩⟩), ⟨rfl, ?_⟩, rfl⟩
  rw [happ]
  exact get_update_eq h.get hr f

theorem turn_of_transition (hc : Confined slots terminal) (h : Represents c s)
    (ht : Transition slots terminal s s') :
    ∃ d, c.turn slots terminal = .next d ∧ Represents d s' ∧ d.steps = c.steps + 1 := by
  cases ht with
  | @gap pc rho hs =>
    have hpc : c.pc = pc := h.pc
    subst hpc
    exact ⟨_, Config.turn_eq_next_iff.2 (.inl ⟨hs, rfl⟩), ⟨rfl, h.get⟩, rfl⟩
  | @set _ _ _ value _ hs =>
    exact turn_of_write h hs (hc.registers hs _ List.mem_cons_self) rfl (fun _ => value) rfl
  | increment hs =>
    exact turn_of_write h hs (hc.registers hs _ List.mem_cons_self) rfl (· + 1) rfl
  | monus hs =>
    exact turn_of_write h hs (hc.registers hs _ List.mem_cons_self) rfl (· - 1) rfl
  | @copy _ _ _ source rho hs =>
    refine turn_of_write h hs (hc.registers hs _ List.mem_cons_self) rfl (fun _ => rho source) ?_
    have : c.registers.get source = rho source := h.get source
    rw [← this]
    rfl
  | @jump pc _ _ _ _ _ hs hne =>
    have hpc : c.pc = pc := h.pc
    subst hpc
    exact ⟨_, Config.turn_eq_next_iff.2 (.inr ⟨_, hs, .inr ⟨_, flow_branch h.get .., hne, rfl⟩⟩),
      ⟨rfl, h.get⟩, rfl⟩

theorem turn_of_final (h : Represents c s) (hf : Final slots terminal s) :
    c.turn slots terminal = .done ⟨c.pc, c.registers, c.steps + 1⟩ := by
  cases hf with
  | @stop pc _ _ hs =>
    have hpc : c.pc = pc := h.pc
    subst hpc
    exact Config.turn_eq_done_iff.2 (.inr ⟨_, hs, .inl rfl, rfl⟩)
  | @jump pc _ _ _ _ _ hs ht =>
    have hpc : c.pc = pc := h.pc
    subst hpc
    refine Config.turn_eq_done_iff.2 (.inr ⟨_, hs, .inr ?_, rfl⟩)
    rw [← ht]
    exact flow_branch h.get ..

theorem transition_of_turn (hc : Confined slots terminal) (h : Represents c s)
    (ht : c.turn slots terminal = .next d) :
    ∃ s', Transition slots terminal s s' ∧ Represents d s' ∧ d.steps = c.steps + 1 := by
  -- It is enough to name the transition: what it leads to follows from `turn_of_transition`.
  suffices ∃ s', Transition slots terminal s s' by
    obtain ⟨s', hs'⟩ := this
    obtain ⟨d', hd', hrep⟩ := turn_of_transition hc h hs'
    rw [ht] at hd'
    cases hd'
    exact ⟨s', hs', hrep⟩
  obtain ⟨pc, rho⟩ := s
  obtain ⟨hpc, hget⟩ := h
  subst hpc
  rcases Config.turn_eq_next_iff.1 ht with ⟨hs, _⟩ | ⟨⟨label, op⟩, hs, hflow⟩
  · exact ⟨_, .gap hs⟩
  · cases op with
    | set register value => exact ⟨_, .set hs⟩
    | increment register => exact ⟨_, .increment hs⟩
    | decrement register => exact ⟨_, .monus hs⟩
    | copy dest source => exact ⟨_, .copy hs⟩
    | branch register ifZero otherwise =>
      simp only [flow_branch hget] at hflow
      rcases hflow with ⟨hflow, _⟩ | ⟨label, hflow, hne, _⟩
      · cases hflow
      · cases hflow
        exact ⟨_, .jump hs hne⟩
    | stop => rcases hflow with ⟨hflow, _⟩ | ⟨label, hflow, _⟩ <;> cases hflow

theorem final_of_turn (h : Represents c s) (ht : c.turn slots terminal = .done d) :
    (slots[c.pc]? = none ∧ c = d) ∨
      (Final slots terminal s ∧ d = ⟨c.pc, c.registers, c.steps + 1⟩) := by
  obtain ⟨pc, rho⟩ := s
  obtain ⟨hpc, hget⟩ := h
  subst hpc
  rcases Config.turn_eq_done_iff.1 ht with hpast | ⟨⟨label, op⟩, hs, hop, rfl⟩
  · exact .inl hpast
  · refine .inr ⟨?_, rfl⟩
    rcases hop with hop | hop
    · cases hop
      exact .stop hs
    · cases op with
      | branch register ifZero otherwise =>
        rw [flow_branch hget] at hop
        exact .jump hs (Flow.jump.inj hop)
      | _ => cases hop

/-! ## Whole runs -/

/-- Where there is no slot, the abstract machine stands at the end of the slots. -/
theorem Represents.pc_eq_size (h : Represents c s) (hpc : c.pc ≤ slots.size)
    (hnone : slots[c.pc]? = none) : s.pc = slots.size := by
  rw [← h.pc]
  exact Nat.le_antisymm hpc (Array.getElem?_eq_none_iff.1 hnone)

theorem abstract_of_ends (hc : Confined slots terminal) (h : Config.Ends slots terminal c d)
    (hpc : c.pc ≤ slots.size) (hrep : Represents c s) :
    ∃ n rho, Abstract.Ends slots terminal s n rho ∧ d.steps = c.steps + n ∧
      ∀ register, d.registers.get register = rho register := by
  induction h generalizing s with
  | @done c d ht =>
    rcases final_of_turn hrep ht with ⟨hnone, rfl⟩ | ⟨hf, rfl⟩
    · obtain ⟨pc, rho⟩ := s
      obtain rfl : pc = slots.size := hrep.pc_eq_size hpc hnone
      exact ⟨0, rho, .past, rfl, hrep.get⟩
    · exact ⟨1, s.rho, .last hf, rfl, hrep.get⟩
  | next ht _ ih =>
    obtain ⟨s', hs', hrep', hsteps⟩ := transition_of_turn hc hrep ht
    obtain ⟨n, rho, hends, hn, hget⟩ := ih (hc.pc_le ht) hrep'
    exact ⟨n + 1, rho, .step hs' hends, by omega, hget⟩

theorem ends_of_abstract (hc : Confined slots terminal) {n : Nat} {rho : Nat → Nat}
    (h : Abstract.Ends slots terminal s n rho) (hrep : Represents c s) :
    ∃ d, Config.Ends slots terminal c d ∧ d.steps = c.steps + n ∧
      ∀ register, d.registers.get register = rho register := by
  induction h generalizing c with
  | past =>
    refine ⟨c, .done (Config.turn_eq_done_iff.2 (.inl ⟨?_, rfl⟩)), rfl, hrep.get⟩
    rw [hrep.pc]
    exact Array.getElem?_eq_none (Nat.le_refl _)
  | last hf => exact ⟨_, .done (turn_of_final hrep hf), rfl, hrep.get⟩
  | step ht _ ih =>
    obtain ⟨c', hc', hrep', hsteps⟩ := turn_of_transition hc hrep ht
    obtain ⟨d, hends, hn, hget⟩ := ih hrep'
    exact ⟨d, .next hc' hends, by omega, hget⟩

theorem Registers.cells_eq {r : Registers} {rho : Nat → Nat}
    (h : ∀ register, r.get register = rho register) :
    (∀ i (hi : i < r.cells.size), r.cells[i] = rho (i + 1)) ∧
      ∀ j, r.cells.size < j → rho j = 0 := by
  constructor
  · intro i hi
    rw [← h (i + 1)]
    simp [Registers.get, hi]
  · intro j hj
    rw [← h j]
    exact r.get_of_size_lt hj

/-- **The machine refines the abstract register machine.**  A run halts with an output and a step
count exactly if the abstract run ends after that many transitions with that value in register 1.
The cells are then the abstract registers from 1 on, and all registers behind the last cell are
zero. -/
theorem run_refines_abstract {p : Program} {is : List Instruction} (hp : p.Built is) {v : Validated}
    (hv : p.validate = .ok v) (m : Machine) (inputs : List Nat) (output steps : Nat) :
    ((∃ r, m.Halts p inputs r ∧ r.output = output ∧ r.machine.steps = steps) ↔
      ∃ rho, Abstract.Ends v.program.slots v.terminal (Abstract.start inputs) steps rho ∧
        rho 1 = output) ∧
    ∀ r n rho, m.Halts p inputs r →
      Abstract.Ends v.program.slots v.terminal (Abstract.start inputs) n rho →
      n = r.machine.steps ∧
      (∀ i (hi : i < r.machine.registers.cells.size), r.machine.registers.cells[i] = rho (i + 1)) ∧
      ∀ j, r.machine.registers.cells.size < j → rho j = 0 := by
  have hc := hp.confined hv
  refine ⟨⟨?_, ?_⟩, ?_⟩
  · rintro ⟨r, hr, rfl, rfl⟩
    obtain ⟨d, hd, hm⟩ := hr.ends_of_validate hv
    obtain ⟨n, rho, hends, hn, hget⟩ :=
      abstract_of_ends hc hd (Nat.zero_le _) (represents_start inputs)
    obtain rfl : d.steps = n := by rw [hn]; exact Nat.zero_add n
    refine ⟨rho, by rw [hm]; exact hends, ?_⟩
    rw [Run.output, hm]
    exact (hget 1).symm
  · rintro ⟨rho, hends, rfl⟩
    obtain ⟨d, hd, hn, hget⟩ := ends_of_abstract hc hends (represents_start inputs)
    obtain ⟨r, hr, _, hm⟩ := m.halts_of_ends hv hd
    refine ⟨r, hr, ?_, ?_⟩
    · rw [Run.output, hm]
      exact hget 1
    · rw [hm]
      exact hn.trans (Nat.zero_add steps)
  · intro r n rho hr hends
    obtain ⟨d, hd, hm⟩ := hr.ends_of_validate hv
    obtain ⟨d', hd', hn, hget⟩ := ends_of_abstract hc hends (represents_start inputs)
    cases hd.unique hd'
    rw [hm]
    exact ⟨(hn.trans (Nat.zero_add n)).symm, Registers.cells_eq hget⟩

/-- A jump into a gap, and an end at the stop that the check put behind it. -/
theorem sparse_run_refines_abstract :
    ∃ v, (Program.ofList [⟨1, .increment 1⟩, ⟨2, .branch 2 4 3⟩, ⟨5, .copy 1 2⟩]).validate = .ok v ∧
      ∃ rho, Abstract.Ends v.program.slots v.terminal (Abstract.start [7]) 4 rho ∧ rho 1 = 1 := by
  have hp : Program.Built _ [⟨1, .increment 1⟩, ⟨2, .branch 2 4 3⟩, ⟨5, .copy 1 2⟩] :=
    .ofList (by decide)
  refine ⟨_, rfl, (run_refines_abstract hp rfl (.new true) [7] 1 4).1.1 ?_⟩
  exact ⟨_, ⟨4, rfl⟩, rfl, rfl⟩

end RegisterMachine
