import RegisterMachine.Proofs.AbstractMachine

/-!
# Registers that no instruction mentions

Two runs of one program are compared.  Their registers agree where some instruction mentions them,
and may differ everywhere else.

* `Program.Mentions p x` — some stored instruction names register `x`; `Tidy.mentions_of_withStop` —
  a check adds nothing to these.
* `Op.effect` — what an operation does to a total function of registers; `Op.get_apply` — the
  register file follows it.
* `Config.AgreeOn M c d` — `c` and `d` stand at the same slot after as many steps, with the same
  values where `M` holds.  `AgreeOn.next`, `AgreeOn.done` — one turn keeps that; `AgreeOn.ends` — so
  both runs end, or none does.
* `get_of_next`, `get_of_ends` — the registers outside `M` keep their values, turn by turn and over
  a whole run.

Principal result: `unmentioned_registers_have_no_influence` — inputs that agree on the mentioned
registers lead to runs that agree on them, in step counts and in results, and leave every other
register as it was.
-/

set_option autoImplicit false

namespace RegisterMachine

variable {slots : Array (Option Instruction)} {terminal : Nat} {c c' d : Config} {M : Nat → Prop}

/-! ## Operations -/

namespace Op

variable {op : Op} {r s : Registers}

/-- The registers after the operation, as a function. -/
def effect (op : Op) (rho : Nat → Nat) : Nat → Nat :=
  match op with
  | set register value => Function.update rho register value
  | increment register => Function.update rho register (rho register + 1)
  | decrement register => Function.update rho register (rho register - 1)
  | copy dest source => Function.update rho dest (rho source)
  | branch .. => rho
  | stop => rho

/-- A register file follows the function that it stands for. -/
theorem get_apply (h : ∀ x ∈ op.registers, 1 ≤ x) (r : Registers) (x : Nat) :
    (op.apply r).get x = op.effect r.get x := by
  have write {register : Nat} (hr : register ∈ op.registers) (f : Nat → Nat) :
      (r.update register f).get x = Function.update r.get register (f (r.get register)) x :=
    get_update_eq (fun _ => rfl) (h register hr) f x
  cases op with
  | set register value => exact write List.mem_cons_self fun _ => value
  | increment register => exact write List.mem_cons_self (· + 1)
  | decrement register => exact write List.mem_cons_self (· - 1)
  | copy dest source => exact write List.mem_cons_self fun _ => r.get source
  | branch register ifZero otherwise => rfl
  | stop => rfl

/-- What an operation writes depends on the registers that it names. -/
theorem effect_congr {rho sigma : Nat → Nat} (hM : ∀ x ∈ op.registers, M x)
    (h : ∀ x, M x → rho x = sigma x) {x : Nat} (hx : M x) :
    op.effect rho x = op.effect sigma x := by
  cases op with
  | branch register ifZero otherwise => exact h x hx
  | stop => exact h x hx
  | _ =>
    simp only [registers, List.forall_mem_cons] at hM
    simp only [effect, Function.update_apply]
    split <;> simp [h, hM, hx]

/-- Where control goes depends on the registers that the operation names. -/
theorem flow_congr (h : ∀ x ∈ op.registers, r.get x = s.get x) : op.flow r = op.flow s := by
  cases op <;> simp_all [flow, registers, Registers.isZero]

/-- An operation leaves the registers alone that it does not name. -/
theorem effect_of_notMem {x : Nat} (hx : x ∉ op.registers) (rho : Nat → Nat) :
    op.effect rho x = rho x := by
  cases op <;> simp_all [effect, registers, Function.update_of_ne]

end Op

/-! ## Two runs of the same slots -/

namespace Config

/-- Same slot, same number of steps, and the same values where `M` holds. -/
structure AgreeOn (M : Nat → Prop) (c d : Config) : Prop where
  pc : c.pc = d.pc
  steps : c.steps = d.steps
  registers : ∀ x, M x → c.registers.get x = d.registers.get x

theorem AgreeOn.symm (h : AgreeOn M c d) : AgreeOn M d c :=
  ⟨h.pc.symm, h.steps.symm, fun x hx => (h.registers x hx).symm⟩

/-- Every register that an instruction names is in `M`. -/
def Covers (M : Nat → Prop) (slots : Array (Option Instruction)) : Prop :=
  ∀ (k : Nat) (i : Instruction), slots[k]? = some (some i) → ∀ x ∈ i.op.registers, M x

/-- **A turn that goes on goes on in both runs.** -/
theorem AgreeOn.next (h : AgreeOn M c d) (hc : Confined slots terminal) (hM : Covers M slots)
    (ht : c.turn slots terminal = .next c') :
    ∃ d', d.turn slots terminal = .next d' ∧ AgreeOn M c' d' := by
  obtain ⟨hpc, hsteps, hregs⟩ := h
  have hflow {i : Instruction} (hs : slots[c.pc]? = some (some i)) :
      i.op.flow c.registers = i.op.flow d.registers :=
    Op.flow_congr fun x hx => hregs x (hM _ i hs x hx)
  rcases turn_eq_next_iff.1 ht with ⟨hs, rfl⟩ | ⟨i, hs, ⟨hf, rfl⟩ | ⟨label, hf, hne, rfl⟩⟩
  · exact ⟨_, turn_eq_next_iff.2 (.inl ⟨hpc ▸ hs, rfl⟩), by simp [hpc], by simp [hsteps], hregs⟩
  · refine ⟨_, turn_eq_next_iff.2 (.inr ⟨i, hpc ▸ hs, .inl ⟨hflow hs ▸ hf, rfl⟩⟩), by simp [hpc],
      by simp [hsteps], fun x hx => ?_⟩
    simp only [Op.get_apply (hc.registers hs)]
    exact Op.effect_congr (hM _ i hs) hregs hx
  · exact ⟨_, turn_eq_next_iff.2 (.inr ⟨i, hpc ▸ hs, .inr ⟨label, hflow hs ▸ hf, hne, rfl⟩⟩), rfl,
      by simp [hsteps], hregs⟩

/-- **A turn that ends the run ends both runs.** -/
theorem AgreeOn.done (h : AgreeOn M c d) (hM : Covers M slots)
    (ht : c.turn slots terminal = .done c') :
    ∃ d', d.turn slots terminal = .done d' ∧ AgreeOn M c' d' := by
  obtain ⟨hpc, hsteps, hregs⟩ := h
  rcases turn_eq_done_iff.1 ht with ⟨hs, rfl⟩ | ⟨i, hs, hop, rfl⟩
  · exact ⟨d, turn_eq_done_iff.2 (.inl ⟨hpc ▸ hs, rfl⟩), hpc, hsteps, hregs⟩
  · rw [Op.flow_congr fun x hx => hregs x (hM _ i hs x hx)] at hop
    exact ⟨_, turn_eq_done_iff.2 (.inr ⟨i, hpc ▸ hs, hop, rfl⟩), hpc, by simp [hsteps], hregs⟩

/-- **Both runs end, and they end alike.** -/
theorem AgreeOn.ends (h : AgreeOn M c d) (hc : Confined slots terminal) (hM : Covers M slots)
    (he : Ends slots terminal c c') : ∃ d', Ends slots terminal d d' ∧ AgreeOn M c' d' := by
  induction he generalizing d with
  | done ht =>
    obtain ⟨d', hd, hagree⟩ := h.done hM ht
    exact ⟨d', .done hd, hagree⟩
  | next ht _ ih =>
    obtain ⟨b, hb, hagree⟩ := h.next hc hM ht
    obtain ⟨d', hd, hend⟩ := ih hagree
    exact ⟨d', .next hb hd, hend⟩

/-! ## The registers outside -/

theorem get_of_next (hc : Confined slots terminal) (hM : Covers M slots)
    (ht : c.turn slots terminal = .next d) {x : Nat} (hx : ¬ M x) :
    d.registers.get x = c.registers.get x := by
  rcases turn_eq_next_iff.1 ht with ⟨_, rfl⟩ | ⟨i, hs, ⟨_, rfl⟩ | ⟨_, _, _, rfl⟩⟩
  · rfl
  · have hnot : x ∉ i.op.registers := fun hmem => hx (hM _ i hs x hmem)
    simp only [Op.get_apply (hc.registers hs), Op.effect_of_notMem hnot]
  · rfl

/-- **A run leaves the registers alone that no instruction names.** -/
theorem get_of_ends (hc : Confined slots terminal) (hM : Covers M slots)
    (he : Ends slots terminal c d) {x : Nat} (hx : ¬ M x) :
    d.registers.get x = c.registers.get x := by
  induction he with
  | done ht =>
    rcases turn_eq_done_iff.1 ht with ⟨_, rfl⟩ | ⟨_, _, _, rfl⟩ <;> rfl
  | next ht _ ih => rw [ih, get_of_next hc hM ht hx]

end Config

/-! ## Programs -/

namespace Program

variable {p : Program} {is : List Instruction} {v : Validated}

/-- Some stored instruction names the register. -/
def Mentions (p : Program) (register : Nat) : Prop :=
  ∃ i ∈ p.instructions, register ∈ i.op.registers

instance (p : Program) (register : Nat) : Decidable (p.Mentions register) :=
  inferInstanceAs (Decidable (∃ i ∈ p.instructions, register ∈ i.op.registers))

theorem Tidy.mentions_of_withStop (h : p.Tidy) {x : Nat} (hx : p.withStop.Mentions x) :
    p.Mentions x := by
  obtain ⟨i, hi, hx⟩ := hx
  rcases h.mem_instructions_withStop hi with hi | rfl
  · exact ⟨i, hi, hx⟩
  · cases hx

theorem Built.covers (hp : p.Built is) (hv : p.validate = .ok v) :
    Config.Covers p.Mentions v.program.slots := by
  obtain ⟨_, rfl⟩ := validate_eq_ok_iff.1 hv
  intro k i hs x hx
  exact hp.tidy.mentions_of_withStop ⟨i, mem_instructions.2 ⟨k, hs⟩, hx⟩

end Program

/-- A program that halts halts from every start that agrees on what it mentions. -/
theorem Config.AgreeOn.halts {p : Program} {is : List Instruction} {v : Validated}
    {inputs inputs' : List Nat} (h : AgreeOn p.Mentions (.start inputs) (.start inputs'))
    (hp : p.Built is) (hv : p.validate = .ok v) {m : Machine} {r : Run} (hr : m.Halts p inputs r)
    (m' : Machine) : ∃ r', m'.Halts p inputs' r' := by
  obtain ⟨d, hd, _⟩ := hr.ends_of_validate hv
  obtain ⟨d', hd', _⟩ := h.ends (hp.confined hv) (hp.covers hv) hd
  obtain ⟨r', hr', _⟩ := m'.halts_of_ends hv hd'
  exact ⟨r', hr'⟩

/-- The values that a run starts from. -/
theorem get_start (inputs : List Nat) (x : Nat) :
    (Config.start inputs).registers.get x = (Abstract.start inputs).rho x :=
  (represents_start inputs).get x

/-- **Registers that no instruction mentions have no influence.**  Take two lists of inputs, of any
lengths, that give every mentioned register the same value at the start: the inputs from `x2` on,
and zero elsewhere.  Then the program halts on one of them exactly if it halts on the other, on
whatever machines.  Both runs have the same result and take as many steps.  Every mentioned register
ends with the same value in both, and every other one holds what it held at the start. -/
theorem unmentioned_registers_have_no_influence {p : Program} {is : List Instruction}
    (hp : p.Built is) {v : Validated} (hv : p.validate = .ok v) (m m' : Machine)
    {inputs inputs' : List Nat}
    (hagree : ∀ x, p.Mentions x → (Abstract.start inputs).rho x = (Abstract.start inputs').rho x) :
    ((∃ r, m.Halts p inputs r) ↔ ∃ r, m'.Halts p inputs' r) ∧
    ∀ r r', m.Halts p inputs r → m'.Halts p inputs' r' →
      r.output = r'.output ∧ r.machine.steps = r'.machine.steps ∧
      (∀ x, p.Mentions x → r.machine.registers.get x = r'.machine.registers.get x) ∧
      ∀ x, ¬ p.Mentions x →
        r.machine.registers.get x = (Abstract.start inputs).rho x ∧
        r'.machine.registers.get x = (Abstract.start inputs').rho x := by
  have hc := hp.confined hv
  have hM := hp.covers hv
  have hstart : Config.AgreeOn p.Mentions (.start inputs) (.start inputs') := by
    refine ⟨rfl, rfl, fun x hx => ?_⟩
    rw [get_start, get_start]
    exact hagree x hx
  refine ⟨⟨?_, ?_⟩, ?_⟩
  · rintro ⟨r, hr⟩
    exact hstart.halts hp hv hr m'
  · rintro ⟨r', hr'⟩
    exact hstart.symm.halts hp hv hr' m
  · intro r r' hr hr'
    obtain ⟨d, hd, hm⟩ := hr.ends_of_validate hv
    obtain ⟨d', hd', hm'⟩ := hr'.ends_of_validate hv
    obtain ⟨e, he, _, hsteps, hregs⟩ := hstart.ends hc hM hd
    obtain rfl := hd'.unique he
    have hkept {x : Nat} (hx : ¬ p.Mentions x) :
        d.registers.get x = (Abstract.start inputs).rho x ∧
        d'.registers.get x = (Abstract.start inputs').rho x := by
      rw [Config.get_of_ends hc hM hd hx, Config.get_of_ends hc hM hd' hx, get_start, get_start]
      exact ⟨rfl, rfl⟩
    rw [Run.output, Run.output, hm, hm']
    refine ⟨?_, hsteps, hregs, fun x => hkept⟩
    -- the result is zero in both runs if nothing writes it
    show d.registers.get 1 = d'.registers.get 1
    by_cases h1 : p.Mentions 1
    · exact hregs 1 h1
    · obtain ⟨hd1, hd1'⟩ := hkept h1
      rw [hd1, hd1']
      rfl

/-- `x3` counts `x4` down to zero.  `x9` is tested and never written. -/
def countdown : Program :=
  .ofList [⟨1, .branch 4 5 2⟩, ⟨2, .increment 3⟩, ⟨3, .decrement 4⟩, ⟨4, .branch 9 1 1⟩]

/-- The second run has another value in `x2`, and values in `x5` and `x6`. -/
theorem countdown_ignores_other_inputs :
    ∃ r r', (Machine.new false).Halts countdown [7, 1, 2] r ∧
      (Machine.new true).Halts countdown [100, 1, 2, 8, 9] r' ∧
      r.machine.steps = 9 ∧ r'.machine.steps = 9 ∧
      r.machine.registers.get 3 = 3 ∧ r'.machine.registers.get 3 = 3 ∧
      r.machine.registers.get 2 = 7 ∧ r'.machine.registers.get 2 = 100 := by
  have hp : countdown.Built _ := .ofList (by decide)
  have hagree : ∀ i ∈ countdown.instructions, ∀ x ∈ i.op.registers,
      (Abstract.start [7, 1, 2]).rho x = (Abstract.start [100, 1, 2, 8, 9]).rho x := by decide
  obtain ⟨hiff, hboth⟩ := unmentioned_registers_have_no_influence hp rfl (.new false) (.new true)
    fun x ⟨i, hi, hx⟩ => hagree i hi x hx
  have hr : (Machine.new false).Halts countdown [7, 1, 2] _ := ⟨9, rfl⟩
  obtain ⟨r', hr'⟩ := hiff.1 ⟨_, hr⟩
  obtain ⟨_, hsteps, hsame, hother⟩ := hboth _ r' hr hr'
  refine ⟨_, r', hr, hr', rfl, hsteps.symm, rfl, ?_, rfl, ?_⟩
  · exact (hsame 3 (by decide)).symm
  · exact (hother 2 (by decide)).2

end RegisterMachine
