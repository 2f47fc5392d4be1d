import Mathlib.Order.Interval.Finset.Nat
import RegisterMachine.Proofs.AbstractMachine
import RegisterMachine.Proofs.DecodedRuns

/-!
# Programs without gaps

If the labels of the caller are exactly `1 … N`, the terminal label is `N + 1` and a stop that a
check adds can only stand there, whatever the history.  Then the rules about the terminal label and
the added stop say no more than the plain machine does, which ends at a stop or when it walks past
the last instruction.

* `callerCode is N` — the caller's instructions under the labels `1 … N`.
* `Plain.step`, `Plain.Ends` — the plain machine on a list of instructions.
* `Built.implicitStop_le` — an added stop stands at most one label behind those of the caller.
* `Dense slots code` — the slots hold the code and at most a stop behind it; `Built.dense`.
* `plain_of_abstract`, `abstract_of_plain` — on such slots the plain machine and the abstract
  machine agree, under every terminal label behind the code.
* `Ends.later_of_stop` — a larger terminal label costs a run that was left by a jump one more step.

Principal result: `gap_free_runs_agree` — the plain machine, the run of a program, and the run of
what is decoded from its numbers halt together with the same registers; and which of the runs takes
one step more.
-/

set_option autoImplicit false

namespace RegisterMachine

/-- The caller's instructions under the labels `1 … n`, in this order. -/
def callerCode (is : List Instruction) (n : Nat) : List Instruction :=
  (List.range n).filterMap fun k => latest is (k + 1)

namespace Plain

open Abstract

/-- One transition of the plain machine.  There is none at a stop or behind the last instruction. -/
def step (code : List Instruction) (s : State) : Option State :=
  match code[s.pc]? with
  | none => none
  | some i =>
      match i.op with
      | .set register value => some ⟨s.pc + 1, Function.update s.rho register value⟩
      | .increment register => some ⟨s.pc + 1, Function.update s.rho register (s.rho register + 1)⟩
      | .decrement register => some ⟨s.pc + 1, Function.update s.rho register (s.rho register - 1)⟩
      | .copy dest source => some ⟨s.pc + 1, Function.update s.rho dest (s.rho source)⟩
      | .branch register ifZero otherwise =>
          some ⟨(if s.rho register = 0 then ifZero else otherwise) - 1, s.rho⟩
      | .stop => none

/-- From a state the plain machine ends with the registers `rho`. -/
inductive Ends (code : List Instruction) : State → (Nat → Nat) → Prop
  | halted {s : State} (h : step code s = none) : Ends code s s.rho
  | step {s s' : State} {rho : Nat → Nat} (h : step code s = some s') (rest : Ends code s' rho) :
      Ends code s rho

end Plain

open Abstract

/-! ## Slots that hold a list of instructions -/

/-- The slots hold `code` from label 1 on, and behind it a stop or nothing.  Jumps go to the code or
right behind it. -/
structure Dense (slots : Array (Option Instruction)) (code : List Instruction) : Prop where
  inside : ∀ {k : Nat} {i : Instruction}, code[k]? = some i → slots[k]? = some (some i)
  behind : ∀ {k : Nat} {slot : Option Instruction}, slots[k]? = some slot → code.length ≤ k →
    k = code.length ∧ ∃ label, slot = some ⟨label, .stop⟩
  targets : ∀ {k : Nat} {i : Instruction}, code[k]? = some i →
    ∀ t ∈ i.op.targets, t ≤ code.length + 1

variable {slots : Array (Option Instruction)} {code : List Instruction} {terminal : Nat}
  {s s' : State} {rho : Nat → Nat}

namespace Dense

theorem length_le_size (h : Dense slots code) : code.length ≤ slots.size := by
  by_contra hlt
  have hslot := h.inside (List.getElem?_eq_getElem (show slots.size < code.length by omega))
  rw [Array.getElem?_eq_none (Nat.le_refl _)] at hslot
  cases hslot

/-- A slot holds an instruction of the code, or the stop behind it. -/
theorem slot_cases (h : Dense slots code) {k : Nat} {slot : Option Instruction}
    (hs : slots[k]? = some slot) :
    (∃ i, slot = some i ∧ code[k]? = some i) ∨
      k = code.length ∧ ∃ label, slot = some ⟨label, .stop⟩ := by
  by_cases hk : k < code.length
  · have hcode : code[k]? = some code[k] := List.getElem?_eq_getElem hk
    have hslot := h.inside hcode
    rw [hs] at hslot
    exact .inl ⟨code[k], Option.some.inj hslot, hcode⟩
  · exact .inr (h.behind hs (by omega))

/-- An instruction that goes on is one of the code. -/
theorem code_of_slot (h : Dense slots code) {k : Nat} {i : Instruction}
    (hs : slots[k]? = some (some i)) (hi : i.op ≠ .stop) : code[k]? = some i := by
  rcases h.slot_cases hs with ⟨j, hj, hcode⟩ | ⟨_, label, hlabel⟩
  · rw [hcode, Option.some.inj hj]
  · cases hlabel
    exact absurd rfl hi

end Dense

/-! ## One transition -/

theorem plain_step_eq_none (h : code.length ≤ s.pc) : Plain.step code s = none := by
  simp [Plain.step, h]

theorem plain_halted_cases (h : Plain.step code s = none) :
    code.length ≤ s.pc ∨ ∃ label, code[s.pc]? = some ⟨label, .stop⟩ := by
  cases hcode : code[s.pc]? with
  | none => exact .inl (List.getElem?_eq_none_iff.1 hcode)
  | some i =>
    obtain ⟨label, op⟩ := i
    cases op with
    | stop => exact .inr ⟨label, rfl⟩
    | _ => simp [Plain.step, hcode] at h

/-- A transition of the abstract machine is one of the plain machine, and control stays at most
right behind the code. -/
theorem plain_step_of_transition (h : Dense slots code) (ht : Transition slots terminal s s') :
    Plain.step code s = some s' ∧ s'.pc ≤ code.length := by
  have inside : ∀ {pc : Nat} {i : Instruction}, slots[pc]? = some (some i) → i.op ≠ .stop →
      code[pc]? = some i ∧ pc + 1 ≤ code.length := by
    intro pc i hs hi
    have hcode := h.code_of_slot hs hi
    exact ⟨hcode, (List.getElem?_eq_some_iff.1 hcode).1⟩
  cases ht with
  | gap hs =>
    rcases h.slot_cases hs with ⟨i, hi, _⟩ | ⟨_, label, hlabel⟩
    · cases hi
    · cases hlabel
  | set hs => obtain ⟨hcode, hle⟩ := inside hs (by simp); simp [Plain.step, hcode, hle]
  | increment hs => obtain ⟨hcode, hle⟩ := inside hs (by simp); simp [Plain.step, hcode, hle]
  | monus hs => obtain ⟨hcode, hle⟩ := inside hs (by simp); simp [Plain.step, hcode, hle]
  | copy hs => obtain ⟨hcode, hle⟩ := inside hs (by simp); simp [Plain.step, hcode, hle]
  | @jump pc label register ifZero otherwise rho hs hne =>
    obtain ⟨hcode, _⟩ := inside hs (by simp)
    have htarget := h.targets hcode
    simp only [Op.targets, List.mem_cons, List.not_mem_nil, or_false, forall_eq_or_imp,
      forall_eq] at htarget
    refine ⟨by simp [Plain.step, hcode, target], ?_⟩
    simp only [target]
    split <;> omega

/-- Where the abstract machine ends, the plain machine halts or is one jump away from it. -/
theorem plain_ends_of_final (h : Dense slots code) (hU : code.length < terminal)
    (hf : Final slots terminal s) : Plain.Ends code s s.rho := by
  cases hf with
  | stop hs =>
    refine .halted ?_
    rcases h.slot_cases hs with ⟨i, hi, hcode⟩ | ⟨hk, _⟩
    · cases hi
      simp [Plain.step, hcode]
    · simp [Plain.step, hk]
  | @jump pc label register ifZero otherwise rho hs ht =>
    have hcode := h.code_of_slot hs (by simp)
    have hstep : Plain.step code ⟨pc, rho⟩ = some ⟨terminal - 1, rho⟩ := by
      simp [Plain.step, hcode, ← ht, target]
    exact .step hstep (.halted (plain_step_eq_none (by simp; omega)))

/-- A transition of the plain machine is one of the abstract machine, or a jump that ends both
runs. -/
theorem transition_of_plain_step (h : Dense slots code) (hU : code.length < terminal)
    (hs : Plain.step code s = some s') :
    Transition slots terminal s s' ∨
      Final slots terminal s ∧ s'.rho = s.rho ∧ Plain.step code s' = none := by
  obtain ⟨pc, rho⟩ := s
  cases hcode : code[pc]? with
  | none => simp [Plain.step, hcode] at hs
  | some i =>
    obtain ⟨label, op⟩ := i
    have hslot := h.inside hcode
    cases op with
    | set register value =>
      simp only [Plain.step, hcode, Option.some.injEq] at hs
      exact .inl (hs ▸ .set hslot)
    | increment register =>
      simp only [Plain.step, hcode, Option.some.injEq] at hs
      exact .inl (hs ▸ .increment hslot)
    | decrement register =>
      simp only [Plain.step, hcode, Option.some.injEq] at hs
      exact .inl (hs ▸ .monus hslot)
    | copy dest source =>
      simp only [Plain.step, hcode, Option.some.injEq] at hs
      exact .inl (hs ▸ .copy hslot)
    | branch register ifZero otherwise =>
      simp only [Plain.step, hcode, Option.some.injEq] at hs
      subst hs
      by_cases ht : target rho register ifZero otherwise = terminal
      · refine .inr ⟨.jump hslot ht, rfl, plain_step_eq_none ?_⟩
        unfold target at ht
        simp only [ht]
        omega
      · exact .inl (.jump hslot ht)
    | stop => simp [Plain.step, hcode] at hs

/-! ## Whole runs -/

theorem plain_of_abstract (h : Dense slots code) (hU : code.length < terminal) {n : Nat}
    (he : Abstract.Ends slots terminal s n rho) : Plain.Ends code s rho := by
  induction he with
  | past => exact .halted (plain_step_eq_none h.length_le_size)
  | last hf => exact plain_ends_of_final h hU hf
  | step ht _ ih => exact .step (plain_step_of_transition h ht).1 ih

theorem abstract_of_plain (h : Dense slots code) (hU : code.length < terminal)
    (he : Plain.Ends code s rho) (hpc : s.pc ≤ code.length) :
    ∃ n, Abstract.Ends slots terminal s n rho := by
  induction he with
  | @halted s hs =>
    obtain ⟨pc, rho⟩ := s
    rcases plain_halted_cases hs with hle | ⟨label, hcode⟩
    · -- control stands right behind the code, where the slots end or hold a stop
      obtain rfl : pc = code.length := Nat.le_antisymm hpc hle
      cases hslot : slots[code.length]? with
      | none =>
        have hsize : slots.size = code.length :=
          Nat.le_antisymm (Array.getElem?_eq_none_iff.1 hslot) h.length_le_size
        exact ⟨0, hsize ▸ .past⟩
      | some slot =>
        obtain ⟨_, label, rfl⟩ := h.behind hslot (Nat.le_refl _)
        exact ⟨1, .last (.stop hslot)⟩
    · exact ⟨1, .last (.stop (h.inside hcode))⟩
  | @step s s' rho hs rest ih =>
    rcases transition_of_plain_step h hU hs with ht | ⟨hf, hrho, hhalted⟩
    · obtain ⟨n, hn⟩ := ih (plain_step_of_transition h ht).2
      exact ⟨n + 1, .step ht hn⟩
    · cases rest with
      | halted _ => exact ⟨1, hrho ▸ .last hf⟩
      | step hs' _ =>
        rw [hhalted] at hs'
        cases hs'

/-- **The plain machine and runs of dense slots.** -/
theorem plain_ends_iff {inputs : List Nat} (h : Dense slots code) (hU : code.length < terminal)
    (hc : Confined slots terminal) :
    Plain.Ends code (Abstract.start inputs) rho ↔
      ∃ d, Config.Ends slots terminal (.start inputs) d ∧ d.registers.get = rho := by
  constructor
  · intro he
    obtain ⟨n, hn⟩ := abstract_of_plain h hU he (Nat.zero_le _)
    obtain ⟨d, hd, _, hget⟩ := ends_of_abstract hc hn (represents_start inputs)
    exact ⟨d, hd, funext hget⟩
  · rintro ⟨d, hd, rfl⟩
    obtain ⟨n, rho, hn, _, hget⟩ := abstract_of_ends hc hd (Nat.zero_le _) (represents_start inputs)
    obtain rfl : rho = d.registers.get := funext fun register => (hget register).symm
    exact plain_of_abstract h hU hn

/-- **A larger terminal label costs a run that was left by a jump one more step,** if there is a
stop under the smaller one. -/
theorem Config.Ends.later_of_stop {T U label : Nat} {c d : Config} (hb : Below slots T)
    (hlt : T < U) (hs : slots[T - 1]? = some (some ⟨label, .stop⟩)) (h : Ends slots T c d) :
    Ends slots U c (if d.exit slots = .jump then ⟨T - 1, d.registers, d.steps + 1⟩ else d) := by
  rw [h.later_iff hb hlt]
  split
  · exact .done (turn_eq_done_iff.2 (.inr ⟨_, hs, .inl rfl, rfl⟩))
  · rfl

/-! ## The slots of a program without gaps -/

namespace Program

variable {p : Program} {is : List Instruction} {v : Validated} {N B : Nat}

theorem Follows.size_slots_le (h : p.Follows is) (hB : ∀ i ∈ is, i.label ≤ B)
    (hnone : p.implicitStop = none) : p.slots.size ≤ B := by
  by_cases hs : p.slots.size = 0
  · omega
  · obtain ⟨i, hi⟩ := h.tidy.get?_size hs
    rw [h.get, implicitAt, hnone, if_neg (by simp), Option.or_none] at hi
    obtain ⟨hmem, hlabel⟩ := label_of_latest hi
    have := hB i hmem
    omega

/-- **An added stop stands at most one label behind those of the caller,** whatever the history. -/
theorem Built.implicitStop_le (h : p.Built is) (hB : ∀ i ∈ is, i.label ≤ B) {label : Nat}
    (hl : p.implicitStop = some label) : label ≤ B + 1 := by
  induction h with
  | empty => cases hl
  | @add p is i h _ ih =>
    have hl : p.implicitStop = some label := by
      simp only [Program.add] at hl
      split at hl
      · cases hl
      · exact hl
    exact ih (fun j hj => hB j (List.mem_append_left _ hj)) hl
  | @check p is v h hv ih =>
    obtain ⟨_, rfl⟩ := validate_eq_ok_iff.1 hv
    cases hs : p.stopLabels with
    | cons stop others =>
      have heq : p.withStop = p := withStop_of_mem (hs ▸ List.mem_cons_self)
      exact ih hB (heq ▸ hl)
    | nil =>
      have hplace : label = p.stopPlace := by
        rw [implicitStop_withStop hs] at hl
        exact (Option.some.inj hl).symm
      have hsize := h.follows.size_slots_le hB (h.follows.implicitStop_eq_none hs)
      have := p.stopPlace_le
      omega

theorem latest_ne_none_iff (hN : labelSet is = Finset.Icc 1 N) {label : Nat} :
    latest is label ≠ none ↔ 1 ≤ label ∧ label ≤ N := by
  rw [← mem_labelSet, hN, Finset.mem_Icc]

theorem map_some_filterMap {α β : Type} {f : α → Option β} {xs : List α}
    (h : ∀ x ∈ xs, f x ≠ none) :
    (xs.filterMap f).map some = xs.map f := by
  induction xs with
  | nil => rfl
  | cons x xs ih =>
    obtain ⟨y, hy⟩ := Option.ne_none_iff_exists'.1 (h x List.mem_cons_self)
    simp [hy, ih fun z hz => h z (List.mem_cons_of_mem x hz)]

theorem map_some_callerCode (hN : labelSet is = Finset.Icc 1 N) :
    (callerCode is N).map some = (List.range N).map fun k => latest is (k + 1) := by
  refine map_some_filterMap fun k hk => (latest_ne_none_iff hN).2 ?_
  have := List.mem_range.1 hk
  omega

theorem length_callerCode (hN : labelSet is = Finset.Icc 1 N) : (callerCode is N).length = N := by
  simpa using congrArg List.length (map_some_callerCode hN)

theorem getElem?_callerCode (hN : labelSet is = Finset.Icc 1 N) (k : Nat) :
    (callerCode is N)[k]? = latest is (k + 1) := by
  by_cases hk : k < N
  · have hmap := congrArg (·[k]?) (map_some_callerCode hN)
    obtain ⟨i, hi, hlatest⟩ : ∃ i, (callerCode is N)[k]? = some i ∧ some i = latest is (k + 1) := by
      simpa [hk] using hmap
    rw [hi, hlatest]
  · have hnone : latest is (k + 1) = none := by
      by_contra h
      have := (latest_ne_none_iff hN).1 h
      omega
    rw [hnone, List.getElem?_eq_none_iff, length_callerCode hN]
    omega

theorem Built.terminalLabel_of_gap_free (h : p.Built is) (hN : labelSet is = Finset.Icc 1 N) :
    p.terminalLabel = N + 1 := by
  rw [h.follows.terminalLabel_eq, hN, Nat.card_Icc]
  omega

theorem Built.size_of_gap_free (h : p.Built is) (hN : labelSet is = Finset.Icc 1 N) :
    p.size = N + if p.implicitStop.isSome then 1 else 0 := by
  rw [h.follows.size_eq, hN, Nat.card_Icc, Nat.add_sub_cancel]

/-- **Without gaps, an added stop stands right behind the caller's instructions.** -/
theorem Built.implicitStop_eq (h : p.Built is) (hN : labelSet is = Finset.Icc 1 N) {label : Nat}
    (hl : p.implicitStop = some label) : label = N + 1 := by
  have hle : label ≤ N + 1 := by
    refine h.implicitStop_le (fun i hi => ?_) hl
    have hmem : i.label ∈ labelSet is := List.mem_toFinset.2 (List.mem_map_of_mem hi)
    rw [hN, Finset.mem_Icc] at hmem
    exact hmem.2
  have hpos : label ≠ 0 := by
    rintro rfl
    cases h.follows.get?_implicitStop hl
  by_contra hne
  exact (latest_ne_none_iff hN).2 (by omega) (h.follows.free hl)

/-- **The slots of a program without gaps.** -/
theorem Built.dense (h : p.Built is) (hN : labelSet is = Finset.Icc 1 N) (hpass : p.Passes) :
    Dense p.slots (callerCode is N) := by
  have inside : ∀ {k : Nat} {i : Instruction}, (callerCode is N)[k]? = some i →
      p.slots[k]? = some (some i) := by
    intro k i hk
    rw [getElem?_callerCode hN] at hk
    rw [← get?_succ_eq_some_iff, h.follows.get, hk, Option.some_or]
  refine ⟨inside, ?_, ?_⟩
  · intro k slot hk hle
    rw [length_callerCode hN] at hle ⊢
    have hlt : k < p.slots.size := (Array.getElem?_eq_some_iff.1 hk).1
    -- the last slot is behind the caller's labels, so it holds the added stop
    obtain ⟨i, hi⟩ := h.tidy.get?_size (by omega)
    have hnone : latest is p.slots.size = none := by
      by_contra hsome
      have := (latest_ne_none_iff hN).1 hsome
      omega
    rw [h.follows.get, hnone, Option.none_or, implicitAt] at hi
    split at hi
    · rename_i hstop
      have hsize := h.implicitStop_eq hN hstop
      obtain rfl : k = N := by omega
      have hget := h.follows.get?_implicitStop hstop
      rw [hsize, get?_succ_eq_some_iff, hk] at hget
      exact ⟨rfl, _, Option.some.inj hget⟩
    · cases hi
  · intro k i hk t ht
    have hmem := mem_instructions.2 ⟨k, inside hk⟩
    have := (hpass.targets i hmem t ht).2
    rw [h.terminalLabel_of_gap_free hN] at this
    rwa [length_callerCode hN]

theorem Built.restored (h : p.Built is) : p.restored.Built p.instructions :=
  .ofList fun _ hi => h.mem_wellFormed hi

/-- **What a decoded run costs.**  It is the run before decoding, with one step more if that was
left by a jump to an added stop. -/
theorem Built.restored_ends (h : p.Built is) (hN : labelSet is = Finset.Icc 1 N) (hpass : p.Passes)
    {c d : Config} (hd : Config.Ends p.withStop.slots (N + 1) c d) :
    Config.Ends p.withStop.slots (p.withStop.size + 1) c
      (if p.withStop.implicitStop.isSome ∧ d.exit p.withStop.slots = .jump then
        ⟨N, d.registers, d.steps + 1⟩ else d) := by
  have hb := h.withStop hpass
  have hsize := hb.size_of_gap_free hN
  cases hstop : p.withStop.implicitStop with
  | none =>
    rw [hstop] at hsize
    simpa [hsize] using hd
  | some label =>
    have hbelow : Config.Below p.withStop.slots (N + 1) :=
      h.terminalLabel_of_gap_free hN ▸ h.jumps_below hpass
    have hslot := hb.follows.get?_implicitStop hstop
    rw [hb.implicitStop_eq hN hstop, get?_succ_eq_some_iff] at hslot
    rw [hstop] at hsize
    rw [hsize]
    simpa using hd.later_of_stop hbelow (Nat.lt_succ_self _) hslot

end Program

/-- The run of a checked program is left by a jump, which can only go to the terminal label. -/
def Validated.LeftByJump (v : Validated) (inputs : List Nat) : Prop :=
  ∃ d, Config.Ends v.program.slots v.terminal (.start inputs) d ∧ d.exit v.program.slots = .jump

theorem Validated.leftByJump_iff {v : Validated} {inputs : List Nat} {d : Config}
    (hd : Config.Ends v.program.slots v.terminal (.start inputs) d) :
    v.LeftByJump inputs ↔ d.exit v.program.slots = .jump := by
  constructor
  · rintro ⟨d', hd', hexit⟩
    rwa [hd.unique hd']
  · exact fun hexit => ⟨d, hd, hexit⟩

theorem Machine.exists_halts_iff {m : Machine} {p : Program} {v : Validated} {inputs : List Nat}
    (hv : p.validate = .ok v) :
    (∃ r, m.Halts p inputs r ∧ r.machine.registers.get = rho) ↔
      ∃ d, Config.Ends v.program.slots v.terminal (.start inputs) d ∧ d.registers.get = rho := by
  constructor
  · rintro ⟨r, hr, rfl⟩
    obtain ⟨d, hd, hm⟩ := hr.ends_of_validate hv
    exact ⟨d, hd, by rw [hm]⟩
  · rintro ⟨d, hd, rfl⟩
    obtain ⟨r, hr, _, hm⟩ := m.halts_of_ends hv hd
    exact ⟨r, hr, by rw [hm]⟩

/-- **Programs without gaps run as on the plain machine, before and after decoding.**  Let the
labels of the caller be `1 … N`.  The plain machine on the caller's instructions, the run of the
program, and the run of what is decoded from its numbers halt together with the same registers.
Decoding succeeds as long as slots can be counted.  The decoded run takes as many steps, or one
more; one more exactly if the stop was added by a check and the run was left by a jump, that is, to
`N + 1`. -/
theorem gap_free_runs_agree {p : Program} {is : List Instruction} {N : Nat} {v : Validated}
    (hp : p.Built is) (hN : Program.labelSet is = Finset.Icc 1 N) (hv : p.validate = .ok v)
    (m m' : Machine) (inputs : List Nat) :
    v.terminal = N + 1 ∧
    (∀ rho, Plain.Ends (callerCode is N) (Abstract.start inputs) rho ↔
      ∃ r, m.Halts p inputs r ∧ r.machine.registers.get = rho) ∧
    ∃ e, Goedel.encodeProgram p = .ok e ∧
      ((∀ i ∈ is, i.Constructible) → v.program.slots.size ≤ Numeral.maxWord →
        ∃ q, Goedel.decodeProgram e.numbers = .ok q) ∧
      ∀ q, Goedel.decodeProgram e.numbers = .ok q →
        (∀ budget, ∃ result, m'.run budget q inputs = .ok result) ∧
        (∀ rho, Plain.Ends (callerCode is N) (Abstract.start inputs) rho ↔
          ∃ r, m'.Halts q inputs r ∧ r.machine.registers.get = rho) ∧
        ∀ r r', m.Halts p inputs r → m'.Halts q inputs r' →
          r'.machine.registers = r.machine.registers ∧
          (r'.machine.steps = r.machine.steps ∨ r'.machine.steps = r.machine.steps + 1) ∧
          (r'.machine.steps = r.machine.steps + 1 ↔
            v.program.implicitStop.isSome ∧ v.LeftByJump inputs) := by
  obtain ⟨hpass, rfl⟩ := Program.validate_eq_ok_iff.1 hv
  have hterm := hp.terminalLabel_of_gap_free hN
  have hb := hp.withStop hpass
  have hdense := hb.dense hN (hp.passes_withStop hpass)
  have hlen := Program.length_callerCode hN
  obtain ⟨e, he, _, hnum⟩ := Goedel.encodeProgram_of_validate hv
  refine ⟨hterm, fun rho => ?_, e, he, fun hc hle => ?_, fun q hq => ?_⟩
  · rw [Machine.exists_halts_iff hv]
    exact plain_ends_iff hdense (by simp only [hterm]; omega) (hp.confined hv)
  · rw [hnum]
    exact ⟨_, Goedel.decodeProgram_map_encodeInstruction (hb.constructible hc hle)⟩
  · obtain rfl := Goedel.eq_restored_of_decodeProgram hp he hq
    have hvq := hp.validate_restored hpass
    have hslots := hp.tidy.withStop.slots_restored
    have hsize := hb.size_of_gap_free hN
    refine ⟨fun budget => m'.run_eq_ok_of_validate hvq budget inputs, fun rho => ?_,
      fun r r' hr hr' => ?_⟩
    · rw [Machine.exists_halts_iff hvq]
      exact plain_ends_iff (hslots ▸ hdense) (by simp only [hsize]; omega)
        (hb.restored.confined hvq)
    · obtain ⟨d, hd, hm⟩ := hr.ends_of_validate hv
      obtain ⟨d', hd', hm'⟩ := hr'.ends_of_validate hvq
      have hlater := hp.restored_ends hN hpass (hterm ▸ hd)
      simp only [hslots] at hd'
      rw [hm, hm', hd'.unique hlater, Validated.leftByJump_iff hd]
      split
      · rename_i hjump
        exact ⟨rfl, .inr rfl, fun _ => hjump, fun _ => rfl⟩
      · rename_i hjump
        exact ⟨rfl, .inl rfl, fun h => absurd h (by simp), fun h => absurd h hjump⟩

/-- Label 2 comes first, and a check puts a stop behind it before label 1 is added.  The run is left
by a jump to label 3, so the decoded run takes two steps instead of one. -/
theorem gap_free_jump_costs_a_step :
    ∃ p v e q, p.Built [⟨2, .increment 1⟩, ⟨1, .branch 1 3 2⟩] ∧ p.validate = .ok v ∧
      p.implicitStop = some 3 ∧ Goedel.encodeProgram p = .ok e ∧
        Goedel.decodeProgram e.numbers = .ok q ∧
      ∃ r r', (Machine.new false).Halts p [] r ∧ (Machine.new false).Halts q [] r' ∧
        r'.machine.registers = r.machine.registers ∧ r.machine.steps = 1 ∧
          r'.machine.steps = 2 := by
  have h₁ : Program.Built _ [⟨2, .increment 1⟩] := .ofList (by decide)
  have h₂ := (h₁.check (v := ⟨_, _, _⟩) rfl).add (i := ⟨1, .branch 1 3 2⟩) (by decide)
  obtain ⟨_, hplain, e, he, hdecode, hq⟩ :=
    gap_free_runs_agree (N := 2) (v := ⟨_, _, _⟩) h₂ (by decide) rfl
    (.new false) (.new false) []
  obtain ⟨q, hqe⟩ := hdecode (by decide) (by decide)
  obtain ⟨_, hplain', hsteps⟩ := hq q hqe
  obtain ⟨r', hr', _⟩ := (hplain' _).1 ((hplain _).2 ⟨_, ⟨1, rfl⟩, rfl⟩)
  obtain ⟨hregs, _, hjump⟩ := hsteps _ r' ⟨1, rfl⟩ hr'
  exact ⟨_, _, e, q, h₂, rfl, rfl, he, hqe, _, r', ⟨1, rfl⟩, hr', hregs, rfl,
    hjump.2 ⟨rfl, _, .done rfl, rfl⟩⟩

end RegisterMachine
