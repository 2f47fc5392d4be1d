import RegisterMachine.Proofs.ProgramCodec
import RegisterMachine.Proofs.Runs

/-!
# Runs of programs that were encoded and decoded

A program that was encoded and decoded has the slots that it had, but no longer remembers which stop
was not added by its caller.  That stop now counts, so the terminal label is one larger: jumps to
the old terminal label do not end a run any more but go on with what its slot holds.

* `Config.Leaves` — from a configuration the run ends with a given output; `Machine.Yields` — the
  same of a program and its inputs; `yields_iff_leaves` — how they hang together.
* `Config.resume` — where a run goes on that would have ended at the terminal label.
* `turn_done_cases`, `turn_next_of_lt`, `turn_done_of_lt` — one turn under two terminal labels.
* `Ends.later_iff`, `Ends.sooner` — whole runs under two terminal labels.
* `outputs_agree_iff` — when going on where a run was cut off changes no output.
* `Config.Harmless` — going on after a jump to the terminal label changes no output;
  `leaves_agree_iff` — then and only then a larger terminal label makes no difference.

Principal result: `decoded_runs_agree_iff` — a decoded program runs as before exactly if going on
after a jump to the old terminal label ends with the same output.  `decoded_run_differs` is a
program for which it does not.
-/

set_option autoImplicit false

namespace RegisterMachine

variable {slots : Array (Option Instruction)} {T U : Nat} {c d e : Config}

namespace Config

/-- From `c` the run ends with `x` in register 1. -/
def Leaves (slots : Array (Option Instruction)) (terminal : Nat) (c : Config) (x : Nat) : Prop :=
  ∃ d, Ends slots terminal c d ∧ d.registers.output = x

/-- Where the run goes on after `d`, if a jump to `terminal` is a jump like any other. -/
def resume (terminal : Nat) (d : Config) : Config := ⟨terminal - 1, d.registers, d.steps⟩

/-- Whenever the run from `c` is left by a jump to `T`, going on behind the jump under the terminal
label `U` ends with the output that is there already. -/
def Harmless (slots : Array (Option Instruction)) (T U : Nat) (c : Config) : Prop :=
  ∀ d, Ends slots T c d → d.exit slots = .jump → Leaves slots U (d.resume T) d.registers.output

/-- No jump goes beyond a label. -/
def Below (slots : Array (Option Instruction)) (top : Nat) : Prop :=
  ∀ {k : Nat} {i : Instruction}, slots[k]? = some (some i) → ∀ t ∈ i.op.targets, t ≤ top

/-! ## One turn -/

/-- The end of a run depends on the terminal label only if it was left by a jump. -/
theorem turn_done_cases (ht : c.turn slots T = .done d) :
    d.exit slots ≠ .jump ∧ (∀ U, c.turn slots U = .done d) ∨
    d.exit slots = .jump ∧ (∀ U, U ≠ T → c.turn slots U = .next (d.resume T)) := by
  rcases turn_eq_done_iff.1 ht with ⟨hs, rfl⟩ | ⟨i, hs, hop | hf, rfl⟩
  · left
    refine ⟨?_, fun U => turn_eq_done_iff.2 (.inl ⟨hs, rfl⟩)⟩
    simp [exit, hs]
  · left
    refine ⟨?_, fun U => turn_eq_done_iff.2 (.inr ⟨i, hs, .inl hop, rfl⟩)⟩
    simp [exit, hs, hop]
  · right
    have hop : i.op ≠ .stop := by
      intro e
      rw [e] at hf
      cases hf
    refine ⟨?_, fun U hU => turn_eq_next_iff.2 (.inr ⟨i, hs, .inr ⟨T, hf, hU.symm, rfl⟩⟩)⟩
    simp [exit, hs, hop]

/-- A turn that goes on goes on under a larger terminal label, where no jump can go. -/
theorem turn_next_of_lt (hb : Below slots T) (hlt : T < U) (ht : c.turn slots T = .next d) :
    c.turn slots U = .next d := by
  rcases turn_eq_next_iff.1 ht with hgap | ⟨i, hs, hnext | ⟨label, hf, _, hd⟩⟩
  · exact turn_eq_next_iff.2 (.inl hgap)
  · exact turn_eq_next_iff.2 (.inr ⟨i, hs, .inl hnext⟩)
  · have hle := hb hs label (Op.of_flow_eq_jump hf).1
    exact turn_eq_next_iff.2 (.inr ⟨i, hs, .inr ⟨label, hf, by omega, hd⟩⟩)

/-- A turn that ends under a larger terminal label ends in the same way. -/
theorem turn_done_of_lt (hb : Below slots T) (hlt : T < U) (ht : c.turn slots U = .done d) :
    c.turn slots T = .done d := by
  rcases turn_eq_done_iff.1 ht with hnone | ⟨i, hs, hop | hf, hd⟩
  · exact turn_eq_done_iff.2 (.inl hnone)
  · exact turn_eq_done_iff.2 (.inr ⟨i, hs, .inl hop, hd⟩)
  · have hle := hb hs U (Op.of_flow_eq_jump hf).1
    omega

/-! ## Whole runs -/

theorem ends_iff_of_next {c' : Config} (ht : c.turn slots T = .next c') :
    Ends slots T c d ↔ Ends slots T c' d := by
  constructor
  · intro h
    cases h with
    | done ht' => rw [ht] at ht'; cases ht'
    | next ht' rest => rw [ht] at ht'; cases ht'; exact rest
  · exact .next ht

theorem ends_iff_of_done (ht : c.turn slots T = .done d) : Ends slots T c e ↔ d = e := by
  constructor
  · exact (Ends.done ht).unique
  · rintro rfl
    exact .done ht

/-- **A run that ended, under a larger terminal label.**  Up to its last turn nothing changes; after
a jump it goes on where the jump goes. -/
theorem Ends.later_iff (hb : Below slots T) (hlt : T < U) (h : Ends slots T c d) (e : Config) :
    Ends slots U c e ↔
      if d.exit slots = .jump then Ends slots U (d.resume T) e else d = e := by
  induction h with
  | done ht =>
    rcases turn_done_cases ht with ⟨hexit, hdone⟩ | ⟨hexit, hnext⟩
    · rw [if_neg hexit, ends_iff_of_done (hdone U)]
    · rw [if_pos hexit, ends_iff_of_next (hnext U (by omega))]
  | next ht _ ih => rw [ends_iff_of_next (turn_next_of_lt hb hlt ht), ih]

/-- A run that ends under a larger terminal label ends, maybe sooner, under the smaller one. -/
theorem Ends.sooner (hb : Below slots T) (hlt : T < U) (h : Ends slots U c e) :
    ∃ d, Ends slots T c d := by
  induction h with
  | done ht => exact ⟨_, .done (turn_done_of_lt hb hlt ht)⟩
  | @next c c' _ ht _ ih =>
    -- under `T` this turn may be the last, and the induction is not needed
    cases hT : c.turn slots T with
    | done d => exact ⟨d, .done hT⟩
    | next d =>
      rw [turn_next_of_lt hb hlt hT] at ht
      cases ht
      obtain ⟨d, hd⟩ := ih
      exact ⟨d, .next hT hd⟩

/-- **When going on changes no output.**  Of two ways to end a run, the second goes on where the
first is cut off. -/
theorem outputs_agree_iff {early late cut : Config → Prop} {rest : Config → Config → Prop}
    (hcut : ∀ d, early d → cut d → ∀ e, late e ↔ rest d e)
    (hend : ∀ d, early d → ¬ cut d → ∀ e, late e ↔ d = e)
    (hsooner : ∀ e, late e → ∃ d, early d) (hunique : ∀ e e', late e → late e' → e = e') :
    (∀ x, (∃ d, early d ∧ d.registers.output = x) ↔ ∃ e, late e ∧ e.registers.output = x) ↔
      ∀ d, early d → cut d → ∃ e, rest d e ∧ e.registers.output = d.registers.output := by
  constructor
  · intro hall d hd hc
    obtain ⟨e, he, hout⟩ := (hall d.registers.output).1 ⟨d, hd, rfl⟩
    exact ⟨e, (hcut d hd hc e).1 he, hout⟩
  · intro hrest x
    constructor
    · rintro ⟨d, hd, rfl⟩
      by_cases hc : cut d
      · obtain ⟨e, he, hout⟩ := hrest d hd hc
        exact ⟨e, (hcut d hd hc e).2 he, hout⟩
      · exact ⟨d, (hend d hd hc d).2 rfl, rfl⟩
    · rintro ⟨e, he, rfl⟩
      obtain ⟨d, hd⟩ := hsooner e he
      refine ⟨d, hd, ?_⟩
      by_cases hc : cut d
      · obtain ⟨e', he', hout⟩ := hrest d hd hc
        rw [hunique e e' he ((hcut d hd hc e').2 he'), hout]
      · rw [(hend d hd hc e).1 he]

/-- **When a larger terminal label makes no difference.** -/
theorem leaves_agree_iff (hb : Below slots T) (hlt : T < U) :
    (∀ x, Leaves slots T c x ↔ Leaves slots U c x) ↔ Harmless slots T U c := by
  refine outputs_agree_iff (fun d hd hexit e => ?_) (fun d hd hexit e => ?_)
    (fun e he => he.sooner hb hlt) (fun e e' he he' => he.unique he')
  · rw [hd.later_iff hb hlt, if_pos hexit]
  · rw [hd.later_iff hb hlt, if_neg hexit]

/-- A stop under the terminal label is as good as an end there. -/
theorem harmless_of_stop {label : Nat} (hs : slots[T - 1]? = some (some ⟨label, .stop⟩)) :
    Harmless slots T U c := by
  intro d _ _
  exact ⟨_, .done (turn_eq_done_iff.2 (.inr ⟨_, hs, .inl rfl, rfl⟩)), rfl⟩

end Config

namespace Machine

variable {m : Machine} {p : Program} {inputs : List Nat}

/-- The run of `p` on `inputs` ends with the output `x`. -/
def Yields (m : Machine) (p : Program) (inputs : List Nat) (x : Nat) : Prop :=
  ∃ r, m.Halts p inputs r ∧ r.output = x

theorem yields_iff_leaves {v : Validated} (hv : p.validate = .ok v) (x : Nat) :
    m.Yields p inputs x ↔ Config.Leaves v.program.slots v.terminal (.start inputs) x := by
  constructor
  · rintro ⟨r, hr, rfl⟩
    obtain ⟨d, hd, hm⟩ := hr.ends_of_validate hv
    exact ⟨d, hd, by rw [Run.output, hm]⟩
  · rintro ⟨d, hd, rfl⟩
    obtain ⟨r, hr, _, hm⟩ := m.halts_of_ends hv hd
    exact ⟨r, hr, by rw [Run.output, hm]⟩

theorem Yields.unique {x y : Nat} (hx : m.Yields p inputs x) (hy : m.Yields p inputs y) :
    x = y := by
  obtain ⟨r, hr, rfl⟩ := hx
  obtain ⟨v, _, hv, _⟩ := hr.ends
  obtain ⟨d, hd, hx⟩ := (yields_iff_leaves hv _).1 ⟨r, hr, rfl⟩
  obtain ⟨e, he, hy⟩ := (yields_iff_leaves hv _).1 hy
  rw [← hx, ← hy, hd.unique he]

end Machine

namespace Program

variable {p : Program} {is : List Instruction}

/-- Jumps of a program that passed its check stay within the terminal label. -/
theorem Built.jumps_below (hp : p.Built is) (hpass : p.Passes) :
    Config.Below p.withStop.slots p.terminalLabel := by
  intro k i hk t ht
  have hmem := mem_instructions.2 ⟨k, hk⟩
  rw [← hp.terminalLabel_withStop]
  exact ((hp.passes_withStop hpass).targets i hmem t ht).2

/-- A stop that was not counted is counted after decoding. -/
theorem Built.terminalLabel_restored_withStop (hp : p.Built is) :
    p.withStop.restored.terminalLabel =
      p.terminalLabel + if p.withStop.implicitStop.isSome then 1 else 0 := by
  have hsize := hp.follows.withStop.size_eq
  rw [hp.tidy.withStop.terminalLabel_restored, hsize, hp.follows.terminalLabel_eq]
  omega

/-- **When a restored program runs as before.** -/
theorem Built.restored_yields_iff (hp : p.Built is) (hpass : p.Passes) (m m' : Machine)
    (inputs : List Nat) :
    (∀ x, m.Yields p inputs x ↔ m'.Yields p.withStop.restored inputs x) ↔
      (p.withStop.implicitStop.isSome →
        Config.Harmless p.withStop.slots p.terminalLabel (p.terminalLabel + 1)
          (.start inputs)) := by
  have hv : p.validate = .ok ⟨p.withStop, p.terminalLabel, p.validationEvents⟩ :=
    validate_eq_ok_iff.2 ⟨hpass, rfl⟩
  have hterm := hp.terminalLabel_restored_withStop
  rw [hp.tidy.withStop.terminalLabel_restored] at hterm
  simp only [Machine.yields_iff_leaves hv, Machine.yields_iff_leaves (hp.validate_restored hpass),
    hp.tidy.withStop.slots_restored, hterm]
  cases p.withStop.implicitStop with
  | none => simp
  | some label =>
    rw [Option.isSome_some, if_pos rfl,
      Config.leaves_agree_iff (hp.jumps_below hpass) (Nat.lt_succ_self _)]
    exact ⟨fun h _ => h, fun h => h rfl⟩

/-- A remembered stop under the terminal label does no harm. -/
theorem Built.harmless (hp : p.Built is) (hstop : p.withStop.implicitStop = some p.terminalLabel)
    (U : Nat) (c : Config) : Config.Harmless p.withStop.slots p.terminalLabel U c := by
  have hget := hp.follows.withStop.get?_implicitStop hstop
  exact Config.harmless_of_stop (get?_succ_eq_some_iff.1 hget)

end Program

namespace Goedel

variable {p q : Program} {is : List Instruction} {e : Encoded}

/-- **A decoded program is never refused, and when it runs as before.**  With a stop that the
program did not count, the decoded program goes on after a jump to the old terminal label.  It
yields the same exactly if it then ends with the output that the jump ended with.  It always does if
that stop stands under the terminal label, or if the caller added the stop. -/
theorem decoded_runs_agree_iff (hp : p.Built is) (he : encodeProgram p = .ok e)
    (hq : decodeProgram e.numbers = .ok q) (m m' : Machine) (inputs : List Nat) :
    (∀ budget, ∃ result, m'.run budget q inputs = .ok result) ∧
    ((∀ x, m.Yields p inputs x ↔ m'.Yields q inputs x) ↔
      (e.program.implicitStop.isSome →
        Config.Harmless e.program.slots p.terminalLabel (p.terminalLabel + 1) (.start inputs))) ∧
    (e.program.implicitStop = none ∨ e.program.implicitStop = some p.terminalLabel →
      ∀ x, m.Yields p inputs x ↔ m'.Yields q inputs x) := by
  obtain ⟨hpass, hprog, _⟩ := encodeProgram_eq_ok he
  obtain rfl := eq_restored_of_decodeProgram hp he hq
  rw [hprog]
  have hagree := hp.restored_yields_iff hpass m m' inputs
  refine ⟨fun budget => m'.run_eq_ok_of_validate (hp.validate_restored hpass) budget inputs, hagree,
    fun hstop => hagree.2 fun hsome => ?_⟩
  rcases hstop with hnone | hstop
  · rw [hnone] at hsome
    cases hsome
  · exact hp.harmless hstop _ _

/-- Label 3 is the terminal label and holds an addition to a register that is not the output.  The
decoded program makes that addition, and yields the same. -/
theorem decoded_runs_agree_past_addition :
    ∃ e q, encodeProgram (.ofList [⟨1, .branch 1 3 3⟩, ⟨3, .increment 2⟩]) = .ok e ∧
      decodeProgram e.numbers = .ok q ∧ e.program.implicitStop = some 4 ∧
      ∀ x, (Machine.new false).Yields (.ofList [⟨1, .branch 1 3 3⟩, ⟨3, .increment 2⟩]) [] x ↔
        (Machine.new true).Yields q [] x := by
  have hp : Program.Built _ [⟨1, .branch 1 3 3⟩, ⟨3, .increment 2⟩] := .ofList (by decide)
  have hq := decode_encodeProgram hp (by decide) (by decide) (e := ⟨_, _, _⟩) rfl
  refine ⟨_, _, rfl, hq, rfl,
    (decoded_runs_agree_iff hp rfl hq (.new false) (.new true) []).2.1.2 ?_⟩
  intro _ d hd _
  cases hd.unique (.done rfl)
  exact ⟨_, .next rfl (.done rfl), rfl⟩

/-- With an assignment to the output in that place, the decoded program yields 5 where the program
yields 0. -/
theorem decoded_run_differs :
    ∃ is p e q, is = [⟨1, .branch 1 3 3⟩, ⟨3, .set 1 5⟩] ∧ p = .ofList is ∧ p.Built is ∧
      encodeProgram p = .ok e ∧ decodeProgram e.numbers = .ok q ∧
      (Machine.new false).Yields p [] 0 ∧ (Machine.new false).Yields q [] 5 ∧
      ¬ ∀ x, (Machine.new false).Yields p [] x ↔ (Machine.new false).Yields q [] x := by
  have hp : Program.Built _ [⟨1, .branch 1 3 3⟩, ⟨3, .set 1 5⟩] := .ofList (by decide)
  obtain ⟨e, he⟩ : ∃ e, encodeProgram (.ofList [⟨1, .branch 1 3 3⟩, ⟨3, .set 1 5⟩]) = .ok e :=
    ⟨_, rfl⟩
  have hq := decode_encodeProgram hp (by decide) (by decide) he
  have h0 : (Machine.new false).Yields (.ofList [⟨1, .branch 1 3 3⟩, ⟨3, .set 1 5⟩]) [] 0 :=
    ⟨_, ⟨1, rfl⟩, rfl⟩
  have h5 : (Machine.new false).Yields
      (Program.ofList [⟨1, .branch 1 3 3⟩, ⟨3, .set 1 5⟩]).withStop.restored [] 5 :=
        ⟨_, ⟨3, rfl⟩, rfl⟩
  refine ⟨_, _, e, _, rfl, rfl, hp, he, hq, h0, h5, fun h => ?_⟩
  have := ((h 0).1 h0).unique h5
  omega

end Goedel

end RegisterMachine
