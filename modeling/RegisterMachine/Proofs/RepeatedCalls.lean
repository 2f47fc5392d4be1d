import RegisterMachine.Proofs.ProgramCodec
import RegisterMachine.Proofs.Runs
import RegisterMachine.Session

/-!
# Checks are stable and runs can be repeated

The first check of a program may put a stop into it.  Nothing that is called after that changes it
again, as long as nothing is added, and what a machine did before does not show in its next run.

* `Validated.Closes v p` — a check of `p` passes with the program and the terminal label of `v`;
  `Built.closes_closed` — a closed program is closed by a check as it is.
* `Closes.halts_again`, `Closes.halts_alike` — programs that are closed alike halt alike, on every
  two machines.
* `Action.checks`, `Action.reads` — the actions that check the program first, and those that do not
  touch it.
* `Session.Called s as t` — the actions `as`, each on any machine, lead from `s` to `t`.
* `Closes.program_of_perform` — what one such action leaves of the program; `Called.program_eq` —
  what all of them do.

Principal result: `calls_repeat` — after any such calls, each check gives the same label and each
run and each encoding the same result as the first one.
-/

set_option autoImplicit false

namespace RegisterMachine

variable {v : Validated} {p q : Program} {is : List Instruction} {inputs : List Nat}

/-- A check of `p` passes, with the program and the terminal label of `v`. -/
def Validated.Closes (v : Validated) (p : Program) : Prop :=
  ∃ w, p.validate = .ok w ∧ w.program = v.program ∧ w.terminal = v.terminal

/-- **A closed program is closed by a check as it is,** and under the same terminal label. -/
theorem Program.Built.closes_closed (hp : p.Built is) (hv : p.validate = .ok v) :
    v.Closes v.program := by
  obtain ⟨hpass, rfl⟩ := Program.validate_eq_ok_iff.1 hv
  obtain ⟨label, hs⟩ := hp.tidy.stopLabels_withStop hpass
  have hmem : label ∈ p.withStop.stopLabels := by simp [hs]
  exact ⟨_, Program.validate_of_stop (hp.passes_withStop hpass) hmem, rfl,
    hp.terminalLabel_withStop⟩

namespace Validated.Closes

variable {m m' : Machine} {r r' : Run}

theorem ends_of_halts (hc : v.Closes p) (h : m.Halts p inputs r) :
    ∃ d, Config.Ends v.program.slots v.terminal (.start inputs) d ∧ r.program = v.program ∧
      r.machine = ⟨d.registers, d.steps, m.traced⟩ := by
  obtain ⟨w, hw, hprog, hterm⟩ := hc
  obtain ⟨w', d, hw', hd, hrun, hm⟩ := h.ends
  rw [hw] at hw'
  cases hw'
  rw [hprog, hterm] at hd
  exact ⟨d, hd, hrun.trans hprog, hm⟩

/-- **Programs that are closed alike halt on the same inputs.** -/
theorem halts_again (hp : v.Closes p) (hq : v.Closes q) (h : m.Halts p inputs r) (m' : Machine) :
    ∃ r', m'.Halts q inputs r' := by
  obtain ⟨d, hd, _⟩ := hp.ends_of_halts h
  obtain ⟨w, hw, hprog, hterm⟩ := hq
  rw [← hprog, ← hterm] at hd
  obtain ⟨r', hr', _⟩ := Machine.halts_of_ends m' hw hd
  exact ⟨r', hr'⟩

/-- **They leave their machines alike,** whatever the machines did before. -/
theorem halts_alike (hp : v.Closes p) (hq : v.Closes q) (h : m.Halts p inputs r)
    (h' : m'.Halts q inputs r') :
    r.machine.registers = r'.machine.registers ∧ r.machine.steps = r'.machine.steps := by
  obtain ⟨d, hd, _, hm⟩ := hp.ends_of_halts h
  obtain ⟨d', hd', _, hm'⟩ := hq.ends_of_halts h'
  obtain rfl := hd.unique hd'
  rw [hm, hm']
  exact ⟨rfl, rfl⟩

theorem exists_encodeProgram (hc : v.Closes p) : ∃ e, Goedel.encodeProgram p = .ok e ∧
    e.program = v.program ∧ e.numbers = v.program.instructions.map Goedel.encodeInstruction := by
  obtain ⟨w, hw, hprog, _⟩ := hc
  obtain ⟨e, he, hp, hn⟩ := Goedel.encodeProgram_of_validate hw
  rw [hprog] at hp hn
  exact ⟨e, he, hp, hn⟩

end Validated.Closes

/-! ## Calls that add nothing -/

/-- Does the action check the program before anything else? -/
def Action.checks : Action → Bool
  | .validate | .run _ | .emit .. | .encode => true
  | _ => false

/-- Does the action leave the program untouched? -/
def Action.reads : Action → Bool
  | .newMachine _ | .resetMachine _ | .get _ | .text | .listing | .save _ | .equals _ => true
  | _ => false

namespace Session

/-- Takes another machine. -/
def withMachine (s : Session) (m : Machine) : Session := { s with machine := m }

/-- The actions `as` lead from `s` to `t`.  Each of them checks or reads the program, on a machine
that may have any past, and returns. -/
inductive Called (s : Session) : List Action → Session → Prop
  | none : Called s [] s
  | call {as : List Action} {t : Session} {a : Action} {r : Response} (m : Machine) (budget : Nat)
      (h : Called s as t) (ha : a.checks || a.reads)
      (hr : (t.withMachine m).perform budget a = some r) : Called s (as ++ [a]) r.session

end Session

section Calls

open Session

variable {s t : Session} {as : List Action} {a : Action} {budget : Nat} {r : Response}
  {report : Failure → Reply} {finish : Run → Reply}

namespace Validated.Closes

/-- A program that passes its check is run, and the call returns if the run halts. -/
theorem running_eq_some_iff (hc : v.Closes s.program) :
    s.running budget inputs report finish = some r ↔
      ∃ run, s.machine.run budget s.program inputs = .ok (some run) ∧
        r = ⟨{ s with program := run.program, machine := run.machine }, finish run,
          run.events⟩ := by
  obtain ⟨w, hw, _⟩ := hc
  obtain ⟨result, hresult⟩ := Machine.run_eq_ok_of_validate s.machine hw budget inputs
  unfold Session.running
  rw [hresult]
  cases result with
  | none => simp
  | some run => simp [eq_comm]

theorem program_of_running (hc : v.Closes s.program)
    (hr : s.running budget inputs report finish = some r) : r.session.program = v.program := by
  obtain ⟨run, hrun, rfl⟩ := hc.running_eq_some_iff.1 hr
  obtain ⟨_, _, hprog, _⟩ := hc.ends_of_halts ⟨budget, hrun⟩
  exact hprog

/-- **One call leaves the program closed, or as it was.** -/
theorem program_of_perform (hc : v.Closes s.program) (ha : a.checks || a.reads)
    (hr : s.perform budget a = some r) :
    r.session.program = if a.checks then v.program else s.program := by
  cases a with
  | validate =>
    obtain ⟨w, hw, hprog, _⟩ := hc
    cases hr
    unfold Session.validate
    rw [hw]
    exact hprog
  | encode =>
    obtain ⟨e, he, hprog, _⟩ := hc.exists_encodeProgram
    cases hr
    unfold Session.encode
    rw [he]
    exact hprog
  | run inputs => exact hc.program_of_running hr
  | emit inputs capacity => exact hc.program_of_running hr
  | newMachine traced => cases hr; rfl
  | resetMachine inputs => cases hr; rfl
  | get label => cases hr; rfl
  | text => cases hr; rfl
  | listing => cases hr; rfl
  | save name => cases hr; rfl
  | equals name => cases hr; rfl
  | _ => cases ha

end Validated.Closes

/-- A program that is closed or as it was is closed alike. -/
theorem Validated.Closes.ite (hv : v.Closes v.program) (hp : v.Closes p) (checked : Bool) :
    v.Closes (if checked then v.program else p) := by
  cases checked with
  | true => exact hv
  | false => exact hp

/-- **All calls together leave the program as the first check among them did.** -/
theorem Session.Called.program_eq (h : Called s as t) (hs : v.Closes s.program)
    (hv : v.Closes v.program) :
    t.program = if as.any Action.checks then v.program else s.program := by
  induction h with
  | none => rfl
  | @call as t a r m budget _ ha hr ih =>
    -- the next call finds one of two programs, and closes both of them alike
    have ht : v.Closes t.program := ih ▸ hv.ite hs _
    rw [Validated.Closes.program_of_perform (s := t.withMachine m) ht ha hr]
    show (if a.checks then v.program else t.program) = _
    rw [ih]
    cases hc : a.checks <;> simp [hc]

/-! ## Replies -/

/-- The call `a` returns exactly if there is a run with `first`, and then answers as `finish` does
for that run and leaves its machine as that run did. -/
structure Session.Repeats (s : Session) (a : Action) (finish : Run → Reply) (first : Run → Prop) :
    Prop where
  returns : (∃ budget r, s.perform budget a = some r) ↔ ∃ run, first run
  alike : ∀ {budget : Nat} {r : Response} {run : Run}, s.perform budget a = some r → first run →
    r.reply = finish run ∧ r.session.machine.registers = run.machine.registers ∧
      r.session.machine.steps = run.machine.steps

/-- What is written out for a run depends on nothing but its output. -/
theorem Session.emission_congr {capacity : Option Nat} {x y : Run} (h : x.output = y.output) :
    emission capacity x = emission capacity y := by
  unfold emission Run.line
  rw [h]

/-- **A call that runs the program repeats every run of a program that is closed alike.** -/
theorem Validated.Closes.repeats (hs : v.Closes s.program) (hp : v.Closes p) (m : Machine)
    (ha : ∀ budget, s.perform budget a = s.running budget inputs report finish)
    (hfinish : ∀ x y : Run, x.output = y.output → finish x = finish y) :
    s.Repeats a finish (m.Halts p inputs) := by
  refine ⟨⟨?_, ?_⟩, ?_⟩
  · rintro ⟨budget, r, hr⟩
    obtain ⟨run, hrun, _⟩ := hs.running_eq_some_iff.1 (ha budget ▸ hr)
    exact hs.halts_again hp ⟨budget, hrun⟩ m
  · rintro ⟨first, hfirst⟩
    obtain ⟨run, budget, hrun⟩ := hp.halts_again hs hfirst s.machine
    exact ⟨budget, _, (ha budget).trans (hs.running_eq_some_iff.2 ⟨run, hrun, rfl⟩)⟩
  · intro budget r first hr hfirst
    obtain ⟨run, hrun, rfl⟩ := hs.running_eq_some_iff.1 (ha budget ▸ hr)
    obtain ⟨hregs, hsteps⟩ := hs.halts_alike hp ⟨budget, hrun⟩ hfirst
    exact ⟨hfinish run first (congrArg Registers.output hregs), hregs, hsteps⟩

/-- **Checks are stable, and runs can be repeated.**  Take a program whose check passes, and any
calls that check, run, encode or read it, on any machines.  The program is as the first check left
it.  Then, on a machine with any past, a check gives the terminal label of the first one and changes
nothing but what the first one changes; a run, written out or not, halts exactly if the first run of
a new machine on the program as it was halts, with the same output, steps and registers; and an
encoding gives the same numbers. -/
theorem calls_repeat (hp : s.program.Built is) (hv : s.program.validate = .ok v) (h : Called s as t)
    (m : Machine) :
    let u := t.withMachine m
    t.program = (if as.any Action.checks then v.program else s.program) ∧
    (∀ budget, ∃ r, u.perform budget .validate = some r ∧ r.reply = .terminal v.terminal ∧
      r.session.program = v.program) ∧
    (∀ (inputs : List Nat) (traced : Bool),
      u.Repeats (.run inputs) (fun first => .output first.output)
        ((Machine.new traced).Halts s.program inputs) ∧
      ∀ capacity, u.Repeats (.emit inputs capacity) (emission capacity)
        ((Machine.new traced).Halts s.program inputs)) ∧
    ∃ e, Goedel.encodeProgram s.program = .ok e ∧
      ∀ budget, ∃ r, u.perform budget .encode = some r ∧ r.reply = .numbers e.numbers ∧
        r.session.program = v.program := by
  intro u
  have hs : v.Closes s.program := ⟨v, hv, rfl, rfl⟩
  have hclosed := hp.closes_closed hv
  have heq := h.program_eq hs hclosed
  have hu : v.Closes u.program := by
    show v.Closes t.program
    rw [heq]
    exact hclosed.ite hs _
  refine ⟨heq, ?_, ?_, ?_⟩
  · obtain ⟨w, hw, hprog, hterm⟩ := hu
    intro budget
    refine ⟨u.validate, rfl, ?_⟩
    unfold Session.validate
    rw [hw]
    exact ⟨congrArg Reply.terminal hterm, hprog⟩
  · intro inputs traced
    refine ⟨?_, fun capacity => ?_⟩
    · exact hu.repeats hs _ (fun _ => rfl) fun _ _ h => congrArg Reply.output h
    · exact hu.repeats hs _ (fun _ => rfl) fun _ _ h => emission_congr h
  · obtain ⟨e, he, _, hn⟩ := hs.exists_encodeProgram
    obtain ⟨e', he', hprog, hn'⟩ := hu.exists_encodeProgram
    refine ⟨e, he, fun budget => ⟨u.encode, rfl, ?_⟩⟩
    unfold Session.encode
    rw [he']
    exact ⟨congrArg Reply.numbers (hn'.trans hn.symm), hprog⟩

/-- The program jumps to its terminal label 3, which it has in use, so a check puts a stop behind
it.  After the check, a run, an emission that finds no room and an encoding, every machine runs it
as a new one runs it without all that. -/
theorem calls_repeat_past_stop :
    let p := Program.ofList [⟨1, .copy 1 2⟩, ⟨3, .branch 2 1 3⟩]
    let s := Session.new.withProgram p
    ∃ t, Called s [.validate, .run [1], .emit [12] (some 1), .encode] t ∧
      p.implicitStop = none ∧ t.program.implicitStop = some 4 ∧
      ∀ (m : Machine) (budget : Nat) (r : Response),
        (t.withMachine m).perform budget (.run [2]) = some r →
          r.reply = .output 2 ∧ r.session.machine.registers = ⟨#[2, 2]⟩ ∧
            r.session.machine.steps = 3 := by
  intro p s
  let closed : Program :=
    ⟨#[some ⟨1, .copy 1 2⟩, none, some ⟨3, .branch 2 1 3⟩, some ⟨4, .stop⟩], some 4⟩
  have hp : p.Built _ := .ofList (by decide)
  have hv : p.validate = .ok ⟨closed, 3, _⟩ := rfl
  have h₁ : Called s [.validate] ⟨closed, .new false, []⟩ :=
    .call (r := ⟨_, _, _⟩) (.new false) 0 .none rfl rfl
  have h₂ : Called s [.validate, .run [1]] ⟨closed, ⟨⟨#[1, 1]⟩, 3, true⟩, []⟩ :=
    .call (r := ⟨_, _, _⟩) ⟨⟨#[4, 4]⟩, 9, true⟩ 3 h₁ rfl rfl
  have h₃ : Called s [.validate, .run [1], .emit [12] (some 1)]
      ⟨closed, ⟨⟨#[12, 12]⟩, 3, false⟩, []⟩ :=
    .call (r := ⟨_, _, _⟩) (.new false) 3 h₂ rfl rfl
  have h₄ : Called s [.validate, .run [1], .emit [12] (some 1), .encode]
      ⟨closed, .new false, []⟩ :=
    .call (r := ⟨_, _, _⟩) (.new false) 0 h₃ rfl rfl
  refine ⟨_, h₄, rfl, rfl, fun m budget r hr => ?_⟩
  obtain ⟨_, _, hruns, _⟩ := calls_repeat hp hv h₄ m
  have hfirst : (Machine.new false).Halts p [2] ⟨closed, ⟨⟨#[2, 2]⟩, 3, false⟩, _⟩ :=
    ⟨3, Machine.run_eq_ok_iff.2 ⟨_, hv, rfl⟩⟩
  exact (hruns [2] false).1.alike hr hfirst

end Calls

end RegisterMachine
