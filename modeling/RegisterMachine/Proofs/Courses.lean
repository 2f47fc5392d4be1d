import RegisterMachine.Proofs.Runs

/-!
# The course of a run

Where a run ends says little about what happened on the way.  Its course lists every configuration
that it comes through, and what is reported and written along the run is read off that list.

* `Config.current?` — the instruction that the next turn executes; `Config.applied` — what it makes
  of the registers.
* `registers_turn`, `steps_turn` — all that a turn does to registers and steps, whether it ends the
  run or not.
* `Config.Course slots terminal c cs d` — from `c` the run comes through `cs`, in this order, and
  ends in `d`.  `Course.unique` — a run has one course; `Course.registers_induction` — what follows
  for registers from single turns.
* `reports slots cs`, `gaps slots cs` — what is reported on a course, and the number of gaps that it
  crosses; `course_of_exec` — the loop follows a course and reports on it.

Principal result: `Machine.Halts.course` — every run that is over has a course, and its reports are
those of the check, of its start, of the course if the machine traces, and of its end.
-/

set_option autoImplicit false

namespace RegisterMachine

variable {slots : Array (Option Instruction)} {terminal : Nat} {c d e : Config}
  {cs ds : List Config} {i : Instruction}

/-- The configuration that a turn leads to. -/
def Turn.config : Turn → Config
  | next c | done c => c

namespace Config

/-- The instruction that the next turn executes; there is none in a gap and past the last slot. -/
def current? (slots : Array (Option Instruction)) (c : Config) : Option Instruction :=
  (slots[c.pc]?).join

theorem current?_eq_some_iff : c.current? slots = some i ↔ slots[c.pc]? = some (some i) :=
  Option.join_eq_some_iff

/-- The registers after the next turn. -/
def applied (slots : Array (Option Instruction)) (c : Config) : Registers :=
  (c.current? slots).elim c.registers fun i => i.op.apply c.registers

/-! ## One turn -/

/-- A report shows the slot, the instruction in it and the registers before it is executed. -/
theorem observe_eq (slots : Array (Option Instruction)) (c : Config) :
    c.observe slots = (c.current? slots).map fun i => .step c.pc i c.registers.cells := by
  unfold observe current?
  rcases slots[c.pc]? with _ | _ | i <;> rfl

/-- **A turn applies the instruction of its slot to the registers,** and nothing else. -/
theorem registers_turn {t : Turn} (h : c.turn slots terminal = t) :
    t.config.registers = c.applied slots := by
  subst h
  unfold turn applied current?
  rcases slots[c.pc]? with _ | _ | i
  · rfl
  · rfl
  · dsimp only [Option.join_some, Option.elim_some]
    cases i.op.flow c.registers with
    | next => rfl
    | halt => rfl
    | jump label => dsimp only; split <;> rfl

/-- **A turn counts as a step if it makes a report or crosses a gap.** -/
theorem steps_turn {t : Turn} (h : c.turn slots terminal = t) : t.config.steps =
    c.steps + (c.observe slots).toList.length + if slots[c.pc]? = some none then 1 else 0 := by
  subst h
  unfold turn observe
  rcases hs : slots[c.pc]? with _ | _ | i
  · simp [Turn.config]
  · simp [Turn.config]
  · cases hf : i.op.flow c.registers with
    | next => simp [hf, Turn.config]
    | halt => simp [hf, Turn.config]
    | jump label => by_cases ht : label = terminal <;> simp [hf, ht, Turn.config]

/-! ## All turns -/

/-- From `c` the run comes through `cs`, one configuration for each turn, and ends in `d`. -/
inductive Course (slots : Array (Option Instruction)) (terminal : Nat) :
    Config → List Config → Config → Prop
  | done {c d : Config} (h : c.turn slots terminal = .done d) : Course slots terminal c [c] d
  | next {c c' d : Config} {cs : List Config} (h : c.turn slots terminal = .next c')
      (rest : Course slots terminal c' cs d) : Course slots terminal c (c :: cs) d

/-- **A run has one course.** -/
theorem Course.unique (h : Course slots terminal c cs d) (h' : Course slots terminal c ds e) :
    cs = ds ∧ d = e := by
  induction h generalizing ds with
  | done ht =>
    cases h' with
    | done ht' => rw [ht] at ht'; cases ht'; exact ⟨rfl, rfl⟩
    | next ht' _ => rw [ht] at ht'; cases ht'
  | next ht _ ih =>
    cases h' with
    | done ht' => rw [ht] at ht'; cases ht'
    | next ht' rest' =>
      rw [ht] at ht'
      cases ht'
      obtain ⟨rfl, rfl⟩ := ih rest'
      exact ⟨rfl, rfl⟩

/-- **Induction along a course, as far as the registers go:** every turn applies its instruction,
the last one too. -/
theorem Course.registers_induction {motive : Registers → List Config → Registers → Prop}
    (h : Course slots terminal c cs d) (nil : ∀ r, motive r [] r)
    (cons : ∀ c cs r, motive (c.applied slots) cs r → motive c.registers (c :: cs) r) :
    motive c.registers cs d.registers := by
  induction h with
  | @done c d ht =>
    have hregs : d.registers = c.applied slots := registers_turn ht
    rw [hregs]
    exact cons c [] _ (nil _)
  | @next c c' d cs ht _ ih =>
    have hregs : c'.registers = c.applied slots := registers_turn ht
    exact cons c cs _ (hregs ▸ ih)

/-- The reports on a course, in the order of its turns. -/
def reports (slots : Array (Option Instruction)) (cs : List Config) : List Event :=
  cs.filterMap (observe slots)

@[simp] theorem reports_nil (slots : Array (Option Instruction)) : reports slots [] = [] := rfl

theorem reports_cons (slots : Array (Option Instruction)) (c : Config) (cs : List Config) :
    reports slots (c :: cs) = (c.observe slots).toList ++ reports slots cs := by
  simp only [reports, List.filterMap_eq_flatMap_toList, List.flatMap_cons]

/-- The number of turns of a course that cross a gap. -/
def gaps (slots : Array (Option Instruction)) (cs : List Config) : Nat :=
  cs.countP fun c => slots[c.pc]? = some none

@[simp] theorem gaps_nil (slots : Array (Option Instruction)) : gaps slots [] = 0 := rfl

theorem gaps_cons (slots : Array (Option Instruction)) (c : Config) (cs : List Config) :
    gaps slots (c :: cs) = gaps slots cs + if slots[c.pc]? = some none then 1 else 0 := by
  simp only [gaps, List.countP_cons, decide_eq_true_eq]

/-- **The loop follows a course,** and if it is traced it puts the reports on that course before its
log. -/
theorem course_of_exec {traced : Bool} {budget : Nat} {log log' : List Event}
    (h : exec slots terminal traced budget c log = some (d, log')) :
    ∃ cs, Course slots terminal c cs d ∧
      log' = (if traced then reports slots cs else []).reverse ++ log := by
  have hlog (c : Config) (cs : List Config) (log : List Event) :
      (if traced then reports slots (c :: cs) else []).reverse ++ log =
        (if traced then reports slots cs else []).reverse ++
          if traced then (c.observe slots).toList ++ log else log := by
    cases traced with
    | false => rfl
    | true => cases ho : c.observe slots <;> simp [reports_cons, ho]
  induction budget generalizing c log with
  | zero => cases h
  | succ budget ih =>
    unfold exec at h
    cases ht : c.turn slots terminal with
    | done c' =>
      simp only [ht, Option.some.injEq, Prod.mk.injEq] at h
      obtain ⟨rfl, rfl⟩ := h
      refine ⟨[c], .done ht, ?_⟩
      rw [hlog]
      cases traced <;> rfl
    | next c' =>
      simp only [ht] at h
      obtain ⟨cs, hcs, rfl⟩ := ih h
      exact ⟨c :: cs, .next ht hcs, (hlog c cs log).symm⟩

end Config

/-! ## Runs of programs -/

namespace Machine

open Config

variable {m : Machine} {p : Program} {inputs : List Nat} {r : Run}

/-- **What a run leaves is read off its course.** -/
theorem Halts.course (h : m.Halts p inputs r) : ∃ v cs d, p.validate = .ok v ∧
    Course v.program.slots v.terminal (.start inputs) cs d ∧ r.program = v.program ∧
    r.machine = ⟨d.registers, d.steps, m.traced⟩ ∧
    r.events = v.events ++ .runStarted inputs v.program.size v.terminal ::
      (if m.traced then reports v.program.slots cs else []) ++
        [.runFinished d.registers.output d.steps] := by
  obtain ⟨budget, h⟩ := h
  obtain ⟨v, hv, h⟩ := run_eq_ok_iff.1 h
  obtain ⟨d, log, hd, rfl⟩ := execute_eq_some_iff.1 h
  obtain ⟨cs, hcs, rfl⟩ := course_of_exec hd
  refine ⟨v, cs, d, hv, hcs, rfl, rfl, ?_⟩
  simp only [List.append_nil, List.reverse_reverse]

/-- Whether a run ends does not depend on the machine. -/
theorem Halts.on (h : m.Halts p inputs r) (m' : Machine) : ∃ r', m'.Halts p inputs r' := by
  obtain ⟨v, d, hv, hd, _⟩ := h.ends
  obtain ⟨r', hr', _⟩ := m'.halts_of_ends hv hd
  exact ⟨r', hr'⟩

end Machine

end RegisterMachine
