import RegisterMachine.Proofs.Containment
import RegisterMachine.Proofs.ProgramText

/-!
# Programs for multiplication, truncated subtraction and division

Three program texts.  Each of them consumes its inputs in loops of unit steps, and the number of
rounds of a loop is the value of a register at its start.  A loop is described by the configurations
between its rounds, as a family that is indexed by the rounds to go and the rounds done.

* `Config.Reaches.rounds` — a loop whose rounds lead from one member of such a family to the next is
  run to its end; `Config.Reaches.ends` — what is run through can be put before an end.
* `Config.Finishes slots terminal c x n` — the run from `c` ends with `x` in register 1 and counts
  `n` steps in all.
* `Source.ofLines` — a text from its lines; `Source.parse_commented` — a comment and instructions,
  one a line, are read as these instructions.
* `multiply_drain`, `multiply_finishes` — the inner loop adds `x2` to `x1`, the outer loop repeats
  that.
* `monus_finishes` — the loop takes `x3` away from `x1`, which stays at zero.
* `divide_full`, `divide_short` — the inner loop takes away the divisor, or ends with the run if too
  little is left; `divide_finishes` — what is left gets smaller, and the quotient grows by one.

Principal result: `arithmetic_programs_compute` — the three texts are read as programs that halt on
all inputs of their domain with the product, the difference and the quotient, after as many steps as
the formulas say.
-/

set_option autoImplicit false

namespace RegisterMachine

variable {slots : Array (Option Instruction)} {terminal : Nat} {c d e : Config}

/-! ## Loops -/

namespace Config

theorem Reaches.ends (h : Reaches slots terminal c d) (he : Ends slots terminal d e) :
    Ends slots terminal c e := by
  induction h using Relation.ReflTransGen.head_induction_on with
  | refl => exact he
  | head ht _ ih => exact .next ht ih

theorem Reaches.trans (h : Reaches slots terminal c d) (h' : Reaches slots terminal d e) :
    Reaches slots terminal c e :=
  Relation.ReflTransGen.trans h h'

instance : Trans (Reaches slots terminal) (Reaches slots terminal) (Reaches slots terminal) :=
  ⟨Reaches.trans⟩

/-- **A counted loop.**  If a round leads from `n + 1` rounds to go and `i` done to `n` to go and
`i + 1` done, then all of them are run. -/
theorem Reaches.rounds {f : Nat → Nat → Config}
    (h : ∀ n i, Reaches slots terminal (f (n + 1) i) (f n (i + 1))) (n : Nat) :
    Reaches slots terminal (f n 0) (f 0 n) := by
  suffices ∀ i, Reaches slots terminal (f n i) (f 0 (i + n)) by simpa using this 0
  induction n with
  | zero => exact fun _ => .refl
  | succ n ih =>
    intro i
    have hrest := ih (i + 1)
    rw [Nat.add_right_comm] at hrest
    exact (h n i).trans hrest

/-- The run from `c` ends with `x` in register 1, and the steps are `n` then. -/
def Finishes (slots : Array (Option Instruction)) (terminal : Nat) (c : Config)
    (x n : Nat) : Prop :=
  ∃ d, Ends slots terminal c d ∧ d.registers.output = x ∧ d.steps = n

theorem Reaches.finishes {x n : Nat} (h : Reaches slots terminal c d)
    (hd : Finishes slots terminal d x n) : Finishes slots terminal c x n := by
  obtain ⟨e, he, hx, hn⟩ := hd
  exact ⟨e, h.ends he, hx, hn⟩

end Config

/-- `p` passes its check as it stands, with these slots and this terminal label. -/
structure Program.Ready (p : Program) (slots : Array (Option Instruction))
    (terminal : Nat) : Prop where
  passes : p.Passes
  stop : ∃ label, label ∈ p.stopLabels
  slots : p.slots = slots
  terminal : p.terminalLabel = terminal

theorem Program.Ready.halts {p : Program} (h : p.Ready slots terminal) {inputs : List Nat}
    {x n : Nat} (hf : Config.Finishes slots terminal (.start inputs) x n) (m : Machine) :
    ∃ r, m.Halts p inputs r ∧ r.output = x ∧ r.machine.steps = n := by
  obtain ⟨hpass, ⟨label, hstop⟩, rfl, rfl⟩ := h
  obtain ⟨d, hd, rfl, rfl⟩ := hf
  obtain ⟨r, hr, _, hm⟩ := m.halts_of_ends (validate_of_stop hpass hstop) hd
  exact ⟨r, hr, by rw [Run.output, hm], by rw [hm]⟩

/-! ## Texts with a comment on top -/

namespace Source

theorem parse_comment {text : String} (h : '\n' ∉ text.toList) : parse ("#" ++ text) = .ok [] := by
  have hlist : ("#" ++ text).toList = '#' :: text.toList := by simp
  have hlines : linesOf ("#" ++ text) = [("#" ++ text).toList] := by
    refine List.splitOn_eq_singleton ?_
    rw [hlist]
    exact List.not_mem_cons_of_ne_of_not_mem (by decide) h
  have hscan : tokenize ("#" ++ text) =
      .ok [⟨.endOfInput, ⟨1, ('#' :: text.toList).length + 1⟩⟩] := by
    rw [tokenize, hlines, scanLines_singleton, scanLine, hlist, scanFrom_comment]
    rfl
  rw [parse, hscan, ok_bind, parseLexemes_endOfInput rfl]

/-- The text with these lines, each of them ended by a line feed. -/
def ofLines (lines : List String) : String := lines.foldr (fun line rest => line ++ "\n" ++ rest) ""

theorem parse_ofLines {is : List Instruction} (his : ∀ i ∈ is, i.Constructible) :
    parse (ofLines (is.map Instruction.text)) = .ok is := by
  induction is with
  | nil => exact parse_empty
  | cons i is ih =>
    have hi : parse i.text = .ok [i] := parse_of_parseOne (parseOne_text (his i List.mem_cons_self))
    have hrest := ih fun j hj => his j (List.mem_cons_of_mem i hj)
    show parse (i.text ++ "\n" ++ ofLines (is.map Instruction.text)) = .ok (i :: is)
    rw [parse_join hi, hrest]
    rfl

/-- **A comment above the instructions of a program does not matter.** -/
theorem parse_commented {comment : String} {is : List Instruction} (hc : '\n' ∉ comment.toList)
    (his : ∀ i ∈ is, i.Constructible) :
    Program.parse (ofLines (("#" ++ comment) :: is.map Instruction.text)) = .ok (.ofList is) := by
  have hread : parse ("#" ++ comment ++ "\n" ++ ofLines (is.map Instruction.text)) = .ok is := by
    rw [parse_join (parse_comment hc), parse_ofLines his]
    rfl
  exact congrArg (Except.map Program.ofList) hread

end Source

namespace Arithmetic

open Config Source

/-! ## Multiplication -/

def multiplyLines : List String :=
  ["# x1 = x2 * x3",
    "1. if x3 == 0 goto 9 else goto 2",
    "2. x3 = x3 - 1",
    "3. x4 = x2",
    "4. if x4 == 0 goto 8 else goto 5",
    "5. x1 = x1 + 1",
    "6. x4 = x4 - 1",
    "7. if x4 == 0 goto 8 else goto 5",
    "8. if x3 == 0 goto 9 else goto 2",
    "9. stop"]

def multiply : List Instruction :=
  [⟨1, .branch 3 9 2⟩, ⟨2, .decrement 3⟩, ⟨3, .copy 4 2⟩, ⟨4, .branch 4 8 5⟩, ⟨5, .increment 1⟩,
    ⟨6, .decrement 4⟩, ⟨7, .branch 4 8 5⟩, ⟨8, .branch 3 9 2⟩, ⟨9, .stop⟩]

def multiplySlots : Array (Option Instruction) := (multiply.map some).toArray

theorem parse_multiplyLines : Program.parse (ofLines multiplyLines) = .ok (.ofList multiply) := by
  have hlines : multiplyLines = ("#" ++ " x1 = x2 * x3") :: multiply.map Instruction.text := by
    decide +kernel
  rw [hlines]
  exact parse_commented (by decide +kernel) (by decide)

theorem ready_multiply : (Program.ofList multiply).Ready multiplySlots 10 :=
  ⟨⟨by decide +kernel, by decide +kernel⟩,
    ⟨9, by decide +kernel⟩, by decide +kernel, by decide +kernel⟩

/-- Between the rounds of the inner loop, `n` of them to go and `i` done. -/
def adding (a x y steps n i : Nat) : Config :=
  ⟨if n = 0 then 7 else 4, ⟨#[a + i, x, y, n]⟩, steps + 3 * i⟩

/-- **The inner loop adds `x4` to `x1`.** -/
theorem multiply_drain (a x y n steps : Nat) :
    Reaches multiplySlots 10 ⟨3, ⟨#[a, x, y, n]⟩, steps⟩
      ⟨7, ⟨#[a + n, x, y, 0]⟩, steps + 1 + 3 * n⟩ := by
  have enter : Reaches multiplySlots 10 ⟨3, ⟨#[a, x, y, n]⟩, steps⟩
      (adding a x y (steps + 1) n 0) := by
    cases n <;> exact .single rfl
  have round (n i : Nat) : Reaches multiplySlots 10 (adding a x y (steps + 1) (n + 1) i)
      (adding a x y (steps + 1) n (i + 1)) :=
    calc
      Reaches multiplySlots 10 _ ⟨5, ⟨#[a + i + 1, x, y, n + 1]⟩, steps + 1 + 3 * i + 1⟩ :=
        .single rfl
      Reaches multiplySlots 10 _ ⟨6, ⟨#[a + i + 1, x, y, n]⟩, steps + 1 + 3 * i + 2⟩ := .single rfl
      Reaches multiplySlots 10 _ _ := by cases n <;> exact .single rfl
  exact enter.trans (Reaches.rounds round n)

/-- A round of the outer loop, from its last branch to the next one. -/
theorem multiply_round (a x n steps : Nat) :
    Reaches multiplySlots 10 ⟨7, ⟨#[a, x, n + 1, 0]⟩, steps⟩
      ⟨7, ⟨#[a + x, x, n, 0]⟩, steps + (3 * x + 4)⟩ := by
  rw [show steps + (3 * x + 4) = steps + 3 + 1 + 3 * x by omega]
  calc
    Reaches multiplySlots 10 _ ⟨1, ⟨#[a, x, n + 1, 0]⟩, steps + 1⟩ := .single rfl
    Reaches multiplySlots 10 _ ⟨2, ⟨#[a, x, n, 0]⟩, steps + 2⟩ := .single rfl
    Reaches multiplySlots 10 _ ⟨3, ⟨#[a, x, n, x]⟩, steps + 3⟩ := .single rfl
    Reaches multiplySlots 10 _ _ := multiply_drain ..

/-- Between the rounds of the outer loop, `n` of them to go and `i` done after the first. -/
def multiplying (x n i : Nat) : Config := ⟨7, ⟨#[x * (i + 1), x, n, 0]⟩, (3 * x + 4) * (i + 1)⟩

/-- The first round differs from the others, since the file has no cell for `x4` yet. -/
theorem multiply_first (x n : Nat) :
    Reaches multiplySlots 10 (.start [x, n + 1]) (multiplying x n 0) := by
  have hsteps : (3 * x + 4) * (0 + 1) = 3 + 1 + 3 * x := by omega
  rw [multiplying, hsteps]
  calc
    Reaches multiplySlots 10 _ ⟨1, ⟨#[0, x, n + 1]⟩, 1⟩ := .single rfl
    Reaches multiplySlots 10 _ ⟨2, ⟨#[0, x, n]⟩, 2⟩ := .single rfl
    Reaches multiplySlots 10 _ ⟨3, ⟨#[0, x, n, x]⟩, 3⟩ := .single rfl
    Reaches multiplySlots 10 _ _ := multiply_drain ..

/-- **The outer loop adds `x2` to `x1` as often as `x3` says.** -/
theorem multiply_finishes (x y : Nat) :
    Finishes multiplySlots 10 (.start [x, y]) (x * y) (2 + y * (3 * x + 4)) := by
  cases y with
  | zero =>
    have leave : Reaches multiplySlots 10 (.start [x, 0]) ⟨8, ⟨#[0, x, 0]⟩, 1⟩ := .single rfl
    rw [Nat.zero_mul]
    exact leave.finishes ⟨_, .done rfl, rfl, rfl⟩
  | succ y =>
    have loop : Reaches multiplySlots 10 (multiplying x y 0) (multiplying x 0 y) :=
      Reaches.rounds (fun n i => multiply_round (x * (i + 1)) x n _) y
    have leave : Reaches multiplySlots 10 (multiplying x 0 y)
        ⟨8, ⟨#[x * (y + 1), x, 0, 0]⟩, (3 * x + 4) * (y + 1) + 1⟩ := .single rfl
    rw [Nat.mul_comm (y + 1), Nat.add_comm 2]
    exact (((multiply_first x y).trans loop).trans leave).finishes ⟨_, .done rfl, rfl, rfl⟩

/-! ## Truncated subtraction -/

def monusLines : List String :=
  ["# x1 = max(x2 - x3, 0)",
    "1. x1 = x2",
    "2. if x3 == 0 goto 6 else goto 3",
    "3. x1 = x1 - 1",
    "4. x3 = x3 - 1",
    "5. if x3 == 0 goto 6 else goto 3",
    "6. stop"]

def monus : List Instruction :=
  [⟨1, .copy 1 2⟩, ⟨2, .branch 3 6 3⟩, ⟨3, .decrement 1⟩, ⟨4, .decrement 3⟩, ⟨5, .branch 3 6 3⟩,
    ⟨6, .stop⟩]

def monusSlots : Array (Option Instruction) := (monus.map some).toArray

theorem parse_monusLines : Program.parse (ofLines monusLines) = .ok (.ofList monus) := by
  have hlines : monusLines = ("#" ++ " x1 = max(x2 - x3, 0)") :: monus.map Instruction.text := by
    decide +kernel
  rw [hlines]
  exact parse_commented (by decide +kernel) (by decide)

theorem ready_monus : (Program.ofList monus).Ready monusSlots 7 :=
  ⟨⟨by decide +kernel, by decide +kernel⟩,
    ⟨6, by decide +kernel⟩, by decide +kernel, by decide +kernel⟩

/-- Between the rounds of the loop, `n` of them to go and `i` done. -/
def lowering (x n i : Nat) : Config := ⟨if n = 0 then 5 else 2, ⟨#[x - i, x, n]⟩, 2 + 3 * i⟩

theorem monus_round (x n i : Nat) :
    Reaches monusSlots 7 (lowering x (n + 1) i) (lowering x n (i + 1)) :=
  calc
    Reaches monusSlots 7 _ ⟨3, ⟨#[x - i - 1, x, n + 1]⟩, 2 + 3 * i + 1⟩ := .single rfl
    Reaches monusSlots 7 _ ⟨4, ⟨#[x - i - 1, x, n]⟩, 2 + 3 * i + 2⟩ := .single rfl
    Reaches monusSlots 7 _ _ := by cases n <;> exact .single rfl

/-- **The loop takes one from `x1` as often as `x3` says.** -/
theorem monus_finishes (x y : Nat) : Finishes monusSlots 7 (.start [x, y]) (x - y) (3 + 3 * y) := by
  have enter : Reaches monusSlots 7 (.start [x, y]) (lowering x y 0) :=
    calc
      Reaches monusSlots 7 _ ⟨1, ⟨#[x, x, y]⟩, 1⟩ := .single rfl
      Reaches monusSlots 7 _ _ := by cases y <;> exact .single rfl
  rw [show 3 + 3 * y = 2 + 3 * y + 1 by omega]
  exact (enter.trans (Reaches.rounds (monus_round x) y)).finishes ⟨_, .done rfl, rfl, rfl⟩

/-! ## Division -/

def divideLines : List String :=
  ["# x1 = x2 / x3 (integer division, x3 > 0)",
    "1. if x2 == 0 goto 10 else goto 2",
    "2. x4 = x3",
    "3. x2 = x2 - 1",
    "4. x4 = x4 - 1",
    "5. if x2 == 0 goto 6 else goto 7",
    "6. if x4 == 0 goto 8 else goto 10",
    "7. if x4 == 0 goto 8 else goto 3",
    "8. x1 = x1 + 1",
    "9. if x2 == 0 goto 10 else goto 2",
    "10. stop"]

def divide : List Instruction :=
  [⟨1, .branch 2 10 2⟩, ⟨2, .copy 4 3⟩, ⟨3, .decrement 2⟩, ⟨4, .decrement 4⟩, ⟨5, .branch 2 6 7⟩,
    ⟨6, .branch 4 8 10⟩, ⟨7, .branch 4 8 3⟩, ⟨8, .increment 1⟩, ⟨9, .branch 2 10 2⟩, ⟨10, .stop⟩]

def divideSlots : Array (Option Instruction) := (divide.map some).toArray

theorem parse_divideLines : Program.parse (ofLines divideLines) = .ok (.ofList divide) := by
  have hlines : divideLines =
      ("#" ++ " x1 = x2 / x3 (integer division, x3 > 0)") :: divide.map Instruction.text := by
    decide +kernel
  rw [hlines]
  exact parse_commented (by decide +kernel) (by decide)

theorem ready_divide : (Program.ofList divide).Ready divideSlots 11 :=
  ⟨⟨by decide +kernel, by decide +kernel⟩,
    ⟨10, by decide +kernel⟩, by decide +kernel, by decide +kernel⟩

/-- Between the rounds of the inner loop, `n` of them to go and `i` done, if `x2` is at least the
divisor: `r` will be left of it. -/
def takingAll (q r y steps n i : Nat) : Config :=
  ⟨if n = 0 then 7 else 2, ⟨#[q, r + n, y, n]⟩, steps + 4 * i⟩

/-- Between the rounds of the inner loop, `n` of them to go and `i` done, if `x2` is less than the
divisor: `e + 1` will be missing. -/
def takingRest (q e y steps n i : Nat) : Config :=
  ⟨if n = 0 then 9 else 2, ⟨#[q, n, y, e + 1 + n]⟩, steps + 4 * i⟩

/-- **The inner loop takes the divisor away.** -/
theorem divide_full (q r y n steps : Nat) :
    Reaches divideSlots 11 ⟨2, ⟨#[q, r + (n + 1), y, n + 1]⟩, steps⟩
      ⟨7, ⟨#[q, r, y, 0]⟩, steps + 4 * (n + 1)⟩ := by
  have round (n i : Nat) : Reaches divideSlots 11 (takingAll q r y steps (n + 1) i)
      (takingAll q r y steps n (i + 1)) :=
    calc
      Reaches divideSlots 11 _ ⟨3, ⟨#[q, r + n, y, n + 1]⟩, steps + 4 * i + 1⟩ := .single rfl
      Reaches divideSlots 11 _ ⟨4, ⟨#[q, r + n, y, n]⟩, steps + 4 * i + 2⟩ := .single rfl
      Reaches divideSlots 11 _ _ := by
        -- the last round leaves by one of two branches, as nothing or something is left
        cases n with
        | zero => cases r <;> exact .head rfl (.single rfl)
        | succ n => exact .head rfl (.single rfl)
  exact Reaches.rounds round (n + 1)

/-- **The inner loop runs out of what it takes from,** and the run ends with it. -/
theorem divide_short (q e y n steps : Nat) :
    Reaches divideSlots 11 ⟨2, ⟨#[q, n + 1, y, e + 1 + (n + 1)]⟩, steps⟩
      ⟨9, ⟨#[q, 0, y, e + 1]⟩, steps + 4 * (n + 1)⟩ := by
  have round (n i : Nat) : Reaches divideSlots 11 (takingRest q e y steps (n + 1) i)
      (takingRest q e y steps n (i + 1)) :=
    calc
      Reaches divideSlots 11 _ ⟨3, ⟨#[q, n, y, e + 1 + (n + 1)]⟩, steps + 4 * i + 1⟩ := .single rfl
      Reaches divideSlots 11 _ ⟨4, ⟨#[q, n, y, e + 1 + n]⟩, steps + 4 * i + 2⟩ := .single rfl
      Reaches divideSlots 11 _ _ := by cases n <;> exact .head rfl (.single rfl)
  exact Reaches.rounds round (n + 1)

/-- The steps of a division from the inner loop on. -/
def divisionSteps (b y : Nat) : Nat := 4 * b + 2 * (b / y) + (b + y - 1) / y

theorem divisionSteps_zero {y : Nat} (hy : 0 < y) : divisionSteps 0 y = 0 := by
  have hceil : (0 + y - 1) / y = 0 := Nat.div_eq_of_lt (by omega)
  rw [divisionSteps, hceil, Nat.zero_div]

theorem divisionSteps_of_lt {b y : Nat} (hb : 0 < b) (h : b < y) :
    divisionSteps b y = 4 * b + 1 := by
  have hceil : (b + y - 1) / y = 1 := by
    rw [Nat.div_eq_iff (by omega)]
    omega
  rw [divisionSteps, hceil, Nat.div_eq_of_lt h]

theorem divisionSteps_add {y : Nat} (hy : 0 < y) (r : Nat) :
    divisionSteps (r + y) y = 4 * y + 3 + divisionSteps r y := by
  have hceil : (r + y + y - 1) / y = (r + y - 1) / y + 1 := by
    rw [show r + y + y - 1 = r + y - 1 + y by omega, Nat.add_div_right _ hy]
  rw [divisionSteps, divisionSteps, hceil, Nat.add_div_right _ hy]
  omega

/-- **Every full round of the outer loop takes the divisor from `x2` and adds one to `x1`.** -/
theorem divide_finishes_from {y : Nat} (hy : 0 < y) (b : Nat) (hb : 0 < b) (q steps : Nat) :
    Finishes divideSlots 11 ⟨2, ⟨#[q, b, y, y]⟩, steps⟩ (q + b / y)
      (steps + divisionSteps b y) := by
  induction b using Nat.strongRecOn generalizing q steps with
  | ind b ih =>
    rcases Nat.lt_or_ge b y with hlt | hge
    · rw [divisionSteps_of_lt hb hlt, Nat.div_eq_of_lt hlt]
      obtain ⟨n, rfl⟩ : ∃ n, b = n + 1 := ⟨b - 1, by omega⟩
      obtain ⟨e, he⟩ : ∃ e, y = e + 1 + (n + 1) := ⟨y - n - 2, by omega⟩
      have hrun := divide_short q e y n steps
      rw [← he] at hrun
      exact hrun.finishes ⟨_, .done rfl, rfl, rfl⟩
    · obtain ⟨r, rfl⟩ : ∃ r, b = r + y := ⟨b - y, by omega⟩
      obtain ⟨n, rfl⟩ : ∃ n, y = n + 1 := ⟨y - 1, by omega⟩
      rw [divisionSteps_add hy, Nat.add_div_right _ hy]
      have hfull : Reaches divideSlots 11 ⟨2, ⟨#[q, r + (n + 1), n + 1, n + 1]⟩, steps⟩
          ⟨8, ⟨#[q + 1, r, n + 1, 0]⟩, steps + 4 * (n + 1) + 1⟩ :=
        (divide_full q r (n + 1) n steps).tail rfl
      refine hfull.finishes ?_
      cases r with
      | zero =>
        have hstop : Reaches divideSlots 11 ⟨8, ⟨#[q + 1, 0, n + 1, 0]⟩, steps + 4 * (n + 1) + 1⟩
            ⟨9, ⟨#[q + 1, 0, n + 1, 0]⟩, steps + 4 * (n + 1) + 2⟩ := .single rfl
        rw [divisionSteps_zero hy, Nat.zero_div]
        exact hstop.finishes ⟨_, .done rfl, rfl, rfl⟩
      | succ r =>
        have hagain : Reaches divideSlots 11
          ⟨8, ⟨#[q + 1, r + 1, n + 1, 0]⟩, steps + 4 * (n + 1) + 1⟩
            ⟨2, ⟨#[q + 1, r + 1, n + 1, n + 1]⟩, steps + 4 * (n + 1) + 3⟩ := .head rfl (.single rfl)
        have hrest := ih (r + 1) (by omega) (by omega) (q + 1) (steps + 4 * (n + 1) + 3)
        have hquotient : q + 1 + (r + 1) / (n + 1) = q + ((r + 1) / (n + 1) + 1) := by omega
        rw [hquotient, Nat.add_assoc steps, Nat.add_assoc steps] at hrest
        exact hagain.finishes hrest

theorem divide_finishes {y : Nat} (hy : 0 < y) (x : Nat) :
    Finishes divideSlots 11 (.start [x, y]) (x / y) (2 + divisionSteps x y) := by
  cases x with
  | zero =>
    have leave : Reaches divideSlots 11 (.start [0, y]) ⟨9, ⟨#[0, 0, y]⟩, 1⟩ := .single rfl
    rw [divisionSteps_zero hy, Nat.zero_div]
    exact leave.finishes ⟨_, .done rfl, rfl, rfl⟩
  | succ x =>
    have enter : Reaches divideSlots 11 (.start [x + 1, y]) ⟨2, ⟨#[0, x + 1, y, y]⟩, 2⟩ :=
      .head rfl (.single rfl)
    have hrest := divide_finishes_from hy (x + 1) (Nat.succ_pos x) 0 2
    rw [Nat.zero_add] at hrest
    exact enter.finishes hrest

/-! ## The three programs -/

/-- **The programs compute product, difference and quotient.**  The three texts are read as programs
that halt on all inputs, the last one on those with a divisor other than zero, on every machine.
The outputs are `x * y`, the larger of `x - y` and zero, and `x / y` rounded down, however large
they get.  The steps are those that the formulas say. -/
theorem arithmetic_programs_compute :
    (∃ p, Program.parse (ofLines multiplyLines) = .ok p ∧ ∀ (m : Machine) (x y : Nat),
      ∃ r, m.Halts p [x, y] r ∧ r.output = x * y ∧ r.machine.steps = 2 + y * (3 * x + 4)) ∧
    (∃ p, Program.parse (ofLines monusLines) = .ok p ∧ ∀ (m : Machine) (x y : Nat),
      ∃ r, m.Halts p [x, y] r ∧ (r.output : Int) = max ((x : Int) - y) 0 ∧
        r.machine.steps = 3 + 3 * y) ∧
    ∃ p, Program.parse (ofLines divideLines) = .ok p ∧ ∀ (m : Machine) (x y : Nat), 0 < y →
      ∃ r, m.Halts p [x, y] r ∧ r.output = x / y ∧
        r.machine.steps = 2 + 4 * x + 2 * (x / y) + (x + y - 1) / y := by
  refine ⟨⟨_, parse_multiplyLines, fun m x y => ?_⟩, ⟨_, parse_monusLines, fun m x y => ?_⟩,
    ⟨_, parse_divideLines, fun m x y hy => ?_⟩⟩
  · exact ready_multiply.halts (multiply_finishes x y) m
  · obtain ⟨r, hr, houtput, hsteps⟩ := ready_monus.halts (monus_finishes x y) m
    exact ⟨r, hr, by omega, hsteps⟩
  · obtain ⟨r, hr, houtput, hsteps⟩ := ready_divide.halts (divide_finishes hy x) m
    refine ⟨r, hr, houtput, ?_⟩
    rw [hsteps, divisionSteps]
    omega

/-- A product of more than 64 bits, a difference that is cut off at zero, and a quotient with a
remainder. -/
theorem arithmetic_programs_compute_large :
    (∃ p r, Program.parse (ofLines multiplyLines) = .ok p ∧
      (Machine.new false).Halts p [18446744073709551615, 18446744073709551615] r ∧
      r.output = 340282366920938463426481119284349108225) ∧
    (∃ p r, Program.parse (ofLines monusLines) = .ok p ∧
      (Machine.new false).Halts p [3, 9] r ∧ r.output = 0) ∧
    ∃ p r, Program.parse (ofLines divideLines) = .ok p ∧
      (Machine.new false).Halts p [18446744073709551615, 10] r ∧
        r.output = 1844674407370955161 := by
  obtain ⟨⟨p, hp, hmul⟩, ⟨q, hq, hsub⟩, ⟨d, hd, hdiv⟩⟩ := arithmetic_programs_compute
  obtain ⟨r, hr, hr', _⟩ := hmul (.new false) 18446744073709551615 18446744073709551615
  obtain ⟨s, hs, hs', _⟩ := hsub (.new false) 3 9
  obtain ⟨t, ht, ht', _⟩ := hdiv (.new false) 18446744073709551615 10 (by decide)
  exact ⟨⟨p, r, hp, hr, hr'⟩, ⟨q, s, hq, hs, by simpa using hs'⟩, ⟨d, t, hd, ht, ht'⟩⟩

end Arithmetic

end RegisterMachine
