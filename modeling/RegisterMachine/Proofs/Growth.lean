import RegisterMachine.Proofs.Courses

/-!
# How far a run lengthens the register file

The file starts with `x1` and the inputs.  It grows to a register that is written, even if the write
changes no value, and never to one that is only tested or copied from.

* `Op.writes?` — the register that an operation writes; `Op.size_apply`, `Op.get_apply_of_ne` — how
  long the file is after it, and that it keeps all other registers.
* `Config.written? slots c` — the register that the next turn writes; `written slots cs` — those of
  a whole course.
* `size_applied`, `get_applied` — one turn; `Course.size_eq`, `Course.get_eq` — whole courses.

Principal result: `run_grows_to_written_registers` — the length of the file after a run, what may
lengthen it, and what stands in the cells that no instruction wrote.
-/

set_option autoImplicit false

namespace RegisterMachine

variable {slots : Array (Option Instruction)} {terminal : Nat} {c d : Config} {cs : List Config}

/-! ## Operations -/

namespace Op

variable {op : Op}

/-- The register that the operation writes, if it writes one. -/
def writes? : Op → Option Nat
  | set register _ | increment register | decrement register => some register
  | copy dest _ => some dest
  | branch .. | stop => none

/-- The file reaches as far as before, or to the register that is written. -/
theorem size_apply (h : ∀ x ∈ op.registers, 1 ≤ x) (r : Registers) :
    (op.apply r).size = max r.size (op.writes?.getD 0) := by
  cases op with
  | set register value => exact r.size_update (h register List.mem_cons_self) _
  | increment register => exact r.size_update (h register List.mem_cons_self) _
  | decrement register => exact r.size_update (h register List.mem_cons_self) _
  | copy dest source => exact r.size_update (h dest List.mem_cons_self) _
  | branch register ifZero otherwise => exact (Nat.max_zero _).symm
  | stop => exact (Nat.max_zero _).symm

theorem get_apply_of_ne (h : ∀ x ∈ op.registers, 1 ≤ x) (r : Registers) {x : Nat}
    (hx : op.writes? ≠ some x) :
    (op.apply r).get x = r.get x := by
  have keep {register : Nat} (hr : register ∈ op.registers) (hne : some register ≠ some x)
    (f : Nat → Nat) :
      (r.update register f).get x = r.get x := by
    rw [r.get_update (h register hr), if_neg]
    rintro rfl
    exact hne rfl
  cases op with
  | set register value => exact keep List.mem_cons_self hx _
  | increment register => exact keep List.mem_cons_self hx _
  | decrement register => exact keep List.mem_cons_self hx _
  | copy dest source => exact keep List.mem_cons_self hx _
  | branch register ifZero otherwise => rfl
  | stop => rfl

end Op

namespace Config

/-! ## One turn -/

/-- The register that the next turn writes, if it writes one. -/
def written? (slots : Array (Option Instruction)) (c : Config) : Option Nat :=
  (c.current? slots).bind fun i => i.op.writes?

theorem size_applied (hc : Confined slots terminal) (c : Config) :
    (c.applied slots).size = max c.registers.size ((c.written? slots).getD 0) := by
  unfold applied written?
  cases hi : c.current? slots with
  | none => exact (Nat.max_zero _).symm
  | some i => exact Op.size_apply (hc.registers (current?_eq_some_iff.1 hi)) c.registers

theorem get_applied (hc : Confined slots terminal) {x : Nat} (hx : c.written? slots ≠ some x) :
    (c.applied slots).get x = c.registers.get x := by
  unfold applied
  unfold written? at hx
  cases hi : c.current? slots with
  | none => rfl
  | some i =>
    rw [hi] at hx
    exact Op.get_apply_of_ne (hc.registers (current?_eq_some_iff.1 hi)) c.registers hx

/-- **A turn that lengthens the file writes the register at its new end.** -/
theorem written?_of_size_lt (hc : Confined slots terminal)
    (hlt : c.registers.size < (c.turn slots terminal).config.registers.size) :
    c.written? slots = some (c.turn slots terminal).config.registers.size := by
  rw [registers_turn rfl, size_applied hc] at hlt ⊢
  cases hw : c.written? slots with
  | none =>
    rw [hw, Option.getD_none, Nat.max_zero] at hlt
    exact absurd hlt (Nat.lt_irrefl _)
  | some x =>
    rw [hw, Option.getD_some] at hlt
    rw [Option.getD_some]
    congr 1
    omega

/-! ## A whole course -/

/-- The registers that are written on a course, turn by turn. -/
def written (slots : Array (Option Instruction)) (cs : List Config) : List Nat :=
  cs.filterMap (written? slots)

theorem written_cons (slots : Array (Option Instruction)) (c : Config) (cs : List Config) :
    written slots (c :: cs) = (c.written? slots).toList ++ written slots cs := by
  simp only [written, List.filterMap_eq_flatMap_toList, List.flatMap_cons]

theorem foldl_max_written_cons (hc : Confined slots terminal) (c : Config) (cs : List Config) :
    (written slots (c :: cs)).foldl max c.registers.size =
      (written slots cs).foldl max (c.applied slots).size := by
  rw [written_cons, List.foldl_append, size_applied hc]
  cases c.written? slots with
  | none => rw [Option.getD_none, Nat.max_zero]; rfl
  | some x => rfl

/-- **The file grows to the largest register that is written.** -/
theorem Course.size_eq (h : Course slots terminal c cs d) (hc : Confined slots terminal) :
    d.registers.size = (written slots cs).foldl max c.registers.size := by
  refine h.registers_induction
    (motive := fun r cs r' => r'.size = (written slots cs).foldl max r.size)
    (fun r => rfl) ?_
  intro c cs r' ih
  rw [foldl_max_written_cons hc, ih]

/-- **Registers that are not written keep their values.** -/
theorem Course.get_eq (h : Course slots terminal c cs d) (hc : Confined slots terminal) {x : Nat}
    (hx : x ∉ written slots cs) : d.registers.get x = c.registers.get x := by
  revert hx
  refine h.registers_induction (motive := fun r cs r' => x ∉ written slots cs → r'.get x = r.get x)
    (fun r _ => rfl) ?_
  intro c cs r' ih hx
  rw [written_cons, List.mem_append, Option.mem_toList, not_or] at hx
  rw [ih hx.2, get_applied hc hx.1]

end Config

/-- The cells of a file, as they are read. -/
theorem Registers.getElem?_cells {r : Registers} {k : Nat} (h : k < r.size) :
    r.cells[k]? = some (r.get (k + 1)) := by
  unfold Registers.size at h
  simp [Registers.get, h]

theorem Registers.get_ofInputs (inputs : List Nat) (k : Nat) :
    (Registers.ofInputs inputs).get (k + 1) = (0 :: inputs).getD k 0 := by
  simp [Registers.get, Registers.ofInputs]

/-- **A run grows the register file to the registers that it writes.**  Follow a run that ends
through its course, and take the registers that its instructions set, increment, decrement or copy
to.  The file ends as long as the largest of these, or as long as it began, with `x1` and the
inputs, if that is more.  No turn lengthens it but one that writes the register at its new end, so
testing a register or copying from it never does.  And a cell that no instruction wrote holds what
it held at the start: its input, and zero in `x1` and past the inputs. -/
theorem run_grows_to_written_registers {p : Program} {is : List Instruction} (hp : p.Built is)
    {v : Validated} (hv : p.validate = .ok v) {m : Machine} {inputs : List Nat} {r : Run}
    (hr : m.Halts p inputs r) :
    let slots := v.program.slots
    ∃ cs d, Config.Course slots v.terminal (.start inputs) cs d ∧
      r.machine.registers = d.registers ∧
      r.machine.registers.size = (Config.written slots cs).foldl max (inputs.length + 1) ∧
      (∀ c : Config, c.registers.size < (c.turn slots v.terminal).config.registers.size →
        ∃ i, c.current? slots = some i ∧
          i.op.writes? = some (c.turn slots v.terminal).config.registers.size) ∧
      ∀ k < r.machine.registers.size, k + 1 ∉ Config.written slots cs →
        r.machine.registers.cells[k]? = some ((0 :: inputs).getD k 0) := by
  intro slots
  have hc : Confined slots v.terminal := hp.confined hv
  obtain ⟨v', cs, d, hv', hcs, _, hm, _⟩ := hr.course
  obtain rfl : v = v' := Except.ok.inj (hv.symm.trans hv')
  rw [hm]
  refine ⟨cs, d, hcs, rfl, ?_, ?_, ?_⟩
  · have hstart : (Config.start inputs).registers.size = inputs.length + 1 := rfl
    rw [← hstart]
    exact hcs.size_eq hc
  · intro c hlt
    exact Option.bind_eq_some_iff.1 (Config.written?_of_size_lt hc hlt)
  · intro k hk hnot
    rw [Registers.getElem?_cells hk, hcs.get_eq hc hnot]
    exact congrArg some (Registers.get_ofInputs inputs k)

/-- `x9` is tested and `x8` copied from, but the file ends with `x5`, which was zero and is counted
down. -/
theorem run_grows_by_decrement_of_zero :
    ∃ r, (Machine.new false).Halts (.ofList [⟨1, .branch 9 2 2⟩, ⟨2, .copy 3 8⟩, ⟨3, .decrement 5⟩])
      [7] r ∧
      r.machine.registers.size = [3, 5].foldl max 2 ∧ r.machine.registers.cells[1]? = some 7 ∧
      r.machine.registers.cells[3]? = some 0 := by
  have hp : Program.Built _ [⟨1, .branch 9 2 2⟩, ⟨2, .copy 3 8⟩, ⟨3, .decrement 5⟩] :=
    .ofList (by decide)
  have hr : (Machine.new false).Halts
      (.ofList [⟨1, .branch 9 2 2⟩, ⟨2, .copy 3 8⟩, ⟨3, .decrement 5⟩]) [7] _ :=
    ⟨4, rfl⟩
  obtain ⟨cs, d, hcs, _, hsize, _, hcells⟩ := run_grows_to_written_registers hp rfl hr
  have hcourse : Config.Course
      #[some ⟨1, .branch 9 2 2⟩, some ⟨2, .copy 3 8⟩, some ⟨3, .decrement 5⟩, some ⟨4, .stop⟩] 4
        (.start [7]) _ _ :=
    .next rfl (.next rfl (.next rfl (.done rfl)))
  obtain ⟨rfl, _⟩ := hcs.unique hcourse
  exact ⟨_, hr, hsize, hcells 1 (by decide) (by decide), hcells 3 (by decide) (by decide)⟩

end RegisterMachine
