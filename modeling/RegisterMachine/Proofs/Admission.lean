import Mathlib.Data.List.Forall2
import Mathlib.Data.List.ReduceOption
import RegisterMachine.Goedel.Program
import RegisterMachine.Source.Grammar

/-!
# What gets into a program

Instructions come from drafts, from text and from numbers.  Each of these ways ends in
`Draft.build`, so whatever is admitted is well-formed.

* `mapM_eq_ok_iff`, `exists_mapM_eq_ok` — reading a list succeeds exactly when every element is
  read; `exists_of_mem_mapM` — and what is read comes from an element.
* `wellFormed_of_build`, `wellFormed_of_parse`, `wellFormed_of_decodeInstruction` — the three ways.
* `Instruction.Constructible` — the instructions that drafts of 64-bit numbers describe;
  `constructible_iff` — they are the well-formed ones whose fields fit.
-/

set_option autoImplicit false

namespace RegisterMachine

variable {α β ε : Type} {i : Instruction}

theorem bind_eq_error_iff {x : Except ε α} {f : α → Except ε β} {e : ε} :
    (x >>= f) = .error e ↔ x = .error e ∨ ∃ a, x = .ok a ∧ f a = .error e := by
  cases x with
  | error e => simp [bind, Except.bind]
  | ok a => simp [bind, Except.bind]

theorem mapM_eq_ok_iff {f : α → Except ε β} {xs : List α} {ys : List β} :
    xs.mapM f = .ok ys ↔ List.Forall₂ (fun x y => f x = .ok y) xs ys := by
  induction xs generalizing ys with
  | nil =>
    rw [List.mapM_nil, List.forall₂_nil_left_iff]
    exact ⟨fun h => (Except.ok.inj h).symm, fun h => congrArg Except.ok h.symm⟩
  | cons x xs ih =>
    rw [List.mapM_cons, bind_eq_ok_iff, List.forall₂_cons_left_iff]
    constructor
    · rintro ⟨y, hy, h⟩
      obtain ⟨rest, hrest, h⟩ := bind_eq_ok_iff.1 h
      exact ⟨y, rest, hy, ih.1 hrest, (Except.ok.inj h).symm⟩
    · rintro ⟨y, rest, hy, hrest, rfl⟩
      exact ⟨y, hy, bind_eq_ok_iff.2 ⟨rest, ih.2 hrest, rfl⟩⟩

theorem exists_mapM_eq_ok {f : α → Except ε β} {xs : List α} (h : ∀ x ∈ xs, ∃ y, f x = .ok y) :
    ∃ ys, xs.mapM f = .ok ys := by
  induction xs with
  | nil => exact ⟨[], rfl⟩
  | cons x xs ih =>
    obtain ⟨y, hy⟩ := h x List.mem_cons_self
    obtain ⟨ys, hys⟩ := ih fun z hz => h z (List.mem_cons_of_mem x hz)
    exact ⟨y :: ys, mapM_eq_ok_iff.2 (.cons hy (mapM_eq_ok_iff.1 hys))⟩

/-- Whatever is read from a list is read from one of its elements. -/
theorem exists_of_mem_mapM {f : α → Except ε β} {xs : List α} {ys : List β} (h : xs.mapM f = .ok ys)
    {y : β} (hy : y ∈ ys) : ∃ x ∈ xs, f x = .ok y := by
  have h := mapM_eq_ok_iff.1 h
  induction h with
  | nil => cases hy
  | @cons x z xs zs hz hzs ih =>
    rcases List.mem_cons.1 hy with rfl | hy
    · exact ⟨x, List.mem_cons_self, hz⟩
    · obtain ⟨w, hw, hwy⟩ := ih (mapM_eq_ok_iff.2 hzs) hy
      exact ⟨w, List.mem_cons_of_mem x hw, hwy⟩

/-- A property of everything that `f` reads holds of everything in a list that it reads. -/
theorem forall_of_mapM {P : β → Prop} {f : α → Except ε β} (hf : ∀ x y, f x = .ok y → P y)
    {xs : List α} {ys : List β} (h : xs.mapM f = .ok ys) : ∀ y ∈ ys, P y := by
  intro y hy
  obtain ⟨x, _, hxy⟩ := exists_of_mem_mapM h hy
  exact hf x y hxy

instance (i : Instruction) : Decidable i.WellFormed :=
  decidable_of_iff
    (1 ≤ i.label ∧ (∀ t ∈ i.op.targets, 1 ≤ t) ∧ ∀ r ∈ i.op.registers, 1 ≤ r)
    ⟨fun ⟨hl, ht, hr⟩ => ⟨hl, ht, hr⟩, fun ⟨hl, ht, hr⟩ => ⟨hl, ht, hr⟩⟩

theorem wellFormed_of_build {d : Draft} (h : d.build = .ok i) : i.WellFormed :=
  (Draft.build_eq_ok_iff.1 h).2

/-! ## Text -/

namespace Source

theorem Reader.build_of_instruction {start : Position} {c c' : Cursor}
    (h : (Reader.instruction start).run c = .ok (i, c')) : ∃ d : Draft, d.build = .ok i := by
  unfold Reader.instruction at h
  obtain ⟨⟨d, c₁⟩, _, h⟩ := bind_eq_ok_iff.1 h
  cases hb : d.build with
  | error cause => simp only [hb] at h; cases h
  | ok j =>
    simp only [hb] at h
    obtain ⟨⟨_, c₂⟩, _, h⟩ := bind_eq_ok_iff.1 h
    cases h
    exact ⟨d, hb⟩

theorem wellFormed_of_parseLine {line : List Lexeme} (h : parseLine line = .ok (some i)) :
    i.WellFormed := by
  unfold parseLine at h
  split at h
  · cases h
  · split at h
    · cases h
    · obtain ⟨⟨j, c⟩, hj, h⟩ := bind_eq_ok_iff.1 h
      cases h
      obtain ⟨d, hd⟩ := Reader.build_of_instruction hj
      exact wellFormed_of_build hd

theorem wellFormed_of_parse {source : String} {is : List Instruction} (h : parse source = .ok is) :
    ∀ i ∈ is, i.WellFormed := by
  obtain ⟨lexemes, _, h⟩ := bind_eq_ok_iff.1 h
  obtain ⟨parsed, hp, h⟩ := bind_eq_ok_iff.1 h
  cases h
  have hall : ∀ o ∈ parsed, ∀ i, o = some i → i.WellFormed :=
    forall_of_mapM (fun line o ho i hi => wellFormed_of_parseLine (hi ▸ ho)) hp
  intro i hi
  exact hall _ (List.reduceOption_mem_iff.1 hi) i rfl

theorem wellFormed_of_parseOne {source : String} (h : parseOne source = .ok i) : i.WellFormed := by
  obtain ⟨is, his, h⟩ := bind_eq_ok_iff.1 h
  split at h
  · cases h
    exact wellFormed_of_parse his i List.mem_cons_self
  · cases h

end Source

/-! ## Numbers -/

namespace Goedel

/-- Everything that a vector has to pass before it is an instruction. -/
theorem ofFields_eq_ok {vector : List Nat} (h : ofFields vector = .ok i) :
    ∃ opcode payload draft, vector = opcode.tag :: payload ∧ draft? opcode payload = some draft ∧
      payload.find? (Numeral.maxWord < ·) = none ∧ draft.build = .ok i := by
  unfold ofFields at h
  split at h
  · cases h
  · rename_i tag payload
    split at h
    · cases h
    · rename_i opcode htag
      split at h
      · cases h
      · rename_i draft hdraft
        split at h
        · cases h
        · rename_i hfind
          cases hb : draft.build with
          | error cause => rw [hb] at h; cases h
          | ok j =>
            rw [hb] at h
            cases h
            obtain rfl := Opcode.ofTag?_eq_some_iff.1 htag
            exact ⟨opcode, payload, draft, rfl, hdraft, hfind, hb⟩

theorem wellFormed_of_decodeInstruction {n : Nat} (h : decodeInstruction n = .ok i) :
    i.WellFormed := by
  obtain ⟨vector, _, h⟩ := bind_eq_ok_iff.1 h
  obtain ⟨_, _, d, _, _, _, hd⟩ := ofFields_eq_ok h
  exact wellFormed_of_build hd

/-- **Decoding a sequence decodes its numbers and adds them in order.** -/
theorem decodeProgram_eq (numbers : List Nat) :
    decodeProgram numbers = (numbers.mapM decodeInstruction).map Program.ofList := by
  suffices ∀ (p : Program) (log : List Event),
      (decodeOnto p log numbers).1 = (numbers.mapM decodeInstruction).map p.addAll from
    this .empty []
  induction numbers with
  | nil => intro p log; rfl
  | cons n ns ih =>
    intro p log
    rw [decodeOnto, List.mapM_cons]
    cases hn : decodeInstruction n with
    | error e => rfl
    | ok i =>
      refine (ih (p.add i) _).trans ?_
      cases ns.mapM decodeInstruction <;> rfl

end Goedel

/-! ## Instructions of 64-bit numbers -/

/-- The numbers of a draft. -/
def Draft.numbers : Draft → List Int
  | set label register value => [label, register, value]
  | increment label register => [label, register]
  | decrement label register => [label, register]
  | copy label dest source => [label, dest, source]
  | branch label register ifZero otherwise => [label, register, ifZero, otherwise]
  | stop label => [label]

/-- `i` is built from numbers of 64 bits with a sign. -/
def Instruction.Constructible (i : Instruction) : Prop :=
  ∃ d : Draft, (∀ n ∈ d.numbers, -(Numeral.maxWord : Int) - 1 ≤ n ∧ n ≤ Numeral.maxWord) ∧
    d.build = .ok i

theorem Instruction.numbers_draft (i : Instruction) :
    i.draft.numbers = (Goedel.fields i).tail.map Nat.cast := by
  obtain ⟨label, op⟩ := i
  cases op <;> rfl

theorem Instruction.constructible_iff :
    i.Constructible ↔ i.WellFormed ∧ ∀ n ∈ (Goedel.fields i).tail, n ≤ Numeral.maxWord := by
  constructor
  · rintro ⟨d, hd, hb⟩
    obtain ⟨rfl, hw⟩ := Draft.build_eq_ok_iff.1 hb
    refine ⟨hw, fun n hn => ?_⟩
    have := (hd n (by rw [numbers_draft]; exact List.mem_map_of_mem hn)).2
    exact Int.ofNat_le.1 this
  · rintro ⟨hw, hn⟩
    refine ⟨i.draft, fun n h => ?_, Draft.build_draft hw⟩
    rw [numbers_draft] at h
    obtain ⟨k, hk, rfl⟩ := List.mem_map.1 h
    have := hn k hk
    omega

instance (i : Instruction) : Decidable i.Constructible :=
  decidable_of_iff _ Instruction.constructible_iff.symm

end RegisterMachine
