import RegisterMachine.Proofs.Runs
import RegisterMachine.Session

/-!
# What callers put into the programs of a session

Every action of a session comes down to additions, checks, and fresh starts.  A ledger keeps what
callers added, without looking at the store.

* `Ledger` — the instructions that the caller of the current program added, in order, and the same
  for the programs that are kept under names.
* `Ledger.record` — what an action adds: whole lists, the readable part of a list, or a new
  program's all.  Checks, runs and encodings add nothing, whether they succeed or fail.
* `Session.Reached s L` — some sequence of actions leads to the session `s` with the ledger `L`.
* `Session.Kept` — every program of the session was built from its ledger; `Session.Kept.perform` —
  one action keeps that, `Session.Reached.kept` — so it always holds.

Principal result: `store_follows_ledger` — the program of a session is, label by label, what its
caller last added, apart from one stop that is remembered and not counted.
-/

set_option autoImplicit false

namespace RegisterMachine

variable {α ε : Type}

/-- The instructions that are read before the first failure. -/
def readable (read : α → Except ε Instruction) : List α → List Instruction
  | [] => []
  | x :: xs =>
      match read x with
      | .error _ => []
      | .ok i => i :: readable read xs

/-- Adding until something cannot be read adds what is readable. -/
theorem Program.addEach_eq (read : α → Except ε Instruction) (p : Program) (xs : List α) :
    (p.addEach read xs).1 = p.addAll (readable read xs) := by
  induction xs generalizing p with
  | nil => rfl
  | cons x xs ih =>
    unfold Program.addEach readable
    cases read x with
    | error e => rfl
    | ok i => exact ih (p.add i)

theorem wellFormed_of_readable {read : α → Except ε Instruction}
    (hread : ∀ x i, read x = .ok i → i.WellFormed) (xs : List α) :
    ∀ i ∈ readable read xs, i.WellFormed := by
  induction xs with
  | nil => intro i hi; cases hi
  | cons x xs ih =>
    intro i hi
    unfold readable at hi
    cases hx : read x with
    | error e => rw [hx] at hi; cases hi
    | ok j =>
      rw [hx] at hi
      rcases List.mem_cons.1 hi with rfl | hi
      · exact hread x i hx
      · exact ih i hi

/-- What callers added to the program at hand, and to the programs kept under names. -/
structure Ledger where
  added : List Instruction
  saved : List (String × List Instruction)

namespace Ledger

/-- Enters what was read, unless it could not be read. -/
def append (L : Ledger) : Except ε (List Instruction) → Ledger
  | .error _ => L
  | .ok is => { L with added := L.added ++ is }

/-- Begins with what was read, unless it could not be read. -/
def replace (L : Ledger) : Except ε (List Instruction) → Ledger
  | .error _ => L
  | .ok is => { L with added := is }

/-- The ledger after an action on `s`. -/
def record (L : Ledger) (s : Session) : Action → Ledger
  | .clear => { L with added := [] }
  | .add draft => L.append (draft.build.map ([·]))
  | .addText text => L.append ((Source.parseOne text).map ([·]))
  | .addTexts texts => { L with added := L.added ++ readable Source.parseOne texts }
  | .addDrafts drafts => { L with added := L.added ++ readable Draft.build drafts }
  | .addBuilt drafts => L.append (drafts.mapM Draft.build)
  | .collect drafts => L.replace (drafts.mapM Draft.build)
  | .parse source => L.replace (Source.parse source)
  | .decode numbers => L.replace (numbers.mapM Goedel.decodeInstruction)
  | .roundTrip =>
      match Goedel.encodeProgram s.program with
      | .error _ => L
      | .ok c =>
          match Bytes.read (Bytes.write c.numbers) with
          | .error _ => L
          | .ok numbers => L.replace (numbers.mapM Goedel.decodeInstruction)
  | .save name => { L with saved := (name, L.added) :: L.saved }
  | .load name => { L with added := (L.saved.lookup name).getD L.added }
  | _ => L

end Ledger

namespace Session

variable {s : Session} {L : Ledger}

/-- Some sequence of actions leads from a new session to `s`, with `L` as its ledger. -/
inductive Reached : Session → Ledger → Prop
  | new : Reached .new ⟨[], []⟩
  | act {s : Session} {L : Ledger} {budget : Nat} {a : Action} {r : Response} (h : Reached s L)
      (hr : s.perform budget a = some r) : Reached r.session (L.record s a)

/-- Every program of the session was built from what the ledger has for it. -/
structure Kept (s : Session) (L : Ledger) : Prop where
  program : s.program.Built L.added
  saved : List.Forall₂ (fun a b => a.1 = b.1 ∧ a.2.Built b.2) s.saved L.saved

/-! ## One action -/

theorem Kept.withProgram (h : s.Kept L) {p : Program} {is : List Instruction} (hp : p.Built is) :
    (s.withProgram p).Kept { L with added := is } :=
  ⟨hp, h.saved⟩

theorem Kept.adding (h : s.Kept L) (fail : ε → Failure) {built : Except ε (List Instruction)}
    (hb : ∀ is, built = .ok is → ∀ i ∈ is, i.WellFormed) :
    (s.adding fail built).session.Kept (L.append built) := by
  cases built with
  | error e => exact h
  | ok is => exact h.withProgram (h.program.addAll (hb is rfl))

theorem Kept.taking (h : s.Kept L) (fail : ε → Failure) {read : Except ε (List Instruction)}
    (hr : ∀ is, read = .ok is → ∀ i ∈ is, i.WellFormed) :
    (s.taking fail (read.map .ofList)).session.Kept (L.replace read) := by
  cases read with
  | error e => exact h
  | ok is => exact h.withProgram (.ofList (hr is rfl))

theorem Kept.addingEach (h : s.Kept L) (fail : ε → Failure) {read : α → Except ε Instruction}
    (hread : ∀ x i, read x = .ok i → i.WellFormed) (xs : List α) :
    (s.addingEach fail read xs).session.Kept { L with added := L.added ++ readable read xs } := by
  have hp : (s.addingEach fail read xs).session = s.withProgram (s.program.addEach read xs).1 := rfl
  rw [hp, Program.addEach_eq]
  exact h.withProgram (h.program.addAll (wellFormed_of_readable hread xs))

theorem Kept.running (h : s.Kept L) {budget : Nat} {inputs : List Nat} {report : Failure → Reply}
    {finish : Run → Reply} {r : Response} (hr : s.running budget inputs report finish = some r) :
    r.session.Kept L := by
  unfold Session.running at hr
  split at hr
  · cases hr
    exact h
  · cases hr
  · rename_i run hrun
    cases hr
    obtain ⟨v, hv, hx⟩ := Machine.run_eq_ok_iff.1 hrun
    -- a run leaves the program as its check did
    obtain ⟨_, _, hp, _⟩ := Machine.ends_of_execute hx
    refine ⟨?_, h.saved⟩
    show run.program.Built L.added
    rw [hp]
    exact h.program.check hv

/-- Encoding is a check, as far as the program goes. -/
theorem Kept.encoded (h : s.Kept L) {c : Goedel.Encoded}
    (hc : Goedel.encodeProgram s.program = .ok c) :
    (s.withProgram c.program).Kept L := by
  obtain ⟨v, hv, hc⟩ := bind_eq_ok_iff.1 hc
  cases hc
  exact h.withProgram (h.program.check hv)

theorem built_lookup {xs : List (String × Program)} {ys : List (String × List Instruction)}
    (h : List.Forall₂ (fun a b => a.1 = b.1 ∧ a.2.Built b.2) xs ys) {p : Program}
    {is : List Instruction} (hp : p.Built is) (name : String) :
    ((xs.lookup name).getD p).Built ((ys.lookup name).getD is) := by
  induction h with
  | nil => exact hp
  | @cons a b _ _ hab _ ih =>
    obtain ⟨hname, hbuilt⟩ := hab
    rw [List.lookup_cons, List.lookup_cons, ← hname]
    cases name == a.1 with
    | true => exact hbuilt
    | false => exact ih

theorem wellFormed_of_map_singleton {x : Except ε Instruction}
    (hx : ∀ i, x = .ok i → i.WellFormed) :
    ∀ is, x.map ([·]) = .ok is → ∀ i ∈ is, i.WellFormed := by
  intro is his i hi
  cases x with
  | error e => cases his
  | ok j =>
    cases his
    cases List.mem_singleton.1 hi
    exact hx i rfl

/-- Whatever is decoded from numbers replaces the program. -/
theorem Kept.decoded (h : s.Kept L) (numbers : List Nat) :
    (s.taking Failure.decode (Goedel.decodeProgram numbers)).session.Kept
      (L.replace (numbers.mapM Goedel.decodeInstruction)) := by
  rw [Goedel.decodeProgram_eq]
  exact h.taking _ fun is his =>
    forall_of_mapM (fun _ _ => Goedel.wellFormed_of_decodeInstruction) his

theorem Kept.roundTrip (h : s.Kept L) : s.roundTrip.session.Kept (L.record s .roundTrip) := by
  unfold Session.roundTrip Ledger.record
  cases hc : Goedel.encodeProgram s.program with
  | error e => exact h
  | ok c =>
    have hs := h.encoded hc
    dsimp only
    cases Bytes.read (Bytes.write c.numbers) with
    | error e => exact hs
    | ok numbers =>
      have hd := hs.decoded numbers
      unfold Goedel.decodeProgram at hd
      dsimp only
      generalize Goedel.decodeReporting numbers = decoded at hd ⊢
      rcases decoded with ⟨e | p, events⟩
      · exact hd
      · exact hd

/-- **One action keeps the programs and their ledgers together.** -/
theorem Kept.perform (h : s.Kept L) {budget : Nat} {a : Action} {r : Response}
    (hr : s.perform budget a = some r) : r.session.Kept (L.record s a) := by
  cases a with
  | clear => cases hr; exact h.withProgram .empty
  | newMachine traced => cases hr; exact ⟨h.program, h.saved⟩
  | resetMachine inputs => cases hr; exact ⟨h.program, h.saved⟩
  | add draft =>
    cases hr
    exact h.adding _ (wellFormed_of_map_singleton fun _ => wellFormed_of_build)
  | addText text =>
    cases hr
    exact h.adding _ (wellFormed_of_map_singleton fun _ => Source.wellFormed_of_parseOne)
  | addTexts texts =>
    cases hr
    exact h.addingEach _ (fun _ _ => Source.wellFormed_of_parseOne) texts
  | addDrafts drafts =>
    cases hr
    exact h.addingEach _ (fun _ _ => wellFormed_of_build) drafts
  | addBuilt drafts =>
    cases hr
    exact h.adding _ fun is his => forall_of_mapM (fun _ _ => wellFormed_of_build) his
  | collect drafts =>
    cases hr
    exact h.taking _ fun is his => forall_of_mapM (fun _ _ => wellFormed_of_build) his
  | parse source =>
    cases hr
    exact h.taking _ fun is his => Source.wellFormed_of_parse his
  | decode numbers => cases hr; exact h.decoded numbers
  | validate =>
    cases hr
    unfold Session.validate
    cases hv : s.program.validate with
    | error e => exact h
    | ok v => exact h.withProgram (h.program.check hv)
  | run inputs => exact h.running hr
  | emit inputs capacity => exact h.running hr
  | encode =>
    cases hr
    unfold Session.encode
    cases hc : Goedel.encodeProgram s.program with
    | error e => exact h
    | ok c => exact h.encoded hc
  | roundTrip => cases hr; exact h.roundTrip
  | get label => cases hr; exact h
  | text => cases hr; exact h
  | listing => cases hr; exact h
  | save name => cases hr; exact ⟨h.program, .cons ⟨rfl, h.program⟩ h.saved⟩
  | load name => cases hr; exact h.withProgram (built_lookup h.saved h.program name)
  | equals name => cases hr; exact h

/-! ## Whole sessions -/

theorem Reached.kept (h : Reached s L) : s.Kept L := by
  induction h with
  | new => exact ⟨.empty, .nil⟩
  | act _ hr ih => exact ih.perform hr

/-- **The store of a program, after every history.**  Let `C` give each label the last instruction
that the caller added under it.  Slot `k` holds label `k + 1` or nothing, and the last slot is in
use.  A remembered stop has a label that the caller did not use, and is stored there.  A label reads
as `C` has it, else as the remembered stop, else as nothing.  The terminal label is one past the
number of labels that `C` knows, and the count that it is computed from includes the remembered
stop. -/
theorem store_follows_ledger (h : Reached s L) :
    let p := s.program
    let C := latest L.added
    (∀ k i, p.slots[k]? = some (some i) → i.label = k + 1) ∧
    (p.slots = #[] ∨ ∃ i, p.slots.back? = some (some i)) ∧
    (∀ label, p.implicitStop = some label →
      1 ≤ label ∧ C label = none ∧ p.slots[label - 1]? = some (some ⟨label, .stop⟩)) ∧
    (∀ label, p.get? label =
      match C label with
      | some i => some i
      | none => if p.implicitStop = some label then some ⟨label, .stop⟩ else none) ∧
    (if p.implicitStop.isSome then 1 else 0) ≤ p.size ∧
    {label | C label ≠ none}.Finite ∧
    p.terminalLabel = {label | C label ≠ none}.ncard + 1 := by
  intro p C
  have hf : p.Follows L.added := h.kept.program.follows
  have hset : {label | C label ≠ none} = (Program.labelSet L.added : Set Nat) := by
    ext label
    exact Program.mem_labelSet.symm
  refine ⟨fun k i => hf.tidy.label_slot, ?_, ?_, ?_, ?_, ?_, ?_⟩
  · cases hb : p.slots.back? with
    | none => exact .inl (Array.back?_eq_none_iff.1 hb)
    | some slot =>
      obtain ⟨i, rfl⟩ := Option.ne_none_iff_exists'.1 fun e => hf.tidy.last_used (e ▸ hb)
      exact .inr ⟨i, rfl⟩
  · intro label hl
    have hg := hf.get?_implicitStop hl
    obtain ⟨k, rfl⟩ : ∃ k, label = k + 1 := by
      cases label with
      | zero => cases hg
      | succ k => exact ⟨k, rfl⟩
    exact ⟨Nat.le_add_left 1 k, hf.free hl, Program.get?_succ_eq_some_iff.1 hg⟩
  · intro label
    rw [hf.get label, Program.implicitAt]
    show (latest L.added label).or _ = match latest L.added label with
      | some i => some i
      | none => _
    cases latest L.added label <;> rfl
  · split
    · exact hf.one_le_size ‹_›
    · exact Nat.zero_le _
  · rw [hset]
    exact Finset.finite_toSet _
  · rw [hf.terminalLabel_eq, hset, Set.ncard_coe_finset]

/-- A stop that a check put in slot 3 is forgotten when the caller uses label 3, and the next check
puts another one behind the last slot. -/
theorem store_follows_ledger_overwritten :
    ∃ s : Session, s.program.slots[2]? = some (some ⟨3, .increment 2⟩) ∧
      s.program.implicitStop = some 5 ∧ s.program.terminalLabel = 4 ∧
      ∀ label, s.program.get? label =
        match latest [⟨1, .increment 1⟩, ⟨4, .copy 3 1⟩, ⟨3, .increment 2⟩] label with
        | some i => some i
        | none => if s.program.implicitStop = some label then some ⟨label, .stop⟩ else none := by
  have h₁ := @Reached.act _ _ 0 (.addBuilt [.increment 1 1, .copy 4 3 1]) _ .new rfl
  have h₂ := @Reached.act _ _ 0 .validate _ h₁ rfl
  have h₃ := @Reached.act _ _ 0 (.add (.increment 3 2)) _ h₂ rfl
  have h₄ := @Reached.act _ _ 0 .validate _ h₃ rfl
  refine ⟨_, ?_, ?_, ?_, (store_follows_ledger h₄).2.2.2.1⟩
  · rfl
  · rfl
  · rfl

end Session

end RegisterMachine
