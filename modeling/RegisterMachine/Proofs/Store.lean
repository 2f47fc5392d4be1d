import Mathlib.Data.List.ReduceOption
import Mathlib.Data.List.Nodup
import RegisterMachine.Program.Validation

/-!
# The program store, seen through its labels

* `Program.Tidy` — the shape that every store has: slot `k` holds label `k + 1` or nothing, and no
  empty slot stands at the end.  `Tidy.empty`, `Tidy.add` keep it.
* `Program.labels` — the labels in use, in slot order; `Tidy.labels_pairwise` — they increase.
* `latest` — the last instruction of a list under a given label, the meaning of adding the list.

Principal results: `Tidy.slots_eq` — tidy stores with the same `get?` have the same slots, gaps and
length included; `get?_addAll` — adding a list overlays its `latest`;
`Tidy.slots_ofList_instructions` — a tidy store is rebuilt from its instructions alone.
-/

set_option autoImplicit false

namespace RegisterMachine

/-- The last instruction of a list under a label. -/
def latest (is : List Instruction) (label : Nat) : Option Instruction :=
  is.reverse.find? (fun i => i.label == label)

@[simp] theorem latest_nil (label : Nat) : latest [] label = none := rfl

theorem latest_append (is js : List Instruction) (label : Nat) :
    latest (is ++ js) label = (latest js label).or (latest is label) := by
  simp [latest, List.find?_append]

theorem latest_singleton (i : Instruction) (label : Nat) :
    latest [i] label = if label = i.label then some i else none := by
  by_cases h : label = i.label
  · simp [latest, h]
  · have h' : ¬ i.label = label := fun e => h e.symm
    simp [latest, h, h']

theorem label_of_latest {is : List Instruction} {label : Nat} {i : Instruction}
    (h : latest is label = some i) : i ∈ is ∧ i.label = label := by
  refine ⟨List.mem_reverse.1 (List.mem_of_find?_eq_some h), ?_⟩
  simpa using List.find?_some h

theorem latest_eq_none_iff {is : List Instruction} {label : Nat} :
    latest is label = none ↔ label ∉ is.map Instruction.label := by
  simp [latest, List.find?_eq_none]

/-- With distinct labels, the last instruction under a label is the only one. -/
theorem latest_eq_some_iff {is : List Instruction} (hn : (is.map Instruction.label).Nodup)
    {label : Nat} {i : Instruction} : latest is label = some i ↔ i ∈ is ∧ i.label = label := by
  refine ⟨label_of_latest, ?_⟩
  rintro ⟨hi, rfl⟩
  cases h : latest is i.label with
  | none => exact absurd (List.mem_map_of_mem hi) (latest_eq_none_iff.1 h)
  | some j =>
    obtain ⟨hj, hl⟩ := label_of_latest h
    rw [List.inj_on_of_nodup_map hn hj hi hl]

namespace Program

variable {p q : Program} {i : Instruction}

/-! ## Reading by label -/

@[simp] theorem get?_zero (p : Program) : p.get? 0 = none := rfl

theorem get?_succ (p : Program) (k : Nat) : p.get? (k + 1) = (p.slots[k]?).join := rfl

@[simp] theorem get?_empty (label : Nat) : empty.get? label = none := by
  cases label with
  | zero => rfl
  | succ k => simp [get?_succ, empty]

theorem get?_succ_eq_some_iff {k : Nat} :
    p.get? (k + 1) = some i ↔ p.slots[k]? = some (some i) := by
  rw [get?_succ, Option.join_eq_some_iff]

theorem le_size_of_get? {label : Nat} (h : p.get? label = some i) : label ≤ p.slots.size := by
  cases label with
  | zero => exact Nat.zero_le _
  | succ k =>
    obtain ⟨hk, _⟩ := Array.getElem?_eq_some_iff.1 (get?_succ_eq_some_iff.1 h)
    exact hk

theorem get?_eq_none_of_size_lt {label : Nat} (h : p.slots.size < label) : p.get? label = none := by
  cases hg : p.get? label with
  | none => rfl
  | some j =>
    have := le_size_of_get? hg
    omega

@[simp] theorem size_slots_add (p : Program) (hi : 1 ≤ i.label) :
    (p.add i).slots.size = max p.slots.size i.label := by
  simp only [add, Cells.size_update]
  omega

/-! ## The shape of the slots -/

/-- Slot `k` holds label `k + 1` if it holds anything, and the last slot is in use. -/
structure Tidy (p : Program) : Prop where
  label_slot : ∀ {k : Nat} {i : Instruction}, p.slots[k]? = some (some i) → i.label = k + 1
  last_used : p.slots.back? ≠ some none

theorem Tidy.empty : Tidy empty :=
  ⟨fun h => by simp [Program.empty] at h, by simp [Program.empty]⟩

theorem Tidy.label_get? (h : p.Tidy) {label : Nat} (hg : p.get? label = some i) :
    i.label = label := by
  cases label with
  | zero => cases hg
  | succ k => exact h.label_slot (get?_succ_eq_some_iff.1 hg)

/-- The last slot is found under its label. -/
theorem Tidy.get?_size (h : p.Tidy) (hs : p.slots.size ≠ 0) :
    ∃ i, p.get? p.slots.size = some i := by
  obtain ⟨k, hk⟩ : ∃ k, p.slots.size = k + 1 := ⟨p.slots.size - 1, by omega⟩
  have hlast := h.last_used
  rw [Array.back?_eq_getElem?, hk, Nat.add_sub_cancel,
    Array.getElem?_eq_getElem (by omega)] at hlast
  obtain ⟨i, hi⟩ := Option.ne_none_iff_exists.1 fun e => hlast (congrArg some e)
  refine ⟨i, ?_⟩
  rw [hk, get?_succ_eq_some_iff, Array.getElem?_eq_getElem (by omega), hi]

/-- A store whose last label is in use has the shape that `last_used` asks for. -/
theorem last_used_of_get? (hg : p.get? p.slots.size = some i) : p.slots.back? ≠ some none := by
  intro hlast
  obtain ⟨k, hk⟩ : ∃ k, p.slots.size = k + 1 := by
    refine ⟨p.slots.size - 1, ?_⟩
    have : p.slots.size ≠ 0 := fun e => by rw [e] at hg; cases hg
    omega
  rw [hk, get?_succ_eq_some_iff] at hg
  rw [Array.back?_eq_getElem?, hk, Nat.add_sub_cancel, hg] at hlast
  cases hlast

theorem Tidy.add (h : p.Tidy) (hi : 1 ≤ i.label) : (p.add i).Tidy := by
  constructor
  · intro k j hk
    have hg := get?_add p hi (k + 1)
    rw [get?_succ_eq_some_iff.2 hk] at hg
    split at hg
    · rename_i e
      cases hg
      exact e.symm
    · exact h.label_get? hg.symm
  · by_cases hlt : p.slots.size ≤ i.label
    · refine last_used_of_get? (i := i) ?_
      rw [size_slots_add p hi, Nat.max_eq_right hlt, get?_add p hi, if_pos rfl]
    · obtain ⟨j, hj⟩ := h.get?_size (by omega)
      refine last_used_of_get? (i := j) ?_
      rw [size_slots_add p hi, Nat.max_eq_left (by omega), get?_add p hi, if_neg (by omega), hj]

theorem Tidy.size_le (hp : p.Tidy) (h : ∀ label, p.get? label = q.get? label) :
    p.slots.size ≤ q.slots.size := by
  by_cases hs : p.slots.size = 0
  · omega
  · obtain ⟨i, hi⟩ := hp.get?_size hs
    exact le_size_of_get? ((h _).symm.trans hi)

/-- **Tidy stores that read alike have the same slots.** -/
theorem Tidy.slots_eq (hp : p.Tidy) (hq : q.Tidy) (h : ∀ label, p.get? label = q.get? label) :
    p.slots = q.slots := by
  have hsize : p.slots.size = q.slots.size :=
    Nat.le_antisymm (hp.size_le h) (hq.size_le fun label => (h label).symm)
  apply Array.ext hsize
  intro k hkp hkq
  have hk := h (k + 1)
  rw [get?_succ, get?_succ, Array.getElem?_eq_getElem hkp, Array.getElem?_eq_getElem hkq] at hk
  exact hk

/-! ## The instructions in slot order -/

theorem mem_instructions : i ∈ p.instructions ↔ ∃ k : Nat, p.slots[k]? = some (some i) := by
  rw [instructions, List.reduceOption_mem_iff, List.mem_iff_getElem?]
  simp

theorem Tidy.mem_instructions_iff (h : p.Tidy) : i ∈ p.instructions ↔ p.get? i.label = some i := by
  rw [mem_instructions]
  constructor
  · rintro ⟨k, hk⟩
    rw [h.label_slot hk]
    exact get?_succ_eq_some_iff.2 hk
  · intro hg
    cases hl : i.label with
    | zero => rw [hl] at hg; cases hg
    | succ k => rw [hl] at hg; exact ⟨k, get?_succ_eq_some_iff.1 hg⟩

/-- The labels in use, in slot order. -/
def labels (p : Program) : List Nat := p.instructions.map Instruction.label

@[simp] theorem length_labels (p : Program) : p.labels.length = p.size := by
  simp [labels, size]

theorem Tidy.mem_labels_iff (h : p.Tidy) {label : Nat} :
    label ∈ p.labels ↔ ∃ i, p.get? label = some i := by
  rw [labels, List.mem_map]
  constructor
  · rintro ⟨i, hi, rfl⟩
    exact ⟨i, h.mem_instructions_iff.1 hi⟩
  · rintro ⟨i, hi⟩
    have hl := h.label_get? hi
    exact ⟨i, h.mem_instructions_iff.2 (hl ▸ hi), hl⟩

theorem Tidy.instructions_pairwise (h : p.Tidy) :
    p.instructions.Pairwise (fun i j => i.label < j.label) := by
  rw [instructions, List.reduceOption, List.pairwise_filterMap, List.pairwise_iff_getElem]
  intro a b ha hb hab x hx y hy
  have slot : ∀ {k : Nat} {z : Instruction} (hk : k < p.slots.toList.length),
      id p.slots.toList[k] = some z → z.label = k + 1 := by
    intro k z hk hz
    apply h.label_slot
    rw [← Array.getElem?_toList, List.getElem?_eq_getElem hk]
    exact congrArg some hz
  have hxa := slot ha hx
  have hyb := slot hb hy
  omega

/-- **Labels increase in slot order.** -/
theorem Tidy.labels_pairwise (h : p.Tidy) : p.labels.Pairwise (· < ·) := by
  rw [labels, List.pairwise_map]
  exact h.instructions_pairwise

theorem Tidy.labels_nodup (h : p.Tidy) : p.labels.Nodup :=
  h.labels_pairwise.imp Nat.ne_of_lt

theorem size_le_slots (p : Program) : p.size ≤ p.slots.size := by
  unfold size instructions
  rw [← Array.length_toList]
  exact List.reduceOption_length_le _

/-! ## Adding many instructions -/

theorem Tidy.addAll (h : p.Tidy) {is : List Instruction} (his : ∀ i ∈ is, 1 ≤ i.label) :
    (p.addAll is).Tidy := by
  unfold Program.addAll
  induction is generalizing p with
  | nil => exact h
  | cons i is ih =>
    exact ih (h.add (his i List.mem_cons_self)) fun j hj => his j (List.mem_cons_of_mem _ hj)

/-- **Adding a list overlays its latest instructions.** -/
theorem get?_addAll (p : Program) {is : List Instruction} (his : ∀ i ∈ is, 1 ≤ i.label)
    (label : Nat) : (p.addAll is).get? label = (latest is label).or (p.get? label) := by
  unfold Program.addAll
  induction is generalizing p with
  | nil => simp
  | cons i is ih =>
    rw [List.foldl_cons, ih _ fun j hj => his j (List.mem_cons_of_mem _ hj),
      get?_add p (his i List.mem_cons_self), ← List.singleton_append, latest_append,
        latest_singleton]
    split <;> cases latest is label <;> rfl

theorem get?_ofList {is : List Instruction} (his : ∀ i ∈ is, 1 ≤ i.label) (label : Nat) :
    (ofList is).get? label = latest is label := by
  rw [ofList, get?_addAll _ his, get?_empty, Option.or_none]

theorem Tidy.latest_instructions (h : p.Tidy) (label : Nat) :
    latest p.instructions label = p.get? label := by
  apply Option.ext
  intro i
  rw [latest_eq_some_iff h.labels_nodup, h.mem_instructions_iff]
  constructor
  · rintro ⟨hg, rfl⟩
    exact hg
  · intro hg
    have hl := h.label_get? hg
    exact ⟨hl ▸ hg, hl⟩

theorem Tidy.one_le_label (h : p.Tidy) (hi : i ∈ p.instructions) : 1 ≤ i.label := by
  obtain ⟨k, hk⟩ := mem_instructions.1 hi
  have := h.label_slot hk
  omega

/-- **A tidy store is rebuilt from its instructions alone**, gaps and length included. -/
theorem Tidy.slots_ofList_instructions (h : p.Tidy) : (ofList p.instructions).slots = p.slots := by
  have hl : ∀ i ∈ p.instructions, 1 ≤ i.label := fun i hi => h.one_le_label hi
  refine (Tidy.empty.addAll hl).slots_eq h fun label => ?_
  rw [← ofList, get?_ofList hl, h.latest_instructions]

theorem implicitStop_add (hn : p.implicitStop = none) : (p.add i).implicitStop = none := by
  simp [add, hn]

theorem implicitStop_ofList (is : List Instruction) : (ofList is).implicitStop = none := by
  suffices ∀ p : Program, p.implicitStop = none →
    (p.addAll is).implicitStop = none from this empty rfl
  unfold addAll
  induction is with
  | nil => exact fun _ h => h
  | cons i is ih => exact fun p h => ih _ (implicitStop_add h)

end Program

end RegisterMachine
