/-!
# Arrays that grow when a cell past the end is written

Programs and register files are arrays in which every index has a meaning: a cell that was never
written is blank. Writing far out fills the way there with blanks.

* `Cells.grow` — pads an array with blanks.
* `Cells.update` — changes one cell, growing the array as far as that cell.

Principal results: `size_update` — the array reaches exactly as far as its old end and the cell;
`getD_update` — no other cell changes its meaning.
-/

set_option autoImplicit false

namespace RegisterMachine.Cells

variable {α : Type}

/-- `cells` with blanks after its end, so that it has at least `n` cells. -/
def grow (blank : α) (cells : Array α) (n : Nat) : Array α :=
  cells ++ Array.replicate (n - cells.size) blank

/-- Applies `f` to cell `i`. A cell past the end holds `blank` before that. -/
def update (blank : α) (cells : Array α) (i : Nat) (f : α → α) : Array α :=
  (grow blank cells (i + 1)).modify i f

@[simp] theorem size_grow (blank : α) (cells : Array α) (n : Nat) :
    (grow blank cells n).size = max cells.size n := by
  simp [grow]
  omega

theorem getElem?_grow (blank : α) (cells : Array α) (n j : Nat) :
    (grow blank cells n)[j]? =
      if j < cells.size then cells[j]? else if j < n then some blank else none := by
  unfold grow
  rw [Array.getElem?_append]
  split
  · rfl
  · rw [Array.getElem?_replicate]
    grind

@[simp] theorem size_update (blank : α) (cells : Array α) (i : Nat) (f : α → α) :
    (update blank cells i f).size = max cells.size (i + 1) := by
  simp [update]

theorem getElem?_update_of_ne (blank : α) (cells : Array α) {i j : Nat} (f : α → α) (h : i ≠ j) :
    (update blank cells i f)[j]? =
      if j < cells.size then cells[j]? else if j < i + 1 then some blank else none := by
  unfold update
  rw [Array.getElem?_modify, if_neg h, getElem?_grow]

/-- Seen through blanks, an update changes one cell. -/
theorem getD_update (blank : α) (cells : Array α) (i : Nat) (f : α → α) (j : Nat) :
    ((update blank cells i f)[j]?).getD blank =
      if i = j then f ((cells[j]?).getD blank) else (cells[j]?).getD blank := by
  unfold update
  rw [Array.getElem?_modify, getElem?_grow]
  grind

end RegisterMachine.Cells
