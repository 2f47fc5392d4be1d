import RegisterMachine.Numeral
import RegisterMachine.Program.Validation

/-!
# Listings: a program with one line for each slot

Every line shows a label, a mark if some branch jumps there, and the operation; an empty slot is
shown as such. A terminal label past the last slot gets a line of its own if it is jumped to.

* `Listing.Row` — one line as data; `Listing.Row.text` — as text.
* `Program.listingRows` — the lines of a program.
* `Program.listing` — the whole text, below a header of three lines.
-/

set_option autoImplicit false

namespace RegisterMachine

namespace Listing

/-- What a line shows beside its label. -/
inductive Content where
  | operation (op : Op)
  | empty
  | finish
  deriving DecidableEq, Repr

def Content.text : Content → String
  | operation op => op.text
  | empty => "(empty)"
  | finish => "(end)"

structure Row where
  label : Nat
  marked : Bool
  content : Content
  deriving DecidableEq, Repr

/-- The label in four places, the mark, the content. -/
def Row.text (r : Row) : String :=
  Numeral.padded 4 r.label ++ (if r.marked then " ► " else "   ") ++ r.content.text

def rule : String := String.ofList (List.replicate 40 '═')

end Listing

namespace Program

open Listing in
/-- The rows of the slots, and the row of the terminal label if it needs one. -/
def listingRows (p : Program) : List Row :=
  let targets := p.jumps.map Prod.snd
  let slotRow (entry : Option Instruction × Nat) : Row :=
    { label := entry.2
      marked := targets.contains entry.2
      content := (entry.1.map fun i => Content.operation i.op).getD .empty }
  let terminal := p.terminalLabel
  let last :=
    if p.slots.size < terminal && targets.contains terminal then
      [Row.mk terminal true .finish]
    else []
  (p.slots.toList.zipIdx 1).map slotRow ++ last

def listingTitle (p : Program) : String :=
  let instructions := p.size
  let slots := p.slots.size
  s!" {instructions} instructions, {slots} slots"

/-- The listing, every line of it ended by a line feed. -/
def listing (p : Program) : String :=
  let lines := [Listing.rule, p.listingTitle, Listing.rule] ++ p.listingRows.map Listing.Row.text
  String.join (lines.map (· ++ "\n"))

end Program

end RegisterMachine
