import ExactLength.Length.Readout

/-!
# The converter

The state of the converter between two events: what is typed, the last length and the texts that
show it, the error and the working, the precision of inch fractions, and whether the entry is about
to take the keyboard.

Results:
* `setPrecision_mem`: a precision that is set is one of those offered.
* `roundPrecision_of_mem`: a precision that is offered is set as it is.
* `refresh_of_last_none`: without a length there is nothing to show anew.
-/

namespace ExactLength

/-- The state of the converter (`AppConv`). -/
structure Converter where
  /-- The text typed so far. -/
  entry : Text
  /-- The length of the last conversion that succeeded. -/
  last : Option Length
  /-- The texts that show the last length. -/
  readout : Readout
  /-- The message of the last conversion if it failed, else empty. -/
  error : Text
  /-- How the last length was read; empty after an error. -/
  working : Working
  /-- Inch fractions are shown in parts of this size. -/
  precision : Nat
  /-- The entry takes the keyboard when the window is drawn next. -/
  focused : Bool
  deriving DecidableEq, Repr

/-- The precisions offered: powers of two. -/
def precisions : List Nat := [2, 4, 8, 16, 32, 64, 128]

/-- The precision at the start (`DENOM_DEFAUT`). -/
def defaultPrecision : Nat := 32

/-- The finest precision offered (`DENOM_MAX`). -/
def finestPrecision : Nat := 128

namespace Converter

/-- Nothing typed and nothing shown; the entry takes the keyboard. -/
def initial : Converter :=
  { entry := []
    last := none
    readout := .empty
    error := []
    working := .empty
    precision := defaultPrecision
    focused := true }

/-- There is a length to show (`resultat_dispo`). -/
def hasResult (s : Converter) : Bool := s.last.isSome

/-- Empties the entry and nothing else (`clear_entree`). -/
def clearEntry (s : Converter) : Converter := { s with entry := [], focused := true }

/-- Empties all that a conversion shows (`clear_resultats`). -/
def clearResults (s : Converter) : Converter :=
  { s with last := none, readout := .empty, error := [], working := .empty, focused := true }

/-- Empties everything and restores the first precision (`reset_total`). -/
def clearAll (s : Converter) : Converter :=
  { s.clearResults with entry := [], precision := defaultPrecision }

/-- Shows an error (`set_erreur`). The last length stays on display; its working does not. -/
def fail (s : Converter) (message : Text) : Converter :=
  { s with error := message, working := .empty, focused := true }

/-- Shows a length by the given texts (`set_resultats`). -/
def deposit (s : Converter) (length : Length) (readout : Readout) : Converter :=
  { s with last := some length, readout, error := [], working := length.working, focused := true }

/-- The least precision offered that is not below `n`, or the finest. -/
def roundPrecision (n : Nat) : Nat := (precisions.find? (n ≤ ·)).getD finestPrecision

/-- Sets the precision to one of those offered (`set_denom`). -/
def setPrecision (s : Converter) (n : Nat) : Converter :=
  { s with precision := roundPrecision n, focused := true }

/-- Converts the entry (`convertir_via_mesure`). A text that is no length, or a length that cannot
be shown, is an error. -/
def convert (s : Converter) : Converter :=
  match Length.ofText s.entry with
  | .error e => s.fail e.message
  | .ok length =>
    match length.readout s.precision with
    | .error e => s.fail e.message
    | .ok readout => s.deposit length readout

/-- Shows the last length again, at the present precision (`rafraichit_affichage`). -/
def refresh (s : Converter) : Converter :=
  match s.last with
  | none => s
  | some length =>
    match length.readout s.precision with
    | .error e => s.fail e.message
    | .ok readout => { s with readout }

/-- A precision that is set is one of those offered. -/
theorem setPrecision_mem (s : Converter) (n : Nat) :
    (s.setPrecision n).precision ∈ precisions := by
  simp only [setPrecision, roundPrecision]
  cases h : precisions.find? (n ≤ ·) with
  | none => decide
  | some m => exact List.mem_of_find?_eq_some h

theorem roundPrecision_of_mem {n : Nat} (h : n ∈ precisions) : roundPrecision n = n := by
  have all : ∀ n ∈ precisions, roundPrecision n = n := by decide
  exact all n h

theorem refresh_of_last_none {s : Converter} (h : s.last = none) : s.refresh = s := by
  rw [refresh, h]

end Converter

end ExactLength
