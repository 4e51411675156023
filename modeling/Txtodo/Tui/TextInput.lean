import Txtodo.Core.Types

/-!
# Carets and soft wrap

`text_input.rs`: a field is a text and a caret. Offsets count characters, where the source counts bytes. What
the Unicode crates know of graphemes and cells is a parameter.
-/

namespace Txtodo.TextInput

/-- The graphemes of a text and the cells it takes on screen. -/
structure Segmentation where
  graphemes : Text → List Text
  width : Text → Nat
  flatten_graphemes : ∀ text, (graphemes text).flatten = text
  nonempty : ∀ text, [] ∉ graphemes text

/-- One grapheme a character, one cell each in the scripts of Europe and two from Hangul on. -/
def Segmentation.byChar : Segmentation where
  graphemes text := text.map ([·])
  width text := (text.map fun c => if c.toNat < 0x1100 then 1 else 2).sum
  flatten_graphemes text := by induction text with
    | nil => rfl
    | cons c text ih => exact congrArg (c :: ·) ih
  nonempty text := by simp

/-- Graphemes one after another from `at`, each with where it starts. -/
def indicesFrom («at» : Nat) : List Text → List (Nat × Text)
  | [] => []
  | g :: gs => («at», g) :: indicesFrom («at» + g.length) gs

/-- `from..to` of a text. -/
def slice (text : Text) (start stop : Nat) : Text := (text.take stop).drop start

/-- The text with `from..to` replaced. -/
def replaceRange (text : Text) (start stop : Nat) (new : Text) : Text := text.take start ++ new ++ text.drop stop

/-- A text and the caret in it. -/
structure Field where
  text : Text
  caret : Nat
  deriving DecidableEq

namespace Segmentation

variable (seg : Segmentation)

def graphemeIndices (text : Text) : List (Nat × Text) := indicesFrom 0 (seg.graphemes text)

/-- The boundary before `at`, `none` at the start. -/
def prevBoundary (text : Text) («at» : Nat) : Option Nat :=
  (seg.graphemeIndices (text.take «at»)).getLast?.map (·.1)

/-- The boundary after `at`, `none` at the end. -/
def nextBoundary (text : Text) («at» : Nat) : Option Nat :=
  (seg.graphemes (text.drop «at»)).head?.map fun g => «at» + g.length

/-- Deletes the grapheme before the caret. -/
def backspace (f : Field) : Field :=
  match seg.prevBoundary f.text f.caret with
  | none => f
  | some prev => ⟨replaceRange f.text prev f.caret [], prev⟩

/-- Deletes the grapheme after the caret. -/
def delete (f : Field) : Field :=
  match seg.nextBoundary f.text f.caret with
  | none => f
  | some next => { f with text := replaceRange f.text f.caret next [] }

/-- The caret one grapheme to the left. -/
def left (f : Field) : Field := { f with caret := (seg.prevBoundary f.text f.caret).getD f.caret }

/-- The caret one grapheme to the right. -/
def right (f : Field) : Field := { f with caret := (seg.nextBoundary f.text f.caret).getD f.caret }

end Segmentation

/-- The rows so far, and of the row being filled where it starts, its cells and where its last space ends. -/
structure WrapState where
  rows : List (Nat × Nat)
  start : Nat
  cells : Nat
  afterSpace : Option Nat
  deriving DecidableEq

namespace WrapState

def new : WrapState := ⟨[], 0, 0, none⟩

/-- Whether a row ends before the grapheme at `i`, `w` cells wide. -/
def breaks (s : WrapState) (width i w : Nat) : Bool := width < s.cells + w && s.start < i

/-- Where the row ends, before the grapheme at `i`. -/
def cut (s : WrapState) (i : Nat) : Nat := (s.afterSpace.filter (s.start < ·)).getD i

/-- One grapheme of the loop. -/
def step (seg : Segmentation) (line : Text) (width : Nat) (s : WrapState) (ig : Nat × Text) : WrapState :=
  let (i, g) := ig
  let w := seg.width g
  let s :=
    if s.breaks width i w then
      let cut := s.cut i
      ⟨s.rows ++ [(s.start, cut)], cut, seg.width (slice line cut i), none⟩
    else s
  { s with
    cells := s.cells + w
    afterSpace := if g = [' '] then some (i + 1) else s.afterSpace }

end WrapState

namespace Segmentation

/-- The rows of one line, at most `width` cells wide, as ranges into it. -/
def wrap (seg : Segmentation) (line : Text) (width : Nat) : List (Nat × Nat) :=
  let width := max width 1
  let s := (seg.graphemeIndices line).foldl (WrapState.step seg line width) .new
  s.rows ++ [(s.start, line.length)]

end Segmentation

end Txtodo.TextInput
