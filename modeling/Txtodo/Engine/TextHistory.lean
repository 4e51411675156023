import Txtodo.Model.Op
import Txtodo.Model.TagText
import Txtodo.Std.Iter
import Mathlib.Data.List.Sort

/-!
# Text edits and their history

`textedit.rs` applies the splices of an `EditText`; `text_history.rs` keeps the text a description
started from and every change since, in stamp order, so that a late change is slotted in by stamp.
-/

namespace Txtodo

/-- Most edits one `EditText` may carry. -/
def MAX_TEXT_EDITS : Nat := 10000

/-- An edit that does not fit the text it is applied to. -/
structure TextEditError where
  index : Nat
  at_ : Nat
  len : Nat
  deriving DecidableEq

/-- Applies edits with the source cursor at `cursor` and `out` written so far. A deletion is addressed
in the source text, an insertion in the target text. -/
def applyTextEditsFrom (src : Text) (index cursor : Nat) (out : Text) :
    List TextEdit → Except TextEditError Text
  | [] => .ok (out ++ src.drop cursor)
  | .delete at_ len :: rest =>
    if at_ + len ≤ src.length ∧ cursor ≤ at_ then
      applyTextEditsFrom src (index + 1) (at_ + len)
        (out ++ (src.take at_).drop cursor) rest
    else .error ⟨index, at_, src.length⟩
  | .insert at_ text :: rest =>
    if out.length ≤ at_ ∧ cursor + (at_ - out.length) ≤ src.length then
      let last := cursor + (at_ - out.length)
      applyTextEditsFrom src (index + 1) last (out ++ (src.take last).drop cursor ++ text) rest
    else .error ⟨index, at_, src.length⟩

/-- Applies `edits` to `source`, producing the target text. -/
def applyTextEdits (source : Text) (edits : List TextEdit) : Except TextEditError Text :=
  applyTextEditsFrom source 0 0 [] (edits.take MAX_TEXT_EDITS)

/-- Most edits a task's description keeps before the oldest fold into its base. -/
def MAX_EDITS_PER_TASK : Nat := 64

/-- How a text applies a splice. -/
abbrev ApplyEdits := Text → List TextEdit → Except TextEditError Text

/-- `pri:` with a value. -/
def isPri (word : Text) : Bool := "pri:".toList.length < word.length && "pri:".toList <+: word

/-- Whether `text` holds a `pri:` tag word. -/
def hasPri (text : Text) : Bool := (text.splitOn ' ').any isPri

/-- `words` with the first `pri:` tag word replaced, `none` without one. -/
def replaceFirstPri (tag : Text) : List Text → Option (List Text)
  | [] => none
  | word :: rest =>
    if isPri word then some (tag :: rest) else (replaceFirstPri tag rest).map (word :: ·)

/-- `text` with its first `pri:` tag word set to `pri:<letter>`, else, if `add`, with it added at the
end. -/
def setPri (text : Text) (letter : Char) (add : Bool) : Text :=
  let tag := "pri:".toList ++ [letter]
  match replaceFirstPri tag (text.splitOn ' ') with
  | some words => [' '].intercalate words
  | none => if !add then text else if text.isEmpty then tag else text ++ [' '] ++ tag

/-- One change a history keeps. -/
inductive Change where
  | splice (edits : List TextEdit)
  | pri (letter : Char)
  | removeTag (key : Text)
  deriving DecidableEq

/-- `Change::on`: the text after one change. -/
def Change.on (change : Change) (text : Text) (apply : ApplyEdits) : Except TextEditError Text :=
  match change with
  | .splice edits => apply text edits
  | .pri letter => .ok (setPri text letter true)
  | .removeTag key => .ok (Txtodo.removeTag text key)

/-- One text's base and the changes made on it since, oldest stamp first. `since` is when the base
was set whole. -/
structure TextHistory where
  base : Text
  since : Hlc
  edits : List (Hlc × Change)
  deriving DecidableEq

namespace TextHistory

/-- A history starting at `base`. -/
def new (base : Text) : TextHistory := ⟨base, Hlc.zero ⟨0⟩, []⟩

/-- `text` after one kept edit; one that no longer fits is skipped. -/
def replayStep (apply : ApplyEdits) (text : Text) (edit : Hlc × Change) : Text :=
  match edit.2.on text apply with
  | .ok next => next
  | .error _ => text

/-- The base with every kept edit applied in stamp order. -/
def replay (h : TextHistory) (apply : ApplyEdits) : Text :=
  h.edits.foldl (replayStep apply) h.base

/-- The text set whole by an op stamped `at_`: edits up to `at_` are dropped, newer ones replayed. -/
def reset (h : TextHistory) (text : Text) (at_ : Hlc) (apply : ApplyEdits) : TextHistory × Text :=
  let h :=
    if h.since ≤ at_ then ⟨text, at_, h.edits.filter fun e => at_ < e.1⟩
    else h
  (h, h.replay apply)

/-- The base and edits left once the oldest edits past `max` are folded into the base. -/
def trimEdits (apply : ApplyEdits) (max : Nat) (base : Text) :
    List (Hlc × Change) → Text × List (Hlc × Change)
  | [] => (base, [])
  | e :: rest =>
    if max < rest.length + 1 then trimEdits apply max (replayStep apply base e) rest
    else (base, e :: rest)

def trim (h : TextHistory) (apply : ApplyEdits) (max : Nat) : TextHistory :=
  let (base, edits) := trimEdits apply max h.base h.edits
  { h with base := base, edits := edits }

/-- Records `change` stamped `hlc` on a text that holds `current`, and the text to hold now. A change
older than one kept is slotted in by stamp. -/
def record (h : TextHistory) (current : Text) (hlc : Hlc) (change : Change)
    (how : ApplyEdits × Nat) : TextHistory × Except TextEditError Text :=
  let (apply, max) := how
  if hlc < h.since then (h, .ok current)
  else if h.edits.getLast?.any fun e => hlc < e.1 then
    let at_ := (h.edits.takeWhile fun e => e.1 ≤ hlc).length
    let h := { h with edits := h.edits.insertIdx at_ (hlc, change) }
    (h.trim apply max, .ok (h.replay apply))
  else
    match change.on current apply with
    | .error e => (h, .error e)
    | .ok next => (({ h with edits := h.edits ++ [(hlc, change)] } : TextHistory).trim apply max, .ok next)

/-- `TextHistory::apply`: records a splice. -/
def apply (h : TextHistory) (current : Text) (hlc : Hlc) (edits : List TextEdit)
    (how : ApplyEdits × Nat) : TextHistory × Except TextEditError Text :=
  h.record current hlc (.splice edits) how

/-- Records `pri:` set to `letter` by a completion. -/
def setPri (h : TextHistory) (current : Text) (hlc : Hlc) (letter : Char)
    (how : ApplyEdits × Nat) : TextHistory × Text :=
  match h.record current hlc (.pri letter) how with
  | (h, .ok text) => (h, text)
  | (h, .error _) => (h, Txtodo.setPri current letter true)

/-- Records the first `key:` tag removed. -/
def removeTag (h : TextHistory) (current : Text) (hlc : Hlc) (key : Text)
    (how : ApplyEdits × Nat) : TextHistory × Text :=
  match h.record current hlc (.removeTag key) how with
  | (h, .ok text) => (h, text)
  | (h, .error _) => (h, Txtodo.removeTag current key)

/-- A kept `pri:` change with another letter; other changes as they are. -/
def swapLetter (letter : Char) (e : Hlc × Change) : Hlc × Change :=
  match e.2 with
  | .pri _ => (e.1, .pri letter)
  | _ => e

/-- A newer priority on the done line: every recorded tag and the base's take `letter`. No text when
the rebuilt one still holds another letter. -/
def swapPri (h : TextHistory) (letter : Char) (apply : ApplyEdits) : TextHistory × Option Text :=
  let h := { h with
    base := Txtodo.setPri h.base letter false
    edits := h.edits.map (swapLetter letter) }
  let text := h.replay apply
  (h, if Txtodo.setPri text letter false = text then some text else none)

/-- A newer `Priority = None` on the done line: every recorded tag goes and the base loses its own.
No text when a text edit still adds a tag. -/
def clearPri (h : TextHistory) (apply : ApplyEdits) : TextHistory × Option Text :=
  let h := { h with
    base := Txtodo.removeTag h.base "pri".toList
    edits := h.edits.filter fun e => !(match e.2 with | .pri _ => true | _ => false) }
  let text := h.replay apply
  (h, if hasPri text then none else some text)

/-- After a commit: edits recorded under `scratch` take the commit's stamp. -/
def settle (h : TextHistory) (scratch real : Hlc) : TextHistory :=
  { h with
    since := if h.since = scratch then real else h.since
    edits := (h.edits.map fun e => if e.1 = scratch then (real, e.2) else e).insertionSort
      fun a b => a.1 ≤ b.1 }

/-! ## Arrivals -/

/-- What reaches a history: a change to record or a text set whole. -/
inductive Arrival where
  | change (c : Change)
  | reset (text : Text)
  deriving DecidableEq

namespace Arrival

def asReset (a : Hlc × Arrival) : Option (Hlc × Text) :=
  match a.2 with
  | .reset text => some (a.1, text)
  | .change _ => none

def asChange (a : Hlc × Arrival) : Option (Hlc × Change) :=
  match a.2 with
  | .change c => some (a.1, c)
  | .reset _ => none

end Arrival

/-- One arrival at a history whose text is `held`: the history and the text after it, `none` when a
splice is refused. -/
def receive (how : ApplyEdits × Nat) (at_ : TextHistory × Text) (a : Hlc × Arrival) :
    Option (TextHistory × Text) :=
  let (h, held) := at_
  match a.2 with
  | .change (.splice edits) =>
    match h.apply held a.1 edits how with
    | (h, .ok text) => some (h, text)
    | (_, .error _) => none
  | .change (.pri letter) => some (h.setPri held a.1 letter how)
  | .change (.removeTag key) => some (h.removeTag held a.1 key how)
  | .reset text => some (h.reset text a.1 how.1)

/-- Arrivals in order at a history that starts at `start`; `none` when one is refused. -/
def receiveAll (how : ApplyEdits × Nat) (start : Text) (as : List (Hlc × Arrival)) :
    Option (TextHistory × Text) :=
  as.foldlM (receive how) (new start, start)

/-- The newest reset among `as`. -/
def newestReset (as : List (Hlc × Arrival)) : Option (Hlc × Text) :=
  Iter.maxByKey (·.1) (as.filterMap Arrival.asReset)

/-- The text the arrivals `as` stand for, whatever their order: the newest reset's (else `start`),
then every newer change in stamp order. -/
def settledText (apply : ApplyEdits) (start : Text) (as : List (Hlc × Arrival)) : Text :=
  let newest := newestReset as
  let newer := (as.filterMap Arrival.asChange).filter fun e => newest.all fun r => r.1 < e.1
  (newer.insertionSort fun a b => a.1 ≤ b.1).foldl (replayStep apply)
    (newest.elim start fun r => r.2)

end TextHistory

end Txtodo
