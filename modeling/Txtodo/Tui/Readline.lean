import Txtodo.Tui.TextInput

/-!
# Readline keys

`readline.rs`: pure edits on a field, and the one slot that kills fill and a yank inserts.
-/

namespace Txtodo.Readline

open TextInput

/-- What the Unicode tables say of letters. -/
structure Letters where
  isAlphanumeric : Char → Bool
  toUppercase : Char → Text
  toLowercase : Char → Text
  /-- A whole text, where a final sigma has a form of its own. -/
  textToLowercase : Text → Text

/-- The letters of ASCII. -/
def Letters.ascii : Letters := ⟨Char.isAlphanum, fun c => [c.toUpper], fun c => [c.toLower], List.map Char.toLower⟩

/-- Where the last character that passes `p` stands. -/
def rfind (p : Char → Bool) (text : Text) : Option Nat :=
  (text.reverse.findIdx? p).map fun i => text.length - 1 - i

/-- Where the line holding the caret starts. -/
def lineStart (text : Text) (caret : Nat) : Nat := (rfind (· = '\n') (text.take caret)).elim 0 (· + 1)

/-- Where the line holding the caret ends. -/
def lineEnd (text : Text) (caret : Nat) : Nat := ((text.drop caret).findIdx? (· = '\n')).elim text.length (caret + ·)

/-- `Ctrl-W`'s stop: back over spaces, then back to the previous space. -/
def spaceWordBack (text : Text) (caret : Nat) : Nat :=
  let before := ((text.take caret).reverse.dropWhile fun c => c = ' ' || c = '\t').reverse
  (rfind (fun c => c = ' ' || c = '\t' || c = '\n') before).elim 0 (· + 1)

/-- The slot every field shares. -/
structure Kill where
  text : Text
  /-- The last edit was a kill, so the next one joins it. -/
  joining : Bool
  deriving DecidableEq

namespace Kill

/-- Takes in what was cut, from before the caret when `backward`. -/
def take (kill : Kill) (killed : Text) (backward : Bool) : Kill :=
  if !kill.joining then { kill with text := [] ++ killed }
  else if backward then { kill with text := killed ++ kill.text }
  else { kill with text := kill.text ++ killed }

end Kill

/-- Cuts `from..to` into the slot, the caret left at `from`. -/
def cut (f : TextInput.Field) (kill : Kill) (start stop : Nat) : TextInput.Field × Kill :=
  if stop ≤ start then (f, kill)
  else
    let backward := stop ≤ f.caret
    (⟨TextInput.replaceRange f.text start stop [], start⟩, kill.take (slice f.text start stop) backward)

/-- The edits, one per key. -/
inductive Op where
  | lineStart
  | lineEnd
  | wordBack
  | wordForward
  | charBack
  | charForward
  | deleteForward
  | deleteBack
  | killSpaceWordBack
  | killWordBack
  | killWordForward
  | killLineBack
  | killLineForward
  | yank
  | transposeChars
  | transposeWords
  | upcase
  | downcase
  | capitalize
  deriving DecidableEq

/-- Whether the edit kills. -/
def Op.kills : Op → Bool
  | .killSpaceWordBack | .killWordBack | .killWordForward | .killLineBack | .killLineForward => true
  | _ => false

section Apply
variable (seg : Segmentation) (letters : Letters)

/-- The words: runs of graphemes that hold a letter or a digit. -/
def words (text : Text) : List (Nat × Nat) :=
  (seg.graphemeIndices text).foldl
    (fun out ig =>
      let (i, g) := ig
      if !g.any letters.isAlphanumeric then out
      else
        match out.getLast? with
        | some last => if last.2 = i then out.dropLast ++ [(last.1, i + g.length)] else out ++ [(i, i + g.length)]
        | none => out ++ [(i, i + g.length)])
    []

/-- The end of the word the caret is in, or of the next one. -/
def wordForward (text : Text) (caret : Nat) : Nat :=
  ((words seg letters text).find? fun w => caret < w.2).elim text.length (·.2)

/-- The start of the word the caret is in, or of the one before. -/
def wordBack (text : Text) (caret : Nat) : Nat :=
  ((words seg letters text).reverse.find? fun w => w.1 < caret).elim 0 (·.1)

/-- The character before the caret swaps with the one under it; at the end of a line, the last two swap. -/
def transposeChars (f : TextInput.Field) : TextInput.Field :=
  let stop := lineEnd f.text f.caret
  let «at» := if f.caret = stop then (seg.prevBoundary f.text f.caret).getD f.caret else f.caret
  match seg.prevBoundary f.text «at», seg.nextBoundary f.text «at» with
  | some before, some after =>
    if before < lineStart f.text «at» ∨ stop < after then f
    else
      let swapped := slice f.text «at» after ++ slice f.text before «at»
      ⟨TextInput.replaceRange f.text before after swapped, after⟩
  | _, _ => f

/-- The word before the caret swaps with the one after it. -/
def transposeWords (f : TextInput.Field) : TextInput.Field :=
  let words := words seg letters f.text
  let second := (words.findIdx? fun w => f.caret < w.2).getD (words.length - 1)
  match if second = 0 then none else words[second - 1]?, words[second]? with
  | some (a0, a1), some (b0, b1) =>
    let swapped := slice f.text b0 b1 ++ slice f.text a1 b0 ++ slice f.text a0 a1
    ⟨TextInput.replaceRange f.text a0 b1 swapped, b1⟩
  | _, _ => f

/-- The first letter up, the rest down. -/
def capitalize (part : Text) : Text :=
  (part.foldl
    (fun (s : Text × Bool) c =>
      if s.2 && letters.isAlphanumeric c then (s.1 ++ letters.toUppercase c, false)
      else if s.2 then (s.1 ++ [c], true)
      else (s.1 ++ letters.toLowercase c, false))
    ([], true)).1

/-- From the caret to the end of the word, in another case. -/
def changeCase (op : Op) (f : TextInput.Field) : TextInput.Field :=
  let stop := wordForward seg letters f.text f.caret
  let part := slice f.text f.caret stop
  let changed :=
    match op with
    | .upcase => part.flatMap letters.toUppercase
    | .downcase => letters.textToLowercase part
    | _ => capitalize letters part
  ⟨TextInput.replaceRange f.text f.caret stop changed, f.caret + changed.length⟩

/-- Applies one edit to a field. -/
def apply (op : Op) (f : TextInput.Field) (kill : Kill) : TextInput.Field × Kill :=
  let «at» := f.caret
  let (f, kill) :=
    match op with
    | .lineStart => ({ f with caret := lineStart f.text «at» }, kill)
    | .lineEnd => ({ f with caret := lineEnd f.text «at» }, kill)
    | .wordBack => ({ f with caret := wordBack seg letters f.text «at» }, kill)
    | .wordForward => ({ f with caret := wordForward seg letters f.text «at» }, kill)
    | .charBack => (seg.left f, kill)
    | .charForward => (seg.right f, kill)
    | .deleteForward => (seg.delete f, kill)
    | .deleteBack => (seg.backspace f, kill)
    | .killSpaceWordBack => cut f kill (spaceWordBack f.text «at») «at»
    | .killWordBack => cut f kill (wordBack seg letters f.text «at») «at»
    | .killWordForward => cut f kill «at» (wordForward seg letters f.text «at»)
    | .killLineBack => cut f kill (lineStart f.text «at») «at»
    | .killLineForward =>
      let stop := lineEnd f.text «at»
      -- at the end of a line, the line break goes
      let stop := if stop = «at» ∧ «at» < f.text.length then «at» + 1 else stop
      cut f kill «at» stop
    | .yank => (⟨TextInput.replaceRange f.text «at» «at» kill.text, «at» + kill.text.length⟩, kill)
    | .transposeChars => (transposeChars seg f, kill)
    | .transposeWords => (transposeWords seg letters f, kill)
    | .upcase | .downcase | .capitalize => (changeCase seg letters op f, kill)
  (f, { kill with joining := op.kills })

/-- Applies some edits, one after the other. -/
def applyAll (ops : List Op) (f : TextInput.Field) (kill : Kill) : TextInput.Field × Kill :=
  ops.foldl (fun s op => apply seg letters op s.1 s.2) (f, kill)

end Apply

end Txtodo.Readline
