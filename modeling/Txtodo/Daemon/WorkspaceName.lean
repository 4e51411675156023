import Mathlib.Data.List.Destutter
import Txtodo.Mcp.Row
import Txtodo.Std.TomlLines
import Txtodo.Std.UnifiedFormat
import Txtodo.Std.Utf8

/-!
# A workspace's shown name

The top-level `name` of a workspace's `txtodo.toml`, and the edit of that one line (`workspace_name.rs`).
Reading TOML is the `toml` crate's, a parameter here; what the edit may touch is said with a scan of the
document's lines.
-/

namespace Txtodo.WorkspaceName

open Mcp (isWhitespace)
open UnifiedFormat (lines lineText)

def LAYOUT_FILE : Text := "txtodo.toml".toList

/-- `MAX_WORKSPACE_NAME_BYTES`: the most a control-channel offer carries. -/
def MAX_NAME_BYTES : Nat := 256

/-- What is read of a `txtodo.toml` here. -/
structure Raw where
  name : Option Text
  deriving DecidableEq

/-- `toml::from_str::<Raw>`: the fields read, or the error as it is shown. -/
abbrev FromStr := Text → Except Text Raw

/-- `str::trim_start`. -/
def trimStart (s : Text) : Text := s.dropWhile isWhitespace

/-- `str::trim`. -/
def trim (s : Text) : Text := ((trimStart s).reverse.dropWhile isWhitespace).reverse

/-- `char::is_control`. -/
def isControl (c : Char) : Bool := c.toNat < 32 || (127 ≤ c.toNat && c.toNat ≤ 159)

/-- `str::split_inclusive('\n')`: every line with its own ending. -/
def splitInclusive (text : Text) : List Text := (lines text).map lineText

/-- `raw` as a name: trimmed, `none` when that leaves nothing; refused with a control character in it, or
longer than `MAX_NAME_BYTES`. -/
def clean (raw : Text) : Except Text (Option Text) :=
  let name := trim raw
  if name.isEmpty then .ok none
  else if name.any isControl then
    .error "a workspace name cannot hold a tab, a new line or another control character".toList
  else if MAX_NAME_BYTES < Utf8.size name then
    .error ("a workspace name is at most ".toList ++ Nat.toDigits 10 MAX_NAME_BYTES ++ " bytes; this one is ".toList ++
      Nat.toDigits 10 (Utf8.size name))
  else .ok (some name)

/-- A `name = ...` line after its indent is trimmed; not `names`, not `name_x`. -/
def isNameLine (trimmed : Text) : Bool :=
  (stripPrefix "name".toList trimmed).any fun rest => (trimStart rest).head? = some '='

/-- The last `name = ...` line in front of the first table, read on its own. -/
def lastNameLine (fromStr : FromStr) (text : Text) : Option Raw :=
  let seen := (splitInclusive text).takeWhile fun l => !decide ((trimStart l).head? = some '[')
  (seen.filter fun l => isNameLine (trimStart l)).getLast?.bind fun line => (fromStr line).toOption

/-- The name a `txtodo.toml`'s text sets, when it holds a valid one. Text that is not valid TOML is named by
its last `name` line. -/
def parse (fromStr : FromStr) (text : Text) : Option Text :=
  let raw := (fromStr text).toOption.or (lastNameLine fromStr text)
  (raw.bind (·.name)).bind fun name => (clean name).toOption.join

/-- `name` as a TOML basic string. -/
def quoted (name : Text) : Text :=
  '"' :: name.flatMap (fun c => if c = '"' ∨ c = '\\' then ['\\', c] else [c]) ++ ['"']

/-- The variables of `put_name_line`'s loop. -/
structure Put where
  line : Option Text
  out : Text
  inTable : Bool

/-- The loop's body: `line` is handed out once, at the first `name` line or table header. -/
def Put.step (s : Put) (l : Text) : Put :=
  let trimmed := trimStart l
  let inTable := s.inTable || decide (trimmed.head? = some '[')
  let isName := !inTable && isNameLine trimmed
  let out := if isName || inTable then s.out ++ s.line.getD [] else s.out
  { line := if isName || inTable then none else s.line
    out := if isName then out else out ++ l
    inTable := inTable }

/-- `text` with every `name = ...` line in front of the first table dropped, and `line` put where the first of
them stood, else before the first table header, else at the end. -/
def putNameLine (text : Text) (line : Option Text) : Text :=
  let s := (splitInclusive text).foldl Put.step ⟨line, [], false⟩
  match s.line with
  | some line =>
    (if !s.out.isEmpty && decide (s.out.getLast? ≠ some '\n') then s.out ++ ['\n'] else s.out) ++ line
  | none => s.out

/-- The line that sets `name`. -/
def newLine (name : Text) : Text := "name = ".toList ++ quoted name

/-- The edited text must parse, and name exactly `name`. -/
def checkReadsBack (fromStr : FromStr) (text : Text) (name : Option Text) : Except Text Unit :=
  match fromStr text with
  | .error e => .error (LAYOUT_FILE ++ " is not valid TOML, so its name was left alone: ".toList ++ e)
  | .ok raw =>
    if raw.name ≠ name then
      .error (LAYOUT_FILE ++ " holds `name` in a form this edit does not change; edit it by hand".toList)
    else .ok ()

/-- `text` with its `name` set to `name`, or removed for `none`. Refused when the result would not read back
as `name`. -/
def withName (fromStr : FromStr) (text : Text) (name : Option Text) : Except Text Text := do
  let out := putNameLine text (name.map fun n => newLine n ++ ['\n'])
  checkReadsBack fromStr out name
  return out

def withoutName (text : Text) : Text := putNameLine text none

/-- The texts a rename goes through, each to be one edit: the old lines out, then the new one in. -/
def renameSteps (fromStr : FromStr) (text : Text) (name : Option Text) : Except Text (List Text) := do
  let named ← withName fromStr text name
  if named = text then return []
  -- `Vec::dedup`: of equal steps side by side the first stays
  return ([withoutName text, named].filter (· ≠ text)).destutter (· ≠ ·)

/-! ## What a rename may touch -/

/-- The lines of a text without their endings. -/
def textLines (text : Text) : List Text := (lines text).map Prod.fst

def startsTable (l : Text) : Bool := decide ((trimStart l).head? = some '[')

def setsName (l : Text) : Bool := isNameLine (trimStart l)

/-- A rename edits only the name: the result names `name`, every line outside the top-level `name` lines is
in it, in order, nothing but the new line came in, and that at the top level; the rename made again changes
nothing, and its steps end in the result. -/
structure EditsOnlyName (fromStr : FromStr) (text : Text) (name : Option Text) (out : Text) : Prop where
  parsed : parse fromStr out = name
  outside : (Toml.outside startsTable setsName .start (textLines text)).Sublist (textLines out)
  edited : Toml.Edited startsTable setsName (name.map newLine) .start (textLines text) (textLines out)
  again : withName fromStr out name = .ok out
  steps : ∃ steps, renameSteps fromStr text name = .ok steps ∧ (steps = [] ↔ out = text) ∧
    ∀ s ∈ steps.getLast?, s = out

/-- The lines up to the first that starts with a bracket: those the edit searches for the name. -/
def seen (text : Text) : List Text := (textLines text).takeWhile fun l => !startsTable l

/-- The `name` lines the edit finds may go, and the new one may stand at the first of them. -/
def NamesMayGo (text : Text) (name : Option Text) : Prop :=
  let front := (seen text).takeWhile fun l => !setsName l
  Toml.MayReplace startsTable setsName (Toml.State.start.scan startsTable front) (name.map newLine)
    ((seen text).dropWhile fun l => !setsName l)

end Txtodo.WorkspaceName
