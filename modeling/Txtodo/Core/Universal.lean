import Txtodo.Core.Types
import Txtodo.Std.Grouping
import Mathlib.Data.Char
import Mathlib.Data.List.Lex

/-!
# The grouping of the Universal screen

`universal.rs`: due buckets and rows grouped by priority, due date, project, context or workspace.
-/

namespace Txtodo

namespace Universal

/-- Days since 1970-01-01. -/
def daysFromCivil (d : Date) : Int :=
  let y : Int := d.year
  let m : Int := d.month
  let day : Int := d.day
  let y := if m ≤ 2 then y - 1 else y
  let era := y / 400
  let yoe := y - era * 400
  let mp := (m + 9) % 12
  let doy := (153 * mp + 2) / 5 + day - 1
  let doe := yoe * 365 + yoe / 4 - yoe / 100 + doy
  era * 146097 + doe - 719468

/-- Whole days from one date to another. -/
def daysBetween (first last : Text) : Option Int := do
  let first ← Date.parse first
  let last ← Date.parse last
  some (daysFromCivil last - daysFromCivil first)

/-- Where a due date falls, in display order. -/
inductive DueBucket where
  | overdue
  | today
  | thisWeek
  | later
  | noDate
  deriving DecidableEq

def DueBucket.label : DueBucket → Text
  | .overdue => "Overdue".toList
  | .today => "Today".toList
  | .thisWeek => "This week".toList
  | .later => "Later".toList
  | .noDate => "No date".toList

def dueBucket (due : Option Text) (today : Text) : DueBucket :=
  match due.bind (daysBetween today) with
  | none => .noDate
  | some d => if d < 0 then .overdue else if d = 0 then .today else if d ≤ 7 then .thisWeek else .later

/-- What the screen groups by. -/
inductive GroupBy where
  | priority
  | due
  | project
  | context
  | workspace
  deriving DecidableEq

/-- What grouping reads of a row. -/
structure RowFacts where
  done : Bool
  priority : Option Char
  due : Option Text
  project : Option Text
  context : Option Text
  workspace : Text
  deriving DecidableEq

/-- The heading a row goes under. -/
def groupName (row : RowFacts) (groupBy : GroupBy) (today : Text) : Text :=
  match groupBy with
  | .priority => row.priority.elim "No priority".toList fun p => ['(', p, ')']
  | .due => (dueBucket row.due today).label
  | .project => row.project.getD "No project".toList
  | .context => row.context.getD "No context".toList
  | .workspace => row.workspace

def I64_MAX : Int := 9223372036854775807

/-- Where a heading sorts, before its name. -/
def groupRank (name : Text) (groupBy : GroupBy) (workspaces : List Text) : Int :=
  let unknown := I64_MAX / 2
  match groupBy with
  | .due =>
    ([DueBucket.overdue, .today, .thisWeek, .later, .noDate].findIdx? fun b => b.label = name).elim unknown Int.ofNat
  | .workspace => (workspaces.findIdx? (· = name)).elim unknown Int.ofNat
  | .priority =>
    match Utf8.encode name with
    | 40 :: p :: _ => p.toNat
    | _ => 999
  | .project | .context => if "No ".toList.isPrefixOf name then 9999 else 0

/-- A row's place in its group: open before done, then by due date, then by priority. -/
def rowRank (row : RowFacts) (today : Text) : Int :=
  let done : Int := if row.done then 1000000 else 0
  let due : Int := (row.due.bind (daysBetween today)).elim 5000 (· + 1000)
  let pri : Int := row.priority.elim 9 fun p => (p.toNat : Int) - 64
  done + due * 10 + pri

/-- Case-folded, then exact. -/
def nameLe (toLowercase : Text → Text) (a b : Text) : Bool :=
  toLowercase a < toLowercase b || toLowercase a = toLowercase b && a ≤ b

/-- Rows grouped: each heading with the places of its rows, headings and rows in display order. -/
def group (toLowercase : Text → Text) (rows : List RowFacts) (groupBy : GroupBy) (today : Text)
    (workspaces : List Text) : List (Text × List Nat) :=
  let groups := Grouping.collect (rows.map fun row => groupName row groupBy today)
  let groups := groups.insertionSort fun a b =>
    let rankA := groupRank a.1 groupBy workspaces
    let rankB := groupRank b.1 groupBy workspaces
    rankA < rankB ∨ rankA = rankB ∧ nameLe toLowercase a.1 b.1 = true
  groups.map fun g =>
    (g.1, g.2.insertionSort fun i j =>
      (rows[i]?.elim 0 fun row => rowRank row today) ≤ rows[j]?.elim 0 fun row => rowRank row today)

end Universal

end Txtodo
