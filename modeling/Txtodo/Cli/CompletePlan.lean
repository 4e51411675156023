import Txtodo.Cli.PlanCheck

/-!
# Completions as one mutation a line

`complete_plan.rs`: when a file changed by completing lines and moving them to its end, one `Complete` for each
of them. Lines match by their id, or by their bytes when they have none.
-/

namespace Txtodo.Cli.CompletePlan

/-- The completion date when `new` is `old` completed and nothing else. -/
def completionOf (old new : OwnedLine) : Option Date := do
  let before ← old.task
  let after ← new.task
  if before.completed || !after.completed then none
  else
    let today ← after.completionDate
    if (apply old (Edit.new.complete today)).bytes = new.bytes then some today else none

/-- What identifies a line across the diff. -/
inductive Key where
  | id (id : Ulid)
  | content (bytes : List UInt8)
  deriving DecidableEq

def keyOf (line : OwnedLine) : Option Key :=
  line.task.map fun t =>
    match t.id with
    | some id => .id id
    | none => .content line.bytes

/-- The keys in line order; `none` when a line is blank or a key repeats. -/
def keysOf (file : File) : Option (List Key) := do
  let keys ← file.lines.mapM keyOf
  if keys.Nodup then some keys else none

/-- Where line `i` of `old` is in `new`: the line with the same key, or the one line that is it completed. -/
def counterpart (old : File) (i : Nat) (new : File) (newKeys : List Key) : Option Nat := do
  let line ← old.lines[i]?
  let key ← keyOf line
  match newKeys.idxOf? key with
  | some at_ => some at_
  | none =>
    match (List.range new.lines.length).filter fun at_ =>
      (new.lines[at_]?.bind (completionOf line)).isSome with
    | [hit] => some hit
    | _ => none

/-- Where the open lines and the completed ones are in `new`, in old order, and the mutations so far. -/
structure Progress where
  opened : List Nat
  done : List Nat
  out : List Pb.Mutation

/-- Line `i` of `old`. Each completion before it lifted one line from above it to the end, so it sits that much
higher than `old` numbered it. -/
def planLine (old new : File) (newKeys : List Key) (p : Progress) (i : Nat) : Option Progress := do
  let at_ ← counterpart old i new newKeys
  let before ← old.lines[i]?
  let after ← new.lines[at_]?
  if after.bytes = before.bytes then some { p with opened := p.opened ++ [at_] }
  else
    let today ← completionOf before after
    let lineNumber := i - p.done.length + 1
    if U32_MAX < lineNumber then none
    else some { p with
      done := p.done ++ [at_]
      out := p.out ++ [.complete { taskRef old i with lineNumber := lineNumber } today.display] }

/-- One `Complete` for each line, in old order, when `new` is `old` with some lines completed and those lines
moved to the end in their old order. -/
def plan (old new : File) : Option (List Pb.Mutation) := do
  let newKeys ← keysOf new
  let oldKeys ← keysOf old
  if oldKeys.length ≠ newKeys.length then none
  else
    let p ← (List.range old.lines.length).foldlM (planLine old new newKeys) ⟨[], [], []⟩
    if p.done.isEmpty then none
    else if p.opened ++ p.done = List.range new.lines.length then some p.out else none

end Txtodo.Cli.CompletePlan
