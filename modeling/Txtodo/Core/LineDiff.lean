import Txtodo.Core.Diff
import Txtodo.Core.File

/-!
# Line diffs

`diff_lines` (`diff.rs`): lines match by their `id:` tag when they have one, else by a hash of their
bytes; a deletion and an insertion of one id become a move.
-/

namespace Txtodo

open EditGraph

/-- One step of a line diff, by positions in the two files. -/
inductive LineDiff where
  | keep (old new : Nat)
  | insert (new : Nat)
  | delete (old : Nat)
  | change (old new : Nat)
  | move (old new : Nat)
  deriving DecidableEq

/-- How a line is matched across files. -/
inductive Key where
  | id (id : Ulid)
  | content (hash : Nat)
  deriving DecidableEq

/-- FNV-1a over the line bytes. -/
def fnv1a (bytes : List UInt8) : Nat :=
  bytes.foldl (fun h b => (h ^^^ b.toNat) * 0x100000001b3 % 2 ^ 64) 0xcbf29ce484222325

def keyOf (line : OwnedLine) : Key :=
  match line.task.bind Task.id with
  | some id => .id id
  | none => .content (fnv1a line.bytes)

/-- What a step over the keys says about the lines. -/
def lineDiffOf (a b : File) : Step → LineDiff
  | .keep i j =>
    if a.lines[i]?.map (·.bytes) = b.lines[j]?.map (·.bytes) then .keep i j else .change i j
  | .delete i => .delete i
  | .insert j => .insert j

/-- The insertion of a line with the key of deleted line `old`, when that is an id. -/
def insertedAt (ka kb : List Key) (out : List LineDiff) (old : Nat) : Option (Nat × Nat) :=
  match ka[old]? with
  | some (.id id) =>
    (out.findIdx? fun
      | .insert new => kb[new]? = some (.id id)
      | _ => false).bind fun j =>
        match out[j]? with
        | some (.insert new) => some (j, new)
        | _ => none
  | _ => none

/-- Turns a deletion and an insertion of one id into a move, from `i` on. Each round moves on or
drops a step. -/
def pairMovesFrom (ka kb : List Key) : Nat → Nat → List LineDiff → List LineDiff
  | 0, _, out => out
  | rounds + 1, i, out =>
    match out[i]? with
    | none => out
    | some (.delete old) =>
      match insertedAt ka kb out old with
      | some (j, new) => pairMovesFrom ka kb rounds i ((out.set i (.move old new)).eraseIdx j)
      | none => pairMovesFrom ka kb rounds (i + 1) out
    | some _ => pairMovesFrom ka kb rounds (i + 1) out

def pairMoves (ka kb : List Key) (out : List LineDiff) : List LineDiff :=
  pairMovesFrom ka kb out.length 0 out

/-- Diffs two files line by line. -/
def diffLines (a b : File) : Option (List LineDiff) :=
  let ka := a.lines.map keyOf
  let kb := b.lines.map keyOf
  (myers ka kb).map fun steps => pairMoves ka kb (steps.map (lineDiffOf a b))

end Txtodo
