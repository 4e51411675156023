import Txtodo.Core.Ulid

/-!
# Chunks and words

A line is alternating runs of whitespace and words (`scanner.rs`). Every word of a description is
classified by one function (`tokenize.rs`, `urls.rs`), which the task views use (`task.rs`).
-/

namespace Txtodo

/-- A run of whitespace or a word, with the byte offset it starts at. -/
structure Chunk where
  start : Nat
  text : Text
  isWs : Bool
  deriving DecidableEq

/-- The two separators the grammar knows. -/
def isWs (c : Char) : Bool := c = ' ' || c = '\t'

/-- The chunks of a text that starts at byte `start`: each character joins the run that follows it
when both are separators or neither is. -/
def chunksFrom (start : Nat) : Text → List Chunk
  | [] => []
  | c :: cs =>
    match chunksFrom (start + (Utf8.encodeChar c).length) cs with
    | [] => [⟨start, [c], isWs c⟩]
    | k :: ks =>
      if k.isWs = isWs c then ⟨start, c :: k.text, k.isWs⟩ :: ks
      else ⟨start, [c], isWs c⟩ :: k :: ks

/-- Splits `raw` into contiguous chunks covering all of it. -/
def chunks (raw : Text) : List Chunk := chunksFrom 0 raw

/-- The schemes recognised by default. -/
def DEFAULT_SCHEMES : List Text :=
  ["http", "https", "mailto", "ftp", "ssh", "file", "tel", "sms"].map String.toList

/-- ASCII case-insensitive equality. -/
def eqIgnoreAsciiCase (s t : Text) : Bool := s.map Char.toLower = t.map Char.toLower

/-- Whether `word` is a listed scheme, a colon and at least one more character. -/
def isUrl (word : Text) (schemes : List Text) : Bool :=
  match word.idxOf? ':' with
  | none => false
  | some colon =>
    word.length > colon + 1 && schemes.any (eqIgnoreAsciiCase · (word.take colon))

/-- What a description word is. -/
inductive WordKind where
  | url
  | idTag
  | project
  | context
  | tag (colon : Nat)
  | text
  deriving DecidableEq

/-- Index of the colon in a `key:value` word with non-empty key and value. -/
def tagSplit (word : Text) : Option Nat :=
  (word.idxOf? ':').filter fun colon => 0 < colon && colon + 1 < word.length

/-- `word` without the prefix `p`. -/
def stripPrefix (p word : Text) : Option Text :=
  if p <+: word then some (word.drop p.length) else none

/-- Classifies one description word: URL first, then id, sigils, tags. -/
def classifyWord (word : Text) (schemes : List Text) : WordKind :=
  if isUrl word schemes then .url
  else if ((stripPrefix "id:".toList word).bind Ulid.parse).isSome then .idTag
  else if 1 < word.length && word.head? = some '+' then .project
  else if 1 < word.length && word.head? = some '@' then .context
  else match tagSplit word with
    | some colon => .tag colon
    | none => .text

/-- `(A)` to `(Z)` exactly. -/
def isPriorityWord : Text → Bool
  | ['(', letter, ')'] => (Priority.new letter).isSome
  | _ => false

/-- Longest slug the `ref:` tag accepts. -/
def SLUG_MAX_LEN : Nat := 64

/-- `[a-z0-9][a-z0-9._-]*`, at most 64 bytes. -/
def isValidSlug (s : Text) : Bool :=
  let headOk := s.head?.any fun c => c.isLower || c.isDigit
  let tailOk := s.all fun c => c.isLower || c.isDigit || c = '.' || c = '_' || c = '-'
  headOk && tailOk && Utf8.size s ≤ SLUG_MAX_LEN && s ≠ ['.'] && s ≠ ['.', '.']

namespace Task

/-- Description words with their classification. -/
def words (t : Task) : List (WordKind × Text) :=
  ((chunks t.description).filter (!·.isWs)).map fun c =>
    (classifyWord c.text DEFAULT_SCHEMES, c.text)

/-- `+project` names without the sigil, in order. -/
def projects (t : Task) : List Text :=
  (t.words.filter (·.1 = .project)).map (·.2.drop 1)

/-- `@context` names without the sigil, in order. -/
def contexts (t : Task) : List Text :=
  (t.words.filter (·.1 = .context)).map (·.2.drop 1)

/-- `(key, value)` for every `key:value` word; URLs are not tags. -/
def tags (t : Task) : List (Text × Text) :=
  t.words.filterMap fun
    | (.tag colon, w) => some (w.take colon, w.drop (colon + 1))
    | (.idTag, w) => some ("id".toList, w.drop 3)
    | _ => none

/-- Value of the first tag named `key`. -/
def tag (t : Task) (key : Text) : Option Text :=
  (t.tags.find? (·.1 = key)).map (·.2)

/-- Description words that are no `+project`, `@context`, tag or URL, in order. -/
def plainWords (t : Task) : List Text := (t.words.filter (·.1 = .text)).map (·.2)

/-- `tag` with a custom scheme list. -/
def tagWithSchemes (t : Task) (key : Text) (schemes : List Text) : Option Text :=
  (((chunks t.description).filter (!·.isWs)).map (·.text)).findSome? fun w =>
    match classifyWord w schemes with
    | .tag colon => if w.take colon = key then some (w.drop (colon + 1)) else none
    | _ => none

/-- The `id:` tag as a ULID. -/
def id (t : Task) : Option Ulid := (t.tag "id".toList).bind Ulid.parse

/-- The `ref:` slug, an invalid one read as none. -/
def refSlug (t : Task) : Option Text := (t.tag "ref".toList).filter isValidSlug

end Task

end Txtodo
