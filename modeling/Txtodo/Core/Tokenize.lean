import Txtodo.Core.Edit

/-!
# Tokenizing a line

Every byte of a line gets a kind (`tokenize.rs`). The words of the prefix are classified by their position,
the words of the description by what they are.
-/

namespace Txtodo

/-- Token classes. -/
inductive TokenKind where
  | completionMarker
  | completionDate
  | creationDate
  | priority
  | project
  | context
  | tagKey
  | tagValue
  | idTag
  | url
  | text
  | whitespace
  deriving DecidableEq

/-- A classified stretch of the line: its first byte and its text. -/
structure Span where
  kind : TokenKind
  start : Nat
  text : Text
  deriving DecidableEq

namespace Tokenizer

/-- Where we are in the structured prefix before the description starts. -/
structure Prefix where
  done : Bool
  seenX : Bool
  dates : Nat
  seenPriority : Bool
  deriving DecidableEq

namespace Prefix

def default : Prefix := ⟨false, false, 0, false⟩

/-- After `x`: first date is completion, second is creation. Otherwise the only date is creation. -/
def classifyDate (p : Prefix) : Option TokenKind × Prefix :=
  let maxDates := if p.seenX then 2 else 1
  if maxDates ≤ p.dates then (none, p)
  else
    let p := { p with dates := p.dates + 1 }
    (some (if p.seenX && p.dates = 1 then .completionDate else .creationDate), p)

/-- Position-based prefix classification; `none` ends the prefix. -/
def classifyPrefix (word : Text) (index : Nat) (p : Prefix) : Option TokenKind × Prefix :=
  if index = 0 ∧ word = ['x'] then (some .completionMarker, { p with seenX := true })
  else if (Date.parse word).isSome then p.classifyDate
  else if !p.seenPriority && isPriorityWord word then (some .priority, { p with seenPriority := true })
  else (none, p)

end Prefix

end Tokenizer

/-- The spans of a description word. -/
def pushWord (spans : List Span) (word : Text) (start : Nat) (schemes : List Text) : List Span :=
  match classifyWord word schemes with
  | .url => spans ++ [⟨.url, start, word⟩]
  | .idTag => spans ++ [⟨.idTag, start, word⟩]
  | .project => spans ++ [⟨.project, start, word⟩]
  | .context => spans ++ [⟨.context, start, word⟩]
  | .text => spans ++ [⟨.text, start, word⟩]
  | .tag colon =>
    let key := word.take (colon + 1)
    spans ++ [⟨.tagKey, start, key⟩, ⟨.tagValue, start + Utf8.size key, word.drop (colon + 1)⟩]

/-- One tokenization in progress. -/
structure Tokenizer where
  schemes : List Text
  spans : List Span
  pre : Tokenizer.Prefix

/-- Appends the spans for one chunk. -/
def Tokenizer.pushChunk (t : Tokenizer) (chunk : Chunk) (index : Nat) : Tokenizer :=
  if chunk.isWs then { t with spans := t.spans ++ [⟨.whitespace, chunk.start, chunk.text⟩] }
  else if t.pre.done then
    { t with spans := pushWord t.spans chunk.text chunk.start t.schemes }
  else
    match t.pre.classifyPrefix chunk.text index with
    | (some kind, pre) => { t with spans := t.spans ++ [⟨kind, chunk.start, chunk.text⟩], pre := pre }
    | (none, pre) =>
      { t with
        spans := pushWord t.spans chunk.text chunk.start t.schemes, pre := { pre with done := true } }

/-- Tokenizes with a custom scheme list. -/
def tokenizeWithSchemes (raw : Text) (schemes : List Text) : List Span :=
  ((chunks raw).zipIdx.foldl (fun t chunk => t.pushChunk chunk.1 chunk.2)
    (Tokenizer.mk schemes [] Tokenizer.Prefix.default)).spans

/-- Tokenizes with the default schemes. -/
def tokenize (raw : Text) : List Span := tokenizeWithSchemes raw DEFAULT_SCHEMES

end Txtodo
