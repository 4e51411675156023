import Txtodo.Core.Types

/-!
# The line grammar

The rules of `specs/todotxt.abnf` from `line` down, each a relation between a text and what it stands
for. A `date` is one of the calendar.
-/

namespace Txtodo.Grammar

/-- `NONSP`. -/
def IsNonSp (c : Char) : Prop := (0x21 ≤ c.toNat ∧ c.toNat ≤ 0x7E) ∨ 0x80 ≤ c.toNat

/-- A character of a `key`. -/
def IsKeyChar (c : Char) : Prop :=
  (0x21 ≤ c.toNat ∧ c.toNat ≤ 0x39) ∨ (0x3B ≤ c.toNat ∧ c.toNat ≤ 0x7E) ∨ 0x80 ≤ c.toNat

instance decidableIsNonSp (c : Char) : Decidable (IsNonSp c) :=
  inferInstanceAs (Decidable (_ ∨ _))

/-- `1*rule`, for a rule of one character. -/
def Many (rule : Char → Prop) (s : Text) : Prop := s ≠ [] ∧ ∀ c ∈ s, rule c

inductive Word : Text → Prop where
  | project {s : Text} (h : Many IsNonSp s) : Word ('+' :: s)
  | context {s : Text} (h : Many IsNonSp s) : Word ('@' :: s)
  | tag {key value : Text} (hkey : Many IsKeyChar key) (hvalue : Many IsNonSp value) :
      Word (key ++ ':' :: value)
  | plain {s : Text} (h : Many IsNonSp s) : Word s

inductive Description : Text → Prop where
  | word {w : Text} (h : Word w) : Description w
  | more {w s : Text} (h : Word w) (hs : Description s) : Description (w ++ ' ' :: s)

/-- `nDIGIT`, with the number it spells. -/
def Digits (n : Nat) (s : Text) (value : Nat) : Prop :=
  ∃ ds : List (Fin 10), ds.length = n ∧ s = ds.map (fun d => digit d.val) ∧
    value = ds.foldl (fun value d => value * 10 + d.val) 0

/-- The shape of `date`. -/
def DateShape (s : Text) (year month day : Nat) : Prop :=
  ∃ y m d : Text, s = y ++ '-' :: (m ++ '-' :: d) ∧
    Digits 4 y year ∧ Digits 2 m month ∧ Digits 2 d day

/-- `date`, calendar validity checked. -/
def IsDate (s : Text) (date : Date) : Prop := DateShape s date.year date.month date.day

def IsPriority (s : Text) (priority : Priority) : Prop := s = ['(', priority.letter, ')']

/-- `[SP rule]`. -/
inductive Optional {α : Type} (rule : Text → α → Prop) : Text → Option α → Prop where
  | none : Optional rule [] none
  | some {s : Text} {a : α} (h : rule s a) : Optional rule (' ' :: s) (some a)

/-- `[SP description]`, empty when it is absent. -/
inductive OptionalDescription : Text → Text → Prop where
  | none : OptionalDescription [] []
  | some {s : Text} (h : Description s) : OptionalDescription (' ' :: s) s

inductive Completed : Text → Task → Prop where
  | intro {s s₁ s₂ description : Text} {completion : Date} {creation : Option Date}
      (hcompletion : IsDate s completion) (hcreation : Optional IsDate s₁ creation)
      (hdescription : OptionalDescription s₂ description) :
      Completed ('x' :: ' ' :: (s ++ (s₁ ++ s₂))) ⟨true, some completion, creation, none, description⟩

inductive Incomplete : Text → Task → Prop where
  | priority {s s₁ s₂ description : Text} {priority : Priority} {creation : Option Date}
      (hpriority : IsPriority s priority) (hcreation : Optional IsDate s₁ creation)
      (hdescription : OptionalDescription s₂ description) :
      Incomplete (s ++ (s₁ ++ s₂)) ⟨false, none, creation, some priority, description⟩
  | date {s s₁ description : Text} {creation : Date} (hcreation : IsDate s creation)
      (hdescription : OptionalDescription s₁ description) :
      Incomplete (s ++ s₁) ⟨false, none, some creation, none, description⟩
  | description {s : Text} (h : Description s) : Incomplete s ⟨false, none, none, none, s⟩

/-- `line`. -/
inductive Derives : Text → LineKind → Prop where
  | completed {s : Text} {t : Task} (h : Completed s t) : Derives s (.task t)
  | incomplete {s : Text} {t : Task} (h : Incomplete s t) : Derives s (.task t)
  | blank : Derives [] .blank

/-- The grammar is ambiguous, any prefix is words as well: the derivation meant is the one that leaves
least to the description. -/
structure Longest (s : Text) (kind : LineKind) : Prop where
  derives : Derives s kind
  least : ∀ t t', kind = .task t → Derives s (.task t') →
    t.description.length ≤ t'.description.length

/-- What may stand in front of a creation date. -/
inductive BeforeCreation : Text → Prop where
  | start : BeforeCreation []
  | priority {s : Text} {priority : Priority} (h : IsPriority s priority) : BeforeCreation (s ++ [' '])
  | completion {s : Text} {completion : Date} (h : IsDate s completion) :
      BeforeCreation ('x' :: ' ' :: (s ++ [' ']))

/-- Where a creation date may stand is a word of the shape of one that is no day of the calendar. -/
def ImpossibleDate (s : Text) : Prop :=
  ∃ before word after : Text, s = before ++ (word ++ after) ∧ BeforeCreation before ∧
    (∃ year month day, DateShape word year month day) ∧ (∀ date, ¬IsDate word date) ∧
    (after = [] ∨ after.head? = some ' ')

end Txtodo.Grammar
