import Txtodo.Core.Proofs.UlidProofs
import Txtodo.Daemon.RefDirOps
import Mathlib

/-!
# The names of reference directories

Generated slugs and the names a claim tries are valid and distinct, and a name taken was free. A moved
directory's names are valid exactly while the suffix that the taken names lead to still fits.
-/

namespace Txtodo

/-! ## Slug text -/

/-- A slug's first character. -/
def isSlugHead (c : Char) : Bool := c.isLower || c.isDigit

/-- A slug's characters. -/
def isSlugChar (c : Char) : Bool := isSlugHead c || c = '.' || c = '_' || c = '-'

/-- A slug but for its length. -/
structure SlugText (s : Text) : Prop where
  chars : ∀ c ∈ s, isSlugChar c = true
  head : ∀ c ∈ s.head?, isSlugHead c = true

theorem length_encodeChar_of_ascii {c : Char} (h : c.toNat < 0x80) :
    (Utf8.encodeChar c).length = 1 := by
  simp [Utf8.encodeChar, h]

theorem isSlugChar_ascii {c : Char} (h : isSlugChar c = true) : c.toNat < 0x80 := by
  have hle : ∀ {a b : Char}, a ≤ b → a.toNat ≤ b.toNat := fun h => h
  simp only [isSlugChar, isSlugHead, Bool.or_eq_true, Char.isLower, Char.isDigit, Bool.and_eq_true,
    decide_eq_true_eq] at h
  rcases h with (((⟨-, h⟩ | ⟨-, h⟩) | rfl) | rfl) | rfl
  · exact Nat.lt_of_le_of_lt (hle h) (by decide)
  · exact Nat.lt_of_le_of_lt (hle h) (by decide)
  all_goals decide

theorem size_of_ascii {s : Text} (h : ∀ c ∈ s, c.toNat < 0x80) : Utf8.size s = s.length := by
  induction s with
  | nil => rfl
  | cons c s ih =>
    have htail := ih fun d hd => h d (List.mem_cons_of_mem _ hd)
    rw [Utf8.size] at htail
    rw [Utf8.size, Utf8.encode_cons, List.length_append,
      length_encodeChar_of_ascii (h c List.mem_cons_self), htail, List.length_cons, Nat.add_comm]

/-- The core's slug rule. -/
theorem isValidSlug_iff {s : Text} :
    isValidSlug s = true ↔ s ≠ [] ∧ SlugText s ∧ s.length ≤ SLUG_MAX_LEN := by
  have hchar : ∀ c : Char,
      (c.isLower || c.isDigit || c = '.' || c = '_' || c = '-') = isSlugChar c := fun _ => rfl
  simp only [isValidSlug, hchar, Bool.and_eq_true, decide_eq_true_eq, List.all_eq_true, ne_eq]
  constructor
  · rintro ⟨⟨⟨⟨hhead, hall⟩, hsize⟩, -⟩, -⟩
    cases s with
    | nil => cases hhead
    | cons c s =>
      refine ⟨List.cons_ne_nil _ _, ⟨hall, fun d hd => ?_⟩, ?_⟩
      · obtain rfl : c = d := by simpa using hd
        exact hhead
      · rwa [size_of_ascii fun d hd => isSlugChar_ascii (hall d hd)] at hsize
  · rintro ⟨hne, ⟨hall, hhead⟩, hlen⟩
    cases s with
    | nil => exact absurd rfl hne
    | cons c s =>
      have hc : isSlugHead c = true := hhead c rfl
      have hdot : c ≠ '.' := by
        rintro rfl
        exact absurd hc (by decide)
      refine ⟨⟨⟨⟨hc, hall⟩, ?_⟩, ?_⟩, ?_⟩
      · rwa [size_of_ascii fun d hd => isSlugChar_ascii (hall d hd)]
      · exact fun h => hdot (List.cons.inj h).1
      · exact fun h => hdot (List.cons.inj h).1

namespace SlugText

variable {s t : Text}

theorem nil : SlugText [] := ⟨by simp, by simp⟩

/-- A slug cut short is one but for its length. -/
theorem of_isPrefix (h : SlugText s) (hp : t <+: s) : SlugText t := by
  refine ⟨fun c hc => h.chars c (hp.mem hc), fun c hc => ?_⟩
  cases t with
  | nil => cases hc
  | cons d t =>
    obtain ⟨rest, rfl⟩ := hp
    exact h.head c hc

/-- More slug characters may follow a slug. -/
theorem append (h : SlugText s) (hne : s ≠ []) (ht : ∀ c ∈ t, isSlugChar c = true) :
    SlugText (s ++ t) := by
  refine ⟨fun c hc => ?_, fun c hc => h.head c ?_⟩
  · rcases List.mem_append.mp hc with hc | hc
    · exact h.chars c hc
    · exact ht c hc
  · cases s with
    | nil => exact absurd rfl hne
    | cons d s => exact hc

theorem of_heads (h : ∀ c ∈ s, isSlugHead c = true) : SlugText s :=
  ⟨fun c hc => by simp [isSlugChar, h c hc], fun c hc => h c (List.mem_of_mem_head? hc)⟩

end SlugText

/-! ## Generated slugs -/

theorem isLower_toLower_of_isUpper {c : Char} (h : c.isUpper = true) : c.toLower.isLower = true := by
  simp only [Char.isUpper, decide_eq_true_eq, ge_iff_le] at h
  rw [Char.toLower, dif_pos h]
  simp only [Char.isLower, Bool.and_eq_true, decide_eq_true_eq, UInt32.le_iff_toNat_le, ge_iff_le,
    UInt32.toNat_add] at h ⊢
  have hA : 'A'.val.toNat = 65 := rfl
  have hZ : 'Z'.val.toNat = 90 := rfl
  have ha : 'a'.val.toNat = 97 := rfl
  have hz : 'z'.val.toNat = 122 := rfl
  have hshift : ('a'.val - 'A'.val).toNat = 32 := rfl
  omega

theorem isSlugHead_toLower {c : Char} (h : c.isAlphanum = true) : isSlugHead c.toLower = true := by
  cases hupper : c.isUpper with
  | true => rw [isSlugHead, isLower_toLower_of_isUpper hupper, Bool.true_or]
  | false =>
    have hsame : c.toLower = c := dif_neg (by simpa [Char.isUpper] using hupper)
    rw [hsame]
    simpa [isSlugHead, Char.isAlphanum, Char.isAlpha, hupper] using h

theorem isAlphanum_of_isSlugHead {c : Char} (h : isSlugHead c = true) : c.isAlphanum = true := by
  rcases Bool.or_eq_true _ _ |>.mp h with hlower | hdigit
  · simp [Char.isAlphanum, Char.isAlpha, hlower]
  · simp [Char.isAlphanum, hdigit]

theorem trimHyphens_isPrefix (s : Text) : trimHyphens s <+: s := by
  rw [trimHyphens, ← List.reverse_suffix, List.reverse_reverse]
  exact List.dropWhile_suffix _

theorem SlugText.pushSlugChar {piece : Text} (h : SlugText piece) (c : Char) :
    SlugText (pushSlugChar piece c) := by
  rw [Txtodo.pushSlugChar]
  split
  · rename_i hc
    have hone : ∀ d ∈ [c.toLower], isSlugHead d = true := by
      simpa using isSlugHead_toLower hc
    cases piece with
    | nil => exact SlugText.of_heads hone
    | cons d piece =>
      exact h.append (List.cons_ne_nil _ _) fun e he => by simp [isSlugChar, hone e he]
  · split
    · rename_i hsep
      have hne : piece ≠ [] := by
        rintro rfl
        simp at hsep
      exact h.append hne (by simp [isSlugChar])
    · exact h

theorem slugText_slugPiece (word : Text) : SlugText (slugPiece word) := by
  have hrun : ∀ (cs piece : Text), SlugText piece → SlugText (cs.foldl Txtodo.pushSlugChar piece) := by
    intro cs
    induction cs with
    | nil => exact fun _ h => h
    | cons c cs ih => exact fun piece h => ih _ (h.pushSlugChar c)
  exact (hrun word [] SlugText.nil).of_isPrefix (trimHyphens_isPrefix _)

theorem SlugText.pushSlugWord {base : Text} (h : SlugText base) (word : Text) :
    SlugText (pushSlugWord base word) := by
  rw [Txtodo.pushSlugWord]
  have hpiece := slugText_slugPiece word
  split
  · exact h
  · cases base with
    | nil => exact hpiece
    | cons c base =>
      rw [if_neg (by simp), List.append_assoc]
      refine h.append (List.cons_ne_nil _ _) fun d hd => ?_
      rcases List.mem_cons.mp hd with rfl | hd
      · decide
      · exact hpiece.chars d hd

theorem slugText_words (words : List Text) : SlugText (words.foldl pushSlugWord []) := by
  have hrun : ∀ (ws : List Text) (base : Text), SlugText base → SlugText (ws.foldl pushSlugWord base) := by
    intro ws
    induction ws with
    | nil => exact fun _ h => h
    | cons w ws ih => exact fun base h => ih _ (h.pushSlugWord w)
  exact hrun words [] SlugText.nil

theorem fallbackSlug_spec (id : TaskId) :
    SlugText (fallbackSlug id) ∧ (fallbackSlug id).length = ULID_LEN := by
  refine ⟨SlugText.of_heads fun c hc => ?_, ?_⟩
  · obtain ⟨d, hd, rfl⟩ := List.mem_map.mp hc
    exact isSlugHead_toLower (Ulid.mem_display hd).1
  · rw [fallbackSlug, List.length_map, Ulid.length_display]

/-- A generated slug keeps the slug rule and leaves room for a suffix. -/
theorem generateSlug_spec (words : List Text) (id : TaskId) :
    generateSlug words id ≠ [] ∧ SlugText (generateSlug words id) ∧
      (generateSlug words id).length ≤ SLUG_GENERATE_MAX_LEN := by
  have hbase := slugText_words words
  -- nothing is dropped in front: a base begins with a letter or a digit
  have hdrop : (words.foldl pushSlugWord []).dropWhile (!·.isAlphanum) = words.foldl pushSlugWord [] := by
    cases hw : words.foldl pushSlugWord [] with
    | nil => rfl
    | cons c s =>
      have hc := isAlphanum_of_isSlugHead (hbase.head c (by rw [hw]; rfl))
      rw [List.dropWhile_cons, hc]
      rfl
  rw [generateSlug, hdrop]
  have hcut := trimHyphens_isPrefix ((words.foldl pushSlugWord []).take SLUG_GENERATE_MAX_LEN)
  split
  · obtain ⟨htext, hlen⟩ := fallbackSlug_spec id
    refine ⟨fun hnil => ?_, htext, by rw [hlen]; decide⟩
    rw [hnil] at hlen
    cases hlen
  · rename_i hne
    refine ⟨by simpa using hne, hbase.of_isPrefix (hcut.trans (List.take_prefix _ _)), ?_⟩
    exact hcut.length_le.trans (List.length_take_le _ _)

/-! ## Candidates -/

theorem slugSuffix_injective {a b : Nat} (h : slugSuffix a = slugSuffix b) : a = b := by
  unfold slugSuffix at h
  split at h
  · split at h
    · omega
    · cases h
  · split at h
    · cases h
    · have hnum := congrArg (Nat.ofDigitChars 10 · 0) (List.cons.inj h).2
      simp only [Nat.ofDigitChars_ten_toDigits] at hnum
      omega

theorem suffixed_injective {base : Text} {a b : Nat} (h : suffixed base a = suffixed base b) : a = b :=
  slugSuffix_injective (List.append_cancel_left h)

/-- The names tried are pairwise distinct. -/
theorem candidates_nodup (base : Text) : (candidates base).Nodup :=
  List.Nodup.map (fun _ _ h => suffixed_injective h) List.nodup_range

theorem length_candidates (base : Text) : (candidates base).length = MAX_SLUG_COLLISIONS + 1 := by
  rw [candidates, List.length_map, List.length_range]

theorem candidates_getElem? {base : Text} {n : Nat} {c : Text} :
    (candidates base)[n]? = some c ↔ n ≤ MAX_SLUG_COLLISIONS ∧ c = suffixed base n := by
  rw [candidates, List.getElem?_map, Option.map_eq_some_iff]
  constructor
  · rintro ⟨m, hm, rfl⟩
    obtain ⟨hlt, rfl⟩ := List.getElem?_eq_some_iff.mp hm
    rw [List.length_range] at hlt
    exact ⟨by omega, by rw [List.getElem_range]⟩
  · rintro ⟨hn, rfl⟩
    exact ⟨n, by rw [List.getElem?_range (by omega)], rfl⟩

theorem isSlugChar_slugSuffix (n : Nat) : ∀ c ∈ slugSuffix n, isSlugChar c = true := by
  intro c hc
  unfold slugSuffix at hc
  split at hc
  · cases hc
  · rcases List.mem_cons.mp hc with rfl | hc
    · decide
    · have hdigit := Nat.isDigit_of_mem_toDigits (by decide) (by decide) hc
      simp [isSlugChar, isSlugHead, hdigit]

theorem length_slugSuffix_le {n : Nat} (h : n ≤ MAX_SLUG_COLLISIONS) : (slugSuffix n).length ≤ 5 := by
  unfold slugSuffix
  split
  · exact Nat.zero_le _
  · have hdigits : (Nat.toDigits 10 (n + 1)).length ≤ 4 :=
      (Nat.length_toDigits_le_iff (by decide) (by decide)).mpr
        (by unfold MAX_SLUG_COLLISIONS at h; omega)
    rw [List.length_cons]
    omega

/-- A name tried is valid exactly when slug and suffix fit together. -/
theorem isValidSlug_suffixed {base : Text} (h : base ≠ []) (hbase : SlugText base) (n : Nat) :
    isValidSlug (suffixed base n) = true ↔
      base.length + (slugSuffix n).length ≤ SLUG_MAX_LEN := by
  rw [isValidSlug_iff, suffixed, List.length_append]
  exact ⟨fun h => h.2.2, fun hlen =>
    ⟨by simp [h], hbase.append h (isSlugChar_slugSuffix n), hlen⟩⟩

/-- Every name tried after a generated slug is valid. -/
theorem isValidSlug_generated (words : List Text) (id : TaskId) :
    ∀ c ∈ candidates (generateSlug words id), isValidSlug c = true := by
  obtain ⟨hne, htext, hlen⟩ := generateSlug_spec words id
  intro c hc
  obtain ⟨n, hget⟩ := List.mem_iff_getElem?.mp hc
  obtain ⟨hn, rfl⟩ := candidates_getElem?.mp hget
  rw [isValidSlug_suffixed hne htext]
  have hsuffix := length_slugSuffix_le hn
  unfold SLUG_GENERATE_MAX_LEN at hlen
  unfold SLUG_MAX_LEN
  omega

/-! ## Claims -/

theorem subset_tryCreateDir (d : Disk) (name : Text) (parent : FolderPath) :
    d.folders ⊆ (tryCreateDir d name parent).1.folders := by
  have hall := Disk.subset_createDirAll d parent
  unfold tryCreateDir
  split
  · rename_i hmade
    rwa [hmade] at hall
  · rename_i d₁ hmade
    rw [hmade] at hall
    have hone := Disk.subset_createDir d₁ name parent
    split <;> rename_i hdir <;> rw [hdir] at hone <;> exact fun q hq => hone (hall hq)

/-- A directory a claim created was free. -/
theorem tryCreateDir_created {d d' : Disk} {name : Text} {parent : FolderPath}
    (h : tryCreateDir d name parent = (d', .ok .created)) :
    d.has (name :: parent) = false ∧ d'.has (name :: parent) = true := by
  have hchild := Disk.has_createDirAll_child d name parent
  unfold tryCreateDir at h
  split at h
  · cases h
  · rename_i hmade
    rw [hmade] at hchild
    split at h
    · rename_i hdir
      cases h
      obtain ⟨hfree, hfolders⟩ := Disk.createDir_ok hdir
      exact ⟨hchild ▸ hfree, Disk.has_cons.mpr (hfolders ▸ List.mem_cons_self)⟩
    · cases h
    · cases h

namespace RefRun

variable {Hash : Type}

@[simp] theorem commitDescriptionEdit_disk (env : RefEnv Hash) (r : RefRun Hash) (id : TaskId)
    (newLine : OwnedLine) : (r.commitDescriptionEdit env id newLine).1.disk = r.disk := by
  unfold commitDescriptionEdit
  split
  · rfl
  · dsimp only
    split
    · rfl
    · split
      · rfl
      · split <;> rfl

@[simp] theorem rollbackRefTag_disk (env : RefEnv Hash) (r : RefRun Hash) (id : TaskId) :
    (r.rollbackRefTag env id).1.disk = r.disk := by
  unfold rollbackRefTag
  split
  · rfl
  · exact commitDescriptionEdit_disk env r id _

theorem rolledBack_disk (out : RefRun Hash × Except RefOpError Unit) (e : RefDirError) :
    (rolledBack out e).1.disk = out.1.disk := by
  rcases out with ⟨r, _ | _⟩ <;> rfl

variable {env : RefEnv Hash} {id : TaskId} {line : OwnedLine} {r r' : RefRun Hash} {c : Text}

/-- A turn of the claim loop takes no directory away. -/
theorem subset_claimTurn (env : RefEnv Hash) (id : TaskId) (line : OwnedLine) (r : RefRun Hash)
    (c : Text) : r.disk.folders ⊆ (claimTurn env id line r c).1.disk.folders := by
  unfold claimTurn
  split
  · exact fun _ h => h
  · have hsame := commitDescriptionEdit_disk env r id (apply line (refTagEdit (some c)))
    split
    · rename_i hcommit
      rw [hcommit] at hsame
      exact fun q hq => hsame ▸ hq
    · rename_i r₁ hcommit
      rw [hcommit] at hsame
      have hgrow := subset_tryCreateDir r₁.disk c env.ownDir
      rw [hsame] at hgrow
      split
      · rename_i hdir
        rw [hsame] at hdir
        rwa [hdir] at hgrow
      · rename_i disk hdir
        rw [hsame] at hdir
        rw [hdir] at hgrow
        have hback := rollbackRefTag_disk env { r₁ with disk := disk } id
        split <;> rename_i hroll <;> rw [hroll] at hback <;> exact fun q hq => hback ▸ hgrow hq
      · rename_i disk _ hdir
        rw [hsame] at hdir
        rw [hdir] at hgrow
        intro q hq
        rw [rolledBack_disk, rollbackRefTag_disk]
        exact hgrow hq

/-- A turn that ends with a directory took a name no other task's tag held and nothing had. -/
theorem claimTurn_ok {info : RefDirInfo}
    (h : claimTurn env id line r c = (r', some (.ok info))) :
    info = ⟨c, c :: env.ownDir⟩ ∧ slugTakenInDoc r.actor.state c id = false ∧
      r.disk.has info.dir = false ∧ r'.disk.has info.dir = true := by
  unfold claimTurn at h
  split at h
  · cases h
  · rename_i hdoc
    have hsame := commitDescriptionEdit_disk env r id (apply line (refTagEdit (some c)))
    split at h
    · cases h
    · rename_i r₁ hcommit
      rw [hcommit] at hsame
      split at h
      · rename_i disk hdir
        cases h
        obtain ⟨hfree, hmade⟩ := tryCreateDir_created hdir
        rw [hsame] at hfree
        exact ⟨rfl, by simpa using hdoc, hfree, hmade⟩
      · split at h <;> cases h
      · rcases hroll : rollbackRefTag env _ id with ⟨r₂, _ | _⟩
        · rw [hroll] at h
          cases h
        · rw [hroll] at h
          cases h

/-- A claim that ends with a directory took one of the names tried, which was free. -/
theorem claimNewRefDir_ok {base : Text} {info : RefDirInfo}
    (h : r.claimNewRefDir env id line base = (r', .ok info)) :
    info.slug ∈ candidates base ∧ info.dir = info.slug :: env.ownDir ∧
      r.disk.has info.dir = false ∧ r'.disk.has info.dir = true ∧
      ∃ s, slugTakenInDoc s.actor.state info.slug id = false ∧
        claimTurn env id line s info.slug = (r', some (.ok info)) := by
  have hrun := Attempts.attempts_ind (claimTurn env id line) (candidates base)
    (fun s => r.disk.folders ⊆ s.disk.folders)
    (fun s c _ hs _ q hq => subset_claimTurn env id line s c (hs hq)) (s := r) (fun _ hq => hq)
  unfold claimNewRefDir at h
  rcases hout : attempts (claimTurn env id line) r (candidates base) with ⟨r₁, _ | result⟩
  · rw [hout] at h
    cases h
  · rw [hout] at h hrun
    cases h
    obtain ⟨-, hnone⟩ | ⟨s, hs, c, hc, result, hturn, hend⟩ := hrun
    · cases hnone
    · cases hend
      obtain ⟨rfl, hdoc, hfree, hmade⟩ := claimTurn_ok hturn
      refine ⟨hc, rfl, ?_, hmade, s, hdoc, hturn⟩
      by_contra hhas
      rw [Bool.not_eq_false] at hhas
      exact absurd (Disk.has_of_subset hs hhas) (by simp [hfree])

end RefRun

/-! ## Moves -/

/-- The names a move looks at. -/
def moveTried (d : Disk) (src destParent : FolderPath) (baseSlug : Text) : List Text :=
  match d.createDirAll destParent with
  | (_, .error _) => []
  | (d, .ok ()) => Attempts.tried (moveTurn src destParent) d (candidates baseSlug)

/-- Every suffix that names already beside the destination lead to still fits after the slug. -/
def Headroom (d : Disk) (destParent : FolderPath) (slug : Text) : Prop :=
  ∀ n ≤ MAX_SLUG_COLLISIONS, (∀ i < n, d.has (suffixed slug i :: destParent) = true) →
    slug.length + (slugSuffix n).length ≤ SLUG_MAX_LEN

variable {d d' : Disk} {src destParent : FolderPath} {slug : Text}

/-- A name in the way is passed over, and changes nothing. -/
theorem moveTurn_of_has {c : Text} (h : d.has (c :: destParent) = true) :
    moveTurn src destParent d c = (d, none) := by
  rw [moveTurn, if_pos h]

/-- A rename that fails says so: no name of a folder that is there is tried. -/
theorem rename_ne_alreadyExists (d : Disk) (src : FolderPath) (name : Text) (parent : FolderPath) :
    (d.rename src name parent).2 ≠ .error .alreadyExists := by
  unfold Disk.rename
  split
  · exact fun h => by cases h
  · split
    · exact fun h => by cases h
    · split <;> exact fun h => by cases h

/-- A free name ends the loop. -/
theorem moveTurn_isSome {c : Text} (h : d.has (c :: destParent) = false) :
    ((moveTurn src destParent d c).2).isSome := by
  have hfail := rename_ne_alreadyExists d src c destParent
  rw [moveTurn, if_neg (by simp [h])]
  rcases hmove : d.rename src c destParent with ⟨d', e | _⟩
  · cases e with
    | alreadyExists => exact absurd (by rw [hmove]) hfail
    | notFound => rfl
    | other => rfl
  · rfl

/-- What a move looks at: the first name that is free, and those before it. -/
theorem lt_length_moveTried_iff (hok : (d.createDirAll destParent).2 = .ok ()) {n : Nat} :
    n < (moveTried d src destParent slug).length ↔ n ≤ MAX_SLUG_COLLISIONS ∧
      ∀ i < n, d.has (suffixed slug i :: destParent) = true := by
  rcases hall : d.createDirAll destParent with ⟨d₁, result⟩
  rw [hall] at hok
  cases hok
  have hsame : ∀ c, d₁.has (c :: destParent) = d.has (c :: destParent) := fun c => by
    rw [← Disk.has_createDirAll_child d c destParent, hall]
  have htried := Attempts.lt_length_tried_iff (moveTurn src destParent) (candidates slug)
    (fun c => d.has (c :: destParent)) (· = d₁)
    (fun s c hs hbusy => by
      subst hs
      rw [moveTurn_of_has ((hsame c).trans hbusy)]
      exact ⟨rfl, rfl⟩)
    (fun s c hs hfree => by
      subst hs
      exact moveTurn_isSome ((hsame c).trans hfree)) (s := d₁) (n := n) rfl
  rw [moveTried, hall]
  rw [htried, length_candidates, Nat.lt_succ_iff]
  refine and_congr_right fun hn => ⟨fun h i hi => ?_, fun h i hi c hc => ?_⟩
  · exact h i hi _ (candidates_getElem?.mpr ⟨by omega, rfl⟩)
  · obtain ⟨-, rfl⟩ := candidates_getElem?.mp hc
    exact h i hi

/-- A move whose folder cannot be made met no name in it. -/
theorem not_has_of_createDirAll_error {e : IoError}
    (h : (d.createDirAll destParent).2 = .error e) (name : Text) :
    d.has (name :: destParent) = false := by
  by_contra hhas
  rw [Bool.not_eq_false] at hhas
  rw [Disk.createDirAll_of_has (Disk.has_parent hhas)] at h
  cases h

/-- Every name a move of a valid slug looks at is valid exactly while there is room for the suffixes. -/
theorem moveTried_valid_iff (hslug : isValidSlug slug = true) :
    (∀ c ∈ moveTried d src destParent slug, isValidSlug c = true) ↔ Headroom d destParent slug := by
  obtain ⟨hne, htext, hlen⟩ := isValidSlug_iff.mp hslug
  have hvalid := isValidSlug_suffixed hne htext
  rcases hall : (d.createDirAll destParent).2 with e | _
  · have hnone := not_has_of_createDirAll_error hall
    have htried : moveTried d src destParent slug = [] := by
      rcases hmade : d.createDirAll destParent with ⟨d₁, _ | _⟩
      · rw [moveTried, hmade]
      · rw [hmade] at hall
        cases hall
    rw [htried]
    refine ⟨fun _ n _ hbefore => ?_, fun _ c hc => by cases hc⟩
    cases n with
    | zero => exact hlen
    | succ n => exact absurd (hbefore 0 n.succ_pos) (by simp [hnone])
  · have hlt : ∀ n, n < (moveTried d src destParent slug).length ↔ n ≤ MAX_SLUG_COLLISIONS ∧
        ∀ i < n, d.has (suffixed slug i :: destParent) = true := fun n => lt_length_moveTried_iff hall
    have hget : ∀ n, n < (moveTried d src destParent slug).length →
        (moveTried d src destParent slug)[n]? = some (suffixed slug n) := by
      intro n hn
      have hpre : moveTried d src destParent slug <+: candidates slug := by
        unfold moveTried
        split
        · exact List.nil_prefix
        · exact Attempts.tried_isPrefix _ _ _
      have hc := List.prefix_iff_getElem?.mp hpre n hn
      rw [List.getElem?_eq_getElem hn, (candidates_getElem?.mp hc).2]
    refine ⟨fun h n hn hbefore => ?_, fun h c hc => ?_⟩
    · have hin := (hlt n).mpr ⟨hn, hbefore⟩
      exact (hvalid n).mp (h _ (List.mem_of_getElem? (hget n hin)))
    · obtain ⟨n, hn, rfl⟩ := List.getElem_of_mem hc
      have hsame := hget n hn
      rw [List.getElem?_eq_getElem hn, Option.some.injEq] at hsame
      obtain ⟨hmax, hbefore⟩ := (hlt n).mp hn
      rw [hsame]
      exact (hvalid n).mpr (h n hmax hbefore)

/-- A move that ends with a name looked at it, and it was free. -/
theorem moveRefDir_ok {name : Text} (h : moveRefDir d src destParent slug = (d', .ok name)) :
    name ∈ candidates slug ∧ d.has (name :: destParent) = false := by
  have hchild := fun c => Disk.has_createDirAll_child d c destParent
  unfold moveRefDir at h
  rcases hall : d.createDirAll destParent with ⟨d₁, _ | _⟩
  · rw [hall] at h
    cases h
  · rw [hall] at h hchild
    have hrun := Attempts.attempts_ind (moveTurn src destParent) (candidates slug)
      (fun s => s.folders = d₁.folders)
      (fun s c _ hs hnone => by
        rw [← hs]
        cases hhas : s.has (c :: destParent) with
        | true => rw [moveTurn_of_has hhas]
        | false =>
          have hsome : ((moveTurn src destParent s c).2).isSome := moveTurn_isSome hhas
          rw [hnone] at hsome
          cases hsome)
      (s := d₁) rfl
    dsimp only at h
    rcases hout : attempts (moveTurn src destParent) d₁ (candidates slug) with ⟨d₂, _ | result⟩
    · rw [hout] at h
      cases h
    · rw [hout] at h hrun
      cases h
      obtain ⟨-, hnone⟩ | ⟨s, hs, c, hc, result, hturn, hend⟩ := hrun
      · cases hnone
      · cases hend
        have hsame : s.has (c :: destParent) = d.has (c :: destParent) := by
          rw [← hchild c]
          simp only [Disk.has, hs]
        unfold moveTurn at hturn
        split at hturn
        · cases hturn
        · rename_i hfree
          split at hturn
          · cases hturn
            exact ⟨hc, by rw [← hsame]; simpa using hfree⟩
          · cases hturn
          · cases hturn

/-! ## The names of reference directories -/

/-- What the names of reference directories keep: those of any claim, and those of a move of `src`, whose
slug is `slug`, into `destParent`. -/
structure NamesHold (d : Disk) (src destParent : FolderPath) (slug : Text) : Prop where
  generated : ∀ words id, isValidSlug (generateSlug words id) = true
  claimed : ∀ words id, ∀ c ∈ candidates (generateSlug words id), isValidSlug c = true
  moved : ∀ c ∈ moveTried d src destParent slug, isValidSlug c = true
  distinct : ∀ base, (candidates base).Nodup
  claim_free : ∀ (Hash : Type) [DecidableEq Hash] (env : RefEnv Hash) (r r' : RefRun Hash)
    (id : TaskId) (line : OwnedLine) (base : Text) (info : RefDirInfo),
    r.claimNewRefDir env id line base = (r', .ok info) →
      info.slug ∈ candidates base ∧ info.dir = info.slug :: env.ownDir ∧
        r.disk.has info.dir = false ∧ r'.disk.has info.dir = true
  move_free : ∀ d' name, moveRefDir d src destParent slug = (d', .ok name) →
    name ∈ candidates slug ∧ d.has (name :: destParent) = false

/-- The names are as they should be exactly while a moved slug has room for the suffixes that the names
beside its destination lead to. -/
theorem names_hold_iff (hslug : isValidSlug slug = true) :
    NamesHold d src destParent slug ↔ Headroom d destParent slug := by
  refine ⟨fun h => (moveTried_valid_iff hslug).mp h.moved, fun h => ?_⟩
  refine ⟨fun words id => ?_, isValidSlug_generated, (moveTried_valid_iff hslug).mpr h,
    candidates_nodup, fun Hash _ env r r' id line base info hok => ?_, fun d' name => moveRefDir_ok⟩
  · have hfirst : generateSlug words id = suffixed (generateSlug words id) 0 :=
      (List.append_nil _).symm
    rw [hfirst]
    exact isValidSlug_generated words id _
      (List.mem_of_getElem? (candidates_getElem?.mpr ⟨Nat.zero_le _, rfl⟩))
  · obtain ⟨hin, hdir, hfree, hmade, -⟩ := RefRun.claimNewRefDir_ok hok
    exact ⟨hin, hdir, hfree, hmade⟩

/-- A list whose reference folder holds a directory `plan`. -/
def plannedDisk : Disk where
  folders := [["tasks".toList], ["plan".toList, "tasks".toList]]
  closed := by
    intro name parent h
    rcases List.mem_cons.mp h with h | h
    · exact .inl (List.cons.inj h).2
    · rw [List.mem_singleton] at h
      rw [(List.cons.inj h).2]
      exact .inr List.mem_cons_self
  calls := 0
  refuses := fun _ => false

/-- The name is taken, the next one is not. -/
theorem names_hold_past_a_taken_name : plannedDisk.has ["plan".toList, "tasks".toList] = true ∧
    NamesHold plannedDisk ["a".toList] ["tasks".toList] "plan".toList := by
  refine ⟨by decide, (names_hold_iff (by decide)).2 fun n hn htaken => ?_⟩
  have hfree : plannedDisk.has (suffixed "plan".toList 1 :: ["tasks".toList]) = false := by decide
  match n with
  | 0 => decide
  | 1 => decide
  | n + 2 =>
    have htaken' := htaken 1 (by omega)
    rw [hfree] at htaken'
    cases htaken'

/-- A list whose reference folder holds a directory named by sixty-four letters `a`. -/
def crowdedDisk : Disk where
  folders := [["tasks".toList], [List.replicate SLUG_MAX_LEN 'a', "tasks".toList]]
  closed := by
    intro name parent h
    rcases List.mem_cons.mp h with h | h
    · exact .inl (List.cons.inj h).2
    · rw [List.mem_singleton] at h
      rw [(List.cons.inj h).2]
      exact .inr List.mem_cons_self
  calls := 0
  refuses := fun _ => false

/-- The next name tried for a slug of the greatest length is too long. -/
theorem names_outgrow :
    isValidSlug (List.replicate SLUG_MAX_LEN 'a') = true ∧
      ¬NamesHold crowdedDisk ["a".toList] ["tasks".toList] (List.replicate SLUG_MAX_LEN 'a') := by
  have hslug : isValidSlug (List.replicate SLUG_MAX_LEN 'a') = true := by decide
  refine ⟨hslug, fun h => ?_⟩
  have hroom := (moveTried_valid_iff hslug).mp h.moved 1 (by decide) fun i hi => by
    obtain rfl : i = 0 := by omega
    decide
  exact absurd hroom (by decide)

end Txtodo
