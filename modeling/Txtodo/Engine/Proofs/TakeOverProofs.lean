import Txtodo.Engine.Proofs.EvenBlanksProofs

/-!
# Proofs: what one more eraser takes

An eraser placed by the newest op may take a blank that an older eraser behind it hid; that one then looks
for another, and so on down the sequence. However long this goes on, one blank more is claimed at most.
-/

namespace Txtodo

namespace Slots

variable {mine : Hlc} {taken taken' : List Nat} {oldest : Option Hlc} {l l' : List (Slot × Nat)}
  {b i : Nat}

/-- A line an eraser looks at. -/
def Line (x : Slot) : Prop := x.isBlank = false ∧ x.hidden = false ∧ x.eraser = false

instance (x : Slot) : Decidable (Line x) := inferInstanceAs (Decidable (_ ∧ _ ∧ _))

/-- The slot labelled `b` is a blank, and every line in front of it was placed by a newer op. -/
structure Clear (l : List (Slot × Nat)) (b : Nat) : Prop where
  blank : ∀ v, (v, b) ∈ l → v.isBlank = true
  newer : ∀ near v far, l = near ++ (v, b) :: far → ∀ p ∈ near, Line p.1 → v.stamp < p.1.stamp

theorem Clear.tail {p : Slot × Nat} (h : Clear (p :: l) b) : Clear l b where
  blank v hv := h.blank v (List.mem_cons_of_mem _ hv)
  newer near v far hl q hq :=
    h.newer (p :: near) v far (by rw [hl, List.cons_append]) q (List.mem_cons_of_mem _ hq)

/-- The slot labelled `b` is past the first line, which is newer than it. -/
theorem Clear.lt_of_cons {x v : Slot} (h : Clear ((x, i) :: l) b) (hx : Line x) (hv : (v, b) ∈ l) :
    v.stamp < x.stamp := by
  obtain ⟨near, far, rfl⟩ := List.append_of_mem hv
  exact h.newer ((x, i) :: near) v far rfl (x, i) (List.mem_cons_self ..) hx

/-- Whether an eraser stamped `mine` passes over the slot `x` labelled `i`. -/
def Passed (mine : Hlc) (taken : List Nat) (x : Slot) (i : Nat) : Prop :=
  (x.eraser || (x.hidden && !x.isBlank) || decide (i ∈ taken) || decide (mine < x.stamp)) = true

theorem not_passed {x : Slot} (h : ¬Passed mine taken x i) :
    x.eraser = false ∧ (x.isBlank = false → x.hidden = false) ∧ i ∉ taken ∧ x.stamp ≤ mine := by
  obtain ⟨h1, h2, h3, h4⟩ : x.eraser = false ∧ (x.hidden = true → x.isBlank = true) ∧ i ∉ taken ∧
      x.stamp ≤ mine := by simpa [Passed, and_assoc] using h
  refine ⟨h1, fun hx => ?_, h3, h4⟩
  by_contra hh
  simp [h2 (by simpa using hh)] at hx

/-- A blank is older than every line passed, once a line stamped `at_` is too. -/
theorem all_oldest {at_ t : Hlc} :
    (some (oldest.elim at_ fun old => min old at_)).all (fun old => t < old) = true ↔
      oldest.all (fun old => t < old) = true ∧ t < at_ := by
  cases oldest <;> simp

/-- One more blank taken changes no other claim, when the lines in front of that blank are newer than it. -/
theorem claimFrom_cons (hl : (l.map (·.2)).Nodup) (hclear : Clear l b)
    (hold : ∀ v, (v, b) ∈ l → oldest.all (fun old => v.stamp < old) = true)
    (hne : claimFrom mine taken oldest l ≠ some b) :
    claimFrom mine (b :: taken) oldest l = claimFrom mine taken oldest l := by
  induction l generalizing oldest with
  | nil => rfl
  | cons p rest ih =>
    obtain ⟨x, i⟩ := p
    rw [List.map_cons, List.nodup_cons] at hl
    by_cases hib : i = b
    · -- past the slot labelled `b` the two scans agree
      subst hib
      have hagree : claimFrom mine (i :: taken) oldest rest = claimFrom mine taken oldest rest := by
        refine claimFrom_agree fun q hq => ?_
        have hqi : q.2 ≠ i := fun h => hl.1 (List.mem_map.2 ⟨q, hq, h⟩)
        simp [hqi]
      have hx : x.isBlank = true := hclear.blank x (List.mem_cons_self ..)
      rw [claimFrom, if_pos (by simp), hagree]
      rw [claimFrom] at hne ⊢
      split_ifs at hne ⊢ with hpass hadj
      · rfl
      · exact absurd rfl hne
      · exact absurd (hold x (List.mem_cons_self ..)) hadj
    · have hin : i ∈ b :: taken ↔ i ∈ taken := by simp [hib]
      have hrest : ∀ v, (v, b) ∈ rest → oldest.all (fun old => v.stamp < old) = true :=
        fun v hv => hold v (List.mem_cons_of_mem _ hv)
      rw [claimFrom] at hne ⊢
      rw [claimFrom]
      simp only [hin]
      split_ifs at hne ⊢ with hpass hblank hadj
      · exact ih hl.2 hclear.tail hrest hne
      · rfl
      · rfl
      · obtain ⟨heraser, hhidden, -, -⟩ := not_passed hpass
        have hx : x.isBlank = false := by simpa using hblank
        exact ih hl.2 hclear.tail
          (fun v hv => all_oldest.2
            ⟨hrest v hv, hclear.lt_of_cons ⟨hx, hhidden hx, heraser⟩ hv⟩) hne

/-- What an eraser claims is not newer than it, and older than the lines in between. -/
theorem claimFrom_clear (hl : (l.map (·.2)).Nodup)
    (htaken : ∀ p ∈ l, p.2 ∈ taken → p.1.isBlank = true) (h : claimFrom mine taken oldest l = some b) :
    Clear l b ∧ ∀ v, (v, b) ∈ l →
      v.stamp ≤ mine ∧ oldest.all (fun old => v.stamp < old) = true := by
  induction l generalizing oldest with
  | nil => cases h
  | cons p rest ih =>
    obtain ⟨x, i⟩ := p
    rw [List.map_cons, List.nodup_cons] at hl
    have htaken' : ∀ p ∈ rest, p.2 ∈ taken → p.1.isBlank = true :=
      fun p hp => htaken p (List.mem_cons_of_mem _ hp)
    -- the claim lies past the first slot
    have hpast : ∀ o, claimFrom mine taken o rest = some b → (∀ v, (v, b) ∈ rest → Line x →
        v.stamp < x.stamp) → (∀ v, (v, b) ∈ rest → o.all (fun old => v.stamp < old) = true →
        oldest.all (fun old => v.stamp < old) = true) → Clear ((x, i) :: rest) b ∧
        ∀ v, (v, b) ∈ (x, i) :: rest →
          v.stamp ≤ mine ∧ oldest.all (fun old => v.stamp < old) = true := by
      intro o ho hline hall
      obtain ⟨-, y, hy, -⟩ := claimFrom_spec ho
      have hib : i ≠ b := fun hib => hl.1 (List.mem_map.2 ⟨(y, b), hy, hib.symm⟩)
      obtain ⟨hclear, hspec⟩ := ih hl.2 htaken' ho
      have hmem : ∀ v, (v, b) ∈ (x, i) :: rest → (v, b) ∈ rest := by
        intro v hv
        rcases List.mem_cons.1 hv with heq | hv
        · exact absurd (Prod.mk.inj heq).2.symm hib
        · exact hv
      refine ⟨⟨fun v hv => hclear.blank v (hmem v hv), ?_⟩, fun v hv =>
        ⟨(hspec v (hmem v hv)).1, hall v (hmem v hv) (hspec v (hmem v hv)).2⟩⟩
      intro near v far hsplit q hq hqline
      cases near with
      | nil => exact absurd (Prod.mk.inj (List.cons.inj hsplit).1).2 hib
      | cons p near =>
        obtain ⟨rfl, hrest⟩ := List.cons.inj hsplit
        rcases List.mem_cons.1 hq with rfl | hq
        · exact hline v (by rw [hrest]; simp) hqline
        · exact hclear.newer near v far hrest q hq hqline
    rw [claimFrom] at h
    split_ifs at h with hpass hblank hadj
    · refine hpast oldest h (fun v hv hx => ?_) fun v _ ho => ho
      have hle : v.stamp ≤ mine := ((ih hl.2 htaken' h).2 v hv).1
      obtain ⟨hx1, hx2, hx3⟩ := hx
      have hfree : i ∉ taken := fun hi => by
        have := htaken (x, i) (List.mem_cons_self ..) hi
        simp [hx1] at this
      have hlt : mine < x.stamp := by simpa [hx2, hx3, hfree] using hpass
      exact hle.trans_lt hlt
    · obtain rfl := Option.some.inj h
      have hmem : ∀ v, (v, i) ∈ (x, i) :: rest → v = x := by
        intro v hv
        rcases List.mem_cons.1 hv with heq | hv
        · exact (Prod.mk.inj heq).1
        · exact absurd (List.mem_map.2 ⟨(v, i), hv, rfl⟩) hl.1
      refine ⟨⟨fun v hv => hmem v hv ▸ hblank, ?_⟩, fun v hv => ?_⟩
      · intro near v far hsplit q hq _
        cases near with
        | nil => cases hq
        | cons p near =>
          have hrest : rest = near ++ (v, i) :: far := (List.cons.inj hsplit).2
          exact absurd (List.mem_map.2 ⟨(v, i), by rw [hrest]; simp, rfl⟩) hl.1
      · obtain rfl := hmem v hv
        exact ⟨(not_passed hpass).2.2.2, hadj⟩
    · exact hpast _ h (fun v hv _ => (all_oldest.1 ((ih hl.2 htaken' h).2 v hv).2).2)
        fun v _ hall => (all_oldest.1 hall).1

/-! ## The claims once one more blank is taken -/

/-- The blanks taken once every eraser of `l` claimed, `taken` being claimed already. -/
def everTaken (taken : List Nat) (l : List (Slot × Nat)) : List Nat :=
  (claimsOn taken l).map (·.2) ++ taken

/-- `after` holds what `before` does and at most one blank more, one of `l`. -/
def OneMore (l : List (Slot × Nat)) (before after : List Nat) : Prop :=
  (∀ i, i ∈ after ↔ i ∈ before) ∨
    ∃ b ∉ before, (∃ v, (v, b) ∈ l ∧ Claimable v) ∧ ∀ i, i ∈ after ↔ i = b ∨ i ∈ before

theorem OneMore.congr {before before' after after' : List Nat} (h : OneMore l before after)
    (hbefore : ∀ i, i ∈ before' ↔ i ∈ before) (hafter : ∀ i, i ∈ after' ↔ i ∈ after) :
    OneMore l before' after' := by
  rcases h with h | ⟨b, hb, hv, h⟩
  · exact .inl fun i => by rw [hafter, hbefore, h]
  · exact .inr ⟨b, by rwa [hbefore], hv, fun i => by rw [hafter, hbefore, h]⟩

/-- One more blank taken lets the erasers of `l` take at most one blank more. -/
theorem oneMore_everTaken (hl : (l.map (·.2)).Nodup)
    (htaken : ∀ p ∈ l, p.2 ∈ taken → p.1.isBlank = true) (hb : b ∉ taken) (hclear : Clear l b)
    (hv : ∃ v, (v, b) ∈ l' ∧ Claimable v) (hsub : l ⊆ l') :
    OneMore l' (everTaken taken l) (everTaken (b :: taken) l) := by
  induction l generalizing taken b with
  | nil =>
    refine .inr ⟨b, hb, hv, fun i => ?_⟩
    simp [everTaken, claimsOn]
  | cons p rest ih =>
    obtain ⟨x, e⟩ := p
    rw [List.map_cons, List.nodup_cons] at hl
    have hrest : ∀ p ∈ rest, p.2 ∈ taken → p.1.isBlank = true :=
      fun p hp => htaken p (List.mem_cons_of_mem _ hp)
    have hsub' : rest ⊆ l' := fun p hp => hsub (List.mem_cons_of_mem _ hp)
    cases hx : x.eraser with
    | false =>
      simp only [everTaken, claimsOn_other hx]
      exact ih hl.2 hrest hb hclear.tail hv hsub'
    | true =>
      by_cases hc : claimFrom x.stamp taken none rest = some b
      · -- the eraser loses `b` and may take another blank in its place
        have hcons : ∀ p ∈ rest, p.2 ∈ b :: taken → p.1.isBlank = true := by
          intro p hp hmem
          rcases List.mem_cons.1 hmem with heq | hmem
          · exact hclear.blank p.1 (List.mem_cons_of_mem _ (heq ▸ hp))
          · exact hrest p hp hmem
        cases hc' : claimFrom x.stamp (b :: taken) none rest with
        | none =>
          refine .inl fun i => ?_
          simp only [everTaken, claimsOn_eraser hx hc, claimsOn_idle hx hc', List.map_cons,
            List.mem_append, List.mem_cons]
          tauto
        | some c =>
          obtain ⟨hfree, y, hy, hclaimable⟩ := claimFrom_spec hc'
          have hmore := ih hl.2 hcons hfree (claimFrom_clear hl.2 hcons hc').1
            ⟨y, hsub' hy, hclaimable⟩ hsub'
          refine hmore.congr (fun i => ?_) fun i => ?_
          · simp only [everTaken, claimsOn_eraser hx hc, List.map_cons, List.mem_append,
              List.mem_cons]
            tauto
          · simp only [everTaken, claimsOn_eraser hx hc', List.map_cons, List.mem_append,
              List.mem_cons]
            tauto
      · have hsame : claimFrom x.stamp (b :: taken) none rest = claimFrom x.stamp taken none rest :=
          claimFrom_cons hl.2 hclear.tail (fun _ _ => rfl) hc
        cases hc' : claimFrom x.stamp taken none rest with
        | none =>
          simp only [everTaken, claimsOn_idle hx hc', claimsOn_idle hx (hsame.trans hc')]
          exact ih hl.2 hrest hb hclear.tail hv hsub'
        | some c =>
          obtain ⟨hfree, y, hy, hclaimable⟩ := claimFrom_spec hc'
          have hcb : b ∉ c :: taken := by
            rw [List.mem_cons, not_or]
            exact ⟨fun h => hc (h ▸ hc'), hb⟩
          have hcons : ∀ p ∈ rest, p.2 ∈ c :: taken → p.1.isBlank = true := by
            rintro ⟨z, j⟩ hp hmem
            rcases List.mem_cons.1 hmem with rfl | hmem
            · have hzy : z = y := congrArg Prod.fst (List.inj_on_of_nodup_map hl.2 hp hy rfl)
              exact hzy ▸ hclaimable.1
            · exact hrest _ hp hmem
          have hswap : claimsOn (c :: b :: taken) rest = claimsOn (b :: c :: taken) rest :=
            claimsOn_agree fun p _ => by simp only [List.mem_cons]; tauto
          refine (ih hl.2 hcons hcb hclear.tail hv hsub').congr (fun i => ?_) fun i => ?_
          · simp only [everTaken, claimsOn_eraser hx hc', List.map_cons, List.mem_append,
              List.mem_cons]
            tauto
          · simp only [everTaken, claimsOn_eraser hx (hsame.trans hc'), hswap, List.map_cons,
              List.mem_append, List.mem_cons]
            tauto

/-- A blank that no eraser of `l` claims changes no claim of theirs when it is taken. -/
theorem claimsOn_cons_of_free (hl : (l.map (·.2)).Nodup) (hclear : Clear l b)
    (hfree : b ∉ (claimsOn taken l).map (·.2)) : claimsOn (b :: taken) l = claimsOn taken l := by
  induction l generalizing taken with
  | nil => rfl
  | cons p rest ih =>
    obtain ⟨x, e⟩ := p
    rw [List.map_cons, List.nodup_cons] at hl
    cases hx : x.eraser with
    | false =>
      rw [claimsOn_other hx] at hfree ⊢
      rw [claimsOn_other hx, ih hl.2 hclear.tail hfree]
    | true =>
      have hne : claimFrom x.stamp taken none rest ≠ some b := by
        intro hc
        rw [claimsOn_eraser hx hc] at hfree
        exact hfree (List.mem_cons_self ..)
      have hsame := claimFrom_cons hl.2 hclear.tail (fun _ _ => rfl) hne
      cases hc : claimFrom x.stamp taken none rest with
      | none =>
        rw [claimsOn_idle hx hc] at hfree ⊢
        rw [claimsOn_idle hx (hsame.trans hc), ih hl.2 hclear.tail hfree]
      | some c =>
        rw [claimsOn_eraser hx hc] at hfree ⊢
        have hswap : claimsOn (c :: b :: taken) rest = claimsOn (b :: c :: taken) rest :=
          claimsOn_agree fun p _ => by simp only [List.mem_cons]; tauto
        rw [claimsOn_eraser hx (hsame.trans hc), hswap, ih hl.2 hclear.tail fun h =>
          hfree (List.mem_cons_of_mem _ h)]

/-! ## A new eraser -/

section NewEraser

variable {fr bk : List (Slot × Nat)} {x : Slot} {n : Nat}

/-- Erasers look past an eraser. -/
theorem claimFrom_past (hx : x.eraser = true) :
    claimFrom mine taken oldest (fr ++ (x, n) :: bk) = claimFrom mine taken oldest (fr ++ bk) := by
  induction fr generalizing oldest with
  | nil => rw [List.nil_append, List.nil_append, claimFrom, if_pos (by simp [hx])]
  | cons p fr ih =>
    obtain ⟨y, i⟩ := p
    simp only [List.cons_append, claimFrom, ih]

/-- The erasers in front of a new one claim what they did. -/
theorem claimsOn_past (hx : x.eraser = true) (taken : List Nat) (fr bk : List (Slot × Nat)) :
    ∃ (first : List (Nat × Nat)) (taken' : List Nat),
      claimsOn taken (fr ++ bk) = first ++ claimsOn taken' bk ∧
      claimsOn taken (fr ++ (x, n) :: bk) = first ++ claimsOn taken' ((x, n) :: bk) ∧
      (∀ i, i ∈ taken' ↔ i ∈ first.map (·.2) ∨ i ∈ taken) ∧ ∀ c ∈ first, c.1 ∈ fr.map (·.2) := by
  induction fr generalizing taken with
  | nil => exact ⟨[], taken, rfl, rfl, fun i => by simp, by simp⟩
  | cons p fr ih =>
    obtain ⟨y, e⟩ := p
    have hlabels : ∀ {first : List (Nat × Nat)}, (∀ c ∈ first, c.1 ∈ fr.map (·.2)) →
        ∀ c ∈ first, c.1 ∈ ((y, e) :: fr).map (·.2) :=
      fun h c hc => List.mem_cons_of_mem _ (h c hc)
    rw [List.cons_append, List.cons_append]
    cases hy : y.eraser with
    | false =>
      obtain ⟨first, taken', h1, h2, h3, h4⟩ := ih taken
      rw [claimsOn_other hy, claimsOn_other hy]
      exact ⟨first, taken', h1, h2, h3, hlabels h4⟩
    | true =>
      cases hc : claimFrom y.stamp taken none (fr ++ bk) with
      | none =>
        obtain ⟨first, taken', h1, h2, h3, h4⟩ := ih taken
        rw [claimsOn_idle hy hc, claimsOn_idle hy ((claimFrom_past hx).trans hc)]
        exact ⟨first, taken', h1, h2, h3, hlabels h4⟩
      | some b =>
        obtain ⟨first, taken', h1, h2, h3, h4⟩ := ih (b :: taken)
        rw [claimsOn_eraser hy hc, claimsOn_eraser hy ((claimFrom_past hx).trans hc)]
        refine ⟨(e, b) :: first, taken', by rw [h1, List.cons_append],
          by rw [h2, List.cons_append], fun i => ?_, fun c hc => ?_⟩
        · simp only [h3, List.map_cons, List.mem_cons]
          tauto
        · rcases List.mem_cons.1 hc with rfl | hc
          · exact List.mem_cons_self ..
          · exact hlabels h4 c hc

/-- What the erasers in front take is a blank. -/
theorem isBlank_of_claimsOn {first rest : List (Nat × Nat)}
    (hl : ((fr ++ bk).map (·.2)).Nodup) (hclaims : claimsOn [] (fr ++ bk) = first ++ rest)
    {p : Slot × Nat} (hp : p ∈ bk) (hmem : p.2 ∈ first.map (·.2)) : p.1.isBlank = true := by
  obtain ⟨c, hc, hcp⟩ := List.mem_map.1 hmem
  have hc' : (c.1, c.2) ∈ claimsOn [] (fr ++ bk) := by
    rw [hclaims]
    exact List.mem_append_left _ hc
  obtain ⟨-, -, v, hv, hclaimable⟩ := mem_claimsOn hc'
  obtain rfl : (v, c.2) = p :=
    List.inj_on_of_nodup_map hl hv (List.mem_append_right _ hp) hcp
  exact hclaimable.1

/-- One more eraser claims at most one blank more, behind it. -/
theorem oneMore_insert (hl : ((fr ++ bk).map (·.2)).Nodup) (hx : x.eraser = true) :
    OneMore bk (everTaken [] (fr ++ bk)) (everTaken [] (fr ++ (x, n) :: bk)) := by
  obtain ⟨first, taken, h1, h2, h3, -⟩ := claimsOn_past (n := n) hx [] fr bk
  have hnodup : (bk.map (·.2)).Nodup := by
    rw [List.map_append] at hl
    exact hl.of_append_right
  have htaken : ∀ p ∈ bk, p.2 ∈ taken → p.1.isBlank = true := by
    intro p hp hmem
    exact isBlank_of_claimsOn hl h1 hp (by simpa [h3] using hmem)
  have hfree : ∀ i, i ∈ everTaken [] (fr ++ bk) ↔ i ∈ everTaken taken bk := by
    intro i
    simp only [everTaken, h1, List.map_append, List.mem_append, List.append_nil, h3,
      List.not_mem_nil, or_false]
    tauto
  cases hc : claimFrom x.stamp taken none bk with
  | none =>
    refine .inl fun i => ?_
    rw [everTaken, everTaken, h1, h2, claimsOn_idle hx hc]
  | some b =>
    obtain ⟨hb, v, hv, hclaimable⟩ := claimFrom_spec hc
    refine (oneMore_everTaken hnodup htaken hb (claimFrom_clear hnodup htaken hc).1
      ⟨v, hv, hclaimable⟩ (List.Subset.refl _)).congr hfree fun i => ?_
    simp only [everTaken, h2, claimsOn_eraser hx hc, List.map_append, List.map_cons,
      List.mem_append, List.mem_cons, List.append_nil, h3, List.not_mem_nil, or_false]
    tauto

/-- What an eraser claims when every blank in front of the blank `v` is taken. -/
theorem claimFrom_foremost (oldest : Option Hlc) {mid : List (Slot × Nat)} (far : List (Slot × Nat)) {v : Slot}
    (hv : Claimable v)
    (hi : i ∉ taken) (hstamp : v.stamp ≤ mine)
    (hmid : ∀ p ∈ mid, p.1.stamp ≤ mine ∧ (Claimable p.1 → p.2 ∈ taken))
    (hfree : ∀ p ∈ mid, p.2 ∈ taken → p.1.isBlank = true) :
    claimFrom mine taken oldest (mid ++ (v, i) :: far) =
      if oldest.all (fun old => v.stamp < old) = true ∧ ∀ p ∈ mid, Line p.1 → v.stamp < p.1.stamp
      then some i else none := by
  induction mid generalizing oldest with
  | nil =>
    have hpass : ¬Passed mine taken v i := by simp [Passed, hv.1, hv.2, hi, hstamp]
    rw [List.nil_append, claimFrom]
    refine (if_neg hpass).trans ((if_pos hv.1).trans ?_)
    simp
  | cons p mid ih =>
    obtain ⟨y, j⟩ := p
    obtain ⟨hle, htaken⟩ := hmid (y, j) (List.mem_cons_self ..)
    have ih' := fun o => @ih o (fun q hq => hmid q (List.mem_cons_of_mem _ hq))
      fun q hq => hfree q (List.mem_cons_of_mem _ hq)
    rw [List.cons_append, claimFrom]
    by_cases hline : Line y
    · obtain ⟨hblank, hhidden, heraser⟩ := hline
      have hj : j ∉ taken := fun hmem => by
        have := hfree (y, j) (List.mem_cons_self ..) hmem
        simp [hblank] at this
      have hpass : ¬Passed mine taken y j := by simp [Passed, heraser, hhidden, hj, hle]
      refine (if_neg hpass).trans ((if_neg (by simp [hblank])).trans ?_)
      rw [ih']
      refine if_congr ?_ rfl rfl
      rw [all_oldest, and_assoc, List.forall_mem_cons]
      exact and_congr_right fun _ => and_congr_left fun _ =>
        ⟨fun h _ => h, fun h => h ⟨hblank, hhidden, heraser⟩⟩
    · have hpass : Passed mine taken y j := by
        by_contra hpass
        obtain ⟨heraser, hhidden, hj, -⟩ := not_passed hpass
        cases hblank : y.isBlank with
        | true => exact hj (htaken ⟨hblank, heraser⟩)
        | false => exact hline ⟨hblank, hhidden hblank, heraser⟩
      refine (if_pos hpass).trans ?_
      rw [ih']
      refine if_congr ?_ rfl rfl
      rw [List.forall_mem_cons, and_iff_right fun h => absurd h hline]

end NewEraser

/-! ## What is shown -/

/-- The lines shown. -/
def shownEntries (xs : List Slot) : List Entry := (xs.filter fun x => !x.hidden).map Slot.entry

theorem shownEntries_append (xs ys : List Slot) :
    shownEntries (xs ++ ys) = shownEntries xs ++ shownEntries ys := by
  rw [shownEntries, List.filter_append, List.map_append]
  rfl

theorem shownEntries_hidden {x : Slot} (h : x.hidden = true) (xs : List Slot) :
    shownEntries (x :: xs) = shownEntries xs := by
  rw [shownEntries, List.filter_cons, if_neg (by simp [h])]
  rfl

/-- The sequence with each blank hidden exactly when an eraser claims it. -/
def inStep (xs : List Slot) : List Slot := xs.zipIdx.map (settleBlank ((claims xs).map (·.2)))

theorem settleErasers_inStep {xs : List Slot} (h : xs.any Slot.eraser = true) :
    settleErasers xs = inStep xs := if_pos h

theorem claims_inStep (xs : List Slot) : claims (inStep xs) = claims xs := by
  rw [claims_eq_claimsOn, inStep, zipIdx_map_zipIdx,
    claimsOn_congr (settleBlank ((claims xs).map (·.2))) fun q _ => settleBlank_spec _ q,
    ← claims_eq_claimsOn]

/-- Settling a sequence whose slots are numbered in another way. -/
theorem inStep_label (hl : (l.map (·.2)).Nodup) :
    inStep (l.map (·.1)) = l.map (settleBlank (everTaken [] l)) := by
  obtain ⟨g, hg, hinj⟩ := exists_numbering hl
  have hlabel : ∀ p ∈ (l.map (·.1)).zipIdx, p.2 < l.length := by
    rintro ⟨x, i⟩ hp
    simpa using (List.mem_zipIdx' hp).1
  have hclaims : claimsOn [] l = (claimsOn [] (l.map (·.1)).zipIdx).map (Prod.map g g) := by
    conv_lhs => rw [← hg]
    exact claimsOn_relabel g (· < l.length) hlabel (fun j hj => absurd hj List.not_mem_nil) hinj
  have hslots : l.map (settleBlank (everTaken [] l)) =
      (l.map (·.1)).zipIdx.map (settleBlank (everTaken [] l) ∘ Prod.map id g) := by
    rw [← List.map_map, hg]
  rw [hslots, inStep, claims_eq_claimsOn, everTaken, List.append_nil]
  refine List.map_congr_left fun p hp => ?_
  obtain ⟨x, i⟩ := p
  by_cases hx : Claimable x
  · have hmem : i ∈ (claimsOn [] (l.map (·.1)).zipIdx).map (·.2) ↔
        g i ∈ (claimsOn [] l).map (·.2) := by
      rw [hclaims, List.map_map]
      constructor
      · intro hi
        obtain ⟨c, hc, rfl⟩ := List.mem_map.1 hi
        exact List.mem_map.2 ⟨c, hc, rfl⟩
      · intro hi
        obtain ⟨c, hc, hci⟩ := List.mem_map.1 hi
        obtain ⟨-, -, y, hy, -⟩ := mem_claimsOn hc
        exact List.mem_map.2 ⟨c, hc, hinj c.2 i (hlabel _ hy) (hlabel _ hp) hci⟩
    rw [Function.comp_apply, Prod.map_apply, settleBlank_claimable hx, settleBlank_claimable hx]
    exact congrArg (Slot.withHidden · x) (decide_eq_decide.2 hmem)
  · have hneg : ∀ (claimed : List Nat) (j : Nat), settleBlank claimed (x, j) = x :=
      fun _ _ => if_neg (by simpa [Claimable] using hx)
    rw [Function.comp_apply, Prod.map_apply, hneg, id_eq, hneg]

/-- Blanks are hidden and shown by what is claimed alone. -/
theorem settleBlank_congr {before after : List Nat} {p : Slot × Nat}
    (h : Claimable p.1 → (p.2 ∈ after ↔ p.2 ∈ before)) :
    settleBlank after p = settleBlank before p := by
  by_cases hx : Claimable p.1
  · rw [settleBlank_claimable hx, settleBlank_claimable hx, decide_eq_decide.2 (h hx)]
  · have hneg : ∀ claimed : List Nat, settleBlank claimed p = p.1 :=
      fun _ => if_neg (by simpa [Claimable] using hx)
    rw [hneg, hneg]

/-- What one more blank claimed hides. -/
theorem settle_one_more {before after : List Nat} {near far : List (Slot × Nat)} {v : Slot}
    (hl : ((near ++ (v, b) :: far).map (·.2)).Nodup) (hv : Claimable v) (hb : b ∉ before)
    (hmore : ∀ i, i ∈ after ↔ i = b ∨ i ∈ before) :
    (near ++ (v, b) :: far).map (settleBlank before) =
        near.map (settleBlank before) ++ v.withHidden false :: far.map (settleBlank before) ∧
      (near ++ (v, b) :: far).map (settleBlank after) =
        near.map (settleBlank before) ++ v.withHidden true :: far.map (settleBlank before) := by
  have hne : ∀ q ∈ near ++ far, q.2 ≠ b := by
    intro q hq heq
    rw [List.map_append, List.map_cons, List.nodup_middle, List.nodup_cons, ← List.map_append] at hl
    exact hl.1 (List.mem_map.2 ⟨q, hq, heq⟩)
  have hsame : ∀ part, part ⊆ near ++ far →
      part.map (settleBlank after) = part.map (settleBlank before) := by
    intro part hpart
    refine List.map_congr_left fun q hq => settleBlank_congr fun _ => ?_
    rw [hmore, or_iff_right (hne q (hpart hq))]
  constructor
  · rw [List.map_append, List.map_cons, settleBlank_claimable hv,
      decide_eq_false (by simpa using hb)]
  · rw [List.map_append, List.map_cons, settleBlank_claimable hv, decide_eq_true (by simp [hmore]),
      hsame near (List.subset_append_left ..), hsame far (List.subset_append_right ..)]

/-- The lines shown once one more blank of the part `bk` is claimed. -/
theorem shownEntries_one_more {before after : List Nat} {fr near far : List (Slot × Nat)} {v : Slot}
    (hl : ((fr ++ (near ++ (v, b) :: far)).map (·.2)).Nodup) (hv : Claimable v) (hb : b ∉ before)
    (hmore : ∀ i, i ∈ after ↔ i = b ∨ i ∈ before) :
    shownEntries (fr.map (settleBlank after)) ++
        shownEntries ((near ++ (v, b) :: far).map (settleBlank after)) =
      shownEntries (fr.map (settleBlank before)) ++
        (shownEntries (near.map (settleBlank before)) ++
          shownEntries (far.map (settleBlank before))) := by
  rw [← List.append_assoc] at hl
  obtain ⟨-, hafter⟩ := settle_one_more hl hv hb hmore
  rw [← shownEntries_append, ← List.map_append, ← List.append_assoc, hafter, shownEntries_append,
    shownEntries_hidden rfl, List.map_append, shownEntries_append, List.append_assoc]

/-! ## The lines a new eraser leaves -/

/-- `lines` are the lines of `xs` less at most one blank past slot `at_`. When no eraser past `at_` claims
a blank in front of the first shown blank past `at_`, this is the blank that goes, exactly if every line
in front of it there was placed by a newer op. -/
structure ErasesAt (xs : List Slot) (at_ : Nat) (lines : List Entry) : Prop where
  at_most_one : lines = shownEntries xs ∨
    ∃ near v far, xs.drop at_ = near ++ v :: far ∧ v.isBlank = true ∧ v.hidden = false ∧
      lines = shownEntries (xs.take at_) ++ (shownEntries near ++ shownEntries far)
  foremost : ∀ near v far, xs.drop at_ = near ++ v :: far → v.isBlank = true → v.hidden = false →
    (∀ x ∈ near, x.isBlank = true → x.hidden = true) →
    (∀ c ∈ claims xs, at_ ≤ c.1 → at_ + near.length < c.2) →
    lines = shownEntries (xs.take at_) ++ (shownEntries near ++
      if ∀ x ∈ near, x.hidden = false → v.stamp < x.stamp then shownEntries far
      else shownEntries (v :: far))

section ErasesAt

variable {front back : List Slot} {x : Slot}

theorem nodup_labels (front back : List Slot) (x : Slot) :
    ((front.zipIdx ++ back.zipIdx front.length).map (·.2)).Nodup ∧
      ((front.zipIdx ++ (x, front.length + back.length) ::
        back.zipIdx front.length).map (·.2)).Nodup := by
  have hsplit : front.zipIdx ++ back.zipIdx front.length = (front ++ back).zipIdx := by
    rw [List.zipIdx_append, Nat.zero_add]
  have hnodup : ((front ++ back).zipIdx.map (·.2)).Nodup := by
    rw [List.zipIdx_map_snd]
    exact List.nodup_range' ..
  rw [hsplit]
  refine ⟨hnodup, ?_⟩
  rw [List.map_append, List.map_cons, List.nodup_middle, List.nodup_cons, ← List.map_append, hsplit]
  refine ⟨fun hmem => ?_, hnodup⟩
  obtain ⟨p, hp, hpn⟩ := List.mem_map.1 hmem
  have hlt := (zipIdx_label hp).2
  simp only [List.length_append] at hlt hpn
  omega

/-- What an eraser put between two parts of a sequence leaves shown. -/
theorem shownEntries_insert (heraser : x.eraser = true) (hhidden : x.hidden = true)
    {fr bk : List (Slot × Nat)} {n : Nat} (hl : ((fr ++ (x, n) :: bk).map (·.2)).Nodup) :
    shownEntries (inStep (fr.map (·.1) ++ x :: bk.map (·.1))) =
      shownEntries (fr.map (settleBlank (everTaken [] (fr ++ (x, n) :: bk)))) ++
        shownEntries (bk.map (settleBlank (everTaken [] (fr ++ (x, n) :: bk)))) := by
  have hx : ∀ claimed, settleBlank claimed (x, n) = x := fun _ => if_neg (by simp [heraser])
  have hslots := inStep_label hl
  rw [List.map_append, List.map_cons] at hslots
  rw [hslots, List.map_append, List.map_cons, shownEntries_append, hx, shownEntries_hidden hhidden]

section Labels

variable {fr bk : List (Slot × Nat)} {n : Nat}

theorem everTaken_append_congr {before after : List Nat} (part : List (Slot × Nat))
    (h : ∀ i, i ∈ after ↔ i ∈ before) :
    part.map (settleBlank after) = part.map (settleBlank before) :=
  List.map_congr_left fun p _ => settleBlank_congr fun _ => h p.2

/-- A new eraser takes at most one shown blank, behind it. -/
theorem insert_at_most_one (heraser : x.eraser = true) (hhidden : x.hidden = true)
    (hl : ((fr ++ bk).map (·.2)).Nodup) (hl' : ((fr ++ (x, n) :: bk).map (·.2)).Nodup) :
    let taken := everTaken [] (fr ++ bk)
    let lines := shownEntries (inStep (fr.map (·.1) ++ x :: bk.map (·.1)))
    lines = shownEntries ((fr ++ bk).map (settleBlank taken)) ∨
      ∃ near v far, bk.map (settleBlank taken) = near ++ v :: far ∧ v.isBlank = true ∧
        v.hidden = false ∧ lines = shownEntries (fr.map (settleBlank taken)) ++
          (shownEntries near ++ shownEntries far) := by
  intro taken lines
  have hlines := shownEntries_insert heraser hhidden hl'
  rcases oneMore_insert (n := n) hl heraser with hsame | ⟨b, hb, ⟨v, hv, hclaimable⟩, hmore⟩
  · refine .inl (hlines.trans ?_)
    rw [← shownEntries_append, ← List.map_append]
    exact congrArg shownEntries (everTaken_append_congr _ hsame)
  · obtain ⟨near, far, rfl⟩ := List.append_of_mem hv
    have hnodup : ((near ++ (v, b) :: far).map (·.2)).Nodup := by
      rw [List.map_append] at hl
      exact hl.of_append_right
    exact .inr ⟨_, _, _, (settle_one_more hnodup hclaimable hb hmore).1, hclaimable.1, rfl,
      hlines.trans (shownEntries_one_more hl hclaimable hb hmore)⟩

/-- A new eraser of the newest op takes the first shown blank behind it, when older erasers in front of it
claim the blanks in between and the lines in between are newer than that blank. -/
theorem insert_foremost (heraser : x.eraser = true) (hhidden : x.hidden = true)
    {mid far : List (Slot × Nat)} {v : Slot}
    (hl : ((fr ++ (mid ++ (v, b) :: far)).map (·.2)).Nodup)
    (hl' : ((fr ++ (x, n) :: (mid ++ (v, b) :: far)).map (·.2)).Nodup) (hv : Claimable v)
    (hb : b ∉ everTaken [] (fr ++ (mid ++ (v, b) :: far)))
    (hnew : ∀ p ∈ mid ++ (v, b) :: far, p.1.stamp ≤ x.stamp)
    (hmid : ∀ p ∈ mid, Claimable p.1 →
      ∃ e ∈ fr.map (·.2), (e, p.2) ∈ claimsOn [] (fr ++ (mid ++ (v, b) :: far))) :
    let taken := everTaken [] (fr ++ (mid ++ (v, b) :: far))
    shownEntries (inStep (fr.map (·.1) ++ x :: (mid ++ (v, b) :: far).map (·.1))) =
      shownEntries (fr.map (settleBlank taken)) ++ (shownEntries (mid.map (settleBlank taken)) ++
        if ∀ p ∈ mid, Line p.1 → v.stamp < p.1.stamp then shownEntries (far.map (settleBlank taken))
        else shownEntries (v.withHidden false :: far.map (settleBlank taken))) := by
  intro taken
  have hlines := shownEntries_insert heraser hhidden hl'
  obtain ⟨first, held, h1, h2, h3, -⟩ :=
    claimsOn_past (n := n) heraser [] fr (mid ++ (v, b) :: far)
  have hheld : ∀ i, i ∈ held ↔ i ∈ first.map (·.2) := by simpa using h3
  have hparts := List.nodup_append.1 (List.map_append ▸ hl)
  have htaken : ∀ i, i ∈ taken ↔ i ∈ held ∨
      i ∈ (claimsOn held (mid ++ (v, b) :: far)).map (·.2) := by
    intro i
    simp only [taken, everTaken, h1, List.map_append, List.append_nil, List.mem_append, hheld]
  have hbheld : b ∉ held := fun h => hb ((htaken b).2 (.inl h))
  have hbfree : b ∉ (claimsOn held (mid ++ (v, b) :: far)).map (·.2) :=
    fun h => hb ((htaken b).2 (.inr h))
  have hblank : ∀ p ∈ mid ++ (v, b) :: far, p.2 ∈ held → p.1.isBlank = true :=
    fun p hp hmem => isBlank_of_claimsOn hl h1 hp ((hheld p.2).1 hmem)
  have hmid' : ∀ p ∈ mid, p.1.stamp ≤ x.stamp ∧ (Claimable p.1 → p.2 ∈ held) := by
    refine fun p hp => ⟨hnew p (List.mem_append_left _ hp), fun hclaimable => ?_⟩
    obtain ⟨e, he, hclaim⟩ := hmid p hp hclaimable
    rw [h1] at hclaim
    rcases List.mem_append.1 hclaim with hclaim | hclaim
    · exact (hheld p.2).2 (List.mem_map.2 ⟨_, hclaim, rfl⟩)
    · obtain ⟨-, ⟨y, hy, -⟩, -⟩ := mem_claimsOn hclaim
      exact absurd rfl (hparts.2.2 e he e (List.mem_map.2 ⟨(y, e), hy, rfl⟩))
  have hclaim := claimFrom_foremost none far hv hbheld
    (hnew (v, b) (List.mem_append_right _ (List.mem_cons_self ..))) hmid'
    fun p hp => hblank p (List.mem_append_left _ hp)
  by_cases hcond : ∀ p ∈ mid, Line p.1 → v.stamp < p.1.stamp
  · rw [if_pos ⟨rfl, hcond⟩] at hclaim
    rw [claimsOn_eraser heraser hclaim, claimsOn_cons_of_free hparts.2.1
      (claimFrom_clear hparts.2.1 hblank hclaim).1 hbfree] at h2
    rw [if_pos hcond, hlines]
    refine shownEntries_one_more hl hv hb fun i => ?_
    simp only [everTaken, h2, List.map_append, List.map_cons, List.append_nil, List.mem_append,
      List.mem_cons, htaken, hheld]
    tauto
  · rw [if_neg fun h => hcond h.2] at hclaim
    rw [claimsOn_idle heraser hclaim, ← h1] at h2
    have hsame : everTaken [] (fr ++ (x, n) :: (mid ++ (v, b) :: far)) = taken :=
      congrArg (fun c => c.map (·.2) ++ []) h2
    have hshown : settleBlank taken (v, b) = v.withHidden false := by
      rw [settleBlank_claimable hv, decide_eq_false (by simpa using hb)]
    rw [if_neg hcond, hlines, hsame, List.map_append, List.map_cons, shownEntries_append, hshown]

end Labels

theorem zipIdx_split {xs : List Slot} {k : Nat} {mid far : List (Slot × Nat)} {v : Slot}
    (h : xs.zipIdx k = mid ++ (v, b) :: far) :
    b = k + mid.length ∧ ∀ p ∈ mid, p.2 < k + mid.length := by
  have hxs : xs = mid.map (·.1) ++ v :: far.map (·.1) := by
    have hmap := congrArg (List.map (·.1)) h
    rwa [List.zipIdx_map_fst, List.map_append, List.map_cons] at hmap
  rw [hxs, List.zipIdx_append, List.zipIdx_cons, List.length_map] at h
  obtain ⟨hmid, hrest⟩ := List.append_inj h (by simp)
  refine ⟨(Prod.mk.inj (List.cons.inj hrest).1).2.symm, fun p hp => ?_⟩
  rw [← hmid] at hp
  simpa using (zipIdx_label hp).2

/-- A new eraser the newest op places, hidden, between two parts of a sequence. -/
theorem erasesAt_insert (heraser : x.eraser = true) (hhidden : x.hidden = true)
    (hnew : ∀ y ∈ back, y.stamp ≤ x.stamp)
    (hsound : ∀ y ∈ front ++ back, y.eraser = true → y.hidden = true) :
    ErasesAt (inStep (front ++ back)) front.length (shownEntries (inStep (front ++ x :: back))) := by
  obtain ⟨hl, hl'⟩ := nodup_labels front back x
  have hfront : front.zipIdx.map (·.1) = front := List.zipIdx_map_fst ..
  have hback : (back.zipIdx front.length).map (·.1) = back := List.zipIdx_map_fst ..
  have hslots := inStep_label hl
  rw [List.map_append, hfront, hback, List.map_append] at hslots
  have hlength : (front.zipIdx.map (settleBlank
      (everTaken [] (front.zipIdx ++ back.zipIdx front.length)))).length = front.length := by
    rw [List.length_map, List.length_zipIdx]
  constructor
  · have h := insert_at_most_one heraser hhidden hl hl'
    rw [hfront, hback] at h
    rw [hslots, ← List.map_append, List.map_append, List.drop_left' hlength, List.take_left' hlength,
      ← List.map_append]
    exact h
  · intro near v far hdrop hblank hshown hnear hclaims
    obtain ⟨taken, htaken⟩ : ∃ taken,
      taken = everTaken [] (front.zipIdx ++ back.zipIdx front.length) := ⟨_, rfl⟩
    rw [claims_inStep, claims_eq_claimsOn, List.zipIdx_append, Nat.zero_add] at hclaims
    rw [hslots, List.drop_left' hlength, ← htaken] at hdrop
    rw [hslots, List.take_left' hlength, ← htaken]
    obtain ⟨mid, rest, hbk, rfl, hrest⟩ := List.map_eq_append_iff.1 hdrop
    obtain ⟨⟨v, b⟩, far, rfl, rfl, rfl⟩ := List.map_eq_cons_iff.1 hrest
    obtain ⟨hb, hlt⟩ := zipIdx_split hbk
    have hmem : ∀ p ∈ mid ++ (v, b) :: far, p.1 ∈ back := by
      intro p hp
      rw [← hback, hbk]
      exact List.mem_map.2 ⟨p, hp, rfl⟩
    have hidle : ∀ p ∈ mid ++ (v, b) :: far, (settleBlank taken p).hidden = false →
        p.1.eraser = false := by
      intro p hp hshown
      by_contra h
      have h : p.1.eraser = true := by simpa using h
      have hsame : settleBlank taken p = p.1 := if_neg (by simp [h])
      rw [hsame, hsound p.1 (List.mem_append_right _ (hmem p hp)) h] at hshown
      cases hshown
    have hv : Claimable v := ⟨(settleBlank_spec taken (v, b)).2.2.1 ▸ hblank,
      hidle (v, b) (List.mem_append_right _ (List.mem_cons_self ..)) hshown⟩
    have hfree : b ∉ taken := by
      rw [settleBlank_claimable hv] at hshown
      exact of_decide_eq_false hshown
    have hhold : ∀ p ∈ mid, Claimable p.1 →
        ∃ e ∈ front.zipIdx.map (·.2), (e, p.2) ∈ claimsOn [] (front.zipIdx ++ back.zipIdx
          front.length) := by
      intro p hp hclaimable
      have hp' := hnear _ (List.mem_map_of_mem hp)
        ((settleBlank_spec taken p).2.2.1.trans hclaimable.1)
      rw [settleBlank_claimable hclaimable, htaken] at hp'
      have hp' := of_decide_eq_true hp'
      rw [everTaken, List.append_nil] at hp'
      obtain ⟨⟨e, i⟩, hclaim, rfl⟩ := List.mem_map.1 hp'
      refine ⟨e, ?_, hclaim⟩
      have hlt' := hlt p hp
      have he : e < front.length := by
        by_contra hge
        have := hclaims (e, p.2) hclaim (not_lt.1 hge)
        rw [List.length_map] at this
        omega
      rw [List.zipIdx_map_snd]
      simpa using he
    rw [hbk] at hl hl' htaken hhold
    have hcond : (∀ y ∈ mid.map (settleBlank taken), y.hidden = false →
        (settleBlank taken (v, b)).stamp < y.stamp) ↔
        ∀ p ∈ mid, Line p.1 → v.stamp < p.1.stamp := by
      rw [List.forall_mem_map, (settleBlank_spec taken (v, b)).2.1]
      refine forall₂_congr fun p hp => ?_
      obtain ⟨-, hstamp, hpblank, hphidden⟩ := settleBlank_spec taken p
      rw [hstamp]
      refine imp_congr_left ⟨fun hp' => ?_, fun hline => (hphidden hline.1).trans hline.2.1⟩
      have hline : p.1.isBlank = false := by
        by_contra hne
        have := hnear _ (List.mem_map_of_mem hp) (hpblank.trans (by simpa using hne))
        simp [hp'] at this
      exact ⟨hline, (hphidden hline).symm.trans hp', hidle p (List.mem_append_left _ hp) hp'⟩
    have hmain := insert_foremost heraser hhidden hl hl' hv (htaken ▸ hfree)
      (fun p hp => hnew p.1 (hmem p hp)) hhold
    rw [← htaken, hfront, ← hbk, hback] at hmain
    have hshown' : settleBlank taken (v, b) = v.withHidden false := by
      rw [settleBlank_claimable hv, decide_eq_false hfree]
    rw [hmain, hshown']
    rw [hshown'] at hcond
    exact congrArg _ (congrArg _ (if_congr hcond.symm rfl rfl))

end ErasesAt

end Slots

namespace DocState

variable {s : DocState} {after : Option TaskId} {at_ : Hlc} {anchor : Option Nat}

/-- The newest op lands right after its anchor. -/
theorem slotAfter_newest {xs : List Slot} (hnew : ∀ x ∈ xs, x.stamp < at_)
    (h : Slots.anchorSlot xs after at_ = .ok anchor) :
    Slots.slotAfter xs after at_ = .ok ⟨anchor.elim 0 (· + 1), anchor.bind (Slots.parentAt xs)⟩ := by
  have hskip : ∀ k, Slots.skipNewer xs k at_ = k := by
    intro k
    have hnone : (xs.drop k).takeWhile (fun x => decide (at_ < x.stamp)) = [] := by
      cases hdrop : xs.drop k with
      | nil => rfl
      | cons x rest =>
        have hx : x ∈ xs := List.mem_of_mem_drop (hdrop ▸ List.mem_cons_self ..)
        rw [List.takeWhile_cons, if_neg (by simpa using (hnew x hx).le)]
    rw [Slots.skipNewer, hnone]
    rfl
  rw [Slots.slotAfter, h]
  cases anchor <;> simp only [hskip] <;> rfl

/-- Pruning a settled document shows what it showed. -/
theorem visibleEntries_settle_prune (u : DocState) (xs : List Slot) :
    (u.withSlots xs).settleErasers.pruneGhosts.visibleEntries =
      Slots.shownEntries (Slots.settleErasers xs) := by
  obtain ⟨v, hv, -, -⟩ := pruneGhosts_withSlots u (Slots.settleErasers xs)
  rw [settleErasers_withSlots, hv, withSlots_visibleEntries, Slots.prune]
  split_ifs
  · refine congrArg (List.map Slot.entry) (Slots.filter_restOf _ fun p hp hdrop => ?_)
    rw [(Slots.calm_settleErasers xs).hidden_of_mem_toDrop hp hdrop]
    rfl
  · rfl

/-- A `BlankRemove` newer than every placement applies, and leaves the lines of the settled document less
at most one blank behind its anchor. -/
theorem blankRemove_erases (hs : s.Reachable) {op : Op} (hop : op.kind = .blankRemove after)
    (hnew : ∀ x ∈ s.slots, x.stamp < op.hlc) (hanchor : s.anchorSlot after op.hlc = .ok anchor) :
    (s.apply op).result = .ok () ∧ Slots.ErasesAt (Slots.inStep s.slots) (anchor.elim 0 (· + 1))
      (s.apply op).state.visibleEntries := by
  have hsound := hs.sound
  obtain ⟨u, xs, rfl⟩ := hsound.aligned.exists_slots
  rw [sound_withSlots] at hsound
  rw [slots_withSlots] at hnew ⊢
  rw [anchorSlot, slots_withSlots] at hanchor
  have hspot := slotAfter_newest hnew hanchor
  have hle : anchor.elim 0 (· + 1) ≤ xs.length := by
    cases anchor with
    | none => exact Nat.zero_le _
    | some i => exact Slots.anchorSlot_lt hanchor
  obtain ⟨front, back, rfl, hlength⟩ :
      ∃ front back, xs = front ++ back ∧ front.length = anchor.elim 0 (· + 1) :=
    ⟨xs.take _, xs.drop _, (List.take_append_drop _ xs).symm, List.length_take_of_le hle⟩
  rw [← hlength] at hspot ⊢
  have hkind : (u.withSlots (front ++ back)).applyKind op =
      (u.withSlots (front ++ back)).blankRemove after op.hlc := by rw [applyKind, hop]
  have hspot' : (u.withSlots (front ++ back)).slotAfter after op.hlc =
      .ok ⟨front.length, anchor.bind (Slots.parentAt (front ++ back))⟩ := by
    rw [slotAfter, slots_withSlots]
    exact hspot
  have hsettled : ∀ t : DocState, t.settled op = t.settleErasers := by
    intro t
    rw [settled, hop]
    rfl
  rw [apply, hkind, blankRemove, hspot']
  refine ⟨rfl, ?_⟩
  show Slots.ErasesAt _ _ ((hideEntry _ _).settled op).pruneGhosts.visibleEntries
  rw [hsettled, placeEraser_withSlots, visibleEntries_settle_prune, Columns.insertIdx_append,
    Slots.settleErasers_inStep (by simp)]
  refine Slots.erasesAt_insert rfl rfl (fun y hy => ?_) fun y hy he => (hsound.eraser y hy he).1
  exact (hnew y (List.mem_append_right _ hy)).le

end DocState

/-- `lines` are the lines of `xs` less one blank of the run of shown blanks right past slot `at_`, and the
same lines when that run is empty. -/
def Slots.LosesOneOfRun (xs : List Slot) (at_ : Nat) (lines : List Entry) : Prop :=
  let rest := Slots.shownEntries (xs.drop at_)
  let run := rest.takeWhile Entry.isBlank
  (run ≠ [] → ∃ k < run.length, lines = Slots.shownEntries (xs.take at_) ++ rest.eraseIdx k) ∧
    (run = [] → lines = Slots.shownEntries xs)

namespace EraserSample

def path : FilePath := ⟨"todo.txt".toList⟩

theorem id_bound (n : Nat) : n % 16 < 2 ^ 128 := by omega

def task (n : Nat) : TaskId := ⟨⟨n % 16, id_bound n⟩⟩

def stamp (n : Nat) : Hlc := ⟨n, 0, ⟨1⟩⟩

def op (n : Nat) (kind : OpKind) : Op := ⟨⟨n⟩, stamp n, path, kind⟩

def line (text : String) : OwnedLine := .ofText text.toList .lf

/-- A line, a blank and a line, placed by nothing. -/
def doc : DocState :=
  .ofEntries path ⟨[line "a", line "", line "b"], false, .lf, true⟩ .sidecar
    [.task (task 1) (line "a"), .blank (line ""), .task (task 2) (line "b")]

/-- An older eraser holds the blank behind the first line; behind a line moved away stands a newer blank. -/
def held : DocState :=
  doc.applyAll [op 1 (.blankRemove (some (task 1))), op 2 (.blankInsert (some (task 2))),
    op 3 (.move (task 2) none ⟨"done.txt".toList⟩)]

/-- A line inserted between the first line and its blank. -/
def parted : DocState := doc.applyAll [op 1 (.insert (task 3) (some (task 1)) "c".toList)]

theorem doc_reachable : doc.Reachable :=
  .fromFile (show DocState.fromFile path ⟨[line "a", line "", line "b"], false, .lf, true⟩
    [some (task 1), none, some (task 2)] .sidecar = .ok doc from rfl) (by decide +kernel)

/-- Removes the blank behind the first line. -/
def remove : Op := op 4 (.blankRemove (some (task 1)))

theorem held_reachable : held.Reachable :=
  .apply (.apply (.apply doc_reachable _) _) _

theorem parted_reachable : parted.Reachable := .apply doc_reachable _

/-- A document without metadata holds the stamps of its placements and their parents. -/
theorem holds_of_stamps {A : Hlc → Prop} {s : DocState} (hstamps : ∀ x ∈ s.stamps, A x)
    (hparents : ∀ p ∈ s.parents, ∀ q ∈ p, A q.2) (hfields : s.fieldStamps = fun _ _ => none)
    (htexts : s.textHistory = fun _ => none) (hlife : s.life = fun _ => none) : s.Holds A where
  stamps := hstamps
  parents := hparents
  fields t f x h := by simp [hfields] at h
  texts t h ht := by simp [htexts] at ht
  life t l hl := by simp [hlife] at hl

end EraserSample

namespace DocState

open EraserSample

/-- Nothing goes from a run of one blank, whose blank is newer than the older eraser that would take it in
place of the blank it lost; and a blank goes from behind a newer line, the run being empty. -/
theorem blankRemove_not_one_of_run :
    (held.Reachable ∧ held.Holds (· < remove.hlc) ∧
      held.anchorSlot (some (task 1)) remove.hlc = .ok (some 0) ∧
      ¬Slots.LosesOneOfRun held.slots 1 (held.apply remove).state.visibleEntries) ∧
    (parted.Reachable ∧ parted.Holds (· < remove.hlc) ∧
      parted.anchorSlot (some (task 1)) remove.hlc = .ok (some 0) ∧
      ¬Slots.LosesOneOfRun parted.slots 1 (parted.apply remove).state.visibleEntries) := by
  have hheld : ¬Slots.LosesOneOfRun held.slots 1 (held.apply remove).state.visibleEntries := by
    unfold Slots.LosesOneOfRun
    decide +kernel
  have hparted :
      ¬Slots.LosesOneOfRun parted.slots 1 (parted.apply remove).state.visibleEntries := by
    unfold Slots.LosesOneOfRun
    decide +kernel
  refine ⟨⟨held_reachable, holds_of_stamps ?_ ?_ rfl rfl rfl, ?_, hheld⟩,
    ⟨parted_reachable, holds_of_stamps ?_ ?_ rfl rfl rfl, ?_, hparted⟩⟩
  all_goals decide +kernel

/-- The blank behind a newer line goes. -/
theorem blankRemove_erases_parted :
    (parted.apply remove).result = .ok () ∧
      Slots.ErasesAt (Slots.inStep parted.slots) 1 (parted.apply remove).state.visibleEntries :=
  blankRemove_erases parted_reachable rfl (by decide +kernel)
    (show parted.anchorSlot (some (task 1)) remove.hlc = .ok (some 0) by decide +kernel)

end DocState

end Txtodo
