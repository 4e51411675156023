import Mathlib.Data.List.TakeWhile

/-!
# Texts split at separators

A list is cut at every item that is a separator. The pieces are found one after another, and cutting at
more separators cuts the pieces further.
-/

namespace Split

variable {α β γ : Type*} {sep fine : α → Bool} {s w pre post : List α}

/-- A list is one piece, or a piece, a separator and the rest. -/
@[elab_as_elim]
theorem induction (sep : α → Bool) {motive : List α → Prop} (last : ∀ w, (∀ c ∈ w, sep c = false) → motive w)
    (more : ∀ w c rest, (∀ x ∈ w, sep x = false) → sep c = true → motive rest → motive (w ++ c :: rest))
    (s : List α) : motive s := by
  induction hlen : s.length using Nat.strongRecOn generalizing s with
  | ind n ih =>
    have hplain : ∀ c ∈ s.takeWhile fun c => !sep c, sep c = false := by
      intro c hc
      simpa using List.mem_takeWhile_imp hc
    have hsplit : s = (s.takeWhile fun c => !sep c) ++ s.dropWhile fun c => !sep c :=
      List.takeWhile_append_dropWhile.symm
    cases hrest : s.dropWhile fun c => !sep c with
    | nil =>
      rw [hrest, List.append_nil] at hsplit
      rw [hsplit]
      exact last _ hplain
    | cons c rest =>
      have hc : sep c = true := by
        have hhead := List.head?_dropWhile_not (fun c => !sep c) s
        rw [hrest] at hhead
        simpa using hhead
      rw [hrest] at hsplit
      have hshort : rest.length < n := by
        rw [← hlen, hsplit, List.length_append, List.length_cons]
        omega
      rw [hsplit]
      exact more _ _ _ hplain hc (ih _ hshort rest rfl)

/-- No piece holds a separator. -/
theorem plain_of_mem (h : w ∈ s.splitOnP sep) : ∀ c ∈ w, sep c = false := by
  induction s using Split.induction sep with
  | last s hs =>
    rw [List.splitOnP_eq_singleton hs, List.mem_singleton] at h
    rw [h]
    exact hs
  | more v c rest hv hc ih =>
    rw [List.splitOnP_append_cons_of_forall_mem hv c hc] at h
    rcases List.mem_cons.1 h with rfl | h
    · exact hv
    · exact ih h

/-- Cutting at more separators cuts every piece further. -/
theorem splitOnP_flatMap (hfine : ∀ c, sep c = true → fine c = true) (s : List α) :
    s.splitOnP fine = (s.splitOnP sep).flatMap (List.splitOnP fine) := by
  induction s using Split.induction sep with
  | last s hs => rw [List.splitOnP_eq_singleton hs, List.flatMap_singleton]
  | more v c rest hv hc ih =>
    rw [List.splitOnP_append_cons_of_forall_mem hv c hc, List.splitOnP_append_cons v rest (hfine c hc),
      List.flatMap_cons, ih]

/-! ## The first piece of a kind -/

/-- Among pieces cut further the same piece is the first of a kind exactly when the first of them that is
one, or holds one, is not cut, or is none and holds the one that comes first. -/
theorem find?_flatMap_iff (p : List α → Bool) (l : List (List α)) :
    (l.flatMap (List.splitOnP fine)).find? p = l.find? p ↔
      ∀ w, l.find? (fun w => p w || (w.splitOnP fine).any p) = some w →
        (∀ c ∈ w, fine c = false) ∨ p w = false ∧ (w.splitOnP fine).find? p = l.find? p := by
  induction l with
  | nil => simp
  | cons w l ih =>
    rw [List.flatMap_cons, List.find?_append, List.find?_cons, List.find?_cons]
    cases hany : (w.splitOnP fine).any p with
    | false =>
      have hnone : (w.splitOnP fine).find? p = none := by
        rw [List.find?_eq_none]
        exact fun v hv => List.any_eq_false.1 hany v hv
      rw [hnone, Option.none_or, Bool.or_false]
      cases hw : p w with
      | false => exact ih
      | true =>
        -- A piece of `w` or of a later one is not `w`, which is cut.
        have hcut : ¬∀ c ∈ w, fine c = false := by
          intro hplain
          rw [List.splitOnP_eq_singleton hplain, List.any_cons, hw] at hany
          cases hany
        refine iff_of_false ?_ ?_
        · intro heq
          obtain ⟨v, -, hmem⟩ := List.mem_flatMap.1 (List.mem_of_find?_eq_some heq)
          exact hcut (plain_of_mem hmem)
        · intro h
          rcases h w rfl with hplain | ⟨hfalse, -⟩
          · exact hcut hplain
          · rw [hw] at hfalse
            cases hfalse
    | true =>
      obtain ⟨v, hv⟩ : ∃ v, (w.splitOnP fine).find? p = some v := by
        rw [← Option.isSome_iff_exists, List.find?_isSome]
        exact List.any_eq_true.1 hany
      rw [hv, Option.some_or, Bool.or_true]
      constructor
      · intro heq w' hw'
        obtain rfl := Option.some.inj hw'
        cases hw : p w with
        | false =>
          rw [hw] at heq
          exact .inr ⟨rfl, hv.trans heq⟩
        | true =>
          rw [hw] at heq
          obtain rfl := Option.some.inj heq
          exact .inl (plain_of_mem (List.mem_of_find?_eq_some hv))
      · intro h
        rcases h w rfl with hplain | ⟨hw, heq⟩
        · rw [List.splitOnP_eq_singleton hplain, List.find?_cons] at hv
          cases hw : p w with
          | false =>
            rw [hw] at hv
            cases hv
          | true =>
            rw [hw] at hv
            exact hv.symm
        · rw [← heq, hv]

/-- Pieces, every one closed by a separator. -/
inductive Closed (sep : α → Bool) : List α → Prop
  | nil : Closed sep []
  | more {v rest : List α} {c : α} (hv : ∀ x ∈ v, sep x = false) (hc : sep c = true)
      (h : Closed sep rest) : Closed sep (v ++ c :: rest)

theorem closed_iff : Closed sep pre ↔ ∀ c ∈ pre.getLast?, sep c = true := by
  constructor
  · intro h
    induction h with
    | nil => simp
    | @more v rest c hv hc h ih =>
      intro x hx
      rw [List.getLast?_append, List.getLast?_cons] at hx
      cases hlast : rest.getLast? with
      | none =>
        rw [hlast] at hx
        cases hx
        exact hc
      | some y =>
        rw [hlast] at hx
        cases hx
        exact ih _ hlast
  · intro h
    induction pre using Split.induction sep with
    | last v hv =>
      by_cases hnil : v = []
      · rw [hnil]
        exact .nil
      · have hc := h _ (List.getLast?_eq_some_getLast hnil)
        rw [hv _ (List.getLast_mem hnil)] at hc
        cases hc
    | more v c rest hv hc ih =>
      refine .more hv hc (ih fun x hx => h x ?_)
      rw [List.getLast?_append, List.getLast?_cons, Option.mem_def.1 hx]
      rfl

/-- `w` stands in a list between separators, `pre` in front of it and `post` behind. -/
structure Stands (sep : α → Bool) (pre w post : List α) : Prop where
  left : Closed sep pre
  plain : ∀ c ∈ w, sep c = false
  right : ∀ c ∈ post.head?, sep c = true

/-- The pieces from one that stands at the front. -/
theorem exists_split_cons (hw : ∀ c ∈ w, sep c = false) (hpost : ∀ c ∈ post.head?, sep c = true) :
    ∃ vs, (w ++ post).splitOnP sep = w :: vs := by
  cases post with
  | nil => exact ⟨[], by rw [List.append_nil, List.splitOnP_eq_singleton hw]⟩
  | cons c post => exact ⟨_, List.splitOnP_append_cons_of_forall_mem hw c (hpost c rfl) post⟩

/-- The first piece of a kind stands behind pieces that are none. -/
theorem exists_stands {p : List α → Bool} (hnil : p [] = false) (h : (s.splitOnP sep).find? p = some w) :
    ∃ pre post, s = pre ++ (w ++ post) ∧ Stands sep pre w post ∧ (pre.splitOnP sep).any p = false := by
  induction s using Split.induction sep with
  | last v hv =>
    rw [List.splitOnP_eq_singleton hv] at h
    obtain rfl := List.mem_singleton.1 (List.mem_of_find?_eq_some h)
    refine ⟨[], [], by simp, ⟨.nil, hv, by simp⟩, ?_⟩
    rw [List.splitOnP_nil, List.any_cons, hnil]
    rfl
  | more v c rest hv hc ih =>
    rw [List.splitOnP_append_cons_of_forall_mem hv c hc, List.find?_cons] at h
    cases hp : p v with
    | true =>
      rw [hp] at h
      obtain rfl := Option.some.inj h
      refine ⟨[], c :: rest, rfl, ⟨.nil, hv, by simpa using hc⟩, ?_⟩
      rw [List.splitOnP_nil, List.any_cons, hnil]
      rfl
    | false =>
      rw [hp] at h
      obtain ⟨pre, post, rfl, hstands, hfirst⟩ := ih h
      refine ⟨v ++ c :: pre, post, by simp, ⟨.more hv hc hstands.left, hstands.plain, hstands.right⟩, ?_⟩
      rw [List.splitOnP_append_cons_of_forall_mem hv c hc, List.any_cons, hp, hfirst]
      rfl

/-- A piece of a kind behind pieces that are none is the first. -/
theorem Stands.find? {p : List α → Bool} (h : Stands sep pre w post) (hp : p w = true)
    (hfirst : (pre.splitOnP sep).any p = false) : ((pre ++ (w ++ post)).splitOnP sep).find? p = some w := by
  have hleft := h.left
  induction hleft with
  | nil =>
    obtain ⟨vs, hvs⟩ := exists_split_cons h.plain h.right
    rw [List.nil_append, hvs, List.find?_cons, hp]
  | @more v rest c hv hc hrest ih =>
    rw [List.splitOnP_append_cons_of_forall_mem hv c hc, List.any_cons, Bool.or_eq_false_iff] at hfirst
    rw [List.append_assoc, List.cons_append, List.splitOnP_append_cons_of_forall_mem hv c hc,
      List.find?_cons, hfirst.1]
    exact ih ⟨hrest, h.plain, h.right⟩ hfirst.2

/-- What stands between separators is a piece. -/
theorem Stands.mem (h : Stands sep pre w post) : w ∈ (pre ++ (w ++ post)).splitOnP sep := by
  have hleft := h.left
  induction hleft with
  | nil =>
    obtain ⟨vs, hvs⟩ := exists_split_cons h.plain h.right
    rw [List.nil_append, hvs]
    exact List.mem_cons_self ..
  | @more v rest c hv hc hrest ih =>
    rw [List.append_assoc, List.cons_append, List.splitOnP_append_cons_of_forall_mem hv c hc]
    exact List.mem_cons_of_mem _ (ih ⟨hrest, h.plain, h.right⟩)

/-- A piece and what stands behind it are found by the first separator. -/
theorem front_inj {v v' r r' : List α} (hv : ∀ c ∈ v, sep c = false) (hv' : ∀ c ∈ v', sep c = false)
    (hr : ∀ c ∈ r.head?, sep c = true) (hr' : ∀ c ∈ r'.head?, sep c = true) (h : v ++ r = v' ++ r') :
    v = v' ∧ r = r' := by
  have htake : ∀ {v r : List α}, (∀ c ∈ v, sep c = false) → (∀ c ∈ r.head?, sep c = true) →
      (v ++ r).takeWhile (fun c => !sep c) = v := by
    intro v r hv hr
    rw [List.takeWhile_append_of_pos fun c hc => by rw [hv c hc]; rfl]
    cases r with
    | nil => rw [List.takeWhile_nil, List.append_nil]
    | cons c r => rw [List.takeWhile_cons_of_neg (by rw [hr c rfl]; decide), List.append_nil]
  have hsame : v = v' := by rw [← htake hv hr, h, htake hv' hr']
  rw [hsame] at h
  exact ⟨hsame, List.append_cancel_left h⟩

/-- The first piece of a kind stands in one place. -/
theorem Stands.unique {p : List α → Bool} {pre' w' post' : List α} (h : Stands sep pre w post)
    (h' : Stands sep pre' w' post') (hp : p w = true) (hp' : p w' = true)
    (hfirst : (pre.splitOnP sep).any p = false) (hfirst' : (pre'.splitOnP sep).any p = false)
    (heq : pre ++ (w ++ post) = pre' ++ (w' ++ post')) : pre = pre' ∧ w = w' ∧ post = post' := by
  have hleft := h.left
  have hleft' := h'.left
  induction hleft generalizing pre' with
  | nil =>
    cases hleft' with
    | nil =>
      obtain ⟨rfl, rfl⟩ := front_inj h.plain h'.plain h.right h'.right heq
      exact ⟨rfl, rfl, rfl⟩
    | @more v rest c hv hc hrest =>
      rw [List.nil_append, List.append_assoc, List.cons_append] at heq
      obtain ⟨rfl, -⟩ := front_inj h.plain hv h.right (by simpa using hc) heq
      rw [List.splitOnP_append_cons_of_forall_mem hv c hc, List.any_cons, hp] at hfirst'
      cases hfirst'
  | @more v rest c hv hc hrest ih =>
    rw [List.splitOnP_append_cons_of_forall_mem hv c hc, List.any_cons, Bool.or_eq_false_iff] at hfirst
    rw [List.append_assoc, List.cons_append] at heq
    cases hleft' with
    | nil =>
      obtain ⟨rfl, -⟩ := front_inj hv h'.plain (by simpa using hc) h'.right heq
      rw [hfirst.1] at hp'
      cases hp'
    | @more v' rest' c' hv' hc' hrest' =>
      rw [List.splitOnP_append_cons_of_forall_mem hv' c' hc', List.any_cons, Bool.or_eq_false_iff] at hfirst'
      rw [List.append_assoc, List.cons_append] at heq
      obtain ⟨rfl, htail⟩ := front_inj hv hv' (by simpa using hc) (by simpa using hc') heq
      obtain ⟨rfl, hsame⟩ := List.cons.inj htail
      obtain ⟨rfl, rfl, rfl⟩ := ih ⟨hrest, h.plain, h.right⟩ ⟨hrest', h'.plain, h'.right⟩ hfirst.2 hfirst'.2
        hsame hrest'
      exact ⟨rfl, rfl, rfl⟩

/-- In two lists that differ where one or the other of two pieces was replaced by the same, no longer than
the first, neither was changed. -/
theorem replaced_eq {a x b y c t : List α} (hlen : t.length ≤ x.length) (hx : ∀ e ∈ x, sep e = false)
    (hb : ∃ e ∈ b.head?, sep e = true)
    (h : a ++ (t ++ (b ++ (y ++ c))) = a ++ (x ++ (b ++ (t ++ c)))) : x = t ∧ y = t := by
  have htail := List.append_cancel_left h
  obtain ⟨x', rfl⟩ : ∃ x', x = t ++ x' := by
    have hprefix : t <+: x ++ (b ++ (t ++ c)) := htail ▸ List.prefix_append _ _
    exact (List.prefix_of_prefix_length_le hprefix (List.prefix_append _ _) hlen).imp fun _ h => h.symm
  rw [List.append_assoc] at htail
  have hrest := List.append_cancel_left htail
  obtain ⟨e, he, hsep⟩ := hb
  cases x' with
  | nil =>
    rw [List.nil_append] at hrest
    exact ⟨List.append_nil t, List.append_cancel_right (List.append_cancel_left hrest)⟩
  | cons d x' =>
    cases b with
    | nil => cases he
    | cons e' b =>
      cases he
      obtain rfl : e = d := (List.cons.inj hrest).1
      rw [hx e (by simp)] at hsep
      cases hsep

end Split
