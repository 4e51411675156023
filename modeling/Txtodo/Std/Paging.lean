import Txtodo.Std.KeySorted
import Mathlib.Data.List.MinMax

/-!
# Reading a list page by page

A list in the order of a key is read a page at a time, every page from where the one before it ended:
forwards past the last key read, or backwards below the least key read.
-/

namespace Paging

variable {α β : Type*} [LinearOrder β]

/-- Asking page after page, each below the least key of the one before, until an empty page comes. -/
inductive Walk (ask : β → List α) (key : α → β) : β → List α → Prop
  | done {bound : β} (h : ask bound = []) : Walk ask key bound []
  | page {bound least : β} {rest : List α} (h : ((ask bound).map key).min? = some least)
      (hrest : Walk ask key least rest) : Walk ask key bound (ask bound ++ rest)

variable {ask : β → List α} {key : α → β}

/-- The answers decide what a walk lists. -/
theorem Walk.unique {bound : β} {listed listed' : List α} (h : Walk ask key bound listed)
    (h' : Walk ask key bound listed') : listed = listed' := by
  induction h generalizing listed' with
  | done h =>
    cases h' with
    | done => rfl
    | page hleast =>
      rw [h] at hleast
      cases hleast
  | page h _ ih =>
    cases h' with
    | done hempty =>
      rw [hempty] at h
      cases h
    | page hleast hrest =>
      obtain rfl := Option.some.inj (h.symm.trans hleast)
      rw [ih hrest]

variable {l pre post : List α}

/-- In a list that goes down, the items below an item are those after it. -/
theorem filter_lt_of_down {a : α} (h : (pre ++ a :: post).Pairwise fun x y => key y < key x) :
    (pre ++ a :: post).filter (fun x => key x < key a) = post := by
  obtain ⟨_, hpost, hcross⟩ := List.pairwise_append.1 h
  have hafter := (List.pairwise_cons.1 hpost).1
  rw [List.filter_append, List.filter_cons, if_neg (by simp), List.filter_eq_nil_iff.2,
    List.nil_append, List.filter_eq_self]
  · intro x hx
    exact decide_eq_true (hafter x hx)
  · intro x hx
    simpa using (hcross x hx a List.mem_cons_self).le

/-- In a list that goes up, the items above an item are those after it. -/
theorem filter_gt_of_up {a : α} (h : KeySorted.Sorted key (pre ++ a :: post)) :
    (pre ++ a :: post).filter (fun x => key a < key x) = post := by
  obtain ⟨_, hpost, hcross⟩ := List.pairwise_append.1 h
  have hafter := (List.pairwise_cons.1 hpost).1
  rw [List.filter_append, List.filter_cons, if_neg (by simp), List.filter_eq_nil_iff.2,
    List.nil_append, List.filter_eq_self]
  · intro x hx
    exact decide_eq_true (hafter x hx)
  · intro x hx
    simpa using (hcross x hx a List.mem_cons_self).le

/-- In a list that goes up, an item's key is the bound between those in front of it and those after it. -/
theorem bounds_of_up {a : α} (h : KeySorted.Sorted key ((pre ++ [a]) ++ post)) :
    (∀ x ∈ pre ++ [a], key x ≤ key a) ∧ ∀ x ∈ post, key a < key x := by
  obtain ⟨hpre, _, hcross⟩ := List.pairwise_append.1 h
  refine ⟨?_, fun x hx => hcross a (by simp) x hx⟩
  intro x hx
  rcases List.mem_append.1 hx with hx | hx
  · exact ((List.pairwise_append.1 hpre).2.2 x hx a (List.mem_singleton_self a)).le
  · rw [List.mem_singleton.1 hx]

/-- The greatest key of a list that goes up is that of its last item. -/
theorem max?_of_up (h : KeySorted.Sorted key l) : (l.map key).max? = l.getLast?.map key := by
  rcases List.eq_nil_or_concat l with rfl | ⟨front, a, rfl⟩
  · rfl
  rw [List.concat_eq_append] at h ⊢
  rw [List.getLast?_concat, Option.map_some, List.max?_eq_some_iff]
  refine ⟨by simp, ?_⟩
  intro b hb
  obtain ⟨x, hx, rfl⟩ := List.mem_map.1 hb
  rw [← List.append_nil (front ++ [a])] at h
  exact (bounds_of_up h).1 x hx

/-- What follows an item that fails is not taken. -/
theorem takeWhile_append_of_stop {p : α → Bool} (h : pre.all p = false) :
    (pre ++ post).takeWhile p = pre.takeWhile p := by
  rw [List.takeWhile_append, if_neg]
  intro hlen
  have hwhole := (List.takeWhile_prefix p (l := pre)).eq_of_length hlen
  rw [List.takeWhile_eq_self_iff] at hwhole
  rw [List.all_eq_true.2 hwhole] at h
  cases h

/-- Taking items while they pass finds the last one that passes when none of those comes after one that
does not. -/
theorem getLast?_takeWhile_iff {p : α → Bool} (h : KeySorted.Sorted key l) :
    (l.takeWhile p).getLast?.map key = (l.filter p).getLast?.map key ↔
      ∀ x ∈ l, ∀ y ∈ l, key x < key y → p y = true → p x = true := by
  have hsplit : l = l.takeWhile p ++ l.dropWhile p := List.takeWhile_append_dropWhile.symm
  have hfront : (l.takeWhile p).filter p = l.takeWhile p :=
    List.filter_eq_self.2 fun x hx => List.mem_takeWhile_imp hx
  have hfilter : l.filter p = l.takeWhile p ++ (l.dropWhile p).filter p := by
    conv_lhs => rw [hsplit, List.filter_append, hfront]
  have hcross : ∀ x ∈ l.takeWhile p, ∀ y ∈ l.dropWhile p, key x < key y := by
    rw [hsplit] at h
    exact (List.pairwise_append.1 h).2.2
  have hmem : ∀ x ∈ l, x ∈ l.takeWhile p ∨ x ∈ l.dropWhile p := by
    intro x hx
    rw [hsplit] at hx
    exact List.mem_append.1 hx
  constructor
  · intro heq
    have hnone : (l.dropWhile p).filter p = [] := by
      by_contra hne
      obtain ⟨front, a, ha⟩ : ∃ front a, (l.dropWhile p).filter p = front ++ [a] :=
        ⟨_, _, (List.dropLast_append_getLast hne).symm⟩
      have hdrop : a ∈ l.dropWhile p := List.mem_of_mem_filter (by rw [ha]; simp)
      rw [hfilter, ha, ← List.append_assoc, List.getLast?_concat] at heq
      obtain ⟨b, hb, hkey⟩ := Option.map_eq_some_iff.1 heq
      exact absurd hkey (hcross b (List.mem_of_getLast? hb) a hdrop).ne
    intro x hx y hy hlt hpy
    have htaken : y ∈ l.takeWhile p := by
      refine (hmem y hy).resolve_right fun hdrop => ?_
      have hpass : y ∈ (l.dropWhile p).filter p := List.mem_filter.2 ⟨hdrop, hpy⟩
      rw [hnone] at hpass
      cases hpass
    rcases hmem x hx with hx | hx
    · exact List.mem_takeWhile_imp hx
    · exact absurd (hcross y htaken x hx) hlt.asymm
  · intro hnone
    have hrest : (l.dropWhile p).filter p = [] := by
      refine List.filter_eq_nil_iff.2 fun y hy hpy => ?_
      cases hdrop : l.dropWhile p with
      | nil =>
        rw [hdrop] at hy
        cases hy
      | cons x rest =>
        have hfail : ¬p x = true := by
          have := List.head?_dropWhile_not p l
          rw [hdrop] at this
          simpa using this
        have hx : x ∈ l := (List.dropWhile_suffix p).subset (by rw [hdrop]; exact List.mem_cons_self)
        have hyl : y ∈ l := (List.dropWhile_suffix p).subset hy
        rw [hdrop] at hy
        rcases List.mem_cons.1 hy with rfl | hlater
        · exact hfail hpy
        · refine hfail (hnone x hx y hyl ?_ hpy)
          have hsorted := h.sublist (List.dropWhile_suffix p).sublist
          rw [hdrop] at hsorted
          exact (List.pairwise_cons.1 hsorted).1 y hlater
    rw [hfilter, hrest, List.append_nil]

/-- The last item of a list that goes down has the least key. -/
theorem min?_of_down {a : α} (h : (pre ++ [a]).Pairwise fun x y => key y < key x) :
    ((pre ++ [a]).map key).min? = some (key a) := by
  rw [List.min?_eq_some_iff]
  refine ⟨by simp, ?_⟩
  intro b hb
  obtain ⟨x, hx, rfl⟩ := List.mem_map.1 hb
  rcases List.mem_append.1 hx with hx | hx
  · exact ((List.pairwise_append.1 h).2.2 x hx a (List.mem_singleton_self a)).le
  · rw [List.mem_singleton.1 hx]

/-- A walk over the pages of a list that goes down lists it all. -/
theorem walk_of_down (pre post : List α) {limit : Nat} (hlimit : 0 < limit) (hdown : l.Pairwise fun x y => key y < key x)
    (hask : ∀ a ∈ l, ask (key a) = (l.filter fun x => key x < key a).take limit)
    {bound : β} (hl : l = pre ++ post) (hbound : ask bound = post.take limit) :
    Walk ask key bound post := by
  induction hn : post.length using Nat.strongRecOn generalizing pre post bound with
  | ind n ih =>
    subst hn
    by_cases hnil : post = []
    · subst hnil
      exact .done (by rw [hbound, List.take_nil])
    have hpage : post.take limit ≠ [] := by
      intro h
      rcases List.take_eq_nil_iff.1 h with h | h
      · exact hlimit.ne' h
      · exact hnil h
    obtain ⟨front, a, hfront⟩ : ∃ front a, post.take limit = front ++ [a] :=
      ⟨_, _, (List.dropLast_append_getLast hpage).symm⟩
    have hcut : post = front ++ a :: post.drop limit := calc
      post = post.take limit ++ post.drop limit := (List.take_append_drop limit post).symm
      _ = front ++ a :: post.drop limit := by rw [hfront, List.append_assoc, List.singleton_append]
    have hsplit : l = (pre ++ front) ++ a :: post.drop limit := by
      rw [hl, List.append_assoc, ← hcut]
    have hrest : ask (key a) = (post.drop limit).take limit := by
      have hbelow := hask a (by rw [hsplit]; simp)
      rw [hsplit] at hdown hbelow
      rw [hbelow, filter_lt_of_down hdown]
    have hpost : (front ++ [a]).Pairwise fun x y => key y < key x := by
      rw [← hfront]
      rw [hl] at hdown
      exact (List.pairwise_append.1 hdown).2.1.sublist (List.take_sublist _ _)
    have hwalk := ih (post.drop limit).length ?_ (pre ++ front ++ [a]) (post.drop limit)
      (by simpa using hsplit) hrest rfl
    · have hleast : ((ask bound).map key).min? = some (key a) := by
        rw [hbound, hfront]
        exact min?_of_down hpost
      have hstep := Walk.page hleast hwalk
      rwa [hbound, List.take_append_drop] at hstep
    · have hpos := List.length_pos_iff.2 hnil
      rw [List.length_drop]
      omega

end Paging
