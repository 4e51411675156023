import Txtodo.Core.Ulid
import Mathlib.Tactic.Ring
import Mathlib.Tactic.NormNum
import Mathlib.Data.Char
import Txtodo.Std.Radix

/-!
# ULID round trip

The 26 characters a ULID is written as read back as the same ULID.
-/

namespace Txtodo

/-- The characters of the five-bit digits. -/
theorem alphabet_spec {n : Nat} (h : n < 32) :
    decodeChar (ALPHABET.getD n '0') = some n ∧
      (Utf8.encodeChar (ALPHABET.getD n '0')).length = 1 ∧
      (n ≤ 7 → ¬ '7' < ALPHABET.getD n '0') ∧ (ALPHABET.getD n '0').isAlphanum := by
  revert n
  decide

namespace Ulid

theorem mem_display {u : Ulid} {c : Char} (h : c ∈ u.display) :
    c.isAlphanum ∧ (Utf8.encodeChar c).length = 1 := by
  obtain ⟨i, -, rfl⟩ := List.mem_map.1 h
  have hspec := alphabet_spec (Nat.mod_lt (u.bits / 32 ^ (ULID_LEN - 1 - i)) (by decide : 0 < 32))
  exact ⟨hspec.2.2.2, hspec.2.1⟩

theorem length_display (u : Ulid) : u.display.length = ULID_LEN := by
  rw [display, List.length_map, List.length_range]

theorem size_display (u : Ulid) : Utf8.size u.display = ULID_LEN := by
  have hone : ∀ t : Text, (∀ c ∈ t, (Utf8.encodeChar c).length = 1) → Utf8.size t = t.length := by
    intro t ht
    induction t with
    | nil => rfl
    | cons c t ih =>
      have hc := ht c (List.mem_cons_self ..)
      have htail := ih fun d hd => ht d (List.mem_cons_of_mem _ hd)
      rw [Utf8.size, Utf8.encode_cons, List.length_append, hc]
      rw [Utf8.size] at htail
      rw [htail, List.length_cons, Nat.add_comm]
  rw [hone _ fun c hc => (mem_display hc).2, length_display]

/-- The first `n` characters decode to the bits above the rest. -/
theorem foldlM_display (u : Ulid) {n : Nat} (hn : n ≤ ULID_LEN) :
    ((List.range n).map fun i =>
        ALPHABET.getD (u.bits / 32 ^ (ULID_LEN - 1 - i) % 32) '0').foldlM
      (fun bits c => (decodeChar c).map (bits * 32 + ·)) 0 =
        some (u.bits / 32 ^ (ULID_LEN - n)) := by
  induction n with
  | zero =>
    have hlt : u.bits < 32 ^ ULID_LEN := lt_of_lt_of_le u.bound (by decide)
    rw [Nat.sub_zero, Nat.div_eq_of_lt hlt]
    rfl
  | succ n ih =>
    have hspec := alphabet_spec
      (Nat.mod_lt (u.bits / 32 ^ (ULID_LEN - 1 - n)) (by decide : 0 < 32))
    have hpow : 32 ^ (ULID_LEN - n) = 32 ^ (ULID_LEN - (n + 1)) * 32 := by
      rw [← pow_succ]
      congr 1
      omega
    have hexp : ULID_LEN - 1 - n = ULID_LEN - (n + 1) := by omega
    have hdiv : u.bits / 32 ^ (ULID_LEN - n) * 32 + u.bits / 32 ^ (ULID_LEN - (n + 1)) % 32 =
        u.bits / 32 ^ (ULID_LEN - (n + 1)) := by
      rw [hpow, ← Nat.div_div_eq_div_mul]
      omega
    rw [List.range_succ, List.map_append, List.foldlM_append, ih (by omega)]
    simp only [List.map_cons, List.map_nil, List.foldlM_cons, List.foldlM_nil]
    rw [Option.bind_eq_bind, Option.bind_some, hspec.1, Option.map_some, hexp, hdiv]
    rfl

theorem parse_display (u : Ulid) : parse u.display = some u := by
  have hfirst : ¬ '7' < u.display.headD '0' := by
    have hspec := alphabet_spec (Nat.mod_lt (u.bits / 32 ^ (ULID_LEN - 1 - 0)) (by decide : 0 < 32))
    apply hspec.2.2.1
    have hlt : u.bits / 32 ^ (ULID_LEN - 1 - 0) < 8 := by
      apply Nat.div_lt_of_lt_mul
      exact lt_of_lt_of_le u.bound (by decide)
    exact le_trans (Nat.mod_le _ _) (Nat.le_of_lt_succ hlt)
  have hfold := foldlM_display u (n := ULID_LEN) le_rfl
  rw [Nat.sub_self, pow_zero, Nat.div_one] at hfold
  rw [parse, if_neg (by rw [size_display]; simpa using hfirst)]
  rw [show u.display.foldlM _ 0 = some u.bits from hfold]
  exact dif_pos u.bound

end Ulid

end Txtodo

/-!
## A ULID's text and its value are one

Both are the same 26 digits of five bits: what parses is such a numeral below `2 ^ 128`, what is shown is that
of the value, and numerals of one width compare as their numbers do.
-/

namespace Txtodo.UlidWord

/-! ## The alphabet -/

/-- The character of a five-bit digit. -/
def charOf (d : Nat) : Char := ALPHABET.getD d '0'

def byteOf (d : Nat) : UInt8 := ALPHABET_BYTES.getD d 0

theorem byteOf_spec {d : Nat} (h : d < 32) :
    Utf8.encodeChar (charOf d) = [byteOf d] ∧ decodeChar (byteOf d) = some (UInt8.ofNat d) ∧
      (byteOf d > '7'.toUInt8 ↔ 7 < d) := by
  revert d
  decide +kernel

/-- The alphabet's characters stand in the order of their digits. -/
theorem charOf_lt {d e : Nat} (h : d < e) (he : e < 32) : charOf d < charOf e := by
  have hsorted : ALPHABET.Pairwise (· < ·) := by decide +kernel
  have hlen : ALPHABET.length = 32 := by decide +kernel
  have hd : d < ALPHABET.length := by omega
  rw [← hlen] at he
  rw [charOf, charOf, List.getD_eq_getElem _ _ hd, List.getD_eq_getElem _ _ he]
  exact List.pairwise_iff_getElem.1 hsorted d e hd he h

theorem charOf_lt_iff {d e : Nat} (hd : d < 32) (he : e < 32) :
    (charOf d < charOf e ↔ d < e) ∧ (charOf d = charOf e ↔ d = e) := by
  rcases lt_trichotomy d e with h | rfl | h
  · have hlt := charOf_lt h he
    exact ⟨iff_of_true hlt h, iff_of_false hlt.ne h.ne⟩
  · exact ⟨iff_of_false (lt_irrefl _) (lt_irrefl _), iff_of_true rfl rfl⟩
  · have hlt := charOf_lt h hd
    exact ⟨iff_of_false hlt.not_gt h.not_gt, iff_of_false hlt.ne' h.ne'⟩

/-- A byte that decodes is the one of its digit. -/
theorem byteOf_decodeChar {c v : UInt8} (h : decodeChar c = some v) : v.toNat < 32 ∧ byteOf v.toNat = c := by
  have hall : ∀ n : Fin 256, ∀ v ∈ decodeChar (UInt8.ofNat n), v.toNat < 32 ∧ byteOf v.toNat = UInt8.ofNat n := by
    decide +kernel
  have hc := hall ⟨c.toNat, c.toNat_lt⟩ v
  rw [UInt8.ofNat_toNat] at hc
  exact hc h

theorem charOf_decodeChar {c : Char} {d : Nat} (h : Txtodo.decodeChar c = some d) : d < 32 ∧ charOf d = c := by
  obtain ⟨hlt, hget, -⟩ := List.idxOf?_eq_some_iff.1 h
  refine ⟨hlt, ?_⟩
  rw [charOf, List.getD_eq_getElem _ _ hlt]
  exact hget

/-! ## Digits -/

/-- The 26 five-bit digits of a value, the highest first. -/
structure Digits (v : U128) (ds : List Nat) : Prop where
  length : ds.length = ULID_LEN
  lt : ∀ d ∈ ds, d < 32
  value : Radix.value 32 ds = v.toNat

variable {v w : U128} {ds es : List Nat} {s : Text}

theorem Digits.unique (hds : Digits v ds) (hes : Digits v es) : ds = es :=
  Radix.value_inj (by decide) (hds.length.trans hes.length.symm) hds.lt hes.lt (hds.value.trans hes.value.symm)

/-- The value fits in 128 bits exactly when the first digit is at most `7`. -/
theorem head_le_iff (hlen : ds.length = ULID_LEN) (hlt : ∀ d ∈ ds, d < 32) :
    ds.headD 0 ≤ 7 ↔ Radix.value 32 ds < 2 ^ 128 := by
  cases ds with
  | nil => cases hlen
  | cons d ds =>
    have hlen : ds.length = 25 := Nat.succ.inj hlen
    have hlow := Radix.value_lt (by decide) (List.forall_mem_cons.1 hlt).2
    rw [hlen] at hlow
    rw [Radix.value_cons, hlen, List.headD_cons]
    omega

theorem encode_map_charOf (hlt : ∀ d ∈ ds, d < 32) : Utf8.encode (ds.map charOf) = ds.map byteOf := by
  induction ds with
  | nil => rfl
  | cons d ds ih =>
    obtain ⟨hd, hds⟩ := List.forall_mem_cons.1 hlt
    rw [List.map_cons, Utf8.encode_cons, (byteOf_spec hd).1, ih hds, List.map_cons, List.singleton_append]

/-! ## Parsing -/

/-- The bytes that the loop takes, and the word it makes of them. -/
theorem foldlM_eq_some_iff {b : List UInt8} {bits : U128} :
    b.foldlM shiftIn bits = some v ↔ ∃ ds : List Nat, (∀ d ∈ ds, d < 32) ∧ b = ds.map byteOf ∧
      v = ds.foldl (fun (x : U128) d => x <<< 5 ||| BitVec.ofNat 128 d) bits := by
  induction b generalizing bits with
  | nil =>
    constructor
    · intro h
      exact ⟨[], nofun, rfl, (Option.some.inj h).symm⟩
    · rintro ⟨ds, -, hds, rfl⟩
      rw [List.map_eq_nil_iff.1 hds.symm]
      rfl
  | cons c b ih =>
    rw [List.foldlM_cons, Option.bind_eq_bind, Option.bind_eq_some_iff]
    constructor
    · rintro ⟨next, hnext, hrest⟩
      obtain ⟨n, hn, rfl⟩ := Option.map_eq_some_iff.1 hnext
      obtain ⟨ds, hlt, rfl, rfl⟩ := ih.1 hrest
      obtain ⟨hlow, rfl⟩ := byteOf_decodeChar hn
      exact ⟨n.toNat :: ds, List.forall_mem_cons.2 ⟨hlow, hlt⟩, rfl, rfl⟩
    · rintro ⟨ds, hlt, hds, rfl⟩
      obtain ⟨d, ds, rfl, rfl, rfl⟩ := List.map_eq_cons_iff.1 hds.symm
      obtain ⟨hd, hlt⟩ := List.forall_mem_cons.1 hlt
      have hnat : (UInt8.ofNat d).toNat = d := UInt8.toNat_ofNat_of_lt' (hd.trans (by decide))
      refine ⟨_, by rw [shiftIn, (byteOf_spec hd).2.1, Option.map_some], ih.2 ⟨ds, hlt, rfl, ?_⟩⟩
      rw [hnat, List.foldl_cons]

/-- The word shifted together from digits that fit. -/
theorem toNat_shiftIns (hlt : ∀ d ∈ ds, d < 32) (hfit : Radix.value 32 ds < 2 ^ 128) :
    (ds.foldl (fun (x : U128) d => x <<< 5 ||| BitVec.ofNat 128 d) 0).toNat = Radix.value 32 ds :=
  (Radix.toNat_read (by decide : 5 ≤ 128) hlt).trans (Nat.mod_eq_of_lt hfit)

/-- What parses is the text of the value's digits. -/
theorem parse_eq_some_iff : parse s = some v ↔ ∃ ds, Digits v ds ∧ s = ds.map charOf := by
  have hfirst : ∀ ds : List Nat, ds.length = ULID_LEN → (∀ d ∈ ds, d < 32) →
      ((ds.map byteOf).headD 0 > '7'.toUInt8 ↔ ¬ds.headD 0 ≤ 7) := by
    intro ds hlen hlt
    cases ds with
    | nil => cases hlen
    | cons d ds =>
      rw [List.map_cons, List.headD_cons, List.headD_cons, (byteOf_spec (hlt d (List.mem_cons_self ..))).2.2, not_le]
  rw [parse]
  constructor
  · intro h
    split_ifs at h with hguard
    obtain ⟨ds, hlt, hds, rfl⟩ := foldlM_eq_some_iff.1 h
    rw [hds, List.length_map] at hguard
    obtain ⟨hlen, hhead⟩ := not_or.1 hguard
    have hlen := not_not.1 hlen
    rw [hfirst ds hlen hlt, not_not, head_le_iff hlen hlt] at hhead
    refine ⟨ds, ⟨hlen, hlt, ?_⟩, Utf8.encode_injective (hds.trans (encode_map_charOf hlt).symm)⟩
    exact (toNat_shiftIns hlt hhead).symm
  · rintro ⟨ds, hds, rfl⟩
    have hhead : ¬(ds.map byteOf).headD 0 > '7'.toUInt8 := by
      rw [hfirst ds hds.length hds.lt, not_not, head_le_iff hds.length hds.lt, hds.value]
      exact v.isLt
    rw [encode_map_charOf hds.lt, List.length_map, if_neg (not_or.2 ⟨not_not.2 hds.length, hhead⟩), foldlM_eq_some_iff]
    refine ⟨ds, hds.lt, rfl, BitVec.eq_of_toNat_eq ?_⟩
    have hfit : Radix.value 32 ds < 2 ^ 128 := by
      rw [hds.value]
      exact v.isLt
    rw [toNat_shiftIns hds.lt hfit, hds.value]

/-! ## Showing -/

/-- The loop of `fmt` writes the word's digits. -/
theorem fill_eq (n : Nat) (bits : U128) (out : List Nat) :
    fill n bits (out.map byteOf) =
      ((Radix.write 5 n bits out).1, (Radix.write 5 n bits out).2.map byteOf) := by
  induction n generalizing bits out with
  | zero => rfl
  | succ n ih =>
    rw [fill, Radix.write, ← ih, List.map_cons]
    rfl

/-- A value has digits, they are shown, and no bit of it is left over. -/
theorem exists_digits (v : U128) :
    ∃ ds, Digits v ds ∧ display v = ds.map charOf ∧ (fill ULID_LEN v []).1 = 0 := by
  obtain ⟨ds, hout, hlen, hlt, hvalue⟩ := Radix.write_spec (by decide : 5 ≤ 128) ULID_LEN v []
  have hfill := fill_eq ULID_LEN v []
  rw [List.map_nil, hout, List.append_nil] at hfill
  have hleft : (Radix.write 5 ULID_LEN v []).1.toNat = 0 := by
    by_contra hne
    have hbig : 2 ^ (5 * ULID_LEN) ≤ (Radix.write 5 ULID_LEN v []).1.toNat * 2 ^ (5 * ULID_LEN) :=
      Nat.le_mul_of_pos_left _ (Nat.pos_of_ne_zero hne)
    have hv := v.isLt
    have hpow : (2 : Nat) ^ 128 ≤ 2 ^ (5 * ULID_LEN) := by decide
    omega
  rw [hleft, Nat.zero_mul, Nat.zero_add] at hvalue
  refine ⟨ds, ⟨hlen, hlt, hvalue.symm⟩, ?_, ?_⟩
  · rw [display, hfill, ← encode_map_charOf hlt, Utf8.decode_encode, Option.getD_some]
  · rw [hfill]
    exact BitVec.eq_of_toNat_eq hleft

theorem display_eq (h : Digits v ds) : display v = ds.map charOf := by
  obtain ⟨es, hes, hdisplay, -⟩ := exists_digits v
  rw [hdisplay, h.unique hes]

/-! ## Text and value -/

theorem parse_display (v : U128) : parse (display v) = some v := by
  obtain ⟨ds, hds, hdisplay, -⟩ := exists_digits v
  exact parse_eq_some_iff.2 ⟨ds, hds, hdisplay⟩

theorem display_of_parse (h : parse s = some v) : display v = s := by
  obtain ⟨ds, hds, rfl⟩ := parse_eq_some_iff.1 h
  exact display_eq hds

theorem display_lt_display_iff : display v < display w ↔ v < w := by
  obtain ⟨ds, hds, hv, -⟩ := exists_digits v
  obtain ⟨es, hes, hw, -⟩ := exists_digits w
  have horder := Radix.value_lt_value_iff (by decide : 1 < 32) (hds.length.trans hes.length.symm) hds.lt hes.lt
  rw [hds.value, hes.value] at horder
  rw [hv, hw, Radix.map_lt_map_iff fun d hd e he => charOf_lt_iff (hds.lt d hd) (hes.lt e he), ← horder]
  exact BitVec.lt_def.symm

/-- A value's text parses as the value, a text that parses is the text of its value, and values compare as
their texts do. -/
theorem text_is_value :
    (∀ v : U128, parse (display v) = some v) ∧ (∀ (s : Text) (v : U128), parse s = some v → display v = s) ∧
      ∀ v w : U128, v < w ↔ display v < display w :=
  ⟨parse_display, fun _ _ => display_of_parse, fun _ _ => display_lt_display_iff.symm⟩

/-- The example of the ULID specification. -/
theorem text_is_value_example :
    parse "01ARZ3NDEKTSV4RRFFQ69G5FAV".toList = some 1777027686520646174104517696511196507#128 ∧
      display 1777027686520646174104517696511196507#128 = "01ARZ3NDEKTSV4RRFFQ69G5FAV".toList := by
  have hparse : parse "01ARZ3NDEKTSV4RRFFQ69G5FAV".toList = some 1777027686520646174104517696511196507#128 := by decide +kernel
  exact ⟨hparse, text_is_value.2.1 _ _ hparse⟩

/-! ## The ULIDs of the model -/

/-- A ULID as the code's word. -/
def ofUlid (u : Ulid) : U128 := BitVec.ofNat 128 u.bits

theorem toNat_ofUlid (u : Ulid) : (ofUlid u).toNat = u.bits := by
  rw [ofUlid, BitVec.toNat_ofNat, Nat.mod_eq_of_lt u.bound]

theorem foldlM_chars {bits n : Nat} (h : s.foldlM (fun bits c => (Txtodo.decodeChar c).map (bits * 32 + ·)) bits = some n) :
    ∃ ds : List Nat, (∀ d ∈ ds, d < 32) ∧ s = ds.map charOf ∧ n = ds.foldl (fun bits d => bits * 32 + d) bits := by
  induction s generalizing bits with
  | nil => exact ⟨[], nofun, rfl, (Option.some.inj h).symm⟩
  | cons c s ih =>
    rw [List.foldlM_cons, Option.bind_eq_bind, Option.bind_eq_some_iff] at h
    obtain ⟨next, hnext, hrest⟩ := h
    obtain ⟨d, hd, rfl⟩ := Option.map_eq_some_iff.1 hnext
    obtain ⟨ds, hlt, rfl, rfl⟩ := ih hrest
    obtain ⟨hlow, rfl⟩ := charOf_decodeChar hd
    exact ⟨d :: ds, List.forall_mem_cons.2 ⟨hlow, hlt⟩, rfl, rfl⟩

theorem foldl_value (ds : List Nat) : ds.foldl (fun bits d => bits * 32 + d) 0 = Radix.value 32 ds := by
  induction ds using List.reverseRecOn with
  | nil => rfl
  | append_singleton ds d ih => rw [List.foldl_append, ih, Radix.value_concat, List.foldl_cons, List.foldl_nil]

theorem parse_of_ulid {u : Ulid} (h : Ulid.parse s = some u) : parse s = some (ofUlid u) := by
  rw [Ulid.parse] at h
  split_ifs at h with hguard
  obtain ⟨hsize, -⟩ := not_or.1 hguard
  obtain ⟨bits, hbits, hfit⟩ := Option.bind_eq_some_iff.1 h
  split_ifs at hfit with hbound
  obtain rfl := Option.some.inj hfit
  obtain ⟨ds, hlt, rfl, rfl⟩ := foldlM_chars hbits
  have hlen : ds.length = ULID_LEN := by
    rw [not_not, Utf8.size, encode_map_charOf hlt, List.length_map] at hsize
    exact hsize
  refine parse_eq_some_iff.2 ⟨ds, ⟨hlen, hlt, ?_⟩, rfl⟩
  rw [← foldl_value]
  exact (toNat_ofUlid ⟨_, hbound⟩).symm

/-- The model's ULIDs show and parse as the code's words do. -/
theorem display_ofUlid (u : Ulid) : display (ofUlid u) = u.display :=
  display_of_parse (parse_of_ulid (Ulid.parse_display u))

end Txtodo.UlidWord
