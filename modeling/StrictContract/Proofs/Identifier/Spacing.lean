import StrictContract.Identifier.Reading

/-! # Spacing — the texts that are read as one identifier

An identifier is shown in one way and read from many texts: blanks may stand around it, those of ASCII
also between the pairs of digits, and each digit may be a capital. The relation `Octets.SpacedHex` is
the grammar of what is read, and `Text.folded` undoes this freedom. Main statements:
`Id.ofText?_eq_ok`, a text is read exactly if the grammar derives it for the bytes that are shown, and
`Id.texts_round_trip`, reading and showing are inverse up to `Text.folded`. -/

namespace StrictContract

/-! ## Blanks -/

namespace Text

/-- The characters that are no blanks. -/
def unblanked (cs : List Char) : List Char := cs.filter fun c => !isBlank c

/-- The text without its blanks and with small letters for capitals. The capitals are those of ASCII;
no identifier is read from a text with other letters. -/
def folded (s : String) : String := String.ofList ((unblanked s.toList).map Char.toLower)

@[simp] theorem unblanked_reverse (cs : List Char) : unblanked cs.reverse = (unblanked cs).reverse :=
  List.filter_reverse ..

theorem unblanked_cons_of_blank {c : Char} (h : isBlank c = true) (cs : List Char) :
    unblanked (c :: cs) = unblanked cs := by
  simp [unblanked, h]

theorem unblanked_cons_of_not_blank {c : Char} (h : isBlank c = false) (cs : List Char) :
    unblanked (c :: cs) = c :: unblanked cs := by
  simp [unblanked, h]

theorem unblanked_dropWhile (cs : List Char) : unblanked (cs.dropWhile isBlank) = unblanked cs := by
  induction cs with
  | nil => rfl
  | cons c cs ih =>
    by_cases h : isBlank c = true
    · rw [List.dropWhile_cons_of_pos h, unblanked_cons_of_blank h, ih]
    · rw [List.dropWhile_cons_of_neg h]

/-- Only blanks are cut off. -/
theorem unblanked_trim (cs : List Char) : unblanked (trim cs) = unblanked cs := by
  rw [trim, unblanked_reverse, unblanked_dropWhile, unblanked_reverse, List.reverse_reverse,
    unblanked_dropWhile]

/-- Without blanks there is nothing to cut off. -/
theorem trim_eq_self {cs : List Char} (h : ∀ c ∈ cs, isBlank c = false) : trim cs = cs := by
  have hdrop : ∀ ds : List Char, (∀ c ∈ ds, isBlank c = false) → ds.dropWhile isBlank = ds := by
    intro ds hds
    cases ds with
    | nil => rfl
    | cons d ds => exact List.dropWhile_cons_of_neg (by simp [hds d List.mem_cons_self])
  have hback : ∀ c ∈ cs.reverse, isBlank c = false := fun c hc => h c (List.mem_reverse.1 hc)
  rw [trim, hdrop cs h, hdrop _ hback, List.reverse_reverse]

theorem isBlank_of_isAsciiBlank {c : Char} (h : isAsciiBlank c = true) : isBlank c = true := by
  have hsub : [0x09, 0x0a, 0x0b, 0x0c, 0x0d, 0x20] ⊆ blanks := by decide
  exact List.contains_iff_mem.2 (hsub (List.contains_iff_mem.1 h))

end Text

namespace Octets

/-! ## Digits -/

theorem toNat_lt_of_hexValue? {c : Char} {n : Nat} (h : hexValue? c = some n) : c.toNat < 0x80 := by
  have hle : c ≤ '9' ∨ c ≤ 'f' ∨ c ≤ 'F' := by
    unfold hexValue? at h
    grind
  rcases hle with hle | hle | hle <;> exact Nat.lt_of_le_of_lt hle (by decide)

/-- A digit of either case has a value below sixteen, is shown for this value but for its case, and is
no blank. -/
theorem digit_of_hexValue? {c : Char} {n : Nat} (h : hexValue? c = some n) :
    n < 16 ∧ hexDigit n = c.toLower ∧ Text.isBlank c = false := by
  -- digits are ASCII, where each character is looked at
  have hall : ∀ k : Fin 128, ∀ m ∈ hexValue? (Char.ofNat k), m < 16 ∧
      hexDigit m = (Char.ofNat k).toLower ∧ Text.isBlank (Char.ofNat k) = false := by decide
  have hc := hall ⟨c.toNat, toNat_lt_of_hexValue? h⟩ n
  rw [Char.ofNat_toNat] at hc
  exact hc h

theorem isAsciiBlank_of_hexValue? {c : Char} {n : Nat} (h : hexValue? c = some n) :
    Text.isAsciiBlank c = false := by
  rw [Bool.eq_false_iff]
  intro hblank
  have := Text.isBlank_of_isAsciiBlank hblank
  rw [(digit_of_hexValue? h).2.2] at this
  cases this

/-- The two digits of a byte come back from the byte. -/
theorem hexPair_ofNat {h l : Nat} (hh : h < 16) (hl : l < 16) :
    hexPair (UInt8.ofNat (16 * h + l)) = [hexDigit h, hexDigit l] := by
  have hn : (UInt8.ofNat (16 * h + l)).toNat = 16 * h + l := by
    rw [UInt8.toNat_ofNat']
    omega
  have hhigh : (16 * h + l) / 16 = h := by omega
  have hlow : (16 * h + l) % 16 = l := by omega
  rw [hexPair, hn, hhigh, hlow]

/-! ## Spaced digits -/

/-- A text is **spaced hex** of a byte string when it consists of the pairs of digits of the bytes, in
either case, with blanks of ASCII before, between and behind the pairs. -/
inductive SpacedHex : List Char → Octets → Prop where
  | nil : SpacedHex [] []
  | blank {c : Char} {cs : List Char} {bs : Octets} (hc : Text.isAsciiBlank c = true)
      (hcs : SpacedHex cs bs) : SpacedHex (c :: cs) bs
  | pair {hi lo : Char} {h l : Nat} {cs : List Char} {bs : Octets} (hhi : hexValue? hi = some h)
      (hlo : hexValue? lo = some l) (hcs : SpacedHex cs bs) :
      SpacedHex (hi :: lo :: cs) (UInt8.ofNat (16 * h + l) :: bs)

namespace SpacedHex

variable {cs : List Char} {bs : Octets}

/-- Spaced hex has blanks of ASCII and digits only. -/
theorem blank_or_digit (h : SpacedHex cs bs) :
    ∀ c ∈ cs, Text.isAsciiBlank c = true ∨ ∃ n, hexValue? c = some n := by
  induction h with
  | nil => simp
  | blank hc _ ih => exact List.forall_mem_cons.2 ⟨.inl hc, ih⟩
  | pair hhi hlo _ ih =>
    exact List.forall_mem_cons.2 ⟨.inr ⟨_, hhi⟩, List.forall_mem_cons.2 ⟨.inr ⟨_, hlo⟩, ih⟩⟩

/-- Nothing outside ASCII occurs in spaced hex. -/
theorem toNat_lt (h : SpacedHex cs bs) {c : Char} (hc : c ∈ cs) : c.toNat < 0x80 := by
  rcases h.blank_or_digit c hc with hblank | ⟨n, hn⟩
  · have hlt : ∀ n ∈ [0x09, 0x0a, 0x0b, 0x0c, 0x0d, 0x20], n < 0x80 := by decide
    exact hlt _ (List.contains_iff_mem.1 hblank)
  · exact toNat_lt_of_hexValue? hn

/-- What is left of spaced hex without its blanks and capitals are the digits that show the bytes. -/
theorem map_toLower_unblanked (h : SpacedHex cs bs) :
    (Text.unblanked cs).map Char.toLower = hexChars bs := by
  induction h with
  | nil => rfl
  | blank hc _ ih => rw [Text.unblanked_cons_of_blank (Text.isBlank_of_isAsciiBlank hc), ih]
  | pair hhi hlo _ ih =>
    obtain ⟨hh, hhigh, hhblank⟩ := digit_of_hexValue? hhi
    obtain ⟨hl, hlow, hlblank⟩ := digit_of_hexValue? hlo
    rw [Text.unblanked_cons_of_not_blank hhblank, Text.unblanked_cons_of_not_blank hlblank,
      List.map_cons, List.map_cons, ih, ← hhigh, ← hlow, hexChars, hexChars, List.flatMap_cons,
      hexPair_ofNat hh hl]
    rfl

end SpacedHex

/-- The digits that show a byte string are spaced hex of it. -/
theorem spacedHex_hexChars (bs : Octets) : SpacedHex (hexChars bs) bs := by
  induction bs with
  | nil => exact .nil
  | cons b bs ih =>
    have hb : b.toNat < 256 := b.toNat_lt
    have hhi := hexValue?_hexDigit (b.toNat / 16) (by omega)
    have hlo := hexValue?_hexDigit (b.toNat % 16) (by omega)
    have hpair := SpacedHex.pair hhi hlo ih
    rwa [Nat.div_add_mod, UInt8.ofNat_toNat] at hpair

/-- No blank is among the digits that show a byte string. -/
theorem isBlank_of_mem_hexChars {bs : Octets} {c : Char} (hc : c ∈ hexChars bs) :
    Text.isBlank c = false := by
  obtain ⟨b, -, hcb⟩ := List.mem_flatMap.1 hc
  have hb : b.toNat < 256 := b.toNat_lt
  have hdigit : ∀ n < 16, Text.isBlank (hexDigit n) = false := fun n hn =>
    (digit_of_hexValue? (hexValue?_hexDigit n hn)).2.2
  rw [hexPair, List.mem_cons, List.mem_singleton] at hcb
  rcases hcb with rfl | rfl
  · exact hdigit (b.toNat / 16) (by omega)
  · exact hdigit (b.toNat % 16) (by omega)

/-! ## Reading -/

/-- The loop reads spaced hex behind what it has collected. -/
theorem SpacedHex.ofSpacedHexChars_eq_ok {cs : List Char} {bs : Octets} (h : SpacedHex cs bs) (i : Nat)
    (acc : Octets) : ofSpacedHexChars cs i acc = .ok (acc.reverse ++ bs) := by
  induction h generalizing i acc with
  | nil => simp [Octets.ofSpacedHexChars]
  | @blank c cs bs hc hcs ih =>
    -- the loop looks at two characters, so the last one is a case of its own
    cases cs with
    | nil =>
      cases hcs
      simp [Octets.ofSpacedHexChars, hc]
    | cons d ds => simp [Octets.ofSpacedHexChars, hc, ih]
  | pair hhi hlo _ ih =>
    simp [Octets.ofSpacedHexChars, isAsciiBlank_of_hexValue? hhi, hhi, hlo, ih]

/-- What the loop reads is spaced hex behind what it has collected. -/
theorem spacedHex_of_ofSpacedHexChars {cs : List Char} {i : Nat} {acc bs : Octets}
    (h : ofSpacedHexChars cs i acc = .ok bs) : ∃ more, SpacedHex cs more ∧ bs = acc.reverse ++ more := by
  -- on the cases of the loop, of which the third and the last two refuse
  fun_induction ofSpacedHexChars cs i acc with
  | case1 i acc => exact ⟨[], .nil, by simpa using h.symm⟩
  | case2 i acc c hc => exact ⟨[], .blank hc .nil, by simpa using h.symm⟩
  | case3 => cases h
  | case4 hi lo rest i acc hc ih =>
    obtain ⟨more, hmore, rfl⟩ := ih h
    exact ⟨more, .blank hc hmore, rfl⟩
  | case5 hi lo rest i acc _ high low hlo hhi ih =>
    obtain ⟨more, hmore, rfl⟩ := ih h
    exact ⟨_, .pair hhi hlo hmore, by simp⟩
  | case6 => cases h
  | case7 => cases h

/-- A digit text is read exactly if it is spaced hex of what is read. -/
theorem ofSpacedHex_eq_ok {cs : List Char} {bs : Octets} :
    ofSpacedHex cs = .ok bs ↔ SpacedHex cs bs := by
  constructor
  · intro h
    unfold ofSpacedHex at h
    split at h
    · cases h
    · obtain ⟨more, hmore, rfl⟩ := spacedHex_of_ofSpacedHexChars h
      exact hmore
  · intro h
    -- no character outside ASCII is found, so the loop decides
    have hascii : cs.findIdx? (fun c => decide (0x80 ≤ c.toNat)) = none :=
      List.findIdx?_eq_none_iff.2 fun c hc => decide_eq_false (Nat.not_le.2 (h.toNat_lt hc))
    rw [ofSpacedHex, hascii]
    exact h.ofSpacedHexChars_eq_ok 0 []

/-- A blank within a pair is refused, so that not every text with the right digits is read. -/
example : ofSpacedHex ['0', ' ', '0'] = .error 1 := rfl

end Octets

namespace Id

variable {kind : IdKind}

/-- Bytes are read as the identifier that has them. -/
theorem ofOctets?_eq_ok {bs : Octets} {x : Id kind} : ofOctets? kind bs = .ok x ↔ x.octets = bs := by
  unfold ofOctets?
  constructor
  · intro h
    split at h
    · cases h
      rfl
    · cases h
  · rintro rfl
    rw [dif_pos x.length_octets]

/-- The order in which bytes are shown is undone by taking it again. -/
theorem shownOctets_eq_iff {bs : Octets} {x : Id kind} :
    x.shownOctets = bs ↔ x.octets = if kind = .transaction then bs.reverse else bs := by
  unfold shownOctets
  by_cases h : kind = .transaction
  · rw [if_pos h, if_pos h, List.reverse_eq_iff]
  · rw [if_neg h, if_neg h]

/-- A text is read as an identifier exactly if, blanks around it apart, it is spaced hex of the bytes in
the order in which they are shown. -/
theorem ofText?_eq_ok {s : String} {x : Id kind} :
    ofText? kind s = .ok x ↔ Octets.SpacedHex (Text.trim s.toList) x.shownOctets := by
  rw [← Octets.ofSpacedHex_eq_ok]
  unfold ofText?
  constructor
  · intro h
    split at h
    · cases h
    · rename_i bs hbs
      rw [hbs, shownOctets_eq_iff.2 (ofOctets?_eq_ok.1 h)]
  · intro h
    rw [h]
    exact ofOctets?_eq_ok.2 (shownOctets_eq_iff.1 rfl)

/-- The text of an identifier is read as this identifier. -/
theorem ofText?_text (x : Id kind) : ofText? kind x.text = .ok x := by
  have hcut : Text.trim (Octets.hexChars x.shownOctets) = Octets.hexChars x.shownOctets :=
    Text.trim_eq_self fun _ => Octets.isBlank_of_mem_hexChars
  rw [ofText?_eq_ok, text, Octets.toHex, String.toList_ofList, hcut]
  exact Octets.spacedHex_hexChars x.shownOctets

/-- A text that is read as an identifier is the identifier's text but for blanks and capitals. -/
theorem text_of_ofText? {s : String} {x : Id kind} (h : ofText? kind s = .ok x) :
    x.text = Text.folded s := by
  rw [text, Octets.toHex, Text.folded, ← Text.unblanked_trim,
    (ofText?_eq_ok.1 h).map_toLower_unblanked]

/-- Identifiers of one kind are told apart by their texts. -/
theorem text_injective {x y : Id kind} (h : x.text = y.text) : x = y := by
  have hx := ofText?_text x
  rw [h, ofText?_text y] at hx
  exact (Except.ok.inj hx).symm

/-- The text of every identifier is read as that identifier. A text that is read as an identifier is,
without its blanks and in small letters, the text of the identifier. So two texts that are read as
identifiers are read as the same if and only if they agree up to blanks and the case of letters. -/
theorem texts_round_trip (kind : IdKind) :
    (∀ x : Id kind, ofText? kind x.text = .ok x) ∧
      (∀ (s : String) (x : Id kind), ofText? kind s = .ok x → x.text = Text.folded s) ∧
      ∀ (s t : String) (x y : Id kind), ofText? kind s = .ok x → ofText? kind t = .ok y →
        (x = y ↔ Text.folded s = Text.folded t) := by
  refine ⟨ofText?_text, fun s x => text_of_ofText?, fun s t x y hs ht => ?_⟩
  -- the folded texts are those of the identifiers, which tell them apart
  rw [← text_of_ofText? hs, ← text_of_ofText? ht]
  constructor
  · rintro rfl
    rfl
  · exact text_injective

/-- A transaction id in capitals, with an em space in front, blanks between the bytes and a line feed
behind, beside its text. -/
theorem texts_round_trip_spaced : ∃ x y : Txid,
    ofText? .transaction
      "\u2003FF 1E1D\t1C1B1A19181716151413121110 0F0E0D0C0B0A0908070605040302  01 0A\n" = .ok x ∧
    ofText? .transaction
      "ff1e1d1c1b1a191817161514131211100f0e0d0c0b0a0908070605040302010a" = .ok y ∧
    x.octets.head? = some 0x0a ∧ x = y ∧ ofText? .transaction x.text = .ok x ∧
    x.text = "ff1e1d1c1b1a191817161514131211100f0e0d0c0b0a0908070605040302010a" := by
  obtain ⟨hshown, hread, hsame⟩ := texts_round_trip .transaction
  have hs : ofText? .transaction
      "\u2003FF 1E1D\t1C1B1A19181716151413121110 0F0E0D0C0B0A0908070605040302  01 0A\n" = .ok _ := rfl
  have ht : ofText? .transaction
      "ff1e1d1c1b1a191817161514131211100f0e0d0c0b0a0908070605040302010a" = .ok _ := rfl
  refine ⟨_, _, hs, ht, rfl, (hsame _ _ _ _ hs ht).2 ?_, hshown _, (hread _ _ hs).trans ?_⟩
  · exact congrArg String.ofList (by decide)
  · exact congrArg String.ofList (by decide)

end Id

end StrictContract
