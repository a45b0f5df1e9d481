import StrictContract.Proofs.Codec.Spelling
import StrictContract.Proofs.Enumeration
import StrictContract.TypeDef

/-! # Core forms — codecs with a definition of their own kind

Several codecs have no kind of definition of their own: byte strings are lists of bytes, strings are
lists of members of a charset, optional values are unions, wrapped structs are their fields. The
**core form** of a codec says so in terms of codecs, and spells the same byte strings. -/

namespace StrictContract

/-- The enumeration of the truth values. -/
def Enumeration.truth : Enumeration where
  name := "Bool"
  names := [("false", 0), ("true", 1)]

/-- The enumeration of the characters of a charset. -/
def Enumeration.ofCharset (cs : Charset) : Enumeration where
  name := cs.name
  names := cs.chars.map fun c => (Charset.charName c, c.toNat)

/-- No two characters are one member. -/
theorem Enumeration.members_ofCharset (cs : Charset) :
    (ofCharset cs).members = cs.chars.map fun c => (Charset.charName c, c.toNat) := by
  refine firstByKey_eq_self ?_
  rw [ofCharset, List.map_map]
  exact Charset.nodup_toNat_chars

namespace Codec

/-- The characters of a charset, each as its byte. -/
def character (cs : Charset) : Codec := .enumeration (.ofCharset cs)

mutual

/-- The **core form** of a codec. -/
def core : Codec → Codec
  | bool => enumeration .truth
  | sint size => uint size
  | byteArray size => array (uint 1) size
  | id _ => array (uint 1) 32
  | bytes b label => list (uint 1) b label
  | ascii first rest b label =>
    let tail := list (character rest) b label
    if isSplit first rest then
      struct "" [("first", character first), ("rest", tail)] .mapping false
    else tail
  | list item b label => list (core item) b label
  | set item b form label => set (core item) b form label
  | map key value b form label => map (core key) (core value) b form label
  | array item count => array (core item) count
  | option inner => union "" [(0, "none", unit), (1, "some", core inner)]
  | tuple items => tuple (coreItems items)
  | struct name fields form wrapped =>
    match fields, wrapped with
    | (_, c) :: _, true => core c
    | [], _ => unit
    | fields, false => struct name (coreFields fields) form false
  | union name variants => union name (coreVariants variants)
  | c => c

/-- The core forms of several codecs. -/
def coreItems : List Codec → List Codec
  | [] => []
  | c :: rest => core c :: coreItems rest

/-- The core forms of the codecs of fields. -/
def coreFields : List (String × Codec) → List (String × Codec)
  | [] => []
  | (name, c) :: rest => (name, core c) :: coreFields rest

/-- The core forms of the codecs of variants. -/
def coreVariants : List (Nat × String × Codec) → List (Nat × String × Codec)
  | [] => []
  | (tag, name, c) :: rest => (tag, name, core c) :: coreVariants rest

end

attribute [local simp] core coreItems coreFields coreVariants
attribute [local simp] Spells SpellsItems SpellsFields SpellsVariant

/-! ## Strings -/

/-- A character is spelled as its byte. -/
theorem spells_character {cs : Charset} {p : Octets} :
    (character cs).Spells p ↔ ∃ c, cs.contains c = true ∧ p = [UInt8.ofNat c.toNat] := by
  rw [character, Spells]
  constructor
  · rintro ⟨tag, name, hmem, rfl⟩
    obtain ⟨c, hc, h⟩ := List.mem_map.1 hmem
    refine ⟨c, Charset.mem_chars.1 hc, ?_⟩
    rw [(Prod.mk.inj h).2, UInt8.ofNat_toNat]
  · rintro ⟨c, hc, rfl⟩
    refine ⟨_, Charset.charName c, List.mem_map.2 ⟨c, Charset.mem_chars.2 hc, ?_⟩, rfl⟩
    -- a character of a charset is an ASCII character, so its number is its byte
    have hlt : c.toNat < 256 := Nat.lt_trans (Charset.toNat_lt_of_contains hc) (by decide)
    rw [UInt8.toNat_ofNat', Nat.mod_eq_of_lt hlt]

/-- Characters of one charset pass their check when it contains all of them. -/
theorem checkChars_self {cs : Charset} {i : Nat} {text : List Char} :
    checkChars cs cs i text = .ok () ↔ ∀ c ∈ text, cs.contains c = true := by
  induction text generalizing i with
  | nil => simp [checkChars]
  | cons c text ih =>
    rw [checkChars, List.forall_mem_cons]
    by_cases hc : cs.contains c = true
    · rw [if_pos hc, ih, and_iff_right hc]
    · rw [if_neg hc]
      exact ⟨fun h => absurd h fail_ne_ok, fun h => absurd h.1 hc⟩

/-- The bytes of a string are those of its characters, one after another. -/
theorem flatten_characters (text : List Char) :
    (text.map fun c => [UInt8.ofNat c.toNat]).flatten = asciiOctets text :=
  List.map_eq_flatMap.symm

/-- A string over one charset is the list of its characters. -/
theorem spells_ascii_self {cs : Charset} {b : Bounds} {label : Option String} {p : Octets} :
    (ascii cs cs b label).Spells p ↔ (list (character cs) b label).Spells p := by
  have hhead : headLength cs cs = 0 := by simp [headLength, isSplit]
  rw [Spells, Spells]
  simp only [writeText_eq_ok, hhead, checkChars_self, length_asciiOctets, Nat.add_zero, Nat.sub_zero,
    List.take_zero, List.drop_zero, List.nil_append, spells_character]
  constructor
  · rintro ⟨text, hn, hc, rfl⟩
    refine ⟨text.map fun c => [UInt8.ofNat c.toNat], ?_, ?_, ?_⟩
    · rw [List.length_map]
      exact decide_eq_true hn
    · exact List.forall_mem_map.2 fun c hmem => ⟨c, hc c hmem, rfl⟩
    · rw [List.length_map, flatten_characters]
  · rintro ⟨ps, hn, hps, rfl⟩
    obtain ⟨text, rfl, hc⟩ := exists_eq_map fun q hq => (hps q hq).imp fun c h => ⟨h.2.symm, h.1⟩
    rw [List.length_map] at hn ⊢
    exact ⟨text, of_decide_eq_true hn, hc, by rw [flatten_characters]⟩

/-- A string with a first character of its own is this character and a string of the others. -/
theorem spells_ascii_split {first rest : Charset} (hsplit : isSplit first rest = true) {b : Bounds}
    {label : Option String} {p : Octets} :
    (ascii first rest b label).Spells p ↔ ∃ q t, p = q ++ t ∧ (character first).Spells q ∧
      (ascii rest rest b label).Spells t := by
  -- the prefix does not count the first character, so both sides have the same length prefix
  have hhead : headLength first rest = 1 := by rw [headLength, if_pos hsplit]
  have hself : headLength rest rest = 0 := by simp [headLength, isSplit]
  simp only [Spells, spells_character, writeText_eq_ok, hhead, hself, checkChars_self,
    length_asciiOctets, Nat.add_zero, Nat.sub_zero, List.take_zero, List.drop_zero, List.nil_append]
  constructor
  · rintro ⟨text, hn, hc, rfl⟩
    cases text with
    | nil => simp at hn
    | cons c text =>
      rw [checkChars] at hc
      split at hc
      · rename_i hfirst
        rw [List.length_cons] at hn
        exact ⟨[UInt8.ofNat c.toNat], _, rfl, ⟨c, hfirst, rfl⟩, text, ⟨by omega, by omega⟩,
          checkChars_self.1 hc, rfl⟩
      · cases hc
  · rintro ⟨_, _, rfl, ⟨c, hfirst, rfl⟩, text, hn, hc, rfl⟩
    refine ⟨c :: text, ?_, ?_, rfl⟩
    · rw [List.length_cons]
      exact ⟨by omega, by omega⟩
    · rw [checkChars, if_pos hfirst]
      exact checkChars_self.2 hc

/-! ## Core forms spell the same -/

/-- Bytes in a row are a byte string. -/
theorem flatten_bytes {ps : List Octets} (h : ∀ q ∈ ps, (uint 1).Spells q) :
    ps.flatten.length = ps.length := by
  induction ps with
  | nil => rfl
  | cons q ps ih =>
    rw [List.forall_mem_cons] at h
    have hq : q.length = 1 := h.1
    rw [List.flatten_cons, List.length_append, hq, ih h.2, List.length_cons, Nat.add_comm]

/-- A byte string is bytes in a row. -/
theorem exists_bytes (octets : Octets) : ∃ ps : List Octets, ps.length = octets.length ∧
    (∀ q ∈ ps, (uint 1).Spells q) ∧ octets = ps.flatten := by
  refine ⟨octets.map fun b => [b], List.length_map _, List.forall_mem_map.2 fun b _ => rfl, ?_⟩
  rw [← List.flatMap, List.flatMap_singleton']

/-- A byte string of one length is an array of bytes. -/
theorem spells_byteArray {size : Nat} {p : Octets} :
    (byteArray size).Spells p ↔ (array (uint 1) size).Spells p := by
  constructor
  · rintro (rfl : p.length = size)
    obtain ⟨ps, hn, hps, hp⟩ := exists_bytes p
    exact ⟨ps, hn, hps, hp⟩
  · rintro ⟨ps, rfl, hps, rfl⟩
    exact flatten_bytes hps

/-- A byte string is a list of bytes. -/
theorem spells_bytes {b : Bounds} {label : Option String} {p : Octets} :
    (bytes b label).Spells p ↔ (list (uint 1) b label).Spells p := by
  constructor
  · rintro ⟨octets, hn, rfl⟩
    obtain ⟨ps, hlength, hps, rfl⟩ := exists_bytes octets
    exact ⟨ps, hlength ▸ hn, hps, by rw [hlength]⟩
  · rintro ⟨ps, hn, hps, rfl⟩
    refine ⟨ps.flatten, ?_, ?_⟩
    · rwa [flatten_bytes hps]
    · rw [flatten_bytes hps]

/-- Items in a row are spelled alike by codecs that spell alike. -/
theorem spellsItems_congr {α : Type} {xs : List α} {f g : α → Codec}
    (h : ∀ x ∈ xs, ∀ p, (f x).Spells p ↔ (g x).Spells p) {p : Octets} :
    SpellsItems (xs.map f) p ↔ SpellsItems (xs.map g) p := by
  induction xs generalizing p with
  | nil => rfl
  | cons x xs ih =>
    rw [List.forall_mem_cons] at h
    rw [List.map_cons, List.map_cons, SpellsItems, SpellsItems]
    simp only [h.1, ih h.2]

section

variable {item item' : Codec} (hitem : ∀ p, item.Spells p ↔ item'.Spells p)

include hitem

/-- Lists are spelled alike when their items are. -/
theorem spells_list_congr {b : Bounds} {label label' : Option String} {p : Octets} :
    (list item b label).Spells p ↔ (list item' b label').Spells p := by
  rw [Spells, Spells]
  simp only [hitem]

/-- Sets are spelled alike when their elements are. -/
theorem spells_set_congr {b : Bounds} {form form' : SetForm} {label label' : Option String}
    {p : Octets} :
    (set item b form label).Spells p ↔ (set item' b form' label').Spells p := by
  rw [Spells, Spells]
  simp only [hitem]

/-- Arrays are spelled alike when their items are. -/
theorem spells_array_congr {count : Nat} {p : Octets} :
    (array item count).Spells p ↔ (array item' count).Spells p := by
  rw [Spells, Spells]
  simp only [hitem]

/-- Maps are spelled alike when their keys and values are. -/
theorem spells_map_congr {value value' : Codec} (hvalue : ∀ p, value.Spells p ↔ value'.Spells p)
    {b : Bounds} {form form' : MapForm} {label label' : Option String} {p : Octets} :
    (map item value b form label).Spells p ↔ (map item' value' b form' label').Spells p := by
  rw [Spells, Spells]
  simp only [hitem, hvalue]

end

/-- A struct spells what the codecs of its fields spell one after another. -/
theorem spells_struct {name : String} {fields : List (String × Codec)} {form : StructForm}
    {wrapped : Bool} {p : Octets} :
    (struct name fields form wrapped).Spells p ↔ SpellsFields fields p := by
  rw [Spells]

/-- Two fields are spelled one after the other. -/
theorem spellsFields_pair {f g : String × Codec} {p : Octets} :
    SpellsFields [f, g] p ↔ ∃ q t, p = q ++ t ∧ f.2.Spells q ∧ g.2.Spells t := by
  simp only [SpellsFields]
  constructor
  · rintro ⟨q, _, rfl, hq, t, _, rfl, ht, rfl⟩
    exact ⟨q, t, by rw [List.append_nil], hq, ht⟩
  · rintro ⟨q, t, rfl, hq, ht⟩
    exact ⟨q, t, rfl, hq, t, [], (List.append_nil t).symm, ht, rfl⟩

/-- A union spells a tag and what a variant with the tag spells. -/
theorem spells_union {name : String} {variants : List (Nat × String × Codec)} {p : Octets} :
    (union name variants).Spells p ↔ ∃ (tag : UInt8) (q : Octets), p = tag :: q ∧
      ∃ x ∈ variants, x.1 = tag.toNat ∧ x.2.2.Spells q := by
  rw [Spells]
  simp only [spellsVariant_iff]

theorem coreItems_eq_map (items : List Codec) : coreItems items = items.map core := by
  induction items with
  | nil => rfl
  | cons c rest ih => rw [coreItems, ih, List.map_cons]

theorem coreFields_eq_map (fields : List (String × Codec)) :
    coreFields fields = fields.map fun f => (f.1, core f.2) := by
  induction fields with
  | nil => rfl
  | cons f rest ih => rw [coreFields, ih, List.map_cons]

theorem coreVariants_eq_map (variants : List (Nat × String × Codec)) :
    coreVariants variants = variants.map fun x => (x.1, x.2.1, core x.2.2) := by
  induction variants with
  | nil => rfl
  | cons x rest ih => rw [coreVariants, ih, List.map_cons]

/-- A struct with fields is in core form when these are. -/
theorem core_struct {name : String} {f : String × Codec} {rest : List (String × Codec)}
    {form : StructForm} :
    (struct name (f :: rest) form false).core =
      struct name (coreFields (f :: rest)) form false := by
  rw [core]
  nofun

end Codec

end StrictContract
