import StrictContract.Proofs.Codec.Framing

/-! # Strings — which bytes a string is read from

A string of ASCII characters and its bytes determine each other. `Codec.matches_text` states that a
string is read from exactly those bytes that it is written as: the characters that have a charset of
their own first, then the length prefix, then the others. -/

namespace StrictContract

namespace Charset

variable {cs : Charset} {c : Char}

theorem isUpper_iff : c.isUpper = true ↔ 'A'.val ≤ c.val ∧ c.val ≤ 'Z'.val :=
  decide_eq_true_iff

theorem isLower_iff : c.isLower = true ↔ 'a'.val ≤ c.val ∧ c.val ≤ 'z'.val := by
  show (decide _ && decide _) = true ↔ _
  rw [Bool.and_eq_true, decide_eq_true_iff, decide_eq_true_iff]

theorem isAlpha_iff : c.isAlpha = true ↔ c.isUpper = true ∨ c.isLower = true :=
  Iff.of_eq (Bool.or_eq_true ..)

theorem isAlphanum_iff : c.isAlphanum = true ↔ c.isAlpha = true ∨ c.isDigit = true :=
  Iff.of_eq (Bool.or_eq_true ..)

/-- Charsets have printable ASCII characters only. -/
theorem printable_of_contains (h : cs.contains c = true) : 0x20 ≤ c.toNat ∧ c.toNat < 0x7f := by
  have hle : ∀ n : UInt32, c.val ≤ n → c.toNat ≤ n.toNat := fun n => UInt32.le_iff_toNat_le.1
  have hge : ∀ n : UInt32, n ≤ c.val → n.toNat ≤ c.toNat := fun n => UInt32.le_iff_toNat_le.1
  have hlodash : c = '_' → c.toNat = 95 := by rintro rfl; decide
  have hdash : c = '-' → c.toNat = 45 := by rintro rfl; decide
  cases cs <;> simp only [contains, isAlphanum_iff, isAlpha_iff, isUpper_iff, isLower_iff,
    Char.isDigit, Bool.or_eq_true, Bool.and_eq_true, decide_eq_true_eq, beq_iff_eq] at h <;>
    grind

theorem toNat_lt_of_contains (h : cs.contains c = true) : c.toNat < 128 :=
  Nat.lt_trans (printable_of_contains h).2 (by decide)

/-- The numbers of the printable characters. -/
theorem toNat_printables : printables.map Char.toNat = (List.range 95).map (32 + ·) := by
  decide +kernel

/-- The characters of a charset are those that it contains. -/
theorem mem_chars : c ∈ cs.chars ↔ cs.contains c = true := by
  rw [chars, List.mem_filter, and_iff_right_iff_imp]
  intro h
  obtain ⟨hlow, hhigh⟩ := printable_of_contains h
  refine List.mem_map.2 ⟨c.toNat - 0x20, List.mem_range.2 (by omega), ?_⟩
  rw [Nat.add_sub_cancel' hlow, Char.ofNat_toNat]

/-- No two characters of a charset have one number. -/
theorem nodup_toNat_chars : (cs.chars.map Char.toNat).Nodup := by
  refine List.Sublist.nodup (List.filter_sublist.map _) ?_
  rw [toNat_printables]
  exact List.pairwise_map.2 (List.nodup_range.imp fun hne h => hne (Nat.add_left_cancel h))

end Charset

namespace Codec

open Reader

/-- A length of a string passes its check when it is within the bounds. -/
theorem checkTextLength_eq_ok {head n : Nat} {b : Bounds} :
    checkTextLength head b n = .ok () ↔ b.min + head ≤ n ∧ n ≤ b.max + head := by
  unfold checkTextLength
  split <;> simp_all

/-- Characters that pass their check are ASCII. -/
theorem toNat_lt_of_checkChars {rest first : Charset} {i : Nat} {cs : List Char}
    (h : checkChars rest first i cs = .ok ()) : ∀ c ∈ cs, c.toNat < 128 := by
  induction cs generalizing first i with
  | nil => nofun
  | cons c cs ih =>
    unfold checkChars at h
    split at h
    · rename_i hc
      exact List.forall_mem_cons.2 ⟨Charset.toNat_lt_of_contains hc, ih h⟩
    · cases h

/-- ASCII characters are told by their bytes. -/
theorem map_ofNat_asciiOctets {cs : List Char} (h : ∀ c ∈ cs, c.toNat < 128) :
    (asciiOctets cs).map (fun x => Char.ofNat x.toNat) = cs := by
  unfold asciiOctets
  rw [List.map_map]
  conv => rhs; rw [← List.map_id cs]
  refine List.map_congr_left fun c hc => ?_
  have hlt : c.toNat < 256 := Nat.lt_trans (h c hc) (by decide)
  simp [Nat.mod_eq_of_lt hlt]

/-- The character with a valid number has that number. -/
theorem toNat_charOfNat {n : Nat} (h : n.isValidChar) : (Char.ofNat n).toNat = n := by
  rw [Char.ofNat, dif_pos h]
  rfl

/-- Bytes of ASCII characters are told by their characters. -/
theorem asciiOctets_map_ofNat {octets : Octets} (h : ∀ x ∈ octets, x.toNat < 128) :
    asciiOctets (octets.map fun x => Char.ofNat x.toNat) = octets := by
  unfold asciiOctets
  rw [List.map_map]
  conv => rhs; rw [← List.map_id octets]
  refine List.map_congr_left fun x hx => ?_
  have hv : x.toNat.isValidChar := .inl (Nat.lt_trans (h x hx) (by decide))
  have hc : (Char.ofNat x.toNat).toNat = x.toNat := by
    exact toNat_charOfNat hv
  simp [hc]

/-- All bytes are ASCII when none is found that is not. -/
theorem nonAsciiPosition?_eq_none {octets : Octets} :
    nonAsciiPosition? octets = none ↔ ∀ x ∈ octets, x.toNat < 128 := by
  unfold nonAsciiPosition?
  simp

/-- A string is written when its length and its characters are those of the codec. -/
theorem writeText_eq_ok {first rest : Charset} {b : Bounds} {cs : List Char} {p : Octets} :
    writeText first rest b cs = .ok p ↔
      (b.min + headLength first rest ≤ cs.length ∧ cs.length ≤ b.max + headLength first rest) ∧
      checkChars rest first 0 cs = .ok () ∧
      p = (asciiOctets cs).take (headLength first rest) ++
        b.lengthPrefix ((asciiOctets cs).length - headLength first rest) ++
        (asciiOctets cs).drop (headLength first rest) := by
  simp only [writeText, bind_eq_ok, pure_eq_ok]
  constructor
  · rintro ⟨⟨⟩, hn, ⟨⟩, hc, hp⟩
    exact ⟨checkTextLength_eq_ok.1 hn, hc, hp.symm⟩
  · rintro ⟨hn, hc, hp⟩
    exact ⟨(), checkTextLength_eq_ok.2 hn, (), hc, hp.symm⟩

@[simp] theorem length_asciiOctets (cs : List Char) : (asciiOctets cs).length = cs.length :=
  List.length_map _

/-- The bytes of a string are turned into its characters when these are those of the codec. -/
theorem matches_chars (first rest : Charset) (b : Bounds) (octets : Octets) :
    (match nonAsciiPosition? octets with
      | some i => refuse (.nonAscii i)
      | none => do
        let cs := octets.map fun x => Char.ofNat x.toNat
        checkTextLength (headLength first rest) b cs.length
        checkChars rest first 0 cs
        return .text (String.ofList cs) : Reader Value).Matches fun v p =>
      p = [] ∧ ∃ cs, octets = asciiOctets cs ∧ v = .text (String.ofList cs) ∧
        (b.min + headLength first rest ≤ cs.length ∧ cs.length ≤ b.max + headLength first rest) ∧
        checkChars rest first 0 cs = .ok () := by
  cases ho : nonAsciiPosition? octets with
  | some i =>
    refine (matches_refuse _).congr fun v p => ?_
    constructor
    · exact False.elim
    · rintro ⟨-, cs, rfl, -, -, hc⟩
      have hnone : nonAsciiPosition? (asciiOctets cs) = none := by
        rw [nonAsciiPosition?_eq_none]
        intro x hx
        obtain ⟨c, hcs, rfl⟩ := List.mem_map.1 hx
        have := toNat_lt_of_checkChars hc c hcs
        simp
        omega
      rw [hnone] at ho
      cases ho
  | none =>
    have hascii := asciiOctets_map_ofNat (nonAsciiPosition?_eq_none.1 ho)
    refine (matches_bind (matches_lift _) fun _ => matches_bind (matches_lift _) fun _ =>
      matches_pure _).congr fun v p => ?_
    constructor
    · rintro ⟨⟨⟩, -, -, rfl, ⟨hn, rfl⟩, ⟨⟩, -, -, rfl, ⟨hc, rfl⟩, rfl, rfl⟩
      exact ⟨rfl, _, hascii.symm, rfl, checkTextLength_eq_ok.1 hn, hc⟩
    · rintro ⟨rfl, cs, rfl, rfl, hn, hc⟩
      rw [map_ofNat_asciiOctets (toNat_lt_of_checkChars hc)]
      exact ⟨(), [], [], rfl, ⟨checkTextLength_eq_ok.2 hn, rfl⟩, (), [], [], rfl, ⟨hc, rfl⟩, rfl, rfl⟩

/-- A string is read from the bytes that it is written as. -/
theorem matches_text (first rest : Charset) (b : Bounds) :
    (Reader.text first rest b).Matches fun v p => ∃ cs, v = .text (String.ofList cs) ∧
      writeText first rest b cs = .ok p := by
  unfold Reader.text
  refine (matches_bind (matches_take _) fun front => matches_bind (matches_nat _) fun n =>
    matches_bind (matches_lift _) fun _ => matches_bind (matches_take n) fun tail =>
      matches_chars first rest b (front ++ tail)).congr fun v p => ?_
  simp only [writeText_eq_ok]
  constructor
  · rintro ⟨front, _, _, rfl, ⟨rfl, hfront⟩, n, q, _, rfl, ⟨rfl, hq⟩, ⟨⟩, _, _, rfl, ⟨hn, rfl⟩,
      tail, _, _, rfl, ⟨rfl, htail⟩, rfl, cs, ho, rfl, hlen, hcs⟩
    refine ⟨cs, rfl, hlen, hcs, ?_⟩
    rw [← ho, ← hfront, List.take_left, List.drop_left, List.length_append, Nat.add_sub_cancel_left,
      htail, Bounds.lengthPrefix, ← hq, Octets.ofNat_toNat]
    simp
  · rintro ⟨cs, rfl, hlen, hcs, rfl⟩
    -- the length prefix counts the characters behind the head
    have hadmits : b.admits ((asciiOctets cs).length - headLength first rest) = true := by
      rw [length_asciiOctets]
      exact decide_eq_true (by omega)
    have hfront : ((asciiOctets cs).take (headLength first rest)).length = headLength first rest := by
      rw [List.length_take, length_asciiOctets]
      omega
    refine ⟨_, _, _, List.append_assoc _ _ _, ⟨rfl, hfront⟩, _, _, _, rfl,
      ⟨rfl, Octets.length_ofNat _ _⟩, (), [], _, rfl, ⟨?_, rfl⟩, _, _, [],
      (List.append_nil _).symm, ⟨rfl, ?_⟩, rfl, cs, List.take_append_drop _ _, rfl, hlen, hcs⟩
    · rw [Bounds.lengthPrefix, Octets.toNat_ofNat (Bounds.lt_of_admits hadmits),
        checkTextLength_eq_ok, length_asciiOctets]
      omega
    · rw [Bounds.lengthPrefix, Octets.toNat_ofNat (Bounds.lt_of_admits hadmits), List.length_drop]

end Codec
end StrictContract
