import StrictContract.Proofs.Codec.Recasting
import StrictContract.Proofs.TypeSystem.Binding
import StrictContract.Proofs.TypeSystem.Canonical
import StrictContract.Proofs.TypeSystem.Closure

/-! # Verbatim codecs — recognised shapes against plain ones

A stored definition describes some shapes by codecs of their own: lists and arrays of bytes as byte
strings, lists of the characters of a charset as strings, structs of a first character and the remaining
ones as strings, too. Described **verbatim**, these are lists, arrays and structs like all others.
Both descriptions read from the same byte strings, take the same bytes of them, and their values
**correspond**: a byte string to the numbers of its bytes, a string to the members of the charset with the
codes of its characters.

* `TypeDef.verbatim` describes one definition, and `Verbatim` an id with everything below it.
* `Corresponds` follows the definitions, down to the shapes that are recognised.
* `Mirrors` is what one definition needs of its parts. -/

namespace StrictContract

/-- The codec of a definition without a special case for any shape, if `part` gives those of the
definitions it refers to. -/
def TypeDef.verbatim (sid : SemId) (part : SemId → Codec) : TypeDef → Except Failure Codec
  | .primitive width => return if width = 0 then .unit else .uint width
  | .unicode => return .unicode
  | .enumeration members => return TypeSystem.unionOf ("Enum#" ++ TypeSystem.shortId sid) members
  | .union variants =>
    return .union ("Union#" ++ TypeSystem.shortId sid)
      (variants.map fun (tag, name, ty) => (tag, name, part ty))
  | .tuple items => return .tuple (items.map part)
  | .struct fields =>
    return .struct ("Struct#" ++ TypeSystem.shortId sid)
      (fields.map fun (name, ty) => (name, part ty)) .mapping false
  | .array item length => return .array (part item) length
  | .list item min max => do return .list (part item) (← Bounds.of? min max) none
  | .set item min max => do return .set (part item) (← Bounds.of? min max) .sequence none
  | .map key value min max => do
    return .map (part key) (part value) (← Bounds.of? min max) .pairs none

/-- What the items of a list, an array or a set are. -/
def TypeDef.item? : TypeDef → Option SemId
  | .array item _ | .list item _ _ | .set item _ _ => some item
  | _ => none

namespace TypeSystem

open Codec

variable {ts : TypeSystem} {sid : SemId}

/-- `ts.Verbatim sid P`: the codec `P` describes the definition with an id, and everything that it refers
to, without a special case for any shape. -/
inductive Verbatim (ts : TypeSystem) : SemId → Codec → Prop
  | mk {sid : SemId} {d : TypeDef} {P : Codec} (part : SemId → Codec) (hget : ts.get? sid = some d)
      (hparts : ∀ ref ∈ d.references, Verbatim ts ref (part ref))
      (hP : d.verbatim sid part = .ok P) : Verbatim ts sid P

/-- Values that **correspond** under an id: the first one as the recognised shapes have it, the second one
without them. -/
inductive Corresponds (ts : TypeSystem) : SemId → Value → Value → Prop
  /-- A value of a definition that refers to no other. -/
  | same {sid : SemId} {d : TypeDef} {v : Value} (hget : ts.get? sid = some d)
      (hrefs : d.references = []) : Corresponds ts sid v v
  | variant {sid ref : SemId} {variants : List (Nat × String × SemId)} {tag : Nat} {name : String}
      {v w : Value} (hget : ts.get? sid = some (.union variants)) (hmem : (tag, name, ref) ∈ variants)
      (h : Corresponds ts ref v w) : Corresponds ts sid (.tagged name v) (.tagged name w)
  | tuple {sid : SemId} {xs : List (SemId × Value × Value)}
      (hget : ts.get? sid = some (.tuple (xs.map Prod.fst)))
      (h : ∀ x ∈ xs, Corresponds ts x.1 x.2.1 x.2.2) :
      Corresponds ts sid (.tuple (xs.map (·.2.1))) (.tuple (xs.map (·.2.2)))
  | struct {sid : SemId} {xs : List ((String × SemId) × Value × Value)}
      (hget : ts.get? sid = some (.struct (xs.map Prod.fst)))
      (h : ∀ x ∈ xs, Corresponds ts x.1.2 x.2.1 x.2.2) :
      Corresponds ts sid (.ofFields (xs.map fun x => (x.1.1, x.2.1)))
        (.ofFields (xs.map fun x => (x.1.1, x.2.2)))
  /-- A sequence of items, of whatever they are. -/
  | items {sid item : SemId} {d : TypeDef} {xs : List (Value × Value)} (hget : ts.get? sid = some d)
      (hitem : d.item? = some item) (h : ∀ x ∈ xs, Corresponds ts item x.1 x.2) :
      Corresponds ts sid (.tuple (xs.map Prod.fst)) (.tuple (xs.map Prod.snd))
  | entries {sid key value : SemId} {min max : Nat} {es : List ((Value × Value) × (Value × Value))}
      (hget : ts.get? sid = some (.map key value min max))
      (hkeys : ∀ e ∈ es, Corresponds ts key e.1.1 e.1.2)
      (hvalues : ∀ e ∈ es, Corresponds ts value e.2.1 e.2.2) :
      Corresponds ts sid (.tuple (es.map fun e => .tuple [e.1.1, e.2.1]))
        (.tuple (es.map fun e => .tuple [e.1.2, e.2.2]))
  /-- A byte string, against the numbers of its bytes. -/
  | bytes {sid item : SemId} {d : TypeDef} {octets : Octets} (hget : ts.get? sid = some d)
      (hitem : d.item? = some item) (hbyte : ts.get? item = some (.primitive 1)) :
      Corresponds ts sid (.bytes octets) (.tuple (octets.map fun b => .int b.toNat))
  /-- A string, against the members tagged with the codes of its characters. -/
  | text {sid item : SemId} {min max : Nat} {members : List (String × Nat)} {xs : List (Char × String)}
      (hget : ts.get? sid = some (.list item min max))
      (hmembers : ts.get? item = some (.enumeration members))
      (h : ∀ x ∈ xs, (x.2, x.1.toNat) ∈ members) :
      Corresponds ts sid (.text (String.ofList (xs.map Prod.fst)))
        (.tuple (xs.map fun x => .tagged x.2 .null))
  /-- A string, against its first character and the remaining ones. -/
  | split {sid first rest : SemId} {members : List (String × Nat)} {c : Char} {name : String}
      {cs : List Char} {w : Value}
      (hget : ts.get? sid = some (.struct [("first", first), ("rest", rest)]))
      (hmembers : ts.get? first = some (.enumeration members)) (hmem : (name, c.toNat) ∈ members)
      (h : Corresponds ts rest (.text (String.ofList cs)) w) :
      Corresponds ts sid (.text (String.ofList (c :: cs)))
        (.ofFields [("first", .tagged name .null), ("rest", w)])

/-! ## The codecs -/

/-- Parts that agree on the references of a definition describe it alike. -/
theorem verbatim_congr {d : TypeDef} {part part' : SemId → Codec}
    (h : ∀ ref ∈ d.references, part ref = part' ref) : d.verbatim sid part = d.verbatim sid part' := by
  cases d with
  | primitive width | unicode | enumeration members => rfl
  | union variants =>
    have hsame : variants.map (fun x => (x.1, x.2.1, part x.2.2)) =
        variants.map fun x => (x.1, x.2.1, part' x.2.2) :=
      List.map_congr_left fun x hx => by rw [h _ (List.mem_map_of_mem hx)]
    exact congrArg (fun xs => Except.ok (Codec.union _ xs)) hsame
  | tuple items => exact congrArg (fun cs => Except.ok (Codec.tuple cs)) (List.map_congr_left h)
  | struct fields =>
    have hsame : fields.map (fun f => (f.1, part f.2)) = fields.map fun f => (f.1, part' f.2) :=
      List.map_congr_left fun f hf => by rw [h _ (List.mem_map_of_mem hf)]
    exact congrArg (fun xs => Except.ok (Codec.struct _ xs .mapping false)) hsame
  | array item length | list item min max | set item min max =>
    simp only [TypeDef.verbatim, h item (List.mem_singleton.2 rfl)]
  | map key value min max =>
    simp only [TypeDef.verbatim, h key (List.mem_cons_self ..),
      h value (List.mem_cons_of_mem _ (List.mem_singleton.2 rfl))]

/-- An id is described verbatim by one codec. -/
theorem Verbatim.unique {P Q : Codec} (hP : ts.Verbatim sid P) (hQ : ts.Verbatim sid Q) : Q = P := by
  induction hP generalizing Q with
  | mk part hget _ hP ih =>
    obtain ⟨part', hget', hparts', hQ⟩ := hQ
    obtain rfl := Option.some.inj (hget.symm.trans hget')
    -- the references have one codec each, and nothing else of the parts is looked at
    rw [verbatim_congr fun ref href => ih ref href (hparts' ref href)] at hQ
    exact Except.ok.inj (hQ.symm.trans hP)

/-- Every founded id of a well-formed system is described verbatim. -/
theorem WellFormed.exists_verbatim (h : ts.WellFormed) (hsid : ts.Founded sid) :
    ∃ P, ts.Verbatim sid P := by
  induction hsid with
  | @mk sid d hget _ ih =>
    -- elsewhere than at the references any codec will do
    have hchoice : ∀ ref, ∃ P, ref ∈ d.references → ts.Verbatim ref P := by
      intro ref
      by_cases href : ref ∈ d.references
      · exact (ih ref href).imp fun _ hP _ => hP
      · exact ⟨.unit, fun h => absurd h href⟩
    obtain ⟨part, hparts⟩ := Classical.axiomOfChoice hchoice
    suffices hP : ∃ P, d.verbatim sid part = .ok P from hP.imp fun P hP => .mk part hget hparts hP
    have hsound := h.sound hget
    cases d with
    | list item min max | set item min max | map key value min max =>
      exact exists_bind (Bounds.exists_of? hsound).choose_spec ⟨_, rfl⟩
    | _ => exact ⟨_, rfl⟩

/-- A codec that describes a definition verbatim is regular. -/
theorem WellFormed.regular_of_verbatim (h : ts.WellFormed) {P : Codec} (hP : ts.Verbatim sid P) :
    P.Throughout Regular := by
  induction hP with
  | @mk sid d P part hget _ hP ih =>
    have hsound := h.sound hget
    cases d with
    | primitive width =>
      cases hP
      split <;> exact .scalar ⟨trivial, trivial, trivial, rfl⟩ rfl
    | unicode =>
      cases hP
      exact .scalar ⟨trivial, trivial, trivial, rfl⟩ rfl
    | enumeration members =>
      cases hP
      exact regular_members hsound
    | union variants =>
      cases hP
      obtain ⟨hne, hnames, hsmall, hascend⟩ := hsound
      refine regular_union (by simpa using hne) ?_ (List.forall_mem_map.2 hsmall)
        (List.pairwise_map.2 hascend)
        (List.forall_mem_map.2 fun x hx => ih _ (List.mem_map_of_mem hx))
      rw [List.map_map]
      exact hnames
    | tuple items =>
      cases hP
      exact regular_tuple (List.forall_mem_map.2 ih)
    | struct fields =>
      cases hP
      refine regular_struct ?_ (List.forall_mem_map.2 fun f hf => ih _ (List.mem_map_of_mem hf))
      rw [List.map_map]
      exact hsound
    | array item length =>
      cases hP
      exact regular_array (ih item (List.mem_singleton.2 rfl)) length
    | list item min max =>
      obtain ⟨b, -, hP⟩ := bind_eq_ok.1 hP
      cases hP
      exact regular_list (ih item (List.mem_singleton.2 rfl)) b none
    | set item min max =>
      obtain ⟨b, -, hP⟩ := bind_eq_ok.1 hP
      cases hP
      exact regular_set (ih item (List.mem_singleton.2 rfl)) b none
    | map key value min max =>
      obtain ⟨b, -, hP⟩ := bind_eq_ok.1 hP
      cases hP
      exact regular_map (ih key (List.mem_cons_self ..))
        (ih value (List.mem_cons_of_mem _ (List.mem_singleton.2 rfl))) b none

/-! ## One definition -/

/-- A codec **mirrors** another one under an id: both spell the same byte strings, and their values
correspond. -/
structure Mirrors (ts : TypeSystem) (sid : SemId) (D P : Codec) : Prop where
  spells : ∀ p, D.Spells p ↔ P.Spells p
  recasts : Recasts (ts.Corresponds sid) D P

/-- A definition that refers to no other is described by the same codec. -/
theorem mirrors_self {d : TypeDef} (hget : ts.get? sid = some d) (hrefs : d.references = [])
    (D : Codec) : ts.Mirrors sid D D :=
  ⟨fun _ => .rfl, fun v _ hv => ⟨v, hv, .same hget hrefs⟩⟩

/-- What is told to be of bytes has their definition. -/
theorem get?_of_isByte (h : ts.isByte sid = .ok true) : ts.get? sid = some (.primitive 1) := by
  obtain ⟨d, hd, htrue⟩ := bind_eq_ok.1 h
  rw [find_eq_ok.1 hd, eq_of_beq (pure_eq_ok.1 htrue)]

/-- Bytes are described verbatim as numbers of one byte. -/
theorem Verbatim.of_byte {P : Codec} (hP : ts.Verbatim sid P) (hget : ts.get? sid = some (.primitive 1)) :
    P = uint 1 :=
  (Verbatim.mk (fun _ => .unit) hget nofun rfl).unique hP

/-- The union that is described for the characters of a charset. -/
def characterUnion (name : String) (cs : Charset) : Codec :=
  unionOf name (cs.chars.map fun c => (Charset.charName c, c.toNat))

/-- The union of the characters of a charset spells their bytes. -/
theorem spells_characterUnion (name : String) {cs : Charset} {p : Octets} :
    (character cs).Spells p ↔ (characterUnion name cs).Spells p := by
  rw [characterUnion, spells_unionOf, character, Spells]
  rfl

/-- A character of a charset is read as the variant that is tagged with its code. -/
theorem encodes_characterUnion (name : String) {cs : Charset} (c : Char) (hc : cs.contains c = true) :
    (characterUnion name cs).Encodes (.tagged (Charset.charName c) .null) [UInt8.ofNat c.toNat] := by
  have hlt : c.toNat < 256 := Nat.lt_trans (Charset.toNat_lt_of_contains hc) (by decide)
  have hperm := List.mergeSort_perm ((cs.chars.map fun c => (Charset.charName c, c.toNat)).map
    fun m => (m.2, m.1, Codec.unit)) fun a b => decide (a.1 ≤ b.1)
  refine ⟨UInt8.ofNat c.toNat, [], rfl, ?_⟩
  rw [UInt8.toNat_ofNat', Nat.mod_eq_of_lt hlt]
  refine EncodesVariant.of_mem (x := (c.toNat, Charset.charName c, Codec.unit)) ?_ ?_ rfl ⟨rfl, rfl⟩
  · rw [(hperm.map Prod.fst).nodup_iff, List.map_map, List.map_map]
    exact Charset.nodup_toNat_chars
  · rw [hperm.mem_iff, List.map_map]
    exact List.mem_map_of_mem (Charset.mem_chars.2 hc)

/-- The id of a charset is described verbatim as the union of its characters. -/
theorem Verbatim.of_charset {P : Codec} (hP : ts.Verbatim sid P) (hkeeps : ts.KeepsCharsets)
    {cs : Charset} (hcs : Charset.ofId? sid = some cs) :
    ts.get? sid = some cs.definition ∧ P = characterUnion ("Enum#" ++ shortId sid) cs := by
  obtain ⟨part, hget, -, hP⟩ := hP
  obtain rfl := hkeeps sid cs _ hcs hget
  cases hP
  exact ⟨hget, rfl⟩

/-- A string over a charset corresponds to the members that its characters are. -/
theorem corresponds_text {item : SemId} {min max : Nat} {cs : Charset}
    (hget : ts.get? sid = some (.list item min max)) (hmembers : ts.get? item = some cs.definition)
    {text : List Char} (htext : ∀ c ∈ text, cs.contains c = true) :
    ts.Corresponds sid (.text (String.ofList text)) (charValues text) := by
  have hnames : ∀ x ∈ text.map fun c => (c, Charset.charName c),
      (x.2, x.1.toNat) ∈ cs.chars.map fun c => (Charset.charName c, c.toNat) :=
    List.forall_mem_map.2 fun c hc => List.mem_map_of_mem (Charset.mem_chars.2 (htext c hc))
  simpa [charValues, Function.comp_def] using Corresponds.text hget hmembers hnames

/-! ### Sequences -/

section

variable {item : SemId} {P : Codec} (hP : ts.Verbatim item P)
  (ih : ∀ C, ts.codecOf item = .ok C → ts.Mirrors item C P)

include hP ih

/-- The codec of an array mirrors the array. -/
theorem mirrors_array {length : Nat} (hget : ts.get? sid = some (.array item length)) {D : Codec}
    (hD : ts.codecOf sid = .ok D) : ts.Mirrors sid D (.array P length) := by
  obtain ⟨d, hd, hD⟩ := bind_eq_ok.1 (codecOf_eq_ok_iff_describeBy.1 hD)
  obtain rfl := Option.some.inj ((find_eq_ok.1 hd).symm.trans hget)
  obtain ⟨byte, hbyte, hD⟩ := bind_eq_ok.1 hD
  cases byte with
  | true =>
    cases hD
    have hbyte := get?_of_isByte hbyte
    obtain rfl := hP.of_byte hbyte
    refine ⟨fun p => spells_byteArray, fun v p hv => ?_⟩
    obtain ⟨w, hw, octets, rfl, rfl⟩ := recasts_byteArray length v p hv
    exact ⟨_, hw, .bytes hget rfl hbyte⟩
  | false =>
    obtain ⟨C, hC, hD⟩ := bind_eq_ok.1 hD
    cases hD
    refine ⟨fun p => spells_array_congr (ih C hC).spells, fun v p hv => ?_⟩
    obtain ⟨w, hw, xs, hxs, rfl, rfl⟩ := (ih C hC).recasts.array length v p hv
    exact ⟨_, hw, .items hget rfl hxs⟩

/-- The codec of a list mirrors the list. -/
theorem mirrors_list (hkeeps : ts.KeepsCharsets) {min max : Nat} {b : Bounds}
    (hget : ts.get? sid = some (.list item min max)) (hb : Bounds.of? min max = .ok b) {D : Codec}
    (hD : ts.codecOf sid = .ok D) : ts.Mirrors sid D (.list P b none) := by
  obtain ⟨d, hd, hD⟩ := bind_eq_ok.1 (codecOf_eq_ok_iff_describeBy.1 hD)
  obtain rfl := Option.some.inj ((find_eq_ok.1 hd).symm.trans hget)
  dsimp only at hD
  -- a list is described as a string, as a byte string or as a list, depending on its items
  cases hcs : Charset.ofId? item with
  | some cs =>
    rw [hcs, hb] at hD
    cases hD
    obtain ⟨hmembers, rfl⟩ := hP.of_charset hkeeps hcs
    refine ⟨fun p => spells_ascii_self.trans (spells_list_congr fun _ => spells_characterUnion _),
      fun v p hv => ?_⟩
    obtain ⟨w, hw, text, htext, rfl, rfl⟩ :=
      recasts_ascii_self (encodes_characterUnion _) b none none v p hv
    exact ⟨_, hw, corresponds_text hget hmembers htext⟩
  | none =>
    rw [hcs, hb] at hD
    obtain ⟨byte, hbyte, hD⟩ := bind_eq_ok.1 hD
    cases byte with
    | true =>
      cases hD
      have hbyte := get?_of_isByte hbyte
      obtain rfl := hP.of_byte hbyte
      refine ⟨fun p => spells_bytes, fun v p hv => ?_⟩
      obtain ⟨w, hw, octets, rfl, rfl⟩ := recasts_bytes b none none v p hv
      exact ⟨_, hw, .bytes hget rfl hbyte⟩
    | false =>
      obtain ⟨C, hC, hD⟩ := bind_eq_ok.1 hD
      cases hD
      refine ⟨fun p => spells_list_congr (ih C hC).spells, fun v p hv => ?_⟩
      obtain ⟨w, hw, xs, hxs, rfl, rfl⟩ := (ih C hC).recasts.list b none none v p hv
      exact ⟨_, hw, .items hget rfl hxs⟩

omit hP in
/-- The codec of a set mirrors the set. -/
theorem mirrors_set {min max : Nat} {b : Bounds} (hget : ts.get? sid = some (.set item min max))
    (hb : Bounds.of? min max = .ok b) {D : Codec} (hD : ts.codecOf sid = .ok D) :
    ts.Mirrors sid D (.set P b .sequence none) := by
  obtain ⟨d, hd, hD⟩ := bind_eq_ok.1 (codecOf_eq_ok_iff_describeBy.1 hD)
  obtain rfl := Option.some.inj ((find_eq_ok.1 hd).symm.trans hget)
  obtain ⟨C, hC, hD⟩ := bind_eq_ok.1 hD
  rw [hb] at hD
  cases hD
  refine ⟨fun p => spells_set_congr (ih C hC).spells, fun v p hv => ?_⟩
  obtain ⟨w, hw, xs, hxs, rfl, rfl⟩ := (ih C hC).recasts.set b none none v p hv
  exact ⟨_, hw, .items hget rfl hxs⟩

omit hP in
/-- The codec of a map mirrors the map, if its keys have labels. -/
theorem mirrors_map {value : SemId} {Q : Codec} {min max : Nat} {b : Bounds}
    (ih' : ∀ C, ts.codecOf value = .ok C → ts.Mirrors value C Q)
    (hlabel : ∀ k p, P.Encodes k p → k.HasLabel)
    (hget : ts.get? sid = some (.map item value min max)) (hb : Bounds.of? min max = .ok b) {D : Codec}
    (hD : ts.codecOf sid = .ok D) : ts.Mirrors sid D (.map P Q b .pairs none) := by
  obtain ⟨d, hd, hD⟩ := bind_eq_ok.1 (codecOf_eq_ok_iff_describeBy.1 hD)
  obtain rfl := Option.some.inj ((find_eq_ok.1 hd).symm.trans hget)
  obtain ⟨K, hK, hD⟩ := bind_eq_ok.1 hD
  obtain ⟨V, hV, hD⟩ := bind_eq_ok.1 hD
  rw [hb] at hD
  cases hD
  refine ⟨fun p => spells_map_congr (ih K hK).spells (ih' V hV).spells, fun v p hv => ?_⟩
  obtain ⟨w, hw, es, hes, rfl, rfl⟩ :=
    (ih K hK).recasts.map (ih' V hV).recasts hlabel b none none v p hv
  exact ⟨_, hw, .entries hget (fun e he => (hes e he).1) fun e he => (hes e he).2⟩

end

/-! ### Composites -/

section

variable {part : SemId → Codec}

/-- The codec of a tuple mirrors the tuple. -/
theorem mirrors_tuple {items : List SemId}
    (ih : ∀ ref ∈ items, ∀ C, ts.codecOf ref = .ok C → ts.Mirrors ref C (part ref))
    (hget : ts.get? sid = some (.tuple items)) {D : Codec} (hD : ts.codecOf sid = .ok D) :
    ts.Mirrors sid D (.tuple (items.map part)) := by
  obtain ⟨d, hd, hD⟩ := bind_eq_ok.1 (codecOf_eq_ok_iff_describeBy.1 hD)
  obtain rfl := Option.some.inj ((find_eq_ok.1 hd).symm.trans hget)
  obtain ⟨cs, hcs, hD⟩ := bind_eq_ok.1 hD
  cases hD
  obtain ⟨ps, rfl, rfl, hps⟩ := mapM_eq_ok.1 hcs
  rw [List.forall_mem_map] at ih
  rw [List.map_map]
  refine ⟨fun p => ?_, fun v p hv => ?_⟩
  · rw [Spells, Spells]
    exact spellsItems_congr fun q hq => (ih q hq _ (hps q hq)).spells
  · obtain ⟨vs, rfl, hvs⟩ := hv
    obtain ⟨ys, rfl, rfl, hws, hys⟩ := exists_recast_items
      (R := fun q : SemId × Codec => ts.Corresponds q.1) (g := part ∘ Prod.fst)
      (fun q hq => (ih q hq _ (hps q hq)).recasts) hvs
    refine ⟨_, ⟨_, rfl, hws⟩, ?_⟩
    have hcorresponds : ∀ x ∈ ys.map fun y => (y.1.1, y.2), ts.Corresponds x.1 x.2.1 x.2.2 :=
      List.forall_mem_map.2 hys
    simpa [Function.comp_def] using
      Corresponds.tuple (by rw [hget, List.map_map, List.map_map]; rfl) hcorresponds

/-- Parts that are described one after another, each with what it is the part of. -/
theorem exists_described {α β : Type} (ref : α → SemId) (entry : α → Codec → β) {as : List α}
    {bs : List β} (h : (as.mapM fun a => do return entry a (← ts.codecOf (ref a))) = .ok bs) :
    ∃ xs : List (α × Codec), as = xs.map Prod.fst ∧ bs = xs.map (fun x => entry x.1 x.2) ∧
      ∀ x ∈ xs, ts.codecOf (ref x.1) = .ok x.2 := by
  obtain ⟨ps, rfl, rfl, hps⟩ := mapM_eq_ok.1 h
  obtain ⟨xs, rfl, hxs⟩ := exists_eq_map (f := fun x : α × Codec => (x.1, entry x.1 x.2))
    (P := fun x => ts.codecOf (ref x.1) = .ok x.2) fun q hq => by
      obtain ⟨C, hC, hentry⟩ := bind_eq_ok.1 (hps q hq)
      exact ⟨(q.1, C), Prod.ext rfl (pure_eq_ok.1 hentry), hC⟩
  exact ⟨xs, by rw [List.map_map]; rfl, by rw [List.map_map]; rfl, hxs⟩

/-- The codec of a union mirrors the union. -/
theorem WellFormed.mirrors_union (h : ts.WellFormed) {variants : List (Nat × String × SemId)}
    (hparts : ∀ x ∈ variants, ts.Verbatim x.2.2 (part x.2.2))
    (ih : ∀ x ∈ variants, ∀ C, ts.codecOf x.2.2 = .ok C → ts.Mirrors x.2.2 C (part x.2.2))
    (hget : ts.get? sid = some (.union variants)) {D : Codec} (hD : ts.codecOf sid = .ok D) :
    ts.Mirrors sid D (.union ("Union#" ++ shortId sid)
      (variants.map fun x => (x.1, x.2.1, part x.2.2))) := by
  obtain ⟨d, hd, hD⟩ := bind_eq_ok.1 (codecOf_eq_ok_iff_describeBy.1 hD)
  obtain rfl := Option.some.inj ((find_eq_ok.1 hd).symm.trans hget)
  obtain ⟨ds, hds, hD⟩ := bind_eq_ok.1 hD
  cases hD
  obtain ⟨xs, rfl, rfl, hxs⟩ := exists_described (fun x : Nat × String × SemId => x.2.2)
    (fun x C => (x.1, x.2.1, C)) hds
  rw [List.forall_mem_map] at ih hparts
  rw [List.map_map]
  refine ⟨fun p => ?_, fun v p hv => ?_⟩
  · exact spells_union_congr fun x hx => (ih x hx _ (hxs x hx)).spells
  · obtain ⟨tag, q, rfl, hv⟩ := hv
    obtain ⟨x, hx, v', w, rfl, hvw, hw⟩ := exists_recast_variant
      (R := fun x : (Nat × String × SemId) × Codec => ts.Corresponds x.1.2.2)
      (fun x => x.1.1) (fun x => x.1.2.1) (f := Prod.snd) (g := fun x => part x.1.2.2)
      (fun x hx => (ih x hx _ (hxs x hx)).recasts) (fun x hx => (h.regular (hxs x hx)).self.bare)
      (fun x hx => (h.regular_of_verbatim (hparts x hx)).self.bare) hv
    exact ⟨_, ⟨tag, q, rfl, hw⟩, .variant hget (List.mem_map_of_mem hx) hvw⟩

/-- The fields that stand for a string are a first character and the list of the others. -/
theorem splitText?_eq_some {fields : List (String × SemId)} {D : Codec}
    (h : ts.splitText? fields = .ok (some D)) : ∃ firstId tailId item first rest min max b,
      fields = [("first", firstId), ("rest", tailId)] ∧ Charset.ofId? firstId = some first ∧
      ts.get? tailId = some (.list item min max) ∧ Charset.ofId? item = some rest ∧
      Bounds.of? min max = .ok b ∧ isSplit first rest = true ∧ D = .ascii first rest b none := by
  unfold splitText? at h
  split at h
  · rename_i firstId tailId
    obtain ⟨tail, htail, h⟩ := bind_eq_ok.1 h
    split at h
    · rename_i first item min max hfirst
      split at h
      · rename_i rest hrest
        split at h
        · rename_i hsplit
          obtain ⟨b, hb, h⟩ := bind_eq_ok.1 h
          cases h
          exact ⟨firstId, tailId, item, first, rest, min, max, b, rfl, hfirst, find_eq_ok.1 htail,
            hrest, hb, hsplit, rfl⟩
        · cases h
      · cases h
    · cases h
  · cases h

/-- A list of the characters of a charset has the codec of strings over it. -/
theorem codecOf_characters {item : SemId} {min max : Nat} {cs : Charset} {b : Bounds}
    (hget : ts.get? sid = some (.list item min max)) (hcs : Charset.ofId? item = some cs)
    (hb : Bounds.of? min max = .ok b) : ts.codecOf sid = .ok (.ascii cs cs b none) := by
  refine codecOf_eq_ok.2 ⟨1, bind_eq_ok.2 ⟨_, find_eq_ok.2 hget, ?_⟩⟩
  dsimp only
  rw [hcs]
  exact bind_eq_ok.2 ⟨b, hb, rfl⟩

/-- The codec of a struct mirrors the struct. -/
theorem mirrors_struct (hkeeps : ts.KeepsCharsets) {fields : List (String × SemId)}
    (hparts : ∀ f ∈ fields, ts.Verbatim f.2 (part f.2))
    (ih : ∀ f ∈ fields, ∀ C, ts.codecOf f.2 = .ok C → ts.Mirrors f.2 C (part f.2))
    (hget : ts.get? sid = some (.struct fields)) {D : Codec} (hD : ts.codecOf sid = .ok D) :
    ts.Mirrors sid D (.struct ("Struct#" ++ shortId sid)
      (fields.map fun f => (f.1, part f.2)) .mapping false) := by
  obtain ⟨d, hd, hD⟩ := bind_eq_ok.1 (codecOf_eq_ok_iff_describeBy.1 hD)
  obtain rfl := Option.some.inj ((find_eq_ok.1 hd).symm.trans hget)
  obtain ⟨split?, hsplit, hD⟩ := bind_eq_ok.1 hD
  cases split? with
  | some c =>
    cases hD
    obtain ⟨firstId, tailId, item, first, rest, min, max, b, rfl, hfirst, htail, hrest, hb, hne, rfl⟩ :=
      splitText?_eq_some hsplit
    rw [List.forall_mem_cons, List.forall_mem_singleton] at hparts ih
    -- the list of the remaining characters has the codec of a string itself, which mirrors it
    obtain ⟨hmembers, hchar⟩ := hparts.1.of_charset hkeeps hfirst
    have hrests : ts.Mirrors tailId (.ascii rest rest b none) (part tailId) :=
      ih.2 _ (codecOf_characters htail hrest hb)
    rw [List.map_cons, List.map_singleton, hchar]
    refine ⟨fun p => ?_, fun v p hv => ?_⟩
    · rw [spells_ascii_split hne, spells_struct, spellsFields_pair]
      simp only [spells_characterUnion ("Enum#" ++ shortId firstId), hrests.spells]
    · obtain ⟨w, hw, c, text, w', hc, rfl, hw', rfl⟩ :=
        recasts_ascii_split hne (encodes_characterUnion _) hrests.recasts _ v p hv
      exact ⟨_, hw, .split hget hmembers (List.mem_map_of_mem (Charset.mem_chars.2 hc)) hw'⟩
  | none =>
    obtain ⟨ds, hds, hD⟩ := bind_eq_ok.1 hD
    cases hD
    obtain ⟨xs, rfl, rfl, hxs⟩ := exists_described (fun f : String × SemId => f.2)
      (fun f C => (f.1, C)) hds
    rw [List.forall_mem_map] at ih
    rw [List.map_map]
    refine ⟨fun p => ?_, fun v p hv => ?_⟩
    · rw [spells_struct, spells_struct, spellsFields_iff, spellsFields_iff, List.map_map, List.map_map]
      exact spellsItems_congr fun x hx => (ih x hx _ (hxs x hx)).spells
    · obtain ⟨vs, hvs, ⟨⟩⟩ := hv
      obtain ⟨ys, rfl, rfl, hws, hys⟩ := exists_recast_fields (fun x => x.1.1)
        (R := fun x : (String × SemId) × Codec => ts.Corresponds x.1.2) (f := Prod.snd)
        (g := fun x => part x.1.2)
        (fun x hx => (ih x hx _ (hxs x hx)).recasts) hvs
      refine ⟨_, ⟨_, hws, rfl⟩, ?_⟩
      have hcorresponds : ∀ x ∈ ys.map fun y => (y.1.1, y.2), ts.Corresponds x.1.2 x.2.1 x.2.2 :=
        List.forall_mem_map.2 hys
      simpa [Function.comp_def] using
        Corresponds.struct (by rw [hget, List.map_map, List.map_map]; rfl) hcorresponds

end

/-! ## All definitions -/

/-- The codec of an id mirrors the one that describes it verbatim. -/
theorem WellFormed.mirrors (h : ts.WellFormed) (hkeeps : ts.KeepsCharsets) {P : Codec}
    (hP : ts.Verbatim sid P) : ∀ D, ts.codecOf sid = .ok D → ts.Mirrors sid D P := by
  induction hP with
  | @mk sid d P part hget hparts hP ih =>
    intro D hD
    cases d with
    | primitive width | unicode | enumeration members =>
      obtain ⟨d, hd, hdescribe⟩ := bind_eq_ok.1 (codecOf_eq_ok_iff_describeBy.1 hD)
      obtain rfl := Option.some.inj ((find_eq_ok.1 hd).symm.trans hget)
      cases hP
      cases hdescribe
      exact mirrors_self hget rfl _
    | union variants =>
      cases hP
      exact h.mirrors_union (fun x hx => hparts _ (List.mem_map_of_mem hx))
        (fun x hx => ih _ (List.mem_map_of_mem hx)) hget hD
    | tuple items =>
      cases hP
      exact mirrors_tuple ih hget hD
    | struct fields =>
      cases hP
      exact mirrors_struct hkeeps (fun f hf => hparts _ (List.mem_map_of_mem hf))
        (fun f hf => ih _ (List.mem_map_of_mem hf)) hget hD
    | array item length =>
      cases hP
      have hitem := List.mem_singleton.2 (rfl : item = item)
      exact mirrors_array (hparts item hitem) (ih item hitem) hget hD
    | list item min max =>
      obtain ⟨b, hb, hP⟩ := bind_eq_ok.1 hP
      cases hP
      have hitem := List.mem_singleton.2 (rfl : item = item)
      exact mirrors_list (hparts item hitem) (ih item hitem) hkeeps hget hb hD
    | set item min max =>
      obtain ⟨b, hb, hP⟩ := bind_eq_ok.1 hP
      cases hP
      exact mirrors_set (ih item (List.mem_singleton.2 rfl)) hget hb hD
    | map key value min max =>
      obtain ⟨b, hb, hP⟩ := bind_eq_ok.1 hP
      cases hP
      have hkey : key ∈ (Definition.map key value min max : TypeDef).references :=
        List.mem_cons_self ..
      refine mirrors_map (ih key hkey) (ih value (List.mem_cons_of_mem _ (List.mem_singleton.2 rfl)))
        (fun k p hk => ?_) hget hb hD
      -- whatever a plain codec reads has a label
      have hplain : (part key).Throughout Plain :=
        fun s hs => (h.regular_of_verbatim (hparts key hkey) s hs).plain
      obtain ⟨hshown, hmember⟩ := shown_of_encodes hplain k p hk
      exact Value.hasLabel_of_unshown?_eq_none hshown hmember

/-- Two codecs **read alike** under an id: from every position of every byte string both read or neither
does, they take the same bytes, and their values correspond. -/
structure ReadAlike (ts : TypeSystem) (sid : SemId) (D P : Codec) : Prop where
  forth : ∀ c v c', D.read c = .ok (v, c') → ∃ w, P.read c = .ok (w, c') ∧ ts.Corresponds sid v w
  back : ∀ c w c', P.read c = .ok (w, c') → ∃ v, D.read c = .ok (v, c') ∧ ts.Corresponds sid v w

/-- Codecs that mirror each other read alike. -/
theorem Mirrors.readAlike {D P : Codec} (h : ts.Mirrors sid D P) (hD : D.Throughout Regular) :
    ts.ReadAlike sid D P := by
  refine ⟨fun c v c' hv => ?_, fun c w c' hw => ?_⟩
  · obtain ⟨p, hp, hpos, hv⟩ := (read_matches D _ _ _ _).1 hv
    obtain ⟨w, hw, hvw⟩ := h.recasts v p hv
    exact ⟨w, (read_matches P _ _ _ _).2 ⟨p, hp, hpos, hw⟩, hvw⟩
  · obtain ⟨p, hp, hpos, hw⟩ := (read_matches P _ _ _ _).1 hw
    -- the bytes are those of a value of the first codec as well, and of no second value of the other
    obtain ⟨v, hv⟩ := exists_encodes_of_spells (checked_of_regular hD) (steady_of_regular hD) p
      ((h.spells p).2 (spells_of_encodes w p hw))
    obtain ⟨w', hw', hvw⟩ := h.recasts v p hv
    obtain ⟨rfl, -⟩ := hw.unique hw' (s := []) (t := []) rfl
    exact ⟨v, (read_matches D _ _ _ _).2 ⟨p, hp, hpos, hv⟩, hvw⟩

/-- A type system **collides with a charset** if it holds, under the id of the charset, a definition that
is encoded as other bytes with the same commitment. -/
def CollidesWithCharset (ts : TypeSystem) : Prop :=
  ∃ sid cs d, Charset.ofId? sid = some cs ∧ ts.get? sid = some d ∧
    Collide .sem d.toDraft.encode cs.definition.toDraft.encode

/-- Without a collision every id of a charset stands for it. -/
theorem WellFormed.keepsCharsets (h : ts.WellFormed) (hcollides : ¬ ts.CollidesWithCharset) :
    ts.KeepsCharsets := by
  intro sid cs d hcs hd
  have hmem := h.get?_eq_some.1 hd
  refine (eq_or_collide_of_semId (e := cs.definition) (h.normal _ hmem) trivial (h.named _ hmem)
    (semId_of_ofId? hcs)).resolve_right fun hcollide => ?_
  exact hcollides ⟨sid, cs, d, hcs, hd, hcollide⟩

/-- **Recognised shapes read like plain ones.** Every id that a grown type system holds has a codec, and
exactly one codec describes it without a special case for any shape. The two read alike, unless the system
collides with a charset. -/
theorem Grown.readAlike_verbatim (h : Grown ts) (hsid : ts.contains sid = true) :
    ∃ D P, ts.codecOf sid = .ok D ∧ (∀ Q, ts.Verbatim sid Q ↔ Q = P) ∧
      (ts.ReadAlike sid D P ∨ ts.CollidesWithCharset) := by
  have hts := h.reachable.wellFormed
  have hfounded := h.allFounded sid hsid
  obtain ⟨D, hD⟩ := hts.exists_codecOf hfounded
  obtain ⟨P, hP⟩ := hts.exists_verbatim hfounded
  refine ⟨D, P, hD, fun Q => ⟨hP.unique, fun hQ => hQ ▸ hP⟩, ?_⟩
  by_cases hcollides : ts.CollidesWithCharset
  · exact .inr hcollides
  · have hmirrors := hts.mirrors (hts.keepsCharsets hcollides) hP D hD
    exact .inl (hmirrors.readAlike (hts.regular hD))

/-- Byte strings, which are derived as lists of bytes, are read like such lists. -/
theorem readAlike_verbatim_bytes : ∃ sid ts, (Codec.bytes .tiny none).derive empty = (.ok sid, ts) ∧
    ts.contains sid = true ∧ ∃ D P, ts.codecOf sid = .ok D ∧ (∀ Q, ts.Verbatim sid Q ↔ Q = P) ∧
      (ts.ReadAlike sid D P ∨ ts.CollidesWithCharset) := by
  have hbyte : (Codec.uint 1).derive empty = _ :=
    insert_empty (d := TypeDef.toDraft (.primitive 1)) (.primitive 1) [0, 1]
      (toOption_eq_some.1 (by decide +kernel)) rfl (toOption_eq_some.1 (by decide +kernel)) rfl
  obtain ⟨sid, ts, hderive, -⟩ := exists_derive_list hbyte (by decide) .tiny none
  have hgrown : Grown ((Codec.bytes .tiny none).derive empty).2 := .derive _ .empty
  have hbytes : (Codec.bytes .tiny none).derive empty = (.ok sid, ts) := hderive
  rw [hbytes] at hgrown
  have hsid := contains_of_derive hderive
  exact ⟨sid, ts, hbytes, hsid, hgrown.readAlike_verbatim hsid⟩

end TypeSystem

end StrictContract
