import StrictContract.Contract.Conformance
import StrictContract.Proofs.Codec.Strictness
import StrictContract.Proofs.TypeSystem.Canonical

/-! # Construction — every stored definition passes the checks of the constructors

A codec is described from a stored definition by plain constructors. The **checked construction** of a
definition goes through the checked constructors instead, each of which refuses what describes no
type: a width that is none, an empty array, inverted bounds, repeated names, tags that are no bytes.
What a definition of a well-formed system went through before it was stored is just what these checks
ask for, so the construction gives the described codec. It follows references no deeper than there
are definitions. Reading with the codec is strict, so checking a byte string has a result or fails
with a strict error. -/

namespace StrictContract

/-! ## Items with different keys -/

/-- Of items with different keys, all are the last of their key. -/
theorem lastByKey_eq_self {α κ : Type} [DecidableEq κ] {key : α → κ} {items : List α}
    (h : (items.map key).Nodup) : lastByKey key items = items := by
  -- what was found has other keys than what is left, so every item of the latter is put in front
  have hfold : ∀ found : List α, (∀ a ∈ items, ∀ b ∈ found, key b ≠ key a) →
      items.foldl (addLast key) found = items.reverse ++ found := by
    induction items with
    | nil => exact fun _ _ => rfl
    | cons a items ih =>
      intro found hfound
      rw [List.map_cons, List.nodup_cons] at h
      rw [List.forall_mem_cons] at hfound
      have hnew : ¬ found.any (key · = key a) = true := by
        rw [List.any_eq_true]
        rintro ⟨b, hb, hkey⟩
        exact hfound.1 b hb (of_decide_eq_true hkey)
      rw [List.foldl_cons, addLast, if_neg hnew, ih h.2, List.reverse_cons, List.append_assoc]
      · rfl
      · intro c hc
        refine List.forall_mem_cons.2 ⟨?_, hfound.2 c hc⟩
        intro hkey
        exact h.1 (hkey ▸ List.mem_map_of_mem hc)
  calc lastByKey key items = (items.foldl (addLast key) []).reverse := rfl
    _ = (items.reverse ++ []).reverse := by rw [hfold [] fun _ _ _ hb => absurd hb List.not_mem_nil]
    _ = items := by rw [List.append_nil, List.reverse_reverse]

namespace Codec

/-! ## What the checked constructors give -/

/-- The widths of primitive types in bytes are widths of numbers. -/
theorem uint?_of_mem_primitiveWidths {width : Nat} (h : (width : Int) ∈ Draft.primitiveWidths)
    (hne : width ≠ 0) : uint? (width * 8) = .ok (uint width) := by
  have hwidth : width = 1 ∨ width = 2 ∨ width = 3 ∨ width = 4 ∨ width = 8 ∨ width = 16 ∨
      width = 32 := by
    simp only [Draft.primitiveWidths, List.mem_cons, List.not_mem_nil, or_false] at h
    omega
  rcases hwidth with rfl | rfl | rfl | rfl | rfl | rfl | rfl <;> rfl

/-- A byte string of some bytes has a codec. -/
theorem byteArray?_of_pos {size : Nat} (h : 1 ≤ size) : byteArray? size = .ok (byteArray size) := by
  rw [byteArray?, if_neg (by omega)]
  rfl

/-- A sequence of some items has a codec. -/
theorem array?_of_pos {item : Codec} {count : Nat} (h : 1 ≤ count) :
    array? item count = .ok (array item count) := by
  rw [array?, if_neg (by omega)]
  rfl

/-- Strings of one charset have a codec when their bounds are in order. -/
theorem ascii?_self {cs : Charset} {min max : Int} {b : Bounds} (h : Bounds.of? min max = .ok b) :
    ascii? cs cs min max = .ok (ascii cs cs b none) := by
  have hself : isSplit cs cs = false := by simp [isSplit]
  rw [ascii?, hself]
  exact bind_eq_ok.2 ⟨b, h, rfl⟩

/-- Strings with a charset for their first character have a codec when the bounds of the remaining
characters are in order. -/
theorem ascii?_split {first rest : Charset} (hsplit : isSplit first rest = true) {min max : Nat}
    {b : Bounds} (h : Bounds.of? min max = .ok b) :
    ascii? first rest (min + 1) (max + 1) = .ok (ascii first rest b none) := by
  have hpos : ¬ ((min : Int) + 1 < 1) := by omega
  rw [ascii?, if_pos hsplit]
  refine unless_eq_ok.2 ⟨hpos, bind_eq_ok.2 ⟨b, ?_, rfl⟩⟩
  rwa [Int.add_sub_cancel, Int.add_sub_cancel]

/-- Fields with different names, none of them made optional, make a struct. -/
theorem struct?_of_nodup {name : String} {fields : List (String × Codec)}
    (h : (fields.map Prod.fst).Nodup) :
    struct? name (fields.map fun f => (f.1, f.2, false)) .mapping false =
      .ok (struct name fields .mapping false) := by
  have hnames : ¬ ¬ ((fields.map fun f => (f.1, f.2, false)).map Prod.fst).Nodup := by
    rw [Decidable.not_not, List.map_map]
    exact h
  have hchosen : (fields.map fun f => (f.1, f.2, false)).mapM chosen = .ok fields := by
    refine mapM_eq_ok.2 ⟨fields.map fun f => ((f.1, f.2, false), f), ?_, ?_, ?_⟩
    · rw [List.map_map]
      rfl
    · rw [List.map_map]
      exact (List.map_id _).symm
    · exact List.forall_mem_map.2 fun f _ => chosen_eq_ok.2 ⟨rfl, .inr ⟨rfl, rfl⟩⟩
  calc struct? name (fields.map fun f => (f.1, f.2, false)) .mapping false
    _ = if ¬ ((fields.map fun f => (f.1, f.2, false)).map Prod.fst).Nodup then
          reject (.duplicateFields name)
        else do
          return struct name (← (fields.map fun f => (f.1, f.2, false)).mapM chosen) .mapping false :=
      rfl
    _ = .ok (struct name fields .mapping false) := by
      rw [if_neg hnames, hchosen]
      rfl

/-- Variants with different names and different tags that are bytes make a union, in ascending order
of the tags. -/
theorem union?_of_nodup (name : String) {variants : List (Nat × String × Codec)}
    (hne : variants ≠ []) (hnames : (variants.map fun x => x.2.1).Nodup) (htags : (variants.map Prod.fst).Nodup)
    (hsmall : ∀ x ∈ variants, x.1 < 256) :
    union? name (variants.map fun x => ((x.1 : Int), x.2)) =
      .ok (union name (variants.mergeSort fun a b => decide (a.1 ≤ b.1))) := by
  have hlast : lastByKey Prod.fst (variants.map fun x => ((x.1 : Int), x.2)) =
      variants.map fun x => ((x.1 : Int), x.2) := by
    refine lastByKey_eq_self ?_
    rw [List.map_map]
    exact List.pairwise_map.2 ((List.pairwise_map.1 htags).imp fun hxy heq => hxy (Int.ofNat.inj heq))
  unfold union?
  rw [hlast]
  refine unless_eq_ok.2 ⟨by simpa using hne, unless_eq_ok.2 ⟨?_, bind_eq_ok.2 ⟨⟨⟩, ?_, ?_⟩⟩⟩
  · rw [Decidable.not_not, List.map_map]
    exact hnames
  · refine forIn_unless_eq_ok.2 (List.forall_mem_map.2 fun x hx => ?_)
    have hx := hsmall x hx
    dsimp only
    omega
  · rw [List.map_map]
    have hsame : variants.map ((fun x : Int × String × Codec => (x.1.toNat, x.2.1, x.2.2)) ∘
        fun x => ((x.1 : Int), x.2)) = variants := List.map_id _
    exact congrArg (fun xs : List (Nat × String × Codec) =>
      Except.ok (union name (xs.mergeSort fun a b => decide (a.1 ≤ b.1)))) hsame

end Codec

namespace TypeSystem

open Codec

variable {ts : TypeSystem} {sid : SemId}

/-! ## The checked construction -/

/-- The checked string codec that a struct of a first character and the remaining ones stands for.
The bounds of its constructor count all characters. -/
def constructText? (ts : TypeSystem) (fields : List (String × SemId)) :
    Except Failure (Option Codec) := do
  match fields with
  | [("first", firstId), ("rest", tailId)] =>
    let first := Charset.ofId? firstId
    let tail ← ts.find tailId
    match first, tail with
    | some first, .list item min max =>
      match Charset.ofId? item with
      | some rest =>
        if isSplit first rest then return some (← ascii? first rest (min + 1) (max + 1))
        else return none
      | none => return none
    | _, _ => return none
  | _ => return none

/-- The codec of a stored definition by checked constructors, if `part` gives those of the definitions
it refers to. -/
def constructBy (ts : TypeSystem) (part : SemId → Except Failure Codec) (sid : SemId) :
    Except Failure Codec := do
  match ← ts.find sid with
  | .primitive width => if width = 0 then return .unit else uint? (width * 8)
  | .unicode => return .unicode
  | .enumeration members =>
    union? ("Enum#" ++ shortId sid) (members.map fun (name, tag) => ((tag : Int), name, Codec.unit))
  | .union variants =>
    union? ("Union#" ++ shortId sid) <| ← variants.mapM fun (tag, name, ty) => do
      return ((tag : Int), name, ← part ty)
  | .tuple items => return .tuple (← items.mapM fun ty => part ty)
  | .struct fields =>
    match ← ts.constructText? fields with
    | some c => return c
    | none =>
      let codecs ← fields.mapM fun (name, ty) => do return (name, ← part ty, false)
      struct? ("Struct#" ++ shortId sid) codecs .mapping false
  | .array item length =>
    if ← ts.isByte item then byteArray? length
    else array? (← part item) length
  | .list item min max =>
    match Charset.ofId? item with
    | some cs => ascii? cs cs min max
    | none =>
      if ← ts.isByte item then bytes? min max
      else list? (← part item) min max
  | .set item min max => set? (← part item) min max .sequence
  | .map key value min max =>
    let keyCodec ← part key
    let valueCodec ← part value
    map? keyCodec valueCodec min max .pairs

/-- The codec of a stored definition by checked constructors; `depth` bounds how deep references are
followed. -/
def construct (ts : TypeSystem) : Nat → SemId → Except Failure Codec
  | 0, sid => fail (.typeAbsent sid.text)
  | depth + 1, sid => ts.constructBy (construct ts depth) sid

/-! ## Stored definitions pass the checks -/

namespace WellFormed

/-- The width of a stored primitive type is one of those that there are. -/
theorem mem_primitiveWidths (h : ts.WellFormed) {width : Nat}
    (hd : ts.get? sid = some (.primitive width)) : (width : Int) ∈ Draft.primitiveWidths := by
  have hvalid := h.valid _ (h.get?_eq_some.1 hd)
  by_cases hwidth : (width : Int) ∈ Draft.primitiveWidths
  · exact hwidth
  · simp [TypeDef.toDraft, Definition.mapParts, Draft.validate, Value.ofNat, Value.number?, hwidth] at hvalid

/-- A stored array type has some items. -/
theorem array_pos (h : ts.WellFormed) {item : SemId} {length : Nat}
    (hd : ts.get? sid = some (.array item length)) : 1 ≤ length := by
  have hvalid := h.valid _ (h.get?_eq_some.1 hd)
  by_cases hlength : length < 1
  · have hprecedes : (Value.ofNat length).precedes (.int 1) = .ok true :=
      (Value.precedes_ofNat length 1).trans (congrArg Except.ok (decide_eq_true hlength))
    have hrefused : Draft.validate (.array item (.ofNat length)) =
        .error (.strict (.of "len" .emptyArray)) := by
      rw [Draft.validate, hprecedes]
      rfl
    cases hrefused.symm.trans hvalid
  · exact Nat.not_lt.1 hlength

/-- The string codec that fields stand for passes its check. -/
theorem constructText?_eq_ok {fields : List (String × SemId)} {c : Option Codec}
    (hc : ts.splitText? fields = .ok c) : ts.constructText? fields = .ok c := by
  unfold splitText? at hc
  split at hc
  · rename_i firstId tailId
    unfold constructText?
    obtain ⟨tail, htail, hc⟩ := bind_eq_ok.1 hc
    refine bind_eq_ok.2 ⟨tail, htail, ?_⟩
    cases hfirst : Charset.ofId? firstId with
    | none =>
      rw [hfirst] at hc
      exact hc
    | some first =>
      rw [hfirst] at hc
      cases tail with
      | list item min max =>
        cases hrest : Charset.ofId? item with
        | none =>
          simp only [hrest] at hc ⊢
          exact hc
        | some rest =>
          simp only [hrest] at hc ⊢
          by_cases hsplit : isSplit first rest = true
          · rw [if_pos hsplit] at hc ⊢
            obtain ⟨b, hb, hc⟩ := bind_eq_ok.1 hc
            exact bind_eq_ok.2 ⟨_, ascii?_split hsplit hb, hc⟩
          · rwa [if_neg hsplit] at hc ⊢
      | _ => exact hc
  · rename_i hother
    unfold constructText?
    split
    · exact absurd rfl (hother _ _)
    · exact hc

/-- The variants that a union describes make a union: they have its tags and names. -/
theorem union?_described {name : String}
    {ps : List ((Nat × String × SemId) × (Nat × String × Codec))}
    (hsound : TypeDef.Sound (.union (ps.map Prod.fst)))
    (hps : ∀ q ∈ ps, q.2.1 = q.1.1 ∧ q.2.2.1 = q.1.2.1) :
    union? name (ps.map fun q => ((q.2.1 : Int), q.2.2)) = .ok (union name (ps.map Prod.snd)) := by
  obtain ⟨hne, hnames, hsmall, hascend⟩ := hsound
  have hascends : (ps.map Prod.snd).Pairwise fun x y => x.1 < y.1 := by
    refine List.pairwise_map.2 ((List.pairwise_map.1 hascend).imp_of_mem fun {q r} hq hr hlt => ?_)
    rwa [(hps q hq).1, (hps r hr).1]
  -- the described variants ascend already, so sorting them leaves them as they are
  have hunion := @union?_of_nodup name (ps.map Prod.snd) ?_ ?_ ?_ ?_
  · have hsorted : (ps.map Prod.snd).mergeSort (fun a b => decide (a.1 ≤ b.1)) = ps.map Prod.snd :=
      List.mergeSort_of_pairwise (hascends.imp fun hlt => decide_eq_true (Nat.le_of_lt hlt))
    rwa [hsorted, List.map_map] at hunion
  · simpa using hne
  · have hsame : (ps.map Prod.snd).map (fun x => x.2.1) = (ps.map Prod.fst).map fun x => x.2.1 := by
      rw [List.map_map, List.map_map]
      exact List.map_congr_left fun q hq => (hps q hq).2
    rwa [hsame]
  · exact List.pairwise_map.2 (hascends.imp Nat.ne_of_lt)
  · refine List.forall_mem_map.2 fun q hq => ?_
    rw [(hps q hq).1]
    exact hsmall _ (List.mem_map_of_mem hq)

/-- A definition whose parts are constructed as they are described is constructed as it is
described. -/
theorem constructBy_eq_ok (h : ts.WellFormed) {part made : SemId → Except Failure Codec}
    (hpart : ∀ ref C, part ref = .ok C → made ref = .ok C) {D : Codec}
    (hD : ts.describeBy part sid = .ok D) : ts.constructBy made sid = .ok D := by
  obtain ⟨d, hd, hD⟩ := bind_eq_ok.1 hD
  have hget := find_eq_ok.1 hd
  have hsound := h.sound hget
  refine bind_eq_ok.2 ⟨d, hd, ?_⟩
  cases d with
  | primitive width =>
    cases hD
    by_cases hwidth : width = 0
    · subst hwidth
      rfl
    · dsimp only
      rw [if_neg hwidth, if_neg hwidth]
      exact uint?_of_mem_primitiveWidths (h.mem_primitiveWidths hget) hwidth
  | unicode => exact hD
  | enumeration members =>
    cases hD
    obtain ⟨hne, hnames, htags, hsmall⟩ := hsound
    have hunion := @union?_of_nodup ("Enum#" ++ shortId sid)
      (members.map fun m => (m.2, m.1, Codec.unit)) (by simpa using hne) (by rwa [List.map_map])
      (by rwa [List.map_map]) (List.forall_mem_map.2 hsmall)
    rw [List.map_map] at hunion
    exact hunion
  | union variants =>
    obtain ⟨xs, hxs, hD⟩ := bind_eq_ok.1 hD
    cases hD
    obtain ⟨ps, rfl, rfl, hps⟩ := mapM_eq_ok.1 hxs
    have hparts : ∀ q ∈ ps, q.2.1 = q.1.1 ∧ q.2.2.1 = q.1.2.1 ∧ part q.1.2.2 = .ok q.2.2.2 := by
      intro q hq
      obtain ⟨C, hC, hq⟩ := bind_eq_ok.1 (hps q hq)
      rw [← pure_eq_ok.1 hq]
      exact ⟨rfl, rfl, hC⟩
    refine bind_eq_ok.2 ⟨ps.map fun q => ((q.2.1 : Int), q.2.2), mapM_map_eq_ok fun q hq => ?_, ?_⟩
    · obtain ⟨htag, hname, hC⟩ := hparts q hq
      refine bind_eq_ok.2 ⟨q.2.2.2, hpart _ _ hC, pure_eq_ok.2 ?_⟩
      rw [htag, ← hname]
    · exact union?_described hsound fun q hq => ⟨(hparts q hq).1, (hparts q hq).2.1⟩
  | tuple items =>
    obtain ⟨xs, hxs, hD⟩ := bind_eq_ok.1 hD
    exact bind_eq_ok.2 ⟨xs, mapM_mono hpart hxs, hD⟩
  | struct fields =>
    obtain ⟨split?, hsplit, hD⟩ := bind_eq_ok.1 hD
    refine bind_eq_ok.2 ⟨split?, constructText?_eq_ok hsplit, ?_⟩
    cases split? with
    | some c => exact hD
    | none =>
      obtain ⟨xs, hxs, hD⟩ := bind_eq_ok.1 hD
      cases hD
      obtain ⟨ps, rfl, rfl, hps⟩ := mapM_eq_ok.1 hxs
      have hparts : ∀ q ∈ ps, q.2.1 = q.1.1 ∧ part q.1.2 = .ok q.2.2 := by
        intro q hq
        obtain ⟨C, hC, hq⟩ := bind_eq_ok.1 (hps q hq)
        rw [← pure_eq_ok.1 hq]
        exact ⟨rfl, hC⟩
      have hnames : (ps.map Prod.snd).map Prod.fst = (ps.map Prod.fst).map Prod.fst := by
        rw [List.map_map, List.map_map]
        exact List.map_congr_left fun q hq => (hparts q hq).1
      refine bind_eq_ok.2 ⟨ps.map fun q => (q.2.1, q.2.2, false), mapM_map_eq_ok fun q hq => ?_, ?_⟩
      · obtain ⟨hname, hC⟩ := hparts q hq
        refine bind_eq_ok.2 ⟨q.2.2, hpart _ _ hC, pure_eq_ok.2 ?_⟩
        rw [hname]
      · have hstruct := @struct?_of_nodup ("Struct#" ++ shortId sid) (ps.map Prod.snd)
          (hnames ▸ hsound)
        rwa [List.map_map] at hstruct
  | array item length =>
    obtain ⟨byte, hbyte, hD⟩ := bind_eq_ok.1 hD
    refine bind_eq_ok.2 ⟨byte, hbyte, ?_⟩
    have hpos := h.array_pos hget
    cases byte with
    | true =>
      cases hD
      exact byteArray?_of_pos hpos
    | false =>
      obtain ⟨C, hC, hD⟩ := bind_eq_ok.1 hD
      cases hD
      exact bind_eq_ok.2 ⟨C, hpart item C hC, array?_of_pos hpos⟩
  | list item min max =>
    cases hcharset : Charset.ofId? item with
    | some cs =>
      simp only [hcharset] at hD ⊢
      obtain ⟨b, hb, hD⟩ := bind_eq_ok.1 hD
      cases hD
      exact ascii?_self hb
    | none =>
      simp only [hcharset] at hD ⊢
      obtain ⟨byte, hbyte, hD⟩ := bind_eq_ok.1 hD
      refine bind_eq_ok.2 ⟨byte, hbyte, ?_⟩
      cases byte with
      | true => exact hD
      | false =>
        obtain ⟨C, hC, hD⟩ := bind_eq_ok.1 hD
        exact bind_eq_ok.2 ⟨C, hpart item C hC, hD⟩
  | set item min max =>
    obtain ⟨C, hC, hD⟩ := bind_eq_ok.1 hD
    exact bind_eq_ok.2 ⟨C, hpart item C hC, hD⟩
  | map key value min max =>
    obtain ⟨K, hK, hD⟩ := bind_eq_ok.1 hD
    obtain ⟨V, hV, hD⟩ := bind_eq_ok.1 hD
    exact bind_eq_ok.2 ⟨K, hpart key K hK, bind_eq_ok.2 ⟨V, hpart value V hV, hD⟩⟩

/-- What is described with some fuel is constructed as deep. -/
theorem construct_eq_ok (h : ts.WellFormed) {n : Nat} {D : Codec} (hD : ts.describe n sid = .ok D) :
    ts.construct n sid = .ok D := by
  induction n generalizing sid D with
  | zero => cases hD
  | succ n ih => exact h.constructBy_eq_ok (fun ref C hC => ih hC) hD

end WellFormed

/-! ## Checking a byte string -/

/-- **Checking never breaks off.** For every id that a grown type system holds, the checked
construction gives a codec, following references no deeper than there are definitions; the codec is
the one that byte strings are checked with; every byte string has a value or a strict error; and
every state of bytes is judged, whether it is an encoding of the type or not. -/
theorem check_total (h : Grown ts) (hsid : ts.contains sid = true) :
    (∃ D, ts.construct (ts.size + 1) sid = .ok D ∧ ts.codecOf sid = .ok D) ∧
      (∀ octets, (∃ v, ts.check sid octets = .ok v) ∨
        ∃ e, ts.check sid octets = .error (.strict e)) ∧
      ∀ octets path, ∃ found, valueViolations ts sid (.bytes octets) path = .ok found := by
  have hts := h.reachable.wellFormed
  -- references lead down to definitions without references, so following them ends with a codec
  obtain ⟨D, hD⟩ := hts.exists_codecOf (h.allFounded sid hsid)
  have hstrict : ∀ octets, IsStrict (D.decode octets) := by
    intro octets
    exact (strict_read (steady_of_regular (hts.regular hD))).exactly octets
  refine ⟨⟨D, hts.construct_eq_ok hD, hD⟩, fun octets => ?_, fun octets path => ?_⟩
  · have hcheck : ts.check sid octets = D.decode octets := by rw [check, hD]; rfl
    rw [hcheck]
    cases hdecode : D.decode octets with
    | ok v => exact .inl ⟨v, rfl⟩
    | error f =>
      obtain ⟨e, rfl⟩ := hstrict octets f hdecode
      exact .inr ⟨e, rfl⟩
  · have hstate : (do (← ts.codecOf sid).decodeState (.bytes octets)) = D.decode octets := by
      rw [hD]
      rfl
    rw [valueViolations, hsid, hstate]
    cases hdecode : D.decode octets with
    | ok v => exact ⟨[], rfl⟩
    | error f =>
      obtain ⟨e, rfl⟩ := hstrict octets f hdecode
      exact ⟨_, rfl⟩

/-- Checking against the type of lists of truth values never breaks off. -/
theorem check_total_list : ∃ sid ts, (Codec.list .bool .tiny none).derive empty = (.ok sid, ts) ∧
    (∃ D, ts.construct (ts.size + 1) sid = .ok D ∧ ts.codecOf sid = .ok D) ∧
      (∀ octets, (∃ v, ts.check sid octets = .ok v) ∨
        ∃ e, ts.check sid octets = .error (.strict e)) ∧
      ∀ octets path, ∃ found, valueViolations ts sid (.bytes octets) path = .ok found := by
  obtain ⟨sid, ts, hderive, -⟩ := exists_derive_list derive_bool_empty (by decide) .tiny none
  have hgrown : Grown ((Codec.list .bool .tiny none).derive empty).2 := .derive _ .empty
  rw [hderive] at hgrown
  exact ⟨sid, ts, hderive, check_total hgrown (contains_of_derive hderive)⟩

end TypeSystem

end StrictContract
