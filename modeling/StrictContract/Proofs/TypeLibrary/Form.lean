import Mathlib.Data.List.Forall2
import StrictContract.Proofs.TypeDef
import StrictContract.Proofs.Value.Order
import StrictContract.TypeLibrary.Compilation

/-! # Forms — what the mapping of a declaration says

The **form** of a declaration is its kind of type with the parts that it gives: names of fields,
variants and members, tags, bounds, and the names of the types that it refers to. A form is
**assembled** to a definition from the ids of these types. Compiling a declaration that has a form
assembles the form and inserts the definition. -/

namespace StrictContract

namespace Draft

/-- The number that a value is. -/
def natOf? : Value → Option Nat
  | .int n => if 0 ≤ n then some n.toNat else none
  | _ => none

/-- The values that are natural numbers. -/
theorem natOf?_eq_some {v : Value} {n : Nat} : natOf? v = some n ↔ v = .ofNat n := by
  unfold natOf?
  cases v <;> simp [Value.ofNat]
  omega

end Draft

open Draft (nameOf? natOf?)

/-- The **form** of a declaration. References are names. -/
inductive Form where
  | primitive (width : Nat)
  | unicode
  /-- Named members with their tags. -/
  | enumeration (members : List (String × Nat))
  /-- Named variants, each with its tag and its type. -/
  | union (variants : List (String × Nat × String))
  | option (inner : String)
  | tuple (items : List String)
  /-- Named fields with their types. -/
  | struct (fields : List (String × String))
  | array (item : String) (length : Nat)
  | list (item : String) (min max : Nat)
  /-- A string; the bounds count all characters. -/
  | ascii (first rest : Charset) (min max : Nat)
  | set (item : String) (min max : Nat)
  | map (key value : String) (min max : Nat)
deriving DecidableEq

namespace Form

/-! ## Reading forms -/

/-- The number that a mapping has under a key, or else a default. -/
def numberAt? (decl : Value) (key : String) (default : Nat) : Option Nat :=
  match decl.entry? key with
  | some v => natOf? v
  | none => some default

/-- The charset that a value names. -/
def charsetOf? (v : Value) : Option Charset := (nameOf? v).bind Charset.ofName?

/-- The names and tags of members. -/
def membersOf? (v : Value) : Option (List (String × Nat)) := do
  (← v.entries?).mapM fun (name, tag) => return (← nameOf? name, ← natOf? tag)

/-- The tag and the type of a variant. -/
def variantOf? (v : Value) : Option (Nat × String) :=
  match v with
  | .map _ => do return (← natOf? (← v.entry? "tag"), ← nameOf? (← v.entry? "type"))
  | _ => none

/-- The names, tags and types of variants. -/
def variantsOf? (v : Value) : Option (List (String × Nat × String)) := do
  (← v.entries?).mapM fun (name, x) => return (← nameOf? name, ← variantOf? x)

/-- The name and the type of a field, which is a mapping of one entry. -/
def fieldOf? (v : Value) : Option (String × String) :=
  match v with
  | .map [(name, ty)] => return (← nameOf? name, ← nameOf? ty)
  | _ => none

/-- The form of a declaration: the first known key counts. -/
def ofValue? (decl : Value) : Option Form := do
  if let some width := decl.entry? "primitive" then return primitive (← natOf? width)
  else if (decl.entry? "unicode").isSome then return unicode
  else if let some members := decl.entry? "enum" then return enumeration (← membersOf? members)
  else if let some variants := decl.entry? "union" then return union (← variantsOf? variants)
  else if let some inner := decl.entry? "option" then return option (← nameOf? inner)
  else if let some items := decl.entry? "tuple" then
    return tuple (← (← items.items?).mapM nameOf?)
  else if let some fields := decl.entry? "struct" then
    return struct (← (← fields.items?).mapM fieldOf?)
  else if let some item := decl.entry? "array" then
    return array (← nameOf? item) (← natOf? (← decl.entry? "len"))
  else if let some item := decl.entry? "list" then
    return list (← nameOf? item) (← numberAt? decl "min" 0) (← numberAt? decl "max" 0xffff)
  else if let some rest := decl.entry? "ascii" then
    return ascii (← charsetOf? ((decl.entry? "first").getD rest)) (← charsetOf? rest)
      (← numberAt? decl "min" 1) (← numberAt? decl "max" 0xff)
  else if let some item := decl.entry? "set" then
    return set (← nameOf? item) (← numberAt? decl "min" 0) (← numberAt? decl "max" 0xffff)
  else if let some items := decl.entry? "map" then
    match ← items.items? with
    | [key, value] =>
      return map (← nameOf? key) (← nameOf? value) (← numberAt? decl "min" 0)
        (← numberAt? decl "max" 0xffff)
    | _ => none
  else none

/-! ## Assembling definitions -/

section

-- `ref` gives the id of a type by its name, given the place of the reference.
variable {m : Type → Type} [Monad m] (ref : String → String → m SemId) (define : TypeDef → m SemId)

/-- The definition that a form describes. Members and variants come in ascending order of their
tags; of variants with one tag the last one counts. -/
def assemble (name : String) : Form → m TypeDef
  | primitive width => return .primitive width
  | unicode => return .unicode
  | enumeration members => return .enumeration (members.mergeSort fun a b => decide (a.2 ≤ b.2))
  | union variants => do
    let rows ← (variants.mergeSort fun a b => decide (a.2.1 ≤ b.2.1)).mapM
      fun (variant, tag, ty) => do return (tag, variant, ← ref ty name)
    return .union (lastByKey Prod.fst rows)
  | option inner => do
    let none ← ref "Unit" name
    let some ← ref inner name
    return .union [(0, "none", none), (1, "some", some)]
  | tuple items => do return .tuple (← items.mapM fun item => ref item name)
  | struct fields => do
    return .struct (← fields.mapM fun (field, ty) => do
      return (field, ← ref ty (name ++ "." ++ field)))
  | array item length => do return .array (← ref item name) length
  | list item min max => do return .list (← ref item name) min max
  | ascii first rest min max => do
    let restId ← define rest.definition
    if Codec.isSplit first rest then
      let firstId ← define first.definition
      let tailId ← define (.list restId (min - 1) (max - 1))
      return .struct [("first", firstId), ("rest", tailId)]
    else return .list restId min max
  | set item min max => do return .set (← ref item name) min max
  | map key value min max => do
    let keyId ← ref key name
    let valueId ← ref value name
    return .map keyId valueId min max

end

/-- A form **describes** a definition, where `means` relates the names of types to their ids. -/
inductive Describes (means : String → SemId → Prop) : Form → TypeDef → Prop
  | primitive (width : Nat) : Describes means (.primitive width) (.primitive width)
  | unicode : Describes means .unicode .unicode
  /-- Members come in ascending order of their tags. -/
  | enumeration (members : List (String × Nat)) : Describes means (.enumeration members)
      (.enumeration (members.mergeSort fun a b => decide (a.2 ≤ b.2)))
  /-- Variants come in ascending order of their tags; of those with one tag the last one counts. -/
  | union {variants : List (String × Nat × String)} {rows : List (Nat × String × SemId)}
      (h : List.Forall₂ (fun v row => row.1 = v.2.1 ∧ row.2.1 = v.1 ∧ means v.2.2 row.2.2)
        (variants.mergeSort fun a b => decide (a.2.1 ≤ b.2.1)) rows) :
      Describes means (.union variants) (.union (lastByKey Prod.fst rows))
  /-- An optional value is nothing or something. -/
  | option {inner : String} {none some : SemId} (hnone : means "Unit" none)
      (hsome : means inner some) :
      Describes means (.option inner) (.union [(0, "none", none), (1, "some", some)])
  | tuple {items : List String} {sids : List SemId} (h : List.Forall₂ means items sids) :
      Describes means (.tuple items) (.tuple sids)
  | struct {fields : List (String × String)} {known : List (String × SemId)}
      (h : List.Forall₂ (fun f k => k.1 = f.1 ∧ means f.2 k.2) fields known) :
      Describes means (.struct fields) (.struct known)
  | array {item : String} {sid : SemId} (h : means item sid) (length : Nat) :
      Describes means (.array item length) (.array sid length)
  | list {item : String} {sid : SemId} (h : means item sid) (min max : Nat) :
      Describes means (.list item min max) (.list sid min max)
  /-- A string over one charset is a list of its characters. -/
  | text {cs : Charset} {sid : SemId} (h : cs.definition.toDraft.semId = .ok sid) (min max : Nat) :
      Describes means (.ascii cs cs min max) (.list sid min max)
  /-- Any other string is a first character and the list of the remaining ones. -/
  | splitText {first rest : Charset} {firstId restId tailId : SemId} {min max : Nat}
      (hsplit : Codec.isSplit first rest = true)
      (hfirst : first.definition.toDraft.semId = .ok firstId)
      (hrest : rest.definition.toDraft.semId = .ok restId)
      (htail : (TypeDef.toDraft (.list restId (min - 1) (max - 1))).semId = .ok tailId) :
      Describes means (.ascii first rest min max) (.struct [("first", firstId), ("rest", tailId)])
  | set {item : String} {sid : SemId} (h : means item sid) (min max : Nat) :
      Describes means (.set item min max) (.set sid min max)
  | map {key value : String} {keyId valueId : SemId} (hkey : means key keyId)
      (hvalue : means value valueId) (min max : Nat) :
      Describes means (.map key value min max) (.map keyId valueId min max)

/-- What is described stays so when names keep their ids. -/
theorem Describes.imp {means means' : String → SemId → Prop}
    (h : ∀ ty sid, means ty sid → means' ty sid) {form : Form} {d : TypeDef}
    (hd : form.Describes means d) : form.Describes means' d := by
  cases hd with
  | primitive width => exact .primitive width
  | unicode => exact .unicode
  | enumeration members => exact .enumeration members
  | union hrows => exact .union (hrows.imp fun _ _ hr => ⟨hr.1, hr.2.1, h _ _ hr.2.2⟩)
  | option hnone hsome => exact .option (h _ _ hnone) (h _ _ hsome)
  | tuple hitems => exact .tuple (hitems.imp fun _ _ => h _ _)
  | struct hfields => exact .struct (hfields.imp fun _ _ hf => ⟨hf.1, h _ _ hf.2⟩)
  | array hitem length => exact .array (h _ _ hitem) length
  | list hitem min max => exact .list (h _ _ hitem) min max
  | text hsid min max => exact .text hsid min max
  | splitText hsplit hfirst hrest htail => exact .splitText hsplit hfirst hrest htail
  | set hitem min max => exact .set (h _ _ hitem) min max
  | map hkey hvalue min max => exact .map (h _ _ hkey) (h _ _ hvalue) min max

/-- The rows of a union have the tags of its variants. -/
theorem tags_of_rows {means : String → SemId → Prop} {variants : List (String × Nat × String)}
    {rows : List (Nat × String × SemId)}
    (h : List.Forall₂ (fun v row => row.1 = v.2.1 ∧ row.2.1 = v.1 ∧ means v.2.2 row.2.2)
      variants rows) : rows.map Prod.fst = variants.map fun v => v.2.1 := by
  rw [← List.forall₂_eq_eq_eq, List.forall₂_map_left_iff, List.forall₂_map_right_iff]
  exact h.flip.imp fun _ _ h => h.1

/-- Refuses a string with inverted bounds, and one that may be empty although its first character
has a charset of its own. -/
def check (name : String) : Form → Except Failure Unit
  | ascii first rest min max => do
    Draft.checkSizing (.ofNat min) (.ofNat max)
    if Codec.isSplit first rest then
      if min < 1 then .error (.strict (.of name .emptySplitString))
  | _ => .ok ()

/-- Compiles a form: after its parts the definition is inserted. -/
def compile (ref : String → String → Compiling SemId) (name : String) (form : Form) :
    Compiling SemId := do
  .given (form.check name)
  .insert (← form.assemble ref (fun d => .insert d.toDraft) name).toDraft

/-! ## What is read -/

section

variable {v : Value} {name : String}

/-- A bound is the number that is read, or the default. -/
theorem getD_of_numberAt? {key : String} {default n : Nat} (h : numberAt? v key default = some n) :
    (v.entry? key).getD (.ofNat default) = .ofNat n := by
  unfold numberAt? at h
  cases hentry : v.entry? key with
  | none =>
    rw [hentry] at h
    rw [← Option.some.inj h]
    rfl
  | some w =>
    rw [hentry] at h
    exact Draft.natOf?_eq_some.1 h

theorem charset_of_charsetOf? {cs : Charset} (h : charsetOf? v = some cs) :
    TypeLibrary.charset v = .ok cs := by
  obtain ⟨s, hs, hcs⟩ := Option.bind_eq_some_iff.1 h
  rw [Draft.nameOf?_eq_some.1 hs, TypeLibrary.charset, hcs]

/-- Names that are read are texts. -/
theorem eq_texts_of_mapM {items : List Value} {names : List String}
    (h : items.mapM nameOf? = some names) : items = names.map .text :=
  (Draft.map_of_mapM_eq_some (fun _ _ h => (Draft.nameOf?_eq_some.1 h).symm) h).symm

/-- Members that are read have texts as names and numbers as tags. -/
theorem eq_of_membersOf? {members : List (String × Nat)} (h : membersOf? v = some members) :
    v = .map (members.map fun m => (.text m.1, .ofNat m.2)) := by
  obtain ⟨entries, hentries, h⟩ := Option.bind_eq_some_iff.1 h
  have hmap := Draft.map_of_mapM_eq_some (g := fun m : String × Nat => (Value.text m.1, Value.ofNat m.2))
    (fun e m hm => ?_) h
  · cases v with
    | map es => rw [hmap, Option.some.inj hentries]
    | _ => cases hentries
  · simp only [Option.bind_eq_bind, Option.bind_eq_some_iff, Option.pure_def, Option.some.injEq,
      Draft.nameOf?_eq_some, Draft.natOf?_eq_some] at hm
    obtain ⟨name, hname, tag, htag, rfl⟩ := hm
    exact Prod.ext hname.symm htag.symm

/-- A variant that is read is a mapping with its tag and its type. -/
theorem required_of_variantOf? {x : Nat × String} (h : variantOf? v = some x) :
    TypeLibrary.required v "tag" = .ok (.ofNat x.1) ∧
      TypeLibrary.required v "type" = .ok (.text x.2) := by
  cases v with
  | map entries =>
    simp only [variantOf?, Option.bind_eq_bind, Option.bind_eq_some_iff, Option.pure_def,
      Option.some.injEq, Draft.nameOf?_eq_some, Draft.natOf?_eq_some] at h
    obtain ⟨_, htag, tag, rfl, _, htype, ty, rfl, rfl⟩ := h
    rw [TypeLibrary.required, TypeLibrary.required, htag, htype]
    exact ⟨rfl, rfl⟩
  | _ => cases h

/-- Variants that are read have texts as names. -/
theorem eq_of_variantsOf? {variants : List (String × Nat × String)}
    (h : variantsOf? v = some variants) :
    ∃ ps : List ((String × Nat × String) × Value), v = .map (ps.map fun p => (.text p.1.1, p.2)) ∧
      variants = ps.map Prod.fst ∧ ∀ p ∈ ps, variantOf? p.2 = some p.1.2 := by
  cases v with
  | map entries =>
    replace h : (entries.mapM fun e => do return (← nameOf? e.1, ← variantOf? e.2)) =
      some variants := h
    have hparts : ∃ ps : List ((String × Nat × String) × Value),
        entries = ps.map (fun p => (.text p.1.1, p.2)) ∧ variants = ps.map Prod.fst ∧
          ∀ p ∈ ps, variantOf? p.2 = some p.1.2 := by
      induction entries generalizing variants with
      | nil =>
        cases h
        exact ⟨[], rfl, rfl, nofun⟩
      | cons e entries ih =>
        rw [List.mapM_cons] at h
        simp only [Option.bind_eq_bind, Option.bind_eq_some_iff, Option.pure_def,
          Option.some.injEq, Draft.nameOf?_eq_some] at h
        obtain ⟨_, ⟨name, hname, x, hx, rfl⟩, rest, hrest, rfl⟩ := h
        obtain ⟨ps, rfl, rfl, hps⟩ := ih hrest
        exact ⟨((name, x), e.2) :: ps, by rw [List.map_cons, ← hname], rfl,
          List.forall_mem_cons.2 ⟨hx, hps⟩⟩
    exact hparts.imp fun ps h => ⟨congrArg Value.map h.1, h.2⟩
  | _ => cases h

/-- A field that is read is a mapping of its name to its type. -/
theorem eq_of_fieldOf? {f : String × String} (h : fieldOf? v = some f) :
    v = .map [(.text f.1, .text f.2)] := by
  unfold fieldOf? at h
  split at h
  · simp only [Option.bind_eq_bind, Option.bind_eq_some_iff, Option.pure_def, Option.some.injEq,
      Draft.nameOf?_eq_some] at h
    obtain ⟨name, rfl, ty, rfl, rfl⟩ := h
    rfl
  · cases h

end

/-! ## Compiling forms -/

section

variable {decl v : Value} {name : String} {form : Form} {ref : Value → String → Compiling SemId}

/-- What is given is no effect. -/
@[simp] theorem given_ok {α : Type} (a : α) : Compiling.given (.ok a) = pure a := rfl

section

variable {m : Type → Type} [Monad m] [LawfulMonad m] {α β γ : Type}

/-- A loop of which the results are changed. -/
theorem mapM_map_result (f : α → m β) (g : β → γ) (xs : List α) :
    xs.mapM (fun x => g <$> f x) = List.map g <$> xs.mapM f := by
  induction xs with
  | nil => simp
  | cons x xs ih => simp [ih]

/-- Loops with equal rounds are equal. -/
theorem mapM_congr {f g : α → m β} {xs : List α} (h : ∀ x ∈ xs, f x = g x) :
    xs.mapM f = xs.mapM g := by
  induction xs with
  | nil => simp
  | cons x xs ih =>
    rw [List.forall_mem_cons] at h
    rw [List.mapM_cons, List.mapM_cons, h.1, ih h.2]

end

/-- A union that can be read is compiled by its form. -/
theorem compileUnion_eq {variants : List (String × Nat × String)}
    (h : variantsOf? v = some variants) :
    TypeLibrary.compileUnion ref v name =
      (union variants).compile (fun ty place => ref (.text ty) place) name := by
  obtain ⟨ps, rfl, rfl, hps⟩ := eq_of_variantsOf? h
  let raw : (String × Nat × String) × Value → Value × Value × Value :=
    fun p => (.text p.1.1, p.2, .ofNat p.1.2.1)
  let row : Nat × String × SemId → Value × Value × SemId := fun r => (.ofNat r.1, .text r.2.1, r.2.2)
  -- all tags are read before any reference is compiled, so both loops are looked at apart
  have htagged : (ps.map fun p => (Value.text p.1.1, p.2)).mapM (fun x => do
      return (x.1, x.2, ← TypeLibrary.required x.2 "tag")) = .ok (ps.map raw) := by
    rw [List.mapM_map, mapM_congr (g := fun p => pure (raw p)) fun p hp => ?_]
    · exact List.mapM_pure
    · dsimp only [Function.comp_apply]
      rw [(required_of_variantOf? (hps p hp)).1]
      rfl
  have hsorted := Value.sortOn_ofNat (fun x : Value × Value × Value => x.2.2) raw
    (fun p => p.1.2.1) (fun _ => rfl) ps
  have hround : ∀ p ∈ ps.mergeSort (fun a b => decide (a.1.2.1 ≤ b.1.2.1)), (do
      let sid ← ref (← .given (TypeLibrary.required (raw p).2.1 "type")) name
      if (raw p).2.2.isKey then return ((raw p).2.2, (raw p).1, sid)
      else .given (misuse .wrongType)) = (row <$> do
        return (p.1.2.1, p.1.1, ← ref (.text p.1.2.2) name) : Compiling (Value × Value × SemId)) := by
    intro p hp
    have htype := (required_of_variantOf? (hps p (List.mem_mergeSort.1 hp))).2
    simp [raw, row, htype, Value.isKey, Value.ofNat]
  have hunique : ∀ rows : List (Nat × String × SemId), Value.unique (rows.map row) =
      (lastByKey Prod.fst rows).map row := by
    exact Value.unique_ofNat fun x : String × SemId => (Value.text x.1, x.2)
  unfold TypeLibrary.compileUnion
  simp only [TypeLibrary.mapping]
  rw [show (do let es ← Except.ok (ps.map fun p => (Value.text p.1.1, p.2)); es.mapM fun x => do
      return (x.1, x.2, ← TypeLibrary.required x.2 "tag")) = Except.ok (ps.map raw) from htagged,
    given_ok, pure_bind, hsorted, given_ok, pure_bind, List.mapM_map]
  simp only [Function.comp_def]
  rw [mapM_congr hround, mapM_map_result]
  have hmap : (ps.map Prod.fst).mergeSort (fun a b => decide (a.2.1 ≤ b.2.1)) =
      (ps.mergeSort fun a b => decide (a.1.2.1 ≤ b.1.2.1)).map Prod.fst := by
    rw [List.map_mergeSort]
    exact fun _ _ _ _ => rfl
  simp only [compile, check, assemble, given_ok, pure_bind, bind_assoc, hmap, List.mapM_map,
    bind_map_left, hunique]
  rfl

/-- A struct that can be read is compiled by its form. -/
theorem compileStruct_eq {items : List Value} {fields : List (String × String)}
    (hitems : v.items? = some items) (h : items.mapM fieldOf? = some fields) :
    TypeLibrary.compileStruct ref v name =
      (struct fields).compile (fun ty place => ref (.text ty) place) name := by
  have heq := Draft.map_of_mapM_eq_some (fun _ _ h => (eq_of_fieldOf? h).symm) h
  subst heq
  let row : String × SemId → Value × SemId := fun f => (.text f.1, f.2)
  have hround : ∀ f : String × String, (do
      let x ← Compiling.given (TypeLibrary.single (.map [(.text f.1, .text f.2)]))
      return (x.1, ← ref x.2 (name ++ "." ++ x.1.display))) = (row <$> do
        return (f.1, ← ref (.text f.2) (name ++ "." ++ f.1)) : Compiling (Value × SemId)) := by
    intro f
    have hsingle : TypeLibrary.single (.map [(.text f.1, .text f.2)]) =
      .ok (Value.text f.1, Value.text f.2) := rfl
    have hshown : (Value.text f.1).display = f.1 := rfl
    simp [hsingle, row, hshown]
  unfold TypeLibrary.compileStruct
  simp only [Value.iterate, hitems, given_ok, pure_bind, List.mapM_map, Function.comp_def, hround,
    mapM_map_result, bind_map_left, compile, check, assemble, bind_assoc]
  rfl

/-- A string that can be read is compiled by its form. -/
theorem compileText_eq {first rest : Charset} {min max : Nat}
    (hfirst : charsetOf? ((decl.entry? "first").getD v) = some first) (hrest : charsetOf? v = some rest)
    (hmin : numberAt? decl "min" 1 = some min) (hmax : numberAt? decl "max" 0xff = some max) :
    TypeLibrary.compileText decl v name =
      (ascii first rest min max).compile (fun ty place => ref (.text ty) place) name := by
  have hmin := getD_of_numberAt? hmin
  have hmax := getD_of_numberAt? hmax
  unfold TypeLibrary.compileText
  rw [charset_of_charsetOf? hrest, charset_of_charsetOf? hfirst,
    show (decl.entry? "min").getD (.int 1) = _ from hmin,
    show (decl.entry? "max").getD (.int 0xff) = _ from hmax]
  simp only [given_ok, pure_bind, compile, check, assemble]
  cases hsizing : Draft.checkSizing (.ofNat min) (.ofNat max) with
  | error e => rfl
  | ok _ =>
  have hordered := Draft.checkSizing_ofNat.1 hsizing
  cases hsplit : Codec.isSplit first rest with
  | false =>
    simp
    rfl
  | true =>
  have hprecedes : (Value.ofNat min).precedes (.int 1) = .ok (decide (min < 1)) :=
    Value.precedes_ofNat min 1
  by_cases hempty : min < 1
  · simp [hprecedes, hempty]
    rfl
  · have hlowered : ∀ n, min ≤ n → TypeLibrary.lowered (.ofNat n) = .ok (.ofNat (n - 1)) := by
      intro n hn
      have hcast : (n : Int) - 1 = ((n - 1 : Nat) : Int) := by omega
      exact congrArg (fun i => Except.ok (Value.int i)) hcast
    simp [hprecedes, hempty, hlowered min (Nat.le_refl _), hlowered max hordered]
    rfl

/-- The mapping of a declaration that has a form is compiled by it. -/
theorem compileForm_eq (h : ofValue? decl = some form) :
    TypeLibrary.compileForm ref decl name =
      form.compile (fun ty place => ref (.text ty) place) name := by
  simp only [ofValue?, Option.bind_eq_bind, Option.pure_def] at h
  unfold TypeLibrary.compileForm
  -- the keys are looked for in the same order by both
  cases hprimitive : decl.entry? "primitive" with
  | some width =>
    simp only [hprimitive, Option.bind_eq_some_iff, Draft.natOf?_eq_some, Option.some.injEq] at h
    obtain ⟨width, rfl, rfl⟩ := h
    rfl
  | none =>
  simp only [hprimitive] at h
  cases hunicode : (decl.entry? "unicode").isSome with
  | true =>
    simp only [hunicode, if_true, Option.some.injEq] at h
    subst h
    rfl
  | false =>
  simp only [hunicode, Bool.false_eq_true, if_false] at h ⊢
  cases henum : decl.entry? "enum" with
  | some members =>
    simp only [henum, Option.bind_eq_some_iff, Option.some.injEq] at h
    obtain ⟨members, hmembers, rfl⟩ := h
    have hsorted := Value.sortOn_ofNat Prod.snd
      (fun m : String × Nat => (Value.text m.1, Value.ofNat m.2)) Prod.snd (fun _ => rfl) members
    rw [eq_of_membersOf? hmembers]
    simp only [TypeLibrary.mapping, compile, check, assemble, given_ok, pure_bind]
    rw [show (Except.ok (members.map _) >>= fun es => Value.sortOn Prod.snd es) = _ from hsorted]
    rfl
  | none =>
  simp only [henum] at h ⊢
  cases hunion : decl.entry? "union" with
  | some variants =>
    simp only [hunion, Option.bind_eq_some_iff, Option.some.injEq] at h
    obtain ⟨variants, hvariants, rfl⟩ := h
    exact compileUnion_eq hvariants
  | none =>
  simp only [hunion] at h ⊢
  cases hoption : decl.entry? "option" with
  | some inner =>
    simp only [hoption, Option.bind_eq_some_iff, Draft.nameOf?_eq_some, Option.some.injEq] at h
    obtain ⟨inner, rfl, rfl⟩ := h
    simp only [compile, check, assemble, given_ok, pure_bind, bind_assoc]
    rfl
  | none =>
  simp only [hoption] at h ⊢
  cases htuple : decl.entry? "tuple" with
  | some items =>
    simp only [htuple, Option.bind_eq_some_iff, Option.some.injEq] at h
    obtain ⟨items, hitems, names, hnames, rfl⟩ := h
    rw [eq_texts_of_mapM hnames] at hitems
    simp only [Value.iterate, hitems, compile, check, assemble, given_ok, pure_bind, bind_assoc,
      List.mapM_map]
    rfl
  | none =>
  simp only [htuple] at h ⊢
  cases hstruct : decl.entry? "struct" with
  | some fields =>
    simp only [hstruct, Option.bind_eq_some_iff, Option.some.injEq] at h
    obtain ⟨items, hitems, fields, hfields, rfl⟩ := h
    exact compileStruct_eq hitems hfields
  | none =>
  simp only [hstruct] at h ⊢
  cases harray : decl.entry? "array" with
  | some item =>
    simp only [harray, Option.bind_eq_some_iff, Draft.nameOf?_eq_some, Draft.natOf?_eq_some,
      Option.some.injEq] at h
    obtain ⟨item, rfl, _, hlen, length, rfl, rfl⟩ := h
    have hrequired : TypeLibrary.required decl "len" = .ok (.ofNat length) := by
      cases decl with
      | map entries => rw [TypeLibrary.required, hlen]
      | _ => cases hlen
    simp only [hrequired, compile, check, assemble, given_ok, pure_bind, bind_assoc]
    rfl
  | none =>
  simp only [harray] at h ⊢
  cases hlist : decl.entry? "list" with
  | some item =>
    simp only [hlist, Option.bind_eq_some_iff, Draft.nameOf?_eq_some, Option.some.injEq] at h
    obtain ⟨item, rfl, min, hmin, max, hmax, rfl⟩ := h
    have hmin := getD_of_numberAt? hmin
    have hmax := getD_of_numberAt? hmax
    simp only [compile, check, assemble, given_ok, pure_bind, bind_assoc]
    rw [show (decl.entry? "min").getD (.int 0) = _ from hmin,
      show (decl.entry? "max").getD (.int 0xffff) = _ from hmax]
    rfl
  | none =>
  simp only [hlist] at h ⊢
  cases hascii : decl.entry? "ascii" with
  | some rest =>
    simp only [hascii, Option.bind_eq_some_iff, Option.some.injEq] at h
    obtain ⟨first, hfirst, rest, hrest, min, hmin, max, hmax, rfl⟩ := h
    exact compileText_eq hfirst hrest hmin hmax
  | none =>
  simp only [hascii] at h ⊢
  cases hset : decl.entry? "set" with
  | some item =>
    simp only [hset, Option.bind_eq_some_iff, Draft.nameOf?_eq_some, Option.some.injEq] at h
    obtain ⟨item, rfl, min, hmin, max, hmax, rfl⟩ := h
    have hmin := getD_of_numberAt? hmin
    have hmax := getD_of_numberAt? hmax
    simp only [compile, check, assemble, given_ok, pure_bind, bind_assoc]
    rw [show (decl.entry? "min").getD (.int 0) = _ from hmin,
      show (decl.entry? "max").getD (.int 0xffff) = _ from hmax]
    rfl
  | none =>
  simp only [hset] at h ⊢
  cases hmap : decl.entry? "map" with
  | some items =>
    simp only [hmap, Option.bind_eq_some_iff] at h
    obtain ⟨parts, hparts, h⟩ := h
    split at h
    · rename_i key value
      simp only [Option.bind_eq_some_iff, Draft.nameOf?_eq_some, Option.some.injEq] at h
      obtain ⟨key, rfl, value, rfl, min, hmin, max, hmax, rfl⟩ := h
      have hmin := getD_of_numberAt? hmin
      have hmax := getD_of_numberAt? hmax
      have hpair : items.unpair = .ok (.text key, .text value) := by
        rw [Value.unpair, Value.iterate, hparts]
        rfl
      simp only [hpair, compile, check, assemble, given_ok, pure_bind, bind_assoc]
      rw [show (decl.entry? "min").getD (.int 0) = _ from hmin,
        show (decl.entry? "max").getD (.int 0xffff) = _ from hmax]
      rfl
    · cases h
  | none =>
    simp only [hmap] at h
    cases h

end

end Form
end StrictContract
