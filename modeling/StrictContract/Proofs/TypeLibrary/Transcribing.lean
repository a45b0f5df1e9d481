import Mathlib.Data.List.TakeDrop
import Mathlib.Data.List.TakeWhile
import StrictContract.Codec.Declaration
import StrictContract.Proofs.TypeLibrary.Libraries
import StrictContract.Proofs.TypeSystem.Construction
import StrictContract.Proofs.TypeSystem.Language
import StrictContract.Proofs.TypeSystem.Room
import StrictContract.Proofs.Value.Keys
import StrictContract.TypeLibrary.Standard

/-! # Transcribing — codecs read from declarations

A declaration can be read as a codec: its form says of which kind the codec is, its references are
read as codecs in turn, and what a form does not tell, such as what a set is read as, is free. A codec
that is read in this way and passes the checks of the constructors is derived under the very id that
the library gives the name, in every type system that has room for it. -/

namespace StrictContract

open TypeSystem
open TypeSystem.Growth (Gives gives_insert gives_insert_leaf)

/-! ## Checked constructors -/

namespace Bounds

/-- Checked bounds have the given ends. -/
theorem of?_eq_ok {min max : Int} {b : Bounds} (h : Bounds.of? min max = .ok b) :
    (b.min : Int) = min ∧ (b.max : Int) = max := by
  unfold of? at h
  split at h
  · split at h
    · cases h
      dsimp only
      omega
    · cases h
  · cases h

theorem ends_of_of? {min max : Nat} {b : Bounds} (h : Bounds.of? min max = .ok b) :
    b.min = min ∧ b.max = max :=
  ⟨Int.ofNat.inj (of?_eq_ok h).1, Int.ofNat.inj (of?_eq_ok h).2⟩

end Bounds

namespace Codec

/-- A checked codec with bounds has those that are given. -/
theorem exists_bounds {f : Bounds → Codec} {min max : Nat} {c : Codec}
    (h : (do return f (← Bounds.of? min max)) = Except.ok c) :
    ∃ b, c = f b ∧ b.min = min ∧ b.max = max := by
  obtain ⟨b, hb, h⟩ := bind_eq_ok.1 h
  exact ⟨b, (Except.ok.inj h).symm, Bounds.ends_of_of? hb⟩

/-- The bounds of a checked string count all characters but a first one with a charset of its own. -/
theorem ascii?_eq_ok {first rest : Charset} {min max : Nat} {c : Codec}
    (h : ascii? first rest min max = .ok c) : ∃ b, c = ascii first rest b none ∧
      b.min = min - headLength first rest ∧ b.max = max - headLength first rest := by
  unfold ascii? at h
  cases hsplit : isSplit first rest with
  | true =>
    rw [hsplit, if_pos rfl] at h
    obtain ⟨-, h⟩ := unless_eq_ok.1 h
    obtain ⟨b, hb, h⟩ := bind_eq_ok.1 h
    have hends := Bounds.of?_eq_ok hb
    cases h
    refine ⟨b, rfl, ?_⟩
    rw [headLength, if_pos hsplit]
    omega
  | false =>
    rw [hsplit, if_neg Bool.false_ne_true] at h
    obtain ⟨b, hb, h⟩ := bind_eq_ok.1 h
    have hends := Bounds.of?_eq_ok hb
    cases h
    refine ⟨b, rfl, ?_⟩
    rw [headLength, hsplit]
    simp only [Bool.false_eq_true, if_false]
    omega

/-- The names of a checked enumeration are the given ones that name members. -/
theorem names_of_enumeration {name : String} {entries : List (String × Int)} {decl : Enumeration}
    (h : Enumeration.of? name entries = .ok decl) : decl.names =
      (entries.filter fun e => !isAttributeName name e.1).map fun e => (e.1, e.2.toNat) := by
  unfold Enumeration.of? at h
  obtain ⟨_, -, h⟩ := bind_eq_ok.1 h
  dsimp only at h
  split at h
  · obtain ⟨_, hreject, -⟩ := bind_eq_ok.1 h
    cases hreject
  · obtain ⟨_, -, h⟩ := bind_eq_ok.1 h
    obtain ⟨-, h⟩ := unless_eq_ok.1 h
    obtain ⟨_, -, h⟩ := bind_eq_ok.1 h
    cases h
    rw [List.partition_eq_filter_filter]
    rfl

/-- A checked struct without optional fields has the given ones. -/
theorem struct?_required_eq_ok {name : String} {fields : List (String × Codec)} {form : StructForm}
    {wrapped : Bool} {c : Codec}
    (h : struct? name (fields.map fun f => (f.1, f.2, false)) form wrapped = .ok c) :
    c = struct name fields form wrapped := by
  obtain ⟨-, -, -, xs, hxs, hchosen, rfl⟩ := struct?_eq_ok h
  have hrequired : ∀ x ∈ xs, (x.1.1, x.2) = (x.1.1, x.1.2.1) := by
    intro x hx
    obtain ⟨f, -, hf⟩ := List.mem_map.1 (hxs ▸ List.mem_map_of_mem hx)
    rcases hchosen x hx with ⟨hoptional, -⟩ | ⟨-, hsame⟩
    · rw [← hf] at hoptional
      cases hoptional
    · rw [hsame]
  have hback : xs.map (fun x => (x.1.1, x.1.2.1)) = fields := by
    have hmap := congrArg (List.map fun f : String × Codec × Bool => (f.1, f.2.1)) hxs
    rw [List.map_map, List.map_map] at hmap
    simpa [Function.comp_def] using hmap.symm
  rw [List.map_congr_left hrequired, hback]

/-- A checked union of variants with different tags has all of them, in ascending order of the tags. -/
theorem union?_eq_ok_of_nodup {name : String} {variants : List (Nat × String × Codec)} {c : Codec}
    (htags : (variants.map Prod.fst).Nodup)
    (h : union? name (variants.map fun x => ((x.1 : Int), x.2)) = .ok c) :
    c = union name (variants.mergeSort fun a b => decide (a.1 ≤ b.1)) := by
  have hlast : lastByKey Prod.fst (variants.map fun x => ((x.1 : Int), x.2)) =
      variants.map fun x => ((x.1 : Int), x.2) := by
    refine lastByKey_eq_self ?_
    rw [List.map_map]
    exact List.pairwise_map.2 ((List.pairwise_map.1 htags).imp fun hxy heq => hxy (Int.ofNat.inj heq))
  unfold union? at h
  rw [hlast] at h
  obtain ⟨-, h⟩ := unless_eq_ok.1 h
  obtain ⟨-, h⟩ := unless_eq_ok.1 h
  obtain ⟨_, -, h⟩ := bind_eq_ok.1 h
  cases h
  rw [List.map_map]
  simp [Function.comp_def]

end Codec

/-- A checked enumeration of which every name names a member has these members, if their tags are
different. -/
theorem Enumeration.members_of_checked {name : String} {members : List (String × Nat)}
    {decl : Enumeration} (hmembers : ∀ m ∈ members, isAttributeName name m.1 = false)
    (h : Enumeration.of? name (members.map fun m => (m.1, (m.2 : Int))) = .ok decl)
    (htags : (members.map Prod.snd).Nodup) : decl.members = members := by
  have hnames : decl.names = members := by
    have hall : (members.map fun m => (m.1, (m.2 : Int))).filter
        (fun e => !isAttributeName name e.1) = members.map fun m => (m.1, (m.2 : Int)) := by
      rw [List.filter_eq_self]
      refine List.forall_mem_map.2 fun m hm => ?_
      rw [hmembers m hm]
      rfl
    rw [Codec.names_of_enumeration h, hall, List.map_map]
    simp [Function.comp_def]
  rw [Enumeration.members, hnames, firstByKey_eq_self htags]

/-! ## Transcripts of forms -/

/-- A codec is a **transcript** of a form, where `reads` relates the names of types to their codecs.
It passes the checks of its constructor. Every name of an enumeration names a member, and the tags of
a union are different. -/
inductive Form.Transcript (reads : String → Codec → Prop) : Form → Codec → Prop
  | unit : Transcript reads (.primitive 0) .unit
  | uint {width : Nat} {c : Codec} (h : Codec.uint? (8 * width) = .ok c) :
      Transcript reads (.primitive width) c
  | sint {width : Nat} {c : Codec} (h : Codec.sint? (8 * width) = .ok c) :
      Transcript reads (.primitive width) c
  | unicode : Transcript reads .unicode .unicode
  /-- Members are written in ascending order of their tags. -/
  | enumeration {name : String} {members : List (String × Nat)} {decl : Enumeration}
      (hmembers : ∀ m ∈ members, isAttributeName name m.1 = false)
      (h : Enumeration.of? name ((members.mergeSort fun a b => decide (a.2 ≤ b.2)).map
        fun m => (m.1, (m.2 : Int))) = .ok decl) (serial : Nat) :
      Transcript reads (.enumeration members) (.enumeration { decl with serial })
  | union {name : String} {variants : List (String × Nat × String)}
      {parts : List (Nat × String × Codec)} {c : Codec}
      (htags : (variants.map fun v => v.2.1).Nodup)
      (hparts : List.Forall₂ (fun v x => x.1 = v.2.1 ∧ x.2.1 = v.1 ∧ reads v.2.2 x.2.2) variants parts)
      (h : Codec.union? name (parts.map fun x => ((x.1 : Int), x.2)) = .ok c) :
      Transcript reads (.union variants) c
  | option {inner : String} {x c : Codec} (hinner : reads inner x) (h : Codec.option? x = .ok c) :
      Transcript reads (.option inner) c
  | tuple {items : List String} {cs : List Codec} (hitems : List.Forall₂ reads items cs) :
      Transcript reads (.tuple items) (.tuple cs)
  | struct {name : String} {fields : List (String × String)} {parts : List (String × Codec)}
      {form : StructForm} {c : Codec}
      (hparts : List.Forall₂ (fun f x => x.1 = f.1 ∧ reads f.2 x.2) fields parts)
      (h : Codec.struct? name (parts.map fun x => (x.1, x.2, false)) form false = .ok c) :
      Transcript reads (.struct fields) c
  | array {item : String} {x c : Codec} {length : Nat} (hitem : reads item x)
      (h : Codec.array? x length = .ok c) : Transcript reads (.array item length) c
  | list {item : String} {x c : Codec} {min max : Nat} (hitem : reads item x)
      (h : Codec.list? x min max = .ok c) : Transcript reads (.list item min max) c
  /-- Sequences of bytes may be byte strings. -/
  | byteArray {item : String} {c : Codec} {length : Nat} (hitem : reads item (.uint 1))
      (h : Codec.byteArray? length = .ok c) : Transcript reads (.array item length) c
  | bytes {item : String} {c : Codec} {min max : Nat} (hitem : reads item (.uint 1))
      (h : Codec.bytes? min max = .ok c) : Transcript reads (.list item min max) c
  | ascii {first rest : Charset} {min max : Nat} {c : Codec}
      (h : Codec.ascii? first rest min max = .ok c) : Transcript reads (.ascii first rest min max) c
  | set {item : String} {x c : Codec} {min max : Nat} {form : SetForm} (hitem : reads item x)
      (h : Codec.set? x min max form = .ok c) : Transcript reads (.set item min max) c
  | map {key value : String} {x y c : Codec} {min max : Nat} {form : MapForm} (hkey : reads key x)
      (hvalue : reads value y) (h : Codec.map? x y min max form = .ok c) :
      Transcript reads (.map key value min max) c

/-! ### Parts of a transcript -/

section

variable {α β γ : Type} {R : α → β → Prop} {S : α → γ → Prop} {T : β → γ → Prop}

/-- Two lists that are both related to a third one are related to each other. -/
theorem forall₂_of_common (h : ∀ x y z, R x y → S x z → T y z) {xs : List α} {ys : List β}
    {zs : List γ} (hR : List.Forall₂ R xs ys) (hS : List.Forall₂ S xs zs) : List.Forall₂ T ys zs := by
  induction hR generalizing zs with
  | nil =>
    cases hS
    exact .nil
  | cons hxy _ ih =>
    cases hS with
    | cons hxz hS => exact .cons (h _ _ _ hxy hxz) (ih hS)

/-- Related lists stay related when both are sorted by numbers that related items share. -/
theorem forall₂_mergeSort (key : α → Nat) (key' : β → Nat) (hkey : ∀ x y, R x y → key' y = key x)
    {xs : List α} {ys : List β} (h : List.Forall₂ R xs ys) :
    List.Forall₂ R (xs.mergeSort fun a b => decide (key a ≤ key b))
      (ys.mergeSort fun a b => decide (key' a ≤ key' b)) := by
  have hpairs : ∃ ps : List (α × β), xs = ps.map Prod.fst ∧ ys = ps.map Prod.snd ∧
      ∀ p ∈ ps, R p.1 p.2 := by
    induction h with
    | nil => exact ⟨[], rfl, rfl, nofun⟩
    | @cons x y xs ys hxy _ ih =>
      obtain ⟨ps, rfl, rfl, hps⟩ := ih
      exact ⟨(x, y) :: ps, rfl, rfl, List.forall_mem_cons.2 ⟨hxy, hps⟩⟩
  obtain ⟨ps, rfl, rfl, hps⟩ := hpairs
  -- both lists are sorted like the list of pairs
  have hfst : (ps.mergeSort fun a b => decide (key a.1 ≤ key b.1)).map Prod.fst =
      (ps.map Prod.fst).mergeSort fun a b => decide (key a ≤ key b) :=
    List.map_mergeSort fun _ _ _ _ => rfl
  have hsnd : (ps.mergeSort fun a b => decide (key a.1 ≤ key b.1)).map Prod.snd =
      (ps.map Prod.snd).mergeSort fun a b => decide (key' a ≤ key' b) :=
    List.map_mergeSort fun a ha b hb => by rw [hkey _ _ (hps a ha), hkey _ _ (hps b hb)]
  rw [← hfst, ← hsnd, List.forall₂_map_left_iff, List.forall₂_map_right_iff, List.forall₂_same]
  exact fun p hp => hps p (List.mem_mergeSort.1 hp)

end

namespace Form

section

variable {reads : String → Codec → Prop} {means : String → SemId → Prop} {d : TypeDef} {sid : SemId}

-- the names of types are read as codecs that give the ids which they mean
variable (hreads : ∀ ty c sid, reads ty c → means ty sid → Gives [] c.derive sid [sid])
  (hvalid : d.toDraft.validate = .ok ()) (hsid : d.toDraft.semId = .ok sid)
include hreads hvalid hsid

/-- A union of variants that are read as codecs gives the id of what its form describes. -/
theorem gives_union {variants : List (String × Nat × String)} {c : Codec}
    (hc : (union variants).Transcript reads c) (hd : (union variants).Describes means d) :
    Gives [] c.derive sid [sid] := by
  cases hd with | @union _ rows hrows =>
  cases hc with | @union name _ parts _ htags hparts h =>
  have hparttags : (parts.map Prod.fst).Nodup := by
    have heq : parts.map Prod.fst = variants.map fun v => v.2.1 := by
      rw [← List.forall₂_eq_eq_eq, List.forall₂_map_left_iff, List.forall₂_map_right_iff]
      exact hparts.flip.imp fun _ _ h => h.1
    rwa [heq]
  have hrowtags : (rows.map Prod.fst).Nodup := by
    rw [tags_of_rows hrows]
    exact ((List.mergeSort_perm _ _).map _).nodup_iff.2 htags
  have hsorted := forall₂_mergeSort (fun v => v.2.1) Prod.fst (fun _ _ h => h.1) hparts
  have hrounds := forall₂_of_common (T := fun x r : Nat × String × _ => r.1 = x.1 ∧ r.2.1 = x.2.1 ∧
    Gives [] x.2.2.derive r.2.2 [r.2.2]) (fun v x r hx hr => ⟨hr.1.trans hx.1.symm,
      hr.2.1.trans hx.2.1.symm, hreads _ _ _ hx.2.2 hr.2.2⟩) hsorted hrows
  rw [lastByKey_eq_self hrowtags] at hvalid hsid
  rw [Codec.union?_eq_ok_of_nodup hparttags h, Codec.derive]
  refine (Codec.gives_deriveVariants hrounds).bind ?_
  exact gives_insert hvalid hsid fun ref href => List.mem_append_left _ href

/-- A codec that is read from a form gives the id of the definition that the form describes. -/
theorem gives_derive {form : Form} {c : Codec} (hc : form.Transcript reads c)
    (hd : form.Describes means d)
    (hunit : ∀ sid, means "Unit" sid → Gives [] Codec.unit.derive sid [sid]) :
    Gives [] c.derive sid [sid] := by
  cases hc with
  | unit =>
    cases hd
    exact gives_insert_leaf hvalid hsid rfl
  | @uint width _ h =>
    cases hd
    have hsize : (8 * (width : Int)).toNat / 8 = width := by omega
    rw [Codec.uint?_eq_ok h, hsize]
    exact gives_insert_leaf hvalid hsid rfl
  | @sint width _ h =>
    cases hd
    have hsize : (8 * (width : Int)).toNat / 8 = width := by omega
    rw [Codec.sint?_eq_ok h, hsize]
    exact gives_insert_leaf hvalid hsid rfl
  | unicode =>
    cases hd
    exact gives_insert_leaf hvalid hsid rfl
  | @enumeration name members decl hmembers h serial =>
    cases hd
    have htags : ((members.mergeSort fun a b => decide (a.2 ≤ b.2)).map Prod.snd).Nodup := by
      obtain ⟨_, -, htags⟩ := bind_eq_ok.1 hvalid
      rw [List.map_map] at htags
      refine (Draft.checkUnique_ofNat "enum tag").1 ?_
      rwa [List.map_map]
    have hdecl := Enumeration.members_of_checked
      (fun m hm => hmembers m (List.mem_mergeSort.1 hm)) h htags
    rw [Codec.derive, show ({ decl with serial } : Enumeration).members = _ from hdecl]
    exact gives_insert_leaf hvalid hsid rfl
  | union htags hparts h => exact gives_union hreads hvalid hsid (.union htags hparts h) hd
  | option hinner h =>
    cases hd with | option hnone hsome =>
    obtain ⟨rfl, -⟩ := Codec.option?_eq_ok.1 h
    refine (hunit _ hnone).bind ((hreads _ _ _ hinner hsome).weaken.bind ?_)
    exact gives_insert hvalid hsid (by simp [Definition.references])
  | tuple hitems =>
    cases hd with | tuple hsids =>
    refine (Codec.gives_deriveItems (forall₂_of_common hreads hitems hsids)).bind ?_
    exact gives_insert hvalid hsid fun ref href => List.mem_append_left _ href
  | struct hparts h =>
    cases hd with | struct hknown =>
    rw [Codec.struct?_required_eq_ok h]
    cases hparts with
    | nil =>
      -- a struct without fields has no id
      cases hknown
      cases hsid
    | cons hx hparts =>
      refine (Codec.gives_deriveFields (forall₂_of_common (fun f x k hx hk =>
        ⟨hk.1.trans hx.1.symm, hreads _ _ _ hx.2 hk.2⟩) (.cons hx hparts) hknown)).bind ?_
      exact gives_insert hvalid hsid fun ref href => List.mem_append_left _ href
  | array hitem h =>
    cases hd with | array hmeans =>
    rw [Codec.array?_eq_ok h]
    exact (hreads _ _ _ hitem hmeans).bind (gives_insert hvalid hsid (by simp [Definition.references]))
  | byteArray hitem h =>
    cases hd with | array hmeans =>
    rw [Codec.byteArray?_eq_ok h]
    exact (hreads _ _ _ hitem hmeans).bind (gives_insert hvalid hsid (by simp [Definition.references]))
  | bytes hitem h =>
    cases hd with | list hmeans =>
    obtain ⟨b, rfl, rfl, rfl⟩ := Codec.exists_bounds h
    exact (hreads _ _ _ hitem hmeans).bind (gives_insert hvalid hsid (by simp [Definition.references]))
  | list hitem h =>
    cases hd with | list hmeans =>
    obtain ⟨b, rfl, rfl, rfl⟩ := Codec.exists_bounds h
    exact (hreads _ _ _ hitem hmeans).bind (gives_insert hvalid hsid (by simp [Definition.references]))
  | ascii h =>
    obtain ⟨b, rfl, hmin, hmax⟩ := Codec.ascii?_eq_ok h
    rw [Codec.derive, Growth.defineText]
    cases hd with
    | text hrest =>
      have hself : ∀ cs, Codec.isSplit cs cs = false := fun cs => by simp [Codec.isSplit]
      rw [Codec.headLength, hself, if_neg Bool.false_ne_true, Nat.sub_zero] at hmin hmax
      obtain ⟨rfl, rfl⟩ : b.min = _ ∧ b.max = _ := ⟨hmin, hmax⟩
      refine (gives_insert_leaf (Charset.validate_definition _) hrest rfl).bind ?_
      rw [hself, if_neg Bool.false_ne_true]
      exact gives_insert hvalid hsid (by simp [Definition.references])
    | @splitText first rest firstId restId tailId min max hsplit hfirst hrest htail =>
      -- the bounds of the codec count the characters behind the first one
      rw [Codec.headLength, if_pos hsplit] at hmin hmax
      rw [← hmin, ← hmax] at htail
      have hbounds : (TypeDef.toDraft (.list restId b.min b.max)).validate = .ok () :=
        Draft.checkSizing_ofNat.2 b.ordered
      refine (gives_insert_leaf (Charset.validate_definition _) hrest rfl).bind ?_
      rw [if_pos hsplit]
      refine (gives_insert_leaf (Charset.validate_definition _) hfirst rfl).bind ?_
      refine (gives_insert hbounds htail (by simp [Definition.references])).bind ?_
      exact gives_insert hvalid hsid (by simp [Definition.references])
  | set hitem h =>
    cases hd with | set hmeans =>
    obtain ⟨b, rfl, rfl, rfl⟩ := Codec.exists_bounds h
    exact (hreads _ _ _ hitem hmeans).bind (gives_insert hvalid hsid (by simp [Definition.references]))
  | map hkey hvalue h =>
    cases hd with | map hkeyId hvalueId =>
    obtain ⟨b, rfl, rfl, rfl⟩ := Codec.exists_bounds h
    refine (hreads _ _ _ hkey hkeyId).bind ((hreads _ _ _ hvalue hvalueId).weaken.bind ?_)
    exact gives_insert hvalid hsid (by simp [Definition.references])

end

end Form

/-! ## Builtins -/

/-- A builtin gives its id. -/
theorem Codec.gives_builtin {ty : String} {c : Codec} {sid : SemId} (h : Codec.builtin? ty = some c)
    (hsid : c.core.semId = .ok sid) : Gives [] c.derive sid [sid] := by
  obtain ⟨d, hderive, hid, hvalid, hrefs⟩ := Codec.exists_define_of_builtin h
  rw [hid] at hsid
  rw [hderive]
  exact gives_insert_leaf hvalid hsid hrefs

/-! ## Names -/

/-- A text without a character is not cut there, neither at its first nor at its last place. -/
theorem Text.cutLast?_of_cutFirst? {c : Char} {s : String} (h : Text.cutFirst? c s = none) :
    Text.cutLast? c s = none := by
  have hnone : c ∉ s.toList := by
    unfold cutFirst? at h
    rw [List.span_eq_takeWhile_dropWhile] at h
    split at h
    · rename_i heq
      have hdrop : s.toList.dropWhile (· != c) = [] := congrArg Prod.snd heq
      intro hc
      simpa using List.dropWhile_eq_nil_iff.1 hdrop c hc
    · cases h
  have hdrop : s.toList.reverse.dropWhile (· != c) = [] := by
    refine List.dropWhile_eq_nil_iff.2 fun x hx => ?_
    rw [List.mem_reverse] at hx
    simpa using fun heq : x = c => hnone (heq ▸ hx)
  unfold cutLast?
  rw [List.span_eq_takeWhile_dropWhile, hdrop]

namespace TypeLibrary

/-- What the name of a type is **read** as, along at most `n` declarations: a builtin by its name, an
alias like its target, and any other declaration by its form. Names of other libraries are not
read. -/
def Reads (lib : TypeLibrary) : Nat → String → Codec → Prop
  | 0, _, _ => False
  | n + 1, ty, c => Codec.builtin? ty = some c ∨
      (Codec.builtin? ty = none ∧ Text.cutFirst? '.' ty = none ∧
        ∃ decl, Value.lookup? (.text ty) lib.declarations = some decl ∧
          ((∃ target, decl = .text target ∧ lib.Reads n target c) ∨
            ∃ form, Form.ofValue? decl = some form ∧ form.Transcript (lib.Reads n) c))

variable {lib : TypeLibrary} {used : List (String × SymbolicSystem)} {sys : SymbolicSystem}

/-- What a name is read as gives the id that the name means in a compiled library. -/
theorem Compiled.gives (h : lib.Compiled used sys) {n : Nat} {ty : String} {c : Codec} {sid : SemId}
    (hreads : lib.Reads n ty c) (hmeans : meaning? used sys.names ty = some sid) :
    Gives [] c.derive sid [sid] := by
  induction n generalizing ty c sid with
  | zero => exact hreads.elim
  | succ n ih =>
    rcases hreads with hbuiltin | ⟨hordinary, hplain, decl, hdecl, hreads⟩
    · rw [meaning?, hbuiltin] at hmeans
      exact Codec.gives_builtin hbuiltin (toOption_eq_some.1 hmeans)
    · rw [meaning?, hordinary] at hmeans
      dsimp only at hmeans
      rw [hplain] at hmeans
      obtain ⟨-, -, decl', hdecl', hdeclares⟩ := h.established _ (mem_of_lookup hmeans)
      obtain rfl := Option.some.inj (hdecl.symm.trans hdecl')
      rcases hreads with ⟨target, rfl, hreads⟩ | ⟨form, hform, htranscript⟩
      · exact ih hreads (hdeclares.target target rfl)
      · obtain ⟨-, d, hdescribes, hstands⟩ := hdeclares.described form hform
        have hparts : ∀ ty c sid, lib.Reads n ty c → meaning? used sys.names ty = some sid →
            Gives [] c.derive sid [sid] := fun _ _ _ => ih
        have hunit : ∀ sid, meaning? used sys.names "Unit" = some sid →
            Gives [] Codec.unit.derive sid [sid] := fun sid hsid =>
          Codec.gives_builtin (show Codec.builtin? "Unit" = some .unit from rfl)
            (toOption_eq_some.1 hsid)
        exact Form.gives_derive hparts hstands.valid hstands.named htranscript hdescribes hunit

/-- The id of a declared name is the one under which any codec that it is read as is derived in every
type system, unless that is full. -/
theorem resolve_eq_derived {written : List Event} (h : (lib.compile used written).1 = .ok sys)
    {name : String} {n : Nat} {c : Codec} (hordinary : Codec.builtin? name = none)
    (hreads : lib.Reads n name c) :
    ∃ sid, sys.resolve name = .ok sid ∧
      ∀ ts : TypeSystem, (c.derive ts).1 = .ok sid ∨ c.derive.Stops ts := by
  have hcompiled := compiled_of_compile h
  cases n with
  | zero => exact hreads.elim
  | succ n =>
    have hdeclared := hreads.resolve_left (by simp [hordinary])
    obtain ⟨-, hplain, decl, hdecl, -⟩ := hdeclared
    obtain ⟨k, hk, hsame⟩ := Value.exists_mem_of_lookup? hdecl
    obtain ⟨ty, sid, rfl, hmeans⟩ := hcompiled.complete _ hk
    obtain rfl : ty = name := by simpa [Value.same] using hsame
    have hlookup : sys.names.lookup ty = some sid := by
      rw [meaning?, hordinary] at hmeans
      dsimp only at hmeans
      rwa [hplain] at hmeans
    refine ⟨sid, ?_, fun ts => ?_⟩
    · rw [SymbolicSystem.resolve, Text.cutLast?_of_cutFirst? hplain]
      dsimp only
      rw [SymbolicSystem.resolveLocal, hlookup]
    · rcases (hcompiled.gives hreads hmeans).anywhere ts with hstops | ⟨ts', hrun⟩
      · exact .inr hstops
      · exact .inl (congrArg Prod.fst hrun)

/-- A library with one primitive type and another name for it. -/
def counting : TypeLibrary where
  name := "Counting"
  uses := []
  description := ""
  declarations := Declaration.named [
    ("Count", .text "Word"), ("Word", Declaration.entries [("primitive", .int 4)])]

/-- The other name of a primitive type has the id under which its numbers are derived. -/
theorem resolve_eq_derived_alias : ∃ sys, (counting.compile [] []).1 = .ok sys ∧
    counting.Reads 2 "Count" (.uint 4) ∧ ∃ sid, sys.resolve "Count" = .ok sid ∧
      ∀ ts : TypeSystem, ((Codec.uint 4).derive ts).1 = .ok sid ∨ (Codec.uint 4).derive.Stops ts := by
  have hsome : (counting.compile [] []).1.toOption.isSome = true := by decide +kernel
  obtain ⟨sys, hsys⟩ := Option.isSome_iff_exists.1 hsome
  have hcompile := toOption_eq_some.1 hsys
  have hword : counting.Reads 1 "Word" (.uint 4) :=
    .inr ⟨rfl, by decide, Declaration.entries [("primitive", .int 4)],
      by simp [counting, Declaration.named, Value.lookup?, Value.same],
      .inr ⟨.primitive 4, by decide +kernel, .uint rfl⟩⟩
  have hcount : counting.Reads 2 "Count" (.uint 4) :=
    .inr ⟨rfl, by decide, .text "Word",
      by simp [counting, Declaration.named, Value.lookup?, Value.same], .inl ⟨"Word", rfl, hword⟩⟩
  exact ⟨sys, hcompile, hcount, resolve_eq_derived hcompile rfl hcount⟩

/-- A library that declares a type under the name of a builtin. -/
def shadowing : TypeLibrary where
  name := "Shadowing"
  uses := []
  description := ""
  declarations := Declaration.named [("U8", Declaration.entries [("primitive", .int 2)])]

/-- A library with an enumeration of which one name names no member of a codec. -/
def attributing : TypeLibrary where
  name := "Attributing"
  uses := []
  description := ""
  declarations := Declaration.named [
    ("E", Declaration.entries [("enum", Declaration.entries [("__a__", .int 0), ("b", .int 1)])])]

/-- The codec that the declaration of the enumeration is read as. -/
def attributed : Enumeration := { name := "E", names := [("b", 1)], attributes := [("__a__", 0)] }

theorem of?_attributed : Enumeration.of? "E" [("__a__", 0), ("b", 1)] = .ok attributed := by
  have hnames : ["__a__", "b"].foldlM (checkMemberName "E") [] = .ok ["b"] :=
    toOption_eq_some.1 (by decide +kernel)
  have hmembers : [("__a__", (0 : Int)), ("b", 1)].partition (fun x => isAttributeName "E" x.1) =
      ([("__a__", 0)], [("b", 1)]) := by decide +kernel
  have hname : checkTypeName "E" = .ok () := by simp [checkTypeName]
  unfold Enumeration.of?
  dsimp only [List.map]
  rw [hnames, hmembers, hname]
  rfl

/-- A declared name of a builtin does not resolve, although its declaration can be read. A name of an
enumeration that names no member keeps its place in the library and has none in the codec, so the ids
differ. -/
theorem resolve_differs :
    (∃ sys sid, (shadowing.compile [] []).1 = .ok sys ∧
      ((Codec.uint 2).derive .empty).1 = .ok sid ∧
      sys.resolve "U8" = fail (.noTypeNamed "Shadowing" "U8")) ∧
    ∃ sys sid sid', (attributing.compile [] []).1 = .ok sys ∧ sys.resolve "E" = .ok sid ∧
      Enumeration.of? "E" [("__a__", 0), ("b", 1)] = .ok attributed ∧
      ((Codec.enumeration attributed).derive .empty).1 = .ok sid' ∧ sid ≠ sid' := by
  constructor
  · have hshadowing : ((shadowing.compile [] []).1.toOption.map fun sys =>
        (sys.library, sys.names)) = some ("Shadowing", []) := by decide +kernel
    obtain ⟨sys, hsys, hparts⟩ := Option.map_eq_some_iff.1 hshadowing
    have hsome : ((Codec.uint 2).derive .empty).1.toOption.isSome = true := by decide +kernel
    obtain ⟨sid, hsid⟩ := Option.isSome_iff_exists.1 hsome
    refine ⟨sys, sid, toOption_eq_some.1 hsys, toOption_eq_some.1 hsid, ?_⟩
    have hcut : Text.cutLast? '.' "U8" = none := by decide
    obtain ⟨hlibrary, hnames⟩ := Prod.mk.inj hparts
    rw [SymbolicSystem.resolve, hcut]
    dsimp only
    rw [SymbolicSystem.resolveLocal, hnames, hlibrary]
    rfl
  · have hsome : (attributing.compile [] []).1.toOption.isSome = true := by decide +kernel
    obtain ⟨sys, hsys⟩ := Option.isSome_iff_exists.1 hsome
    have hcompile := toOption_eq_some.1 hsys
    have hcompiled := compiled_of_compile hcompile
    obtain ⟨ty, sid, hty, hmeans⟩ := hcompiled.complete _ (List.mem_singleton.2 rfl)
    obtain rfl := Value.text.inj hty
    have hlookup : sys.names.lookup "E" = some sid := hmeans
    obtain ⟨-, -, decl, hdecl, hdeclares⟩ := hcompiled.established _ (mem_of_lookup hlookup)
    have hfound : Value.lookup? (.text "E") attributing.declarations = some (Declaration.entries
      [("enum", Declaration.entries [("__a__", .int 0), ("b", .int 1)])]) := by
        simp [attributing, Declaration.named, Value.lookup?, Value.same]
    obtain rfl := Option.some.inj (hfound.symm.trans hdecl)
    obtain ⟨-, d, hdescribes, hstands⟩ :=
      hdeclares.described (.enumeration [("__a__", 0), ("b", 1)]) (by decide +kernel)
    -- the declared names are all there in the definition of the library
    have hid : sid = Id.ofContent .sem [2, 2, 95, 4, 95, 97, 95, 95, 0, 98, 0, 1] := by
      cases hdescribes
      have hsorted : [("__a__", 0), ("b", 1)].mergeSort (fun a b => decide (a.2 ≤ b.2)) =
          [("__a__", 0), ("b", 1)] := List.mergeSort_of_pairwise (by decide)
      have hnamed := hstands.named
      rw [hsorted] at hnamed
      obtain ⟨octets, hencode, hsid⟩ := bind_eq_ok.1 hnamed
      have hoctets : (TypeDef.toDraft (.enumeration [("__a__", 0), ("b", 1)])).encode =
          .ok [2, 2, 95, 4, 95, 97, 95, 95, 0, 98, 0, 1] := toOption_eq_some.1 (by decide +kernel)
      rw [hoctets] at hencode
      rw [← Except.ok.inj hencode] at hsid
      exact (Except.ok.inj hsid).symm
    have hderive : (Codec.enumeration attributed).derive .empty = _ :=
      insert_empty (d := .enumeration [(.text "b", .ofNat 1)]) (.enumeration [("b", 1)])
        [2, 1, 98, 0, 1] (toOption_eq_some.1 (by decide +kernel)) rfl
        (toOption_eq_some.1 (by decide +kernel)) rfl
    refine ⟨sys, sid, _, hcompile, ?_, of?_attributed, congrArg Prod.fst hderive, ?_⟩
    · have hcut : Text.cutLast? '.' "E" = none := by decide
      rw [SymbolicSystem.resolve, hcut]
      dsimp only
      rw [SymbolicSystem.resolveLocal, hlookup]
    · rw [hid]
      decide +kernel

end TypeLibrary

end StrictContract
