import StrictContract.Proofs.TypeSystem.Closure
import StrictContract.TypeSystem.Session

/-! # Sessions — what is remembered is what would be described

A session answers from what it remembers. That is **faithful** when every remembered codec is the one
that the definitions describe; then a session describes and checks like its type system does without
remembering anything.

* `Retrieves` says of a computation that it keeps the memory faithful, that it gives at least what is
  described with some fuel, and at most what is described with any. It is closed under sequences and
  loops, so it holds of the description of an id by induction on the fuel.
* A call on a session keeps the memory faithful, because it changes or removes no definition, whether it
  succeeds or not.
* So checks under an id that a grown type system holds give the same after every sequence of calls, and
  the same in the part that is extracted from roots which reach the id. -/

namespace StrictContract.TypeSystem

variable {α β : Type} {u w ts : TypeSystem} {roots : List SemId} {sid : SemId}

/-! ## Faithful memories -/

/-- A **faithful** memory: every codec in it is the one that is described. -/
def Faithful (ts : TypeSystem) (known : List (SemId × Codec)) : Prop :=
  ∀ e ∈ known, ts.codecOf e.1 = .ok e.2

/-- What is described is described alike with more definitions. -/
theorem Below.codecOf (h : u.Below w) {c : Codec} (hc : u.codecOf sid = .ok c) :
    w.codecOf sid = .ok c :=
  codecOf_eq_ok.2 ⟨_, describe_mono h (Nat.le_refl _) hc⟩

/-- A memory stays faithful with more definitions. -/
theorem Faithful.mono {known : List (SemId × Codec)} (h : u.Faithful known) (hbelow : u.Below w) :
    w.Faithful known := fun e he => hbelow.codecOf (h e he)

/-- A computation that keeps the memory faithful, gives at least the result `low` and at most the result
`high`. -/
def Retrieves (ts : TypeSystem) (m : Retrieval α) (low high : Except Failure α) : Prop :=
  ∀ known, ts.Faithful known → ts.Faithful (m known).2 ∧
    (∀ a, low = .ok a → (m known).1 = .ok a) ∧ ∀ a, (m known).1 = .ok a → high = .ok a

/-- A result is retrieved as it is. -/
theorem retrieves_pure (a : α) : ts.Retrieves (pure a) (pure a) (pure a) :=
  fun _ hknown => ⟨hknown, fun _ h => h, fun _ h => h⟩

/-- A step that does not use the memory leaves it as it is. -/
theorem retrieves_lift (x : Except Failure α) : ts.Retrieves (monadLift x) x x :=
  fun _ hknown => ⟨hknown, fun _ h => h, fun _ h => h⟩

/-- Two steps one after another. -/
theorem Retrieves.bind {m : Retrieval α} {low high : Except Failure α} {f : α → Retrieval β}
    {low' high' : α → Except Failure β} (h : ts.Retrieves m low high)
    (h' : ∀ a, ts.Retrieves (f a) (low' a) (high' a)) :
    ts.Retrieves (m >>= f) (low >>= low') (high >>= high') := by
  intro known hknown
  obtain ⟨hfaithful, hlow, hhigh⟩ := h known hknown
  rw [bind_apply]
  rcases hm : m known with ⟨e | a, known'⟩
  · rw [hm] at hfaithful hlow hhigh
    refine ⟨hfaithful, fun b hb => ?_, nofun⟩
    obtain ⟨a, ha, -⟩ := bind_eq_ok.1 hb
    exact nomatch hlow a ha
  · rw [hm] at hfaithful hlow hhigh
    obtain ⟨hfaithful', hlow', hhigh'⟩ := h' a known' hfaithful
    refine ⟨hfaithful', fun b hb => ?_, fun b hb => bind_eq_ok.2 ⟨a, hhigh a rfl, hhigh' b hb⟩⟩
    obtain ⟨a', ha', hb⟩ := bind_eq_ok.1 hb
    obtain rfl : a = a' := Except.ok.inj (hlow a' ha')
    exact hlow' b hb

/-- A loop of rounds. -/
theorem retrieves_mapM {f : α → Retrieval β} {low high : α → Except Failure β}
    (h : ∀ a, ts.Retrieves (f a) (low a) (high a)) (xs : List α) :
    ts.Retrieves (xs.mapM f) (xs.mapM low) (xs.mapM high) := by
  induction xs with
  | nil => exact retrieves_pure []
  | cons x xs ih =>
    rw [List.mapM_cons, List.mapM_cons, List.mapM_cons]
    exact (h x).bind fun b => ih.bind fun bs => retrieves_pure (b :: bs)

/-- A definition is retrieved as it is described, if the definitions it refers to are. -/
theorem retrieves_describeBy {part : SemId → Retrieval Codec} {low high : SemId → Except Failure Codec}
    (h : ∀ ref, ts.Retrieves (part ref) (low ref) (high ref)) (sid : SemId) :
    ts.Retrieves (ts.describeBy part sid) (ts.describeBy low sid) (ts.describeBy high sid) := by
  refine (retrieves_lift (ts.find sid)).bind fun d => ?_
  cases d with
  | primitive width | unicode | enumeration members => exact retrieves_pure _
  | union variants =>
    refine (retrieves_mapM (fun x => ?_) variants).bind fun _ => retrieves_pure _
    exact (h x.2.2).bind fun _ => retrieves_pure _
  | tuple items => exact (retrieves_mapM h items).bind fun _ => retrieves_pure _
  | struct fields =>
    refine (retrieves_lift (ts.splitText? fields)).bind fun split? => ?_
    cases split? with
    | some c => exact retrieves_pure c
    | none =>
      refine (retrieves_mapM (fun f => ?_) fields).bind fun _ => retrieves_pure _
      exact (h f.2).bind fun _ => retrieves_pure _
  | array item length =>
    refine (retrieves_lift (ts.isByte item)).bind fun b => ?_
    cases b with
    | true => exact retrieves_pure _
    | false => exact (h item).bind fun _ => retrieves_pure _
  | list item min max =>
    dsimp only
    cases Charset.ofId? item with
    | some cs => exact (retrieves_lift _).bind fun _ => retrieves_pure _
    | none =>
      refine (retrieves_lift (ts.isByte item)).bind fun b => ?_
      cases b with
      | true => exact (retrieves_lift _).bind fun _ => retrieves_pure _
      | false => exact (h item).bind fun _ => (retrieves_lift _).bind fun _ => retrieves_pure _
  | set item min max => exact (h item).bind fun _ => (retrieves_lift _).bind fun _ => retrieves_pure _
  | map key value min max =>
    exact (h key).bind fun _ => (h value).bind fun _ => (retrieves_lift _).bind fun _ => retrieves_pure _

/-- An id is retrieved as it is described with as much fuel, if not with more. -/
theorem retrieves_retrieve (ts : TypeSystem) (fuel : Nat) (sid : SemId) :
    ts.Retrieves (ts.retrieve fuel sid) (ts.describe fuel sid) (ts.codecOf sid) := by
  -- what the memory is faithful to does not depend on the fuel, so the induction goes through hits, too
  induction fuel generalizing sid with
  | zero => exact fun _ hknown => ⟨hknown, nofun, nofun⟩
  | succ fuel ih =>
    intro known hknown
    rw [retrieve]
    dsimp only
    cases hhit : known.lookup sid with
    | some c =>
      have hc : ts.codecOf sid = .ok c := hknown _ (mem_of_lookup hhit)
      refine ⟨hknown, fun a ha => ?_, fun a ha => ?_⟩
      · exact hc.symm.trans (codecOf_eq_ok.2 ⟨_, ha⟩)
      · exact hc.trans ha
    | none =>
      obtain ⟨hfaithful, hlow, hhigh⟩ := retrieves_describeBy ih sid known hknown
      rcases hrun : ts.describeBy (ts.retrieve fuel) sid known with ⟨e | c, known'⟩
      · rw [hrun] at hfaithful hlow
        exact ⟨hfaithful, hlow, nofun⟩
      · rw [hrun] at hfaithful hlow hhigh
        have hc : ts.codecOf sid = .ok c := codecOf_eq_ok_iff_describeBy.2 (hhigh c rfl)
        refine ⟨List.forall_mem_cons.2 ⟨hc, hfaithful⟩, hlow, fun a ha => ?_⟩
        exact hc.trans ha

/-! ## Calls -/

/-- Adding the definitions of another type system extends a type system, also when it gets full. -/
theorem extends_mergeEntries (rest : List (SemId × TypeDef)) (added : Nat) (ts : TypeSystem) :
    ts.Extends (Growth.mergeEntries rest added ts).2 := by
  induction rest generalizing added ts with
  | nil => exact .refl ts
  | cons e rest ih =>
    obtain ⟨sid, d⟩ := e
    rw [Growth.mergeEntries]
    dsimp only
    by_cases hin : ts.contains sid = true
    · rw [if_pos hin]
      exact ih added ts
    · rw [if_neg hin]
      cases hadd : ts.add sid d with
      | error e => exact .refl ts
      | ok ts' =>
        obtain ⟨-, rfl⟩ := add_eq_ok.1 hadd
        exact .trans (List.prefix_append ..) (ih (added + 1) _)

namespace Session

variable {s : Session}

/-- A session with a faithful memory describes what its type system does. -/
theorem codecOf_eq_ok (h : s.types.Faithful s.known) {c : Codec} :
    (s.codecOf sid).1 = .ok c ↔ s.types.codecOf sid = .ok c := by
  obtain ⟨-, hlow, hhigh⟩ := retrieves_retrieve s.types (s.types.size + 1) sid s.known h
  exact ⟨hhigh c, hlow c⟩

/-- A session with a faithful memory checks as its type system does under an id that is described. -/
theorem check_eq_decode (h : s.types.Faithful s.known) {c : Codec}
    (hc : s.types.codecOf sid = .ok c) (octets : Octets) : (s.check sid octets).1 = c.decode octets := by
  show ((s.codecOf sid).1 >>= fun c => c.decode octets) = _
  rw [(codecOf_eq_ok h).2 hc]
  rfl

/-- A call extends the type system of a session. -/
theorem extends_after (s : Session) (call : Call) : s.types.Extends (s.after call).types := by
  cases call with
  | insert d => exact (Growth.onlyInserts_insert d s.types).isExtension
  | derive c => exact (c.onlyInserts_derive s.types).isExtension
  | merge other => exact extends_mergeEntries other.entries 0 s.types
  | describe sid | check sid octets => exact .refl _

/-- A call keeps the memory of a session faithful. -/
theorem faithful_after (h : s.types.Faithful s.known) (call : Call) :
    (s.after call).types.Faithful (s.after call).known := by
  cases call with
  | insert d => exact h.mono (s.extends_after (.insert d)).below
  | derive c => exact h.mono (s.extends_after (.derive c)).below
  | merge other => exact h.mono (s.extends_after (.merge other)).below
  | describe sid | check sid octets =>
    exact (retrieves_retrieve s.types (s.types.size + 1) sid s.known h).1

/-- Calls extend the type system of a session and keep its memory faithful. -/
theorem run_keeps (h : s.types.Faithful s.known) (calls : List Call) :
    s.types.Extends (s.run calls).types ∧ (s.run calls).types.Faithful (s.run calls).known := by
  induction calls generalizing s with
  | nil => exact ⟨.refl _, h⟩
  | cons call calls ih =>
    obtain ⟨hextends, hfaithful⟩ := ih (faithful_after h call)
    exact ⟨(s.extends_after call).trans hextends, hfaithful⟩

/-- A session without a memory has a faithful one. -/
theorem faithful_start (ts : TypeSystem) : (start ts).types.Faithful (start ts).known := nofun

/-- **Checking depends on the closure alone.** Let a session have come about by any calls, so that it
remembers what was described on the way, and let its type system be a grown one. Then a check against an
id that some roots reach has the same outcome, value or error, in the part that is extracted from the
roots, in the session now, in the session after any further calls and without any memory. -/
theorem check_determined {origin : TypeSystem} {past : List Call} (hs : s = (start origin).run past)
    (h : s.types.Grown) (hroots : ∀ root ∈ roots, s.types.contains root = true) :
    ∃ part, s.types.extract roots = .ok part ∧
      ∀ sid, s.types.Reached roots sid → ∀ octets,
        ((start part).check sid octets).1 = (s.check sid octets).1 ∧
        (∀ calls, ((s.run calls).check sid octets).1 = (s.check sid octets).1) ∧
        (s.check sid octets).1 = s.types.check sid octets := by
  have hfaithful : s.types.Faithful s.known := hs ▸ (run_keeps (faithful_start origin) past).2
  have hwf := h.reachable.wellFormed
  obtain ⟨part, hextract, -, hget⟩ := hwf.exists_extract hroots
  refine ⟨part, hextract, fun sid hsid octets => ?_⟩
  have hpart := h.extract hextract
  have hbelow : part.Below s.types := fun sid d hd => ((hget sid d).1 hd).2
  -- the part holds the id, so it describes it, and every system above the part describes it alike
  obtain ⟨d, hd⟩ := Option.isSome_iff_exists.1 (hwf.contains_of_reached hroots hsid)
  have hheld : part.contains sid = true :=
    Option.isSome_iff_exists.2 ⟨d, (hget sid d).2 ⟨hsid, hd⟩⟩
  obtain ⟨c, hc⟩ := hpart.reachable.wellFormed.exists_codecOf (hpart.allFounded sid hheld)
  have hwhole := hbelow.codecOf hc
  have hnow := check_eq_decode hfaithful hwhole octets
  refine ⟨?_, fun calls => ?_, ?_⟩
  · rw [hnow, check_eq_decode (faithful_start part) hc]
  · obtain ⟨hextends, hfaithful'⟩ := run_keeps hfaithful calls
    rw [hnow, check_eq_decode hfaithful' (hextends.below.codecOf hwhole)]
  · rw [hnow, TypeSystem.check_eq_decode hwhole]

/-- A codec that was derived and checked against left its definitions. -/
theorem types_derive_check (ts : TypeSystem) (c : Codec) (sid : SemId) (octets : Octets) :
    ((start ts).run [.derive c, .check sid octets]).types = (c.derive ts).2 := rfl

/-- The lists of truth values were checked against once: they are checked against alike where only they
and truth values are left, and after another type was added and another check was made. -/
theorem check_determined_list : ∃ sid s part,
    s = (start empty).run [.derive (.list .bool .tiny none), .check sid [1, 1]] ∧ s.types.Grown ∧
      s.types.contains sid = true ∧ s.types.extract [sid] = .ok part ∧ ∀ octets,
        ((start part).check sid octets).1 = (s.check sid octets).1 ∧
        ((s.run [.derive (.uint 4), .check sid [2]]).check sid octets).1 = (s.check sid octets).1 := by
  obtain ⟨sid, ts, hderive, -⟩ := exists_derive_list derive_bool_empty (by decide) .tiny none
  have htypes : ((start empty).run [.derive (.list .bool .tiny none), .check sid [1, 1]]).types = ts :=
    (types_derive_check ..).trans (congrArg Prod.snd hderive)
  have hgrown : ts.Grown := by
    have h : ((Codec.list .bool .tiny none).derive empty).2.Grown := .derive _ .empty
    rwa [hderive] at h
  have hroots : ∀ root ∈ [sid], ts.contains root = true :=
    List.forall_mem_singleton.2 (contains_of_derive hderive)
  obtain ⟨part, hpart, hsame⟩ := check_determined rfl (htypes ▸ hgrown) (htypes ▸ hroots)
  refine ⟨sid, _, part, rfl, htypes ▸ hgrown, htypes ▸ contains_of_derive hderive, hpart, ?_⟩
  intro octets
  obtain ⟨hextracted, hlater, -⟩ := hsame sid (.root (List.mem_singleton.2 rfl)) octets
  exact ⟨hextracted, hlater _⟩

end Session

end StrictContract.TypeSystem
