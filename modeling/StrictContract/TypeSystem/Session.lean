import StrictContract.TypeSystem.Checking
import StrictContract.TypeSystem.Derivation

/-! # Sessions — a type system that remembers what it has described

Describing a definition takes a walk through all that it refers to. A **session** is a type system that
is in use: it grows, and it **remembers** the codec of every id that it has described, so that the next
check against the id, or against one that refers to it, need not describe it again. -/

namespace StrictContract.TypeSystem

/-- A computation that may use and extend the codecs which are remembered; what was remembered stays
even if it fails. -/
abbrev Retrieval : Type → Type := ExceptT Failure (StateM (List (SemId × Codec)))

/-- The codec of an id: the remembered one, or else the described one, which is remembered from then
on; `fuel` bounds the depth of references. -/
def retrieve (ts : TypeSystem) : Nat → SemId → Retrieval Codec
  | 0, sid => fun known => (fail (.typeAbsent sid.text), known)
  | fuel + 1, sid => fun known =>
    match known.lookup sid with
    | some c => (.ok c, known)
    | none =>
      match ts.describeBy (retrieve ts fuel) sid known with
      | (.ok c, known') => (.ok c, (sid, c) :: known')
      | (.error e, known') => (.error e, known')

/-- A **session**: a type system and the codecs that it remembers. -/
structure Session where
  types : TypeSystem
  known : List (SemId × Codec)

namespace Session

/-- The session of a type system that has not been asked anything. -/
def start (ts : TypeSystem) : Session := ⟨ts, []⟩

/-- The codec of an id, and the session that remembers it. -/
def codecOf (s : Session) (sid : SemId) : Except Failure Codec × Session :=
  match s.types.retrieve (s.types.size + 1) sid s.known with
  | (result, known) => (result, { s with known })

/-- The value that a byte string encodes as the type with an id. -/
def check (s : Session) (sid : SemId) (octets : Octets) : Except Failure Value × Session :=
  match s.codecOf sid with
  | (result, s') => (do (← result).decode octets, s')

/-- A **call** on a session. -/
inductive Call where
  /-- Inserts a draft. -/
  | insert (d : Draft)
  /-- Derives a codec. -/
  | derive (c : Codec)
  /-- Adds the definitions of another type system. -/
  | merge (other : TypeSystem)
  /-- Describes an id. -/
  | describe (sid : SemId)
  /-- Checks a byte string against an id. -/
  | check (sid : SemId) (octets : Octets)

/-- The session after a call, whatever its outcome. -/
def after (s : Session) : Call → Session
  | .insert d => { s with types := (Growth.insert d s.types).2 }
  | .derive c => { s with types := (c.derive s.types).2 }
  | .merge other => { s with types := (Growth.merge other s.types).2 }
  | .describe sid => (s.codecOf sid).2
  | .check sid octets => (s.check sid octets).2

/-- The session after several calls. -/
def run (s : Session) (calls : List Call) : Session := calls.foldl after s

end Session

end StrictContract.TypeSystem
