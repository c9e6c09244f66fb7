import Apitap.Foundation.Effect
import Apitap.Sink.PartNames
import Apitap.Wire.Pgoutput
import Mathlib.Data.Char
import Mathlib.Data.List.Lex
import Mathlib.Logic.Function.Basic

/-!
# An object store

A bucket of whole objects and open uploads, and the requests a sink sends. A request counts with
its retries as one call; one that failed may have been carried out, may still be, or may never be.
A listing is paged, and everyone else writes what is not theirs to leave alone.
-/

namespace Apitap.Publish

open Naming (Text)

/-- An upload: its object's key, and each part with the tag it was answered with. -/
structure Upload where
  key : Text
  parts : Nat → Option (Bytes × Nat)

def Upload.put (u : Upload) (n : Nat) (part : Bytes × Nat) : Upload :=
  { u with parts := Function.update u.parts n (some part) }

structure Bucket where
  objects : Text → Option Bytes
  uploads : Nat → Option Upload
  /-- Writes whose answers failed; a delete writes `none`. Each may still happen. -/
  late : List (Text × Option Bytes)

inductive Call where
  /-- One page of a listing, behind a token. -/
  | page (dir : Text) (token : Option Text)
  | headSize (key : Text)
  | copyOne (src dst : Text)
  | createMultipart (key : Text)
  | uploadPart (key : Text) (id n : Nat) (bytes : Bytes)
  | uploadPartCopy (src dst : Text) (id n first last : Nat)
  | completeMultipart (key : Text) (id : Nat) (parts : List (Nat × Nat))
  | abortMultipart (key : Text) (id : Nat)
  | rewrite (src dst : Text) (token : Option Nat)
  | delete (key : Text)
  /-- The clock and random bits. -/
  | partGeneration
  /-- Nothing: a loop with no end of its own is still running. -/
  | goOn

inductive Answer where
  | page (keys : List Text) (truncated : Option Bool) (token : Option Text)
  | size (n : Nat)
  | created (id : Nat)
  | etag (tag : Nat)
  | again (token : Option Nat)
  | done
  | generation (gen : Text)
  | error (e : Error)

abbrev Client (α : Type) := Prog Call Answer α

/-- How a store says that a listing is complete. -/
inductive Dialect where
  | s3
  | gcs
deriving DecidableEq

def Dialect.Complete : Dialect → Option Bool → Option Text → Prop
  | .s3, truncated, next => truncated = some false ∨ next = none ∨ next = some []
  | .gcs, _, next => next = none

namespace Bucket

def set (s : Bucket) (key : Text) (value : Option Bytes) : Bucket :=
  { s with objects := Function.update s.objects key value }

def upload (s : Bucket) (id : Nat) (u : Option Upload) : Bucket :=
  { s with uploads := Function.update s.uploads id u }

/-- A write whose answer failed. -/
def lose (s : Bucket) (key : Text) (value : Option Bytes) : Bucket :=
  { s with late := (key, value) :: s.late }

/-- What the named parts of an upload hold together, if they are the ones it has. -/
def assembled (u : Upload) (parts : List (Nat × Nat)) : Option Bytes :=
  (parts.mapM fun p => (u.parts p.1).bind fun part =>
    if part.2 = p.2 then some part.1 else none).map List.flatten

/-- What everyone else does, and what failed requests still do. -/
inductive Drift (others : Text → Prop) : Bucket → Bucket → Prop
  | other {s : Bucket} {key : Text} {value : Option Bytes} (free : others key) :
      Drift others s (s.set key value)
  | land {s : Bucket} {key : Text} {value : Option Bytes} (lost : (key, value) ∈ s.late) :
      Drift others s (s.set key value)

/-- Answers as given by the store. -/
inductive Serves (dialect : Dialect) : Bucket → Call → Answer → Bucket → Prop
  | page {s : Bucket} {dir : Text} {token upto next : Option Text} {keys : List Text}
      {truncated : Option Bool} (sorted : keys.Pairwise (· < ·))
      (listed : ∀ key, key ∈ keys ↔ s.objects key ≠ none ∧ dir <+: key ∧
        (∀ t ∈ token, t < key) ∧ ∀ u ∈ upto, key ≤ u)
      (last : upto = none → dialect.Complete truncated next)
      (more : ∀ u ∈ upto, next = some u ∧ u ≠ [] ∧ truncated ≠ some false ∧ ∀ t ∈ token, t < u) :
      Serves dialect s (.page dir token) (.page keys truncated next) s
  | headSize {s : Bucket} {key : Text} {v : Bytes} (there : s.objects key = some v) :
      Serves dialect s (.headSize key) (.size v.length) s
  | copyOne {s : Bucket} {src dst : Text} {v : Bytes} (there : s.objects src = some v) :
      Serves dialect s (.copyOne src dst) .done (s.set dst (some v))
  | createMultipart {s : Bucket} {key : Text} {id : Nat} (fresh : s.uploads id = none) :
      Serves dialect s (.createMultipart key) (.created id)
        (s.upload id (some ⟨key, fun _ => none⟩))
  | uploadPart {s : Bucket} {key : Text} {id n tag : Nat} {bytes : Bytes} {u : Upload}
      (there : s.uploads id = some u) (same : u.key = key) :
      Serves dialect s (.uploadPart key id n bytes) (.etag tag)
        (s.upload id (some (u.put n (bytes, tag))))
  | uploadPartCopy {s : Bucket} {src dst : Text} {id n first last tag : Nat} {u : Upload}
      {v : Bytes} (there : s.uploads id = some u) (same : u.key = dst)
      (source : s.objects src = some v) (within : first ≤ last ∧ last < v.length) :
      Serves dialect s (.uploadPartCopy src dst id n first last) (.etag tag)
        (s.upload id (some (u.put n ((v.drop first).take (last + 1 - first), tag))))
  | completeMultipart {s : Bucket} {key : Text} {id : Nat} {parts : List (Nat × Nat)} {u : Upload}
      {v : Bytes} (there : s.uploads id = some u) (same : u.key = key)
      (ascending : (parts.map (·.1)).Pairwise (· < ·)) (whole : assembled u parts = some v) :
      Serves dialect s (.completeMultipart key id parts) .done ((s.upload id none).set key (some v))
  | abortMultipart {s : Bucket} {key : Text} {id : Nat} :
      Serves dialect s (.abortMultipart key id) .done (s.upload id none)
  | rewritten {s : Bucket} {src dst : Text} {token : Option Nat} {v : Bytes}
      (there : s.objects src = some v) :
      Serves dialect s (.rewrite src dst token) .done (s.set dst (some v))
  | rewriting {s : Bucket} {src dst : Text} {token next : Option Nat} :
      Serves dialect s (.rewrite src dst token) (.again next) s
  | delete {s : Bucket} {key : Text} : Serves dialect s (.delete key) .done (s.set key none)
  | partGeneration {s : Bucket} {gen : Text} (drawn : IsGeneration gen)
      (fresh : ∀ dir i, s.objects (partName dir gen i) = none ∧
        ∀ v, (partName dir gen i, v) ∉ s.late) :
      Serves dialect s .partGeneration (.generation gen) s
  /-- Nothing came of it. -/
  | refused {s : Bucket} {call : Call} {e : Error} (asks : call ≠ .goOn)
      (sends : call ≠ .partGeneration) : Serves dialect s call (.error e) s
  /-- An upload was touched all the same. -/
  | uploadPartLost {s : Bucket} {key : Text} {id n : Nat} {bytes : Bytes} {u : Option Upload}
      {e : Error} : Serves dialect s (.uploadPart key id n bytes) (.error e) (s.upload id u)
  | uploadPartCopyLost {s : Bucket} {src dst : Text} {id n first last : Nat} {u : Option Upload}
      {e : Error} :
      Serves dialect s (.uploadPartCopy src dst id n first last) (.error e) (s.upload id u)
  | createMultipartLost {s : Bucket} {key : Text} {id : Nat} {u : Option Upload} {e : Error}
      (fresh : s.uploads id = none) :
      Serves dialect s (.createMultipart key) (.error e) (s.upload id u)
  | abortMultipartLost {s : Bucket} {key : Text} {id : Nat} {u : Option Upload} {e : Error} :
      Serves dialect s (.abortMultipart key id) (.error e) (s.upload id u)
  /-- A write that may still land. -/
  | copyOneLost {s : Bucket} {src dst : Text} {v : Bytes} {e : Error}
      (there : s.objects src = some v) :
      Serves dialect s (.copyOne src dst) (.error e) (s.lose dst (some v))
  | rewriteLost {s : Bucket} {src dst : Text} {token : Option Nat} {v : Bytes} {e : Error}
      (there : s.objects src = some v) :
      Serves dialect s (.rewrite src dst token) (.error e) (s.lose dst (some v))
  | completeMultipartLost {s : Bucket} {key : Text} {id : Nat} {parts : List (Nat × Nat)}
      {u : Upload} {v : Bytes} {e : Error} (there : s.uploads id = some u) (same : u.key = key)
      (whole : assembled u parts = some v) :
      Serves dialect s (.completeMultipart key id parts) (.error e)
        ((s.upload id none).lose key (some v))
  | deleteLost {s : Bucket} {key : Text} {e : Error} :
      Serves dialect s (.delete key) (.error e) (s.lose key none)

/-- A store in which others write where they may. -/
def env (dialect : Dialect) (others : Text → Prop) : Env Bucket Call Answer :=
  ⟨Drift others, Serves dialect⟩

end Bucket

end Apitap.Publish
