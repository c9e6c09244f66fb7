import Apitap.Guard.NameText
import Apitap.Sink.ObjectStore

/-!
# Publishing a table's parts

A run loads its parts under a staging directory of its own, and its publish copies them into the
table's directory under a new generation of names. Only when all of them are in does it delete the
parts that were there before; a copy that fails takes back what it added. Afterwards the staging
goes.
-/

namespace Apitap.Publish

open Guard (Artifact)
open Naming (Text Digest artifactMatch)

/-! ## Listing -/

/-- Pages one S3 listing may take. -/
def maxPages : Nat := 10000

def stillTruncated (dir : Text) : Error :=
  .transfer ("s3 listing of '" ++ String.ofList dir ++ "' still truncated after " ++
    toString maxPages ++ " pages; refusing to page on")

def unexpected : Error := .transfer "unexpected response"

/-- The marker of a next page, an empty one being none. -/
def nextMarker (token : Option Text) : Option Text := token.filter (· ≠ [])

/-- A page's keys, and how the listing goes on. -/
def onPage (goOn : List Text → Option Bool → Option Text → Client (Except Error (List Text))) :
    Answer → Client (Except Error (List Text))
  | .page keys truncated next => goOn keys truncated next
  | .error e => .pure (.error e)
  | _ => .pure (.error unexpected)

theorem nextMarker_some {u : Text} (some_ : u ≠ []) : nextMarker (some u) = some u :=
  Option.filter_some_pos (decide_eq_true some_)

/-- A complete answer has no marker, or says that there is no more. -/
theorem ended {α : Type} {truncated : Option Bool} {next : Option Text} {a : α} {f : Text → α}
    (complete : Dialect.s3.Complete truncated next) :
    (match nextMarker next with
      | none => a
      | some marker => if truncated = some false then a else f marker) = a := by
  obtain closed | rfl | rfl := complete
  · split
    · rfl
    · exact if_pos closed
  · rfl
  · rfl

/-- A listing that goes on behind a token, with so many more pages allowed. -/
def s3ListFrom (dir : Text) (left : Nat) (token : Option Text) (out : List Text) :
    Client (Except Error (List Text)) :=
  .call (.page dir token) (onPage fun keys truncated next =>
    match nextMarker next with
    | none => .pure (.ok (out ++ keys))
    | some marker =>
        if truncated = some false then .pure (.ok (out ++ keys))
        else match left with
          | 0 => .pure (.error (stillTruncated dir))
          | left + 1 => s3ListFrom dir left (some marker) (out ++ keys))

def s3List (dir : Text) : Client (Except Error (List Text)) := s3ListFrom dir (maxPages - 1) none []

/-- A listing without an end of its own, for so many pages. -/
def gcsListFrom (dir : Text) : Nat → Option Text → List Text → Client (Except Error (List Text))
  | 0, _, _ => .call .goOn fun _ => .pure (.error unexpected)
  | turns + 1, token, out => .call (.page dir token) (onPage fun keys _ next =>
      match next with
      | none => .pure (.ok (out ++ keys))
      | some marker => gcsListFrom dir turns (some marker) (out ++ keys))

def gcsList (turns : Nat) (dir : Text) : Client (Except Error (List Text)) :=
  gcsListFrom dir turns none []

/-! ## Copying -/

/-- The most bytes one copy may take. -/
structure PartLimit where
  bytes : Nat
  least : 5 * 2 ^ 20 ≤ bytes
  most : bytes ≤ 5 * 2 ^ 30

/-- The parts of a copy from an offset on. -/
def copyParts (limit : PartLimit) (src dst : Text) (id size at_ n : Nat)
    (etags : List (Nat × Nat)) : Client (Except Error (List (Nat × Nat))) :=
  if at_ < size then
    let last := min (at_ + limit.bytes) size - 1
    .call (.uploadPartCopy src dst id n at_ last) fun ans => match ans with
      | .etag tag => copyParts limit src dst id size (last + 1) (n + 1) (etags ++ [(n, tag)])
      | .error e => .pure (.error e)
      | _ => .pure (.error unexpected)
  else .pure (.ok etags)
termination_by size - at_
decreasing_by
  have := limit.least
  omega

/-- A request without a result. -/
def send (call : Call) : Client (Except Error Unit) :=
  .call call fun ans => match ans with
    | .done => .pure (.ok ())
    | .error e => .pure (.error e)
    | _ => .pure (.error unexpected)

/-- A copy in parts; one that fails is aborted. -/
def copyMultipart (limit : PartLimit) (src dst : Text) (size : Nat) : Client (Except Error Unit) :=
  .call (.createMultipart dst) fun ans => match ans with
    | .created id =>
        ((copyParts limit src dst id size 0 1 []).bind fun r =>
          match r with
          | .ok etags => send (.completeMultipart dst id etags)
          | .error e => .pure (.error e)).bind fun r =>
            match r with
            | .ok () => .pure (.ok ())
            | .error e => (send (.abortMultipart dst id)).bind fun _ => .pure (.error e)
    | .error e => .pure (.error e)
    | _ => .pure (.error unexpected)

def s3Copy (limit : PartLimit) (src dst : Text) : Client (Except Error Unit) :=
  .call (.headSize src) fun ans => match ans with
    | .size size =>
        if size ≤ limit.bytes then send (.copyOne src dst) else copyMultipart limit src dst size
    | .error e => .pure (.error e)
    | _ => .pure (.error unexpected)

/-- The rewrite loop, for so many turns. -/
def gcsRewriteFrom (src dst : Text) : Nat → Option Nat → Client (Except Error Unit)
  | 0, _ => .call .goOn fun _ => .pure (.error unexpected)
  | turns + 1, token => .call (.rewrite src dst token) fun ans => match ans with
      | .done => .pure (.ok ())
      | .again none => .pure (.error (.transfer "gcs rewrite: not done and no rewriteToken"))
      | .again (some token) => gcsRewriteFrom src dst turns (some token)
      | .error e => .pure (.error e)
      | _ => .pure (.error unexpected)

def gcsRewrite (turns : Nat) (src dst : Text) : Client (Except Error Unit) :=
  gcsRewriteFrom src dst turns none

/-! ## The publish -/

/-- Deletes whose results are ignored. -/
def tryDelete : List Text → Client Unit
  | [] => .pure ()
  | key :: keys => (send (.delete key)).bind fun _ => tryDelete keys

/-- Deletes up to the first that fails. -/
def deleteAll : List Text → Client (Except Error Unit)
  | [] => .pure (.ok ())
  | key :: keys => (send (.delete key)).bind fun r =>
      match r with
      | .ok () => deleteAll keys
      | .error e => .pure (.error e)

/-- The old part files that are left of a directory's listing. -/
def sweep (dir : Text) (fresh : List Text) : List Text → Client (List Text)
  | [] => .pure []
  | key :: stale =>
      if !fresh.contains key && isOwnPart dir key then
        (send (.delete key)).bind fun r =>
          (sweep dir fresh stale).bind fun left =>
            match r with
            | .ok () => .pure left
            | .error _ => .pure (key :: left)
      else sweep dir fresh stale

def stalePartsLeft (dir : Text) (left : List Text) : Error :=
  .transfer ("the new parts are published in " ++ String.ofList dir ++ ", but " ++
    toString left.length ++ " previous part file(s) could not be deleted and readers see their " ++
    "rows beside the new ones: " ++ String.ofList ([',', ' '].intercalate left) ++
    " — delete them by hand; the next successful run of this table also sweeps them")

section

variable (list : Text → Client (Except Error (List Text)))
  (copy : Text → Text → Client (Except Error Unit))

/-- Copies parts under names of a generation, from an index on. -/
def copyAll (dir gen : Text) : Nat → List Text → List Text → Client (Except Error (List Text))
  | _, fresh, [] => .pure (.ok fresh)
  | i, fresh, p :: parts =>
      (copy p (partName dir gen i)).bind fun r =>
        match r with
        | .ok () => copyAll dir gen (i + 1) (fresh ++ [partName dir gen i]) parts
        | .error e => (tryDelete fresh).bind fun _ => .pure (.error e)

/-- The publish of parts as listed. -/
def publishParts (dir : Text) (parts : List Text) (after : Client Unit) :
    Client (Except Error Unit) :=
  (list dir).bind fun r =>
    match r with
    | .error e => .pure (.error e)
    | .ok stale => .call .partGeneration fun ans => match ans with
        | .generation gen => (copyAll copy dir gen 0 [] parts).bind fun r =>
            match r with
            | .error e => .pure (.error e)
            | .ok fresh => (sweep dir fresh stale).bind fun left =>
                (tryDelete parts).bind fun _ =>
                  if left = [] then after.bind fun _ => .pure (.ok ())
                  else .pure (.error (stalePartsLeft dir left))
        | _ => .pure (.error unexpected)

/-- Without rows the table stays as it is. -/
def finalizeInner (dir staging : Text) (rows : Nat) (after : Client Unit) :
    Client (Except Error Unit) :=
  (list staging).bind fun r =>
    match r with
    | .error e => .pure (.error e)
    | .ok found =>
        let parts := found.mergeSort (fun a b => decide (a ≤ b))
        if rows = 0 then deleteAll parts
        else publishParts list copy dir parts after

/-- Everything the run staged goes, by the listing or else by its own names. -/
def discard (staging : Text) (opened : Nat) : Client Unit :=
  (list staging).bind fun r =>
    match r with
    | .ok found => tryDelete found
    | .error _ => tryDelete ((List.range opened).map fun n => staging ++ stagedName n)

end

/-! ## The sinks -/

/-- A table's place in a destination. -/
structure Site where
  front : Text
  bare : Text
  digest : Digest

/-- The limit an object store has on names. -/
def roomy : Nat := 1024

namespace Site

variable (site : Site)

def dir : Text := site.front ++ site.bare ++ ['/']

def stagingRoot : Text :=
  site.front ++ (artifactMatch site.digest site.bare .staging roomy).1 ++
    (artifactMatch site.digest site.bare .staging roomy).2 ++ ['/']

/-- A run's own directory under the staging root. -/
def staging (token : Text) : Text := site.stagingRoot ++ token ++ ['/']

/-- Where a CSV run publishes. -/
def csv : Text := site.front ++ site.bare ++ ".csv.gz".toList

end Site

/-- Which store, with what its loops go by. -/
inductive Store where
  | s3 (limit : PartLimit)
  | gcsParquet (turns : Nat)

namespace Store

def dialect : Store → Dialect
  | .s3 _ => .s3
  | .gcsParquet _ => .gcs

def list : Store → Text → Client (Except Error (List Text))
  | .s3 _ => s3List
  | .gcsParquet turns => gcsList turns

def copy : Store → Text → Text → Client (Except Error Unit)
  | .s3 limit => s3Copy limit
  | .gcsParquet turns => gcsRewrite turns

/-- A previous run's CSV object. -/
def after : Store → Site → Client Unit
  | .s3 _, _ => .pure ()
  | .gcsParquet _, site => (send (.delete site.csv)).bind fun _ => .pure ()

/-- The end of a run: its publish, and behind a failed one the discard. -/
def finish (store : Store) (site : Site) (token : Text) (opened rows : Nat) :
    Client (Except Error Unit) :=
  (finalizeInner store.list store.copy site.dir (site.staging token) rows
    (store.after site)).bind fun r =>
      match r with
      | .ok () => .pure (.ok ())
      | .error e => (discard store.list (site.staging token) opened).bind fun _ => .pure (.error e)

end Store

end Apitap.Publish
