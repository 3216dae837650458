import Mathlib.Data.List.DropRight
import EtvStation.Ingest.Identity
import EtvStation.Lib.Utf8

/-! Guide templates: literal text with `{field}` placeholders, a placeholder falling back from one
branch to the next. A template is checked when the config is loaded and rendered against the
schedule. The scanners work on bytes; `none` is a slice off a character boundary, which panics. -/
namespace EtvStation.Guide

open Ingest (isWhitespace)
open Lib.Utf8

/-- Catalog attributes a template may name beyond the program's own. -/
structure GuideFields where
  show_ : Option String := none
  absoluteEpisode : Option ℤ := none
  releaseDate : Option String := none
  studio : Option String := none
  edition : Option String := none
  library : Option String := none
  /-- In nanoseconds. -/
  duration : Option ℕ := none
  genres : List String := []
  cast : List String := []
  directors : List String := []
  writers : List String := []
  countries : List String := []
  summary : Option String := none

def ITEM_SCALAR_FIELDS : List String :=
  ["title", "show", "season", "episode", "absolute_episode", "year", "release_date", "studio",
    "edition", "content_rating", "duration", "library", "summary"]

def ITEM_MULTI_FIELDS : List String := ["genres", "cast", "directors", "writers", "countries"]

def OTHER_SCALAR_FIELDS : List String :=
  ["channel_identity", "channel_name", "program_title", "next_title", "next_start", "prev_title",
    "start", "stop", "now"]

def knownFields : List String := ITEM_SCALAR_FIELDS ++ ITEM_MULTI_FIELDS ++ OTHER_SCALAR_FIELDS

def isKnownField (name : String) : Bool :=
  ITEM_SCALAR_FIELDS.contains name || ITEM_MULTI_FIELDS.contains name ||
    OTHER_SCALAR_FIELDS.contains name

def isMultiValued (name : String) : Bool := ITEM_MULTI_FIELDS.contains name

structure Formats (τ : Type) where
  rfc3339 : τ → Option String
  humantime : ℕ → String

structure RenderContext (τ : Type) where
  fields : GuideFields := {}
  baseTitle : Option String := none
  baseSeason : Option ℕ := none
  baseEpisode : Option ℕ := none
  baseYear : Option ℕ := none
  baseContentRating : Option String := none
  channelIdentity : String
  channelName : String
  programTitle : Option String := none
  nextTitle : Option String := none
  nextStart : Option τ := none
  prevTitle : Option String := none
  start : τ
  stop : τ
  now : τ

def optNum {α : Type} [ToString α] (v : Option α) : String := (v.map toString).getD ""

/-- A length cut to whole seconds. -/
def roundToSecs (d : ℕ) : ℕ := d / 1000000000 * 1000000000

section

variable {τ : Type} (fmt : Formats τ)

def fmtTime (t : τ) : String := (fmt.rfc3339 t).getD ""

def RenderContext.scalar (ctx : RenderContext τ) (name : String) : String :=
  match name with
  | "title" => ctx.baseTitle.getD ""
  | "show" => ctx.fields.show_.getD ""
  | "season" => optNum ctx.baseSeason
  | "episode" => optNum ctx.baseEpisode
  | "absolute_episode" => optNum ctx.fields.absoluteEpisode
  | "year" => optNum ctx.baseYear
  | "release_date" => ctx.fields.releaseDate.getD ""
  | "studio" => ctx.fields.studio.getD ""
  | "edition" => ctx.fields.edition.getD ""
  | "content_rating" => ctx.baseContentRating.getD ""
  | "duration" => (ctx.fields.duration.map fun d => fmt.humantime (roundToSecs d)).getD ""
  | "library" => ctx.fields.library.getD ""
  | "summary" => ctx.fields.summary.getD ""
  | "genres" => ", ".intercalate ctx.fields.genres
  | "cast" => ", ".intercalate ctx.fields.cast
  | "directors" => ", ".intercalate ctx.fields.directors
  | "writers" => ", ".intercalate ctx.fields.writers
  | "countries" => ", ".intercalate ctx.fields.countries
  | "channel_identity" => ctx.channelIdentity
  | "channel_name" => ctx.channelName
  | "program_title" => ctx.programTitle.getD ""
  | "next_title" => ctx.nextTitle.getD ""
  | "next_start" => (ctx.nextStart.map (fmtTime fmt)).getD ""
  | "prev_title" => ctx.prevTitle.getD ""
  | "start" => fmtTime fmt ctx.start
  | "stop" => fmtTime fmt ctx.stop
  | "now" => fmtTime fmt ctx.now
  | _ => ""

def RenderContext.multi (ctx : RenderContext τ) (name : String) : List String :=
  match name with
  | "genres" => ctx.fields.genres
  | "cast" => ctx.fields.cast
  | "directors" => ctx.fields.directors
  | "writers" => ctx.fields.writers
  | "countries" => ctx.fields.countries
  | _ => []

end

def trim (cs : List Char) : List Char := (cs.dropWhile isWhitespace).rdropWhile isWhitespace

def placeholderBranches (inner : List Char) : List (List Char) := (inner.splitOn '|').map trim

/-! ## The scanners -/

/-- `template[i..].find(c)`, on the bytes from `i` on. -/
def findFrom (c : Char) (bs : List UInt8) : Option (Option ℕ) := (decode bs).map fun _ => find c bs

/-- `template[i + a..i + b]`. -/
def slice (bs : List UInt8) (a b : ℕ) : Option (List Char) :=
  (decode (bs.drop a)).bind fun _ => decode ((bs.take b).drop a)

/-- Where the placeholder that opens here closes, if one opens here. -/
def closing (bs : List UInt8) : Option (Option ℕ) :=
  if bs.head? = some (byte '{') then findFrom '}' bs else some none

/-- A step takes a byte at least. -/
def extractFrom : ℕ → List UInt8 → Option (List (List Char))
  | 0, _ => none
  | _ + 1, [] => some []
  | n + 1, b :: bs => do
    match ← closing (b :: bs) with
    | some close =>
      let inner ← slice (b :: bs) 1 close
      let rest ← extractFrom n ((b :: bs).drop (close + 1))
      some (inner :: rest)
    | none => extractFrom n bs

def extractPlaceholders (template : String) : Option (List (List Char)) :=
  let bytes := encode template.toList
  extractFrom (bytes.length + 1) bytes

def validateBranch (template branch : String) : Except String Unit :=
  if branch = "" then .error ("empty field name in template " ++ template.quote)
  else if !isKnownField branch then
    .error ("unknown guide field " ++ branch.quote ++ " in template " ++ template.quote ++
      " (known fields: " ++ ", ".intercalate knownFields ++ ")")
  else .ok ()

def validateTemplate (template : String) : Option (Except String Unit) :=
  (extractPlaceholders template).map fun placeholders =>
    placeholders.forM fun placeholder =>
      (placeholderBranches placeholder).forM fun branch =>
        validateBranch template (String.ofList branch)

section

variable {τ : Type} (fmt : Formats τ) (ctx : RenderContext τ)

/-- The first branch that has a value, or the last. -/
def resolved : List (List Char) → String
  | [] => ""
  | branch :: branches =>
    let value := ctx.scalar fmt (String.ofList branch)
    if value ≠ "" ∨ branches = [] then value else resolved branches

/-- Literal text is taken up to the next brace. A brace that opens nothing is taken by itself, or the
scan would stay where it is. -/
def renderFrom : ℕ → List UInt8 → Option (List Char)
  | 0, _ => none
  | _ + 1, [] => some []
  | n + 1, b :: bs => do
    match ← closing (b :: bs) with
    | some close =>
      let inner ← slice (b :: bs) 1 close
      let rest ← renderFrom n ((b :: bs).drop (close + 1))
      some ((resolved fmt ctx (placeholderBranches inner)).toList ++ rest)
    | none =>
      let nextBrace ← findFrom '{' (b :: bs)
      let literalEnd := nextBrace.getD (b :: bs).length
      let literal ← slice (b :: bs) 0 literalEnd
      let after := (b :: bs).drop literalEnd
      let unmatched ← if after.head? = some (byte '{') then
          (findFrom '}' after).map Option.isNone
        else some false
      if unmatched then
        let rest ← renderFrom n (after.drop 1)
        some (literal ++ '{' :: rest)
      else
        let rest ← renderFrom n after
        some (literal ++ rest)

def render (template : String) : Option String :=
  let bytes := encode template.toList
  (renderFrom fmt ctx (bytes.length + 1) bytes).map String.ofList

/-- What is inside the braces of an entry that begins and ends with them. -/
def strippedField (template : String) : Option String :=
  match trim template.toList with
  | '{' :: rest => if rest.getLast? = some '}' then some (String.ofList rest.dropLast) else none
  | _ => none

/-- One entry of `categories:`. A field of several values makes as many categories. -/
def renderCategory (template : String) : Option (List String) :=
  match (strippedField template).filter isMultiValued with
  | some field => some ((ctx.multi field).filter (· ≠ ""))
  | none => (render fmt ctx template).map fun rendered => if rendered = "" then [] else [rendered]

def renderCategories (templates : List String) : Option (List String) :=
  (templates.mapM (renderCategory fmt ctx)).map List.flatten

end

end EtvStation.Guide
