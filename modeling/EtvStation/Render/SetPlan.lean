import EtvStation.Render.Chapter
import Mathlib.Data.List.Sort

/-! The set plan: whole songs one after another, each pair joined by a seam recipe, and where
everything of it falls on the set's timeline. Bar counts are 32 bits wide, seconds and tempos are
exact. -/
namespace EtvStation.Render

/-- Below this a bass swap hands the low end from one song to the next. -/
def BASS_CROSSOVER_HZ : ℕ := 250
def SWEEP_CEILING_HZ : ℕ := 1200
def CUT_FADE_S : ℚ := 1 / 100
def SHORT_FADE_S : ℚ := 1 / 50
def LAST_FADE_S : ℚ := 2
/-- How far a bass swap's incoming tempo may sit from the running tempo. -/
def RATIO_TOLERANCE : ℚ := 1 / 500
def MAX_RIDE_BARS : UInt32 := 64
/-- How far apart two sums of seconds may come out and still be taken for one. -/
def ROUNDING : ℚ := 1 / 1000000000

inductive Recipe where
  | bassSwap
  | echoOut
  | dropMix
  deriving DecidableEq, Repr

structure Track where
  entryId : String
  path : String
  nativeBpm : ℚ
  /-- Where in the file the song enters the set. -/
  enterS : ℚ
  /-- Source seconds played per set second when it enters. -/
  ratio : ℚ
  /-- Bars over which a song that enters at another tempo steps back to its own. -/
  rideBars : UInt32 := 0
  deriving DecidableEq

namespace Track

variable (t : Track)

def sourceBarS : ℚ := 240 / t.nativeBpm

def rides : Bool := 0 < t.rideBars && |t.ratio - 1| > ROUNDING

def exitRatio : ℚ := if t.rides then 1 else t.ratio

def barS : ℚ := t.sourceBarS / t.exitRatio

/-- The ratio of each bar of the ride; the last is native. -/
def rideRatios : List ℚ :=
  if t.rides then
    (List.range t.rideBars.toNat).map fun i =>
      t.ratio + (1 - t.ratio) * (i + 1 : ℕ) / t.rideBars.toNat
  else []

def rideSrcS : ℚ := if t.rides then t.rideBars.toNat * t.sourceBarS else 0

def rideOutS : ℚ := (t.rideRatios.map fun r => t.sourceBarS / r).sum

/-- Set seconds taken to play `srcS` seconds of the file from where it enters. -/
def playOutS (srcS : ℚ) : ℚ := t.rideOutS + (srcS - t.rideSrcS) / t.exitRatio

end Track

structure Seam where
  recipe : Recipe
  /-- Where in the outgoing song's file the seam's phrase ends. -/
  outS : ℚ
  bars : UInt32 := 0
  sweep : Bool := false
  deriving DecidableEq

structure SetPlan where
  tracks : List Track
  /-- Each joins a track to the next. -/
  seams : List Seam
  /-- Where in the last song's file the set stops. -/
  endS : ℚ
  cards : List Card := []
  output : String
  deriving DecidableEq

inductive Filter where
  | highpass (hz : ℕ)
  | lowpass (hz : ℕ)
  | fadeIn (start len : ℚ)
  | fadeOut (start len : ℚ)
  | echo (delayMs : ℤ)
  deriving DecidableEq

def fadeOut (start len : ℚ) : Filter := .fadeOut (max start 0) len

/-- A bar's length in the file and the ratio of each bar of a tempo ride. -/
structure Ride where
  barSrcS : ℚ
  ratios : List ℚ
  deriving DecidableEq

def Ride.outS (r : Ride) : ℚ := (r.ratios.map fun ratio => r.barSrcS / ratio).sum

def Ride.srcS (r : Ride) : ℚ := r.barSrcS * r.ratios.length

structure AudioLayer where
  name : String
  track : ℕ
  srcStart : ℚ
  outStart : ℚ
  outLen : ℚ
  ratio : ℚ
  ride : Option Ride := none
  filters : List Filter
  deriving DecidableEq

def AudioLayer.srcLen (l : AudioLayer) : ℚ :=
  match l.ride with
  | some ride => ride.srcS + (l.outLen - ride.outS)
  | none => l.outLen * l.ratio

structure VideoSegment where
  name : String
  track : ℕ
  srcStart : ℚ
  outStart : ℚ
  outLen : ℚ
  ratio : ℚ
  deriving DecidableEq

structure Layout where
  audio : List AudioLayer
  video : List VideoSegment
  /-- When each incoming song is playing alone. -/
  seamAtS : List ℚ
  durationS : ℚ
  deriving DecidableEq

def rideOf (track : Track) : Option Ride :=
  if track.rides then some ⟨track.sourceBarS, track.rideRatios⟩ else none

section Picture

variable (track : Track) (index : ℕ) (srcTo : ℚ) (name : String)

/-- One segment per bar of the ride, then one for the rest. -/
def pictureFrom : List ℚ → (at_ src : ℚ) → List VideoSegment
  | [], at_, src =>
    [⟨name, index, src, at_, (srcTo - src) / track.exitRatio, track.exitRatio⟩]
  | r :: ratios, at_, src =>
    ⟨name, index, src, at_, track.sourceBarS / r, r⟩ ::
      pictureFrom ratios (at_ + track.sourceBarS / r) (src + track.sourceBarS)

def playedPicture (t : ℚ) : List VideoSegment :=
  pictureFrom track index srcTo name track.rideRatios t track.enterS

end Picture

section Seams

variable (k : ℕ) (a b : Track) (seam : Seam)

def pictureName : String := "seam " ++ toString (k + 1) ++ " picture"

def layerName (track : Track) (what : String) : String :=
  "seam " ++ toString (k + 1) ++ " (" ++ track.entryId ++ ") " ++ what

/-- Set seconds of half a bass swap. -/
def halfS : ℚ := seam.bars.toNat / 2 * a.barS

/-- Where in the incoming song's file its lead-in begins. -/
def bassIn : ℚ := b.enterS - halfS a seam * b.ratio

/-- The beats of a bar that show the incoming song, more of them as the swap goes on. -/
def sharedBeats (nbars bar : UInt32) : UInt32 := min (4 * (bar + 1) / (nbars + 1) + 1) 4

/-- The picture of one bar of a swap, first of the outgoing song and then of the incoming one. -/
def barPicture (bar : ℕ) (tt : ℚ) : List VideoSegment :=
  let beat := a.barS / 4
  let nb := (sharedBeats (max (seam.bars / 2) 1) (.ofNat bar)).toNat
  let aBeats : ℚ := (4 - nb : ℕ)
  (if nb < 4 then
    [⟨pictureName k, k, seam.outS + bar * a.barS * a.exitRatio, tt, aBeats * beat, a.exitRatio⟩]
  else []) ++
    [⟨pictureName k, k + 1, bassIn a b seam + (bar * a.barS + aBeats * beat) * b.ratio,
      tt + aBeats * beat, nb * beat, b.ratio⟩]

/-- The picture of `n` bars of a swap from `bar` on. -/
def swapPicture : (n bar : ℕ) → (tt : ℚ) → List VideoSegment
  | 0, _, _ => []
  | n + 1, bar, tt => barPicture k a b seam bar tt ++ swapPicture n (bar + 1) (tt + a.barS)

/-- When the seam's phrase ends, for a song that enters at `t`. -/
def phraseEnd (t : ℚ) : ℚ := t + a.playOutS (seam.outS - a.enterS)

def aloneFrom (t : ℚ) : ℚ :=
  match seam.recipe with
  | .bassSwap => phraseEnd a seam t + halfS a seam
  | _ => phraseEnd a seam t

def seamPicture (t : ℚ) : List VideoSegment :=
  playedPicture a k seam.outS (pictureName k) t ++
    match seam.recipe with
    | .bassSwap =>
      swapPicture k a b seam (max (seam.bars / 2) 1).toNat 0 (phraseEnd a seam t)
    | _ => []

def seamAudio (t : ℚ) : List AudioLayer :=
  let ra := a.exitRatio
  let bl := a.barS
  let p := seam.outS
  let body := a.playOutS (p - a.enterS)
  let tp := t + body
  match seam.recipe with
  | .bassSwap =>
    let half := halfS a seam
    let through := body + half
    [{ name := layerName k a "body"
       track := k
       srcStart := a.enterS
       outStart := t
       outLen := through
       ratio := a.ratio
       ride := rideOf a
       filters := [fadeOut (through - SHORT_FADE_S) SHORT_FADE_S] },
      { name := layerName k a "tail without bass"
        track := k
        srcStart := p + half * ra
        outStart := tp + half
        outLen := half
        ratio := ra
        filters := (if seam.sweep then [.highpass BASS_CROSSOVER_HZ, .lowpass SWEEP_CEILING_HZ]
          else [.highpass BASS_CROSSOVER_HZ]) ++
            [.fadeIn 0 SHORT_FADE_S, fadeOut (half / 2) (half / 2)] },
      { name := layerName k b "entering without bass"
        track := k + 1
        srcStart := bassIn a b seam
        outStart := tp
        outLen := half
        ratio := b.ratio
        filters := [.highpass BASS_CROSSOVER_HZ, .fadeIn 0 (min bl half),
          fadeOut (half - SHORT_FADE_S) SHORT_FADE_S] }]
  | .echoOut =>
    let barBefore := body - bl
    [{ name := layerName k a "body"
       track := k
       srcStart := a.enterS
       outStart := t
       outLen := barBefore
       ratio := a.ratio
       ride := rideOf a
       filters := [fadeOut (barBefore - SHORT_FADE_S) SHORT_FADE_S] },
      { name := layerName k a "echo"
        track := k
        srcStart := p - bl * ra
        outStart := tp - bl
        outLen := 3 * bl
        ratio := ra
        filters := [.echo (bl / 4 * (3 / 4) * 1000).floor, .fadeIn 0 SHORT_FADE_S,
          fadeOut bl (2 * bl)] }]
  | .dropMix =>
    [{ name := layerName k a "body"
       track := k
       srcStart := a.enterS
       outStart := t
       outLen := body
       ratio := a.ratio
       ride := rideOf a
       filters := [fadeOut (body - CUT_FADE_S) CUT_FADE_S] }]

end Seams

section Laying

variable (endS : ℚ)

def lastSong (k : ℕ) (last : Track) (t : ℚ) : Layout :=
  let n := last.playOutS (endS - last.enterS)
  { audio := [{ name := "last song (" ++ last.entryId ++ ")"
                track := k
                srcStart := last.enterS
                outStart := t
                outLen := n
                ratio := last.ratio
                ride := rideOf last
                filters := [fadeOut (n - LAST_FADE_S) LAST_FADE_S] }]
    video := playedPicture last k endS "last song picture" t
    seamAtS := []
    durationS := t + n }

/-- The songs from the `k`-th on, which enters at `t`, each with the seam into it. -/
def layFrom : (k : ℕ) → Track → List (Seam × Track) → (t : ℚ) → Layout
  | k, last, [], t => lastSong endS k last t
  | k, a, (seam, b) :: rest, t =>
    let after := layFrom (k + 1) b rest (aloneFrom a seam t)
    { audio := seamAudio k a b seam t ++ after.audio
      video := seamPicture k a b seam t ++ after.video
      seamAtS := aloneFrom a seam t :: after.seamAtS
      durationS := after.durationS }

end Laying

namespace SetPlan

variable (p : SetPlan)

/-- The songs after the first, each with the seam into it. -/
def joined : List (Seam × Track) := p.seams.zip p.tracks.tail

def layout : Layout :=
  match p.tracks with
  | [] => ⟨[], [], [], 0⟩
  | first :: _ =>
    let laid := layFrom p.endS 0 first p.joined 0
    { laid with video := laid.video.insertionSort fun x y => x.outStart ≤ y.outStart }

def durationS : ℚ := p.layout.durationS

end SetPlan

/-- What a plan is refused for, with the place and the values the message names. -/
inductive SetError where
  | noTracks
  | seamCount (tracks seams : ℕ)
  | rideLimit (i : ℕ) (entryId : String) (rideBars : UInt32)
  | rideEntry (i : ℕ) (entryId : String)
  | trackTwice (i : ℕ) (entryId : String)
  | nativeBpm (i : ℕ) (entryId : String)
  | ratio (i : ℕ) (entryId : String)
  | enter (i : ℕ) (entryId : String)
  | shortBody (k : ℕ) (a b : String) (outS enterS : ℚ) (ride : Option UInt32)
  | swapBars (k : ℕ) (a b : String) (bars : UInt32)
  | leadIn (k : ℕ) (a b : String) (enterS leadIn : ℚ)
  | shortTail (k : ℕ) (a b : String) (alone tail : ℚ) (beforeSeam : Bool)
  | unlocked (k : ℕ) (a b : String) (wanted running nativeBpm ratio : ℚ)
  | echoRoom (k : ℕ) (a b : String)
  | swapOnly (k : ℕ) (a b : String)
  | closingFade (endS : ℚ) (last : String) (enterS : ℚ) (ride : Option UInt32)
  | noOutput
  | cardOutside (i : ℕ) (atS total : ℚ)
  | cardOrder (i : ℕ) (atS prev : ℚ)
  deriving DecidableEq

def Track.rideNote (t : Track) : Option UInt32 := if t.rides then some t.rideBars else none

/-- A track in its place; `by_` is the recipe it enters by. -/
def checkTrack (i : ℕ) (ids : List String) (by_ : Option Recipe) (t : Track) :
    Except SetError Unit :=
  if t.rideBars > MAX_RIDE_BARS then .error (.rideLimit i t.entryId t.rideBars)
  else if t.rideBars > 0 ∧ by_ ≠ some .bassSwap then .error (.rideEntry i t.entryId)
  else if t.entryId ∈ ids then .error (.trackTwice i t.entryId)
  else if t.nativeBpm ≤ 0 then .error (.nativeBpm i t.entryId)
  else if t.ratio ≤ 0 then .error (.ratio i t.entryId)
  else if t.enterS < 0 then .error (.enter i t.entryId)
  else .ok ()

def checkTracks (seams : List Seam) : ℕ → List String → List Track → Except SetError Unit
  | _, _, [] => .ok ()
  | i, ids, t :: rest => do
    checkTrack i ids (if i = 0 then none else seams[i - 1]?.map (·.recipe)) t
    checkTracks seams (i + 1) (t.entryId :: ids) rest

def checkSwap (k : ℕ) (a b : Track) (seam : Seam) (stopS : ℚ) (beforeSeam : Bool) :
    Except SetError Unit :=
  let half := halfS a seam
  let alone := b.playOutS (stopS - b.enterS)
  let running := a.nativeBpm * a.exitRatio
  let wanted := running / b.nativeBpm
  if seam.bars < 2 ∨ seam.bars % 2 ≠ 0 then .error (.swapBars k a.entryId b.entryId seam.bars)
  else if b.enterS + ROUNDING < half * b.ratio then
    .error (.leadIn k a.entryId b.entryId b.enterS (half * b.ratio))
  else if b.enterS ≤ stopS ∧ alone + ROUNDING < half then
    .error (.shortTail k a.entryId b.entryId alone half beforeSeam)
  else if |b.ratio - wanted| > RATIO_TOLERANCE then
    .error (.unlocked k a.entryId b.entryId wanted running b.nativeBpm b.ratio)
  else .ok ()

def checkRecipe (k : ℕ) (a b : Track) (seam : Seam) (stopS : ℚ) (beforeSeam : Bool) :
    Except SetError Unit :=
  match seam.recipe with
  | .bassSwap => checkSwap k a b seam stopS beforeSeam
  | .echoOut =>
    if seam.outS < a.enterS + a.rideSrcS + 2 * a.sourceBarS then
      .error (.echoRoom k a.entryId b.entryId)
    else .ok ()
  | .dropMix => .ok ()

/-- A seam between two songs, the second of which stops at `stopS` in its file. -/
def checkSeam (k : ℕ) (a b : Track) (seam : Seam) (stopS : ℚ) (beforeSeam : Bool) :
    Except SetError Unit :=
  if seam.outS < a.enterS + a.rideSrcS + a.sourceBarS then
    .error (.shortBody k a.entryId b.entryId seam.outS a.enterS a.rideNote)
  else do
    checkRecipe k a b seam stopS beforeSeam
    if seam.recipe ≠ .bassSwap ∧ (seam.bars ≠ 0 ∨ seam.sweep) then
      .error (.swapOnly k a.entryId b.entryId)
    else .ok ()

def stopOf (endS : ℚ) (rest : List (Seam × Track)) : ℚ :=
  (rest.head?.map (·.1.outS)).getD endS

def checkSeams (endS : ℚ) : ℕ → Track → List (Seam × Track) → Except SetError Unit
  | _, last, [] =>
    if endS < last.enterS + last.rideSrcS + LAST_FADE_S * last.exitRatio then
      .error (.closingFade endS last.entryId last.enterS last.rideNote)
    else .ok ()
  | k, a, (seam, b) :: rest => do
    checkSeam k a b seam (stopOf endS rest) !rest.isEmpty
    checkSeams endS (k + 1) b rest

def checkSetCards (total : ℚ) : ℕ → ℚ → List Card → Except SetError Unit
  | _, _, [] => .ok ()
  | i, prev, card :: rest =>
    if ¬ (0 ≤ card.atS ∧ card.atS ≤ total) then .error (.cardOutside i card.atS total)
    else if card.atS < prev then .error (.cardOrder i card.atS prev)
    else checkSetCards total (i + 1) card.atS rest

def checkOutput (output : String) : Except SetError Unit :=
  if output.isEmpty then .error .noOutput else .ok ()

def SetPlan.validate (p : SetPlan) : Except SetError Unit :=
  match p.tracks with
  | [] => .error .noTracks
  | first :: _ =>
    if p.seams.length + 1 ≠ p.tracks.length then
      .error (.seamCount p.tracks.length p.seams.length)
    else do
      checkTracks p.seams 0 [] p.tracks
      checkSeams p.endS 0 first p.joined
      checkOutput p.output
      checkSetCards p.durationS 0 0 p.cards

end EtvStation.Render
