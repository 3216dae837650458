import Mathlib.Data.List.Forall2
import EtvStation.Guide.Reading

/-! White space around the names in a placeholder. Validation and rendering pass over it; an entry
of `categories:` that would make several categories takes it for part of the name. -/
namespace EtvStation.Guide

open Ingest (isWhitespace)

/-! ## The text of a reading -/

def Segment.text : Segment → List Char
  | char c => [c]
  | span inner => '{' :: (inner ++ ['}'])

theorem Reads.text_eq {cs : List Char} {segs : List Segment} (h : Reads cs segs) :
    segs.flatMap Segment.text = cs := by
  induction h with
  | nil => rfl
  | char hc h ih => rw [List.flatMap_cons, ih]; rfl
  | span hi h ih => rw [List.flatMap_cons, ih]; simp [Segment.text]

theorem text_chars (cs : List Char) : (cs.map Segment.char).flatMap Segment.text = cs := by
  induction cs with
  | nil => rfl
  | cons c cs ih => rw [List.map_cons, List.flatMap_cons, ih]; rfl

theorem Reads.not_mem {cs : List Char} {segs : List Segment} (h : Reads cs segs) {inner : List Char}
    (hs : .span inner ∈ segs) : '}' ∉ inner := by
  induction h with
  | nil => cases hs
  | char hc h ih =>
    obtain hs | hs := List.mem_cons.mp hs
    · cases hs
    · exact ih hs
  | span hi h ih =>
    obtain hs | hs := List.mem_cons.mp hs
    · obtain rfl := Segment.span.inj hs
      exact hi
    · exact ih hs

/-- A placeholder opened and closed is read as one. -/
theorem Reads.opened {inner rest : List Char} {segs : List Segment} (hi : '}' ∉ inner)
    (h : Reads ('{' :: (inner ++ '}' :: rest)) segs) :
    ∃ segs', segs = .span inner :: segs' ∧ Reads rest segs' := by
  generalize ht : '{' :: (inner ++ '}' :: rest) = t at h
  cases h with
  | nil => cases ht
  | char hc h =>
    obtain ⟨rfl, rfl⟩ := List.cons.inj ht
    exact absurd (by simp) (hc rfl)
  | @span inner' rest' segs hi' h =>
    have htail := (List.cons.inj ht).2
    have htake : ∀ (i r : List Char), '}' ∉ i → (i ++ '}' :: r).takeWhile (· ≠ '}') = i := by
      intro i r hmem
      rw [List.takeWhile_append_of_pos]
      · simp
      · intro a ha
        exact decide_eq_true fun heq => hmem (heq ▸ ha)
    obtain rfl : inner = inner' := by rw [← htake inner rest hi, htail, htake inner' rest' hi']
    obtain rfl : rest = rest' := (List.cons.inj (List.append_cancel_left htail)).2
    exact ⟨segs, rfl, h⟩

theorem Reads.append_chars {pre rest : List Char} {segs : List Segment} (hpre : '{' ∉ pre)
    (h : Reads rest segs) : Reads (pre ++ rest) (pre.map .char ++ segs) := by
  induction pre with
  | nil => exact h
  | cons c pre ih =>
    rw [List.mem_cons, not_or] at hpre
    exact .char (fun hc => absurd hc.symm hpre.1) (ih hpre.2)

theorem Reads.chars {cs : List Char} (h : '{' ∉ cs) : Reads cs (cs.map .char) := by
  have hread := Reads.append_chars h .nil
  rwa [List.append_nil, List.append_nil] at hread

/-! ## Respacing -/

/-- The same text outside the braces, and inside them the same branches. -/
def Segment.Alike : Segment → Segment → Prop
  | char c, char d => c = d
  | span i, span j => placeholderBranches i = placeholderBranches j
  | _, _ => False

/-- One template is the other with white space added or taken away around branch names. -/
def Respaced (t t' : String) : Prop :=
  ∃ segs segs', Reads t.toList segs ∧ Reads t'.toList segs' ∧
    List.Forall₂ Segment.Alike segs segs'

theorem Segment.Alike.symm {s s' : Segment} (h : s.Alike s') : s'.Alike s := by
  cases s with
  | char c => cases s' with
    | char d => exact Eq.symm h
    | span j => cases h
  | span i => cases s' with
    | char d => cases h
    | span j => exact Eq.symm h

theorem Respaced.symm {t t' : String} (h : Respaced t t') : Respaced t' t := by
  obtain ⟨segs, segs', hr, hr', halike⟩ := h
  exact ⟨segs', segs, hr', hr, (halike.imp fun _ _ h => h.symm).flip⟩

theorem alike_chars {cs : List Char} {segs segs' : List Segment}
    (h : List.Forall₂ Segment.Alike (cs.map .char ++ segs) segs') :
    ∃ rest, segs' = cs.map .char ++ rest ∧ List.Forall₂ Segment.Alike segs rest := by
  induction cs generalizing segs' with
  | nil => exact ⟨segs', rfl, h⟩
  | cons c cs ih =>
    cases h with
    | @cons _ s' _ rest hs hrest =>
      obtain ⟨rest', rfl, hrest'⟩ := ih hrest
      cases s' with
      | char d =>
        obtain rfl : c = d := hs
        exact ⟨rest', rfl, hrest'⟩
      | span j => cases hs

section

variable {τ : Type} (fmt : Formats τ) (ctx : RenderContext τ)

/-- Respacing changes nothing of what is rendered. -/
theorem Respaced.render_eq {t t' : String} (h : Respaced t t') :
    render fmt ctx t' = render fmt ctx t := by
  obtain ⟨segs, segs', hr, hr', halike⟩ := h
  rw [render_reads fmt ctx hr, render_reads fmt ctx hr']
  have heq : segs'.flatMap (Segment.rendered fmt ctx) = segs.flatMap (Segment.rendered fmt ctx) := by
    clear hr hr'
    induction halike with
    | nil => rfl
    | @cons s s' segs segs' hs h ih =>
      rw [List.flatMap_cons, List.flatMap_cons, ih]
      have hsame : s'.rendered fmt ctx = s.rendered fmt ctx := by
        cases s with
        | char c => cases s' with
          | char d => rw [show c = d from hs]
          | span j => cases hs
        | span i => cases s' with
          | char d => cases hs
          | span j => rw [Segment.rendered, Segment.rendered, show placeholderBranches i = _ from hs]
      rw [hsame]
  rw [heq]

end

/-! ## Trimming -/

theorem exists_trim (cs : List Char) : ∃ pre post, (∀ c ∈ pre, isWhitespace c = true) ∧
    (∀ c ∈ post, isWhitespace c = true) ∧ cs = pre ++ (trim cs ++ post) := by
  refine ⟨cs.takeWhile isWhitespace, (cs.dropWhile isWhitespace).rtakeWhile isWhitespace, ?_, ?_, ?_⟩
  · exact fun c hc => List.mem_takeWhile_imp hc
  · exact fun c hc => List.mem_rtakeWhile_imp hc
  · rw [trim, List.rdropWhile_append_rtakeWhile, List.takeWhile_append_dropWhile]

theorem rdropWhile_append {p : Char → Bool} {cs post : List Char} (h : ∀ c ∈ post, p c = true) :
    (cs ++ post).rdropWhile p = cs.rdropWhile p := by
  rw [List.rdropWhile, List.reverse_append, List.dropWhile_append_of_pos, List.rdropWhile]
  intro c hc
  exact h c (List.mem_reverse.mp hc)

theorem trim_padded {pre post : List Char} (hpre : ∀ c ∈ pre, isWhitespace c = true)
    (hpost : ∀ c ∈ post, isWhitespace c = true) (inner : List Char) :
    trim (pre ++ ('{' :: (inner ++ ['}']) ++ post)) = '{' :: (inner ++ ['}']) := by
  have hopen : isWhitespace '{' = false := by decide
  have hclose : ¬ isWhitespace '}' = true := by decide
  rw [trim, List.dropWhile_append_of_pos hpre, List.cons_append,
    List.dropWhile_cons_of_neg (by simp [hopen]), ← List.cons_append, rdropWhile_append hpost,
    ← List.cons_append]
  exact List.rdropWhile_concat_neg isWhitespace _ '}' hclose

/-! ## Entries of one placeholder -/

/-- One placeholder with white space around it. -/
structure Padded (t : String) (pre inner post : List Char) : Prop where
  text : t.toList = pre ++ ('{' :: (inner ++ ['}']) ++ post)
  pre : ∀ c ∈ pre, isWhitespace c = true
  post : ∀ c ∈ post, isWhitespace c = true
  inner : '}' ∉ inner

/-- White space around it apart, the template is one placeholder, and of one field. -/
def Lone (t field : String) : Prop :=
  ∃ inner, trim t.toList = '{' :: (inner ++ ['}']) ∧ '}' ∉ inner ∧
    placeholderBranches inner = [field.toList]

theorem open_not_mem {cs : List Char} (h : ∀ c ∈ cs, isWhitespace c = true) : '{' ∉ cs :=
  fun hmem => absurd (h '{' hmem) (by decide)

namespace Padded

variable {t t' : String} {pre inner inner' post : List Char}

theorem trim_eq (h : Padded t pre inner post) : trim t.toList = '{' :: (inner ++ ['}']) := by
  rw [h.text]
  exact trim_padded h.pre h.post inner

theorem reads (h : Padded t pre inner post) :
    Reads t.toList (pre.map .char ++ .span inner :: post.map .char) := by
  have hspan : Reads ('{' :: (inner ++ '}' :: post)) (.span inner :: post.map .char) :=
    .span h.inner (.chars (open_not_mem h.post))
  have htext : t.toList = pre ++ '{' :: (inner ++ '}' :: post) := by
    rw [h.text]
    simp
  rw [htext]
  exact .append_chars (open_not_mem h.pre) hspan

theorem reads_unique (h : Padded t pre inner post) {segs : List Segment} (hr : Reads t.toList segs) :
    segs = pre.map .char ++ .span inner :: post.map .char := by
  have htext : t.toList = pre ++ '{' :: (inner ++ '}' :: post) := by
    rw [h.text]
    simp
  rw [htext] at hr
  obtain ⟨segs₁, rfl, hopened⟩ := hr.prefix (open_not_mem h.pre)
  obtain ⟨segs₂, rfl, hpost⟩ := hopened.opened h.inner
  rw [← List.append_nil post] at hpost
  obtain ⟨segs₃, rfl, hnil⟩ := hpost.prefix (open_not_mem h.post)
  rw [hnil.eq_nil, List.append_nil]

/-- What a respaced template of one placeholder is. -/
theorem of_respaced (h : Padded t pre inner post) (hs : Respaced t t') :
    ∃ inner', Padded t' pre inner' post ∧
      placeholderBranches inner = placeholderBranches inner' := by
  obtain ⟨segs, segs', hr, hr', halike⟩ := hs
  rw [h.reads_unique hr] at halike
  obtain ⟨segs₁, rfl, hopened⟩ := alike_chars halike
  cases hopened with
  | @cons _ s' _ segs₂ hspan hrest =>
    rw [← List.append_nil (post.map Segment.char)] at hrest
    obtain ⟨segs₃, rfl, hnil⟩ := alike_chars hrest
    cases hnil
    cases s' with
    | char c => cases hspan
    | span inner' =>
      refine ⟨inner', ?_, hspan⟩
      constructor
      · rw [← hr'.text_eq, List.flatMap_append, List.flatMap_cons, List.append_nil, text_chars,
          text_chars]
        rfl
      · exact h.pre
      · exact h.post
      · exact hr'.not_mem (by simp)

theorem respaced (h : Padded t pre inner post) (h' : Padded t' pre inner' post)
    (hb : placeholderBranches inner = placeholderBranches inner') : Respaced t t' := by
  refine ⟨_, _, h.reads, h'.reads, ?_⟩
  have hchars : ∀ cs : List Char, List.Forall₂ Segment.Alike (cs.map .char) (cs.map .char) := by
    intro cs
    induction cs with
    | nil => exact .nil
    | cons c cs ih => exact .cons rfl ih
  exact List.rel_append (hchars pre) (.cons hb (hchars post))

theorem lone (h : Padded t pre inner post) {field : String}
    (hb : placeholderBranches inner = [field.toList]) : Lone t field :=
  ⟨inner, h.trim_eq, h.inner, hb⟩

/-- There is no white space around a template that is its own trimming. -/
theorem trim_eq_self (h : Padded t pre inner post) :
    trim t.toList = t.toList ↔ pre = [] ∧ post = [] := by
  rw [h.trim_eq, h.text]
  constructor
  · intro heq
    have hlen := congrArg List.length heq
    simp only [List.length_append] at hlen
    rw [← List.length_eq_zero_iff, ← List.length_eq_zero_iff]
    omega
  · rintro ⟨rfl, rfl⟩
    simp

end Padded

theorem Lone.padded {t field : String} (h : Lone t field) :
    ∃ pre inner post, Padded t pre inner post ∧ placeholderBranches inner = [field.toList] := by
  obtain ⟨inner, htrim, hinner, hb⟩ := h
  obtain ⟨pre, post, hpre, hpost, htext⟩ := exists_trim t.toList
  rw [htrim] at htext
  exact ⟨pre, inner, post, ⟨htext, hpre, hpost, hinner⟩, hb⟩

/-! ## Categories -/

def single (rendered : String) : List String := if rendered = "" then [] else [rendered]

theorem length_intercalate {α : Type} (sep : List α) {ls : List (List α)} {l : List α}
    (h : l ∈ ls) : l.length + sep.length * (ls.length - 1) ≤ (sep.intercalate ls).length := by
  induction ls generalizing l with
  | nil => cases h
  | cons a ls ih =>
    cases ls with
    | nil =>
      obtain rfl := List.mem_singleton.mp h
      simp
    | cons b ls =>
      rw [List.intercalate_cons_cons, List.length_append, List.length_append]
      have hlen : (a :: b :: ls).length - 1 = (b :: ls).length - 1 + 1 := by simp
      rw [hlen, Nat.mul_add, Nat.mul_one]
      obtain rfl | h := List.mem_cons.mp h
      · have hb := ih List.mem_cons_self
        omega
      · have hl := ih h
        omega

/-- Values fan out into the one category their joined text makes only where there is one of them at
most, and no white space around it. -/
theorem fan_eq_single {gs : List String} {pre post : List Char} :
    gs.filter (· ≠ "") =
        single (String.ofList (pre ++ ((", ".intercalate gs).toList ++ post))) ↔
      pre = [] ∧ post = [] ∧ gs.length ≤ 1 := by
  set out := pre ++ ((", ".intercalate gs).toList ++ post) with hout
  have hlen : out.length = pre.length + ((", ".intercalate gs).toList.length + post.length) := by
    rw [hout, List.length_append, List.length_append]
  have hjoin : ∀ g ∈ gs, g.toList.length + 2 * (gs.length - 1) ≤
      (", ".intercalate gs).toList.length := by
    intro g hg
    rw [String.toList_intercalate]
    have hmem : g.toList ∈ gs.map String.toList := List.mem_map_of_mem hg
    have h := length_intercalate ", ".toList hmem
    rwa [List.length_map] at h
  rw [← List.length_eq_zero_iff, ← List.length_eq_zero_iff]
  constructor
  · intro h
    by_cases hempty : out = []
    · have hzero : out.length = 0 := by rw [hempty]; rfl
      refine ⟨by omega, by omega, ?_⟩
      cases gs with
      | nil => simp
      | cons g gs =>
        have hg := hjoin g List.mem_cons_self
        omega
    · have hne : String.ofList out ≠ "" := by
        intro heq
        apply hempty
        have hback : (String.ofList out).toList = out := String.toList_ofList
        rw [← hback, heq]
        rfl
      rw [single, if_neg hne] at h
      have hmem : String.ofList out ∈ gs := by
        apply List.mem_of_mem_filter (p := fun g => decide (g ≠ ""))
        rw [h]
        exact List.mem_singleton_self _
      have hg := hjoin _ hmem
      rw [String.toList_ofList] at hg
      omega
  · rintro ⟨hpre, hpost, hone⟩
    rw [List.length_eq_zero_iff] at hpre hpost
    subst hpre hpost
    have hgs : out = (", ".intercalate gs).toList := by rw [hout, List.append_nil, List.nil_append]
    rw [hgs, String.ofList_toList]
    cases gs with
    | nil => rfl
    | cons g gs =>
      obtain rfl : gs = [] := by
        rw [← List.length_eq_zero_iff]
        rw [List.length_cons] at hone
        omega
      rw [String.intercalate_singleton, single]
      by_cases hg : g = "" <;> simp [hg]

section

variable {τ : Type} (fmt : Formats τ) (ctx : RenderContext τ)

theorem mem_multi {field : String} (h : isMultiValued field = true) :
    field = "genres" ∨ field = "cast" ∨ field = "directors" ∨ field = "writers" ∨
      field = "countries" := by
  simpa [isMultiValued, ITEM_MULTI_FIELDS] using h

theorem scalar_multi {field : String} (h : isMultiValued field = true) :
    ctx.scalar fmt field = ", ".intercalate (ctx.multi field) := by
  obtain rfl | rfl | rfl | rfl | rfl := mem_multi h <;> rfl

theorem close_not_mem_multi {field : String} (h : isMultiValued field = true) :
    '}' ∉ field.toList := by
  obtain rfl | rfl | rfl | rfl | rfl := mem_multi h <;> decide

/-- The name as it is, and the name with blanks around it. -/
theorem branches_multi {field : String} (h : isMultiValued field = true) :
    placeholderBranches field.toList = [field.toList] ∧
      placeholderBranches (' ' :: (field.toList ++ [' '])) = [field.toList] := by
  obtain rfl | rfl | rfl | rfl | rfl := mem_multi h <;> decide

theorem strippedField_padded {t : String} {pre inner post : List Char}
    (h : Padded t pre inner post) : strippedField t = some (String.ofList inner) := by
  rw [strippedField, h.trim_eq]
  simp

theorem render_padded {t field : String} {pre inner post : List Char} (h : Padded t pre inner post)
    (hb : placeholderBranches inner = [field.toList]) :
    render fmt ctx t =
      some (String.ofList (pre ++ ((ctx.scalar fmt field).toList ++ post))) := by
  have hspan : (Segment.span inner).rendered fmt ctx = (ctx.scalar fmt field).toList := by
    rw [Segment.rendered, hb, List.map_cons, List.map_nil, String.ofList_toList]
    by_cases hempty : ctx.scalar fmt field = ""
    · simp [hempty]
    · simp [hempty]
  rw [render_reads fmt ctx h.reads, List.flatMap_append, List.flatMap_cons, rendered_chars,
    rendered_chars, hspan]

theorem renderCategory_cases (t : String) :
    renderCategory fmt ctx t = (render fmt ctx t).map single ∨
      ∃ field, isMultiValued field = true ∧ Lone t field ∧
        renderCategory fmt ctx t = some ((ctx.multi field).filter (· ≠ "")) := by
  rw [renderCategory]
  cases hs : (strippedField t).filter isMultiValued with
  | none => exact Or.inl rfl
  | some field =>
    obtain ⟨hfield, hmulti⟩ := Option.filter_eq_some_iff.mp hs
    refine Or.inr ⟨field, hmulti, ?_, rfl⟩
    rw [strippedField] at hfield
    split at hfield
    · next rest htrim =>
      split_ifs at hfield with hlast
      have hrest : field.toList ++ ['}'] = rest := by
        rw [← Option.some.inj hfield, String.toList_ofList]
        exact List.dropLast_append_getLast? _ hlast
      refine ⟨field.toList, ?_, close_not_mem_multi hmulti, (branches_multi hmulti).1⟩
      rw [htrim, hrest]
    · cases hfield

/-- Where a field of several values has one at most and no white space around it, it makes no
difference whether the entry fans out. -/
theorem renderCategory_eq {t : String}
    (h : ∀ field, isMultiValued field = true → Lone t field →
      trim t.toList = t.toList ∧ (ctx.multi field).length ≤ 1) :
    renderCategory fmt ctx t = (render fmt ctx t).map single := by
  obtain hplain | ⟨field, hmulti, hlone, hfan⟩ := renderCategory_cases fmt ctx t
  · exact hplain
  · obtain ⟨htrim, hone⟩ := h field hmulti hlone
    obtain ⟨pre, inner, post, hpad, hb⟩ := hlone.padded
    obtain ⟨hpre, hpost⟩ := hpad.trim_eq_self.mp htrim
    rw [hfan, render_padded fmt ctx hpad hb, scalar_multi fmt ctx hmulti, Option.map_some,
      fan_eq_single.mpr ⟨hpre, hpost, hone⟩]

theorem renderCategories_congr {t t' : String}
    (h : renderCategory fmt ctx t' = renderCategory fmt ctx t) (before after : List String) :
    renderCategories fmt ctx (before ++ t' :: after) =
      renderCategories fmt ctx (before ++ t :: after) := by
  simp only [renderCategories, List.mapM_append, List.mapM_cons, h]

theorem renderCategories_singleton (t : String) :
    renderCategories fmt ctx [t] = renderCategory fmt ctx t := by
  rw [renderCategories, List.mapM_cons]
  cases renderCategory fmt ctx t with
  | none => rfl
  | some categories => exact congrArg some (List.append_nil categories)

/-- What a template means. Rendering replaces what validation read and keeps the rest; what it
validated is there to be named; and white space around a name makes no difference. -/
structure Means (t : String) : Prop where
  replaced : ∃ segs, Reads t.toList segs ∧ segs.flatMap Segment.text = t.toList ∧
    extractPlaceholders t = some (spans segs) ∧
    render fmt ctx t = some (String.ofList (segs.flatMap (Segment.rendered fmt ctx)))
  known : validateTemplate t = some (.ok ()) → ∀ placeholders,
    extractPlaceholders t = some placeholders → ∀ inner ∈ placeholders,
      ∀ branch ∈ placeholderBranches inner, isKnownField (String.ofList branch) = true
  spacing : ∀ t', Respaced t t' → render fmt ctx t' = render fmt ctx t ∧
    ∀ before after, renderCategories fmt ctx (before ++ t' :: after) =
      renderCategories fmt ctx (before ++ t :: after)

variable {fmt ctx}

theorem renderCategory_fan {t field : String} {pre post : List Char}
    (hmulti : isMultiValued field = true) (hpad : Padded t pre field.toList post) :
    renderCategory fmt ctx t = some ((ctx.multi field).filter (· ≠ "")) := by
  rw [renderCategory, strippedField_padded hpad, String.ofList_toList,
    Option.filter_some_pos hmulti]

/-- With blanks around it the name is not the field's. -/
theorem renderCategory_blank {t field : String} {pre post : List Char}
    (hmulti : isMultiValued field = true)
    (hpad : Padded t pre (' ' :: (field.toList ++ [' '])) post) :
    renderCategory fmt ctx t = (render fmt ctx t).map single := by
  have hname : isMultiValued (String.ofList (' ' :: (field.toList ++ [' ']))) = false := by
    obtain rfl | rfl | rfl | rfl | rfl := mem_multi hmulti <;> decide
  rw [renderCategory, strippedField_padded hpad, Option.filter_some_neg hname]
  rfl

/-- An entry that means what it should is the same fanned out and rendered. -/
theorem Means.fan_eq {t field : String} {pre inner post : List Char} (h : Means fmt ctx t)
    (hmulti : isMultiValued field = true) (hpad : Padded t pre inner post)
    (hb : placeholderBranches inner = [field.toList]) :
    some ((ctx.multi field).filter (· ≠ "")) = (render fmt ctx t).map single := by
  obtain ⟨hplain, hblank⟩ := branches_multi hmulti
  have hclose := close_not_mem_multi hmulti
  have hbraces : ∀ name : List Char, '}' ∉ name →
      Padded (String.ofList (pre ++ ('{' :: (name ++ ['}']) ++ post))) pre name post :=
    fun name hname => ⟨String.toList_ofList, hpad.pre, hpad.post, hname⟩
  have hsame : ∀ (t' : String) (name : List Char), Padded t' pre name post →
      placeholderBranches name = [field.toList] →
      renderCategory fmt ctx t' = renderCategory fmt ctx t := by
    intro t' name hp hname
    have hspaced := (h.spacing t' (hpad.respaced hp (hb.trans hname.symm))).2 [] []
    rwa [List.nil_append, List.nil_append, renderCategories_singleton,
      renderCategories_singleton] at hspaced
  have hfan := hbraces field.toList hclose
  have hspread := hbraces (' ' :: (field.toList ++ [' '])) (by simp [hclose])
  have hrender := (hpad.respaced hspread (hb.trans hblank.symm)).render_eq fmt ctx
  rw [← renderCategory_fan hmulti hfan, hsame _ _ hfan hplain, ← hsame _ _ hspread hblank,
    renderCategory_blank hmulti hspread, hrender]

/-- A template means what it should unless it is an entry of one placeholder, of a field with several
values or with white space around the braces. -/
theorem means_iff (t : String) :
    Means fmt ctx t ↔ ∀ field, isMultiValued field = true → Lone t field →
      trim t.toList = t.toList ∧ (ctx.multi field).length ≤ 1 := by
  constructor
  · intro h field hmulti hlone
    obtain ⟨pre, inner, post, hpad, hb⟩ := hlone.padded
    have hfan := h.fan_eq hmulti hpad hb
    rw [render_padded fmt ctx hpad hb, scalar_multi fmt ctx hmulti, Option.map_some,
      Option.some.injEq, fan_eq_single] at hfan
    obtain ⟨hpre, hpost, hone⟩ := hfan
    exact ⟨hpad.trim_eq_self.mpr ⟨hpre, hpost⟩, hone⟩
  · intro h
    obtain ⟨segs, hr⟩ := exists_reads t.toList
    have hextract := extractPlaceholders_reads hr
    constructor
    · exact ⟨segs, hr, hr.text_eq, hextract, render_reads fmt ctx hr⟩
    · intro hvalid placeholders hplaceholders
      rw [hextract, Option.some.injEq] at hplaceholders
      rw [← hplaceholders]
      exact validateTemplate_eq_ok hvalid hr
    · intro t' hs
      have hrender := hs.render_eq fmt ctx
      refine ⟨hrender, renderCategories_congr fmt ctx ?_⟩
      have h' : ∀ field, isMultiValued field = true → Lone t' field →
          trim t'.toList = t'.toList ∧ (ctx.multi field).length ≤ 1 := by
        intro field hmulti hlone
        obtain ⟨pre, inner, post, hpad, hb⟩ := hlone.padded
        obtain ⟨inner', hpad', hb'⟩ := hpad.of_respaced hs.symm
        obtain ⟨htrim, hone⟩ := h field hmulti (hpad'.lone (hb'.symm.trans hb))
        exact ⟨hpad.trim_eq_self.mpr (hpad'.trim_eq_self.mp htrim), hone⟩
      rw [renderCategory_eq fmt ctx h, renderCategory_eq fmt ctx h', hrender]

end

def heat : RenderContext ℕ where
  fields := { genres := ["Action", "Thriller"] }
  channelIdentity := "crime"
  channelName := "Crime"
  start := 0
  stop := 1
  now := 0

def plainTimes : Formats ℕ where
  rfc3339 s := some (toString s)
  humantime s := toString s ++ "s"

/-- With blanks inside the braces the genres make one category. -/
theorem heat_spacing : ¬ Means plainTimes heat "{ genres }" := by
  intro h
  have hnone : ∀ c ∈ ([] : List Char), isWhitespace c = true := by simp
  have hplain : Padded "{genres}" [] "genres".toList [] := ⟨rfl, hnone, hnone, by decide⟩
  have hblank : Padded "{ genres }" [] " genres ".toList [] := ⟨rfl, hnone, hnone, by decide⟩
  have hmulti : isMultiValued "genres" = true := by decide
  have hsame := (h.spacing "{genres}" (hblank.respaced hplain (by decide))).2 [] []
  have hjoined : (heat.scalar plainTimes "genres").toList = "Action, Thriller".toList := by
    rw [scalar_multi plainTimes heat hmulti]
    decide
  have hrender := render_padded plainTimes heat hblank (branches_multi hmulti).2
  rw [List.nil_append, List.nil_append, renderCategories_singleton, renderCategories_singleton,
    renderCategory_fan hmulti hplain, renderCategory_blank hmulti hblank, hrender,
    hjoined] at hsame
  exact absurd hsame (by decide)

end EtvStation.Guide
