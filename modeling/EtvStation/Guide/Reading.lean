import EtvStation.Guide.Template
import EtvStation.Lib.Outcome

/-! What the scanners read in a template: they agree on where its placeholders are, whatever its
braces and its characters. -/
namespace EtvStation.Guide

open Lib.Utf8

inductive Segment
  | char (c : Char)
  | span (inner : List Char)
  deriving DecidableEq, Repr

/-- The syntax. A brace opens a placeholder where a closing one follows, and the first of these
closes it; every other character stands for itself. -/
inductive Reads : List Char → List Segment → Prop
  | nil : Reads [] []
  | char {c : Char} {cs : List Char} {segs : List Segment} (hc : c = '{' → '}' ∉ cs)
      (h : Reads cs segs) : Reads (c :: cs) (.char c :: segs)
  | span {inner rest : List Char} {segs : List Segment} (hi : '}' ∉ inner) (h : Reads rest segs) :
      Reads ('{' :: (inner ++ '}' :: rest)) (.span inner :: segs)

theorem exists_reads (cs : List Char) : ∃ segs, Reads cs segs := by
  induction hn : cs.length using Nat.strong_induction_on generalizing cs with
  | _ n ih =>
    cases cs with
    | nil => exact ⟨[], .nil⟩
    | cons c cs =>
      rw [List.length_cons] at hn
      by_cases hspan : c = '{' ∧ '}' ∈ cs
      · obtain ⟨rfl, hclose⟩ := hspan
        obtain ⟨inner, rest, rfl, hi⟩ := List.eq_append_cons_of_mem hclose
        rw [List.length_append, List.length_cons] at hn
        obtain ⟨segs, h⟩ := ih rest.length (by omega) rest rfl
        exact ⟨_, .span hi h⟩
      · obtain ⟨segs, h⟩ := ih cs.length (by omega) cs rfl
        exact ⟨_, .char (fun hc hclose => hspan ⟨hc, hclose⟩) h⟩

def Segment.inner? : Segment → Option (List Char)
  | char _ => none
  | span inner => some inner

def spans (segs : List Segment) : List (List Char) := segs.filterMap Segment.inner?

/-! ## Bytes -/

theorem open_ascii : ('{' : Char).toNat < 128 := by decide

theorem close_ascii : ('}' : Char).toNat < 128 := by decide

theorem drop_encode (as bs : List Char) :
    (encode (as ++ bs)).drop (encode as).length = encode bs := by
  rw [encode_append, List.drop_left]

theorem findFrom_encode_none {c : Char} (hc : c.toNat < 128) {cs : List Char} (h : c ∉ cs) :
    findFrom c (encode cs) = some none := by
  rw [findFrom, decode_encode, Option.map_some, find_encode_none hc h]

theorem findFrom_encode {c : Char} (hc : c.toNat < 128) {as bs : List Char} (h : c ∉ as) :
    findFrom c (encode (as ++ c :: bs)) = some (some (encode as).length) := by
  rw [findFrom, decode_encode, Option.map_some, find_encode hc h]

theorem slice_encode (as bs cs : List Char) :
    slice (encode (as ++ (bs ++ cs))) (encode as).length (encode (as ++ bs)).length = some bs := by
  have htake : (encode (as ++ (bs ++ cs))).take (encode (as ++ bs)).length = encode (as ++ bs) := by
    rw [← List.append_assoc, encode_append (as ++ bs), List.take_left]
  rw [slice, htake, drop_encode, drop_encode, decode_encode, decode_encode]
  rfl

/-- Only an opening brace begins with its byte. -/
theorem head?_encode {c : Char} {cs : List Char} :
    (encode (c :: cs)).head? = some (byte '{') ↔ c = '{' := by
  constructor
  · intro h
    have hne : String.utf8EncodeChar c ≠ [] := String.utf8EncodeChar_ne_nil
    rw [encode_cons, List.head?_append_of_ne_nil _ hne] at h
    exact ((byte_mem_encodeChar open_ascii).mp (List.mem_of_mem_head? h)).symm
  · rintro rfl
    rw [encode_ascii_cons open_ascii]
    rfl

theorem closing_char {c : Char} {cs : List Char} (hc : c = '{' → '}' ∉ cs) :
    closing (encode (c :: cs)) = some none := by
  rw [closing]
  split_ifs with h
  · obtain rfl := head?_encode.mp h
    apply findFrom_encode_none close_ascii
    rw [List.mem_cons, not_or]
    exact ⟨by decide, hc rfl⟩
  · rfl

theorem closing_span {inner : List Char} (hi : '}' ∉ inner) (rest : List Char) :
    closing (encode ('{' :: (inner ++ '}' :: rest))) =
      some (some (encode ('{' :: inner)).length) := by
  have hopen : '}' ∉ '{' :: inner := by
    rw [List.mem_cons, not_or]
    exact ⟨by decide, hi⟩
  rw [closing, if_pos (head?_encode.mpr rfl), ← List.cons_append, findFrom_encode close_ascii hopen]

theorem slice_span (inner rest : List Char) :
    slice (encode ('{' :: (inner ++ '}' :: rest))) 1 (encode ('{' :: inner)).length = some inner :=
  slice_encode ['{'] inner ('}' :: rest)

theorem drop_span (inner rest : List Char) :
    (encode ('{' :: (inner ++ '}' :: rest))).drop ((encode ('{' :: inner)).length + 1) =
      encode rest := by
  have hlen : (encode ('{' :: inner)).length + 1 = (encode ('{' :: (inner ++ ['}']))).length := by
    rw [← List.cons_append, encode_append, encode_ascii_cons close_ascii, List.length_append]
    rfl
  have hsplit : '{' :: (inner ++ '}' :: rest) = '{' :: (inner ++ ['}']) ++ rest := by simp
  rw [hlen, hsplit, drop_encode]

/-! ## Validation -/

theorem extractFrom_char {b : UInt8} {bs : List UInt8} (h : closing (b :: bs) = some none) (n : ℕ) :
    extractFrom (n + 1) (b :: bs) = extractFrom n bs := by
  rw [extractFrom, h]
  rfl

/-- The bytes of a character that is no brace are passed one by one. -/
theorem extractFrom_skip (n : ℕ) (as bs : List UInt8) (h : byte '{' ∉ as) :
    extractFrom (as.length + n) (as ++ bs) = extractFrom n bs := by
  induction as with
  | nil => rw [List.length_nil, Nat.zero_add, List.nil_append]
  | cons a as ih =>
    rw [List.mem_cons, not_or] at h
    have hclosing : closing (a :: (as ++ bs)) = some none := by
      rw [closing, if_neg]
      intro ha
      exact h.1 (Option.some.inj ha).symm
    rw [List.length_cons, List.cons_append, Nat.add_right_comm, extractFrom_char hclosing, ih h.2]

theorem extractFrom_reads {cs : List Char} {segs : List Segment} (h : Reads cs segs) {n : ℕ}
    (hn : (encode cs).length < n) : extractFrom n (encode cs) = some (spans segs) := by
  induction h generalizing n with
  | nil =>
    obtain ⟨n, rfl⟩ : ∃ m, n = m + 1 := ⟨n - 1, by omega⟩
    rfl
  | @char c cs segs hc h ih =>
    by_cases hopen : c = '{'
    · subst hopen
      have hclosing := closing_char hc
      rw [encode_ascii_cons open_ascii] at hn hclosing ⊢
      rw [List.length_cons] at hn
      obtain ⟨n, rfl⟩ : ∃ m, n = m + 1 := ⟨n - 1, by omega⟩
      rw [extractFrom_char hclosing, ih (by omega)]
      rfl
    · rw [encode_cons, List.length_append] at hn
      obtain ⟨m, rfl⟩ := Nat.exists_eq_add_of_le (show (String.utf8EncodeChar c).length ≤ n by omega)
      have hskip : byte '{' ∉ String.utf8EncodeChar c := fun hmem =>
        hopen ((byte_mem_encodeChar open_ascii).mp hmem).symm
      rw [encode_cons, extractFrom_skip m _ _ hskip, ih (by omega)]
      rfl
  | @span inner rest segs hi h ih =>
    have hclosing := closing_span hi rest
    have hslice := slice_span inner rest
    have hdrop := drop_span inner rest
    rw [encode_ascii_cons open_ascii (inner ++ '}' :: rest)] at hn hclosing hslice hdrop ⊢
    rw [List.length_cons, encode_append, encode_ascii_cons close_ascii, List.length_append,
      List.length_cons] at hn
    obtain ⟨n, rfl⟩ : ∃ m, n = m + 1 := ⟨n - 1, by omega⟩
    rw [extractFrom, hclosing]
    simp only [Option.bind_eq_bind, Option.bind_some, hslice, hdrop]
    rw [ih (by omega)]
    rfl

theorem extractPlaceholders_reads {t : String} {segs : List Segment} (h : Reads t.toList segs) :
    extractPlaceholders t = some (spans segs) :=
  extractFrom_reads h (Nat.lt_succ_self _)

theorem forM_eq_ok {α : Type} {f : α → Except String Unit} {as : List α} :
    as.forM f = .ok () ↔ ∀ a ∈ as, f a = .ok () := by
  induction as with
  | nil => exact iff_of_true rfl (by simp)
  | cons a as ih =>
    have hcons : (a :: as).forM f = f a >>= fun _ => as.forM f := rfl
    rw [hcons, List.forall_mem_cons, ← ih, Lib.bind_eq_ok]
    exact ⟨fun ⟨_, ha, has⟩ => ⟨ha, has⟩, fun h => ⟨(), h.1, h.2⟩⟩

theorem validateBranch_eq_ok {template branch : String} (h : validateBranch template branch = .ok ()) :
    isKnownField branch = true := by
  rw [validateBranch] at h
  split_ifs at h with hempty hknown
  simpa using hknown

/-- Every branch of an accepted template is a field there is. -/
theorem validateTemplate_eq_ok {t : String} (h : validateTemplate t = some (.ok ()))
    {segs : List Segment} (hr : Reads t.toList segs) :
    ∀ inner ∈ spans segs, ∀ branch ∈ placeholderBranches inner,
      isKnownField (String.ofList branch) = true := by
  rw [validateTemplate, extractPlaceholders_reads hr, Option.map_some, Option.some.injEq,
    forM_eq_ok] at h
  intro inner hi branch hb
  exact validateBranch_eq_ok (forM_eq_ok.mp (h inner hi) branch hb)

/-! ## Rendering -/

section

variable {τ : Type} (fmt : Formats τ) (ctx : RenderContext τ)

/-- The first branch that has a value; there is none where all are empty, and then the last one's
value is empty too. -/
def Segment.rendered : Segment → List Char
  | char c => [c]
  | span inner =>
    ((((placeholderBranches inner).map fun b => ctx.scalar fmt (String.ofList b)).find?
      (· ≠ "")).getD "").toList

theorem resolved_eq (branches : List (List Char)) :
    resolved fmt ctx branches =
      ((branches.map fun b => ctx.scalar fmt (String.ofList b)).find? (· ≠ "")).getD "" := by
  induction branches with
  | nil => rfl
  | cons b branches ih =>
    rw [resolved, List.map_cons, List.find?_cons]
    by_cases hb : ctx.scalar fmt (String.ofList b) = ""
    · by_cases hlast : branches = []
      · simp [hb, hlast]
      · simp [hb, hlast, ih]
    · simp [hb]

/-- A text without an opening brace reads as its characters. -/
theorem Reads.prefix {pre rest : List Char} {segs : List Segment} (h : Reads (pre ++ rest) segs)
    (hpre : '{' ∉ pre) : ∃ segs', segs = pre.map .char ++ segs' ∧ Reads rest segs' := by
  induction pre generalizing segs with
  | nil => exact ⟨segs, rfl, h⟩
  | cons c pre ih =>
    rw [List.mem_cons, not_or] at hpre
    rw [List.cons_append] at h
    generalize ht : c :: (pre ++ rest) = t at h
    cases h with
    | nil => cases ht
    | char hc h =>
      obtain ⟨rfl, rfl⟩ := List.cons.inj ht
      obtain ⟨segs', rfl, hrest⟩ := ih h hpre.2
      exact ⟨segs', rfl, hrest⟩
    | span hi h => exact absurd (List.cons.inj ht).1.symm hpre.1

theorem renderFrom_span {inner : List Char} (hi : '}' ∉ inner) (rest : List Char) (n : ℕ) :
    renderFrom fmt ctx (n + 1) (encode ('{' :: (inner ++ '}' :: rest))) =
      (renderFrom fmt ctx n (encode rest)).map
        ((Segment.span inner).rendered fmt ctx ++ ·) := by
  have hclosing := closing_span hi rest
  have hslice := slice_span inner rest
  have hdrop := drop_span inner rest
  rw [encode_ascii_cons open_ascii (inner ++ '}' :: rest)] at hclosing hslice hdrop ⊢
  rw [renderFrom, hclosing]
  simp only [Option.bind_eq_bind, Option.bind_some, hslice, hdrop, resolved_eq, Segment.rendered]
  cases renderFrom fmt ctx n (encode rest) <;> rfl

theorem findFrom_isNone (cs : List Char) :
    (findFrom '}' (encode ('{' :: cs))).map Option.isNone = some (decide ('}' ∉ cs)) := by
  have hopen : ('}' : Char) ≠ '{' := by decide
  by_cases h : '}' ∈ cs
  · obtain ⟨inner, rest, rfl, hi⟩ := List.eq_append_cons_of_mem h
    have hinner : '}' ∉ '{' :: inner := by simp [hi]
    rw [← List.cons_append, findFrom_encode close_ascii hinner]
    simp
  · rw [findFrom_encode_none close_ascii (by simp [h])]
    simp [h]

theorem slice_prefix (pre rest : List Char) :
    slice (encode (pre ++ rest)) 0 (encode pre).length = some pre :=
  slice_encode [] pre rest

/-- The text that is left is literal to its end. -/
theorem renderFrom_text {pre : List Char} (hpre : '{' ∉ pre) (hne : pre ≠ []) (n : ℕ) :
    renderFrom fmt ctx (n + 1) (encode pre) = (renderFrom fmt ctx n []).map (pre ++ ·) := by
  obtain ⟨b, bs, hbytes⟩ : ∃ b bs, encode pre = b :: bs :=
    List.exists_cons_of_ne_nil (mt encode_eq_nil.mp hne)
  have hclosing : closing (encode pre) = some none := by
    obtain ⟨c, cs, rfl⟩ := List.exists_cons_of_ne_nil hne
    apply closing_char
    rintro rfl
    exact absurd List.mem_cons_self hpre
  have hfind := findFrom_encode_none open_ascii hpre
  have hslice := slice_prefix pre []
  rw [List.append_nil] at hslice
  have hdrop : (encode pre).drop (encode pre).length = [] := List.drop_length
  rw [hbytes] at hclosing hfind hslice hdrop ⊢
  rw [renderFrom, hclosing]
  simp only [Option.bind_eq_bind, Option.bind_some, hfind, Option.getD_none, hslice, hdrop,
    List.head?_nil, reduceCtorEq, if_false, Bool.false_eq_true]
  cases renderFrom fmt ctx n [] <;> rfl

/-- Literal text goes out up to the next brace, and with it the brace, if that opens nothing. -/
theorem renderFrom_literal {pre tail : List Char} (hpre : '{' ∉ pre)
    (hclosing : closing (encode (pre ++ '{' :: tail)) = some none) (n : ℕ) :
    renderFrom fmt ctx (n + 1) (encode (pre ++ '{' :: tail)) =
      if '}' ∈ tail then (renderFrom fmt ctx n (encode ('{' :: tail))).map (pre ++ ·)
      else (renderFrom fmt ctx n (encode tail)).map (pre ++ '{' :: ·) := by
  have hne : pre ++ '{' :: tail ≠ [] := by simp
  obtain ⟨b, bs, hbytes⟩ : ∃ b bs, encode (pre ++ '{' :: tail) = b :: bs :=
    List.exists_cons_of_ne_nil (mt encode_eq_nil.mp hne)
  have hfind : findFrom '{' (encode (pre ++ '{' :: tail)) = some (some (encode pre).length) :=
    findFrom_encode open_ascii hpre
  have hslice := slice_prefix pre ('{' :: tail)
  have hdrop := drop_encode pre ('{' :: tail)
  have hhead : (encode ('{' :: tail)).head? = some (byte '{') := head?_encode.mpr rfl
  have hafter : (encode ('{' :: tail)).drop 1 = encode tail := drop_encode ['{'] tail
  rw [hbytes] at hclosing hfind hslice hdrop ⊢
  rw [renderFrom, hclosing]
  simp only [Option.bind_eq_bind, Option.bind_some, hfind, Option.getD_some, hslice, hdrop, hhead,
    if_true, findFrom_isNone, hafter]
  by_cases h : '}' ∈ tail
  · simp only [h, not_true, decide_false, Bool.false_eq_true, if_false, if_true]
    cases renderFrom fmt ctx n (encode ('{' :: tail)) <;> rfl
  · simp only [h, not_false_eq_true, decide_true, if_true, if_false]
    cases renderFrom fmt ctx n (encode tail) <;> rfl

theorem exists_prefix (cs : List Char) :
    ∃ pre rest, cs = pre ++ rest ∧ '{' ∉ pre ∧ (rest = [] ∨ ∃ tail, rest = '{' :: tail) := by
  by_cases h : '{' ∈ cs
  · obtain ⟨pre, tail, rfl, hpre⟩ := List.eq_append_cons_of_mem h
    exact ⟨pre, _, rfl, hpre, Or.inr ⟨tail, rfl⟩⟩
  · exact ⟨cs, [], by simp, h, Or.inl rfl⟩

/-- A brace that nothing closes reads as itself. -/
theorem Reads.unmatched {tail : List Char} {segs : List Segment} (h : Reads ('{' :: tail) segs)
    (hclose : '}' ∉ tail) : ∃ segs', segs = .char '{' :: segs' ∧ Reads tail segs' := by
  generalize ht : '{' :: tail = t at h
  cases h with
  | nil => cases ht
  | char hc h =>
    obtain ⟨rfl, rfl⟩ := List.cons.inj ht
    exact ⟨_, rfl, h⟩
  | span hi h =>
    obtain ⟨-, rfl⟩ := List.cons.inj ht
    simp at hclose

theorem Reads.eq_nil {segs : List Segment} (h : Reads [] segs) : segs = [] := by
  cases h
  rfl

theorem rendered_chars (pre : List Char) :
    (pre.map Segment.char).flatMap (Segment.rendered fmt ctx) = pre := by
  induction pre with
  | nil => rfl
  | cons c pre ih => rw [List.map_cons, List.flatMap_cons, ih]; rfl

/-- With a step for every byte and one to see the end, the scan ends, and has written what the
segments say. -/
theorem renderFrom_reads {cs : List Char} {segs : List Segment} (h : Reads cs segs) {n : ℕ}
    (hn : (encode cs).length < n) :
    renderFrom fmt ctx n (encode cs) = some (segs.flatMap (Segment.rendered fmt ctx)) := by
  induction hlen : cs.length using Nat.strong_induction_on generalizing cs segs n with
  | _ k ih =>
    obtain ⟨n, rfl⟩ : ∃ m, n = m + 1 := ⟨n - 1, by omega⟩
    cases h with
    | nil => rfl
    | @span inner rest segs hi h =>
      have hbytes : (encode rest).length < n := by
        have hdrop := congrArg List.length (drop_span inner rest)
        rw [List.length_drop] at hdrop
        rw [encode_ascii_cons open_ascii (inner ++ '}' :: rest), List.length_cons] at hn hdrop
        omega
      have hshort : rest.length < k := by
        rw [← hlen, List.length_cons, List.length_append, List.length_cons]
        omega
      rw [renderFrom_span fmt ctx hi, ih _ hshort h hbytes rfl]
      rfl
    | @char c cs segs hc h =>
      have hclosing := closing_char hc
      have hreads : Reads (c :: cs) (.char c :: segs) := .char hc h
      obtain ⟨pre, rest, hsplit, hpre, hrest⟩ := exists_prefix (c :: cs)
      rw [hsplit] at hn hlen hclosing hreads ⊢
      obtain ⟨segs', hsegs, hreads⟩ := hreads.prefix hpre
      rw [hsegs, List.flatMap_append, rendered_chars]
      have hpos := length_le_encode pre
      rw [encode_append, List.length_append] at hn
      rw [List.length_append] at hlen
      obtain rfl | ⟨tail, rfl⟩ := hrest
      · have hne : pre ≠ [] := by
          rintro rfl
          cases hsplit
        obtain ⟨n, rfl⟩ : ∃ m, n = m + 1 := by
          have hlong := List.length_pos_iff.mpr hne
          exact ⟨n - 1, by omega⟩
        rw [List.append_nil, renderFrom_text fmt ctx hpre hne, hreads.eq_nil]
        rfl
      · rw [renderFrom_literal fmt ctx hpre hclosing]
        rw [List.length_cons] at hlen
        by_cases hclose : '}' ∈ tail
        · have hne : pre ≠ [] := by
            rintro rfl
            obtain ⟨rfl, rfl⟩ := List.cons.inj hsplit
            exact hc rfl hclose
          have hlong := List.length_pos_iff.mpr hne
          rw [if_pos hclose, ih _ (by omega) hreads (by omega) List.length_cons]
          rfl
        · obtain ⟨segs', rfl, htail⟩ := hreads.unmatched hclose
          rw [encode_ascii_cons open_ascii, List.length_cons] at hn
          rw [if_neg hclose, ih _ (by omega) htail (by omega) rfl]
          rfl

theorem render_reads {t : String} {segs : List Segment} (h : Reads t.toList segs) :
    render fmt ctx t = some (String.ofList (segs.flatMap (Segment.rendered fmt ctx))) := by
  rw [render]
  simp only [renderFrom_reads fmt ctx h (Nat.lt_succ_self _), Option.map_some]

end

end EtvStation.Guide
