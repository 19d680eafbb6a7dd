import Shorthand.Proofs.Text
import Shorthand.Reference.Api

/-!
# Paths and their texts

A path and its text determine each other, so a text has one normal form: that of the path which its segments make.
-/
namespace Shorthand.Path

/-! ## Paths of texts -/

theorem ofChars_append (as bs : List Char) :
    (ofChars (as ++ '/' :: bs)).segments = (ofChars as).segments ++ (ofChars bs).segments := by
  simp [ofChars, Text.split_append]

theorem ofText_slash (rest : String) : ofText ("/" ++ rest) = ofChars rest.toList := by
  have h := ofChars_append [] rest.toList
  rw [ofText, String.toList_append]
  exact congrArg Path.mk h

theorem eq_child_iff {p q : Path} {segment : String} :
    p = q.child segment ↔ p.segments = q.segments ++ [segment] := by
  cases p
  simp [child]

/-- A text that begins with a slash goes on where the one before it ends. -/
theorem segments_append (text rest : String) :
    (ofText (text ++ ("/" ++ rest))).segments = (ofText text).segments ++ (ofText ("/" ++ rest)).segments := by
  rw [ofText_slash, ofText, String.toList_append, String.toList_append]
  exact ofChars_append _ _

/-- Segments as a text is cut into: none is empty or has a slash in it. -/
def Cut (p : Path) : Prop := ∀ s ∈ p.segments, s ≠ "" ∧ '/' ∉ s.toList

theorem mem_segments_ofChars {cs : List Char} {s : String} (h : s ∈ (ofChars cs).segments) :
    s ≠ "" ∧ '/' ∉ s.toList ∧ s.toList ⊆ cs := by
  obtain ⟨part, hp, rfl⟩ := List.mem_map.mp h
  obtain ⟨hp, hne⟩ := List.mem_filter.mp hp
  rw [String.toList_ofList]
  refine ⟨fun he => ?_, Text.mem_split hp⟩
  rw [← String.toList_eq_nil_iff, String.toList_ofList] at he
  simp [he] at hne

theorem cut_ofChars (cs : List Char) : (ofChars cs).Cut := by
  intro s hs
  obtain ⟨hne, hslash, -⟩ := mem_segments_ofChars hs
  exact ⟨hne, hslash⟩

/-- Every character but a slash stands in a segment. -/
theorem exists_mem_segments {cs : List Char} {c : Char} (hm : c ∈ cs) (hc : c ≠ '/') :
    ∃ s ∈ (ofChars cs).segments, c ∈ s.toList := by
  obtain ⟨part, hp, hcp⟩ := Text.exists_mem_split hm hc
  refine ⟨String.ofList part, List.mem_map_of_mem (List.mem_filter.mpr ⟨hp, ?_⟩), by rwa [String.toList_ofList]⟩
  rw [Bool.not_eq_true', List.isEmpty_eq_false_iff]
  exact List.ne_nil_of_mem hcp

theorem segments_ofChars_eq_nil_iff {cs : List Char} : (ofChars cs).segments = [] ↔ ∀ c ∈ cs, c = '/' := by
  constructor
  · intro h c hm
    by_contra hc
    obtain ⟨s, hs, -⟩ := exists_mem_segments hm hc
    exact List.not_mem_nil (h ▸ hs)
  · intro h
    refine List.eq_nil_iff_forall_not_mem.mpr fun s hs => ?_
    obtain ⟨hne, hslash, hsub⟩ := mem_segments_ofChars hs
    obtain ⟨c, hc⟩ := List.exists_mem_of_ne_nil _ (mt String.toList_eq_nil_iff.mp hne)
    exact hslash (h c (hsub hc) ▸ hc)

/-- A segment that is written alone is read as that segment. -/
theorem segments_ofChars_of_not_mem {s : String} (hne : s ≠ "") (hs : '/' ∉ s.toList) :
    (ofChars s.toList).segments = [s] := by
  simp [ofChars, Text.split_of_not_mem hs, hne]

theorem Cut.segments_ofChars_intercalate {p : Path} (h : p.Cut) :
    (ofChars ("/".intercalate p.segments).toList).segments = p.segments := by
  obtain ⟨segments⟩ := p
  induction segments with
  | nil => rfl
  | cons s segments ih =>
      obtain ⟨hs, hsegments⟩ := List.forall_mem_cons.mp h
      have hfirst := segments_ofChars_of_not_mem hs.1 hs.2
      cases segments with
      | nil => rw [String.intercalate_singleton, hfirst]
      | cons t segments =>
          have happend := ofChars_append s.toList ("/".intercalate (t :: segments)).toList
          rw [hfirst, ih hsegments] at happend
          simpa [String.intercalate_cons_cons] using happend

/-! ## Texts of paths -/

theorem toList_text (p : Path) : p.text.toList = '/' :: ['/'].intercalate (p.segments.map String.toList) := by
  have hslash : "/".toList = ['/'] := rfl
  rw [text, String.toList_append, String.toList_intercalate, hslash, List.singleton_append]

theorem mem_text_iff {p : Path} {c : Char} (hc : c ≠ '/') :
    c ∈ p.text.toList ↔ ∃ s ∈ p.segments, c ∈ s.toList := by
  rw [toList_text, List.mem_cons, or_iff_right hc, Text.mem_intercalate_iff hc]
  simp

/-- A path is read from its text. -/
theorem Cut.ofText_text {p : Path} (h : p.Cut) : ofText p.text = p := by
  rw [text, ofText_slash]
  exact congrArg Path.mk h.segments_ofChars_intercalate

theorem Cut.text_inj {p q : Path} (hp : p.Cut) (hq : q.Cut) : p.text = q.text ↔ p = q :=
  ⟨fun h => by rw [← hp.ofText_text, h, hq.ofText_text], congrArg text⟩

/-- The text of a path below another. -/
theorem text_child (p : Path) (s : String) :
    (p.child s).text = (if p = root then "" else p.text) ++ "/" ++ s := by
  obtain ⟨segments⟩ := p
  apply String.toList_inj.mp
  by_cases h : segments = []
  · simp [h, child, root, text]
  · simp [h, child, root, text, String.intercalate_append_of_ne_nil]

/-! ## The normal form -/

/-- A slash alone, or one before each segment: none is empty, and none is left open at the end. -/
def IsNormal (text : String) : Prop :=
  text = "/" ∨ ∃ rest, text.toList = '/' :: rest ∧ [] ∉ Text.split '/' rest ∧ rest.getLast? ≠ some '/'

theorem Cut.isNormal {p : Path} (h : p.Cut) : IsNormal p.text := by
  by_cases hnil : p.segments = []
  · exact .inl (by rw [text, hnil]; rfl)
  · have hparts : ∀ part ∈ p.segments.map String.toList, part ≠ [] ∧ '/' ∉ part := by
      intro part hm
      obtain ⟨s, hs, rfl⟩ := List.mem_map.mp hm
      exact ⟨mt String.toList_eq_nil_iff.mp (h s hs).1, (h s hs).2⟩
    have hempty : [] ∉ Text.split '/' (['/'].intercalate (p.segments.map String.toList)) := by
      rw [Text.split_intercalate (fun part hm => (hparts part hm).2) (by simpa using hnil)]
      exact fun hm => (hparts [] hm).1 rfl
    exact .inr ⟨_, toList_text p, hempty, fun hlast => hempty (Text.nil_mem_split_of_getLast? hlast)⟩

theorem isNormal_normalize (text : String) : IsNormal (normalize text) := (cut_ofChars _).isNormal

theorem normalize_normalize (text : String) : normalize (normalize text) = normalize text :=
  congrArg Path.text (cut_ofChars text.toList).ofText_text

theorem ofText_eq_iff {s t : String} : ofText s = ofText t ↔
    (Text.split '/' s.toList).filter (fun part => !part.isEmpty) =
      (Text.split '/' t.toList).filter fun part => !part.isEmpty := by
  rw [ofText, ofText, ofChars, ofChars, Path.mk.injEq]
  exact (List.map_injective_iff.mpr fun a b h => String.ofList_inj.mp h).eq_iff

/-- The normal form forgets nothing but empty segments. -/
theorem normalize_eq_iff {s t : String} : normalize s = normalize t ↔
    (Text.split '/' s.toList).filter (fun part => !part.isEmpty) =
      (Text.split '/' t.toList).filter fun part => !part.isEmpty :=
  ((cut_ofChars s.toList).text_inj (cut_ofChars t.toList)).trans ofText_eq_iff

/-! ## Braces for per cent signs -/

theorem not_mem_decodeChars (opens : Bool) (cs : List Char) : '%' ∉ decodeChars opens cs := by
  induction cs generalizing opens with
  | nil => simp [decodeChars]
  | cons c cs ih =>
      rw [decodeChars]
      split
      · cases opens <;> simp [ih]
      · rename_i hc
        simp [ih, Ne.symm hc]

theorem decodeChars_eq_self {cs : List Char} (h : '%' ∉ cs) (opens : Bool) : decodeChars opens cs = cs := by
  induction cs with
  | nil => rfl
  | cons c cs ih =>
      obtain ⟨hc, hcs⟩ := not_or.mp fun hm => h (List.mem_cons.mpr hm)
      rw [decodeChars, if_neg (Ne.symm hc), ih hcs]

/-- Only per cent signs are changed, and not to slashes. -/
theorem slashes_decodeChars {opens : Bool} {cs : List Char} :
    (∀ c ∈ decodeChars opens cs, c = '/') ↔ ∀ c ∈ cs, c = '/' := by
  induction cs generalizing opens with
  | nil => rfl
  | cons c cs ih =>
      rw [decodeChars]
      split
      · rename_i hc
        cases opens <;> simp [hc]
      · simp only [List.forall_mem_cons, ih]

theorem segments_decode_eq_nil_iff {text : String} :
    (decode text).segments = [] ↔ ∀ c ∈ text.toList, c = '/' :=
  segments_ofChars_eq_nil_iff.trans slashes_decodeChars

theorem percent_not_mem_decode (text : String) : '%' ∉ (decode text).text.toList := by
  rw [mem_text_iff (by decide)]
  rintro ⟨s, hs, hm⟩
  exact not_mem_decodeChars true text.toList ((mem_segments_ofChars hs).2.2 hm)

end Shorthand.Path
