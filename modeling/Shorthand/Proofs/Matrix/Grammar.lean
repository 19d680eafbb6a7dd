import Shorthand.Proofs.Api.Grammar

/-!
# The grammar of references to matrices

The texts that are read are the sentences of a grammar. A list of pairs is read back from its printed form, whatever
white space is put around the pieces and their equals signs.
-/
namespace Shorthand

namespace MatrixReference

/-! ## The grammar -/

/-- What a reference is put together of: an id, what stands in brackets, and an attribute. -/
structure Sentence where
  matrix : String
  body : Option String
  attr : Option String

def Sentence.text (s : Sentence) : String :=
  lead ++ s.matrix ++ (s.body.elim "" fun body => "[" ++ body ++ "]") ++ ApiReference.signed "." s.attr

/-- The parts are such as the signs between them cut out of a text. -/
structure Sentence.Formed (s : Sentence) : Prop where
  matrix : IsWord s.matrix ∧ s.matrix ≠ ""
  bracket : ∀ body, s.body = some body → ']' ∉ body.toList
  attr : IsEnding s.attr

/-- A sentence of the grammar. -/
structure Sentence.Proper (s : Sentence) : Prop extends s.Formed where
  pieces : ∀ body, s.body = some body → ∀ piece ∈ Text.split ',' body.toList, Text.Blank piece ∨ '=' ∈ piece

/-- A pair is printed with white space around the name and around the key. -/
def Padded (pair : String × String) (piece : String) : Prop :=
  ∃ a b c d : String, Text.Blank a.toList ∧ Text.Blank b.toList ∧ Text.Blank c.toList ∧ Text.Blank d.toList ∧
    piece = (a ++ pair.1 ++ b) ++ "=" ++ (c ++ pair.2 ++ d)

/-- The pieces that pairs are printed to. Between them may be blank ones. -/
inductive Printed : List (String × String) → List String → Prop
  | nil : Printed [] []
  | blank {pairs : List (String × String)} {piece : String} {pieces : List String} (hb : Text.Blank piece.toList)
      (h : Printed pairs pieces) : Printed pairs (piece :: pieces)
  | pair {pair : String × String} {pairs : List (String × String)} {piece : String} {pieces : List String}
      (hp : Padded pair piece) (h : Printed pairs pieces) : Printed (pair :: pairs) (piece :: pieces)

/-! ## Pieces -/

/-- A pair is cut at the first equals sign, and white space at the ends does not count. -/
theorem pairOf_trim {name : List Char} (h : '=' ∉ name) (key : List Char) (text : String) :
    pairOf text (Text.trim (name ++ '=' :: key)) =
      .ok (String.ofList (Text.trim name), String.ofList (Text.trim key)) := by
  have hname : '=' ∉ name.dropWhile Text.isBlank := fun hm => h ((List.dropWhile_sublist _).subset hm)
  rw [Text.trim_append_cons (by decide), pairOf, Text.splitFirst?_append hname]
  simp only [Text.trim_dropWhile, Text.trim_rdropWhile]

theorem exists_pairOf_iff {text : String} {piece : List Char} :
    (∃ pair, pairOf text piece = .ok pair) ↔ '=' ∈ piece := by
  rw [← Text.isSome_splitFirst?_iff, pairOf]
  cases Text.splitFirst? '=' piece <;> simp

theorem Padded.read {pair : String × String} {piece : String} (h : Padded pair piece) (hname : IsPart pair.1)
    (hequals : '=' ∉ pair.1.toList) (hkey : IsPart pair.2) (text : String) :
    Text.trim piece.toList ≠ [] ∧ pairOf text (Text.trim piece.toList) = .ok pair := by
  obtain ⟨a, b, c, d, ha, hb, hc, hd, rfl⟩ := h
  have hplain {cs : List Char} (h : Text.Blank cs) : '=' ∉ cs := fun hm => absurd (h '=' hm) (by decide)
  have hnot : '=' ∉ a.toList ++ pair.1.toList ++ b.toList := by simp [hplain ha, hplain hb, hequals]
  have hpiece : ((a ++ pair.1 ++ b) ++ "=" ++ (c ++ pair.2 ++ d)).toList =
      (a.toList ++ pair.1.toList ++ b.toList) ++ '=' :: (c.toList ++ pair.2.toList ++ d.toList) := by simp
  rw [hpiece]
  constructor
  · rw [Text.trim_append_cons (by decide)]
    simp
  · rw [pairOf_trim hnot, hname.trimmed.trim_padded ha hb, hkey.trimmed.trim_padded hc hd]
    simp only [String.ofList_toList]

theorem exists_pairsOf_iff {text : String} {selector : List Char} : (∃ pairs, pairsOf text selector = .ok pairs) ↔
    ∀ piece ∈ Text.split ',' selector, Text.Blank piece ∨ '=' ∈ piece := by
  have hkept {piece : List Char} : piece ∈ ((Text.split ',' selector).map Text.trim).filter (fun p => !p.isEmpty) ↔
      ∃ part ∈ Text.split ',' selector, ¬ Text.Blank part ∧ Text.trim part = piece := by
    simp only [List.mem_filter, List.mem_map, Bool.not_eq_true', List.isEmpty_eq_false_iff]
    constructor
    · rintro ⟨⟨part, hp, rfl⟩, hne⟩
      exact ⟨part, hp, mt Text.trim_eq_nil_iff.mpr hne, rfl⟩
    · rintro ⟨part, hp, hb, rfl⟩
      exact ⟨⟨part, hp, rfl⟩, mt Text.trim_eq_nil_iff.mp hb⟩
  constructor
  · rintro ⟨pairs, h⟩ part hm
    refine or_iff_not_imp_left.mpr fun hb => ?_
    obtain ⟨pair, -, hp⟩ := Outcome.exists_of_mem_right (Outcome.mapM_eq_ok.mp h).flip (hkept.mpr ⟨part, hm, hb, rfl⟩)
    exact (Text.mem_trim_iff (by decide)).mp (exists_pairOf_iff.mp ⟨pair, hp⟩)
  · refine fun h => Outcome.mapM_ok fun piece hm => ?_
    obtain ⟨part, hp, hb, rfl⟩ := hkept.mp hm
    exact exists_pairOf_iff.mpr ((Text.mem_trim_iff (by decide)).mpr ((h part hp).resolve_left hb))

/-! ## Printed pairs -/

theorem Printed.mapM_pairOf {pairs : List (String × String)} {pieces : List String} (h : Printed pairs pieces)
    (hw : ∀ pair ∈ pairs, IsPart pair.1 ∧ '=' ∉ pair.1.toList ∧ IsPart pair.2) (text : String) :
    (((pieces.map String.toList).map Text.trim).filter fun piece => !piece.isEmpty).mapM (pairOf text) = .ok pairs := by
  induction h with
  | nil => rfl
  | blank hb _ ih =>
      rw [List.map_cons, List.map_cons, Text.trim_eq_nil_iff.mpr hb]
      exact ih hw
  | pair hp _ ih =>
      obtain ⟨⟨hname, hequals, hkey⟩, hw⟩ := List.forall_mem_cons.mp hw
      obtain ⟨hne, hread⟩ := hp.read hname hequals hkey text
      rw [List.map_cons, List.map_cons, List.filter_cons_of_pos (by simpa using hne)]
      exact Outcome.mapM_eq_ok.mpr (.cons hread (Outcome.mapM_eq_ok.mp (ih hw)))

/-- White space brings in no sign of its own. -/
theorem Printed.not_mem {pairs : List (String × String)} {pieces : List String} (h : Printed pairs pieces)
    (sign : Char) (hs : Text.isBlank sign = false) (he : sign ≠ '=')
    (hw : ∀ pair ∈ pairs, sign ∉ pair.1.toList ∧ sign ∉ pair.2.toList) : ∀ piece ∈ pieces, sign ∉ piece.toList := by
  have hplain {s : String} (h : Text.Blank s.toList) : sign ∉ s.toList := fun hm =>
    absurd (h sign hm) (by simp [hs])
  induction h with
  | nil => simp
  | blank hb _ ih => exact List.forall_mem_cons.mpr ⟨hplain hb, ih hw⟩
  | pair hp _ ih =>
      obtain ⟨⟨hname, hkey⟩, hw⟩ := List.forall_mem_cons.mp hw
      obtain ⟨a, b, c, d, ha, hb, hc, hd, rfl⟩ := hp
      refine List.forall_mem_cons.mpr ⟨?_, ih hw⟩
      simp [hplain ha, hplain hb, hplain hc, hplain hd, hname, hkey, he]

section
variable {matrix : String} {pairs : List (String × String)} {pieces : List String} (h : Printed pairs pieces)
  (hw : Writable matrix pairs)
include h hw

theorem Printed.pairsOf_intercalate (text : String) : pairsOf text (",".intercalate pieces).toList = .ok pairs := by
  have hcomma := h.not_mem ',' (by decide) (by decide) fun pair hm =>
    ⟨(hw.pairs pair hm).1.comma, (hw.pairs pair hm).2.2.comma⟩
  by_cases hne : pieces = []
  · subst hne
    cases h
    rfl
  · have hparts : ∀ part ∈ pieces.map String.toList, ',' ∉ part := List.forall_mem_map.mpr hcomma
    rw [pairsOf, String.toList_intercalate]
    exact (Text.split_intercalate hparts (by simpa using hne)).symm ▸ h.mapM_pairOf hw.pairs text

theorem Printed.bracket_not_mem : ']' ∉ (",".intercalate pieces).toList := by
  have hbracket := h.not_mem ']' (by decide) (by decide) fun pair hm =>
    ⟨(hw.pairs pair hm).1.bracket, (hw.pairs pair hm).2.2.bracket⟩
  rw [String.toList_intercalate]
  refine fun hm => ?_
  have hother : ']' ≠ ',' := by decide
  obtain ⟨_, hp, hm⟩ := (Text.mem_intercalate_iff hother).mp hm
  obtain ⟨piece, hpiece, rfl⟩ := List.mem_map.mp hp
  exact hbracket piece hpiece hm

end

/-! ## Sentences -/

/-- A text without brackets is read as a reference just if it is put together in this way. -/
theorem spelling?_bare_iff {text : String} {matrix : List Char} {attr : Option (List Char)} :
    spelling? text = some ⟨matrix, none, attr⟩ ↔ ∃ rest, text.toList = lead.toList ++ (matrix ++ rest) ∧ matrix ≠ [] ∧
      (∀ c ∈ matrix, c.isAlphanum = true) ∧ ApiReference.ending? rest = some attr := by
  constructor
  · intro h
    obtain ⟨cs, hcs, h⟩ := Option.bind_eq_some_iff.mp h
    simp only at h
    split at h
    · cases h
    · rename_i hne
      split at h
      · obtain ⟨_, _, h⟩ := Option.bind_eq_some_iff.mp h
        obtain ⟨_, _, h⟩ := Option.bind_eq_some_iff.mp h
        cases h
      · obtain ⟨attr', hattr, h⟩ := Option.bind_eq_some_iff.mp h
        simp only [Option.some.injEq, Spelling.mk.injEq, true_and] at h
        obtain ⟨rfl, rfl⟩ := h
        refine ⟨_, ?_, by simpa using hne, fun c hc => List.mem_takeWhile_imp hc, hattr⟩
        rw [Text.after?_eq_some_iff.mp hcs, List.takeWhile_append_dropWhile]
  · rintro ⟨rest, htext, hne, hword, hattr⟩
    obtain ⟨rfl, -⟩ := ApiReference.ending?_eq_some_iff.mp hattr
    have hend := ApiReference.Spelling.head?_ending attr (p := Char.isAlphanum) (by decide)
    simp only [spelling?, htext, Text.after?_append, Option.bind_eq_bind, Option.bind_some,
      Text.takeWhile_append_boundary hword hend, Text.dropWhile_append_boundary hword hend, List.isEmpty_iff, hne]
    cases attr <;> simp_all

namespace Sentence

def spelling (s : Sentence) : Spelling := ⟨s.matrix.toList, s.body.map String.toList, s.attr.map String.toList⟩

theorem toList_text (s : Sentence) : s.text.toList = lead.toList ++ (s.matrix.toList ++
    ((s.body.elim [] fun body => '[' :: (body.toList ++ [']'])) ++
      (s.attr.map String.toList).elim [] fun as => '.' :: as)) := by
  obtain ⟨matrix, body, attr⟩ := s
  cases body <;> cases attr <;> simp [text, ApiReference.signed]

theorem Formed.spelling? {s : Sentence} (h : s.Formed) : MatrixReference.spelling? s.text = some s.spelling := by
  have hne : s.matrix.toList ≠ [] := mt String.toList_eq_nil_iff.mp h.matrix.2
  have hending := h.attr.ending?
  obtain ⟨matrix, body, attr⟩ := s
  cases body with
  | none => exact spelling?_bare_iff.mpr ⟨_, toList_text _, hne, h.matrix.1, hending⟩
  | some body =>
      refine spelling?_eq_some_iff.mpr ⟨_, ?_, hne, h.matrix.1, h.bracket body rfl, hending⟩
      simp [toList_text]

end Sentence

/-- Every text that is cut into parts is put together of them. -/
theorem exists_sentence_of_spelling? {text : String} {sp : Spelling} (h : spelling? text = some sp) :
    ∃ s : Sentence, s.Formed ∧ s.text = text := by
  obtain ⟨matrix, selector, attr⟩ := sp
  have hword (hne : matrix ≠ []) (hall : ∀ c ∈ matrix, c.isAlphanum = true) :
      IsWord (String.ofList matrix) ∧ String.ofList matrix ≠ "" := by
    rw [ne_eq, ← String.toList_eq_nil_iff, IsWord, String.toList_ofList]
    exact ⟨hall, hne⟩
  have hending {rest : List Char} (hr : ApiReference.ending? rest = some attr) :
      IsEnding (attr.map String.ofList) ∧ rest = attr.elim [] fun as => '.' :: as := by
    obtain ⟨rfl, hattr⟩ := ApiReference.ending?_eq_some_iff.mp hr
    refine ⟨fun a ha => ?_, rfl⟩
    obtain ⟨as, has, rfl⟩ := Option.map_eq_some_iff.mp ha
    rw [ne_eq, ← String.toList_eq_nil_iff, IsAttribute, String.toList_ofList]
    exact hattr as has
  cases selector with
  | none =>
      obtain ⟨rest, htext, hne, hall, hr⟩ := spelling?_bare_iff.mp h
      obtain ⟨ha, rfl⟩ := hending hr
      refine ⟨⟨String.ofList matrix, none, attr.map String.ofList⟩, ⟨hword hne hall, by simp, ha⟩, ?_⟩
      rw [← String.toList_inj, htext, Sentence.toList_text]
      simp [Function.comp_def]
  | some selector =>
      obtain ⟨rest, htext, hne, hall, hb, hr⟩ := spelling?_eq_some_iff.mp h
      obtain ⟨ha, rfl⟩ := hending hr
      refine ⟨⟨String.ofList matrix, some (String.ofList selector), attr.map String.ofList⟩,
        ⟨hword hne hall, by simpa using hb, ha⟩, ?_⟩
      rw [← String.toList_inj, htext, Sentence.toList_text]
      simp [Function.comp_def]

/-! ## Reading -/

/-- What is read from the text of a sentence: its id and attribute, and the pairs in its brackets. -/
theorem Sentence.Formed.parse_text {s : Sentence} (h : s.Formed) : parse s.text =
    (s.body.elim (.ok none) fun body => (pairsOf s.text body.toList).map some).map
      fun selector => ⟨s.matrix, selector, s.attr⟩ := by
  rw [parse, h.spelling?]
  obtain ⟨matrix, body, attr⟩ := s
  have hattr : (attr.map String.toList).map String.ofList = attr := by simp [Function.comp_def]
  cases body with
  | none => simp [Sentence.spelling, hattr, Except.map]
  | some body =>
      simp only [Sentence.spelling, Option.map_some, Option.elim_some, hattr, String.ofList_toList, Outcome.bind_ok]

theorem Sentence.Formed.exists_parse_iff {s : Sentence} (h : s.Formed) :
    (∃ ref, parse s.text = .ok ref) ↔ s.Proper := by
  rw [h.parse_text]
  constructor
  · rintro ⟨ref, hp⟩
    obtain ⟨selector, hs, -⟩ := Outcome.map_eq_ok.mp hp
    refine ⟨h, fun body hb => ?_⟩
    rw [hb] at hs
    obtain ⟨pairs, hpairs, -⟩ := Outcome.map_eq_ok.mp hs
    exact exists_pairsOf_iff.mp ⟨pairs, hpairs⟩
  · intro hp
    cases hb : s.body with
    | none => exact ⟨_, rfl⟩
    | some body =>
        obtain ⟨pairs, hpairs⟩ : ∃ pairs, pairsOf s.text body.toList = .ok pairs :=
          exists_pairsOf_iff.mpr (hp.pieces body hb)
        rw [Option.elim_some, hpairs]
        exact ⟨_, rfl⟩

/-- A text is read just if it is a sentence of the grammar; and a list of pairs, printed with any white space around
the pieces and around their first equals signs, is read back as it is, with the id and the attribute. -/
theorem reads_back_printed :
    (∀ text, (∃ ref, parse text = .ok ref) ↔ ∃ s : Sentence, s.Proper ∧ s.text = text) ∧
      (∀ matrix pairs pieces attr, Writable matrix pairs → Printed pairs pieces → IsEnding attr →
        parse (Sentence.text ⟨matrix, some (",".intercalate pieces), attr⟩) = .ok ⟨matrix, some pairs, attr⟩) ∧
      ∀ matrix attr, IsWord matrix → matrix ≠ "" → IsEnding attr →
        parse (Sentence.text ⟨matrix, none, attr⟩) = .ok ⟨matrix, none, attr⟩ := by
  refine ⟨fun text => ⟨?_, ?_⟩, ?_, ?_⟩
  · rintro ⟨ref, h⟩
    obtain ⟨sp, hs, -⟩ := parse_eq_ok.mp h
    obtain ⟨s, hf, rfl⟩ := exists_sentence_of_spelling? hs
    exact ⟨s, hf.exists_parse_iff.mp ⟨ref, h⟩, rfl⟩
  · rintro ⟨s, hp, rfl⟩
    exact hp.toFormed.exists_parse_iff.mpr hp
  · intro matrix pairs pieces attr hw h ha
    have hf : (Sentence.mk matrix (some (",".intercalate pieces)) attr).Formed := by
      refine ⟨hw.matrix, ?_, ha⟩
      rintro _ ⟨⟩
      exact h.bracket_not_mem hw
    rw [hf.parse_text, Option.elim_some, h.pairsOf_intercalate hw]
    rfl
  · intro matrix attr hword hne ha
    have hf : (Sentence.mk matrix none attr).Formed := ⟨⟨hword, hne⟩, by simp, ha⟩
    rw [hf.parse_text]
    rfl

/-- Two pairs, the one with a blank piece after it, the other without a name and with a second equals sign. -/
def spacedPieces : List String := [" Zone = eu west ", "\t", "=a=b"]

theorem reads_back_spacedPieces :
    Writable "Buckets" [("Zone", "eu west"), ("", "a=b")] ∧ Printed [("Zone", "eu west"), ("", "a=b")] spacedPieces ∧
      IsEnding (some "Arn") ∧
      parse "Matrix:Buckets[ Zone = eu west ,\t,=a=b].Arn" =
        .ok ⟨"Buckets", some [("Zone", "eu west"), ("", "a=b")], some "Arn"⟩ ∧
      parse "Matrix:Buckets.Arn" = .ok ⟨"Buckets", none, some "Arn"⟩ := by
  have hword : IsWord "Buckets" := by decide
  have hending : IsEnding (some "Arn") := by
    rintro _ ⟨⟩
    exact ⟨by decide, List.all_eq_true.mp (by decide)⟩
  have hpart {s : String} (hc : ',' ∉ s.toList) (hb : ']' ∉ s.toList) (ht : Text.trim s.toList = s.toList) : IsPart s :=
    ⟨hc, hb, Text.trim_eq_self_iff.mp ht⟩
  have hw : Writable "Buckets" [("Zone", "eu west"), ("", "a=b")] := by
    refine ⟨⟨hword, by decide⟩, ?_⟩
    simp only [List.forall_mem_cons]
    refine ⟨⟨hpart ?_ ?_ ?_, ?_, hpart ?_ ?_ ?_⟩, ⟨hpart ?_ ?_ ?_, ?_, hpart ?_ ?_ ?_⟩, by simp⟩
    all_goals decide
  have hfirst : Padded ("Zone", "eu west") " Zone = eu west " :=
    ⟨" ", " ", " ", " ", by decide, by decide, by decide, by decide, by decide⟩
  have hlast : Padded ("", "a=b") "=a=b" := ⟨"", "", "", "", by decide, by decide, by decide, by decide, by decide⟩
  have hprinted : Printed [("Zone", "eu west"), ("", "a=b")] spacedPieces :=
    .pair hfirst (.blank (by decide) (.pair hlast .nil))
  obtain ⟨-, hpairs, hbare⟩ := reads_back_printed
  exact ⟨hw, hprinted, hending, hpairs _ _ _ _ hw hprinted hending, hbare _ _ hword (by decide) hending⟩

end MatrixReference
end Shorthand
