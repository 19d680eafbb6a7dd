import Shorthand.Proofs.Fragment.Meaning
import Shorthand.Proofs.Matrix.Grammar
import Shorthand.ShortForm

/-!
# Attributes in short form

A reader cuts the text after a short form at the first point of all, and knows nothing of references. The lookup of a
part of an API ends at the first point as well, so that such a reference is cut where its attribute begins. What stands
in the brackets of a reference to a matrix may have points in it; such a reference is cut in two that mean nothing.
-/
namespace Shorthand

/-! ## The first point -/

namespace Text

theorem prefix_cut_iff {sep : Char} {lead a : List Char} (h : sep ∉ lead) (b : List Char) :
    lead <+: a ++ sep :: b ↔ lead <+: a := by
  constructor
  · intro hp
    rcases List.prefix_or_prefix_of_prefix hp (List.prefix_append a _) with hp' | ⟨more, rfl⟩
    · exact hp'
    · rw [List.prefix_append_right_inj] at hp
      cases more with
      | nil => simp
      | cons c more =>
          obtain rfl := (List.cons_prefix_cons.mp hp).1
          exact absurd (List.mem_append_right a List.mem_cons_self) h
  · exact fun hp => hp.trans (List.prefix_append a _)

end Text

theorem exists_suffixed_of_mem {text : String} (h : '.' ∈ text.toList) :
    ∃ half a, '.' ∉ half.toList ∧ text = suffixed half a := by
  obtain ⟨⟨as, bs⟩, hs⟩ := Option.isSome_iff_exists.mp (Text.isSome_splitFirst?_iff.mpr h)
  obtain ⟨htext, hno⟩ := Text.splitFirst?_eq_some hs
  refine ⟨String.ofList as, String.ofList bs, by rwa [String.toList_ofList], ?_⟩
  rw [← String.toList_inj, toList_suffixed, htext, String.toList_ofList, String.toList_ofList]

theorem startsWith_suffixed_iff {lead half : String} (hl : '.' ∉ lead.toList) (a : String) :
    StartsWith lead (suffixed half a) ↔ StartsWith lead half := by
  rw [StartsWith, toList_suffixed, Text.prefix_cut_iff hl, StartsWith]

namespace ShortForm

theorem splitPath_of_not_mem {path : String} (h : '.' ∉ path.toList) : splitPath path = .text path := by
  rw [splitPath]
  split
  · rename_i hs
    exact absurd (Text.isSome_splitFirst?_iff.mp (Option.isSome_of_mem hs)) h
  · rfl

theorem splitPath_suffixed {half : String} (h : '.' ∉ half.toList) (a : String) :
    splitPath (suffixed half a) = .list [.text half, .text a] := by
  rw [splitPath, toList_suffixed, Text.splitFirst?_append h]
  simp only [String.ofList_toList]

/-- The tag of the short form, with exclamation marks before it or without them. -/
def IsGetAtt (tag : String) : Prop := tag.toList.dropWhile (· == '!') = "GetAtt".toList

theorem node_getAtt {tag : String} (h : IsGetAtt tag) (path : String) :
    node (.tagged tag (.text path)) = .ok (.call Call.getAtt (splitPath path)) := by
  rw [node, node, Outcome.ok_bind, h]
  rfl

end ShortForm

/-! ## References to APIs -/

namespace ApiReference

theorem Spelling.Formed.point_not_mem {s : Spelling} (h : s.Formed) (ha : s.attr = none) : '.' ∉ s.chars := by
  obtain ⟨api, kind, lookup, attr⟩ := s
  obtain rfl : attr = none := ha
  have hapi : '.' ∉ api := fun hm => absurd (h.api.2 '.' hm) (by decide)
  cases kind with
  | none => simpa [Spelling.chars] using hapi
  | some kind =>
      have hkind : '.' ∉ kind := fun hm => absurd ((h.kind kind rfl).2 '.' hm) (by decide)
      cases lookup with
      | none => simp [Spelling.chars, hapi, hkind]
      | some lookup => simp [Spelling.chars, hapi, hkind, (h.lookup lookup rfl).2]

/-- A reference is cut at the first point where its attribute begins. -/
theorem parse_half {half a : String} (hpoint : '.' ∉ half.toList) {ref : ApiReference}
    (h : parse (suffixed half a) = .ok ref) : parse half = .ok { ref with attr := none } := by
  obtain ⟨s, hs, hapi, hattr, hpart⟩ := parse_eq_ok.mp h
  obtain ⟨htext, hf⟩ := formed_of_spelling? hs
  have hbare : Spelling.Formed { s with attr := none } := ⟨hf.api, hf.kind, hf.lookup, by simp⟩
  have hno : '.' ∉ lead.toList ++ Spelling.chars { s with attr := none } :=
    List.mem_append.not.mpr (not_or.mpr ⟨by decide, hbare.point_not_mem rfl⟩)
  have hchars : s.chars = Spelling.chars { s with attr := none } ++ s.attr.elim [] fun as => '.' :: as := by
    simp [Spelling.chars]
  rw [toList_suffixed, hchars, ← List.append_assoc] at htext
  have hhalf : half.toList = lead.toList ++ Spelling.chars { s with attr := none } := by
    cases hsome : s.attr with
    | none =>
        rw [hsome, Option.elim_none, List.append_nil] at htext
        exact absurd (htext ▸ List.mem_append_right _ List.mem_cons_self) hno
    | some as =>
        rw [hsome] at htext
        exact (Text.append_separator_inj hpoint hno htext).1
  exact parse_eq_ok.mpr ⟨_, hbare.spelling? hhalf, hapi, rfl, hpart⟩

end ApiReference

theorem Apis.lookup_half {apis : Apis} {half a : String} (hpoint : '.' ∉ half.toList) {t' : Target}
    (h : apis.lookup (suffixed half a) = .ok t') : ∃ t, apis.lookup half = .ok t ∧ t' = ⟨t.id, some a⟩ := by
  obtain ⟨_, _, _, hp, -⟩ := lookup_eq_ok.mp h
  exact ((lookup_suffixed_eq_ok (ApiReference.parse_half hpoint hp) rfl).mp h).2

/-! ## References to matrices -/

namespace MatrixReference

/-- A reference with a point in its brackets. -/
def Dotted (text : String) : Prop :=
  ∃ s : Sentence, s.Formed ∧ s.text = text ∧ ∃ body, s.body = some body ∧ '.' ∈ body.toList

theorem Dotted.point_mem {text : String} (h : Dotted text) : '.' ∈ text.toList := by
  obtain ⟨s, -, rfl, body, hb, hm⟩ := h
  rw [Sentence.toList_text, hb]
  simp [hm]

theorem Sentence.toList_text_bare (s : Sentence) : s.text.toList =
    (Sentence.text { s with attr := none }).toList ++ (s.attr.map String.toList).elim [] fun as => '.' :: as := by
  rw [toList_text, toList_text]
  simp

theorem Sentence.Formed.point_not_mem {s : Sentence} (h : s.Formed)
    (hbody : ∀ body, s.body = some body → '.' ∉ body.toList) (ha : s.attr = none) : '.' ∉ s.text.toList := by
  have hmatrix : '.' ∉ s.matrix.toList := fun hm => absurd (h.matrix.1 '.' hm) (by decide)
  have hlead : '.' ∉ lead.toList := by decide
  rw [toList_text, ha]
  cases hb : s.body with
  | none => simp [hlead, hmatrix]
  | some body => simp [hlead, hmatrix, hbody body hb]

theorem parse_half {half a : String} (hpoint : '.' ∉ half.toList) (hdot : ¬ Dotted (suffixed half a))
    {ref : MatrixReference} (h : parse (suffixed half a) = .ok ref) : parse half = .ok { ref with attr := none } := by
  obtain ⟨sp, hs, -⟩ := parse_eq_ok.mp h
  obtain ⟨s, hf, htext⟩ := exists_sentence_of_spelling? hs
  have hbody : ∀ body, s.body = some body → '.' ∉ body.toList := fun body hb hm =>
    hdot ⟨s, hf, htext, body, hb, hm⟩
  have hbare : Sentence.Formed { s with attr := none } := ⟨hf.matrix, hf.bracket, by simp [IsEnding]⟩
  have hno := hbare.point_not_mem hbody rfl
  have hchars : half.toList ++ '.' :: a.toList = _ := toList_suffixed half a ▸ htext ▸ s.toList_text_bare
  have hhalf : half = Sentence.text { s with attr := none } := by
    cases hsome : s.attr with
    | none =>
        rw [hsome, Option.map_none, Option.elim_none, List.append_nil] at hchars
        exact absurd (hchars ▸ List.mem_append_right _ List.mem_cons_self) hno
    | some as =>
        rw [hsome] at hchars
        exact String.toList_inj.mp (Text.append_separator_inj hpoint hno hchars).1
  rw [← htext, hf.parse_text] at h
  rw [hhalf, hbare.parse_text]
  obtain ⟨selector, hselector, rfl⟩ := Outcome.map_eq_ok.mp h
  refine Outcome.map_eq_ok.mpr ⟨selector, ?_, rfl⟩
  show s.body.elim _ _ = _
  cases hb : s.body with
  | none => rwa [hb] at hselector
  | some body =>
      rw [hb] at hselector
      obtain ⟨pairs, hpairs, rfl⟩ := Outcome.map_eq_ok.mp hselector
      exact Outcome.map_eq_ok.mpr ⟨pairs, pairsOf_ok_of_ok hpairs, rfl⟩

/-- A bracket that is not closed makes no reference. -/
theorem spelling?_open {text : String} {matrix rest : List Char}
    (ht : text.toList = lead.toList ++ (matrix ++ '[' :: rest)) (hword : ∀ c ∈ matrix, c.isAlphanum = true)
    (hb : ']' ∉ rest) : spelling? text = none := by
  have hstop : Char.isAlphanum '[' = false := by decide
  have hnone : Text.splitFirst? ']' rest = none := by
    rw [← Option.not_isSome_iff_eq_none, Text.isSome_splitFirst?_iff]
    exact hb
  rw [spelling?, ht, Text.after?_append, Option.bind_eq_bind, Option.bind_some]
  simp only [Text.takeWhile_append_stop hword hstop, Text.dropWhile_append_stop hword hstop, hnone]
  split <;> rfl

theorem parse_half_of_dotted {half a : String} (hpoint : '.' ∉ half.toList) (hd : Dotted (suffixed half a)) :
    parse half = .error (.unknownReference half "not a valid Matrix reference") := by
  obtain ⟨s, hf, htext, body, hb, hm⟩ := hd
  -- the first point of all is the first one in the brackets
  obtain ⟨⟨before, after⟩, hs⟩ := Option.isSome_iff_exists.mp (Text.isSome_splitFirst?_iff.mpr hm)
  obtain ⟨hbody, hbefore⟩ := Text.splitFirst?_eq_some hs
  have hmatrix : '.' ∉ s.matrix.toList := fun hm => absurd (hf.matrix.1 '.' hm) (by decide)
  have hlead : '.' ∉ lead.toList := by decide
  have hno : '.' ∉ lead.toList ++ (s.matrix.toList ++ '[' :: before) := by simp [hlead, hmatrix, hbefore]
  have hcut : half.toList ++ '.' :: a.toList = (lead.toList ++ (s.matrix.toList ++ '[' :: before)) ++
      '.' :: (after ++ ']' :: (s.attr.map String.toList).elim [] fun as => '.' :: as) := by
    rw [← toList_suffixed, ← htext, Sentence.toList_text, hb, Option.elim_some, hbody]
    simp
  have hopen := spelling?_open (Text.append_separator_inj hpoint hno hcut).1 hf.matrix.1
    fun hm => hf.bracket body hb (hbody ▸ List.mem_append_left _ hm)
  rw [parse, hopen]

end MatrixReference

theorem Matrices.lookup_half {ms : Matrices} {half a : String} (hpoint : '.' ∉ half.toList)
    (hdot : ¬ MatrixReference.Dotted (suffixed half a)) {t' : Target} (h : ms.lookup (suffixed half a) = .ok t') :
    ∃ t, ms.lookup half = .ok t ∧ t' = ⟨t.id, some a⟩ := by
  obtain ⟨_, _, _, _, hp, -⟩ := lookup_eq_ok.mp h
  exact ((lookup_suffixed_eq_ok (MatrixReference.parse_half hpoint hdot hp) rfl).mp h).2

/-! ## One call -/

namespace SymbolTable
variable {symbols : SymbolTable} {path : String} {out : Node}

theorem rewriteCall_getAtt (symbols : SymbolTable) (path : String) :
    symbols.rewriteCall Call.getAtt (.text path) = if symbols.owns path then (do
        let target ← symbols.lookup path
        match target.attr with
        | some attr => .ok (.attributeOf target.id attr)
        | none => .error (.unknownReference path "Fn::GetAtt needs an attribute suffix"))
      else .ok (.call Call.getAtt (.text path)) := rfl

theorem rewriteCall_getAtt_pair (symbols : SymbolTable) (half a : String) :
    symbols.rewriteCall Call.getAtt (.list [.text half, .text a]) =
      if symbols.owns half then (symbols.lookup half).map fun target => .attributeOf target.id a
      else .ok (.call Call.getAtt (.list [.text half, .text a])) := rfl

/-- A family that goes by the lead of a text owns the first half of what it owns. -/
theorem owns_half {lead half a : String} (hl : '.' ∉ lead.toList)
    (hclaims : ∀ {text}, symbols.owns text = true ↔ StartsWith lead text) (h : path = suffixed half a) :
    symbols.owns half = symbols.owns path := by
  rw [Bool.eq_iff_iff, hclaims, hclaims, h, startsWith_suffixed_iff hl]

/-- A family that cuts a text where its attribute begins makes the same of the two halves. -/
theorem rewriteCall_splitPath (hown : ∀ {half a}, path = suffixed half a → symbols.owns half = symbols.owns path)
    (hcut : ∀ {half a}, '.' ∉ half.toList → path = suffixed half a → ∀ {t'}, symbols.lookup path = .ok t' →
      ∃ t, symbols.lookup half = .ok t ∧ t' = ⟨t.id, some a⟩) (ho : symbols.owns path = true)
    (h : symbols.rewriteCall Call.getAtt (.text path) = .ok out) :
    symbols.rewriteCall Call.getAtt (ShortForm.splitPath path) = .ok out := by
  by_cases hm : '.' ∈ path.toList
  · obtain ⟨half, a, hpoint, hpath⟩ := exists_suffixed_of_mem hm
    rw [rewriteCall_getAtt, if_pos ho] at h
    obtain ⟨t', ht', h⟩ := Outcome.bind_eq_ok.mp h
    obtain ⟨t, ht, rfl⟩ := hcut hpoint hpath ht'
    rw [hpath, ShortForm.splitPath_suffixed hpoint, rewriteCall_getAtt_pair, hown hpath, if_pos ho, ht]
    exact h
  · rwa [ShortForm.splitPath_of_not_mem hm]

/-- A call of another family stays, in either form. -/
theorem rewriteCall_splitPath_of_not_owns
    (hown : ∀ {half a}, path = suffixed half a → symbols.owns half = symbols.owns path)
    (ho : symbols.owns path = false) : symbols.rewriteCall Call.getAtt (ShortForm.splitPath path) =
      .ok (.call Call.getAtt (ShortForm.splitPath path)) := by
  by_cases hm : '.' ∈ path.toList
  · obtain ⟨half, a, hpoint, hpath⟩ := exists_suffixed_of_mem hm
    rw [hpath, ShortForm.splitPath_suffixed hpoint, rewriteCall_getAtt_pair, hown hpath, ho]
    rfl
  · rw [ShortForm.splitPath_of_not_mem hm, rewriteCall_getAtt, ho]
    rfl

end SymbolTable

theorem Apis.owns_half (apis : Apis) {half a path : String} (h : path = suffixed half a) :
    apis.symbols.owns half = apis.symbols.owns path :=
  SymbolTable.owns_half (by decide) claims_api_iff h

theorem Matrices.owns_half (ms : Matrices) {half a path : String} (h : path = suffixed half a) :
    ms.symbols.owns half = ms.symbols.owns path :=
  SymbolTable.owns_half (by decide) claims_matrix_iff h

theorem Matrices.expand_getAtt (ms : Matrices) (arg : Node) :
    ms.expand Call.getAtt arg = ms.symbols.rewriteCall Call.getAtt arg := by
  unfold Matrices.expand
  split
  · exact if_neg fun h => absurd h.1 (by decide)
  · rfl

/-! ## The walk -/

namespace Expansion
variable {apis : Apis} {ms : Matrices} {path : String} {out : Node}

theorem apply_getAtt (apis : Apis) (ms : Matrices) (arg : Node) :
    (chain apis ms).apply (.call Call.getAtt arg) =
      apis.symbols.rewriteCall Call.getAtt arg >>= Chain.apply [ms.resolver, Import.resolver] := rfl

theorem apply_getAtt_tail (ms : Matrices) (arg : Node) :
    Chain.apply [ms.resolver, Import.resolver] (.call Call.getAtt arg) =
      ms.symbols.rewriteCall Call.getAtt arg >>= Chain.apply [Import.resolver] := by
  rw [← ms.expand_getAtt]
  rfl

theorem rewrite_congr {name name' : String} {arg arg' : Node}
    (h : (chain apis ms).apply (.call name arg) = (chain apis ms).apply (.call name' arg')) :
    (chain apis ms).rewrite (.call name arg) = (chain apis ms).rewrite (.call name' arg') := by
  rw [Chain.rewrite_eq_level (shrinks apis ms), Chain.rewrite_eq_level (shrinks apis ms)]
  exact congrArg (· >>= _) h

theorem rewrite_of_refused {name : String} {arg : Node} {e : Error}
    (h : (chain apis ms).apply (.call name arg) = .error e) : (chain apis ms).rewrite (.call name arg) = .error e := by
  rw [Chain.rewrite_eq_level (shrinks apis ms)]
  exact congrArg (· >>= _) h

theorem apply_splitPath (hown : apis.symbols.owns path = true ∨ ms.symbols.owns path = true)
    (hdot : ¬ MatrixReference.Dotted path)
    (h : (chain apis ms).apply (.call Call.getAtt (.text path)) = .ok out) :
    (chain apis ms).apply (.call Call.getAtt (ShortForm.splitPath path)) = .ok out := by
  rw [apply_getAtt, Outcome.bind_eq_ok] at h ⊢
  obtain ⟨node, hnode, h⟩ := h
  cases ha : apis.symbols.owns path with
  | true =>
      have hshort := SymbolTable.rewriteCall_splitPath apis.owns_half
        (fun hpoint hpath _ ht => Apis.lookup_half hpoint (hpath ▸ ht)) ha hnode
      exact ⟨node, hshort, h⟩
  | false =>
      have hm := hown.resolve_left (by simp [ha])
      rw [SymbolTable.rewriteCall_getAtt, ha] at hnode
      obtain rfl := Except.ok.inj hnode
      refine ⟨_, SymbolTable.rewriteCall_splitPath_of_not_owns apis.owns_half ha, ?_⟩
      rw [apply_getAtt_tail, Outcome.bind_eq_ok] at h ⊢
      obtain ⟨node, hnode, h⟩ := h
      exact ⟨node, SymbolTable.rewriteCall_splitPath ms.owns_half
        (fun hpoint hpath _ ht => Matrices.lookup_half hpoint (hpath ▸ hdot) (hpath ▸ ht)) hm hnode, h⟩

/-- A reference with a point in its brackets is refused in short form. -/
theorem apply_splitPath_of_dotted (apis : Apis) (ms : Matrices) (hdot : MatrixReference.Dotted path) :
    ∃ half, (chain apis ms).apply (.call Call.getAtt (ShortForm.splitPath path)) =
      .error (.unknownReference half "not a valid Matrix reference") := by
  have hlead : StartsWith MatrixReference.lead path := by
    obtain ⟨s, -, rfl, -⟩ := hdot
    rw [StartsWith, s.toList_text]
    exact List.prefix_append _ _
  have hm : ms.symbols.owns path = true := claims_matrix_iff.mpr hlead
  have ha : apis.symbols.owns path = false := Bool.eq_false_iff.mpr fun ha =>
    not_startsWith_both (claims_api_iff.mp ha) hlead
  obtain ⟨half, a, hpoint, rfl⟩ := exists_suffixed_of_mem hdot.point_mem
  refine ⟨half, ?_⟩
  have hlookup : ms.symbols.lookup half = .error (.unknownReference half "not a valid Matrix reference") := by
    show ms.lookup half = _
    rw [Matrices.lookup, MatrixReference.parse_half_of_dotted hpoint hdot]
    rfl
  rw [apply_getAtt, SymbolTable.rewriteCall_splitPath_of_not_owns apis.owns_half ha, Outcome.ok_bind,
    apply_getAtt_tail, ShortForm.splitPath_suffixed hpoint, SymbolTable.rewriteCall_getAtt_pair, ms.owns_half rfl,
    if_pos hm, hlookup]
  rfl

/-- In short form a reference that a family owns comes to what it comes to in long form, unless it is a reference to
a matrix with a point in its brackets, which is refused. -/
theorem shortForm_getAtt_agrees (apis : Apis) (ms : Matrices) {tag : String} (htag : ShortForm.IsGetAtt tag)
    (path : String) (out : Node) (hown : apis.symbols.owns path = true ∨ ms.symbols.owns path = true)
    (h : (chain apis ms).rewrite (.call Call.getAtt (.text path)) = .ok out) :
    ∃ short, ShortForm.node (.tagged tag (.text path)) = .ok short ∧
      (¬ MatrixReference.Dotted path → (chain apis ms).rewrite short = .ok out) ∧
      (MatrixReference.Dotted path → ∃ half,
        (chain apis ms).rewrite short = .error (.unknownReference half "not a valid Matrix reference")) := by
  refine ⟨_, ShortForm.node_getAtt htag path, fun hdot => ?_, fun hdot => ?_⟩
  · have happly := h
    rw [Chain.rewrite_eq_level (shrinks apis ms)] at happly
    obtain ⟨node, hnode, -⟩ := Outcome.bind_eq_ok.mp happly
    rw [← rewrite_congr (hnode.trans (apply_splitPath hown hdot hnode).symm)]
    exact h
  · obtain ⟨half, hhalf⟩ := apply_splitPath_of_dotted apis ms hdot
    exact ⟨half, rewrite_of_refused hhalf⟩

/-- A matrix with a point in the name of its dimension, and one without. -/
def dottedMatrices : Matrices :=
  (({} : Matrices).expandSection [] (.map [("M", .map [("Dimensions", .map [("a.b", .list [.text "x"])]),
    ("Resource", .map [("Type", .text "T")])]), ("N", .map [("Dimensions", .map [("D", .list [.text "x"])]),
    ("Resource", .map [("Type", .text "T")])])])).2

theorem shortForm_getAtt_agrees_dottedMatrices :
    (∃ short, ShortForm.node (.tagged "GetAtt" (.text "Matrix:N[D=1].Arn")) = .ok short ∧
      (chain { digestLength := 8 } dottedMatrices).rewrite short = .ok (.attributeOf "N1" "Arn")) ∧
    ∃ short, ShortForm.node (.tagged "!GetAtt" (.text "Matrix:M[a.b=1].Arn")) = .ok short ∧ ∃ half,
      (chain { digestLength := 8 } dottedMatrices).rewrite short =
        .error (.unknownReference half "not a valid Matrix reference") := by
  have hplain : ¬ MatrixReference.Dotted "Matrix:N[D=1].Arn" := by
    rintro ⟨s, hf, htext, body, hb, hm⟩
    have hs := hf.spelling?
    rw [htext, show MatrixReference.spelling? "Matrix:N[D=1].Arn" =
      some ⟨['N'], some ['D', '=', '1'], some ['A', 'r', 'n']⟩ from rfl] at hs
    have hbody := (MatrixReference.Spelling.mk.inj (Option.some.inj hs)).2.1
    rw [hb, Option.map_some, Option.some.injEq] at hbody
    exact absurd (hbody ▸ hm) (by decide)
  have hdotted : MatrixReference.Dotted "Matrix:M[a.b=1].Arn" := by
    refine ⟨⟨"M", some "a.b=1", some "Arn"⟩, ⟨⟨by decide, by decide⟩, ?_, ?_⟩, rfl, _, rfl, by decide⟩
    · rintro _ ⟨⟩
      decide
    · rintro _ ⟨⟩
      exact ⟨by decide, List.all_eq_true.mp (by decide)⟩
  obtain ⟨short, hnode, hagrees, -⟩ := shortForm_getAtt_agrees { digestLength := 8 } dottedMatrices
    (show ShortForm.IsGetAtt "GetAtt" from rfl) "Matrix:N[D=1].Arn" (.attributeOf "N1" "Arn") (.inr rfl) rfl
  obtain ⟨short', hnode', -, hrefused⟩ := shortForm_getAtt_agrees { digestLength := 8 } dottedMatrices
    (show ShortForm.IsGetAtt "!GetAtt" from rfl) "Matrix:M[a.b=1].Arn" (.attributeOf "M1" "Arn") (.inr rfl) rfl
  exact ⟨⟨short, hnode, hagrees hplain⟩, short', hnode', hrefused hdotted⟩

/-- A reference that the long form finds and the short form does not. -/
theorem shortForm_getAtt_unlike :
    dottedMatrices.symbols.owns "Matrix:M[a.b=1].Arn" = true ∧
      (chain { digestLength := 8 } dottedMatrices).rewrite (.call Call.getAtt (.text "Matrix:M[a.b=1].Arn")) =
        .ok (.attributeOf "M1" "Arn") ∧
      ∃ short, ShortForm.node (.tagged "!GetAtt" (.text "Matrix:M[a.b=1].Arn")) = .ok short ∧
        (chain { digestLength := 8 } dottedMatrices).rewrite short =
          .error (.unknownReference "Matrix:M[a" "not a valid Matrix reference") :=
  ⟨rfl, rfl, .call Call.getAtt (.list [.text "Matrix:M[a", .text "b=1].Arn"]), rfl, rfl⟩

end Expansion
end Shorthand
