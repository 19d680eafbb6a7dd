import Shorthand.Proofs.Families
import Shorthand.Proofs.Fragment.Rewriting
import Shorthand.Proofs.Suffix
import Shorthand.Proofs.Symbolic

/-!
# References inside a fragment and outside

A reference to a part of an API or to an entry of a matrix is looked up as it stands, or it is printed into the
text of a fragment and scanned out of it again. Both ways lead to the same target where the reference is written
into the text as it is: without a closing brace, and without a character that JSON escapes.
-/
namespace Shorthand

/-! ## Families -/

/-- What a symbol table puts into a placeholder in place of its body. -/
def SymbolTable.newBody? (symbols : SymbolTable) (body : String) : Except Error (Option String) :=
  if symbols.owns body then (symbols.lookup body).map fun t => some t.body else .ok none

theorem SymbolTable.rewriteTemplate_eq (symbols : SymbolTable) (template : String) :
    symbols.rewriteTemplate template = Template.rewrite symbols.newBody? template := rfl

theorem SymbolTable.newBody?_eq {symbols : SymbolTable} {body : String} (ho : symbols.owns body = true) {t : Target}
    (ht : symbols.lookup body = .ok t) : symbols.newBody? body = .ok (some t.body) := by
  rw [newBody?, if_pos ho, ht]
  rfl

theorem startsWith_of_parse_api {text : String} {ref : ApiReference} (h : ApiReference.parse text = .ok ref) :
    StartsWith ApiReference.lead text := by
  obtain ⟨_, hs, -⟩ := ApiReference.parse_eq_ok.mp h
  obtain ⟨_, hcs, -⟩ := Option.bind_eq_some_iff.mp hs
  exact Text.isSome_after?_iff.mp (Option.isSome_of_mem hcs)

theorem startsWith_of_parse_matrix {text : String} {ref : MatrixReference}
    (h : MatrixReference.parse text = .ok ref) : StartsWith MatrixReference.lead text := by
  obtain ⟨_, hs, -⟩ := MatrixReference.parse_eq_ok.mp h
  obtain ⟨_, hcs, -⟩ := Option.bind_eq_some_iff.mp hs
  exact Text.isSome_after?_iff.mp (Option.isSome_of_mem hcs)

/-- No text has both leads. -/
theorem not_startsWith_both {text : String} (h : StartsWith ApiReference.lead text)
    (h' : StartsWith MatrixReference.lead text) : False := by
  obtain ⟨rest, hrest⟩ := h
  obtain ⟨rest', hrest'⟩ := h'
  exact absurd (List.cons.inj (hrest.trans hrest'.symm)).1 (by decide)

/-- The resolvers of APIs and of matrices, with the lookups behind them. -/
inductive Family : Resolver → SymbolTable → Prop
  | api {apis : Apis} (h : apis.Reached) : Family apis.resolver apis.symbols
  | matrix {ms : Matrices} (h : ms.Reached) : Family ms.resolver ms.symbols

/-- A reference that has no attribute of its own. -/
inductive Bare (text : String) : Prop
  | api {ref : ApiReference} (h : ApiReference.parse text = .ok ref) (ha : ref.attr = none)
  | matrix {ref : MatrixReference} (h : MatrixReference.parse text = .ok ref) (ha : ref.attr = none)

namespace Family
variable {r : Resolver} {symbols : SymbolTable}

theorem plain (h : Family r symbols) {text : String} {t : Target} (hl : symbols.lookup text = .ok t) :
    t.Plain := by
  cases h with
  | api h =>
      obtain ⟨_, hb⟩ := h.backed
      exact (hb.lookup hl).1
  | matrix h =>
      obtain ⟨_, hb⟩ := h.backed
      exact (hb.lookup hl).1

theorem expand (h : Family r symbols) {name : String} (hn : name ≠ Call.length) (arg : Node) :
    r.expand name arg = symbols.rewriteCall name arg := by
  cases h with
  | api => rfl
  | @matrix ms =>
      change ms.expand name arg = _
      unfold Matrices.expand
      split
      · rw [if_neg fun hc => hn hc.1]
      · rfl

/-- Whatever is owned has the lead of the family. -/
theorem isReference (h : Family r symbols) {text : String} (ho : symbols.owns text = true) : IsReference text := by
  cases h with
  | api => exact .inl (claims_api_iff.mp ho)
  | matrix => exact .inr (claims_matrix_iff.mp ho)

/-- A reference resolves with an attribute just if it resolves without, and then to the same resource. -/
theorem lookup_suffixed_eq_ok (h : Family r symbols) {text a : String} (hb : Bare text)
    (ho : symbols.owns text = true) {t' : Target} : symbols.lookup (suffixed text a) = .ok t' ↔
      (a ≠ "" ∧ IsAttribute a) ∧ ∃ t, symbols.lookup text = .ok t ∧ t' = ⟨t.id, some a⟩ := by
  cases h with
  | api =>
      cases hb with
      | api hp ha => exact Apis.lookup_suffixed_eq_ok hp ha
      | matrix hp _ => exact (not_startsWith_both (claims_api_iff.mp ho) (startsWith_of_parse_matrix hp)).elim
  | matrix =>
      cases hb with
      | matrix hp ha => exact Matrices.lookup_suffixed_eq_ok hp ha
      | api hp _ => exact (not_startsWith_both (startsWith_of_parse_api hp) (claims_matrix_iff.mp ho)).elim

theorem not_isLiteral (h : Family r symbols) {text : String} (ho : symbols.owns text = true) :
    Piece.isLiteral text.toList = false := by
  rcases h.isReference ho with ⟨rest, hrest⟩ | ⟨rest, hrest⟩
  · rw [← hrest]
    rfl
  · rw [← hrest]
    rfl

theorem owns_suffixed (h : Family r symbols) {text : String} (a : String) (ho : symbols.owns text = true) :
    symbols.owns (suffixed text a) = true := by
  have hmore {lead : String} (hl : StartsWith lead text) : StartsWith lead (suffixed text a) := by
    rw [StartsWith, toList_suffixed]
    exact hl.trans (List.prefix_append _ _)
  cases h with
  | api => exact claims_api_iff.mpr (hmore (claims_api_iff.mp ho))
  | matrix => exact claims_matrix_iff.mpr (hmore (claims_matrix_iff.mp ho))

/-- No made-up name is owned. -/
theorem not_owns_nameOf (h : Family r symbols) (n : Nat) : symbols.owns (Fragment.Compiler.nameOf n) = false := by
  refine Bool.eq_false_iff.mpr fun ho => not_isReference (fun hm => ?_) (h.isReference ho)
  rw [Fragment.Compiler.nameOf, Naming.toList_numbered, List.mem_append] at hm
  rcases hm with hm | hm
  · exact absurd hm (by decide)
  · exact absurd (Nat.isDigit_of_mem_toDigits (by decide) (by decide) hm) (by decide)

end Family

/-! ## The placeholders of a call -/

namespace Fragment
open Template

/-- The placeholders that a call brings into the text. -/
inductive Brings : Node → String → Prop
  | reference {call : Node} {body : String} (h : Reference call body) : Brings call body
  | template {arg : Node} {t body : String} {own : Table Node} (h : Import.parts? arg = some (t, own))
      (hb : body ∈ placeholders t) : Brings (.call Call.sub arg) body

theorem Brings.eq_of_reference {call : Node} {body other : String} (h : Brings call other)
    (hr : Reference call body) : other = body := by
  cases h with
  | reference h => exact h.unique hr
  | template => exact absurd hr not_reference_sub

/-- A tree whose literal texts and templates are closed, and whose placeholders are written into the text as they
are and resolve, if they are owned. What is left to the pipeline service opens no hole. -/
structure Clear (symbols : SymbolTable) (node : Node) : Prop where
  literals : ∀ text ∈ node.literals, isClosed text = true
  kept : ∀ site ∈ node.sites, site.isKept = true → '$' ∉ site.chars
  templates : ∀ arg t own, .call Call.sub arg ∈ node.calls → Import.parts? arg = some (t, own) → isClosed t = true
  clean : ∀ call ∈ node.calls, ∀ body, Brings call body → ∀ c ∈ body.toList, isClean c = true
  resolved : ∀ call ∈ node.calls, ∀ body, Brings call body → symbols.owns body = true →
    ∃ t, symbols.lookup body = .ok t

section
variable {symbols : SymbolTable} {node : Node} {t : Table Node} {s : Splice}

theorem Clear.tidy (h : Clear symbols node) (hs : Spliced t s) (hc : s.call ∈ node.calls) : s.Tidy := by
  cases hs with
  | inline hi =>
      cases hi with
      | reference hr => exact .reference hr (h.clean _ hc _ (.reference hr))
      | template template =>
          exact .template rfl ⟨h.templates _ _ _ hc rfl, fun _ hb => h.clean _ hc _ (.template rfl hb)⟩
  | @merged template own r made hr _ =>
      exact .merged rfl ⟨h.templates _ _ _ hc rfl, fun _ hb => h.clean _ hc _ (.template rfl hb)⟩
  | whole => exact .whole (List.mem_append_right _ (List.mem_singleton_self _)) rfl

/-- The placeholders of a splice are brought by its call, or made up for it. -/
theorem Clear.brings (h : Clear symbols node) (hs : Spliced t s) (hc : s.call ∈ node.calls)
    (hm : ∀ name ∈ s.made, ∃ n, name = Compiler.nameOf n) {body : String} (hb : body ∈ placeholders s.text) :
    Brings s.call body ∨ ∃ n, body = Compiler.nameOf n := by
  cases hs with
  | inline hi =>
      cases hi with
      | @reference _ other hr =>
          have hbrace : '}' ∉ other.toList := fun hm => absurd (h.clean _ hc _ (.reference hr) _ hm) (by decide)
          rw [placeholders_hole hbrace] at hb
          split at hb
          · cases hb
          · obtain rfl := List.mem_singleton.mp hb
            exact .inl (.reference hr)
      | template template => exact .inl (.template rfl hb)
  | @merged template own r made hr _ =>
      have hnames : ∀ name, r name = name ∨ ∃ n, r name = Compiler.nameOf n := fun name =>
        (hr.eq_or_mem name).imp_right (hm _)
      have hplain : ∀ name, r name = name ∨ PlainBody (r name).toList := fun name =>
        (hnames name).imp_right fun ⟨n, hn⟩ => hn ▸ (clean_nameOf n).1
      rw [placeholders_rename hplain] at hb
      obtain ⟨old, hold, rfl⟩ := List.mem_map.mp hb
      rcases hnames old with hsame | hnew
      · rw [hsame]
        exact .inl (.template rfl hold)
      · exact .inr hnew
  | @whole call name dropped _ _ _ =>
      obtain ⟨n, rfl⟩ := hm name (List.mem_append_right _ (List.mem_singleton_self _))
      rw [placeholders_hole (clean_nameOf n).1.1, (clean_nameOf n).1.2] at hb
      exact .inr ⟨n, List.mem_singleton.mp hb⟩

end

/-- The fragment with another text. -/
def withText : Fragment → String → Fragment
  | plain _, text => plain text
  | spliced _, text => spliced text
  | bound _ bindings, text => bound text bindings

/-- What becomes of what stands for a call: it is rewritten on its own, and where the call is a reference that the
resolver owns, the placeholder and the call itself get the same target. -/
structure SameTarget (r : Resolver) (symbols : SymbolTable) (s : Splice) (new : String) : Prop where
  rewritten : symbols.rewriteTemplate s.text = .ok new
  ref : ∀ text t, s.call = .call Call.ref (.text text) → symbols.owns text = true →
    symbols.lookup text = .ok t →
    s.text = hole text ∧ new = hole t.body ∧ r.expand Call.ref (.text text) = .ok t.toNode
  getAtt : ∀ text a t, s.call = .call Call.getAtt (.list [.text text, .text a]) →
    symbols.owns text = true → symbols.lookup text = .ok t → Bare text →
    s.text = hole (suffixed text a) ∧ new = hole (⟨t.id, some a⟩ : Target).body ∧
      r.expand Call.getAtt (.list [.text text, .text a]) = .ok (.attributeOf t.id a)

theorem isClean_of_isIdChar {c : Char} (h : isIdChar c = true) : isClean c = true := by
  have small : ∀ n < 128, isIdChar (Char.ofNat n) = true → isClean (Char.ofNat n) = true := by decide
  have hlow : c.toNat < 128 := by
    rcases Bool.or_eq_true_iff.mp h with h | h
    · exact lt_of_isAlphanum h
    · obtain rfl := of_decide_eq_true h
      decide
  have hc := small c.toNat hlow
  rw [Char.ofNat_toNat] at hc
  exact hc h

/-- The fragment of a tree is rewritten: in the same tree there stands, for each call, what becomes of what stood
for it, and the bindings are kept. -/
def KeepsTargets (r : Resolver) (symbols : SymbolTable) (node : Node) (fragment : Fragment) : Prop :=
  ∃ splices news tree arg, Accounts node fragment.text fragment.bindings splices ∧
    List.Forall₂ (SameTarget r symbols) splices news ∧ Filled node news tree ∧
    fragment.toNode = .call Call.sub arg ∧
    r.expand Call.sub arg = .ok (fragment.withText tree.json).toNode

section
variable {r : Resolver} {symbols : SymbolTable} {node : Node} {t : Table Node} {s : Splice}

theorem cleanAnswers (hf : Family r symbols) : CleanAnswers symbols.newBody? := by
  intro body new h c hc
  unfold SymbolTable.newBody? at h
  split at h
  · obtain ⟨t, hl, ht⟩ := Outcome.map_eq_ok.mp h
    obtain rfl := Option.some.inj ht
    rcases (hf.plain hl).mem_body hc with hid | rfl
    · exact isClean_of_isIdChar hid
    · decide
  · cases h

theorem Clear.rewritten (hf : Family r symbols) (h : Clear symbols node) (hs : Spliced t s)
    (hc : s.call ∈ node.calls) (hm : ∀ name ∈ s.made, ∃ n, name = Compiler.nameOf n) :
    ∃ new, symbols.rewriteTemplate s.text = .ok new := by
  rw [SymbolTable.rewriteTemplate_eq]
  refine ⟨_, rewrite_of_answers (hs.tidy (h.tidy hs hc) hm).1 fun body hb => ?_⟩
  unfold SymbolTable.newBody?
  cases ho : symbols.owns body with
  | false => exact ⟨none, rfl⟩
  | true =>
      rcases h.brings hs hc hm hb with hb | ⟨n, rfl⟩
      · obtain ⟨t, ht⟩ := h.resolved _ hc _ hb ho
        exact ⟨some t.body, by rw [if_pos rfl, ht]; rfl⟩
      · rw [hf.not_owns_nameOf] at ho
        cases ho

/-- A placeholder that is owned and needs no escape is rewritten to its target's. -/
theorem rewriteTemplate_hole (hf : Family r symbols) {body : String} (hb : '}' ∉ body.toList)
    (ho : symbols.owns body = true) {t : Target} (ht : symbols.lookup body = .ok t) :
    symbols.rewriteTemplate (hole body) = .ok (hole t.body) :=
  rewrite_hole ⟨hb, hf.not_isLiteral ho⟩ (SymbolTable.newBody?_eq ho ht)

theorem Clear.sameTarget (hf : Family r symbols) (h : Clear symbols node) (hs : Spliced t s)
    (hc : s.call ∈ node.calls) {new : String} (hnew : symbols.rewriteTemplate s.text = .ok new) :
    SameTarget r symbols s new := by
  refine ⟨hnew, ?_, ?_⟩
  · intro text t hcall ho ht
    have href : Reference s.call text := hcall ▸ .ref text
    have htext := hs.eq_hole href
    have hbrace : '}' ∉ text.toList := fun hm =>
      absurd (h.clean _ hc _ (.reference href) _ hm) (by decide)
    rw [htext, rewriteTemplate_hole hf hbrace ho ht] at hnew
    refine ⟨htext, (Except.ok.inj hnew).symm, ?_⟩
    rw [hf.expand (by decide)]
    simp [SymbolTable.rewriteCall, ho, ht]
  · intro text a t hcall ho ht hbare
    have href : Reference s.call (suffixed text a) := hcall ▸ .attributeOf text a
    have htext := hs.eq_hole href
    have hbrace : '}' ∉ (suffixed text a).toList := fun hm =>
      absurd (h.clean _ hc _ (.reference href) _ hm) (by decide)
    have howns := hf.owns_suffixed a ho
    obtain ⟨t', ht'⟩ := h.resolved _ hc _ (.reference href) howns
    obtain ⟨-, t₁, ht₁, rfl⟩ := (hf.lookup_suffixed_eq_ok hbare ho).mp ht'
    obtain rfl := Except.ok.inj (ht.symm.trans ht₁)
    rw [htext, rewriteTemplate_hole hf hbrace howns ht'] at hnew
    refine ⟨htext, (Except.ok.inj hnew).symm, ?_⟩
    rw [hf.expand (by decide)]
    simp [SymbolTable.rewriteCall, Call.getAtt, Call.ref, ho, ht]

end

namespace Compiler

theorem expand_of_compile {r : Resolver} {symbols : SymbolTable} (hf : Family r symbols) {c : Compiler} {node : Node}
    (hcalls : node.calls ≠ []) {text : String} (h : symbols.rewriteTemplate (c.compile node).1.text = .ok text) :
    ∃ arg, (c.compile node).1.toNode = .call Call.sub arg ∧
      r.expand Call.sub arg = .ok ((c.compile node).1.withText text).toNode := by
  generalize hfragment : (c.compile node).1 = fragment at h
  rw [compile] at hfragment
  simp only [if_pos (node.containsCall_iff.mpr hcalls)] at hfragment
  cases fragment with
  | plain => split at hfragment <;> cases hfragment
  | spliced text₀ =>
      refine ⟨.text text₀, rfl, ?_⟩
      rw [hf.expand (by decide)]
      change (symbols.rewriteTemplate text₀).map _ = _
      rw [show symbols.rewriteTemplate text₀ = .ok text from h]
      rfl
  | bound text₀ bindings =>
      refine ⟨.list [.text text₀, .map bindings], rfl, ?_⟩
      rw [hf.expand (by decide)]
      change (symbols.rewriteTemplate text₀).map _ = _
      rw [show symbols.rewriteTemplate text₀ = .ok text from h]
      rfl

/-- A tree that is clear means the same inside a fragment as outside: rewriting the fragment comes to the same as
rewriting what stands for each call, and the placeholder of a reference gets the target that the resolver gives the
call itself. -/
theorem keepsTargets_of_compile {r : Resolver} {symbols : SymbolTable} (hf : Family r symbols) (c : Compiler)
    {node : Node} (hn : node.WellFormed) (hcalls : node.calls ≠ []) (h : Clear symbols node) :
    KeepsTargets r symbols node (c.compile node).1 := by
  obtain ⟨splices, hmade, ha⟩ := c.accounts_of_calls hn hcalls
  have hs : ∀ s ∈ splices, ∃ t, Spliced t s ∧ s.call ∈ node.calls ∧ ∀ name ∈ s.made, ∃ n, name = nameOf n := by
    intro s hs
    obtain ⟨before, after, hsplit⟩ := List.append_of_mem hs
    refine ⟨_, ha.spliced before s after hsplit, ha.calls ▸ List.mem_map_of_mem hs, fun name hname => ?_⟩
    obtain ⟨n, -, he⟩ := hmade.exists_nameOf (List.mem_flatMap.mpr ⟨s, hs, hname⟩)
    exact ⟨n, he⟩
  obtain ⟨news, hnews⟩ := Outcome.mapM_ok fun s (hmem : s ∈ splices) =>
    have ⟨_, hs, hc, hm⟩ := hs s hmem
    h.rewritten hf hs hc hm
  have hnews := (List.forall₂_and_left _ _).mpr ⟨hs, Outcome.mapM_eq_ok.mp hnews⟩
  have hturns : List.Forall₂ (fun old new => Turns symbols.newBody? (Json.quoted old) (Json.quoted new))
      (splices.map Splice.text) news := by
    refine List.forall₂_map_left_iff.mpr (hnews.imp ?_)
    rintro s new ⟨⟨_, hs, hc, hm⟩, hnew⟩
    exact turns_quoted (cleanAnswers hf) (hs.tidy (h.tidy hs hc) hm).all_isSafe hnew
  obtain ⟨tree₀, hfilled₀, htext⟩ := ha.text
  obtain ⟨tree, hfilled, ht⟩ := hfilled₀.turns (cleanAnswers hf) h.kept h.literals hturns
  have hrewrite : symbols.rewriteTemplate (c.compile node).1.text = .ok tree.json := by
    rw [htext, SymbolTable.rewriteTemplate_eq, rewrite_eq_ok]
    rw [Node.json, Node.json, String.toList_ofList, String.toList_ofList]
    exact ht.rewriteChars
  have htargets : List.Forall₂ (SameTarget r symbols) splices news := by
    refine hnews.imp ?_
    rintro s new ⟨⟨_, hs, hc, _⟩, hnew⟩
    exact h.sameTarget hf hs hc hnew
  obtain ⟨arg, harg, hexpand⟩ := expand_of_compile hf hcalls hrewrite
  exact ⟨splices, news, tree, arg, ha, htargets, hfilled, harg, hexpand⟩

/-- An API with a path parameter. -/
def pathParameter : Apis := (({ digestLength := 8 } : Apis).expandSection
  (.map [("Api", .map [("/\x7bid\x7d", .map [])])])).2

theorem reached_pathParameter : pathParameter.Reached := .expand (.new 8) _

/-- References to a path, written with per cent signs, and to the root. -/
def pathReferences : Node :=
  .list [.refTo "RestApi:Api:Resource/%id%", .attributeOf "RestApi:Api" "RootResourceId"]

theorem clear_pathReferences : Clear pathParameter.symbols pathReferences := by
  have hcalls : pathReferences.calls =
      [.refTo "RestApi:Api:Resource/%id%", .attributeOf "RestApi:Api" "RootResourceId"] := rfl
  have hbrings : ∀ call ∈ pathReferences.calls, ∀ body, Brings call body →
      body ∈ ["RestApi:Api:Resource/%id%", "RestApi:Api.RootResourceId"] := by
    rw [hcalls]
    intro call hc body hb
    rcases List.mem_pair.mp hc with rfl | rfl
    · exact List.mem_pair.mpr (.inl (hb.eq_of_reference (.ref _)))
    · exact List.mem_pair.mpr (.inr (hb.eq_of_reference (.attributeOf _ _)))
  have hclean : ∀ body ∈ ["RestApi:Api:Resource/%id%", "RestApi:Api.RootResourceId"],
      ∀ c ∈ body.toList, isClean c = true := by
    intro body hb
    refine List.all_eq_true.mp ?_
    rcases List.mem_pair.mp hb with rfl | rfl <;> decide
  have hpath : (pathParameter.lookup "RestApi:Api:Resource/%id%").isOk = true := by decide +kernel
  have hroot : (pathParameter.lookup "RestApi:Api.RootResourceId").isOk = true := by decide +kernel
  refine ⟨by decide, fun site hs hk => ?_, fun arg t own hc => ?_, fun call hc body hb => ?_,
    fun call hc body hb _ => ?_⟩
  · rcases List.mem_pair.mp hs with rfl | rfl <;> cases hk
  · rw [hcalls, List.mem_pair] at hc
    rcases hc with hc | hc <;> exact absurd (Node.call_inj hc).1 (by decide)
  · exact hclean body (hbrings call hc body hb)
  · rcases List.mem_pair.mp (hbrings call hc body hb) with rfl | rfl
    · exact Outcome.exists_of_isOk hpath
    · exact Outcome.exists_of_isOk hroot

theorem keepsTargets_pathReferences :
    Family pathParameter.resolver pathParameter.symbols ∧ pathReferences.WellFormed ∧
      pathReferences.calls ≠ [] ∧ Clear pathParameter.symbols pathReferences ∧
      KeepsTargets pathParameter.resolver pathParameter.symbols pathReferences
        (({} : Compiler).compile pathReferences).1 := by
  have hw : pathReferences.WellFormed := by
    simp [pathReferences, Node.wellFormed_list_iff]
  have hc : pathReferences.calls ≠ [] := List.cons_ne_nil _ _
  exact ⟨.api reached_pathParameter, hw, hc, clear_pathReferences,
    keepsTargets_of_compile (.api reached_pathParameter) {} hw hc clear_pathReferences⟩

/-- The same path is found under a text with braces, and so the call alone is rewritten. Compiled, its placeholder
ends at the first brace, and what is before it is no reference to anything. -/
theorem lost_pathParameter :
    pathParameter.symbols.owns "RestApi:Api:Resource/\x7bid\x7d" = true ∧
      pathParameter.symbols.lookup "RestApi:Api:Resource/\x7bid\x7d" = .ok (.resource "ApiId") ∧
      pathParameter.resolver.expand Call.ref (.text "RestApi:Api:Resource/\x7bid\x7d") = .ok (.refTo "ApiId") ∧
      (({} : Compiler).compile (.refTo "RestApi:Api:Resource/\x7bid\x7d")).1 =
        .spliced "\"$\x7bRestApi:Api:Resource/\x7bid\x7d\x7d\"" ∧
      (pathParameter.resolver.expand Call.sub
        (.text "\"$\x7bRestApi:Api:Resource/\x7bid\x7d\x7d\"")).isOk = false := by
  have ho : pathParameter.symbols.owns "RestApi:Api:Resource/\x7bid\x7d" = true := by decide +kernel
  have hl : pathParameter.symbols.lookup "RestApi:Api:Resource/\x7bid\x7d" = .ok (.resource "ApiId") := by
    have hfound : (pathParameter.symbols.lookup "RestApi:Api:Resource/\x7bid\x7d").toOption =
        some (.resource "ApiId") := by decide +kernel
    revert hfound
    cases pathParameter.symbols.lookup "RestApi:Api:Resource/\x7bid\x7d" <;> simp [Except.toOption]
  refine ⟨ho, hl, ?_, by cbv, by decide +kernel⟩
  rw [(Family.api reached_pathParameter).expand (by decide)]
  simp [SymbolTable.rewriteCall, ho, hl, Target.toNode, Target.resource]

end Compiler

end Fragment
end Shorthand
