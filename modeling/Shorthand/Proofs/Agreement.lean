import Shorthand.Proofs.Fragment.Meaning

/-!
# The spellings of one reference

A reference without an attribute stands in a `Ref`, in a `Fn::GetAtt` or in a placeholder, and with an attribute at its
end or beside it. The family that owns it gives all of these the same resource, or refuses them all.
-/
namespace Shorthand
open Template Fragment

/-! ## What is refused, and how -/

/-- A computation that fails only because the text refers to nothing. -/
def Unknowing {α : Type} (text : String) (x : Except Error α) : Prop :=
  ∀ e, x = .error e → ∃ reason, e = .unknownReference text reason

namespace Unknowing
variable {α β : Type} {text : String}

theorem ok (a : α) : Unknowing text (.ok a) := fun _ h => by cases h

theorem unknown (reason : String) : Unknowing text (.error (.unknownReference text reason) : Except Error α) :=
  fun _ h => ⟨reason, (Except.error.inj h).symm⟩

theorem bind {x : Except Error α} {f : α → Except Error β} (h : Unknowing text x) (hf : ∀ a, Unknowing text (f a)) :
    Unknowing text (x >>= f) := by
  intro e he
  rcases Outcome.bind_eq_error.mp he with he | ⟨a, _, he⟩
  · exact h e he
  · exact hf a e he

theorem map {x : Except Error α} (h : Unknowing text x) (f : α → β) : Unknowing text (x.map f) := by
  rw [← Outcome.bind_ok]
  exact h.bind fun a => .ok (f a)

theorem mapM {as : List α} {f : α → Except Error β} (hf : ∀ a, Unknowing text (f a)) :
    Unknowing text (as.mapM f) := by
  intro e he
  obtain ⟨a, -, he⟩ := Outcome.exists_of_mapM_eq_error he
  exact hf a e he

end Unknowing

namespace ApiReference

theorem unknowing_needed (text lookup : String) : Unknowing text (needed text lookup) := by
  unfold needed
  split
  · exact .unknown _
  · exact .ok _

theorem unknowing_partOf (text kind lookup : String) : Unknowing text (partOf text kind lookup) := by
  unfold partOf
  split
  · exact (unknowing_needed text lookup).map _
  · exact (unknowing_needed text lookup).map _
  · refine (unknowing_needed text lookup).bind fun lookup => ?_
    split
    · exact .ok _
    · exact .unknown _
  · exact .ok _
  · simp only
    split
    · exact .ok _
    · exact .unknown _
  · exact .ok _
  · exact .unknown _

theorem unknowing_parse (text : String) : Unknowing text (parse text) := by
  unfold parse
  split
  · exact .unknown _
  · split
    · exact .ok _
    · exact (unknowing_partOf text _ _).bind fun _ => .ok _

end ApiReference

namespace Apis

theorem unknowing_find (r : Api.Registry) (text : String) (part : ApiPart) : Unknowing text (r.find text part) := by
  have hknown (id : Option String) (reason : String) :
      Unknowing text (Api.Registry.find.known text id reason) := by
    cases id with
    | none => exact .unknown _
    | some _ => exact .ok _
  cases part with
  | container => exact .ok _
  | resource path =>
      rw [Api.Registry.find]
      split
      · exact .ok _
      · exact hknown _ _
  | authorizer | validator | model | method | deployment => exact hknown _ _

theorem unknowing_lookup (apis : Apis) (text : String) : Unknowing text (apis.lookup text) := by
  refine (ApiReference.unknowing_parse text).bind fun ref => ?_
  split
  · exact (unknowing_find _ text _).bind fun _ => .ok _
  · exact .unknown _

end Apis

namespace MatrixReference

theorem unknowing_pairsOf (text : String) (selector : List Char) : Unknowing text (pairsOf text selector) := by
  refine .mapM fun pair => ?_
  unfold pairOf
  split
  · exact .ok _
  · exact .unknown _

theorem unknowing_parse (text : String) : Unknowing text (parse text) := by
  unfold parse
  split
  · exact .unknown _
  · split
    · exact .ok _
    · exact ((unknowing_pairsOf text _).map some).bind fun _ => .ok _

end MatrixReference

namespace Matrices

theorem unknowing_checkPairs (m : Matrix) (text : String) (pairs : List (String × String)) (seen : List String) :
    Unknowing text (m.checkPairs text seen pairs) := by
  induction pairs generalizing seen with
  | nil => exact .ok _
  | cons pair pairs ih =>
      rw [Matrix.checkPairs]
      split
      · exact .unknown _
      · split
        · exact .unknown _
        · exact ih _

theorem unknowing_chosenKey (text : String) (pairs : List (String × String)) (d : Dimension) :
    Unknowing text (Matrix.chosenKey text pairs d) := by
  unfold Matrix.chosenKey
  split
  · exact .unknown _
  · split
    · exact .ok _
    · exact .unknown _

theorem unknowing_select (m : Matrix) (text : String) (pairs : List (String × String)) :
    Unknowing text (m.select text pairs) := by
  refine (unknowing_checkPairs m text pairs []).bind fun _ => ?_
  refine Unknowing.bind (.mapM (unknowing_chosenKey text pairs)) fun _ => ?_
  split
  · exact .ok _
  · exact .unknown _

theorem unknowing_find (ms : Matrices) (text : String) (ref : MatrixReference) : Unknowing text (ms.find text ref) := by
  unfold find
  split
  · exact .ok _
  · exact .unknown _

theorem unknowing_lookup (ms : Matrices) (text : String) : Unknowing text (ms.lookup text) := by
  refine (MatrixReference.unknowing_parse text).bind fun ref => (unknowing_find ms text ref).bind fun m => ?_
  split
  · exact .unknown _
  · exact (unknowing_select m text _).bind fun _ => .ok _

end Matrices

theorem Family.unknowing {r : Resolver} {symbols : SymbolTable} (h : Family r symbols) (text : String) :
    Unknowing text (symbols.lookup text) := by
  cases h with
  | api => exact Apis.unknowing_lookup _ text
  | matrix => exact Matrices.unknowing_lookup _ text

/-! ## Templates -/

namespace SymbolTable
variable {symbols : SymbolTable}

/-- What becomes of a placeholder: the body of its target, if the family owns it. -/
def shown (symbols : SymbolTable) : String → String := answered symbols.newBody?

/-- A closed template whose placeholders all resolve, as far as the family owns them. -/
structure Resolves (symbols : SymbolTable) (template : String) : Prop where
  closed : isClosed template = true
  found : ∀ body ∈ placeholders template, symbols.owns body = true → ∃ t, symbols.lookup body = .ok t

theorem newBody?_ok_iff {body : String} : (∃ answer, symbols.newBody? body = .ok answer) ↔
    (symbols.owns body = true → ∃ t, symbols.lookup body = .ok t) := by
  unfold newBody?
  cases symbols.owns body with
  | false => simp
  | true => cases symbols.lookup body <;> simp [Except.map]

theorem rewriteTemplate_eq_ok_iff {template out : String} :
    symbols.rewriteTemplate template = .ok out ↔ symbols.Resolves template ∧ out = rename symbols.shown template := by
  rw [rewriteTemplate_eq, rewrite_eq_ok_iff]
  simp only [newBody?_ok_iff]
  exact ⟨fun ⟨hc, hf, ho⟩ => ⟨⟨hc, hf⟩, ho⟩, fun ⟨h, ho⟩ => ⟨h.closed, h.found, ho⟩⟩

theorem shown_eq {text : String} (ho : symbols.owns text = true) {t : Target} (ht : symbols.lookup text = .ok t) :
    symbols.shown text = t.body := by
  rw [shown, answered, newBody?_eq ho ht]

end SymbolTable

/-! ## Calls -/

/-- A substitution is rewritten just if its template resolves. The owned placeholders then give way to their targets,
and nothing else changes. -/
structure RewritesTemplates (r : Resolver) (symbols : SymbolTable) : Prop where
  text : ∀ template out, r.expand Call.sub (.text template) = .ok out ↔
    symbols.Resolves template ∧ out = .call Call.sub (.text (rename symbols.shown template))
  list : ∀ template rest out, r.expand Call.sub (.list (.text template :: rest)) = .ok out ↔
    symbols.Resolves template ∧ out = .call Call.sub (.list (.text (rename symbols.shown template) :: rest))

/-- What a text comes to in the calls that may hold it, where it resolves. -/
structure Gives (r : Resolver) (symbols : SymbolTable) (text : String) (t : Target) : Prop where
  ref : r.expand Call.ref (.text text) = .ok t.toNode
  getAtt : r.expand Call.getAtt (.text text) = t.attr.elim
    (.error (.unknownReference text "Fn::GetAtt needs an attribute suffix")) fun attr => .ok (.attributeOf t.id attr)
  beside : ∀ a, r.expand Call.getAtt (.list [.text text, .text a]) = .ok (.attributeOf t.id a)
  shown : symbols.shown text = t.body
  alone : '}' ∉ text.toList → r.expand Call.sub (.text (hole text)) = .ok (.call Call.sub (.text (hole t.body)))

/-- The spellings of an attribute, at the end of a reference or beside it, come to the same. -/
structure SameAttribute (r : Resolver) (symbols : SymbolTable) (text id a : String) : Prop where
  found : symbols.lookup (suffixed text a) = .ok ⟨id, some a⟩
  ref : r.expand Call.ref (.text (suffixed text a)) = .ok (.attributeOf id a)
  getAtt : r.expand Call.getAtt (.text (suffixed text a)) = .ok (.attributeOf id a)
  beside : r.expand Call.getAtt (.list [.text text, .text a]) = .ok (.attributeOf id a)
  shown : symbols.shown (suffixed text a) = s!"{id}.{a}"
  alone : '}' ∉ text.toList →
    r.expand Call.sub (.text (hole (suffixed text a))) = .ok (.call Call.sub (.text (hole s!"{id}.{a}")))

/-- A call fails because a text refers to nothing. -/
def Refused (text : String) (x : Except Error Node) : Prop := ∃ reason, x = .error (.unknownReference text reason)

/-- The calls that hold a text fail because it, or another placeholder beside it, refers to nothing. -/
structure Refuses (r : Resolver) (text : String) : Prop where
  ref : Refused text (r.expand Call.ref (.text text))
  getAtt : Refused text (r.expand Call.getAtt (.text text))
  beside : ∀ a, Refused text (r.expand Call.getAtt (.list [.text text, .text a]))
  sub : ∀ template, text ∈ placeholders template →
    ∃ body ∈ placeholders template, Refused body (r.expand Call.sub (.text template))
  subList : ∀ template rest, text ∈ placeholders template →
    ∃ body ∈ placeholders template, Refused body (r.expand Call.sub (.list (.text template :: rest)))

namespace Family
variable {r : Resolver} {symbols : SymbolTable}

theorem expand_sub (h : Family r symbols) (template : String) : r.expand Call.sub (.text template) =
    (symbols.rewriteTemplate template).map fun s => .call Call.sub (.text s) := by
  rw [h.expand (by decide)]
  rfl

theorem expand_subList (h : Family r symbols) (template : String) (rest : List Node) :
    r.expand Call.sub (.list (.text template :: rest)) =
      (symbols.rewriteTemplate template).map fun s => .call Call.sub (.list (.text s :: rest)) := by
  rw [h.expand (by decide)]
  rfl

theorem rewritesTemplates (h : Family r symbols) : RewritesTemplates r symbols where
  text template out := by
    rw [h.expand_sub, Outcome.map_eq_ok]
    simp only [SymbolTable.rewriteTemplate_eq_ok_iff]
    exact ⟨fun ⟨_, ⟨hr, he⟩, ho⟩ => ⟨hr, by rw [← ho, he]⟩, fun ⟨hr, ho⟩ => ⟨_, ⟨hr, rfl⟩, ho.symm⟩⟩
  list template rest out := by
    rw [h.expand_subList, Outcome.map_eq_ok]
    simp only [SymbolTable.rewriteTemplate_eq_ok_iff]
    exact ⟨fun ⟨_, ⟨hr, he⟩, ho⟩ => ⟨hr, by rw [← ho, he]⟩, fun ⟨hr, ho⟩ => ⟨_, ⟨hr, rfl⟩, ho.symm⟩⟩

variable {text : String} (ho : symbols.owns text = true)
include ho

theorem gives (h : Family r symbols) {t : Target} (ht : symbols.lookup text = .ok t) : Gives r symbols text t where
  ref := by
    rw [h.expand (by decide)]
    simp only [SymbolTable.rewriteCall, ↓reduceIte, ho, ht, Except.map]
  getAtt := by
    rw [h.expand (by decide)]
    simp only [SymbolTable.rewriteCall, Call.getAtt, Call.ref, String.reduceEq, ↓reduceIte, ho, ht, Outcome.ok_bind]
    cases t.attr <;> rfl
  beside a := by
    rw [h.expand (by decide)]
    simp only [SymbolTable.rewriteCall, Call.getAtt, Call.ref, String.reduceEq, ↓reduceIte, ho, ht, Except.map]
  shown := SymbolTable.shown_eq ho ht
  alone hb := by
    rw [h.expand_sub, rewriteTemplate_hole h hb ho ht]
    rfl

/-- A template with a placeholder that is refused is refused for one of its placeholders. -/
theorem rewriteTemplate_of_refused (h : Family r symbols) {e : Error} (he : symbols.lookup text = .error e)
    {template : String} (hm : text ∈ placeholders template) :
    ∃ body ∈ placeholders template, ∃ reason,
      symbols.rewriteTemplate template = .error (.unknownReference body reason) := by
  have hnew : symbols.newBody? text = .error e := by
    rw [SymbolTable.newBody?, if_pos ho, he]
    rfl
  obtain ⟨body, hbody, e', he', hr⟩ := rewrite_of_refused hm hnew
  rw [SymbolTable.newBody?] at he'
  split at he'
  · cases hl : symbols.lookup body with
    | ok t =>
        rw [hl] at he'
        cases he'
    | error e₁ =>
        rw [hl] at he'
        obtain rfl := Except.error.inj he'
        obtain ⟨reason, rfl⟩ := h.unknowing body _ hl
        exact ⟨body, hbody, reason, hr⟩
  · cases he'

theorem refuses (h : Family r symbols) {e : Error} (he : symbols.lookup text = .error e) : Refuses r text := by
  obtain ⟨reason, rfl⟩ := h.unknowing text e he
  refine ⟨⟨reason, ?_⟩, ⟨reason, ?_⟩, fun a => ⟨reason, ?_⟩, fun template hm => ?_, fun template rest hm => ?_⟩
  · rw [h.expand (by decide)]
    simp only [SymbolTable.rewriteCall, ↓reduceIte, ho, he, Except.map]
  · rw [h.expand (by decide)]
    simp only [SymbolTable.rewriteCall, Call.getAtt, Call.ref, String.reduceEq, ↓reduceIte, ho, he]
    rfl
  · rw [h.expand (by decide)]
    simp only [SymbolTable.rewriteCall, Call.getAtt, Call.ref, String.reduceEq, ↓reduceIte, ho, he, Except.map]
  · obtain ⟨body, hbody, reason, hr⟩ := h.rewriteTemplate_of_refused ho he hm
    exact ⟨body, hbody, reason, by rw [h.expand_sub, hr]; rfl⟩
  · obtain ⟨body, hbody, reason, hr⟩ := h.rewriteTemplate_of_refused ho he hm
    exact ⟨body, hbody, reason, by rw [h.expand_subList, hr]; rfl⟩

theorem sameAttribute (h : Family r symbols) (hb : Bare text) {t : Target} (ht : symbols.lookup text = .ok t)
    {a : String} (ha : a ≠ "" ∧ IsAttribute a) : SameAttribute r symbols text t.id a := by
  have hfound : symbols.lookup (suffixed text a) = .ok ⟨t.id, some a⟩ :=
    (h.lookup_suffixed_eq_ok hb ho).mpr ⟨ha, t, ht, rfl⟩
  have hbrace : '}' ∉ a.toList := fun hm => absurd (ha.2 _ hm) (by decide)
  obtain ⟨href, hgetAtt, -, hshown, halone⟩ := h.gives (h.owns_suffixed a ho) hfound
  refine ⟨hfound, href, hgetAtt, (h.gives ho ht).beside a, hshown, fun hb => halone ?_⟩
  rw [toList_suffixed]
  simp [hb, hbrace]

theorem refused_suffixed (h : Family r symbols) (hb : Bare text) {e : Error} (he : symbols.lookup text = .error e)
    (a : String) : ∃ e', symbols.lookup (suffixed text a) = .error e' := by
  cases hl : symbols.lookup (suffixed text a) with
  | error e' => exact ⟨e', rfl⟩
  | ok t' =>
      obtain ⟨-, t, ht, -⟩ := (h.lookup_suffixed_eq_ok hb ho).mp hl
      cases he.symm.trans ht

/-- The spellings of a reference agree. Where it resolves, each gives the same resource, with the attribute that is
asked for in place of the target's own; where it does not, each is refused. -/
theorem agrees_of_bare (h : Family r symbols) (hb : Bare text) :
    RewritesTemplates r symbols ∧
      (∀ t, symbols.lookup text = .ok t → Gives r symbols text t ∧
        ∀ a, a ≠ "" → IsAttribute a → SameAttribute r symbols text t.id a) ∧
      ∀ e, symbols.lookup text = .error e → Refuses r text ∧ ∀ a, Refuses r (suffixed text a) := by
  refine ⟨h.rewritesTemplates, fun t ht => ⟨h.gives ho ht, fun a hne hall => ?_⟩,
    fun e he => ⟨h.refuses ho he, fun a => ?_⟩⟩
  · exact h.sameAttribute ho hb ht ⟨hne, hall⟩
  · obtain ⟨_, he'⟩ := h.refused_suffixed ho hb he a
    exact h.refuses (h.owns_suffixed a ho) he'

end Family

open Compiler (pathParameter reached_pathParameter)

/-- The root of an API is an attribute by itself, and another one takes its place. -/
theorem agrees_rootResource :
    Family pathParameter.resolver pathParameter.symbols ∧
      pathParameter.symbols.owns "RestApi:Api:Resource" = true ∧ Bare "RestApi:Api:Resource" ∧
      Gives pathParameter.resolver pathParameter.symbols "RestApi:Api:Resource"
        ⟨"Api", some "RootResourceId"⟩ ∧
      SameAttribute pathParameter.resolver pathParameter.symbols "RestApi:Api:Resource" "Api" "Arn" ∧
      Refuses pathParameter.resolver "RestApi:Api:Resource/none" := by
  have hf : Family pathParameter.resolver pathParameter.symbols := .api reached_pathParameter
  have hroot : ApiReference.parse "RestApi:Api:Resource" = .ok ⟨"Api", .resource .root, none⟩ := by decide +kernel
  have hnone : ApiReference.parse "RestApi:Api:Resource/none" = .ok ⟨"Api", .resource ⟨["none"]⟩, none⟩ := by
    decide +kernel
  have ho : pathParameter.symbols.owns "RestApi:Api:Resource" = true := by decide +kernel
  have ho' : pathParameter.symbols.owns "RestApi:Api:Resource/none" = true := by decide +kernel
  have hl : pathParameter.symbols.lookup "RestApi:Api:Resource" = .ok ⟨"Api", some "RootResourceId"⟩ := by
    decide +kernel
  have hl' : pathParameter.symbols.lookup "RestApi:Api:Resource/none" =
      .error (.unknownReference "RestApi:Api:Resource/none" "no resource at path '/none'") := by decide +kernel
  have hattribute : IsAttribute "Arn" := List.all_eq_true.mp (by decide)
  obtain ⟨-, hgives, -⟩ := hf.agrees_of_bare ho (.api hroot rfl)
  obtain ⟨-, -, hrefuses⟩ := hf.agrees_of_bare ho' (.api hnone rfl)
  obtain ⟨hroot', hsame⟩ := hgives _ hl
  exact ⟨hf, ho, .api hroot rfl, hroot', hsame "Arn" (by decide) hattribute, (hrefuses _ hl').1⟩

end Shorthand
