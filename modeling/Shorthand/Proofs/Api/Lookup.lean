import Shorthand.Proofs.Api.Tree

/-!
# Looking up paths and methods

A reference to a path or to a method that is written with its own text is read back as the same path and
verb, unless the text has a sign that means something else in a reference: a per cent sign, which stands for
a brace, or in a verb a slash or a point.
-/
namespace Shorthand

/-! ## Paths in references -/

namespace Path

/-- Segments that a reference can be written with: none is empty or has a slash or a point in it. -/
def Writable (p : Path) : Prop := ∀ s ∈ p.segments, s ≠ "" ∧ '/' ∉ s.toList ∧ '.' ∉ s.toList

theorem Writable.cut {p : Path} (h : p.Writable) : p.Cut := fun s hs => ⟨(h s hs).1, (h s hs).2.1⟩

/-- A path stands for itself in a reference if it has no per cent sign. -/
theorem decode_eq_self_iff {p : Path} (h : p.Writable) :
    decode ("/".intercalate p.segments) = p ↔ '%' ∉ p.text.toList := by
  constructor
  · intro he
    exact he ▸ percent_not_mem_decode _
  · intro hn
    have hrest : '%' ∉ ("/".intercalate p.segments).toList := by
      simpa [text] using hn
    rw [decode, decodeChars_eq_self hrest]
    exact congrArg Path.mk h.cut.segments_ofChars_intercalate

theorem Writable.point_not_mem {p : Path} (h : p.Writable) : '.' ∉ ("/".intercalate p.segments).toList := by
  have hn : '.' ∉ p.text.toList := by
    rw [mem_text_iff (by decide)]
    rintro ⟨s, hs, hm⟩
    exact (h s hs).2.2 hm
  simpa [text] using hn

theorem Writable.child {p : Path} (h : p.Writable) {s : String} (hne : s ≠ "") (hslash : '/' ∉ s.toList)
    (hpoint : '.' ∉ s.toList) : (p.child s).Writable := by
  intro t ht
  rcases List.mem_append.mp ht with ht | ht
  · exact h t ht
  · rw [List.mem_singleton.mp ht]
    exact ⟨hne, hslash, hpoint⟩

end Path

/-! ## References with a lookup -/

namespace ApiReference

/-- The text of a reference to a part that has a lookup, without an attribute. -/
def ofLookup (api kind lookup : String) : String := lead ++ api ++ ":" ++ kind ++ "/" ++ lookup

theorem ending?_eq_none_iff {cs : List Char} : ending? cs = some none ↔ cs = [] := by
  unfold ending?
  split
  · simp
  · split <;> simp
  · simp_all

section
variable {api kind lookup : String} (ha : IsWord api) (hne : api ≠ "")
  (hk : ∀ c ∈ kind.toList, c.isAlpha = true) (hkne : kind ≠ "")
include ha hne hk hkne

theorem spelling?_ofLookup :
    spelling? (ofLookup api kind lookup) = (ending? (lookup.toList.dropWhile (· != '.'))).map fun attr =>
      ⟨api.toList, some kind.toList, some (lookup.toList.takeWhile (· != '.')), attr⟩ := by
  have htext : (ofLookup api kind lookup).toList =
      lead.toList ++ (api.toList ++ ':' :: (kind.toList ++ '/' :: lookup.toList)) := by
    simp [ofLookup]
  have hcolon : Char.isAlphanum ':' = false := by decide
  have hslash : Char.isAlpha '/' = false := by decide
  simp only [spelling?, htext, Text.after?_append, Option.bind_eq_bind, Option.bind_some,
    Text.takeWhile_append_stop ha hcolon, Text.dropWhile_append_stop ha hcolon,
    Text.takeWhile_append_stop hk hslash, Text.dropWhile_append_stop hk hslash]
  simp [hne, hkne, Option.map_eq_bind]

theorem parse_ofLookup_iff {ref : ApiReference} :
    parse (ofLookup api kind lookup) = .ok ref ↔
      ∃ attr part, ending? (lookup.toList.dropWhile (· != '.')) = some attr ∧
        partOf (ofLookup api kind lookup) kind (String.ofList (lookup.toList.takeWhile (· != '.'))) = .ok part ∧
        ⟨api, part, attr.map String.ofList⟩ = ref := by
  rw [parse, spelling?_ofLookup ha hne hk hkne]
  cases ending? (lookup.toList.dropWhile (· != '.')) with
  | none => simp
  | some attr => simp

end
end ApiReference

theorem Target.withAttribute_eq_resource_iff {t : Target} {attr : Option String} {id : String} :
    t.withAttribute attr = .resource id ↔ attr = none ∧ t = .resource id := by
  cases attr <;> simp [Target.withAttribute, Target.resource]

namespace Apis

/-- A lookup without a point gives the id of the part that it spells. With a point in it, it would ask for an
attribute. -/
theorem lookup_ofLookup_iff {apis : Apis} {api kind lookup id : String} {r : Api.Registry}
    (ha : IsWord api) (hne : api ≠ "") (hk : ∀ c ∈ kind.toList, c.isAlpha = true) (hkne : kind ≠ "")
    (hg : Table.get? apis.table api = some r) :
    apis.lookup (ApiReference.ofLookup api kind lookup) = .ok (.resource id) ↔ '.' ∉ lookup.toList ∧
      ∃ part, ApiReference.partOf (ApiReference.ofLookup api kind lookup) kind lookup = .ok part ∧
        r.find (ApiReference.ofLookup api kind lookup) part = .ok (.resource id) := by
  have hpoint : lookup.toList.dropWhile (· != '.') = [] ↔ '.' ∉ lookup.toList := by
    simp only [List.dropWhile_eq_nil_iff, bne_iff_ne, ne_eq]
    exact ⟨fun h hm => h _ hm rfl, fun h c hc he => h (he ▸ hc)⟩
  have hwhole (hn : '.' ∉ lookup.toList) : String.ofList (lookup.toList.takeWhile (· != '.')) = lookup := by
    rw [List.takeWhile_eq_self_iff.mpr (List.dropWhile_eq_nil_iff.mp (hpoint.mpr hn)), String.ofList_toList]
  simp only [Apis.lookup, Outcome.bind_eq_ok, ApiReference.parse_ofLookup_iff ha hne hk hkne]
  constructor
  · rintro ⟨ref, ⟨attr, part, hend, hpart, rfl⟩, h⟩
    simp only [hg, Api.Registry.lookup, Outcome.bind_eq_ok, Except.ok.injEq,
      Target.withAttribute_eq_resource_iff] at h
    obtain ⟨target, hfind, hattr, rfl⟩ := h
    obtain rfl := Option.map_eq_none_iff.mp hattr
    have hn := hpoint.mp (ApiReference.ending?_eq_none_iff.mp hend)
    rw [hwhole hn] at hpart
    exact ⟨hn, part, hpart, hfind⟩
  · rintro ⟨hn, part, hpart, hfind⟩
    refine ⟨⟨api, part, none⟩, ⟨none, part, ApiReference.ending?_eq_none_iff.mpr (hpoint.mpr hn), ?_, rfl⟩, ?_⟩
    · rwa [hwhole hn]
    · simp [hg, Api.Registry.lookup, hfind, Target.withAttribute]

end Apis

/-! ## Parts under their own text -/

namespace ApiReference

/-- A path, as a reference is written with it. -/
def ofResource (api : String) (path : Path) : String := lead ++ api ++ ":Resource" ++ path.text

/-- A verb at a path, as a reference is written with them. -/
def ofMethod (api : String) (path : Path) (verb : String) : String :=
  lead ++ api ++ ":Method" ++ (if path = Path.root then "" else path.text) ++ "/" ++ verb

theorem ofResource_eq (api : String) (path : Path) :
    ofResource api path = ofLookup api "Resource" ("/".intercalate path.segments) := by
  apply String.toList_inj.mp
  simp [ofResource, ofLookup, Path.text]

/-- A verb is written like one more segment. -/
theorem ofMethod_eq (api : String) (path : Path) (verb : String) :
    ofMethod api path verb = ofLookup api "Method" ("/".intercalate (path.child verb).segments) := by
  obtain ⟨segments⟩ := path
  apply String.toList_inj.mp
  by_cases h : segments = []
  · simp [h, ofMethod, ofLookup, Path.child, Path.root]
  · simp [h, ofMethod, ofLookup, Path.child, Path.root, Path.text, String.intercalate_append_of_ne_nil]

theorem partOf_method_iff {text lookup : String} {part : ApiPart} :
    partOf text "Method" lookup = .ok part ↔ ∃ path verb, Path.decode lookup = path.child verb ∧
      part = .method path (Api.Builder.capital verb) := by
  have hsegments : ∀ (init : List String) (verb : String),
      (Path.decode lookup).segments = init ++ [verb] ↔ Path.decode lookup = Path.child ⟨init⟩ verb :=
    fun _ _ => Path.eq_child_iff.symm
  simp only [partOf]
  cases hl : (Path.decode lookup).segments.getLast? with
  | none =>
      rw [List.getLast?_eq_none_iff] at hl
      simp [Path.eq_child_iff, hl]
  | some verb =>
      obtain ⟨init, he⟩ := List.getLast?_eq_some_iff.mp hl
      constructor
      · intro h
        refine ⟨⟨init⟩, verb, (hsegments init verb).mp he, ?_⟩
        simpa [he, Api.Builder.capital] using (Except.ok.inj h).symm
      · rintro ⟨path, v, hd, rfl⟩
        obtain ⟨rfl, hv⟩ := List.append_inj' (he.symm.trans (Path.eq_child_iff.mp hd)) rfl
        obtain rfl := List.singleton_inj.mp hv
        simp [he, Api.Builder.capital]

end ApiReference

namespace Api

/-- Only letters are changed, and they are changed to letters that stay. -/
theorem toUpper_cases (c : Char) :
    c.toUpper = c ∨ c.isAlpha = true ∧ c.toUpper.isAlpha = true ∧ c.toUpper.toUpper = c.toUpper := by
  by_cases hl : c.isLower = true
  · have small : ∀ n < 128, (Char.ofNat n).isLower = true → (Char.ofNat n).toUpper.isAlpha = true ∧
        (Char.ofNat n).toUpper.toUpper = (Char.ofNat n).toUpper := by
      decide
    have ha : c.isAlpha = true := by
      show (c.isUpper || c.isLower) = true
      rw [hl, Bool.or_true]
    have hc := small c.toNat (lt_of_isAlphanum (by simp [Char.isAlphanum, ha]))
    rw [Char.ofNat_toNat] at hc
    exact .inr ⟨ha, hc hl⟩
  · exact .inl (dif_neg fun h => hl (Bool.and_eq_true_iff.mpr ⟨decide_eq_true h.1, decide_eq_true h.2⟩))

theorem capital_capital (verb : String) : Builder.capital (Builder.capital verb) = Builder.capital verb := by
  have htwice (c : Char) : c.toUpper.toUpper = c.toUpper := by
    rcases toUpper_cases c with h | ⟨_, _, h⟩
    · rw [h, h]
    · exact h
  simp [Builder.capital, Function.comp_def, htwice]

theorem mem_capital_iff {verb : String} {c : Char} (hc : c.isAlpha = false) :
    c ∈ (Builder.capital verb).toList ↔ c ∈ verb.toList := by
  rw [Builder.capital, String.toList_ofList, List.mem_map]
  constructor
  · rintro ⟨d, hd, rfl⟩
    rcases toUpper_cases d with h | ⟨_, h, _⟩
    · rwa [h]
    · rw [h] at hc
      cases hc
  · intro hm
    rcases toUpper_cases c with h | ⟨h, _⟩
    · exact ⟨c, hm, h⟩
    · rw [h] at hc
      cases hc

namespace Registry

/-- Paths and methods have ids of their own. -/
theorem nodup_tree {r : Registry} (h : r.ids.Nodup) :
    (r.resources.map Prod.snd ++ r.methods.map Prod.snd).Nodup := by
  refine h.sublist (.cons _ ?_)
  rw [List.append_assoc _ (r.resources.map Prod.snd)]
  exact (List.sublist_append_right _ _).trans (List.sublist_append_left _ _)

variable {r : Registry} (hk : DistinctKeys r) (hids : r.ids.Nodup)
include hk hids

theorem find_resource_iff {text : String} {path other : Path} {id : String} (hm : (path, id) ∈ r.resources) :
    r.find text (.resource other) = .ok (.resource id) ↔ other = path := by
  have hnodup := (nodup_tree hids).of_append_left
  rw [find]
  split
  · rename_i hroot
    have hne : other ≠ path := by
      rintro rfl
      exact hk.root (hroot ▸ List.mem_map_of_mem (f := Prod.fst) hm)
    simp [Target.resource, hne]
  · rw [known_eq_ok_iff, Table.Distinct.get?_eq_some_iff hk.resources]
    constructor
    · exact fun ho => congrArg Prod.fst (List.inj_on_of_nodup_map hnodup ho hm rfl)
    · exact fun he => he ▸ hm

theorem find_method_iff {text : String} {path other : Path} {verb v id : String}
    (hm : ((path, verb), id) ∈ r.methods) :
    r.find text (.method other v) = .ok (.resource id) ↔ other = path ∧ v = verb := by
  have hnodup := (nodup_tree hids).of_append_right
  rw [find, known_eq_ok_iff, Table.Distinct.get?_eq_some_iff hk.methods, ← Prod.mk.injEq]
  constructor
  · exact fun ho => congrArg Prod.fst (List.inj_on_of_nodup_map hnodup ho hm rfl)
  · exact fun he => he ▸ hm

end Registry
end Api

namespace Apis
variable {apis : Apis} {api : String} {r : Api.Registry}

section
variable (ha : IsWord api) (hne : api ≠ "") (hg : Table.get? apis.table api = some r) (hk : Api.DistinctKeys r)
  (hids : r.ids.Nodup) {path : Path} (hw : path.Writable)
include ha hne hg hk hids hw

theorem lookup_ofResource_iff {id : String} (hm : (path, id) ∈ r.resources) :
    apis.lookup (ApiReference.ofResource api path) = .ok (.resource id) ↔ '%' ∉ path.text.toList := by
  have hkind : ∀ c ∈ "Resource".toList, c.isAlpha = true := by simp
  rw [ApiReference.ofResource_eq, lookup_ofLookup_iff ha hne hkind (by simp) hg]
  simp only [ApiReference.partOf, Except.ok.injEq, exists_eq_left', Api.Registry.find_resource_iff hk hids hm,
    Path.decode_eq_self_iff hw]
  exact and_iff_right hw.point_not_mem

theorem lookup_ofMethod_iff {verb id : String} (hverb : verb ≠ "") (hc : Api.Builder.capital verb = verb)
    (hm : ((path, verb), id) ∈ r.methods) :
    apis.lookup (ApiReference.ofMethod api path verb) = .ok (.resource id) ↔
      '%' ∉ path.text.toList ∧ '%' ∉ verb.toList ∧ '/' ∉ verb.toList ∧ '.' ∉ verb.toList := by
  have hkind : ∀ c ∈ "Method".toList, c.isAlpha = true := by simp
  rw [ApiReference.ofMethod_eq, lookup_ofLookup_iff ha hne hkind (by simp) hg]
  simp only [ApiReference.partOf_method_iff]
  constructor
  · rintro ⟨hpoint, _, ⟨other, v, hd, rfl⟩, hfind⟩
    obtain ⟨rfl, rfl⟩ := (Api.Registry.find_method_iff hk hids hm).mp hfind
    have hpercent := hd ▸ Path.percent_not_mem_decode ("/".intercalate _)
    have hlast := Path.eq_child_iff.mp hd ▸ List.mem_append_right other.segments List.mem_cons_self
    have hslash := (Path.mem_segments_ofChars hlast).2.1
    have hpoint : '.' ∉ (other.child (Api.Builder.capital v)).text.toList := by
      simpa [Path.text] using hpoint
    rw [Path.mem_text_iff (by decide)] at hpercent hpoint ⊢
    simp only [Path.child, List.mem_append, List.mem_singleton, or_and_right, exists_or, exists_eq_left,
      not_or] at hpercent hpoint
    rw [Api.mem_capital_iff (by decide), Api.mem_capital_iff (by decide)]
    exact ⟨hpercent.1, hpercent.2, hslash, hpoint.2⟩
  · rintro ⟨hpath, hpercent, hslash, hpoint⟩
    have hchild := hw.child hverb hslash hpoint
    have hself : '%' ∉ (path.child verb).text.toList := by
      rw [Path.mem_text_iff (by decide)] at hpath ⊢
      simpa [Path.child, or_imp, forall_and, hpercent] using hpath
    refine ⟨hchild.point_not_mem, _, ⟨path, verb, (Path.decode_eq_self_iff hchild).mpr hself, rfl⟩, ?_⟩
    rw [Api.Registry.find_method_iff hk hids hm, hc]
    exact ⟨rfl, rfl⟩

end
end Apis

/-! ## What is registered can be written -/

namespace Api

/-- The paths, and the verbs at them, are such as keys of a path tree give. -/
structure Written (r : Registry) : Prop where
  resources : ∀ path ∈ Table.keys r.resources, path.Writable
  methods : ∀ key ∈ Table.keys r.methods, key.1.Writable ∧ key.2 ≠ "" ∧ Builder.capital key.2 = key.2

namespace Builder

/-- Segments with a point are refused. -/
theorem point_not_mem_of_addSegments {b b' : Builder} {place below : Place} {segments : List String}
    (h : b.addSegments place segments = .ok (below, b')) : ∀ s ∈ segments, '.' ∉ s.toList := by
  induction segments generalizing b place with
  | nil => simp
  | cons segment segments ih =>
      obtain ⟨⟨middle, b₁⟩, h₁, h⟩ := Outcome.bind_eq_ok.mp h
      refine List.forall_mem_cons.mpr ⟨fun hm => ?_, ih h⟩
      simp [addSegment, hm, malformed] at h₁

theorem writable_of_path {place : Path} {key : String} (hp : place.Writable)
    (hpoint : ∀ s ∈ (Path.ofText key).segments, '.' ∉ s.toList) {down : List String}
    (hd : down <+: (Path.ofText key).segments) : Path.Writable ⟨place.segments ++ down⟩ := by
  intro s hs
  rcases List.mem_append.mp hs with hs | hs
  · exact hp s hs
  · have hm := hd.subset hs
    obtain ⟨hne, hslash, _⟩ := Path.mem_segments_ofChars hm
    exact ⟨hne, hslash, hpoint s hm⟩

theorem capital_ne_empty_of_addMethod {b b' : Builder} {place : Place} {verb : String} {body : Node}
    (h : b.addMethod place verb body = .ok b') : capital verb ≠ "" := by
  unfold addMethod at h
  simp only [malformed] at h
  split at h
  · obtain ⟨_, he, _⟩ := Outcome.bind_eq_ok.mp h
    cases he
  · rename_i hne
    exact hne

theorem Draws.written {b b' : Builder} {place : Place} {entries : List (String × Node)}
    (h : Draws b place entries b') (hp : place.path.Writable) (hw : Written b.registry) :
    Written b'.registry := by
  induction h with
  | nil => exact hw
  | null _ ih => exact ih hp hw
  | path hk hs _ _ ihbelow ih =>
      obtain ⟨rest, rfl, rfl⟩ := path_of_ofText? hk
      obtain ⟨hbelow, hmethods, hkeys⟩ := addSegments_paths hs
      have hpoint := point_not_mem_of_addSegments hs
      refine ih hp (ihbelow (hbelow ▸ writable_of_path hp hpoint List.prefix_rfl) ⟨fun path hm => ?_, ?_⟩)
      · rcases (hkeys path).mp hm with hm | ⟨down, _, hd, he⟩
        · exact hw.resources path hm
        · have hwritable := writable_of_path hp hpoint hd
          rwa [Path.Writable, ← he] at hwritable
      · exact hmethods ▸ hw.methods
  | method _ _ hm _ ih =>
      obtain ⟨hresources, hkeys⟩ := addMethod_paths hm
      refine ih hp ⟨hresources ▸ hw.resources, fun key hmem => ?_⟩
      rw [hkeys, List.mem_append, List.mem_singleton] at hmem
      rcases hmem with hmem | rfl
      · exact hw.methods key hmem
      · exact ⟨hp, capital_ne_empty_of_addMethod hm, capital_capital _⟩

theorem written_of_expand {api : String} {digestLength : Nat} {declaration : Node} {registry : Registry}
    {ds : List Definition} (h : expand api digestLength declaration = .ok (registry, ds)) :
    Written registry := by
  obtain ⟨b₁, b₂, b₃, b₄, b₅, _, h₁, h₂, h₃, h₄, _, h₅, rfl, rfl⟩ := expand_eq_ok h
  obtain ⟨base, props, _, rfl⟩ := addDeployment_eq_ok h₅
  have hn := names_of_parts h₁ h₂ h₃
  have hb : Written b₃.registry := by
    constructor
    · rw [hn.resources]
      exact fun _ hm => absurd hm List.not_mem_nil
    · rw [hn.methods]
      exact fun _ hm => absurd hm List.not_mem_nil
  have hw := h₄.written (fun _ hs => absurd hs List.not_mem_nil) hb
  exact ⟨hw.resources, hw.methods⟩

end Builder
end Api

namespace Apis

theorem isWord_of_declareAll {entries : List (String × Node)} {apis apis' : Apis} {ds : List Definition}
    (h : Apis.declareAll entries apis = (.ok ds, apis')) {id : String} {declaration : Node}
    (hd : (id, declaration) ∈ entries) : IsWord id ∧ id ≠ "" := by
  induction entries generalizing apis ds with
  | nil => cases hd
  | cons entry entries ih =>
      obtain ⟨first, middle, rest, hf, hr, rfl⟩ := declareAll_cons h
      rcases List.mem_cons.mp hd with rfl | hd
      · have hid : ¬ (slug id ≠ id ∨ id = "") := fun hbad => by simp [Apis.declare, hbad] at hf
        simp only [ne_eq, not_or, Decidable.not_not] at hid
        exact ⟨hid.1 ▸ isWord_slug id, hid.2⟩
      · exact ih hr hd

/-- What references give for the paths and the methods of an API when they are written with its own texts. -/
structure Reads (apis : Apis) (api : String) (r : Api.Registry) : Prop where
  path : ∀ path id, (path, id) ∈ r.resources →
    (apis.lookup (ApiReference.ofResource api path) = .ok (.resource id) ↔ '%' ∉ path.text.toList)
  verb : ∀ path verb id, ((path, verb), id) ∈ r.methods →
    (apis.lookup (ApiReference.ofMethod api path verb) = .ok (.resource id) ↔
      '%' ∉ path.text.toList ∧ '%' ∉ verb.toList ∧ '/' ∉ verb.toList ∧ '.' ∉ verb.toList)
  /-- Different paths and methods have different ids. -/
  ids : (r.resources.map Prod.snd ++ r.methods.map Prod.snd).Nodup

/-- Every path and every method of an accepted section is found under its own text, unless a sign in it means
something else in a reference. -/
theorem reads_of_expandSection {apis : Apis} {entries : List (String × Node)} {ds : List Definition}
    (h : (apis.expandSection (.map entries)).1 = .ok ds) {api : String} {declaration : Node}
    (hd : (api, declaration) ∈ entries) :
    ∃ registry before part after, ds = before ++ part ++ after ∧
      Table.get? (apis.expandSection (.map entries)).2.table api = some registry ∧
      registry.Drawn part ∧ (apis.expandSection (.map entries)).2.Reads api registry := by
  have hall : declareAll entries apis = (.ok ds, (apis.expandSection (.map entries)).2) := Prod.ext h rfl
  obtain ⟨hword, hne⟩ := isWord_of_declareAll hall hd
  obtain ⟨ha, registry, before, part, after, he, hg, hx⟩ := expand_of_declareAll hall hd
  have hdrawn := (Api.Builder.mirrors_of_expand ha hx).drawn
  have hw := Api.Builder.written_of_expand hx
  obtain ⟨b, rfl, rfl, _, _, hm, hk⟩ := Api.Builder.finished_of_expand ha hx
  refine ⟨_, before, _, after, he, hg, hdrawn, ⟨fun path id hmem => ?_, fun path verb id hmem => ?_, ?_⟩⟩
  · exact lookup_ofResource_iff hword hne hg hk hm.ids (hw.resources _ (List.mem_map_of_mem hmem)) hmem
  · obtain ⟨hpath, hverb, hc⟩ := hw.methods _ (List.mem_map_of_mem hmem)
    exact lookup_ofMethod_iff hword hne hg hk hm.ids hpath hverb hc hmem
  · exact Api.Registry.nodup_tree hm.ids

/-- An API with a path below another, and methods at the root and at a path. -/
def plainPaths : List (String × Node) :=
  [("Shop", .map [("$any", .map []), ("/v1/a-b/", .map [("$get", .map [])])])]

theorem reads_plainPaths :
    ∃ ds, (({ digestLength := 8 } : Apis).expandSection (.map plainPaths)).1 = .ok ds ∧
      ∃ registry before part after, ds = before ++ part ++ after ∧
        Table.get? (({ digestLength := 8 } : Apis).expandSection (.map plainPaths)).2.table "Shop" =
          some registry ∧
        registry.Drawn part ∧
        (({ digestLength := 8 } : Apis).expandSection (.map plainPaths)).2.Reads "Shop" registry := by
  obtain ⟨ds, h⟩ := Outcome.exists_of_isOk
    (show (({ digestLength := 8 } : Apis).expandSection (.map plainPaths)).1.isOk = true by decide +kernel)
  exact ⟨ds, h, reads_of_expandSection h List.mem_cons_self⟩

/-- An API with a per cent sign in a path, and with a verb that has a point. -/
def unreadPaths : List (String × Node) :=
  [("Shop", .map [("/a%b", .map []), ("/v", .map [("$get.x", .map [])])])]

/-- Both are accepted and registered, and neither is found under its own text. -/
theorem unread_unreadPaths :
    ∃ apis, apis = (({ digestLength := 8 } : Apis).expandSection (.map unreadPaths)).2 ∧
      (({ digestLength := 8 } : Apis).expandSection (.map unreadPaths)).1.isOk = true ∧
      (Table.get? apis.table "Shop").map (·.resources) =
        some [(⟨["a%b"]⟩, "ShopAb"), (⟨["v"]⟩, "ShopV")] ∧
      (Table.get? apis.table "Shop").map (·.methods) = some [((⟨["v"]⟩, "GET.X"), "ShopVGETX")] ∧
      (apis.lookup (ApiReference.ofResource "Shop" ⟨["a%b"]⟩)).isOk = false ∧
      (apis.lookup (ApiReference.ofMethod "Shop" ⟨["v"]⟩ "GET.X")).isOk = false := by
  refine ⟨_, rfl, ?_⟩
  decide +kernel

end Apis
end Shorthand
