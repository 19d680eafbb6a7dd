import Shorthand.Proofs.Api.Parts
import Shorthand.Proofs.Path

/-!
# The path tree of an API

The definitions of an API mirror the tree that its declaration spells: one resource for each path on the
way to a spelled one, one method for each verb declared at a path.
-/
namespace Shorthand

namespace Api

/-! ## What a tree spells -/

/-- The keys of path after path, one below the other, put together. Null entries do not count. -/
inductive Spells : List (String × Node) → String → Prop
  | here {entries : List (String × Node)} {rest : String} {value : Node}
      (h : ("/" ++ rest, value) ∈ entries) (hv : value ≠ .null) : Spells entries ("/" ++ rest)
  | deeper {entries tree : List (String × Node)} {rest text : String}
      (h : ("/" ++ rest, .map tree) ∈ entries) (hs : Spells tree text) : Spells entries ("/" ++ rest ++ text)

/-- A verb, in capital letters, under the keys of path after path. -/
inductive Declares : List (String × Node) → String → String → Prop
  | here {entries : List (String × Node)} {verb : String} {value : Node}
      (h : ("$" ++ verb, value) ∈ entries) (hv : value ≠ .null) : Declares entries "" (Builder.capital verb)
  | deeper {entries tree : List (String × Node)} {rest text verb : String}
      (h : ("/" ++ rest, .map tree) ∈ entries) (hd : Declares tree text verb) :
      Declares entries ("/" ++ rest ++ text) verb

theorem Spells.slash {entries : List (String × Node)} {text : String} (h : Spells entries text) :
    ∃ rest, text = "/" ++ rest := by
  cases h with
  | here _ _ => exact ⟨_, rfl⟩
  | deeper _ _ => exact ⟨_, String.append_assoc⟩

/-- The segments below a key come after those of the key. -/
theorem Spells.segments {entries : List (String × Node)} {text : String} (h : Spells entries text)
    (key : String) :
    (Path.ofText (key ++ text)).segments = (Path.ofText key).segments ++ (Path.ofText text).segments := by
  obtain ⟨rest, rfl⟩ := h.slash
  exact Path.segments_append key rest

theorem Declares.segments {entries : List (String × Node)} {text verb : String}
    (h : Declares entries text verb) (key : String) :
    (Path.ofText (key ++ text)).segments = (Path.ofText key).segments ++ (Path.ofText text).segments := by
  cases h with
  | here _ _ =>
      rw [String.append_empty]
      exact (List.append_nil _).symm
  | deeper _ _ =>
      rw [String.append_assoc]
      exact Path.segments_append key _

theorem Spells.mono {entries more : List (String × Node)} {text : String} (h : Spells entries text)
    (hm : entries ⊆ more) : Spells more text := by
  cases h with
  | here h hv => exact .here (hm h) hv
  | deeper h hs => exact .deeper (hm h) hs

theorem Declares.mono {entries more : List (String × Node)} {text verb : String}
    (h : Declares entries text verb) (hm : entries ⊆ more) : Declares more text verb := by
  cases h with
  | here h hv => exact .here (hm h) hv
  | deeper h hd => exact .deeper (hm h) hd

theorem spells_cons_iff {e : String × Node} {entries : List (String × Node)} {text : String} :
    Spells (e :: entries) text ↔ Spells [e] text ∨ Spells entries text := by
  constructor
  · intro h
    cases h with
    | here h hv =>
        rcases List.mem_cons.mp h with rfl | h
        · exact .inl (.here List.mem_cons_self hv)
        · exact .inr (.here h hv)
    | deeper h hs =>
        rcases List.mem_cons.mp h with rfl | h
        · exact .inl (.deeper List.mem_cons_self hs)
        · exact .inr (.deeper h hs)
  · rintro (h | h)
    · exact h.mono (by simp)
    · exact h.mono (List.subset_cons_self _ _)

theorem declares_cons_iff {e : String × Node} {entries : List (String × Node)} {text verb : String} :
    Declares (e :: entries) text verb ↔ Declares [e] text verb ∨ Declares entries text verb := by
  constructor
  · intro h
    cases h with
    | here h hv =>
        rcases List.mem_cons.mp h with rfl | h
        · exact .inl (.here List.mem_cons_self hv)
        · exact .inr (.here h hv)
    | deeper h hd =>
        rcases List.mem_cons.mp h with rfl | h
        · exact .inl (.deeper List.mem_cons_self hd)
        · exact .inr (.deeper h hd)
  · rintro (h | h)
    · exact h.mono (by simp)
    · exact h.mono (List.subset_cons_self _ _)

theorem spells_path_iff {rest text : String} {tree : List (String × Node)} :
    Spells [("/" ++ rest, .map tree)] text ↔
      text = "/" ++ rest ∨ ∃ more, Spells tree more ∧ text = "/" ++ rest ++ more := by
  constructor
  · intro h
    cases h with
    | here h _ => exact .inl (Prod.mk.inj (List.mem_singleton.mp h)).1
    | deeper h hs =>
        obtain ⟨hk, hv⟩ := Prod.mk.inj (List.mem_singleton.mp h)
        exact .inr ⟨_, Node.map.inj hv ▸ hs, by rw [hk]⟩
  · rintro (rfl | ⟨more, hs, rfl⟩)
    · exact .here List.mem_cons_self (by simp)
    · exact .deeper List.mem_cons_self hs

theorem Spells.slash_of_singleton {e : String × Node} {text : String} (h : Spells [e] text) :
    ∃ rest, e.1 = "/" ++ rest := by
  cases h with
  | here h _ => exact ⟨_, (congrArg Prod.fst (List.mem_singleton.mp h)).symm⟩
  | deeper h _ => exact ⟨_, (congrArg Prod.fst (List.mem_singleton.mp h)).symm⟩

namespace Builder

/-! ## Keys of the tree -/

theorem path_of_ofText? {key : String} {segments : List String}
    (h : TreeKey.ofText? key = some (.path segments)) :
    ∃ rest, key = "/" ++ rest ∧ segments = (Path.ofText key).segments := by
  unfold TreeKey.ofText? at h
  split at h
  · rename_i cs hcs
    have hkey : key = "/" ++ String.ofList cs :=
      String.toList_inj.mp (by simp [hcs])
    refine ⟨_, hkey, ?_⟩
    rw [hkey, Path.ofText_slash, String.toList_ofList]
    exact (TreeKey.path.inj (Option.some.inj h)).symm
  · cases h
  · cases h

theorem method_of_ofText? {key verb : String} (h : TreeKey.ofText? key = some (.method verb)) :
    key = "$" ++ verb := by
  unfold TreeKey.ofText? at h
  split at h
  · cases h
  · rename_i cs hcs
    obtain rfl := TreeKey.method.inj (Option.some.inj h)
    exact String.toList_inj.mp (by simp [hcs])
  · cases h

theorem slash_ne_dollar (rest verb : String) : "/" ++ rest ≠ "$" ++ verb := by
  intro h
  have := congrArg (fun s : String => s.toList.head?) h
  simp at this

/-! ## The paths that are drawn -/

/-- A path on the way from a place to one that is spelled below it. -/
def OnTheWay (place : Path) (entries : List (String × Node)) (path : Path) : Prop :=
  ∃ text, Spells entries text ∧ ∃ down, down ≠ [] ∧ down <+: (Path.ofText text).segments ∧
    path.segments = place.segments ++ down

theorem onTheWay_cons_iff {place path : Path} {e : String × Node} {entries : List (String × Node)} :
    OnTheWay place (e :: entries) path ↔ OnTheWay place [e] path ∨ OnTheWay place entries path := by
  have hs (text : String) : Spells (e :: entries) text ↔ Spells [e] text ∨ Spells entries text :=
    spells_cons_iff
  simp only [OnTheWay, hs, or_and_right, exists_or]

/-- On the way below a key there are the paths of its own segments, and those below these. -/
theorem onTheWay_path_iff {place path : Path} {rest : String} {tree : List (String × Node)} :
    OnTheWay place [("/" ++ rest, .map tree)] path ↔
      (∃ down, down ≠ [] ∧ down <+: (Path.ofText ("/" ++ rest)).segments ∧
        path.segments = place.segments ++ down) ∨
      OnTheWay ⟨place.segments ++ (Path.ofText ("/" ++ rest)).segments⟩ tree path := by
  constructor
  · rintro ⟨text, hs, down, hne, hp, he⟩
    rcases spells_path_iff.mp hs with rfl | ⟨more, hmore, rfl⟩
    · exact .inl ⟨down, hne, hp, he⟩
    · rw [hmore.segments] at hp
      -- the way ends within the key, or goes on below it
      rcases List.prefix_or_prefix_of_prefix hp (List.prefix_append _ _) with hd | ⟨further, rfl⟩
      · exact .inl ⟨down, hne, hd, he⟩
      · by_cases hf : further = []
        · rw [hf, List.append_nil] at he hne
          exact .inl ⟨_, hne, List.prefix_rfl, he⟩
        · have hp := (List.prefix_append_right_inj _).mp hp
          exact .inr ⟨more, hmore, further, hf, hp, by rw [he, List.append_assoc]⟩
  · rintro (⟨down, hne, hp, he⟩ | ⟨more, hs, down, hne, hp, he⟩)
    · exact ⟨_, spells_path_iff.mpr (.inl rfl), down, hne, hp, he⟩
    · refine ⟨_, spells_path_iff.mpr (.inr ⟨more, hs, rfl⟩), (Path.ofText ("/" ++ rest)).segments ++ down,
        List.append_ne_nil_of_right_ne_nil _ hne, ?_, ?_⟩
      · rw [hs.segments]
        exact (List.prefix_append_right_inj _).mpr hp
      · rw [he, List.append_assoc]

theorem addSegment_paths {b b' : Builder} {place below : Place} {segment : String}
    (h : b.addSegment place segment = .ok (below, b')) :
    below.path = place.path.child segment ∧ b'.registry.methods = b.registry.methods ∧
      ∀ path, path ∈ Table.keys b'.registry.resources ↔
        path ∈ Table.keys b.registry.resources ∨ path = place.path.child segment := by
  unfold addSegment at h
  split at h
  · cases h
  · simp only at h
    split at h
    · rename_i id hget
      obtain ⟨rfl, rfl⟩ := Prod.mk.inj (Except.ok.inj h)
      refine ⟨rfl, rfl, fun path => ⟨.inl, ?_⟩⟩
      rintro (h | rfl)
      · exact h
      · exact Table.mem_keys_of_get? hget
    · obtain ⟨rfl, rfl⟩ := Prod.mk.inj (Except.ok.inj h)
      refine ⟨rfl, rfl, fun path => ?_⟩
      simp [define, claim, Registry.claim, Table.keys, or_comm, eq_comm]

theorem addSegments_paths {b b' : Builder} {place below : Place} {segments : List String}
    (h : b.addSegments place segments = .ok (below, b')) :
    below.path = ⟨place.path.segments ++ segments⟩ ∧ b'.registry.methods = b.registry.methods ∧
      ∀ path, path ∈ Table.keys b'.registry.resources ↔ path ∈ Table.keys b.registry.resources ∨
        ∃ down, down ≠ [] ∧ down <+: segments ∧ path.segments = place.path.segments ++ down := by
  induction segments generalizing b place with
  | nil =>
      obtain ⟨rfl, rfl⟩ := Prod.mk.inj (Except.ok.inj h)
      refine ⟨by rw [List.append_nil], rfl, fun path => ⟨.inl, ?_⟩⟩
      rintro (h | ⟨down, hne, hp, _⟩)
      · exact h
      · exact absurd (List.prefix_nil.mp hp) hne
  | cons segment segments ih =>
      obtain ⟨⟨middle, b₁⟩, h₁, h⟩ := Outcome.bind_eq_ok.mp h
      obtain ⟨hplace, hm₁, hk₁⟩ := addSegment_paths h₁
      obtain ⟨hbelow, hm, hk⟩ := ih h
      rw [hplace] at hbelow
      refine ⟨by simpa [Path.child] using hbelow, hm.trans hm₁, fun path => ?_⟩
      rw [hk, hk₁, Path.eq_child_iff, hplace, or_assoc]
      refine or_congr_right ⟨?_, ?_⟩
      · rintro (he | ⟨down, _, hp, he⟩)
        · exact ⟨[segment], by simp, by simp, he⟩
        · exact ⟨segment :: down, by simp, List.cons_prefix_cons.mpr ⟨rfl, hp⟩, by simpa [Path.child] using he⟩
      · rintro ⟨down, hne, hp, he⟩
        rcases List.prefix_cons_iff.mp hp with rfl | ⟨further, rfl, hf⟩
        · exact absurd rfl hne
        · cases further with
          | nil => exact .inl he
          | cons s further => exact .inr ⟨s :: further, by simp, hf, by simpa [Path.child] using he⟩

theorem addMethod_paths {b b' : Builder} {place : Place} {verb : String} {body : Node}
    (h : b.addMethod place verb body = .ok b') :
    b'.registry.resources = b.registry.resources ∧
      Table.keys b'.registry.methods = Table.keys b.registry.methods ++ [(place.path, capital verb)] := by
  obtain ⟨_, _, b₁, b₂, _, _, rfl, rfl, hprops, rfl⟩ := addMethod_cases h
  obtain ⟨_, _, _, hv⟩ := hprops.exists_validate
  have hc := hprops.sameParts
  have hs := sameBesideValidators_validate hv
  have hm : b₂.registry.methods = b.registry.methods := by rw [hc.registry, hs.methods]; rfl
  refine ⟨(congrArg _ hc.registry).trans hs.resources, ?_⟩
  show Table.keys (b₂.registry.methods ++ _) = _
  rw [hm, Table.keys, List.map_append]
  rfl

theorem not_onTheWay_null {place path : Path} {key : String} : ¬ OnTheWay place [(key, .null)] path := by
  rintro ⟨text, hs, _⟩
  cases hs with
  | here h hv => exact hv (Prod.mk.inj (List.mem_singleton.mp h)).2
  | deeper h _ => cases (Prod.mk.inj (List.mem_singleton.mp h)).2

theorem not_onTheWay_verb {place path : Path} {verb : String} {body : Node} :
    ¬ OnTheWay place [("$" ++ verb, body)] path := by
  rintro ⟨text, hs, _⟩
  obtain ⟨rest, he⟩ := hs.slash_of_singleton
  exact slash_ne_dollar rest verb he.symm

/-- The paths that have a resource after a level of the tree was gone through. -/
theorem Draws.mem_resources {b b' : Builder} {place : Place} {entries : List (String × Node)}
    (h : Draws b place entries b') {path : Path} :
    path ∈ Table.keys b'.registry.resources ↔
      path ∈ Table.keys b.registry.resources ∨ OnTheWay place.path entries path := by
  induction h with
  | nil =>
      refine ⟨.inl, fun h => h.resolve_right ?_⟩
      rintro ⟨_, hs, _⟩
      cases hs with
      | here h _ => cases h
      | deeper h _ => cases h
  | null _ ih => rw [ih, onTheWay_cons_iff, or_iff_right not_onTheWay_null]
  | path hk hs _ _ ihbelow ih =>
      obtain ⟨rest, rfl, rfl⟩ := path_of_ofText? hk
      obtain ⟨hbelow, _, hkeys⟩ := addSegments_paths hs
      rw [ih, ihbelow, hkeys, hbelow, onTheWay_cons_iff, onTheWay_path_iff, or_assoc, or_assoc, or_assoc]
  | method hk _ hm _ ih =>
      obtain rfl := method_of_ofText? hk
      rw [ih, (addMethod_paths hm).1, onTheWay_cons_iff, or_iff_right not_onTheWay_verb]

/-- A verb is declared at a path below a place. -/
def DeclaredAt (place : Path) (entries : List (String × Node)) (key : Path × String) : Prop :=
  ∃ text verb, Declares entries text verb ∧ key = (⟨place.segments ++ (Path.ofText text).segments⟩, verb)

theorem declaredAt_cons_iff {place : Path} {e : String × Node} {entries : List (String × Node)}
    {key : Path × String} :
    DeclaredAt place (e :: entries) key ↔ DeclaredAt place [e] key ∨ DeclaredAt place entries key := by
  have hd (text verb : String) :
      Declares (e :: entries) text verb ↔ Declares [e] text verb ∨ Declares entries text verb :=
    declares_cons_iff
  simp only [DeclaredAt, hd, or_and_right, exists_or]

theorem not_declaredAt_null {place : Path} {name : String} {key : Path × String} :
    ¬ DeclaredAt place [(name, .null)] key := by
  rintro ⟨text, verb, hd, _⟩
  cases hd with
  | here h hv => exact hv (Prod.mk.inj (List.mem_singleton.mp h)).2
  | deeper h _ => cases (Prod.mk.inj (List.mem_singleton.mp h)).2

theorem declaredAt_verb_iff {place : Path} {verb : String} {body : Node} (hv : body ≠ .null)
    {key : Path × String} : DeclaredAt place [("$" ++ verb, body)] key ↔ key = (place, capital verb) := by
  constructor
  · rintro ⟨text, v, hd, rfl⟩
    cases hd with
    | here h _ =>
        have he := congrArg String.toList (Prod.mk.inj (List.mem_singleton.mp h)).1
        rw [String.toList_append, String.toList_append, List.append_cancel_left_eq, String.toList_inj] at he
        rw [he]
        exact Prod.ext (congrArg Path.mk (List.append_nil _)) rfl
    | deeper h _ => exact absurd (Prod.mk.inj (List.mem_singleton.mp h)).1 (slash_ne_dollar _ _)
  · rintro rfl
    exact ⟨"", _, .here List.mem_cons_self hv, Prod.ext (congrArg Path.mk (List.append_nil _).symm) rfl⟩

theorem declaredAt_path_iff {place : Path} {rest : String} {tree : List (String × Node)} {key : Path × String} :
    DeclaredAt place [("/" ++ rest, .map tree)] key ↔
      DeclaredAt ⟨place.segments ++ (Path.ofText ("/" ++ rest)).segments⟩ tree key := by
  constructor
  · rintro ⟨text, verb, hd, rfl⟩
    cases hd with
    | here h _ => exact absurd (Prod.mk.inj (List.mem_singleton.mp h)).1.symm (slash_ne_dollar _ _)
    | deeper h hd =>
        obtain ⟨hk, ht⟩ := Prod.mk.inj (List.mem_singleton.mp h)
        obtain rfl := Node.map.inj ht
        refine ⟨_, verb, hd, ?_⟩
        rw [hd.segments, hk, List.append_assoc]
  · rintro ⟨text, verb, hd, rfl⟩
    refine ⟨_, verb, .deeper List.mem_cons_self hd, ?_⟩
    rw [hd.segments, List.append_assoc]

/-- The methods that there are after a level of the tree was gone through. -/
theorem Draws.mem_methods {b b' : Builder} {place : Place} {entries : List (String × Node)}
    (h : Draws b place entries b') {key : Path × String} :
    key ∈ Table.keys b'.registry.methods ↔
      key ∈ Table.keys b.registry.methods ∨ DeclaredAt place.path entries key := by
  induction h with
  | nil =>
      refine ⟨.inl, fun h => h.resolve_right ?_⟩
      rintro ⟨_, _, hd, _⟩
      cases hd with
      | here h _ => cases h
      | deeper h _ => cases h
  | null _ ih => rw [ih, declaredAt_cons_iff, or_iff_right not_declaredAt_null]
  | path hk hs _ _ ihbelow ih =>
      obtain ⟨rest, rfl, rfl⟩ := path_of_ofText? hk
      obtain ⟨hbelow, hm, _⟩ := addSegments_paths hs
      rw [ih, ihbelow, hm, hbelow, declaredAt_cons_iff, declaredAt_path_iff, or_assoc]
  | method hk hv hm _ ih =>
      obtain rfl := method_of_ofText? hk
      rw [ih, (addMethod_paths hm).2, declaredAt_cons_iff, declaredAt_verb_iff hv, List.mem_append,
        List.mem_singleton, or_assoc]

end Builder

/-! ## The definitions of the tree -/

namespace Registry

/-- How a path is referred to: the root by an attribute of the container, any other by its resource. -/
inductive Refers (r : Registry) : Path → Node → Prop
  | root : Refers r Path.root (.attributeOf r.api rootAttribute)
  | resource {path : Path} {id : String} (hp : path ≠ Path.root)
      (h : Table.get? r.resources path = some id) : Refers r path (.refTo id)

/-- The definition of a path, which is the last segment below the path's parent. -/
structure ResourceAt (r : Registry) (e : Path × String) (d : Definition) : Prop where
  id : d.id = e.2
  place : ∃ parent segment ref, e.1 = parent.child segment ∧ r.Refers parent ref ∧
    Table.get? d.properties "PathPart" = some (.text segment) ∧
    Table.get? d.properties "ParentId" = some ref

/-- The definition of a verb at a path. -/
structure MethodAt (r : Registry) (e : (Path × String) × String) (d : Definition) : Prop where
  id : d.id = e.2
  verb : Table.get? d.properties "HttpMethod" = some (.text e.1.2)
  place : ∃ ref, r.Refers e.1.1 ref ∧ Table.get? d.properties "ResourceId" = some ref

/-- The definitions with a type. -/
def typed (type : String) (ds : List Definition) : List Definition := ds.filter fun d => d.type = type

/-- The registered paths and verbs have one definition each, in the same order. -/
structure Drawn (r : Registry) (ds : List Definition) : Prop where
  resources : List.Forall₂ (ResourceAt r) r.resources (typed resourceType ds)
  methods : List.Forall₂ (MethodAt r) r.methods (typed methodType ds)

theorem typed_append_of_eq {type : String} {d : Definition} (ds : List Definition) (h : d.type = type) :
    typed type (ds ++ [d]) = typed type ds ++ [d] := by
  rw [typed, List.filter_append, List.filter_singleton, decide_eq_true h]
  rfl

theorem typed_append_of_ne {type : String} {d : Definition} (ds : List Definition) (h : d.type ≠ type) :
    typed type (ds ++ [d]) = typed type ds := by
  rw [typed, List.filter_append, List.filter_singleton, decide_eq_false h]
  exact List.append_nil _

/-- The api stays, and a path keeps its resource. -/
structure Extends (r r' : Registry) : Prop where
  api : r'.api = r.api
  resources : ∀ path id, Table.get? r.resources path = some id → Table.get? r'.resources path = some id

namespace Extends
variable {r r' : Registry}

theorem refers (h : Extends r r') {path : Path} {ref : Node} (hr : r.Refers path ref) : r'.Refers path ref := by
  cases hr with
  | root => exact h.api ▸ .root
  | resource hp hg => exact .resource hp (h.resources _ _ hg)

theorem resourceAt (h : Extends r r') {e : Path × String} {d : Definition} (hr : r.ResourceAt e d) :
    r'.ResourceAt e d := by
  obtain ⟨hid, parent, segment, ref, he, href, hpart, hparent⟩ := hr
  exact ⟨hid, parent, segment, ref, he, h.refers href, hpart, hparent⟩

theorem methodAt (h : Extends r r') {e : (Path × String) × String} {d : Definition} (hm : r.MethodAt e d) :
    r'.MethodAt e d := by
  obtain ⟨hid, hverb, ref, href, hplace⟩ := hm
  exact ⟨hid, hverb, ref, h.refers href, hplace⟩

theorem drawn (h : Extends r r') {ds : List Definition} (hd : Drawn r ds)
    (hr : r'.resources = r.resources) (hm : r'.methods = r.methods) : Drawn r' ds where
  resources := hr ▸ hd.resources.imp fun _ _ => h.resourceAt
  methods := hm ▸ hd.methods.imp fun _ _ => h.methodAt

end Extends

namespace Drawn
variable {r : Registry} {ds : List Definition}

theorem withCondition (h : Drawn r ds) (condition : Option String) :
    Drawn r (ds.map fun (d : Definition) => d.withCondition condition) := by
  have htyped (type : String) : typed type (ds.map fun (d : Definition) => d.withCondition condition) =
      (typed type ds).map fun (d : Definition) => d.withCondition condition :=
    List.filter_map
  constructor
  · rw [htyped, List.forall₂_map_right_iff]
    exact h.resources.imp fun _ _ hr => ⟨hr.id, hr.place⟩
  · rw [htyped, List.forall₂_map_right_iff]
    exact h.methods.imp fun _ _ hm => ⟨hm.id, hm.verb, hm.place⟩

/-- A definition of another type. -/
theorem addOther (h : Drawn r ds) {d : Definition} (hr : d.type ≠ resourceType) (hm : d.type ≠ methodType) :
    Drawn r (ds ++ [d]) where
  resources := typed_append_of_ne ds hr ▸ h.resources
  methods := typed_append_of_ne ds hm ▸ h.methods

/-- A path and its definition, which come last. -/
theorem addResource {r' : Registry} (h : Drawn r ds) (hx : Extends r r') {e : Path × String} {d : Definition}
    (ht : d.type = resourceType) (he : r'.ResourceAt e d) (hr : r'.resources = r.resources ++ [e])
    (hm : r'.methods = r.methods) : Drawn r' (ds ++ [d]) := by
  have hne : d.type ≠ methodType := by rw [ht]; decide
  constructor
  · rw [hr, typed_append_of_eq ds ht]
    exact List.rel_append (h.resources.imp fun _ _ => hx.resourceAt) (.cons he .nil)
  · rw [hm, typed_append_of_ne ds hne]
    exact h.methods.imp fun _ _ => hx.methodAt

/-- A verb and its definition, which come last. -/
theorem addMethod {r' : Registry} (h : Drawn r ds) (hx : Extends r r') {e : (Path × String) × String}
    {d : Definition} (ht : d.type = methodType) (he : r'.MethodAt e d) (hr : r'.resources = r.resources)
    (hm : r'.methods = r.methods ++ [e]) : Drawn r' (ds ++ [d]) := by
  have hne : d.type ≠ resourceType := by rw [ht]; decide
  constructor
  · rw [hr, typed_append_of_ne ds hne]
    exact h.resources.imp fun _ _ => hx.resourceAt
  · rw [hm, typed_append_of_eq ds ht]
    exact List.rel_append (h.methods.imp fun _ _ => hx.methodAt) (.cons he .nil)

end Drawn
end Registry

namespace Builder

theorem Knows.refers {b : Builder} {place : Place} (h : b.Knows place) :
    b.registry.Refers place.path (b.placeRef place) := by
  cases h with
  | root => exact .root
  | resource hp hg => exact .resource hp hg

theorem Step.drawn {b b' : Builder} (hs : Step b b') (h : b.registry.Drawn b.definitions) :
    b'.registry.Drawn b'.definitions := by
  have he : Registry.Extends b.registry b'.registry := ⟨hs.api, fun _ _ => hs.resources⟩
  cases hs with
  | claim _ => exact he.drawn h rfl rfl
  | other hs =>
      rw [hs.registry, hs.definitions]
      exact h
  | @part part registry d hp _ _ =>
      have ht := hp.type
      cases hp with
      | authorizer _ | model _ | validator _ _ =>
          rw [ApiPart.type] at ht
          exact (he.drawn h rfl rfl).addOther (by rw [ht]; decide) (by rw [ht]; decide)
      | resource hplace hn hd =>
          refine h.addResource he ht ⟨rfl, _, _, _, rfl, he.refers hplace.refers, ?_, ?_⟩ rfl rfl
          · rw [hd]; rfl
          · rw [hd]; rfl
      | method hplace hn _ hv hr =>
          exact h.addMethod he ht ⟨rfl, hv, _, he.refers hplace.refers, hr⟩ rfl rfl

theorem Grows.drawn {b b' : Builder} (hg : Grows b b') (h : b.registry.Drawn b.definitions) :
    b'.registry.Drawn b'.definitions := by
  induction hg with
  | refl => exact h
  | tail _ hs ih => exact hs.drawn ih

/-- The deployment is not among the parts that are added in steps. -/
theorem Step.not_deployment {b b' : Builder} (hs : Step b b')
    (h : ∀ d ∈ b.definitions, d.type ≠ deploymentType) : ∀ d ∈ b'.definitions, d.type ≠ deploymentType := by
  cases hs with
  | claim _ => exact h
  | other hs => exact hs.definitions ▸ h
  | part hp _ _ =>
      intro d hd
      rcases List.mem_append.mp hd with hd | hd
      · exact h d hd
      · rw [List.mem_singleton.mp hd, hp.type]
        cases hp <;> simp only [ApiPart.type] <;> decide

theorem Grows.not_deployment {b b' : Builder} (hg : Grows b b')
    (h : ∀ d ∈ b.definitions, d.type ≠ deploymentType) : ∀ d ∈ b'.definitions, d.type ≠ deploymentType := by
  induction hg with
  | refl => exact h
  | tail _ hs ih => exact hs.not_deployment ih

/-! ## The whole declaration -/

theorem mem_treeOf_iff {declaration value : Node} {key : String} (hk : isTreeKey key = true) :
    (key, value) ∈ treeOf declaration ↔ (key, value) ∈ declaration.entries := by
  have hown : key ∉ ownKeys := by
    intro hm
    have : ∀ own ∈ ownKeys, isTreeKey own = false := by decide
    rw [this key hm] at hk
    cases hk
  rw [treeOf, List.mem_filter, restOf, Table.mem_foldl_erase hown]
  exact and_iff_left hk

theorem spells_treeOf_iff {declaration : Node} {text : String} :
    Spells (treeOf declaration) text ↔ Spells declaration.entries text := by
  have hkey : ∀ rest, isTreeKey ("/" ++ rest) = true := fun rest => by
    simp [isTreeKey, TreeKey.ofText?]
  constructor
  · intro h
    cases h with
    | here h hv => exact .here ((mem_treeOf_iff (hkey _)).mp h) hv
    | deeper h hs => exact .deeper ((mem_treeOf_iff (hkey _)).mp h) hs
  · intro h
    cases h with
    | here h hv => exact .here ((mem_treeOf_iff (hkey _)).mpr h) hv
    | deeper h hs => exact .deeper ((mem_treeOf_iff (hkey _)).mpr h) hs

theorem declares_treeOf_iff {declaration : Node} {text verb : String} :
    Declares (treeOf declaration) text verb ↔ Declares declaration.entries text verb := by
  have hpath : ∀ rest, isTreeKey ("/" ++ rest) = true := fun rest => by
    simp [isTreeKey, TreeKey.ofText?]
  have hverb : ∀ verb, isTreeKey ("$" ++ verb) = true := fun verb => by
    simp [isTreeKey, TreeKey.ofText?]
  constructor
  · intro h
    cases h with
    | here h hv => exact .here ((mem_treeOf_iff (hverb _)).mp h) hv
    | deeper h hd => exact .deeper ((mem_treeOf_iff (hpath _)).mp h) hd
  · intro h
    cases h with
    | here h hv => exact .here ((mem_treeOf_iff (hverb _)).mpr h) hv
    | deeper h hd => exact .deeper ((mem_treeOf_iff (hpath _)).mpr h) hd

theorem onTheWay_root_iff {declaration : Node} {path : Path} :
    OnTheWay Path.root (treeOf declaration) path ↔
      path ≠ Path.root ∧ ∃ text, Spells declaration.entries text ∧
        path.segments <+: (Path.ofText text).segments := by
  have hroot : path = Path.root ↔ path.segments = [] := by
    cases path
    simp [Path.root]
  constructor
  · rintro ⟨text, hs, down, hne, hp, he⟩
    obtain rfl : path.segments = down := he
    exact ⟨fun h => hne (hroot.mp h), text, spells_treeOf_iff.mp hs, hp⟩
  · rintro ⟨hne, text, hs, hp⟩
    exact ⟨text, spells_treeOf_iff.mpr hs, path.segments, fun h => hne (hroot.mpr h), hp, rfl⟩

theorem declaredAt_root_iff {declaration : Node} {path : Path} {verb : String} :
    DeclaredAt Path.root (treeOf declaration) (path, verb) ↔
      ∃ text, Declares declaration.entries text verb ∧ path = Path.ofText text := by
  constructor
  · rintro ⟨text, v, hd, he⟩
    obtain ⟨rfl, rfl⟩ := Prod.mk.inj he
    exact ⟨text, declares_treeOf_iff.mp hd, rfl⟩
  · rintro ⟨text, hd, rfl⟩
    exact ⟨text, verb, declares_treeOf_iff.mpr hd, rfl⟩

/-- The ids of the methods in the order of their characters, each once. -/
theorem methodIds_spec {b : Builder} (h : b.registry.ids.Nodup) :
    b.methodIds.Perm (b.registry.methods.map Prod.snd) ∧ b.methodIds.Pairwise (· < ·) := by
  have hp : b.methodIds.Perm (b.registry.methods.map Prod.snd) := List.mergeSort_perm _ _
  have hn : (b.registry.methods.map Prod.snd).Nodup := by
    simp only [Registry.ids, List.nodup_cons, List.nodup_append] at h
    tauto
  have hle : b.methodIds.Pairwise (· ≤ ·) := by
    refine (List.pairwise_mergeSort (fun a b c => ?_) (fun a b => ?_) _).imp of_decide_eq_true
    · simpa only [decide_eq_true_eq] using String.le_trans
    · simpa only [Bool.or_eq_true, decide_eq_true_eq] using String.le_total a b
  exact ⟨hp, hle.imp₂ (fun _ _ => Std.lt_of_le_of_ne) (hp.nodup_iff.mpr hn)⟩

end Builder

/-- The definitions of an API mirror its declaration. -/
structure Mirrors (declaration : Node) (r : Registry) (ds : List Definition) : Prop where
  /-- The paths are those on the way to a path that is spelled, but for the root. -/
  paths : ∀ path, path ∈ Table.keys r.resources ↔ path ≠ Path.root ∧
    ∃ text, Spells declaration.entries text ∧ path.segments <+: (Path.ofText text).segments
  pathsOnce : (Table.keys r.resources).Nodup
  /-- The verbs are those that are declared. -/
  verbs : ∀ path verb, (path, verb) ∈ Table.keys r.methods ↔
    ∃ text, Declares declaration.entries text verb ∧ path = Path.ofText text
  verbsOnce : (Table.keys r.methods).Nodup
  drawn : r.Drawn ds
  deployment : ∃ before last, ds = before ++ [last] ∧ last.type = deploymentType ∧
    (∀ d ∈ before, d.type ≠ deploymentType) ∧ last.dependsOn.Perm (r.methods.map Prod.snd) ∧
    last.dependsOn.Pairwise (· < ·)
  condition : ∀ d ∈ ds, d.condition = Builder.conditionOf declaration

namespace Builder

theorem drawn_container (api : String) (props : Table Node) :
    (container api props).registry.Drawn (container api props).definitions :=
  ⟨.nil, .nil⟩

theorem mirrors_of_expand {api : String} (ha : IsId api) {digestLength : Nat} {declaration : Node}
    {registry : Registry} {ds : List Definition}
    (h : expand api digestLength declaration = .ok (registry, ds)) : Mirrors declaration registry ds := by
  obtain ⟨b₁, b₂, b₃, b₄, b₅, _, h₁, h₂, h₃, h₄, _, h₅, rfl, rfl⟩ := expand_eq_ok h
  have hc := sound_container ha (containerProps api declaration)
  obtain ⟨-, hg⟩ := grows_of_parts ha h₁ h₂ h₃ h₄
  have hn := names_of_parts h₁ h₂ h₃
  have hm := hg.matches hc (matches_container api (containerProps api declaration))
  have hk := hg.distinctKeys (distinctKeys_container api (containerProps api declaration))
  have hd := hg.drawn (drawn_container api (containerProps api declaration))
  have hlast := hg.not_deployment (b := container api (containerProps api declaration)) (by
    intro d hmem
    rw [List.mem_singleton.mp hmem]
    show containerType ≠ deploymentType
    decide)
  have hids := methodIds_spec hm.ids
  obtain ⟨base, props, _, rfl⟩ := addDeployment_eq_ok h₅
  have hdrawn {r : Registry} {d : Definition} (ht : d.type = deploymentType)
      (hapi : r.api = b₄.registry.api) (hr : r.resources = b₄.registry.resources)
      (hm : r.methods = b₄.registry.methods) :
      r.Drawn ((b₄.definitions.map fun (d : Definition) => d.withCondition (conditionOf declaration)) ++ [d]) :=
    Registry.Extends.drawn ⟨hapi, fun _ _ hget => hr ▸ hget⟩
      ((hd.withCondition _).addOther (by rw [ht]; decide) (by rw [ht]; decide)) hr hm
  refine
    { paths := fun path => ?_
      pathsOnce := hk.resources
      verbs := fun path verb => ?_
      verbsOnce := hk.methods
      drawn := hdrawn rfl rfl rfl rfl
      deployment := ⟨_, _, rfl, rfl, fun d hd => ?_, hids⟩
      condition := fun d hd => ?_ }
  · show path ∈ Table.keys b₄.registry.resources ↔ _
    rw [h₄.mem_resources, hn.resources, or_iff_right (by exact List.not_mem_nil)]
    exact onTheWay_root_iff
  · show (path, verb) ∈ Table.keys b₄.registry.methods ↔ _
    rw [h₄.mem_methods, hn.methods, or_iff_right (by exact List.not_mem_nil)]
    exact declaredAt_root_iff
  · obtain ⟨d, hmem, rfl⟩ := List.mem_map.mp hd
    exact hlast d hmem
  · rcases List.mem_append.mp hd with hd | hd
    · obtain ⟨_, _, rfl⟩ := List.mem_map.mp hd
      rfl
    · rw [List.mem_singleton.mp hd]

end Builder
end Api

namespace Apis

/-- Every API of an accepted section has its definitions in one stretch, and they mirror its declaration. -/
theorem mirrors_of_expandSection {apis : Apis} {entries : List (String × Node)} {ds : List Definition}
    (h : (apis.expandSection (.map entries)).1 = .ok ds) {api : String} {declaration : Node}
    (hd : (api, declaration) ∈ entries) :
    ∃ registry before part after, ds = before ++ part ++ after ∧
      Table.get? (apis.expandSection (.map entries)).2.table api = some registry ∧
      Api.Builder.expand api apis.digestLength declaration = .ok (registry, part) ∧
      registry.api = api ∧ Api.Mirrors declaration registry part := by
  obtain ⟨ha, registry, before, part, after, he, hg, hx⟩ := expand_of_declareAll (Prod.ext h rfl) hd
  obtain ⟨b, rfl, rfl, hapi, _⟩ := Api.Builder.finished_of_expand ha hx
  exact ⟨_, before, _, after, he, hg, hx, hapi, Api.Builder.mirrors_of_expand ha hx⟩

/-- An API that spells one path in two ways. -/
def spelledTwice : Node :=
  .map [("Condition", .text "Live"), ("/v1/users", .map [("$get", .map [])]),
    ("/v1", .map [("/users/", .map [("$post", .map []), ("//", .map [("$put", .map [])])]), ("/old", .null)])]

theorem mirrors_spelledTwice :
    ∃ ds, (({ digestLength := 8 } : Apis).expandSection (.map [("Shop", spelledTwice)])).1 = .ok ds ∧
      ∃ registry before part after, ds = before ++ part ++ after ∧
        Table.get? (({ digestLength := 8 } : Apis).expandSection (.map [("Shop", spelledTwice)])).2.table
          "Shop" = some registry ∧
        Api.Mirrors spelledTwice registry part := by
  obtain ⟨ds, h⟩ := Outcome.exists_of_isOk
    (show (({ digestLength := 8 } : Apis).expandSection (.map [("Shop", spelledTwice)])).1.isOk = true by
      decide +kernel)
  obtain ⟨registry, before, part, after, he, hg, _, _, hm⟩ :=
    mirrors_of_expandSection h List.mem_cons_self
  exact ⟨ds, h, registry, before, part, after, he, hg, hm⟩

end Apis
end Shorthand
