import Shorthand.Proofs.Api.Lookup
import Shorthand.Proofs.Suffix

/-!
# The grammar of references to APIs

A reference is put together of its parts by a grammar. The texts that are read are the sentences of the grammar, each of
them has one reading, and what is read are its parts.
-/
namespace Shorthand

/-! ## The grammar -/

namespace ValidatorMode

/-- The words for a mode. -/
def words : ValidatorMode → List String
  | body => ["body"]
  | params => ["params", "parameters"]
  | all => ["all", "both", "body-and-params"]

/-- A word for the mode, in small letters or capitals. -/
def Spells (mode : ValidatorMode) (text : String) : Prop :=
  ∃ word ∈ mode.words, text.toList.map Char.toLower = word.toList

end ValidatorMode

namespace ApiReference

/-- The parts of an API that a reference names, other than the API itself. -/
inductive Kind
  | authorizer
  | model
  | validator
  | resource
  | method
  | deployment

def Kind.name : Kind → String
  | authorizer => "Authorizer"
  | model => "Model"
  | validator => "Validator"
  | resource => "Resource"
  | method => "Method"
  | deployment => "Deployment"

/-- What a reference is put together of: an id, a kind with its lookup, and an attribute. -/
structure Sentence where
  api : String
  part : Option (Kind × Option String)
  attr : Option String

/-- A text after a sign, if there is one. -/
def signed (sign : String) : Option String → String
  | some text => sign ++ text
  | none => ""

def Sentence.text (s : Sentence) : String :=
  lead ++ s.api ++ (s.part.elim "" fun part => ":" ++ part.1.name ++ signed "/" part.2) ++ signed "." s.attr

/-- The lookups that a kind takes. -/
inductive Takes : Kind → Option String → Prop
  | authorizer {name : String} (h : name ≠ "") : Takes .authorizer (some name)
  | model {name : String} (h : name ≠ "") : Takes .model (some name)
  | validator {mode : ValidatorMode} {word : String} (h : mode.Spells word) : Takes .validator (some word)
  | resource (lookup : Option String) : Takes .resource lookup
  | method {lookup : String} {segment : List Char} (hs : segment ∈ Text.split '/' lookup.toList)
      (hne : segment ≠ []) : Takes .method (some lookup)
  | deployment (lookup : Option String) : Takes .deployment lookup

/-- A sentence of the grammar. -/
structure Sentence.Proper (s : Sentence) : Prop where
  api : s.api ≠ "" ∧ IsWord s.api
  takes : ∀ kind lookup, s.part = some (kind, lookup) → Takes kind lookup
  lookup : ∀ kind lookup, s.part = some (kind, some lookup) → '.' ∉ lookup.toList
  attr : ∀ a, s.attr = some a → a ≠ "" ∧ IsAttribute a

/-- What a kind and its lookup stand for. -/
inductive StandsFor : Option (Kind × Option String) → ApiPart → Prop
  | container : StandsFor none .container
  | authorizer (name : String) : StandsFor (some (.authorizer, some name)) (.authorizer name)
  | model (name : String) : StandsFor (some (.model, some name)) (.model name)
  | validator {mode : ValidatorMode} {word : String} (h : mode.Spells word) :
      StandsFor (some (.validator, some word)) (.validator mode)
  | resource (lookup : Option String) :
      StandsFor (some (.resource, lookup)) (.resource (Path.decode (lookup.getD "")))
  | method {lookup init verb : String} (hd : (Path.decode lookup).text = init ++ "/" ++ verb)
      (hne : verb ≠ "") (hs : '/' ∉ verb.toList) :
      StandsFor (some (.method, some lookup)) (.method (Path.ofText init) (Api.Builder.capital verb))
  | deployment (lookup : Option String) : StandsFor (some (.deployment, lookup)) .deployment

/-- A reference has the id and the attribute of a sentence, and the part that the sentence stands for. -/
structure Sentence.Reads (s : Sentence) (ref : ApiReference) : Prop where
  api : ref.api = s.api
  part : StandsFor s.part ref.part
  attr : ref.attr = s.attr

/-! ## Spellings -/

namespace Spelling

/-- The characters after the beginning of every reference. -/
def chars (s : Spelling) : List Char :=
  s.api ++ ((s.kind.elim [] fun kind => ':' :: (kind ++ s.lookup.elim [] fun lookup => '/' :: lookup)) ++
    s.attr.elim [] fun attr => '.' :: attr)

/-- The parts are such as the signs between them cut out of a text. -/
structure Formed (s : Spelling) : Prop where
  api : s.api ≠ [] ∧ ∀ c ∈ s.api, c.isAlphanum = true
  kind : ∀ kind, s.kind = some kind → kind ≠ [] ∧ ∀ c ∈ kind, c.isAlpha = true
  lookup : ∀ lookup, s.lookup = some lookup → s.kind ≠ none ∧ '.' ∉ lookup
  attr : ∀ attr, s.attr = some attr → attr ≠ [] ∧ ∀ c ∈ attr, isAttributeChar c = true

theorem Formed.ending? {s : Spelling} (h : s.Formed) :
    ApiReference.ending? (s.attr.elim [] fun attr => '.' :: attr) = some s.attr :=
  ending?_eq_some_iff.mpr ⟨rfl, h.attr⟩

theorem head?_ending (attr : Option (List Char)) {p : Char → Bool} (hp : p '.' = false) :
    ∀ b, (attr.elim [] fun attr => '.' :: attr).head? = some b → p b = false := by
  cases attr with
  | none => exact fun b hb => by cases hb
  | some attr => exact fun b hb => Option.some.inj hb ▸ hp

end Spelling

/-- What is cut from the text are the parts that make it. -/
theorem formed_of_spelling? {text : String} {s : Spelling} (h : spelling? text = some s) :
    text.toList = lead.toList ++ s.chars ∧ s.Formed := by
  obtain ⟨cs, hcs, h⟩ := Option.bind_eq_some_iff.mp h
  rw [Text.after?_eq_some_iff.mp hcs, List.append_cancel_left_eq]
  have hapi : ∀ c ∈ cs.takeWhile Char.isAlphanum, c.isAlphanum = true := fun _ hc => List.mem_takeWhile_imp hc
  have hcut : cs.takeWhile Char.isAlphanum ++ cs.dropWhile Char.isAlphanum = cs := List.takeWhile_append_dropWhile
  simp only at h
  split at h
  · cases h
  · rename_i hne
    rw [List.isEmpty_iff] at hne
    split at h
    · rename_i rest hrest
      have hkind : ∀ c ∈ rest.takeWhile Char.isAlpha, c.isAlpha = true := fun _ hc => List.mem_takeWhile_imp hc
      have hcut' : rest.takeWhile Char.isAlpha ++ rest.dropWhile Char.isAlpha = rest :=
        List.takeWhile_append_dropWhile
      split at h
      · cases h
      · rename_i hkne
        rw [List.isEmpty_iff] at hkne
        split at h
        · rename_i lookup hlookup
          obtain ⟨attr, hattr, he⟩ := Option.bind_eq_some_iff.mp h
          obtain rfl := Option.some.inj he
          obtain ⟨hending, hall⟩ := ending?_eq_some_iff.mp hattr
          have hpoint : '.' ∉ lookup.takeWhile (· != '.') := fun hm => by simpa using List.mem_takeWhile_imp hm
          refine ⟨?_, ⟨hne, hapi⟩, fun _ he => Option.some.inj he ▸ ⟨hkne, hkind⟩, by simpa using hpoint, hall⟩
          simp only [Spelling.chars, Option.elim_some, List.cons_append, List.append_assoc, ← hending,
            List.takeWhile_append_dropWhile, ← hlookup, ← hrest]
        · obtain ⟨attr, hattr, he⟩ := Option.bind_eq_some_iff.mp h
          obtain rfl := Option.some.inj he
          obtain ⟨hending, hall⟩ := ending?_eq_some_iff.mp hattr
          refine ⟨?_, ⟨hne, hapi⟩, fun _ he => Option.some.inj he ▸ ⟨hkne, hkind⟩, by simp, hall⟩
          simp only [Spelling.chars, Option.elim_some, Option.elim_none, List.cons_append, List.append_assoc,
            List.nil_append, ← hending, List.takeWhile_append_dropWhile, ← hrest]
    · obtain ⟨attr, hattr, he⟩ := Option.bind_eq_some_iff.mp h
      obtain rfl := Option.some.inj he
      obtain ⟨hending, hall⟩ := ending?_eq_some_iff.mp hattr
      refine ⟨?_, ⟨hne, hapi⟩, by simp, by simp, hall⟩
      simp only [Spelling.chars, Option.elim_none, List.nil_append, ← hending, List.takeWhile_append_dropWhile]

theorem Spelling.Formed.spelling? {s : Spelling} (h : s.Formed) {text : String}
    (ht : text.toList = lead.toList ++ s.chars) : ApiReference.spelling? text = some s := by
  obtain ⟨api, kind, lookup, attr⟩ := s
  have hending := h.ending?
  have halnum := Spelling.head?_ending attr (p := Char.isAlphanum) (by decide)
  have halpha := Spelling.head?_ending attr (p := Char.isAlpha) (by decide)
  have hpoint := Spelling.head?_ending attr (p := (· != '.')) (by decide)
  have hapi : api.isEmpty = false := List.isEmpty_eq_false_iff.mpr h.api.1
  rw [ApiReference.spelling?, ht, Text.after?_append, Option.bind_eq_bind, Option.bind_some]
  cases kind with
  | none =>
      obtain rfl : lookup = none := by
        cases lookup with
        | none => rfl
        | some lookup => exact absurd rfl (h.lookup lookup rfl).1
      simp only [Spelling.chars, Option.elim_none, List.nil_append, hapi,
        Text.takeWhile_append_boundary h.api.2 halnum, Text.dropWhile_append_boundary h.api.2 halnum]
      cases attr <;> simp_all
  | some kind =>
      obtain ⟨hkne, hkind⟩ := h.kind kind rfl
      have hkne : kind.isEmpty = false := List.isEmpty_eq_false_iff.mpr hkne
      have hcolon : Char.isAlphanum ':' = false := by decide
      simp only [Spelling.chars, Option.elim_some, List.cons_append, List.append_assoc, hapi,
        Text.takeWhile_append_stop h.api.2 hcolon, Text.dropWhile_append_stop h.api.2 hcolon]
      cases lookup with
      | none =>
          simp only [Option.elim_none, List.nil_append, Text.takeWhile_append_boundary hkind halpha,
            Text.dropWhile_append_boundary hkind halpha, hkne]
          cases attr <;> simp_all
      | some lookup =>
          have hslash : Char.isAlpha '/' = false := by decide
          have hplain : ∀ c ∈ lookup, (c != '.') = true := fun c hc => by
            simpa using fun he : c = '.' => (h.lookup lookup rfl).2 (he ▸ hc)
          simp only [Option.elim_some, List.cons_append, Text.takeWhile_append_stop hkind hslash,
            Text.dropWhile_append_stop hkind hslash, hkne, Text.takeWhile_append_boundary hplain hpoint,
            Text.dropWhile_append_boundary hplain hpoint]
          simp_all

/-- A text is cut into a spelling just if the spelling is formed so that it makes the text. -/
theorem spelling?_eq_some_iff {text : String} {s : Spelling} :
    spelling? text = some s ↔ text.toList = lead.toList ++ s.chars ∧ s.Formed :=
  ⟨formed_of_spelling?, fun ⟨ht, hf⟩ => hf.spelling? ht⟩

/-! ## Sentences and spellings -/

theorem Kind.name_injective : Function.Injective Kind.name := by
  intro kind kind' h
  cases kind <;> cases kind' <;> first | rfl | exact absurd h (by decide)

theorem Kind.name_formed (kind : Kind) :
    kind.name.toList ≠ [] ∧ ∀ c ∈ kind.name.toList, c.isAlpha = true := by
  cases kind <;> simp [name]

namespace Sentence

def spelling (s : Sentence) : Spelling where
  api := s.api.toList
  kind := s.part.map fun part => part.1.name.toList
  lookup := s.part.bind fun part => part.2.map String.toList
  attr := s.attr.map String.toList

theorem spelling_injective : Function.Injective spelling := by
  rintro ⟨api, part, attr⟩ ⟨api', part', attr'⟩ h
  simp only [spelling, Spelling.mk.injEq, String.toList_inj] at h
  obtain ⟨rfl, hkind, hlookup, hattr⟩ := h
  obtain rfl := Option.map_injective (fun _ _ => String.toList_inj.mp) hattr
  cases part with
  | none =>
      obtain rfl : part' = none := Option.map_eq_none_iff.mp hkind.symm
      rfl
  | some part =>
      obtain ⟨part', rfl, hname⟩ := Option.map_eq_some_iff.mp hkind.symm
      have hname := Kind.name_injective (String.toList_inj.mp hname)
      have hlookup := Option.map_injective (fun _ _ => String.toList_inj.mp) hlookup
      rw [Prod.ext hname.symm hlookup]

theorem toList_text (s : Sentence) : s.text.toList = lead.toList ++ s.spelling.chars := by
  obtain ⟨api, part, attr⟩ := s
  rcases part with _ | ⟨kind, _ | lookup⟩ <;> cases attr <;> simp [text, signed, spelling, Spelling.chars]

theorem Proper.formed {s : Sentence} (h : s.Proper) : s.spelling.Formed := by
  refine ⟨⟨mt String.toList_eq_nil_iff.mp h.api.1, h.api.2⟩, fun cs hcs => ?_, fun cs hcs => ?_, fun cs hcs => ?_⟩
  · obtain ⟨part, _, rfl⟩ := Option.map_eq_some_iff.mp hcs
    exact part.1.name_formed
  · obtain ⟨⟨kind, lookup⟩, hp, hl⟩ := Option.bind_eq_some_iff.mp hcs
    obtain ⟨lookup, rfl, rfl⟩ := Option.map_eq_some_iff.mp hl
    exact ⟨by simp [spelling, hp], h.lookup kind lookup hp⟩
  · obtain ⟨attr, ha, rfl⟩ := Option.map_eq_some_iff.mp hcs
    exact ⟨mt String.toList_eq_nil_iff.mp (h.attr attr ha).1, (h.attr attr ha).2⟩

theorem Proper.spelling? {s : Sentence} (h : s.Proper) : ApiReference.spelling? s.text = some s.spelling :=
  spelling?_eq_some_iff.mpr ⟨s.toList_text, h.formed⟩

/-- A text is a sentence in one way. -/
theorem Proper.eq_of_text {s s' : Sentence} (h : s.Proper) (h' : s'.Proper) (ht : s.text = s'.text) : s = s' :=
  spelling_injective (Option.some.inj (h.spelling?.symm.trans (ht ▸ h'.spelling?)))

end Sentence

/-! ## Kinds and lookups -/

theorem ofMode?_eq_some_iff {text : String} {mode : ValidatorMode} :
    ValidatorMode.ofText? text = some mode ↔ mode.Spells text := by
  have hword : mode.Spells text ↔ String.ofList (text.toList.map Char.toLower) ∈ mode.words := by
    constructor
    · rintro ⟨word, hm, he⟩
      rwa [he, String.ofList_toList]
    · exact fun hm => ⟨_, hm, String.toList_ofList.symm⟩
  rw [hword, ValidatorMode.ofText?]
  generalize String.ofList (text.toList.map Char.toLower) = word
  split
  all_goals cases mode <;> simp_all [ValidatorMode.words]

/-- A lookup has a segment just if the path that it is decoded to has one. -/
theorem takes_method_iff {lookup : String} :
    Takes .method (some lookup) ↔ (Path.decode lookup).segments ≠ [] := by
  rw [ne_eq, Path.segments_decode_eq_nil_iff]
  constructor
  · rintro (_ | _ | _ | _ | @⟨_, segment, hs, hne⟩ | _) h
    obtain ⟨c, hc⟩ := List.exists_mem_of_ne_nil _ hne
    obtain ⟨hslash, hsub⟩ := Text.mem_split hs
    exact hslash (h c (hsub hc) ▸ hc)
  · intro h
    obtain ⟨c, hm, hc⟩ := by simpa using h
    obtain ⟨segment, hs, hcs⟩ := Text.exists_mem_split hm hc
    exact .method hs (List.ne_nil_of_mem hcs)

theorem standsFor_method_iff {lookup : String} {part : ApiPart} :
    StandsFor (some (.method, some lookup)) part ↔
      ∃ path verb, Path.decode lookup = path.child verb ∧ part = .method path (Api.Builder.capital verb) := by
  have hcut : (Path.decode lookup).Cut := Path.cut_ofChars _
  constructor
  · intro h
    cases h with
    | @method _ init verb hd hne hs =>
        refine ⟨Path.ofText init, verb, Path.eq_child_iff.mpr ?_, rfl⟩
        rw [← hcut.ofText_text, hd, String.append_assoc, Path.segments_append, Path.ofText_slash,
          Path.segments_ofChars_of_not_mem hne hs]
  · rintro ⟨path, verb, hd, rfl⟩
    rw [hd] at hcut
    obtain ⟨hne, hs⟩ := hcut verb (List.mem_append_right _ List.mem_cons_self)
    have hpath : path.Cut := fun s hm => hcut s (List.mem_append_left _ hm)
    have hinit : Path.ofText (if path = .root then "" else path.text) = path := by
      split
      · rename_i hroot
        exact hroot ▸ rfl
      · exact hpath.ofText_text
    have h := StandsFor.method (hd ▸ Path.text_child path verb) hne hs
    rwa [hinit] at h

theorem kind_of_partOf {text kind lookup : String} {part : ApiPart} (h : partOf text kind lookup = .ok part) :
    ∃ k : Kind, k.name = kind := by
  unfold partOf at h
  split at h
  · exact ⟨.authorizer, rfl⟩
  · exact ⟨.model, rfl⟩
  · exact ⟨.validator, rfl⟩
  · exact ⟨.resource, rfl⟩
  · exact ⟨.method, rfl⟩
  · exact ⟨.deployment, rfl⟩
  · cases h

theorem needed_eq_ok_iff {text name : String} {lookup : Option String} :
    needed text (lookup.getD "") = .ok name ↔ lookup = some name ∧ name ≠ "" := by
  unfold needed
  cases lookup with
  | none => simp
  | some lookup =>
      rw [Option.getD_some, Option.some.injEq]
      split
      · rename_i he
        simp [he, eq_comm]
      · rename_i hne
        exact ⟨fun h => ⟨Except.ok.inj h, Except.ok.inj h ▸ hne⟩, fun h => congrArg _ h.1⟩

theorem ne_empty_of_spells {mode : ValidatorMode} {word : String} (h : mode.Spells word) : word ≠ "" := by
  obtain ⟨w, hw, he⟩ := h
  rintro rfl
  obtain rfl : w = "" := String.toList_eq_nil_iff.mp he.symm
  cases mode <;> simp [ValidatorMode.words] at hw

/-- A kind with a lookup is accepted just if it takes it, as what the two stand for. -/
theorem partOf_name_iff {text : String} {kind : Kind} {lookup : Option String} {part : ApiPart} :
    partOf text kind.name (lookup.getD "") = .ok part ↔ Takes kind lookup ∧ StandsFor (some (kind, lookup)) part := by
  cases kind with
  | authorizer =>
      simp only [Kind.name, partOf, Outcome.map_eq_ok, needed_eq_ok_iff]
      constructor
      · rintro ⟨name, ⟨rfl, hne⟩, rfl⟩
        exact ⟨.authorizer hne, .authorizer name⟩
      · rintro ⟨ht, hs⟩
        cases ht with
        | authorizer hne =>
            cases hs
            exact ⟨_, ⟨rfl, hne⟩, rfl⟩
  | model =>
      simp only [Kind.name, partOf, Outcome.map_eq_ok, needed_eq_ok_iff]
      constructor
      · rintro ⟨name, ⟨rfl, hne⟩, rfl⟩
        exact ⟨.model hne, .model name⟩
      · rintro ⟨ht, hs⟩
        cases ht with
        | model hne =>
            cases hs
            exact ⟨_, ⟨rfl, hne⟩, rfl⟩
  | validator =>
      simp only [Kind.name, partOf, Outcome.bind_eq_ok, needed_eq_ok_iff]
      constructor
      · rintro ⟨word, ⟨rfl, hne⟩, h⟩
        split at h
        · rename_i mode hmode
          obtain rfl := Except.ok.inj h
          rw [ofMode?_eq_some_iff] at hmode
          exact ⟨.validator hmode, .validator hmode⟩
        · cases h
      · rintro ⟨-, ⟨⟩⟩
        rename_i mode word hm
        exact ⟨word, ⟨rfl, ne_empty_of_spells hm⟩, by rw [ofMode?_eq_some_iff.mpr hm]⟩
  | resource =>
      constructor
      · intro h
        obtain rfl := Except.ok.inj h
        exact ⟨.resource lookup, .resource lookup⟩
      · rintro ⟨-, ⟨⟩⟩
        rfl
  | method =>
      rw [Kind.name, partOf_method_iff]
      cases lookup with
      | none =>
          constructor
          · rintro ⟨path, verb, hd, -⟩
            have hnil : (path.child verb).segments = [] := hd ▸ rfl
            simp [Path.child] at hnil
          · rintro ⟨⟨⟩, -⟩
      | some lookup =>
          rw [takes_method_iff, standsFor_method_iff]
          refine (and_iff_right_of_imp ?_).symm
          rintro ⟨path, verb, hd, -⟩
          exact Path.eq_child_iff.mp hd ▸ List.append_ne_nil_of_right_ne_nil _ (List.cons_ne_nil _ _)
  | deployment =>
      constructor
      · intro h
        obtain rfl := Except.ok.inj h
        exact ⟨.deployment lookup, .deployment lookup⟩
      · rintro ⟨-, ⟨⟩⟩
        rfl

theorem Takes.standsFor {kind : Kind} {lookup : Option String} (h : Takes kind lookup) :
    ∃ part, StandsFor (some (kind, lookup)) part := by
  cases h with
  | authorizer _ => exact ⟨_, .authorizer _⟩
  | model _ => exact ⟨_, .model _⟩
  | validator h => exact ⟨_, .validator h⟩
  | resource => exact ⟨_, .resource _⟩
  | @method lookup _ hs hne =>
      have hsegments := takes_method_iff.mp (.method hs hne)
      obtain ⟨verb, hv⟩ := Option.isSome_iff_exists.mp (List.getLast?_isSome.mpr hsegments)
      obtain ⟨init, he⟩ := List.getLast?_eq_some_iff.mp hv
      exact ⟨_, standsFor_method_iff.mpr ⟨⟨init⟩, verb, Path.eq_child_iff.mpr he, rfl⟩⟩
  | deployment => exact ⟨_, .deployment _⟩

/-! ## Reading -/

/-- What a spelling is read as, said of the kind and the lookup in it. -/
def Spelling.part (s : Spelling) (text : String) : Except Error ApiPart :=
  s.kind.elim (.ok .container) fun kind => partOf text (String.ofList kind) (String.ofList (s.lookup.getD []))

theorem getD_map_ofList (lookup : Option (List Char)) :
    (lookup.map String.ofList).getD "" = String.ofList (lookup.getD []) := by
  cases lookup <;> rfl

/-- A spelling that is read is that of a kind which takes the lookup. -/
theorem Spelling.Formed.exists_part {s : Spelling} (h : s.Formed) {text : String} {read : ApiPart}
    (hp : s.part text = .ok read) : ∃ part : Option (Kind × Option String),
      s.kind = part.map (fun part => part.1.name.toList) ∧
      s.lookup = part.bind (fun part => part.2.map String.toList) ∧
      (∀ kind lookup, part = some (kind, lookup) → Takes kind lookup) ∧ StandsFor part read := by
  obtain ⟨api, kind, lookup, attr⟩ := s
  cases kind with
  | none =>
      obtain rfl : lookup = none := Option.eq_none_iff_forall_ne_some.mpr fun l hl => (h.lookup l hl).1 rfl
      obtain ⟨⟩ := Except.ok.inj hp
      exact ⟨none, rfl, rfl, fun _ _ hn => (by cases hn), .container⟩
  | some kind =>
      obtain ⟨k, hk⟩ := kind_of_partOf hp
      have hp : partOf text k.name ((lookup.map String.ofList).getD "") = .ok read := by
        rwa [hk, getD_map_ofList]
      obtain ⟨ht, hs⟩ := partOf_name_iff.mp hp
      refine ⟨some (k, lookup.map String.ofList), by simp [hk], by simp [Function.comp_def], ?_, hs⟩
      rintro _ _ ⟨⟩
      exact ht

theorem exists_sentence_of_parse {text : String} {ref : ApiReference} (h : parse text = .ok ref) :
    ∃ s : Sentence, s.Proper ∧ s.text = text ∧ s.Reads ref := by
  obtain ⟨⟨api, kind, lookup, attr⟩, hs, hapi, hattr, hpart⟩ := parse_eq_ok.mp h
  obtain ⟨htext, hf⟩ := spelling?_eq_some_iff.mp hs
  obtain ⟨part, rfl, rfl, htakes, hstands⟩ := hf.exists_part (hpart text)
  refine ⟨⟨String.ofList api, part, attr.map String.ofList⟩, ⟨?_, htakes, ?_, ?_⟩, ?_, ⟨hapi, hstands, hattr⟩⟩
  · rw [ne_eq, ← String.toList_eq_nil_iff, IsWord, String.toList_ofList]
    exact hf.api
  · rintro kind lookup rfl
    exact (hf.lookup lookup.toList rfl).2
  · intro a ha
    obtain ⟨cs, rfl, rfl⟩ := Option.map_eq_some_iff.mp ha
    rw [ne_eq, ← String.toList_eq_nil_iff, IsAttribute, String.toList_ofList]
    exact hf.attr cs rfl
  · rw [← String.toList_inj, Sentence.toList_text, htext]
    simp [Sentence.spelling, Function.comp_def]

theorem Sentence.Proper.exists_reads {s : Sentence} (h : s.Proper) : ∃ ref, s.Reads ref := by
  obtain ⟨api, part, attr⟩ := s
  cases part with
  | none => exact ⟨⟨api, .container, attr⟩, rfl, .container, rfl⟩
  | some part =>
      obtain ⟨read, hs⟩ := (h.takes part.1 part.2 rfl).standsFor
      exact ⟨⟨api, read, attr⟩, rfl, hs, rfl⟩

theorem Sentence.Proper.parse_eq_ok_iff {s : Sentence} (h : s.Proper) {ref : ApiReference} :
    parse s.text = .ok ref ↔ s.Reads ref := by
  constructor
  · intro hp
    obtain ⟨s', h', ht, hr⟩ := exists_sentence_of_parse hp
    exact h'.eq_of_text h ht ▸ hr
  · rintro ⟨hapi, hpart, hattr⟩
    refine parse_eq_ok.mpr ⟨s.spelling, h.spelling?, ?_, ?_, fun other => ?_⟩
    · rw [hapi, spelling, String.ofList_toList]
    · simp [hattr, spelling, Function.comp_def]
    · obtain ⟨api, part, attr⟩ := s
      cases part with
      | none =>
          simp only at hpart
          generalize ref.part = read at hpart ⊢
          cases hpart
          rfl
      | some part =>
          obtain ⟨kind, lookup⟩ := part
          have hread : partOf other kind.name (lookup.getD "") = .ok ref.part :=
            partOf_name_iff.mpr ⟨h.takes kind lookup rfl, hpart⟩
          cases lookup <;> simpa [spelling] using hread

/-- A text is read just if it is a sentence of the grammar, which it is in one way, and what is read are the parts of
the sentence. -/
theorem reads_iff_sentence (text : String) :
    ((∃ ref, parse text = .ok ref) ↔ ∃ s : Sentence, s.Proper ∧ s.text = text) ∧
      (∀ s s' : Sentence, s.Proper → s'.Proper → s.text = text → s'.text = text → s = s') ∧
      ∀ s : Sentence, s.Proper → s.text = text → ∀ ref, parse text = .ok ref ↔ s.Reads ref := by
  refine ⟨⟨?_, ?_⟩, ?_, ?_⟩
  · rintro ⟨ref, h⟩
    obtain ⟨s, hp, ht, -⟩ := exists_sentence_of_parse h
    exact ⟨s, hp, ht⟩
  · rintro ⟨s, hp, rfl⟩
    obtain ⟨ref, hr⟩ := hp.exists_reads
    exact ⟨ref, hp.parse_eq_ok_iff.mpr hr⟩
  · exact fun s s' hp hp' ht ht' => hp.eq_of_text hp' (ht.trans ht'.symm)
  · rintro s hp rfl ref
    exact hp.parse_eq_ok_iff

/-- A method below a path with a parameter, and one of its attributes. -/
def methodSentence : Sentence := ⟨"Shop", some (.method, some "users/%id%/get"), some "Arn"⟩

theorem reads_methodSentence :
    methodSentence.Proper ∧ methodSentence.text = "RestApi:Shop:Method/users/%id%/get.Arn" ∧
      (∀ s : Sentence, s.Proper → s.text = methodSentence.text → s = methodSentence) ∧
      parse methodSentence.text = .ok ⟨"Shop", .method ⟨["users", "\x7bid\x7d"]⟩ "GET", some "Arn"⟩ := by
  have hsegment : "users".toList ∈ Text.split '/' "users/%id%/get".toList := by decide
  have htakes : Takes .method (some "users/%id%/get") := .method hsegment (by decide)
  have hp : methodSentence.Proper := by
    refine ⟨⟨by decide, by decide⟩, ?_, ?_, ?_⟩
    · rintro _ _ ⟨⟩
      exact htakes
    · rintro _ _ ⟨⟩
      decide
    · rintro _ ⟨⟩
      exact ⟨by decide, List.all_eq_true.mp (by decide)⟩
  obtain ⟨-, hone, hreads⟩ := reads_iff_sentence methodSentence.text
  have hdecoded : (Path.decode "users/%id%/get").text = "/users/\x7bid\x7d" ++ "/" ++ "get" := by decide +kernel
  have hpath : Path.ofText "/users/\x7bid\x7d" = ⟨["users", "\x7bid\x7d"]⟩ := by decide +kernel
  have hstands : StandsFor (some (.method, some "users/%id%/get")) (.method ⟨["users", "\x7bid\x7d"]⟩ "GET") :=
    hpath ▸ .method hdecoded (by decide) (by decide)
  exact ⟨hp, by decide, fun s hs ht => hone s _ hs hp ht rfl, (hreads _ hp rfl _).mpr ⟨rfl, hstands, rfl⟩⟩

end ApiReference
end Shorthand
