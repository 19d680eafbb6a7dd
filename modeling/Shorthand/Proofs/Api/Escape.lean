import Mathlib.Data.List.Chain
import Shorthand.Proofs.Api.Lookup
import Shorthand.Proofs.Matrix.Lookup

/-!
# Paths with per cent signs for their braces

A path whose braces open and close in turn is decoded from the text with a per cent sign for each of them. So a
reference may be written either way, and is answered alike.
-/
namespace Shorthand

/-! ## Escaped texts -/

namespace Path

def IsBrace (c : Char) : Prop := c = '{' ∨ c = '}'

instance : DecidablePred IsBrace := fun c => inferInstanceAs (Decidable (c = '{' ∨ c = '}'))

def escapeChar (c : Char) : Char := if IsBrace c then '%' else c

/-- A text with a per cent sign for each brace. -/
def escaped (text : String) : String := String.ofList (text.toList.map escapeChar)

def braces (cs : List Char) : List Char := cs.filter fun c => IsBrace c

/-- The braces open and close in turn over the whole text, the first one opens, and there are no per cent signs. -/
structure Alternating (text : String) : Prop where
  percent : '%' ∉ text.toList
  first : ∀ c, (braces text.toList).head? = some c → c = '{'
  turns : (braces text.toList).IsChain (· ≠ ·)

/-- The brace that a per cent sign stands for. -/
def brace (opens : Bool) : Char := if opens then '{' else '}'

theorem isBrace_iff {c : Char} (opens : Bool) : IsBrace c ↔ c = brace opens ∨ c = brace (!opens) := by
  cases opens
  · exact or_comm
  · exact Iff.rfl

theorem decodeChars_percent (opens : Bool) (cs : List Char) :
    decodeChars opens ('%' :: cs) = brace opens :: decodeChars (!opens) cs := rfl

/-- The per cent signs for braces that come in turn are decoded to these braces. -/
theorem decodeChars_escaped (opens : Bool) {cs tail : List Char} (hc : '%' ∉ cs) (ht : '%' ∉ tail)
    (hfirst : ∀ c, (braces cs).head? = some c → c = brace opens) (hturns : (braces cs).IsChain (· ≠ ·)) :
    decodeChars opens (cs.map escapeChar ++ tail) = cs ++ tail := by
  induction cs generalizing opens with
  | nil => exact decodeChars_eq_self ht opens
  | cons c cs ih =>
      obtain ⟨hne, hcs⟩ := not_or.mp fun hm => hc (List.mem_cons.mpr hm)
      by_cases hb : IsBrace c
      · have hbraces : braces (c :: cs) = c :: braces cs := List.filter_cons_of_pos (by simpa using hb)
        rw [hbraces] at hfirst hturns
        obtain rfl := hfirst c rfl
        obtain ⟨hnext, hturns⟩ := List.isChain_cons.mp hturns
        have hflip : ∀ c, (braces cs).head? = some c → c = brace (!opens) := fun c hh => by
          have hbrace : IsBrace c := by simpa using (List.mem_filter.mp (List.mem_of_head? hh)).2
          exact ((isBrace_iff opens).mp hbrace).resolve_left (hnext c hh).symm
        rw [List.map_cons, escapeChar, if_pos hb, List.cons_append, decodeChars_percent, ih _ hcs hflip hturns,
          List.cons_append]
      · have hbraces : braces (c :: cs) = braces cs := List.filter_cons_of_neg (by simpa using hb)
        rw [hbraces] at hfirst hturns
        rw [List.map_cons, escapeChar, if_neg hb, List.cons_append, decodeChars, if_neg (Ne.symm hne),
          ih _ hcs hfirst hturns, List.cons_append]

namespace Alternating
variable {p : String} (h : Alternating p)
include h

/-- Whatever comes after a beginning of the text, the beginning is decoded to itself. -/
theorem decodeChars_beginning {cs tail : List Char} (hp : cs <+: p.toList) (ht : '%' ∉ tail) :
    decodeChars true (cs.map escapeChar ++ tail) = cs ++ tail ∧ decodeChars true (cs ++ tail) = cs ++ tail := by
  have hpercent : '%' ∉ cs := fun hm => h.percent (hp.subset hm)
  obtain ⟨rest, hrest⟩ : braces cs <+: braces p.toList := hp.filter _
  have hfirst : ∀ c, (braces cs).head? = some c → c = brace true := fun c hc =>
    h.first c (by rw [← hrest, List.head?_append, hc, Option.some_or])
  have hturns : (braces cs).IsChain (· ≠ ·) := (hrest ▸ h.turns).left_of_append
  exact ⟨decodeChars_escaped true hpercent ht hfirst hturns,
    decodeChars_eq_self (fun hm => (List.mem_append.mp hm).elim hpercent ht) true⟩

/-- Either spelling stands for the path, together with whatever comes after it. -/
theorem decode_append {q tail : String} (hq : q = p ∨ q = escaped p) (ht : '%' ∉ tail.toList) :
    decode (q ++ tail) = ofText (p ++ tail) := by
  obtain ⟨hescaped, hself⟩ := h.decodeChars_beginning List.prefix_rfl ht
  rw [ofText, decode, String.toList_append, String.toList_append]
  rcases hq with rfl | rfl
  · rw [hself]
  · rw [escaped, String.toList_ofList, hescaped]

theorem decode_eq {q : String} (hq : q = p ∨ q = escaped p) : decode q = ofText p := by
  simpa using h.decode_append hq (show '%' ∉ "".toList by simp)

end Alternating
end Path

/-! ## The same answer -/

/-- Both texts are answered with the same, or refused for the same reason, each under its own name. -/
inductive SameAnswer (text other : String) {α : Type} : Except Error α → Except Error α → Prop
  | ok (a : α) : SameAnswer text other (.ok a) (.ok a)
  | unknown (reason : String) :
      SameAnswer text other (.error (.unknownReference text reason)) (.error (.unknownReference other reason))

namespace SameAnswer
variable {text other : String} {α β : Type}

theorem bind {x y : Except Error α} (h : SameAnswer text other x y) {f g : α → Except Error β}
    (hf : ∀ a, SameAnswer text other (f a) (g a)) : SameAnswer text other (x >>= f) (y >>= g) := by
  cases h with
  | ok a => exact hf a
  | unknown reason => exact .unknown reason

theorem find (r : Api.Registry) (part : ApiPart) : SameAnswer text other (r.find text part) (r.find other part) := by
  have hknown (known : Option String) (reason : String) : SameAnswer text other
      (Api.Registry.find.known text known reason) (Api.Registry.find.known other known reason) := by
    cases known with
    | none => exact .unknown reason
    | some id => exact .ok _
  cases part with
  | container => exact .ok _
  | resource path =>
      simp only [Api.Registry.find]
      split
      · exact .ok _
      · exact hknown _ _
  | authorizer | validator | model | method | deployment => exact hknown _ _

theorem lookup {apis : Apis} (h : SameAnswer text other (ApiReference.parse text) (ApiReference.parse other)) :
    SameAnswer text other (apis.lookup text) (apis.lookup other) := by
  refine h.bind fun ref => ?_
  split
  · exact (find _ _).bind fun target => .ok _
  · exact .unknown _

end SameAnswer

/-! ## Lookups that are written either way -/

namespace Path

theorem escapeChar_eq_point_iff {c : Char} : escapeChar c = '.' ↔ c = '.' := by
  unfold escapeChar
  split
  · rename_i hb
    rcases hb with rfl | rfl <;> decide
  · rfl

theorem point_comp_escapeChar : (· != '.') ∘ escapeChar = (· != '.') := funext fun c => by
  rw [Function.comp_apply, Bool.eq_iff_iff, bne_iff_ne, bne_iff_ne, ne_eq, ne_eq, escapeChar_eq_point_iff]

theorem point_mem_escaped_iff {p : String} : '.' ∈ (escaped p).toList ↔ '.' ∈ p.toList := by
  rw [escaped, String.toList_ofList, List.mem_map]
  constructor
  · rintro ⟨c, hm, hc⟩
    exact escapeChar_eq_point_iff.mp hc ▸ hm
  · exact fun hm => ⟨'.', hm, rfl⟩

end Path

namespace ApiReference
open Shorthand.Path

theorem ending?_eq_none_of_mem {cs : List Char} {c : Char} (h : c ∈ cs) (hc : isAttributeChar c = false) :
    ending? cs = none := by
  refine Option.eq_none_iff_forall_ne_some.mpr fun attr ha => ?_
  obtain ⟨rfl, hall⟩ := ending?_eq_some_iff.mp ha
  cases attr with
  | none => cases h
  | some as =>
      rcases List.mem_cons.mp h with rfl | hm
      · exact absurd hc (by decide)
      · exact absurd ((hall as rfl).2 c hm) (by simp [hc])

/-- Neither a brace nor a per cent sign stands in an attribute. -/
theorem ending?_escaped (cs tail : List Char) : ending? (cs.map escapeChar ++ tail) = ending? (cs ++ tail) := by
  by_cases h : ∃ c ∈ cs, IsBrace c
  · obtain ⟨c, hm, hb⟩ := h
    have hescaped : escapeChar c ∈ cs.map escapeChar ++ tail := List.mem_append_left _ (List.mem_map_of_mem hm)
    rw [escapeChar, if_pos hb] at hescaped
    have hc : isAttributeChar c = false := by
      rcases hb with rfl | rfl <;> decide
    rw [ending?_eq_none_of_mem hescaped (by decide), ending?_eq_none_of_mem (List.mem_append_left _ hm) hc]
  · have hself : ∀ c ∈ cs, escapeChar c = c := fun c hm => if_neg fun hb => h ⟨c, hm, hb⟩
    rw [List.map_congr_left hself, List.map_id']

/-- The lookup goes up to the first point, be it in the path or after it, and is decoded alike. -/
theorem decode_takeWhile_escaped {p tail : String} (h : Alternating p) (ht : '%' ∉ tail.toList) :
    decodeChars true ((escaped p ++ tail).toList.takeWhile (· != '.')) =
      decodeChars true ((p ++ tail).toList.takeWhile (· != '.')) := by
  have htail : '%' ∉ tail.toList.takeWhile (· != '.') := fun hm => ht ((List.takeWhile_prefix _).subset hm)
  rw [String.toList_append, String.toList_append, escaped, String.toList_ofList, List.takeWhile_append,
    List.takeWhile_append, List.takeWhile_map, point_comp_escapeChar, List.length_map, List.length_map]
  split
  · obtain ⟨hescaped, hself⟩ := h.decodeChars_beginning List.prefix_rfl htail
    rw [hescaped, hself]
  · obtain ⟨hescaped, hself⟩ := h.decodeChars_beginning (List.takeWhile_prefix (· != '.')) List.not_mem_nil
    simp only [List.append_nil] at hescaped hself
    rw [hescaped, hself]

theorem ending?_dropWhile_escaped (p tail : String) : ending? ((escaped p ++ tail).toList.dropWhile (· != '.')) =
    ending? ((p ++ tail).toList.dropWhile (· != '.')) := by
  rw [String.toList_append, String.toList_append, escaped, String.toList_ofList, List.dropWhile_append,
    List.dropWhile_append, List.dropWhile_map, point_comp_escapeChar, List.isEmpty_map]
  split
  · rfl
  · exact ending?_escaped _ _

theorem sameAnswer_partOf {text other kind lookup lookup' : String} (hk : kind ∈ ["Resource", "Method"])
    (h : decode lookup = decode lookup') :
    SameAnswer text other (partOf text kind lookup) (partOf other kind lookup') := by
  simp only [List.mem_cons, List.not_mem_nil, or_false] at hk
  rcases hk with rfl | rfl
  · simp only [partOf, h]
    exact .ok _
  · simp only [partOf, h]
    split
    · exact .ok _
    · exact .unknown _

theorem sameAnswer_parse {api kind p tail : String} (ha : IsWord api) (hne : api ≠ "")
    (hk : kind ∈ ["Resource", "Method"]) (h : Alternating p) (ht : '%' ∉ tail.toList) :
    SameAnswer (ofLookup api kind (p ++ tail)) (ofLookup api kind (escaped p ++ tail))
      (parse (ofLookup api kind (p ++ tail))) (parse (ofLookup api kind (escaped p ++ tail))) := by
  have hkind : (∀ c ∈ kind.toList, c.isAlpha = true) ∧ kind ≠ "" := by
    simp only [List.mem_cons, List.not_mem_nil, or_false] at hk
    rcases hk with rfl | rfl <;> simp
  rw [parse, parse, spelling?_ofLookup ha hne hkind.1 hkind.2, spelling?_ofLookup ha hne hkind.1 hkind.2,
    ending?_dropWhile_escaped]
  cases ending? ((p ++ tail).toList.dropWhile (· != '.')) with
  | none => exact .unknown _
  | some attr =>
      have hdecode : decode (String.ofList ((p ++ tail).toList.takeWhile (· != '.'))) =
          decode (String.ofList ((escaped p ++ tail).toList.takeWhile (· != '.'))) := by
        rw [decode, decode, String.toList_ofList, String.toList_ofList, decode_takeWhile_escaped h ht]
      simp only [Option.map_some, Option.getD_some, String.ofList_toList]
      exact (sameAnswer_partOf hk hdecode).bind fun part => .ok _

end ApiReference

/-! ## Declared paths -/

namespace Api

/-- The registry of an accepted API. -/
structure Settled (declaration : Node) (r : Registry) : Prop where
  mirrors : ∃ ds, Mirrors declaration r ds
  written : Written r
  keys : DistinctKeys r
  ids : r.ids.Nodup

end Api

namespace Apis

theorem settled_of_expandSection {apis : Apis} {entries : List (String × Node)} {ds : List Definition}
    (h : (apis.expandSection (.map entries)).1 = .ok ds) {api : String} {declaration : Node}
    (hd : (api, declaration) ∈ entries) : (IsWord api ∧ api ≠ "") ∧
      ∃ r, Table.get? (apis.expandSection (.map entries)).2.table api = some r ∧ Api.Settled declaration r := by
  have hall : declareAll entries apis = (.ok ds, (apis.expandSection (.map entries)).2) := Prod.ext h rfl
  obtain ⟨ha, registry, _, part, _, _, hg, hx⟩ := expand_of_declareAll hall hd
  have hmirrors := Api.Builder.mirrors_of_expand ha hx
  have hw := Api.Builder.written_of_expand hx
  obtain ⟨b, rfl, rfl, _, _, hm, hk⟩ := Api.Builder.finished_of_expand ha hx
  exact ⟨isWord_of_declareAll hall hd, _, hg, ⟨_, hmirrors⟩, hw, hk, hm.ids⟩

section
variable {apis : Apis} {api lookup id : String} {r : Api.Registry} (ha : IsWord api ∧ api ≠ "")
  (hg : Table.get? apis.table api = some r) {declaration : Node} (hr : Api.Settled declaration r)
  (hpoint : '.' ∉ lookup.toList)
include ha hg hr hpoint

theorem lookup_resource_of_decode (hm : (Path.decode lookup, id) ∈ r.resources) :
    apis.lookup (ApiReference.ofLookup api "Resource" lookup) = .ok (.resource id) := by
  refine (lookup_ofLookup_iff ha.1 ha.2 (by simp) (by simp) hg).mpr ⟨hpoint, _, rfl, ?_⟩
  exact (Api.Registry.find_resource_iff hr.keys hr.ids hm).mpr rfl

theorem lookup_method_of_decode {path : Path} {verb : String} (hd : Path.decode lookup = path.child verb)
    (hm : ((path, Api.Builder.capital verb), id) ∈ r.methods) :
    apis.lookup (ApiReference.ofLookup api "Method" lookup) = .ok (.resource id) := by
  refine (lookup_ofLookup_iff ha.1 ha.2 (by simp) (by simp) hg).mpr
    ⟨hpoint, .method path (Api.Builder.capital verb), ?_, ?_⟩
  · exact ApiReference.partOf_method_iff.mpr ⟨path, verb, hd, rfl⟩
  · exact (Api.Registry.find_method_iff hr.keys hr.ids hm).mpr ⟨rfl, rfl⟩

end

/-- A path has an id, and so has a verb at it, that is found under either spelling of the path. -/
structure FindsEither (apis : Apis) (api : String) (declaration : Node) : Prop where
  path : ∀ text p, Api.Spells declaration.entries text → Path.ofText p = Path.ofText text → Path.ofText p ≠ Path.root →
    Path.Alternating p → ∃ id, ∀ q, q = p ∨ q = Path.escaped p →
      apis.lookup (ApiReference.ofLookup api "Resource" q) = .ok (.resource id)
  verb : ∀ text p verb, Api.Declares declaration.entries text (Api.Builder.capital verb) →
    Path.ofText p = Path.ofText text → Path.Alternating p →
    '%' ∉ verb.toList → '/' ∉ verb.toList → '.' ∉ verb.toList → ∃ id, ∀ q, q = p ∨ q = Path.escaped p →
      apis.lookup (ApiReference.ofLookup api "Method" (q ++ "/" ++ verb)) = .ok (.resource id)

theorem point_not_mem_of_writable {p q : String} (h : (Path.ofText p).Writable) (hq : q = p ∨ q = Path.escaped p) :
    '.' ∉ q.toList := by
  have hp : '.' ∉ p.toList := fun hm => by
    obtain ⟨s, hs, hm⟩ := Path.exists_mem_segments hm (by decide)
    exact (h s hs).2.2 hm
  rcases hq with rfl | rfl
  · exact hp
  · exact mt Path.point_mem_escaped_iff.mp hp

theorem findsEither_of_settled {apis : Apis} {api : String} {r : Api.Registry} (ha : IsWord api ∧ api ≠ "")
    (hg : Table.get? apis.table api = some r) {declaration : Node} (hr : Api.Settled declaration r) :
    apis.FindsEither api declaration := by
  obtain ⟨ds, hmirrors⟩ := hr.mirrors
  constructor
  · intro text p hs he hroot hp
    have hm : Path.ofText p ∈ Table.keys r.resources :=
      (hmirrors.paths _).mpr ⟨hroot, text, hs, he ▸ List.prefix_rfl⟩
    have hw := hr.written.resources _ hm
    obtain ⟨⟨_, id⟩, hm, rfl⟩ := List.mem_map.mp hm
    refine ⟨id, fun q hq => lookup_resource_of_decode ha hg hr (point_not_mem_of_writable hw hq) ?_⟩
    rwa [hp.decode_eq hq]
  · intro text p verb hd he hp hpercent hslash hpoint
    have hm := (hmirrors.verbs _ _).mpr ⟨text, hd, he⟩
    obtain ⟨hw, hne, -⟩ := hr.written.methods _ hm
    obtain ⟨⟨_, id⟩, hm, rfl⟩ := List.mem_map.mp hm
    refine ⟨id, fun q hq => lookup_method_of_decode ha hg hr ?_ ?_ hm⟩
    · simp [point_not_mem_of_writable hw hq, hpoint]
    · have hverb : verb ≠ "" := by
        rintro rfl
        exact hne rfl
      have htail : '%' ∉ ("/" ++ verb).toList := by simpa using hpercent
      rw [String.append_assoc, hp.decode_append hq htail, Path.eq_child_iff, Path.segments_append, Path.ofText_slash,
        Path.segments_ofChars_of_not_mem hverb hslash]

/-- Two references are answered alike. -/
def Alike (apis : Apis) (text other : String) : Prop := SameAnswer text other (apis.lookup text) (apis.lookup other)

/-- A path with per cent signs for its braces is decoded to the path, the normal form of a text is that of its segments,
and references to paths and methods are answered alike with either spelling. -/
theorem alike_escaped :
    (∀ p, Path.Alternating p →
      (Path.decode (Path.escaped p)).text = Path.normalize p ∧ (Path.decode p).text = Path.normalize p) ∧
    (∀ text, Path.normalize (Path.normalize text) = Path.normalize text ∧ Path.IsNormal (Path.normalize text)) ∧
    (∀ s t, Path.normalize s = Path.normalize t ↔
      (Text.split '/' s.toList).filter (fun part => !part.isEmpty) =
        (Text.split '/' t.toList).filter fun part => !part.isEmpty) ∧
    (∀ (apis : Apis) api p, IsWord api → api ≠ "" → Path.Alternating p →
      ∀ kind ∈ ["Resource", "Method"], ∀ tail : String, '%' ∉ tail.toList →
        apis.Alike (ApiReference.ofLookup api kind (p ++ tail))
          (ApiReference.ofLookup api kind (Path.escaped p ++ tail))) ∧
    ∀ (apis : Apis) entries ds api declaration, (apis.expandSection (.map entries)).1 = .ok ds →
      (api, declaration) ∈ entries → (apis.expandSection (.map entries)).2.FindsEither api declaration := by
  refine ⟨fun p hp => ⟨?_, ?_⟩, fun text => ⟨?_, ?_⟩, fun s t => Path.normalize_eq_iff, ?_, ?_⟩
  · rw [hp.decode_eq (.inr rfl), Path.normalize]
  · rw [hp.decode_eq (.inl rfl), Path.normalize]
  · exact Path.normalize_normalize text
  · exact Path.isNormal_normalize text
  · intro apis api p ha hne hp kind hk tail ht
    exact .lookup (ApiReference.sameAnswer_parse ha hne hk hp ht)
  · intro apis entries ds api declaration h hd
    obtain ⟨ha, r, hg, hr⟩ := settled_of_expandSection h hd
    exact findsEither_of_settled ha hg hr

/-- An API with parameters in its paths, two of them in one segment. -/
def bracedTree : List (String × Node) :=
  [("/users/\x7bid\x7d", .map [("/\x7ba\x7d\x7bb\x7d", .map [("$get", .map [])])])]

def bracedPath : String := "/users/\x7bid\x7d/\x7ba\x7d\x7bb\x7d"

theorem alike_bracedPath :
    Path.Alternating bracedPath ∧ Path.escaped bracedPath = "/users/%id%/%a%%b%" ∧
      (Path.decode "/users/%id%/%a%%b%").text = Path.normalize bracedPath ∧
      (({ digestLength := 8 } : Apis).expandSection (.map [("Shop", .map bracedTree)])).1.isOk = true ∧
      ∃ apis, apis = (({ digestLength := 8 } : Apis).expandSection (.map [("Shop", .map bracedTree)])).2 ∧
        (∃ id, ∀ q, q = bracedPath ∨ q = Path.escaped bracedPath →
          apis.lookup (ApiReference.ofLookup "Shop" "Resource" q) = .ok (.resource id)) ∧
        (∃ id, ∀ q, q = bracedPath ∨ q = Path.escaped bracedPath →
          apis.lookup (ApiReference.ofLookup "Shop" "Method" (q ++ "/" ++ "get")) = .ok (.resource id)) ∧
        apis.Alike (ApiReference.ofLookup "Shop" "Method" (bracedPath ++ "/put.Arn"))
          (ApiReference.ofLookup "Shop" "Method" (Path.escaped bracedPath ++ "/put.Arn")) := by
  have hp : Path.Alternating bracedPath := by
    refine ⟨by decide, fun c hc => ?_, by decide⟩
    have hfirst : (Path.braces bracedPath.toList).head? = some '{' := by decide
    exact Option.some.inj (hc.symm.trans hfirst)
  have hescaped : Path.escaped bracedPath = "/users/%id%/%a%%b%" := by decide
  have hok : (({ digestLength := 8 } : Apis).expandSection (.map [("Shop", .map bracedTree)])).1.isOk = true := by
    decide +kernel
  obtain ⟨ds, h⟩ := Outcome.exists_of_isOk hok
  obtain ⟨hdecode, -, -, halike, hfinds⟩ := alike_escaped
  obtain ⟨hpath, hverb⟩ := hfinds _ _ ds "Shop" _ h List.mem_cons_self
  have hroot : Path.ofText bracedPath ≠ Path.root := by decide +kernel
  have hmap (entries : List (String × Node)) : Node.map entries ≠ .null := nofun
  have hs : Api.Spells bracedTree bracedPath := by
    have hspelled : bracedPath = "/" ++ "users/\x7bid\x7d" ++ ("/" ++ "\x7ba\x7d\x7bb\x7d") := by decide
    rw [hspelled]
    exact .deeper List.mem_cons_self (.here List.mem_cons_self (hmap _))
  have hd : Api.Declares bracedTree bracedPath (Api.Builder.capital "get") := by
    have hspelled : bracedPath = "/" ++ "users/\x7bid\x7d" ++ ("/" ++ "\x7ba\x7d\x7bb\x7d" ++ "") := by decide
    rw [hspelled]
    exact .deeper List.mem_cons_self (.deeper List.mem_cons_self (.here List.mem_cons_self (hmap _)))
  exact ⟨hp, hescaped, hescaped ▸ (hdecode _ hp).1, hok, _, rfl, hpath _ _ hs rfl hroot hp,
    hverb _ _ _ hd rfl hp (by decide) (by decide) (by decide),
    halike _ _ _ (by decide) (by decide) hp _ (by decide) _ (by decide)⟩

end Apis
end Shorthand
