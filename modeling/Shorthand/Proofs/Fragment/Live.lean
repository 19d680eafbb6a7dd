import Shorthand.Proofs.Fragment.Bindings
import Shorthand.Proofs.Fragment.Scan
import Shorthand.Proofs.Fragment.Text

/-!
# The live holes of a fragment

The placeholders of a fragment come from its calls, in their order: literal texts and keys bring none of their
own. They hide none either where their own holes are closed. A literal hole that is left open goes on into what
follows it, up to the next closing brace, with the placeholders there.
-/
namespace Shorthand

/-! ## Texts without a dollar -/

namespace Double

theorem not_mem_dropTrailingZeros {c : Char} {ds : List Char} (h : c ∉ ds) : c ∉ dropTrailingZeros ds := by
  rw [dropTrailingZeros, List.mem_reverse]
  exact fun hm => h (List.mem_reverse.mp ((List.dropWhile_sublist _).subset hm))

theorem dollar_not_mem_toDigits (n : Nat) : '$' ∉ Nat.toDigits 10 n := fun h =>
  absurd (Nat.isDigit_of_mem_toDigits (by decide) (by decide) h) (by decide)

theorem DecimalStyle.dollar_not_mem_layOut (style : DecimalStyle) {ds : List Char} (h : '$' ∉ ds) (e : Int) :
    '$' ∉ style.layOut ds e := by
  have htake : ∀ n, '$' ∉ ds.take n := fun n hm => h (List.mem_of_mem_take hm)
  have hdrop : ∀ n, '$' ∉ ds.drop n := fun n hm => h (List.mem_of_mem_drop hm)
  have hdigits := dollar_not_mem_toDigits e.natAbs
  unfold layOut
  split
  · split
    · simp [h, List.mem_replicate]
    · simp only
      split <;> simp [htake, hdrop, List.mem_replicate]
  · have hsign : '$' ∉ (if e < 0 then ['-'] else if style.plus then ['+'] else []) := by
      split
      · decide
      · split <;> decide
    simp only
    generalize (if e < 0 then ['-'] else if style.plus then ['+'] else []) = sign at hsign
    split
    · simpa [hsign, hdigits] using h
    · simp [h, hsign, hdigits]

theorem DecimalStyle.dollar_not_mem_chars (style : DecimalStyle) (x : Double) : '$' ∉ style.chars x := by
  have hsign : '$' ∉ (if x.isNegative then ['-'] else []) := by split <;> decide
  have hdigits := not_mem_dropTrailingZeros (dollar_not_mem_toDigits x.shortest.digits)
  rw [chars]
  split
  · simp [hsign]
  · simp [hsign, style.dollar_not_mem_layOut hdigits]

end Double

theorem Number.dollar_not_mem_chars (n : Number) : '$' ∉ n.chars := by
  match n with
  | .whole (.ofNat n) => exact Double.dollar_not_mem_toDigits n
  | .whole (.negSucc n) => simpa [chars, wholeChars] using Double.dollar_not_mem_toDigits (n + 1)
  | .double x => exact Json.decimals.dollar_not_mem_chars x

/-! ## Literal texts in a tree -/

namespace Node

mutual
/-- The texts and keys of a tree that are in no call. -/
def literals : Node → List String
  | map entries => if (call? (map entries)).isSome then [] else literalsOfEntries entries
  | list items => literalsOfItems items
  | text s => [s]
  | _ => []

def literalsOfItems : List Node → List String
  | [] => []
  | item :: items => literals item ++ literalsOfItems items

def literalsOfEntries : List (String × Node) → List String
  | [] => []
  | (key, value) :: entries => key :: (literals value ++ literalsOfEntries entries)
end

end Node

namespace Template

/-- A closed template whose placeholders need no escape. -/
def Tidy (template : String) : Prop :=
  isClosed template = true ∧ ∀ body ∈ placeholders template, ∀ c ∈ body.toList, isClean c = true

theorem Tidy.all_isSafe {template : String} (h : Tidy template) :
    (pieces template.toList).all isSafe = true := by
  refine List.all_eq_true.mpr fun p hp => ?_
  have hended := List.all_eq_true.mp (isClosed_eq template ▸ h.1) p hp
  cases p with
  | plain _ => rfl
  | unclosed _ => cases hended
  | hole body =>
      cases hl : Piece.isLiteral body with
      | true => simp [isSafe, hl]
      | false =>
          have hm : String.ofList body ∈ placeholders template :=
            List.mem_filterMap.mpr ⟨_, hp, by simp [Piece.live?, hl]⟩
          have hclean := h.2 _ hm
          rw [String.toList_ofList] at hclean
          simpa [isSafe, hl] using hclean

theorem Tidy.scans {template : String} (h : Tidy template) :
    Scans (Json.quoted template) (placeholders template) True :=
  (scans_quoted h.all_isSafe).mono fun _ => h.1

end Template

namespace Fragment
open Template

section
variable {u v : List Char} {bodies more : List String} {p q : Prop}

theorem scans_items {item : Node} {items : List Node} (h : Scans item.chars bodies p)
    (hs : Scans (Node.charsOfItems items) more q) :
    Scans (Node.charsOfItems (item :: items)) (bodies ++ more) (p ∧ q) := by
  by_cases hne : items = []
  · subst hne
    simpa [Node.charsOfItems] using h.append hs
  · rw [Node.charsOfItems_cons item hne]
    have hcomma : Scans [','] [] True := .single (by decide)
    exact (h.append (hcomma.append hs)).mono fun hc => ⟨hc.1, trivial, hc.2⟩

theorem scans_entries (key : String) {value : Node} {entries : List (String × Node)}
    (h : Scans value.chars bodies p) (hs : Scans (Node.charsOfEntries entries) more q) :
    Scans (Node.charsOfEntries ((escape key, value) :: entries)) (bodies ++ more)
      (isClosed key = true ∧ p ∧ q) := by
  have hcolon : Scans [':'] [] True := .single (by decide)
  have hcomma : Scans [','] [] True := .single (by decide)
  have hentry : Scans (Json.quoted (escape key) ++ ':' :: value.chars) bodies (isClosed key = true ∧ p) :=
    ((scans_literal key).append (hcolon.append h)).mono fun hc => ⟨hc.1, trivial, hc.2⟩
  by_cases hne : entries = []
  · subst hne
    have hlast := (hentry.append hs).mono fun hc : isClosed key = true ∧ p ∧ q => ⟨⟨hc.1, hc.2.1⟩, hc.2.2⟩
    simpa [Node.charsOfEntries] using hlast
  · have hmore := (hentry.append (hcomma.append hs)).mono fun hc : isClosed key = true ∧ p ∧ q =>
      ⟨⟨hc.1, hc.2.1⟩, trivial, hc.2.2⟩
    rw [Node.charsOfEntries_cons _ value hne]
    simpa using hmore

theorem scans_brackets {l r : Char} (hl : l ≠ '$') (hr : r ≠ '$') (h : Scans u bodies p) :
    Scans (l :: (u ++ [r])) bodies p := by
  have h := (Scans.single hl).append (h.append (.single hr))
  rw [List.append_nil] at h
  exact h.mono fun hc => ⟨trivial, hc, trivial⟩
end

mutual
/-- A tree brings the placeholders of the texts that are filled in for its calls, and no others. -/
theorem Filled.scans {node filled : Node} {texts : List String} (h : Filled node texts filled)
    (hk : ∀ site ∈ node.sites, site.isKept = false) (ht : ∀ text ∈ texts, Tidy text) :
    Scans filled.chars (texts.flatMap placeholders) (∀ text ∈ node.literals, isClosed text = true) := by
  match h with
  | .call hname hne =>
      have hs := (List.forall_mem_singleton.mp ht).scans
      rw [List.flatMap_singleton]
      exact hs.mono fun _ => trivial
  | @Filled.kept arg =>
      rw [Node.sites_call (by decide), List.forall_mem_singleton] at hk
      have hkept : (Node.call Call.getParam arg).isKept = true := Node.isKept_single arg (by decide)
      rw [hk] at hkept
      cases hkept
  | .map hc he =>
      rw [Node.sites, hc] at hk
      rw [Node.literals, hc]
      exact scans_brackets (by decide) (by decide) (he.scans hk ht)
  | .list h => exact scans_brackets (by decide) (by decide) (h.scans hk ht)
  | .text s => exact (scans_literal s).mono fun hc => hc s (List.mem_singleton_self s)
  | .null => exact (Scans.of_not_mem (by decide)).mono fun _ => trivial
  | .bool b => exact (Scans.of_not_mem (by cases b <;> decide)).mono fun _ => trivial
  | .number n => exact (Scans.of_not_mem n.dollar_not_mem_chars).mono fun _ => trivial

theorem FilledItems.scans {items filled : List Node} {texts : List String} (h : FilledItems items texts filled)
    (hk : ∀ site ∈ Node.sitesOfItems items, site.isKept = false) (ht : ∀ text ∈ texts, Tidy text) :
    Scans (Node.charsOfItems filled) (texts.flatMap placeholders)
      (∀ text ∈ Node.literalsOfItems items, isClosed text = true) := by
  match h with
  | .nil => exact Scans.nil.mono fun _ => trivial
  | .cons h hs =>
      rw [Node.sitesOfItems, List.forall_mem_append] at hk
      rw [List.forall_mem_append] at ht
      rw [List.flatMap_append, Node.literalsOfItems]
      exact (scans_items (h.scans hk.1 ht.1) (hs.scans hk.2 ht.2)).mono List.forall_mem_append.mp

theorem FilledEntries.scans {entries filled : List (String × Node)} {texts : List String}
    (h : FilledEntries entries texts filled) (hk : ∀ site ∈ Node.sitesOfEntries entries, site.isKept = false)
    (ht : ∀ text ∈ texts, Tidy text) :
    Scans (Node.charsOfEntries filled) (texts.flatMap placeholders)
      (∀ text ∈ Node.literalsOfEntries entries, isClosed text = true) := by
  match h with
  | .nil => exact Scans.nil.mono fun _ => trivial
  | .cons h hs =>
      rw [Node.sitesOfEntries, List.forall_mem_append] at hk
      rw [List.forall_mem_append] at ht
      rw [List.flatMap_append, Node.literalsOfEntries]
      refine (scans_entries _ (h.scans hk.1 ht.1) (hs.scans hk.2 ht.2)).mono fun hc => ?_
      obtain ⟨hkey, hc⟩ := List.forall_mem_cons.mp hc
      exact ⟨hkey, List.forall_mem_append.mp hc⟩
end

/-! ## The texts of splices -/

theorem chars_hole (body : String) : (hole body).toList = '$' :: '{' :: (body.toList ++ ['}']) := by simp [hole]

theorem pieces_hole {body : String} (hb : '}' ∉ body.toList) : pieces (hole body).toList = [.hole body.toList] := by
  rw [chars_hole, pieces_opening, bodyPieces_closed hb, pieces]

theorem placeholders_hole {body : String} (hb : '}' ∉ body.toList) :
    placeholders (hole body) = if Piece.isLiteral body.toList then [] else [body] := by
  rw [placeholders, pieces_hole hb]
  cases hl : Piece.isLiteral body.toList <;> simp [Piece.live?, hl]

theorem tidy_hole {body : String} (h : ∀ c ∈ body.toList, isClean c = true) : Tidy (hole body) := by
  have hb : '}' ∉ body.toList := fun hm => absurd (h _ hm) (by decide)
  refine ⟨by rw [isClosed_eq, pieces_hole hb]; rfl, fun other hm => ?_⟩
  rw [placeholders_hole hb] at hm
  split at hm
  · cases hm
  · exact List.mem_singleton.mp hm ▸ h

/-- Made-up names need no escape, and a template takes them in as they are. -/
theorem clean_nameOf (n : Nat) :
    PlainBody (Compiler.nameOf n).toList ∧ ∀ c ∈ (Compiler.nameOf n).toList, isClean c = true := by
  have hdigit : ∀ c : Char, c.isDigit = true → isClean c = true := by
    intro c h
    have hne : ∀ d : Char, d.isDigit = false → c ≠ d := by
      rintro d hd rfl
      rw [h] at hd
      cases hd
    have hlow : 0x30 ≤ c.toNat := by
      simp only [Char.isDigit, Bool.and_eq_true, decide_eq_true_eq] at h
      exact h.1
    simp [isClean, hne '"' (by decide), hne '\\' (by decide), hne '}' (by decide), Nat.le_trans _ hlow]
  have hclean : ∀ c ∈ (Compiler.nameOf n).toList, isClean c = true := by
    rw [Compiler.nameOf, Naming.toList_numbered]
    refine List.forall_mem_append.mpr ⟨List.all_eq_true.mp (by decide), fun c hc => hdigit c ?_⟩
    exact Nat.isDigit_of_mem_toDigits (by decide) (by decide) hc
  refine ⟨⟨fun hm => absurd (hclean _ hm) (by decide), ?_⟩, hclean⟩
  rw [Compiler.nameOf, Naming.toList_numbered]
  rfl

/-- Made-up names keep a template tidy. -/
theorem tidy_rename {r : String → String} {template : String} (ht : Tidy template)
    (hr : ∀ name, r name = name ∨ ∃ n, r name = Compiler.nameOf n) : Tidy (rename r template) := by
  have hplain : ∀ name, r name = name ∨ PlainBody (r name).toList := by
    intro name
    refine (hr name).imp_right ?_
    rintro ⟨n, hn⟩
    exact hn ▸ (clean_nameOf n).1
  refine ⟨by rw [isClosed_rename hplain, ht.1], ?_⟩
  rw [placeholders_rename hplain, List.forall_mem_map]
  intro body hm
  rcases hr body with hsame | ⟨n, hn⟩
  · rw [hsame]
    exact ht.2 body hm
  · rw [hn]
    exact (clean_nameOf n).2

theorem Renaming.eq_or_mem {t own : Table Node} {r : String → String} {made : List String}
    (h : Renaming t own r made) (name : String) : r name = name ∨ r name ∈ made := by
  by_cases hm : name ∈ Table.keys own
  · obtain ⟨e, he, rfl⟩ := List.mem_map.mp hm
    cases hc : clashes t e with
    | true => exact .inr (h.names ▸ List.mem_map_of_mem (List.mem_filter.mpr ⟨he, hc⟩))
    | false => exact .inl (h.kept e he hc)
  · exact .inl (h.outside name hm)

theorem Reference.name_mem {name body : String} {arg : Node} (h : Reference (.call name arg) body) :
    name ∈ [Call.ref, Call.getAtt, Call.importValue] := by
  generalize hc : Node.call name arg = call at h
  cases h <;> obtain ⟨rfl, -⟩ := Node.call_inj hc <;> decide

theorem not_reference_sub {arg : Node} {body : String} : ¬ Reference (.call Call.sub arg) body := fun h =>
  absurd h.name_mem (by decide)

theorem Reference.unique {call : Node} {body other : String} (h : Reference call body) (h' : Reference call other) :
    body = other := by
  cases h with
  | ref =>
      generalize hc : Node.call Call.ref (.text body) = call at h'
      cases h' <;> obtain ⟨hname, harg⟩ := Node.call_inj hc
      · exact Node.text.inj harg
      all_goals exact absurd hname (by decide)
  | getAtt =>
      generalize hc : Node.call Call.getAtt (.text body) = call at h'
      cases h' <;> obtain ⟨hname, harg⟩ := Node.call_inj hc
      · exact absurd hname (by decide)
      · exact Node.text.inj harg
      · cases harg
      · exact absurd hname (by decide)
  | attributeOf id attr =>
      generalize hc : Node.call Call.getAtt (.list [.text id, .text attr]) = call at h'
      cases h' <;> obtain ⟨hname, harg⟩ := Node.call_inj hc
      · exact absurd hname (by decide)
      · cases harg
      · obtain ⟨rfl, rfl⟩ := by simpa using harg
        rfl
      · exact absurd hname (by decide)
  | importValue exported =>
      generalize hc : Node.call Call.importValue (.text exported) = call at h'
      cases h' <;> obtain ⟨hname, harg⟩ := Node.call_inj hc
      · exact absurd hname (by decide)
      · exact absurd hname (by decide)
      · exact absurd hname (by decide)
      · obtain rfl := Node.text.inj harg
        rfl

theorem Inline.eq_hole {call : Node} {body text : String} (h : Inline call text) (hb : Reference call body) :
    text = hole body := by
  cases h with
  | reference h => rw [h.unique hb]
  | template => exact absurd hb not_reference_sub

theorem Inline.eq_template {template text : String} (h : Inline (.call Call.sub (.text template)) text) :
    text = template := by
  generalize hc : Node.call Call.sub (.text template) = call at h
  cases h with
  | reference h => exact absurd (hc ▸ h) not_reference_sub
  | template => exact (Node.text.inj (Node.call_inj hc).2).symm

/-- A splice that needs no escape: its call refers to a body that needs none, or it is a closed template whose
placeholders need none. A name made up for a call never does. -/
inductive Splice.Tidy : Splice → Prop
  | reference {s : Splice} {body : String} (h : Reference s.call body)
      (hb : ∀ c ∈ body.toList, isClean c = true) : Tidy s
  | template {s : Splice} {template : String} (h : s.call = .call Call.sub (.text template))
      (ht : Template.Tidy template) : Tidy s
  | merged {s : Splice} {template : String} {own : Table Node}
      (h : s.call = .call Call.sub (.list [.text template, .map own])) (ht : Template.Tidy template) : Tidy s
  | whole {s : Splice} {name : String} (hm : name ∈ s.made) (ht : s.text = hole name) : Tidy s

theorem Spliced.tidy {t : Table Node} {s : Splice} (h : Spliced t s) (hs : s.Tidy)
    (hm : ∀ name ∈ s.made, ∃ n, name = Compiler.nameOf n) : Template.Tidy s.text := by
  have hmade : ∀ name ∈ s.made, Template.Tidy (hole name) := by
    intro name hname
    obtain ⟨n, rfl⟩ := hm name hname
    exact tidy_hole (clean_nameOf n).2
  cases h with
  | inline h =>
      cases hs with
      | reference hb hc => exact h.eq_hole hb ▸ tidy_hole hc
      | template he ht =>
          obtain rfl := he
          exact h.eq_template ▸ ht
      | merged he _ =>
          obtain rfl := he
          exact absurd h (not_inline (by decide) (by simp) _)
      | whole hname _ => cases hname
  | @merged template own r made hr _ =>
      cases hs with
      | reference hb _ => exact absurd hb not_reference_sub
      | template he _ => cases (Node.call_inj he).2
      | merged he ht =>
          obtain ⟨rfl, -⟩ : template = _ ∧ own = _ := by simpa using (Node.call_inj he).2
          exact tidy_rename ht fun name => (hr.eq_or_mem name).imp_right (hm _)
      | whole hname he => exact he ▸ hmade _ hname
  | whole hi _ _ => exact hmade _ (by simp)

theorem Spliced.eq_hole {t : Table Node} {s : Splice} (h : Spliced t s) {body : String}
    (hb : Reference s.call body) : s.text = hole body := by
  cases h with
  | inline h => exact h.eq_hole hb
  | merged => exact absurd hb not_reference_sub
  | whole hi => exact absurd (.reference hb) (hi _)

namespace Compiler

/-- Where no call is left to the pipeline service and each splice is tidy, the placeholders of a fragment are
among those of its splices, in their order. They are all of them if every literal text is closed. -/
theorem placeholders_of_compile (c : Compiler) {node : Node} (hn : node.WellFormed) (hcalls : node.calls ≠ [])
    (hk : ∀ site ∈ node.sites, site.isKept = false) :
    ∃ splices, Accounts node (c.compile node).1.text (c.compile node).1.bindings splices ∧
      ((∀ s ∈ splices, s.Tidy) →
        (placeholders (c.compile node).1.text).Sublist (splices.flatMap fun s => placeholders s.text) ∧
        ((∀ text ∈ node.literals, isClosed text = true) →
          placeholders (c.compile node).1.text = splices.flatMap fun s => placeholders s.text)) := by
  obtain ⟨splices, hm, ha⟩ := c.accounts_of_calls hn hcalls
  refine ⟨splices, ha, fun hs => ?_⟩
  -- a splice may be tidy by a name made up for it, and those are the numbered ones
  have htidy : ∀ text ∈ splices.map Splice.text, Template.Tidy text := by
    intro text htext
    obtain ⟨s, hmem, rfl⟩ := List.mem_map.mp htext
    obtain ⟨before, after, hsplit⟩ := List.append_of_mem hmem
    refine (ha.spliced before s after hsplit).tidy (hs s hmem) fun name hname => ?_
    obtain ⟨n, -, he⟩ := hm.exists_nameOf (List.mem_flatMap.mpr ⟨s, hmem, hname⟩)
    exact ⟨n, he⟩
  obtain ⟨tree, hf, htext⟩ := ha.text
  have h := (hf.scans hk htidy).placeholders
  rw [List.flatMap_map] at h
  rw [htext, Template.placeholders_eq, Node.json, String.toList_ofList]
  exact h

/-- A literal text before a reference. -/
def beforeReference (text : String) : Node := .map [("a", .text text), ("b", .refTo "X")]

theorem calls_beforeReference (text : String) : (beforeReference text).calls = [.refTo "X"] := rfl

theorem wellFormed_beforeReference (text : String) : (beforeReference text).WellFormed := by
  simp [beforeReference, Node.WellFormed, Node.EntriesWellFormed, Table.Distinct, Table.keys, Node.refTo, Node.call]

theorem literals_beforeReference (text : String) : (beforeReference text).literals = ["a", text, "b"] := rfl

theorem single_beforeReference {text t : String} {bound : Table Node} {splices : List Splice}
    (h : Accounts (beforeReference text) t bound splices) :
    ∃ s, splices = [s] ∧ s.Tidy ∧ placeholders s.text = ["X"] := by
  have hcalls := h.calls
  rw [calls_beforeReference] at hcalls
  obtain ⟨s, rfl, hcall⟩ := List.map_eq_singleton_iff.mp hcalls
  have href : Reference s.call "X" := hcall ▸ .ref "X"
  refine ⟨s, rfl, .reference href (List.all_eq_true.mp (by decide)), ?_⟩
  rw [(h.spliced [] s [] rfl).eq_hole href]
  cbv

theorem placeholders_closed :
    (beforeReference "a $\x7bb\x7d").WellFormed ∧ (beforeReference "a $\x7bb\x7d").calls ≠ [] ∧
      (∀ site ∈ (beforeReference "a $\x7bb\x7d").sites, site.isKept = false) ∧
      (({} : Compiler).compile (beforeReference "a $\x7bb\x7d")).1 =
        .spliced "\x7b\"a\":\"a $\x7b!b\x7d\",\"b\":\"$\x7bX\x7d\"\x7d" ∧
      placeholders (({} : Compiler).compile (beforeReference "a $\x7bb\x7d")).1.text = ["X"] := by
  have hw := wellFormed_beforeReference "a $\x7bb\x7d"
  have hc : (beforeReference "a $\x7bb\x7d").calls ≠ [] := List.cons_ne_nil _ _
  have hk : ∀ site ∈ (beforeReference "a $\x7bb\x7d").sites, site.isKept = false :=
    List.forall_mem_singleton.mpr rfl
  refine ⟨hw, hc, hk, by cbv, ?_⟩
  obtain ⟨splices, ha, h⟩ := placeholders_of_compile {} hw hc hk
  obtain ⟨s, rfl, hs, hp⟩ := single_beforeReference ha
  have hclosed : ∀ text ∈ (beforeReference "a $\x7bb\x7d").literals, isClosed text = true := by
    rw [literals_beforeReference, List.forall_mem_cons, List.forall_mem_cons, List.forall_mem_singleton]
    exact ⟨by cbv, by cbv, by cbv⟩
  rw [(h (List.forall_mem_singleton.mpr hs)).2 hclosed, List.flatMap_singleton, hp]

/-- A literal opening that is not closed hides the reference after it. -/
theorem hidden_reference :
    (beforeReference "$\x7b").WellFormed ∧ (beforeReference "$\x7b").calls = [.refTo "X"] ∧
      (∀ site ∈ (beforeReference "$\x7b").sites, site.isKept = false) ∧
      (({} : Compiler).compile (beforeReference "$\x7b")).1 =
        .spliced "\x7b\"a\":\"$\x7b!\",\"b\":\"$\x7bX\x7d\"\x7d" ∧
      ∀ splices, Accounts (beforeReference "$\x7b") "\x7b\"a\":\"$\x7b!\",\"b\":\"$\x7bX\x7d\"\x7d" [] splices →
        (∀ s ∈ splices, s.Tidy) ∧
        placeholders "\x7b\"a\":\"$\x7b!\",\"b\":\"$\x7bX\x7d\"\x7d" ≠
          splices.flatMap fun s => placeholders s.text := by
  refine ⟨wellFormed_beforeReference _, rfl, List.forall_mem_singleton.mpr rfl, by cbv, fun splices ha => ?_⟩
  obtain ⟨s, rfl, hs, hp⟩ := single_beforeReference ha
  have hnone : placeholders "\x7b\"a\":\"$\x7b!\",\"b\":\"$\x7bX\x7d\"\x7d" = [] := by cbv
  rw [hnone, List.flatMap_singleton, hp]
  exact ⟨List.forall_mem_singleton.mpr hs, (List.cons_ne_nil _ _).symm⟩

end Compiler

end Fragment
end Shorthand
