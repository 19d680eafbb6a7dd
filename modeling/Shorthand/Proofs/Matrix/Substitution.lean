import Shorthand.Proofs.Matrix.Lookup
import Shorthand.Proofs.Replacement

/-!
# Substitution in matrices

Keys and values of an entry are put in for placeholders one dimension after another. This comes to the same as
to put them in all at once, in whatever order the dimensions stand, if what comes out has no placeholder of a
dimension after the first. In a logical id there is no room for one.
-/
namespace Shorthand

namespace Matrix

/-! ## Placeholders -/

/-- The placeholder of a dimension. -/
def placeholder (lead name : String) : List Char := '$' :: '{' :: (lead.toList ++ name.toList ++ ['}'])

/-- The placeholders of dimensions, with what is put in for each. -/
def fillings (lead : String) (choice : List (String × String)) : Text.Fillings :=
  choice.map fun pair => (placeholder lead pair.1, pair.2.toList)

def placeholders (lead : String) (choice : List (String × String)) : List (List Char) :=
  (fillings lead choice).patterns

/-- A text with all its placeholders filled at once. -/
def filled (lead : String) (choice : List (String × String)) (s : String) : String :=
  String.ofList (Text.fill (fillings lead choice) s.toList)

/-- A text with the placeholders filled one after another. -/
def filledInTurn (lead : String) (choice : List (String × String)) (s : String) : String :=
  substitute lead (choice.map Prod.fst) (choice.map Prod.snd) s

theorem placeholders_eq (lead : String) (choice : List (String × String)) :
    placeholders lead choice = (choice.map Prod.fst).map (placeholder lead) := by
  simp [placeholders, Text.Fillings.patterns, fillings]

theorem placeholder_injective (lead : String) : Function.Injective (placeholder lead) := by
  intro a b h
  exact String.toList_inj.mp (by simpa [placeholder] using h)

theorem nodup_placeholders (lead : String) {choice : List (String × String)}
    (hn : (choice.map Prod.fst).Nodup) : (placeholders lead choice).Nodup := by
  rw [placeholders_eq]
  exact hn.map (placeholder_injective lead)

theorem substitute_eq (lead : String) (names replacements : List String) (s : String) :
    substitute lead names replacements s = String.ofList
      ((fillings lead (names.zip replacements)).foldl (fun cs f => Text.replace f.1 f.2 cs) s.toList) := by
  simp [substitute, fillings, List.foldl_map, placeholder]

theorem filledInTurn_eq (lead : String) (choice : List (String × String)) (s : String) :
    filledInTurn lead choice s =
      String.ofList ((fillings lead choice).foldl (fun cs f => Text.replace f.1 f.2 cs) s.toList) := by
  rw [filledInTurn, substitute_eq, List.zip_map', List.map_id']

/-- Placeholders of names without the signs of placeholders do not overlap. -/
theorem apart_placeholders {lead : String} (hlead : '$' ∉ lead.toList) {choice : List (String × String)}
    (h : ∀ pair ∈ choice, '$' ∉ pair.1.toList ∧ '}' ∉ pair.1.toList) :
    Text.Apart (placeholders lead choice) := by
  have hof {p : List Char} (hp : p ∈ placeholders lead choice) :
      ∃ name : String, p = placeholder lead name ∧ '$' ∉ name.toList ∧ '}' ∉ name.toList := by
    rw [placeholders_eq, List.map_map] at hp
    obtain ⟨pair, hm, rfl⟩ := List.mem_map.mp hp
    exact ⟨pair.1, rfl, h pair hm⟩
  constructor
  · intro p hp
    obtain ⟨name, rfl, _⟩ := hof hp
    exact List.cons_ne_nil _ _
  · intro p hp q hq cs hpcs hqcs
    obtain ⟨a, rfl, _, ha⟩ := hof hp
    obtain ⟨b, rfl, _, hb⟩ := hof hq
    obtain ⟨as, rfl⟩ := hpcs
    obtain ⟨bs, he⟩ := hqcs
    -- both names go to the first closing brace after the lead
    simp only [placeholder, List.cons_append, List.cons.injEq, true_and, List.append_assoc,
      List.append_cancel_left_eq] at he
    rw [String.toList_inj.mp (Text.append_separator_inj hb ha he).1]
  · intro p hp q hq before rest cs he hb hr hqcs
    obtain ⟨a, rfl, ha, _⟩ := hof hp
    obtain ⟨b, rfl, _⟩ := hof hq
    have hdollar : '$' ∈ rest := by
      cases rest with
      | nil => exact absurd rfl hr
      | cons c rest =>
          obtain rfl := (List.cons_prefix_cons.mp hqcs).1
          exact List.mem_cons_self
    cases before with
    | nil => exact absurd rfl hb
    | cons c before =>
        have hmem := congrArg (fun cs => '$' ∈ List.tail cs) he
        simp [placeholder, hdollar, hlead, ha] at hmem

/-! ## Filling in turn -/

theorem filledInTurn_eq_filled {lead : String} {choice order : List (String × String)}
    (ha : Text.Apart (placeholders lead choice)) (hn : (choice.map Prod.fst).Nodup) (hp : order.Perm choice)
    {s : String} (hq : Text.Quiet (placeholders lead order).tail (filled lead choice s).toList) :
    filledInTurn lead order s = filled lead choice s := by
  have horder : (fillings lead order).Perm (fillings lead choice) := hp.map _
  rw [filled, String.toList_ofList] at hq
  rw [filledInTurn_eq, filled, Text.foldl_replace_eq_fill horder ha (nodup_placeholders lead hn) hq]

/-- A text of letters and digits has no placeholder. -/
theorem quiet_of_isWord {lead : String} {choice : List (String × String)} {s : String} (h : IsWord s) :
    Text.Quiet (placeholders lead choice) s.toList := by
  intro p hp hi
  rw [placeholders_eq] at hp
  obtain ⟨name, _, rfl⟩ := List.mem_map.mp hp
  have := h '$' (hi.subset List.mem_cons_self)
  revert this
  decide

/-! ## Templates -/

/-- A text without the lead of the dimensions' placeholders stays as it is. -/
theorem substitute_of_not_substring {lead s : String} {names replacements : List String}
    (h : ¬ Text.isSubstring ('$' :: '{' :: lead.toList) s.toList = true) :
    substitute lead names replacements s = s := by
  rw [Text.isSubstring_iff] at h
  rw [substitute_eq, Text.foldl_replace_of_quiet, String.ofList_toList]
  intro p hp hi
  obtain ⟨_, hf, rfl⟩ := List.mem_map.mp hp
  obtain ⟨pair, _, rfl⟩ := List.mem_map.mp hf
  refine h (List.IsInfix.trans (List.IsPrefix.isInfix ?_) hi)
  simp [placeholder, List.append_assoc]

mutual
/-- A stamped body is the body with its texts filled in turn. -/
theorem stamp_eq_mapTexts (values : Table String) (node : Node) :
    stamp values node = node.mapTexts (filledInTurn eachLead values) := by
  match node with
  | .text s =>
      rw [stamp, Node.mapTexts]
      split
      · rfl
      · rename_i h
        rw [filledInTurn, substitute_of_not_substring h]
  | .list items => rw [stamp, Node.mapTexts, stampItems_eq values items]
  | .map entries => rw [stamp, Node.mapTexts, stampEntries_eq values entries]
  | .null | .bool _ | .number _ => simp [stamp, Node.mapTexts]

theorem stampItems_eq (values : Table String) (items : List Node) :
    stampItems values items = Node.mapTextsOfItems (filledInTurn eachLead values) items := by
  match items with
  | [] => rfl
  | item :: items =>
      rw [stampItems, Node.mapTextsOfItems, stamp_eq_mapTexts values item, stampItems_eq values items]

theorem stampEntries_eq (values : Table String) (entries : List (String × Node)) :
    stampEntries values entries = Node.mapTextsOfEntries (filledInTurn eachLead values) entries := by
  match entries with
  | [] => rfl
  | (key, value) :: entries =>
      rw [stampEntries, Node.mapTextsOfEntries, stamp_eq_mapTexts values value, stampEntries_eq values entries]
end

/-! ## Entries -/

/-- The pattern of the ids: the declared one, or the id with a placeholder for each dimension. -/
def patternOf (id : String) (declaration : Node) (dimensions : List Dimension) : String :=
  match Table.get? declaration.entries "LogicalId" with
  | some (.text pattern) => pattern
  | _ => defaultPattern id dimensions

/-- An entry's id is made of the pattern with its keys, and its definition of the body with its values. Where
placeholders do not overlap, both come to a text that is filled at once, in whatever order the dimensions are
gone through. -/
structure Substitutes (m : Matrix) (body : Node) (entry : MatrixEntry) (d : Definition) : Prop where
  made : ∃ choice, IsChoice m.dimensions choice ∧ Made m.dimensions choice entry
  /-- The id is the filled pattern, unless this is refused as an id. -/
  id : Text.Apart (placeholders "" (m.pairsOf entry)) →
    (entry.id = filled "" (m.pairsOf entry) m.pattern ↔ IsWord (filled "" (m.pairsOf entry) m.pattern))
  idOrder : Text.Apart (placeholders "" (m.pairsOf entry)) →
    IsWord (filled "" (m.pairsOf entry) m.pattern) → ∀ order, order.Perm (m.pairsOf entry) →
      filledInTurn "" order m.pattern = filled "" (m.pairsOf entry) m.pattern
  definition : Definition.ofNode entry.id (body.mapTexts (filledInTurn eachLead entry.values)) = .ok d
  /-- A text is filled at once if no value makes a placeholder of a later dimension. -/
  texts : Text.Apart (placeholders eachLead entry.values) → ∀ s order, order.Perm entry.values →
    Text.Quiet (placeholders eachLead order).tail (filled eachLead entry.values s).toList →
      filledInTurn eachLead order s = filled eachLead entry.values s

theorem of_new {id pattern : String} {dimensions : List Dimension} {m : Matrix}
    (h : new id pattern dimensions = .ok m) : m.pattern = pattern ∧ m.dimensions = dimensions ∧
      ∀ entry ∈ m.entries,
        entry.id = substitute "" (m.dimensions.map Dimension.name) entry.keys m.pattern := by
  obtain ⟨entries, he, h⟩ := Outcome.bind_eq_ok.mp h
  obtain rfl := Except.ok.inj h
  refine ⟨rfl, rfl, fun entry hm => ?_⟩
  obtain ⟨choice, _, hentry⟩ := Outcome.exists_of_mem_right (Outcome.mapM_eq_ok.mp he) hm
  unfold entryOf at hentry
  simp only at hentry
  split at hentry
  · cases hentry
  · obtain rfl := Except.ok.inj hentry
    rfl

theorem substitutes_of_made {m : Matrix} (hn : (m.dimensions.map Dimension.name).Nodup) {body : Node}
    {entry : MatrixEntry} {d : Definition} {choice : List (String × String)}
    (hc : IsChoice m.dimensions choice) (hm : Made m.dimensions choice entry)
    (hid : entry.id = substitute "" (m.dimensions.map Dimension.name) entry.keys m.pattern)
    (hd : Definition.ofNode entry.id (stamp entry.values body) = .ok d) : m.Substitutes body entry d := by
  have hlen := hc.length_eq
  have hkeys : (m.pairsOf entry).map Prod.fst = m.dimensions.map Dimension.name := by
    rw [pairsOf, List.map_fst_zip (by simp [hm.keys, hlen])]
  have hvalues : entry.values.map Prod.fst = m.dimensions.map Dimension.name := by
    rw [hm.values, List.map_fst_zip (by simp [hlen])]
  have hturn : entry.id = filledInTurn "" (m.pairsOf entry) m.pattern := by
    rw [hid, filledInTurn, hkeys, pairsOf, List.map_snd_zip (by simp [hm.keys, hlen])]
  have horder : Text.Apart (placeholders "" (m.pairsOf entry)) →
      IsWord (filled "" (m.pairsOf entry) m.pattern) → ∀ order, order.Perm (m.pairsOf entry) →
        filledInTurn "" order m.pattern = filled "" (m.pairsOf entry) m.pattern := by
    intro ha hw order hp
    refine filledInTurn_eq_filled ha (hkeys ▸ hn) hp fun p hmem => ?_
    exact quiet_of_isWord hw p (List.mem_of_mem_tail hmem)
  refine ⟨⟨choice, hc, hm⟩, fun ha => ⟨fun he => he ▸ hm.word, fun hw => ?_⟩, horder, ?_, ?_⟩
  · rw [hturn, horder ha hw _ (.refl _)]
  · rwa [← stamp_eq_mapTexts]
  · exact fun ha s order hp hq => filledInTurn_eq_filled ha (hvalues ▸ hn) hp hq

end Matrix

/-! ## Sections -/

namespace Matrices

theorem pattern_of_plan {params : Parameters} {id : String} {declaration : Node} {p : Plan}
    (h : plan params id declaration = .ok p) :
    p.matrix.pattern = Matrix.patternOf id declaration p.matrix.dimensions := by
  have hget : Table.get? (Table.erase declaration.entries "Dimensions") "LogicalId" =
      Table.get? declaration.entries "LogicalId" := Table.get?_erase_of_ne _ (by decide)
  unfold plan at h
  simp only [Table.take, hget] at h
  split at h
  · simp at h
  · split at h
    · simp at h
    · split at h
      · obtain ⟨dimensions, _, h⟩ := Outcome.bind_eq_ok.mp h
        -- the pattern is chosen first, and the matrix is made of it last
        split at h
        all_goals
          rename_i hpattern
          obtain ⟨pattern, hp, h⟩ := Outcome.bind_eq_ok.mp h
          split at h
          · obtain ⟨body, _, h⟩ := Outcome.bind_eq_ok.mp h
            split at h
            · simp at h
            · obtain ⟨matrix, hm, h⟩ := Outcome.bind_eq_ok.mp h
              obtain rfl := Except.ok.inj h
              obtain ⟨hp', hd, _⟩ := Matrix.of_new hm
              rw [Matrix.patternOf, hpattern, hp', hd]
              first
                | exact (Except.ok.inj hp).symm
                | cases hp
          · obtain ⟨_, hb, _⟩ := Outcome.bind_eq_ok.mp h
            cases hb
      · simp at h

theorem exists_plan_of_declareAll {params : Parameters} {entries : List (String × Node)} {ms ms' : Matrices}
    {ds : List Definition} (h : declareAll params entries ms = (.ok ds, ms')) {e : String × Node}
    (he : e ∈ entries) :
    ∃ p, plan params e.1 e.2 = .ok p ∧ Table.get? ms'.table e.1 = some p.matrix := by
  induction entries generalizing ms ds with
  | nil => cases he
  | cons entry entries ih =>
      obtain ⟨first, middle, rest, hf, hr, rfl⟩ := declareAll_cons h
      rcases List.mem_cons.mp he with rfl | he
      · obtain ⟨p, issued, hp, _, rfl⟩ := declare_eq_ok hf
        exact ⟨p, hp, get?_of_declareAll hr (Table.get?_put_self _ _ _)⟩
      · exact ih hr he

/-- What the matrix of a declaration makes of its pattern and its body. -/
def Substitutes (ms : Matrices) (declared : String × Node) (part : List Definition) : Prop :=
  ∃ m body, Table.get? ms.table declared.1 = some m ∧
    m.pattern = Matrix.patternOf declared.1 declared.2 m.dimensions ∧
    Table.get? declared.2.entries "Resource" = some body ∧
    List.Forall₂ (m.Substitutes body) m.entries part

theorem Expands.substitutes {ms : Matrices} {params : Parameters} {declared : String × Node}
    (hw : declared.2.WellFormed) {part : List Definition} {m : Matrix} (hm : ms.Expands params declared part m)
    {p : Plan} (hp : plan params declared.1 declared.2 = .ok p)
    (hg : Table.get? ms.table declared.1 = some p.matrix) : ms.Substitutes declared part := by
  obtain rfl := Option.some.inj (hm.get?.symm.trans hg)
  obtain ⟨dims, hget, hdims⟩ := hm.dimensions
  obtain ⟨body, hbody, hds⟩ := hm.definitions
  obtain ⟨choices, hc⟩ := hm.complete
  obtain ⟨⟨pattern, _, dimensions, _, _, hnew⟩, _⟩ := of_plan hp
  obtain ⟨_, _, hids⟩ := Matrix.of_new hnew
  have hn := (dimensions_distinct (hw.entries.of_get? hget) hdims).1
  refine ⟨p.matrix, body, hg, pattern_of_plan hp, hbody, ?_⟩
  have hentries : ∀ entry ∈ p.matrix.entries, ∃ choice, Matrix.IsChoice p.matrix.dimensions choice ∧
      Matrix.Made p.matrix.dimensions choice entry := by
    intro entry he
    obtain ⟨choice, hm, hmade⟩ := Outcome.exists_of_mem_right hc.entries he
    exact ⟨choice, (hc.all choice).mp hm, hmade⟩
  have hall : ∀ entry ∈ p.matrix.entries, _ := fun entry he => And.intro (hentries entry he) (hids entry he)
  refine ((List.forall₂_and_left _ _).mpr ⟨hall, hds⟩).imp ?_
  rintro entry d ⟨⟨⟨choice, hchoice, hmade⟩, hid⟩, _, hd⟩
  exact Matrix.substitutes_of_made hn hchoice hmade hid hd

/-- In an accepted section each entry has its id from the pattern and its definition from the body of the
declaration: with its keys and values put in all at once, as far as these make no placeholders. -/
theorem substitutes_of_expandSection {ms ms' : Matrices} {params : Parameters} {node : Node}
    (hw : node.WellFormed) {ds : List Definition} (h : ms.expandSection params node = (.ok ds, ms')) :
    ∃ entries parts, node = .map entries ∧ ds = parts.flatten ∧
      List.Forall₂ ms'.Substitutes entries parts := by
  unfold expandSection at h
  split at h
  · rename_i entries
    have hall := (Node.wellFormed_map_iff.mp hw).2
    obtain ⟨parts, hds, hparts⟩ := expands_of_declareAll hall h
    have hplans : ∀ e ∈ entries, _ := fun e he => And.intro (hall e he) (exists_plan_of_declareAll h he)
    refine ⟨entries, parts, rfl, hds, ((List.forall₂_and_left _ _).mpr ⟨hplans, hparts⟩).imp ?_⟩
    rintro e part ⟨⟨hwe, p, hp, hg⟩, m, hm⟩
    exact hm.substitutes hwe hp hg
  · cases h

/-- A matrix whose ids and bodies ask for both of its dimensions. -/
def sitesByRole : Node :=
  .map [
    ("Dimensions", .map [("Role", .map [("Web", .text "w"), ("Static", .text "s")]),
      ("Domain", .list [.text "a.org", .text "b.org"])]),
    ("LogicalId", .text "$\x7bRole\x7dSite$\x7bDomain\x7d"),
    ("Resource", .map [("Type", .text "T"),
      ("Properties", .map [("Name", .text "$\x7bEach:Role\x7d.$\x7bEach:Domain\x7d")])])]

theorem substitutes_sitesByRole :
    ∃ ds ms, ({} : Matrices).expandSection [] (.map [("M", sitesByRole)]) = (.ok ds, ms) ∧
      ms.Substitutes ("M", sitesByRole) ds ∧
      Text.Apart (Matrix.placeholders Matrix.eachLead [("Role", "w"), ("Domain", "a.org")]) ∧
      Text.Quiet (Matrix.placeholders Matrix.eachLead [("Role", "w"), ("Domain", "a.org")]).tail
        (Matrix.filled Matrix.eachLead [("Role", "w"), ("Domain", "a.org")]
          "$\x7bEach:Role\x7d.$\x7bEach:Domain\x7d").toList := by
  obtain ⟨out, ms, h⟩ :
      ∃ out ms, ({} : Matrices).expandSection [] (.map [("M", sitesByRole)]) = (out, ms) := ⟨_, _, rfl⟩
  have hok : (({} : Matrices).expandSection [] (.map [("M", sitesByRole)])).1.isOk = true := by decide +kernel
  rw [h] at hok
  obtain ⟨ds, rfl⟩ := Outcome.exists_of_isOk hok
  have hw : (Node.map [("M", sitesByRole)]).WellFormed := by
    simp [sitesByRole, Node.wellFormed_map_iff, Node.wellFormed_list_iff, Table.Distinct, Table.keys]
  obtain ⟨entries, parts, hnode, rfl, hparts⟩ := substitutes_of_expandSection hw h
  obtain rfl := Node.map.inj hnode
  refine ⟨_, ms, h, ?_, Matrix.apart_placeholders (by decide) (by decide), by decide +kernel⟩
  cases hparts with
  | cons hm hrest =>
      cases hrest
      simpa using hm

/-- A matrix with a value that is the placeholder of a later dimension. -/
def valueAsPlaceholder : Node :=
  .map [("M", .map [
    ("Dimensions", .map [("A", .list [.text "$\x7bEach:B\x7d"]), ("B", .list [.text "x"])]),
    ("Resource", .map [("Type", .text "T"), ("Properties", .map [("N", .text "$\x7bEach:A\x7d")])])])]

/-- The value is filled in turn, although the text asks for the first dimension only; in the other order, and at
once, it stays. -/
theorem rescanned_valueAsPlaceholder :
    (({} : Matrices).expandSection [] valueAsPlaceholder).1.toOption.map (fun ds =>
        ds.map fun d => (Table.get? d.properties "N").bind Node.text?) = some [some "x"] ∧
      Matrix.filledInTurn Matrix.eachLead [("A", "$\x7bEach:B\x7d"), ("B", "x")] "$\x7bEach:A\x7d" = "x" ∧
      Matrix.filledInTurn Matrix.eachLead [("B", "x"), ("A", "$\x7bEach:B\x7d")] "$\x7bEach:A\x7d" =
        "$\x7bEach:B\x7d" ∧
      Matrix.filled Matrix.eachLead [("A", "$\x7bEach:B\x7d"), ("B", "x")] "$\x7bEach:A\x7d" =
        "$\x7bEach:B\x7d" := by
  decide +kernel

end Matrices
end Shorthand
