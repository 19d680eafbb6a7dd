import Shorthand.Proofs.Matrix.Selection
import Shorthand.Proofs.Text

/-!
# Looking up the entries of matrices

A reference that is written with the names of the dimensions and the keys of an entry is read back as that
selector, if the texts in it have no sign with a meaning of its own in a reference; and only then is the
entry found.
-/
namespace Shorthand

theorem ApiReference.ending?_eq_some_iff {cs : List Char} {attr : Option (List Char)} :
    ending? cs = some attr ↔ cs = attr.elim [] (fun as => '.' :: as) ∧
      ∀ as, attr = some as → as ≠ [] ∧ ∀ c ∈ as, isAttributeChar c = true := by
  constructor
  · intro h
    unfold ending? at h
    split at h
    · obtain rfl := Option.some.inj h
      simp
    · split at h
      · rename_i hcs
        obtain rfl := Option.some.inj h
        simpa using hcs
      · cases h
    · cases h
  · rintro ⟨rfl, hattr⟩
    cases attr with
    | none => rfl
    | some as =>
        obtain ⟨hne, hall⟩ := hattr as rfl
        simp only [Option.elim_some, ending?, List.all_eq_true.mpr hall]
        simp [hne]

namespace MatrixReference

/-! ## Texts of references -/

/-- A text that may stand in a selector: without the signs that part its pieces and end it, and without white
space at its ends. -/
structure IsPart (s : String) : Prop where
  comma : ',' ∉ s.toList
  bracket : ']' ∉ s.toList
  trimmed : Text.Trimmed s.toList

/-- What a reference can be written with: an id of letters and digits, and pairs that are read back. -/
structure Writable (matrix : String) (pairs : List (String × String)) : Prop where
  matrix : IsWord matrix ∧ matrix ≠ ""
  pairs : ∀ pair ∈ pairs, IsPart pair.1 ∧ '=' ∉ pair.1.toList ∧ IsPart pair.2

/-- The selector as it is written. -/
def selectorOf (pairs : List (String × String)) : String :=
  ",".intercalate (pairs.map fun pair => pair.1 ++ "=" ++ pair.2)

/-- A reference as it is written. -/
def ofPairs (matrix : String) (pairs : List (String × String)) (attr : Option String) : String :=
  lead ++ matrix ++ "[" ++ selectorOf pairs ++ "]" ++ attr.elim "" fun a => "." ++ a

/-- An attribute that a reference may end with. -/
def IsEnding (attr : Option String) : Prop := ∀ a, attr = some a → a ≠ "" ∧ IsAttribute a

theorem toList_ofPairs (matrix : String) (pairs : List (String × String)) (attr : Option String) :
    (ofPairs matrix pairs attr).toList = lead.toList ++ (matrix.toList ++ '[' :: ((selectorOf pairs).toList ++
      ']' :: (attr.map String.toList).elim [] fun as => '.' :: as)) := by
  cases attr <;> simp [ofPairs]

theorem IsEnding.ending? {attr : Option String} (h : IsEnding attr) :
    ApiReference.ending? ((attr.map String.toList).elim [] fun as => '.' :: as) =
      some (attr.map String.toList) := by
  refine ApiReference.ending?_eq_some_iff.mpr ⟨rfl, fun as has => ?_⟩
  obtain ⟨a, ha, rfl⟩ := Option.map_eq_some_iff.mp has
  exact ⟨fun he => (h a ha).1 (String.toList_eq_nil_iff.mp he), (h a ha).2⟩

/-- A text is read as a reference with a selector just if it is put together in this way. -/
theorem spelling?_eq_some_iff {text : String} {matrix selector : List Char} {attr : Option (List Char)} :
    spelling? text = some ⟨matrix, some selector, attr⟩ ↔ ∃ rest,
      text.toList = lead.toList ++ (matrix ++ '[' :: (selector ++ ']' :: rest)) ∧ matrix ≠ [] ∧
      (∀ c ∈ matrix, c.isAlphanum = true) ∧ ']' ∉ selector ∧ ApiReference.ending? rest = some attr := by
  constructor
  · intro h
    simp only [spelling?, Option.bind_eq_bind, Option.bind_eq_some_iff] at h
    obtain ⟨cs, hcs, h⟩ := h
    split at h
    · cases h
    · rename_i hne
      split at h
      · rename_i rest hrest
        simp only [Option.bind_eq_some_iff, Option.some.injEq, Spelling.mk.injEq] at h
        obtain ⟨⟨sel, ending⟩, hs, attr', hattr, rfl, rfl, rfl⟩ := h
        obtain ⟨rfl, hn⟩ := Text.splitFirst?_eq_some hs
        refine ⟨ending, ?_, by simpa using hne, fun c hc => ?_, hn, hattr⟩
        · rw [Text.after?_eq_some_iff.mp hcs, ← hrest, List.takeWhile_append_dropWhile]
        · exact List.mem_takeWhile_imp hc
      · simp only [Option.bind_eq_some_iff, Option.some.injEq, Spelling.mk.injEq] at h
        obtain ⟨_, _, _, h, _⟩ := h
        cases h
  · rintro ⟨rest, htext, hne, hword, hsel, hattr⟩
    have hbracket : Char.isAlphanum '[' = false := by decide
    simp only [spelling?, htext, Text.after?_append, Option.bind_eq_bind, Option.bind_some,
      Text.takeWhile_append_stop hword hbracket, Text.dropWhile_append_stop hword hbracket,
      Text.splitFirst?_append hsel, hattr]
    simp [hne]

/-! ## Reading the pairs -/

theorem isPart_trim {piece : List Char} (hc : ',' ∉ piece) (hb : ']' ∉ piece) :
    IsPart (String.ofList (Text.trim piece)) := by
  have hsub := Text.trim_subset piece
  refine ⟨?_, ?_, ?_⟩
  all_goals rw [String.toList_ofList]
  · exact fun hm => hc (hsub hm)
  · exact fun hm => hb (hsub hm)
  · exact Text.trimmed_trim piece

/-- What is read from a selector could have been written into it. -/
theorem isPart_of_pairsOf {text : String} {selector : List Char} {pairs : List (String × String)}
    (hb : ']' ∉ selector) (h : pairsOf text selector = .ok pairs) {pair : String × String}
    (hm : pair ∈ pairs) : IsPart pair.1 ∧ '=' ∉ pair.1.toList ∧ IsPart pair.2 := by
  obtain ⟨piece, hpiece, hp⟩ := Outcome.exists_of_mem_right (Outcome.mapM_eq_ok.mp h) hm
  obtain ⟨part, hpart, rfl⟩ := List.mem_map.mp (List.mem_of_mem_filter hpiece)
  obtain ⟨hcomma, hsub⟩ := Text.mem_split hpart
  have hcomma : ',' ∉ Text.trim part := fun hm => hcomma (Text.trim_subset part hm)
  have hbracket : ']' ∉ Text.trim part := fun hm => hb (hsub (Text.trim_subset part hm))
  unfold pairOf at hp
  split at hp
  · rename_i name key hs
    obtain ⟨he, hequals⟩ := Text.splitFirst?_eq_some hs
    obtain rfl := Except.ok.inj hp
    rw [he, List.mem_append, List.mem_cons, not_or, not_or] at hcomma hbracket
    refine ⟨isPart_trim hcomma.1 hbracket.1, ?_, isPart_trim hcomma.2.2 hbracket.2.2⟩
    rw [String.toList_ofList]
    exact fun hm => hequals (Text.trim_subset name hm)
  · cases hp

/-- The characters of one pair. -/
def pairChars (pair : String × String) : List Char := pair.1.toList ++ '=' :: pair.2.toList

theorem toList_selectorOf (pairs : List (String × String)) :
    (selectorOf pairs).toList = [','].intercalate (pairs.map pairChars) := by
  rw [selectorOf, String.toList_intercalate, List.map_map]
  refine congrArg _ (List.map_congr_left fun pair _ => ?_)
  simp [pairChars]

theorem pairOf_pairChars {pair : String × String} (hname : IsPart pair.1) (hequals : '=' ∉ pair.1.toList)
    (hkey : IsPart pair.2) (text : String) : pairOf text (pairChars pair) = .ok pair := by
  simp only [pairOf, pairChars, Text.splitFirst?_append hequals, Text.trim_eq_self_iff.mpr hname.trimmed,
    Text.trim_eq_self_iff.mpr hkey.trimmed, String.ofList_toList]

theorem pairsOf_selectorOf {pairs : List (String × String)}
    (h : ∀ pair ∈ pairs, IsPart pair.1 ∧ '=' ∉ pair.1.toList ∧ IsPart pair.2) (text : String) :
    pairsOf text (selectorOf pairs).toList = .ok pairs := by
  by_cases hne : pairs = []
  · subst hne
    rfl
  · have hcomma : ∀ piece ∈ pairs.map pairChars, ',' ∉ piece := by
      intro piece hm
      obtain ⟨pair, hp, rfl⟩ := List.mem_map.mp hm
      simp [pairChars, (h pair hp).1.comma, (h pair hp).2.2.comma]
    have htrim : (pairs.map pairChars).map Text.trim = pairs.map pairChars := by
      rw [List.map_map]
      refine List.map_congr_left fun pair hp => Text.trim_eq_self_iff.mpr ?_
      exact (h pair hp).1.trimmed.append (h pair hp).2.2.trimmed (by decide)
    have hkept : (pairs.map pairChars).filter (fun piece => !piece.isEmpty) = pairs.map pairChars := by
      refine List.filter_eq_self.mpr fun piece hm => ?_
      obtain ⟨pair, _, rfl⟩ := List.mem_map.mp hm
      simp [pairChars]
    rw [pairsOf, toList_selectorOf, Text.split_intercalate hcomma (by simpa using hne), htrim, hkept,
      Outcome.mapM_eq_ok, List.forall₂_map_left_iff, List.forall₂_same]
    exact fun pair hp => pairOf_pairChars (h pair hp).1 (h pair hp).2.1 (h pair hp).2.2 text

/-- What can be written is read back. -/
theorem Writable.parse {matrix : String} {pairs : List (String × String)} (h : Writable matrix pairs)
    {attr : Option String} (ha : IsEnding attr) :
    parse (ofPairs matrix pairs attr) = .ok ⟨matrix, some pairs, attr⟩ := by
  have hbracket : ']' ∉ (selectorOf pairs).toList := by
    rw [toList_selectorOf, Text.mem_intercalate_iff (by decide)]
    rintro ⟨_, hm, hb⟩
    obtain ⟨pair, hp, rfl⟩ := List.mem_map.mp hm
    simp [pairChars, (h.pairs pair hp).1.bracket, (h.pairs pair hp).2.2.bracket] at hb
  have hs := spelling?_eq_some_iff.mpr ⟨_, toList_ofPairs matrix pairs attr,
    fun he => h.matrix.2 (String.toList_eq_nil_iff.mp he), h.matrix.1, hbracket, ha.ending?⟩
  simp [MatrixReference.parse, hs, pairsOf_selectorOf h.pairs]

/-- What is read from a text can be written. -/
theorem writable_of_parse {text : String} {ref : MatrixReference} (h : parse text = .ok ref)
    {pairs : List (String × String)} (hp : ref.selector = some pairs) : Writable ref.matrix pairs := by
  unfold MatrixReference.parse at h
  split at h
  · cases h
  · rename_i s hs
    obtain ⟨matrix, selector, attr⟩ := s
    cases selector with
    | none =>
        obtain rfl := Except.ok.inj h
        cases hp
    | some selector =>
        obtain ⟨read, hread, h⟩ := Outcome.bind_eq_ok.mp h
        obtain ⟨read, hpairs, rfl⟩ := Outcome.map_eq_ok.mp hread
        obtain rfl := Except.ok.inj h
        obtain rfl := Option.some.inj hp
        obtain ⟨_, _, hne, hword, hbracket, _⟩ := spelling?_eq_some_iff.mp hs
        refine ⟨⟨?_, ?_⟩, fun pair hm => isPart_of_pairsOf hbracket hpairs hm⟩
        · simpa [IsWord] using hword
        · simpa [← String.toList_eq_nil_iff] using hne

theorem Writable.of_subset {matrix : String} {pairs more : List (String × String)} (h : Writable matrix more)
    (hs : pairs ⊆ more) : Writable matrix pairs :=
  ⟨h.matrix, fun pair hm => h.pairs pair (hs hm)⟩

end MatrixReference

/-! ## The selector of an entry -/

namespace Matrix

/-- The selector that names every dimension with the entry's key. -/
def pairsOf (m : Matrix) (entry : MatrixEntry) : List (String × String) :=
  (m.dimensions.map Dimension.name).zip entry.keys

variable {m : Matrix} {entry : MatrixEntry}

theorem mem_pairsOf {pair : String × String} :
    pair ∈ m.pairsOf entry ↔ ∃ d key, (d, key) ∈ m.dimensions.zip entry.keys ∧ (d.name, key) = pair := by
  simp [pairsOf, List.zip_map_left]

/-- Any selector that picks the entry has the pairs of this one. -/
theorem Picks.pairsOf_subset {pairs : List (String × String)} (h : m.Picks pairs entry) :
    m.pairsOf entry ⊆ pairs := by
  intro pair hm
  obtain ⟨d, key, hz, rfl⟩ := mem_pairsOf.mp hm
  exact (List.forall₂_iff_zip.mp h).2 hz

section
variable {choices : List (List (String × String))} (h : m.Complete choices) (he : entry ∈ m.entries)
include h he

/-- An entry has a key of each dimension's options. -/
theorem Complete.keys : List.Forall₂ (fun d key => key ∈ Table.keys d.options) m.dimensions entry.keys := by
  obtain ⟨choice, hc, hm⟩ := Outcome.exists_of_mem_right h.entries he
  rw [hm.keys, List.forall₂_map_right_iff]
  exact ((h.all choice).mp hc).imp fun _ _ ho => List.mem_map_of_mem (f := Prod.fst) ho

theorem Complete.picks_pairsOf : m.Picks (m.pairsOf entry) entry :=
  List.forall₂_iff_zip.mpr ⟨(h.keys he).length_eq, fun hz => mem_pairsOf.mpr ⟨_, _, hz, rfl⟩⟩

theorem Complete.selects_pairsOf (hn : (m.dimensions.map Dimension.name).Nodup) :
    m.Selects (m.pairsOf entry) := by
  obtain ⟨hlen, hoption⟩ := List.forall₂_iff_zip.mp (h.keys he)
  have hkeys : Table.keys (m.pairsOf entry) = m.dimensions.map Dimension.name := by
    rw [Table.keys, pairsOf, List.map_fst_zip (by simp [hlen])]
  constructor
  · intro d hd
    rw [hkeys]
    exact List.count_eq_one_of_mem hn (List.mem_map_of_mem hd)
  · exact fun name hm => hkeys ▸ hm
  · intro d hd key hm
    obtain ⟨d', key', hz, hp⟩ := mem_pairsOf.mp hm
    obtain ⟨hname, rfl⟩ := Prod.mk.inj hp
    obtain rfl := List.inj_on_of_nodup_map hn (List.of_mem_zip hz).1 hd hname
    exact hoption hz

/-- The entry is selected by its own pairs. -/
theorem Complete.select_pairsOf (hn : (m.dimensions.map Dimension.name).Nodup)
    (hs : ∀ text pairs, m.Inverted text pairs) (text : String) :
    m.select text (m.pairsOf entry) = .ok entry := by
  obtain ⟨found, hf⟩ := (hs text _).answers.mpr (h.selects_pairsOf he hn)
  rw [hf, (hs text _).unique found hf entry he (h.picks_pairsOf he)]

end
end Matrix

/-! ## Ids of different entries -/

namespace Matrices

/-- The entries of all matrices have ids of their own, and these have been issued. -/
structure Unique (ms : Matrices) : Prop where
  issued : ∀ declared ∈ ms.table, ∀ entry ∈ declared.2.entries, entry.id ∈ ms.issued
  apart : ∀ a ∈ ms.table, ∀ b ∈ ms.table, ∀ x ∈ a.2.entries, ∀ y ∈ b.2.entries, x.id = y.id → a = b ∧ x = y

theorem subset_issue (body : Node) (entries : List MatrixEntry) (issued : List String) :
    issued ⊆ (issue body entries issued).2 := by
  induction entries generalizing issued with
  | nil => exact List.Subset.refl issued
  | cons entry entries ih =>
      have hmore := List.subset_append_left issued [entry.id]
      unfold issue
      split
      · exact List.Subset.refl issued
      · simp only
        split
        · exact hmore
        · have hrest := ih (issued ++ [entry.id])
          split
          · rename_i he
            rw [he] at hrest
            exact List.Subset.trans hmore hrest
          · exact List.Subset.trans hmore hrest

/-- Issued ids are new, each in its turn. -/
theorem issue_spec {body : Node} {entries : List MatrixEntry} {issued issued' : List String}
    {ds : List Definition} (h : issue body entries issued = (.ok ds, issued')) :
    (entries.map MatrixEntry.id).Nodup ∧ (∀ entry ∈ entries, entry.id ∉ issued) ∧
      issued' = issued ++ entries.map MatrixEntry.id := by
  induction entries generalizing issued ds with
  | nil =>
      obtain ⟨_, rfl⟩ := Prod.mk.inj h
      simp
  | cons entry entries ih =>
      unfold issue at h
      split at h
      · cases h
      · rename_i hc
        rw [List.contains_iff_mem] at hc
        simp only at h
        split at h
        · cases h
        · split at h
          · rename_i hi
            obtain ⟨_, rfl⟩ := Prod.mk.inj h
            obtain ⟨hn, hnew, rfl⟩ := ih hi
            simp only [List.mem_append, List.mem_singleton, not_or] at hnew
            refine ⟨List.nodup_cons.mpr ⟨fun hm => ?_, hn⟩, ?_, by simp⟩
            · obtain ⟨other, ho, he⟩ := List.mem_map.mp hm
              exact (hnew other ho).2 he
            · exact List.forall_mem_cons.mpr ⟨hc, fun other ho => (hnew other ho).1⟩
          · rename_i hf
            exact absurd h (hf _ _)

theorem Unique.declare {ms : Matrices} (h : ms.Unique) (params : Parameters) (id : String)
    (declaration : Node) : (ms.declare params id declaration).2.Unique := by
  unfold Matrices.declare
  split
  · exact h
  · rename_i hid
    split
    · exact h
    · rename_i matrix body _
      split
      · rename_i issued hi
        have hmore := subset_issue body matrix.entries ms.issued
        rw [hi] at hmore
        exact ⟨fun declared hm entry he => hmore (h.issued declared hm entry he), h.apart⟩
      · rename_i ds issued hi
        obtain ⟨hn, hnew, rfl⟩ := issue_spec hi
        rw [Table.has_iff_mem_keys] at hid
        rw [Table.put_of_not_mem matrix hid]
        constructor
        · intro declared hm entry he
          rcases List.mem_append.mp hm with hm | hm
          · exact List.mem_append_left _ (h.issued declared hm entry he)
          · obtain rfl := List.mem_singleton.mp hm
            exact List.mem_append_right _ (List.mem_map_of_mem he)
        · intro a ha b hb x hx y hy he
          rcases List.mem_append.mp ha with ha | ha <;> rcases List.mem_append.mp hb with hb | hb
          · exact h.apart a ha b hb x hx y hy he
          · obtain rfl := List.mem_singleton.mp hb
            exact absurd (he ▸ h.issued a ha x hx) (hnew y hy)
          · obtain rfl := List.mem_singleton.mp ha
            exact absurd (he ▸ h.issued b hb y hy) (hnew x hx)
          · obtain rfl := List.mem_singleton.mp ha
            obtain rfl := List.mem_singleton.mp hb
            exact ⟨rfl, List.inj_on_of_nodup_map hn hx hy he⟩

theorem Unique.declareAll {params : Parameters} (entries : List (String × Node)) {ms : Matrices}
    (h : ms.Unique) : (Matrices.declareAll params entries ms).2.Unique := by
  induction entries generalizing ms with
  | nil => exact h
  | cons entry entries ih =>
      have hfirst := h.declare params entry.1 entry.2
      unfold Matrices.declareAll
      split
      · rename_i hd
        rwa [hd] at hfirst
      · rename_i middle hd
        rw [hd] at hfirst
        have hrest := ih hfirst
        split
        · rename_i hr
          rwa [hr] at hrest
        · exact hrest

theorem Reached.unique {ms : Matrices} (h : Reached ms) : ms.Unique := by
  induction h with
  | new => exact ⟨fun _ hm => absurd hm List.not_mem_nil, fun _ hm => absurd hm List.not_mem_nil⟩
  | expand _ params node ih =>
      unfold expandSection
      split
      · exact ih.declareAll _
      · exact ih

/-! ## Lookups -/

/-- How an entry is found: the reference names its matrix, and the selector has one. -/
theorem lookup_eq_ok {ms : Matrices} {text : String} {t : Target} : ms.lookup text = .ok t ↔
    ∃ ref m pairs entry, MatrixReference.parse text = .ok ref ∧ Table.get? ms.table ref.matrix = some m ∧
      ref.selector = some pairs ∧ m.select text pairs = .ok entry ∧
      t = (Target.resource entry.id).withAttribute ref.attr := by
  constructor
  · intro h
    simp only [Matrices.lookup, Outcome.bind_eq_ok] at h
    obtain ⟨ref, hr, m, hm, h⟩ := h
    unfold find at hm
    split at hm
    · rename_i hg
      obtain rfl := Except.ok.inj hm
      split at h
      · cases h
      · rename_i hs
        obtain ⟨entry, he, ht⟩ := Outcome.bind_eq_ok.mp h
        exact ⟨ref, _, _, entry, hr, hg, hs, he, (Except.ok.inj ht).symm⟩
    · cases hm
  · rintro ⟨ref, m, pairs, entry, hr, hg, hs, he, rfl⟩
    simp only [Matrices.lookup, hr, Outcome.ok_bind, find, hg, hs, he]

/-- What references give for the entries of a matrix when they are written with its own texts. -/
def Answers (ms : Matrices) (id : String) (m : Matrix) : Prop :=
  ∀ entry ∈ m.entries, ∀ attr, MatrixReference.IsEnding attr →
    (ms.lookup (MatrixReference.ofPairs id (m.pairsOf entry) attr) =
      .ok ((Target.resource entry.id).withAttribute attr) ↔ MatrixReference.Writable id (m.pairsOf entry))

theorem Unique.answers {ms : Matrices} (hu : ms.Unique) {id : String} {m : Matrix}
    (hg : Table.get? ms.table id = some m) {choices : List (List (String × String))}
    (hc : m.Complete choices) (hn : (m.dimensions.map Dimension.name).Nodup)
    (hs : ∀ text pairs, m.Inverted text pairs) : ms.Answers id m := by
  intro entry he attr ha
  constructor
  · intro hl
    obtain ⟨ref, m', pairs, found, hparse, hg', hsel, hf, ht⟩ := lookup_eq_ok.mp hl
    have hid : entry.id = found.id := by
      simpa [Target.resource] using congrArg Target.id ht
    -- an entry of another matrix would have another id
    obtain ⟨heq, rfl⟩ := hu.apart _ (Table.mem_of_get? hg) _ (Table.mem_of_get? hg') entry he found
      (Matrix.mem_of_select hf) hid
    obtain ⟨rfl, rfl⟩ := Prod.mk.inj heq
    exact (MatrixReference.writable_of_parse hparse hsel).of_subset ((hs _ _).picks entry hf).2.pairsOf_subset
  · intro hw
    simp [Matrices.lookup, hw.parse ha, find, hg, hc.select_pairsOf he hn hs]

/-- The entries of all matrices of an accepted section are found under their own names and keys, if these can
be written into a reference, and only then. -/
theorem answers_of_expandSection {ms ms' : Matrices} (hr : Reached ms) {params : Parameters} {node : Node}
    (hw : node.WellFormed) {ds : List Definition} (h : ms.expandSection params node = (.ok ds, ms')) :
    ∃ entries parts, node = .map entries ∧ ds = parts.flatten ∧
      List.Forall₂ (fun e part => ∃ m, ms'.Expands params e part m ∧ ms'.Answers e.1 m) entries parts := by
  have hu : ms'.Unique := by
    have hnext := (hr.expand params node).unique
    rwa [h] at hnext
  unfold expandSection at h
  split at h
  · rename_i entries
    have hall := (Node.wellFormed_map_iff.mp hw).2
    obtain ⟨parts, hds, hparts⟩ := expands_of_declareAll hall h
    refine ⟨entries, parts, rfl, hds, ((List.forall₂_and_left _ _).mpr ⟨hall, hparts⟩).imp ?_⟩
    rintro e part ⟨hwe, m, hm⟩
    obtain ⟨dims, hget, hdims⟩ := hm.dimensions
    obtain ⟨choices, hc⟩ := hm.complete
    have hn := (dimensions_distinct (hwe.entries.of_get? hget) hdims).1
    exact ⟨m, hm, hu.answers hm.get? hc hn hm.selection⟩
  · cases h

/-- Two dimensions, one of them with keys of its own. -/
def domainsByRole : Node :=
  .map [("M", .map [
    ("Dimensions", .map [("Role Name", .map [("Web", .text "w"), ("Static", .text "s")]),
      ("Domain", .list [.text "A", .text "B"])]),
    ("LogicalId", .text "Site$\x7bRole Name\x7d$\x7bDomain\x7d"),
    ("Resource", .map [("Type", .text "T")])])]

theorem answers_domainsByRole :
    ∃ ds ms m, ({} : Matrices).expandSection [] domainsByRole = (.ok ds, ms) ∧
      Table.get? ms.table "M" = some m ∧ ms.Answers "M" m := by
  obtain ⟨out, ms, h⟩ : ∃ out ms, ({} : Matrices).expandSection [] domainsByRole = (out, ms) := ⟨_, _, rfl⟩
  have hok : (({} : Matrices).expandSection [] domainsByRole).1.isOk = true := by decide +kernel
  rw [h] at hok
  obtain ⟨ds, rfl⟩ := Outcome.exists_of_isOk hok
  have hw : domainsByRole.WellFormed := by
    simp [domainsByRole, Node.wellFormed_map_iff, Node.wellFormed_list_iff, Table.Distinct, Table.keys]
  obtain ⟨entries, parts, hnode, _, hparts⟩ := answers_of_expandSection .new hw h
  obtain rfl := Node.map.inj hnode
  cases hparts with
  | cons hm _ =>
      obtain ⟨m, hm, ha⟩ := hm
      exact ⟨ds, ms, m, h, hm.get?, ha⟩

/-- A matrix whose id is no word. -/
def unreadMatrix : Node :=
  .map [("my-matrix", .map [("Dimensions", .map [("D", .list [.text "a"])]), ("LogicalId", .text "Fixed"),
    ("Resource", .map [("Type", .text "T")])])]

/-- It is accepted, and its entry is not found under its own name and key. -/
theorem unread_unreadMatrix :
    ∃ ms, ms = (({} : Matrices).expandSection [] unreadMatrix).2 ∧
      (({} : Matrices).expandSection [] unreadMatrix).1.isOk = true ∧
      (Table.get? ms.table "my-matrix").map (fun m => m.entries.map fun entry => (entry.id, m.pairsOf entry)) =
        some [("Fixed", [("D", "1")])] ∧
      (ms.lookup (MatrixReference.ofPairs "my-matrix" [("D", "1")] none)).isOk = false := by
  refine ⟨_, rfl, ?_⟩
  decide +kernel

end Matrices
end Shorthand
