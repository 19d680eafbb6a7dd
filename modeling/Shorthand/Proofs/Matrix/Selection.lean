import Shorthand.Proofs.Matrix.Product

/-!
# Selecting an entry

A selector that names every dimension once, and each with one of its options, has the one entry with these
keys; any other selector has none.
-/
namespace Shorthand

namespace Matrix

/-! ## Entries with keys -/

section
variable {m : Matrix} {choices : List (List (String × String))}

theorem Complete.exists_entry (h : m.Complete choices) {keys : List String}
    (hk : List.Forall₂ (fun d key => key ∈ Table.keys d.options) m.dimensions keys) :
    ∃ entry ∈ m.entries, entry.keys = keys := by
  have hchoice : ∃ choice, IsChoice m.dimensions choice ∧ choice.map Prod.fst = keys := by
    obtain ⟨choice, ho, he⟩ := Outcome.exists_between (R := fun (d : Dimension) option => option ∈ d.options)
      (S := fun option key => option.1 = key) (hk.imp fun _ _ hm => List.mem_map.mp hm)
    exact ⟨choice, ho, List.forall₂_eq_eq_eq ▸ List.forall₂_map_left_iff.mpr he⟩
  obtain ⟨choice, hc, rfl⟩ := hchoice
  obtain ⟨i, hi⟩ := List.getElem?_of_mem ((h.all choice).mpr hc)
  obtain ⟨entry, he, hm⟩ := Outcome.exists_right h.entries hi
  exact ⟨entry, List.mem_of_getElem? he, hm.keys⟩

theorem Complete.eq_of_keys (h : m.Complete choices) (hd : ∀ d ∈ m.dimensions, Table.Distinct d.options)
    {a b : MatrixEntry} (ha : a ∈ m.entries) (hb : b ∈ m.entries) (hk : a.keys = b.keys) : a = b := by
  obtain ⟨i, hi⟩ := List.getElem?_of_mem ha
  obtain ⟨j, hj⟩ := List.getElem?_of_mem hb
  obtain ⟨x, hx, hmx⟩ := Outcome.exists_left h.entries hi
  obtain ⟨y, hy, hmy⟩ := Outcome.exists_left h.entries hj
  have hcx := (h.all x).mp (List.mem_of_getElem? hx)
  have hcy := (h.all y).mp (List.mem_of_getElem? hy)
  obtain rfl := hcx.eq_of_keys hd hcy (hmx.keys.symm.trans (hk.trans hmy.keys))
  obtain rfl := (List.getElem?_inj (List.getElem?_eq_some_iff.mp hx).1 h.nodup).mp (hx.trans hy.symm)
  exact Option.some.inj (hi.symm.trans hj)

end

/-! ## Selectors -/

/-- A selector names each dimension once and nothing else, and each with one of its options. -/
structure Selects (m : Matrix) (pairs : List (String × String)) : Prop where
  once : ∀ d ∈ m.dimensions, (Table.keys pairs).count d.name = 1
  known : ∀ name ∈ Table.keys pairs, name ∈ m.dimensions.map Dimension.name
  option : ∀ d ∈ m.dimensions, ∀ key, (d.name, key) ∈ pairs → key ∈ Table.keys d.options

/-- The entry has the keys that a selector gives to the dimensions. -/
def Picks (m : Matrix) (pairs : List (String × String)) (entry : MatrixEntry) : Prop :=
  List.Forall₂ (fun d key => (d.name, key) ∈ pairs) m.dimensions entry.keys

variable {m : Matrix}

theorem checkPairs_eq_ok {text : String} {seen : List String} {pairs : List (String × String)} :
    m.checkPairs text seen pairs = .ok () ↔ (Table.keys pairs).Nodup ∧
      ∀ name ∈ Table.keys pairs, name ∈ m.dimensions.map Dimension.name ∧ name ∉ seen := by
  induction pairs generalizing seen with
  | nil => simp [checkPairs, Table.keys]
  | cons pair pairs ih =>
      obtain ⟨name, key⟩ := pair
      have hkeys : Table.keys ((name, key) :: pairs) = name :: Table.keys pairs := rfl
      rw [checkPairs, hkeys, List.nodup_cons, List.forall_mem_cons]
      split
      · rename_i hc
        simp only [Bool.not_eq_true', List.contains_eq_mem, decide_eq_false_iff_not] at hc
        exact ⟨fun h => (by cases h), fun h => absurd h.2.1.1 hc⟩
      · rename_i hc
        simp only [Bool.not_eq_true', List.contains_eq_mem, decide_eq_false_iff_not, Decidable.not_not] at hc
        split
        · rename_i hs
          rw [List.contains_iff_mem] at hs
          exact ⟨fun h => (by cases h), fun h => absurd hs h.2.1.2⟩
        · rename_i hs
          rw [List.contains_iff_mem] at hs
          rw [ih]
          constructor
          · rintro ⟨hn, hall⟩
            have hname : name ∉ Table.keys pairs := fun hm => (hall name hm).2 List.mem_cons_self
            refine ⟨⟨hname, hn⟩, ⟨hc, hs⟩, fun other ho => ?_⟩
            exact ⟨(hall other ho).1, fun hm => (hall other ho).2 (List.mem_cons_of_mem _ hm)⟩
          · rintro ⟨⟨hname, hn⟩, _, hall⟩
            refine ⟨hn, fun other ho => ⟨(hall other ho).1, fun hm => ?_⟩⟩
            rcases List.mem_cons.mp hm with rfl | hm
            · exact hname ho
            · exact (hall other ho).2 hm

theorem chosenKey_eq_ok {text : String} {pairs : List (String × String)} {d : Dimension} {key : String} :
    chosenKey text pairs d = .ok key ↔ Table.get? pairs d.name = some key ∧ key ∈ Table.keys d.options := by
  rw [chosenKey]
  cases hg : Table.get? pairs d.name with
  | none => simp
  | some found =>
      simp only [Option.some.injEq]
      split
      · rename_i hh
        rw [Table.has_iff_mem_keys] at hh
        exact ⟨fun h => Except.ok.inj h ▸ ⟨rfl, hh⟩, fun h => h.1 ▸ rfl⟩
      · rename_i hh
        rw [Table.has_iff_mem_keys] at hh
        exact ⟨fun h => (by cases h), fun h => absurd (h.1 ▸ h.2) hh⟩

/-- The pairs are those of a good selector, and each dimension's key is found in them. -/
theorem select_eq_ok {text : String} {pairs : List (String × String)} {entry : MatrixEntry} :
    m.select text pairs = .ok entry ↔ m.checkPairs text [] pairs = .ok () ∧
      ∃ keys, List.Forall₂ (fun d key => chosenKey text pairs d = .ok key) m.dimensions keys ∧
        m.entries.find? (fun e => e.keys == keys) = some entry := by
  simp only [select, Outcome.bind_eq_ok, Outcome.mapM_eq_ok]
  constructor
  · rintro ⟨_, hc, keys, hk, h⟩
    split at h
    · rename_i hf
      exact ⟨hc, keys, hk, Except.ok.inj h ▸ hf⟩
    · cases h
  · rintro ⟨hc, keys, hk, hf⟩
    exact ⟨(), hc, keys, hk, by rw [hf]⟩

theorem selects_iff (text : String) {pairs : List (String × String)} :
    m.Selects pairs ↔ m.checkPairs text [] pairs = .ok () ∧
      ∀ d ∈ m.dimensions, ∃ key, chosenKey text pairs d = .ok key := by
  rw [checkPairs_eq_ok]
  constructor
  · intro h
    have hn : (Table.keys pairs).Nodup := by
      refine List.nodup_iff_count_le_one.mpr fun name => ?_
      by_cases hm : name ∈ Table.keys pairs
      · obtain ⟨d, hd, rfl⟩ := List.mem_map.mp (h.known name hm)
        exact Nat.le_of_eq (h.once d hd)
      · rw [List.count_eq_zero_of_not_mem hm]
        exact Nat.zero_le 1
    refine ⟨⟨hn, fun name hm => ⟨h.known name hm, List.not_mem_nil⟩⟩, fun d hd => ?_⟩
    have hm : d.name ∈ Table.keys pairs := List.count_pos_iff.mp (by rw [h.once d hd]; exact Nat.one_pos)
    obtain ⟨key, hg⟩ := Table.exists_get?_of_mem_keys hm
    exact ⟨key, chosenKey_eq_ok.mpr ⟨hg, h.option d hd key (Table.mem_of_get? hg)⟩⟩
  · rintro ⟨⟨hn, hall⟩, hkeys⟩
    refine ⟨fun d hd => ?_, fun name hm => (hall name hm).1, fun d hd key hm => ?_⟩
    · obtain ⟨key, hk⟩ := hkeys d hd
      exact List.count_eq_one_of_mem hn (Table.mem_keys_of_get? (chosenKey_eq_ok.mp hk).1)
    · obtain ⟨key', hk⟩ := hkeys d hd
      obtain ⟨hg, hopt⟩ := chosenKey_eq_ok.mp hk
      have hd : Table.Distinct pairs := hn
      rw [hd.get?_of_mem hm] at hg
      exact Option.some.inj hg ▸ hopt

/-! ## Selection -/

/-- Selection answers the good selectors and no others, each with the one entry that has its keys. -/
structure Inverted (m : Matrix) (text : String) (pairs : List (String × String)) : Prop where
  answers : (∃ entry, m.select text pairs = .ok entry) ↔ m.Selects pairs
  picks : ∀ entry, m.select text pairs = .ok entry → entry ∈ m.entries ∧ m.Picks pairs entry
  unique : ∀ entry, m.select text pairs = .ok entry → ∀ other ∈ m.entries, m.Picks pairs other → other = entry

theorem Complete.inverted {choices : List (List (String × String))} (h : m.Complete choices)
    (hd : ∀ d ∈ m.dimensions, Table.Distinct d.options) (text : String) (pairs : List (String × String)) :
    m.Inverted text pairs := by
  have hpicks : ∀ entry, m.select text pairs = .ok entry → entry ∈ m.entries ∧ m.Picks pairs entry := by
    intro entry hs
    obtain ⟨_, keys, hk, hf⟩ := select_eq_ok.mp hs
    obtain rfl : entry.keys = keys := by simpa using List.find?_some hf
    exact ⟨List.mem_of_find?_eq_some hf, hk.imp fun _ _ hc => Table.mem_of_get? (chosenKey_eq_ok.mp hc).1⟩
  refine ⟨?_, hpicks, fun entry hs other hm hp => ?_⟩
  · rw [selects_iff text]
    constructor
    · rintro ⟨entry, hs⟩
      obtain ⟨hc, keys, hk, _⟩ := select_eq_ok.mp hs
      refine ⟨hc, fun d hdim => ?_⟩
      obtain ⟨key, _, hkey⟩ := Outcome.exists_of_mem_right hk.flip hdim
      exact ⟨key, hkey⟩
    · rintro ⟨hc, hkeys⟩
      obtain ⟨keys, hk⟩ := Outcome.mapM_ok hkeys
      have hk := Outcome.mapM_eq_ok.mp hk
      obtain ⟨entry, hm, he⟩ := h.exists_entry (hk.imp fun _ _ hkey => (chosenKey_eq_ok.mp hkey).2)
      obtain ⟨found, hf⟩ : ∃ found, m.entries.find? (fun e => e.keys == keys) = some found :=
        Option.isSome_iff_exists.mp (List.find?_isSome.mpr ⟨entry, hm, beq_iff_eq.mpr he⟩)
      exact ⟨found, select_eq_ok.mpr ⟨hc, keys, hk, hf⟩⟩
  · obtain ⟨hentry, hp'⟩ := hpicks entry hs
    obtain ⟨hc, _⟩ := select_eq_ok.mp hs
    have hdistinct : Table.Distinct pairs := (checkPairs_eq_ok.mp hc).1
    have hone : Relator.RightUnique fun (d : Dimension) key => (d.name, key) ∈ pairs := by
      intro d a b ha hb
      exact Option.some.inj ((hdistinct.get?_of_mem ha).symm.trans (hdistinct.get?_of_mem hb))
    exact h.eq_of_keys hd hm hentry (hone.forall₂ hp hp')

end Matrix

/-! ## Sections -/

namespace Matrices

/-- What a declaration is expanded to: a matrix of the declared dimensions, which has every choice of options
as an entry, and the definitions that its entries make of the declared body. -/
structure Expands (ms : Matrices) (params : Parameters) (declared : String × Node) (part : List Definition)
    (m : Matrix) : Prop where
  get? : Table.get? ms.table declared.1 = some m
  dimensions : ∃ entries, Table.get? declared.2.entries "Dimensions" = some (.map entries) ∧
    List.Forall₂ (fun e d => Dimension.ofNode declared.1 params e.1 e.2 = .ok d) entries m.dimensions
  complete : ∃ choices, m.Complete choices
  definitions : ∃ body, Table.get? declared.2.entries "Resource" = some body ∧
    List.Forall₂ (fun entry d => d.id = entry.id ∧
      Definition.ofNode entry.id (Matrix.stamp entry.values body) = .ok d) m.entries part
  selection : ∀ text pairs, m.Inverted text pairs

theorem dimensions_distinct {matrix : String} {params : Parameters} {entries : List (String × Node)}
    {dimensions : List Dimension} (hw : (Node.map entries).WellFormed)
    (h : List.Forall₂ (fun e d => Dimension.ofNode matrix params e.1 e.2 = .ok d) entries dimensions) :
    (dimensions.map Dimension.name).Nodup ∧ ∀ d ∈ dimensions, Table.Distinct d.options := by
  obtain ⟨hkeys, hvalues⟩ := Node.wellFormed_map_iff.mp hw
  have hall := (List.forall₂_and_left _ _).mpr ⟨hvalues, h⟩
  have hnames : Table.keys entries = dimensions.map Dimension.name := by
    rw [Table.keys, ← List.forall₂_eq_eq_eq, List.forall₂_map_left_iff, List.forall₂_map_right_iff]
    exact hall.imp fun _ _ he => (Dimension.of_ofNode he.1 he.2).1.symm
  refine ⟨hnames ▸ hkeys, fun d hd => ?_⟩
  obtain ⟨e, _, he, hof⟩ := Outcome.exists_of_mem_right hall hd
  exact (Dimension.of_ofNode he hof).2

theorem expands_of_declare {ms ms' : Matrices} {params : Parameters} {id : String} {declaration : Node}
    (hw : declaration.WellFormed) {part : List Definition}
    (h : ms.declare params id declaration = (.ok part, ms')) :
    ∃ m, ms'.Expands params (id, declaration) part m := by
  obtain ⟨p, issued, hp, hi, rfl⟩ := declare_eq_ok h
  obtain ⟨⟨pattern, entries, dimensions, hget, hdims, hnew⟩, hbody⟩ := of_plan hp
  obtain ⟨hnames, hoptions⟩ := dimensions_distinct (hw.entries.of_get? hget) hdims
  obtain ⟨rfl, hcomplete⟩ := Matrix.complete_of_new hnames hoptions hnew
  rw [Table.get?_erase_of_ne _ (by decide), Table.get?_erase_of_ne _ (by decide)] at hbody
  refine ⟨p.matrix, Table.get?_put_self _ _ _, ⟨entries, hget, hdims⟩, ⟨_, hcomplete⟩, ⟨p.body, hbody, ?_⟩,
    hcomplete.inverted hoptions⟩
  exact (forall₂_of_issue hi).imp fun _ _ hd => ⟨Definition.id_of_ofNode hd, hd⟩

theorem get?_of_declare {ms ms' : Matrices} {params : Parameters} {id : String} {declaration : Node}
    {part : List Definition} (h : ms.declare params id declaration = (.ok part, ms')) {other : String}
    {m : Matrix} (hm : Table.get? ms.table other = some m) : Table.get? ms'.table other = some m := by
  have hne : id ≠ other := by
    rintro rfl
    rw [declare, if_pos (by rw [Table.has, hm]; rfl)] at h
    cases h
  obtain ⟨p, issued, _, _, rfl⟩ := declare_eq_ok h
  exact (Table.get?_put_of_ne _ _ hne).trans hm

theorem get?_of_declareAll {params : Parameters} {entries : List (String × Node)} {ms ms' : Matrices}
    {ds : List Definition} (h : declareAll params entries ms = (.ok ds, ms')) {other : String} {m : Matrix}
    (hm : Table.get? ms.table other = some m) : Table.get? ms'.table other = some m := by
  induction entries generalizing ms ds with
  | nil => exact (Prod.mk.inj h).2 ▸ hm
  | cons entry entries ih =>
      obtain ⟨first, middle, rest, hf, hr, rfl⟩ := declareAll_cons h
      exact ih hr (get?_of_declare hf hm)

theorem expands_of_declareAll {params : Parameters} {entries : List (String × Node)} {ms ms' : Matrices}
    {ds : List Definition} (hw : ∀ e ∈ entries, e.2.WellFormed)
    (h : declareAll params entries ms = (.ok ds, ms')) :
    ∃ parts, ds = parts.flatten ∧
      List.Forall₂ (fun e part => ∃ m, ms'.Expands params e part m) entries parts := by
  induction entries generalizing ms ds with
  | nil => exact ⟨[], Except.ok.inj (Prod.mk.inj h).1.symm, .nil⟩
  | cons entry entries ih =>
      obtain ⟨hentry, hw⟩ := List.forall_mem_cons.mp hw
      obtain ⟨first, middle, rest, hf, hr, rfl⟩ := declareAll_cons h
      obtain ⟨parts, rfl, hparts⟩ := ih hw hr
      obtain ⟨m, hm⟩ := expands_of_declare hentry hf
      exact ⟨first :: parts, rfl, .cons ⟨m, { hm with get? := get?_of_declareAll hr hm.get? }⟩ hparts⟩

/-- Each declaration of a section that is accepted is expanded to a matrix with all choices of options, and
the definitions are those of the matrices in order. -/
theorem complete_of_expandSection {ms ms' : Matrices} {params : Parameters} {node : Node}
    (hw : node.WellFormed) {ds : List Definition}
    (h : ms.expandSection params node = (.ok ds, ms')) :
    ∃ entries parts, node = .map entries ∧ ds = parts.flatten ∧
      List.Forall₂ (fun e part => ∃ m, ms'.Expands params e part m) entries parts := by
  unfold expandSection at h
  split at h
  · rename_i entries
    obtain ⟨parts, hds, hparts⟩ := expands_of_declareAll (Node.wellFormed_map_iff.mp hw).2 h
    exact ⟨entries, parts, rfl, hds, hparts⟩
  · cases h

/-- One dimension with numbered options, and one whose options have keys of their own. -/
def rolesByDomain : Node :=
  .map [("M", .map [
    ("Dimensions", .map [("Domain", .list [.text "A", .text "B"]),
      ("Role", .map [("Static", .text "s"), ("Web", .text "w")])]),
    ("Resource", .map [("Type", .text "T")])])]

/-- The pairs of a selector may come in any order. -/
def webInSecond : List (String × String) := [("Role", "Web"), ("Domain", "2")]

theorem unique_rolesByDomain : ∃ ds ms m entry,
    ({} : Matrices).expandSection [] rolesByDomain = (.ok ds, ms) ∧ Table.get? ms.table "M" = some m ∧
      (∃ choices, m.Complete choices) ∧ m.select "" webInSecond = .ok entry ∧ entry.id = "M2Web" ∧
      ∀ other ∈ m.entries, m.Picks webInSecond other → other = entry := by
  obtain ⟨out, ms, h⟩ : ∃ out ms, ({} : Matrices).expandSection [] rolesByDomain = (out, ms) := ⟨_, _, rfl⟩
  have hok : (({} : Matrices).expandSection [] rolesByDomain).1.isOk = true := by decide +kernel
  have hsel : ((Table.get? (({} : Matrices).expandSection [] rolesByDomain).2.table "M").map fun m =>
      (m.select "" webInSecond).map MatrixEntry.id) = some (.ok "M2Web") := rfl
  rw [h] at hok hsel
  obtain ⟨ds, rfl⟩ := Outcome.exists_of_isOk hok
  have hw : rolesByDomain.WellFormed := by
    simp [rolesByDomain, Node.wellFormed_map_iff, Node.wellFormed_list_iff, Table.Distinct, Table.keys]
  obtain ⟨entries, parts, hnode, _, hparts⟩ := complete_of_expandSection hw h
  obtain rfl := Node.map.inj hnode
  cases hparts with
  | cons hm _ =>
      obtain ⟨m, hm⟩ := hm
      rw [hm.get?, Option.map_some, Option.some.injEq, Outcome.map_eq_ok] at hsel
      obtain ⟨entry, hentry, hid⟩ := hsel
      exact ⟨ds, ms, m, entry, h, hm.get?, hm.complete, hentry, hid,
        (hm.selection "" webInSecond).unique entry hentry⟩

end Matrices
end Shorthand
