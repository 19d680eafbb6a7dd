import Shorthand.Proofs.Outcome
import Shorthand.Proofs.WellFormed
import Shorthand.ShortForm

/-!
# What is kept of a mapping that is read

A mapping is read entry by entry, and the text of a key may stand in the table already: keys of different types are
texts alike. Then the later value stands in the place of the earlier one. So every entry is kept just if no two keys
of one mapping have one text.
-/
namespace Shorthand.ShortForm

/-! ## Values and nodes -/

/-- A key that has a text. -/
def IsKey : Yaml.Value → Prop
  | .text _ | .bool _ | .number _ => True
  | _ => False

/-- No two keys have one text. -/
def KeysApart (pairs : List (Yaml.Value × Yaml.Value)) : Prop :=
  pairs.Pairwise fun p q => ∀ name, key p.1 = .ok name → key q.1 ≠ .ok name

mutual
/-- Every key of the value has a text, and every number a form in JSON. -/
def Readable : Yaml.Value → Prop
  | .number n => ∀ x, n = .double x → x.isFinite = true
  | .list items => ReadableItems items
  | .map pairs => ReadableEntries pairs
  | .tagged _ value => Readable value
  | _ => True

def ReadableItems : List Yaml.Value → Prop
  | [] => True
  | item :: items => Readable item ∧ ReadableItems items

def ReadableEntries : List (Yaml.Value × Yaml.Value) → Prop
  | [] => True
  | (name, value) :: pairs => IsKey name ∧ Readable value ∧ ReadableEntries pairs
end

mutual
/-- In no mapping of the value two keys have one text. -/
def Apart : Yaml.Value → Prop
  | .list items => ApartItems items
  | .map pairs => KeysApart pairs ∧ ApartEntries pairs
  | .tagged _ value => Apart value
  | _ => True

def ApartItems : List Yaml.Value → Prop
  | [] => True
  | item :: items => Apart item ∧ ApartItems items

def ApartEntries : List (Yaml.Value × Yaml.Value) → Prop
  | [] => True
  | (_, value) :: pairs => Apart value ∧ ApartEntries pairs
end

mutual
/-- The node has all that the value has: for each entry of a mapping one of its own, in the same order, under the text
of its key and with what its value is read as. -/
def Carries : Yaml.Value → Node → Prop
  | .null, n => n = .null
  | .bool b, n => n = .bool b
  | .number x, n => n = .number x
  | .text s, n => n = .text s
  | .list items, n => ∃ nodes, n = .list nodes ∧ CarriesItems items nodes
  | .map pairs, n => ∃ table, n = .map table ∧ Table.Distinct table ∧ CarriesEntries pairs table
  | .tagged tag value, n =>
    ∃ arg, node value = .ok arg ∧ n = call (String.ofList (tag.toList.dropWhile (· == '!'))) arg ∧ Carries value arg

def CarriesItems : List Yaml.Value → List Node → Prop
  | [], nodes => nodes = []
  | item :: items, nodes => ∃ n rest, nodes = n :: rest ∧ Carries item n ∧ CarriesItems items rest

def CarriesEntries : List (Yaml.Value × Yaml.Value) → Table Node → Prop
  | [], table => table = []
  | (name, value) :: pairs, table =>
    ∃ text n rest, table = (text, n) :: rest ∧ key name = .ok text ∧ node value = .ok n ∧ Carries value n ∧
      CarriesEntries pairs rest
end

/-! ## Reading -/

theorem exists_key_iff {name : Yaml.Value} : (∃ text, key name = .ok text) ↔ IsKey name := by
  cases name <;> simp [key, IsKey]

theorem number_eq_ok {x : Number} {n : Node} (h : number x = .ok n) : n = .number x := by
  unfold number at h
  split at h
  · split at h
    · exact (Except.ok.inj h).symm
    · cases h
  · exact (Except.ok.inj h).symm

theorem exists_number_iff {x : Number} : (∃ n, number x = .ok n) ↔ ∀ d, x = .double d → d.isFinite = true := by
  unfold number
  split
  · rename_i d
    split
    · rename_i hd
      simp [hd]
    · rename_i hd
      simpa using hd
  · rename_i hx
    exact ⟨fun _ d hd => absurd hd (hx d), fun _ => ⟨_, rfl⟩⟩

/-- An entry is read as one under the text of its key. -/
def ReadAs (pair : Yaml.Value × Yaml.Value) (entry : String × Node) : Prop :=
  key pair.1 = .ok entry.1 ∧ node pair.2 = .ok entry.2

/-- Entries are put into the table one after another. -/
theorem entries_eq_ok_iff {pairs : List (Yaml.Value × Yaml.Value)} {table out : Table Node} :
    entries table pairs = .ok out ↔ ∃ es, List.Forall₂ ReadAs pairs es ∧ out = Table.putAll table es := by
  induction pairs generalizing table with
  | nil =>
      rw [entries, Except.ok.injEq]
      exact ⟨fun h => ⟨[], .nil, h.symm⟩, fun ⟨_, hes, h⟩ => by cases hes; exact h.symm⟩
  | cons p pairs ih =>
      obtain ⟨name, value⟩ := p
      simp only [entries, Outcome.bind_eq_ok]
      constructor
      · rintro ⟨text, htext, n, hn, h⟩
        obtain ⟨es, hes, rfl⟩ := ih.mp h
        exact ⟨(text, n) :: es, .cons ⟨htext, hn⟩ hes, rfl⟩
      · rintro ⟨_, hes, rfl⟩
        obtain ⟨⟨text, n⟩, es, ⟨htext, hn⟩, hrest, rfl⟩ := List.forall₂_cons_left_iff.mp hes
        exact ⟨text, htext, n, hn, ih.mpr ⟨es, hrest, rfl⟩⟩

theorem node_map_eq_ok {pairs : List (Yaml.Value × Yaml.Value)} {n : Node} (h : node (.map pairs) = .ok n) :
    ∃ es, List.Forall₂ ReadAs pairs es ∧ n = .map (Table.putAll [] es) := by
  obtain ⟨table, htable, h⟩ := Outcome.bind_eq_ok.mp (by rwa [node] at h)
  obtain ⟨es, hes, rfl⟩ := entries_eq_ok_iff.mp htable
  exact ⟨es, hes, (Except.ok.inj h).symm⟩

mutual
/-- What is readable is read, and nothing else. -/
theorem exists_node_iff : ∀ v : Yaml.Value, (∃ n, node v = .ok n) ↔ Readable v
  | .null => by simp [node, Readable]
  | .bool b => by simp [node, Readable]
  | .number x => by rw [node, Readable, exists_number_iff]
  | .text s => by simp [node, Readable]
  | .list items => by
      rw [Readable, ← exists_nodes_iff items]
      simp [node]
  | .map pairs => by
      rw [Readable, ← exists_entries_iff pairs []]
      simp [node]
  | .tagged tag value => by
      rw [Readable, ← exists_node_iff value]
      simp [node]

theorem exists_nodes_iff : ∀ items : List Yaml.Value, (∃ ns, nodes items = .ok ns) ↔ ReadableItems items
  | [] => by simp [nodes, ReadableItems]
  | item :: items => by
      rw [ReadableItems, ← exists_node_iff item, ← exists_nodes_iff items]
      simp [nodes]

theorem exists_entries_iff : ∀ (pairs : List (Yaml.Value × Yaml.Value)) (table : Table Node),
    (∃ out, entries table pairs = .ok out) ↔ ReadableEntries pairs
  | [], table => by simp [entries, ReadableEntries]
  | (name, value) :: pairs, table => by
      simp only [entries, Outcome.bind_eq_ok, ReadableEntries, ← exists_key_iff, ← exists_node_iff value]
      constructor
      · rintro ⟨out, text, htext, n, hn, h⟩
        exact ⟨⟨text, htext⟩, ⟨n, hn⟩, (exists_entries_iff pairs _).mp ⟨out, h⟩⟩
      · rintro ⟨⟨text, htext⟩, ⟨n, hn⟩, hrest⟩
        obtain ⟨out, h⟩ := (exists_entries_iff pairs (Table.put table text n)).mpr hrest
        exact ⟨out, text, htext, n, hn, h⟩
end

/-! ## Keeping every entry -/

section
variable {pairs : List (Yaml.Value × Yaml.Value)} {table es : Table Node}

theorem keysApart_iff (h : List.Forall₂ ReadAs pairs es) : KeysApart pairs ↔ Table.Distinct es := by
  induction h with
  | nil => simp [KeysApart, Table.Distinct, Table.keys]
  | @cons p e pairs es hread hrest ih =>
      have hhead : (∀ q ∈ pairs, ∀ name, key p.1 = .ok name → key q.1 ≠ .ok name) ↔ e.1 ∉ Table.keys es := by
        constructor
        · intro hapart hm
          obtain ⟨e', he', heq⟩ := List.mem_map.mp hm
          obtain ⟨q, hq, hread'⟩ := Outcome.exists_of_mem_right hrest he'
          exact hapart q hq e.1 hread.1 (heq ▸ hread'.1)
        · intro hno q hq name hname hname'
          obtain ⟨e', he', hread'⟩ := Outcome.exists_of_mem_right hrest.flip hq
          obtain rfl := Except.ok.inj (hread.1.symm.trans hname)
          exact hno (List.mem_map.mpr ⟨e', he', Except.ok.inj (hread'.1.symm.trans hname')⟩)
      rw [KeysApart, List.pairwise_cons, hhead]
      exact (and_congr_right fun _ => ih).trans List.nodup_cons.symm

/-- The keys are in the value. -/
theorem CarriesEntries.keys_eq (hc : CarriesEntries pairs table) (h : List.Forall₂ ReadAs pairs es) :
    Table.keys table = Table.keys es := by
  induction h generalizing table with
  | nil =>
      obtain rfl := hc
      rfl
  | @cons p e pairs es hread _ ih =>
      obtain ⟨name, value⟩ := p
      obtain ⟨text, n, rest, rfl, htext, -, -, hc⟩ := hc
      obtain rfl := Except.ok.inj (htext.symm.trans hread.1)
      exact congrArg (_ :: ·) (ih hc)

end

mutual
/-- What is read has all of the value just if no two keys of one mapping have one text. -/
theorem carries_iff : ∀ {v : Yaml.Value} {n : Node}, node v = .ok n → (Carries v n ↔ Apart v)
  | .null, n, h | .bool _, n, h | .text _, n, h => by
      rw [node, Except.ok.injEq] at h
      simp only [Carries, Apart, h.symm]
  | .number x, n, h => by
      rw [node] at h
      simp only [Carries, Apart, number_eq_ok h]
  | .list items, n, h => by
      obtain ⟨ns, hns, h⟩ := Outcome.bind_eq_ok.mp (by rwa [node] at h)
      obtain rfl := Except.ok.inj h
      rw [Carries, Apart, ← carriesItems_iff hns]
      simp
  | .map pairs, n, h => by
      obtain ⟨es, hes, rfl⟩ := node_map_eq_ok h
      rw [Carries, Apart, keysApart_iff hes, ← carriesEntries_iff hes]
      constructor
      · rintro ⟨table, ht, hd, hc⟩
        obtain rfl := Node.map.inj ht
        have hdistinct : Table.Distinct es := by rwa [Table.Distinct, hc.keys_eq hes] at hd
        exact ⟨hdistinct, Table.ofList_of_distinct hdistinct ▸ hc⟩
      · rintro ⟨hd, hc⟩
        exact ⟨es, congrArg Node.map (Table.ofList_of_distinct hd), hd, hc⟩
  | .tagged tag value, n, h => by
      obtain ⟨arg, harg, h⟩ := Outcome.bind_eq_ok.mp (by rwa [node] at h)
      obtain rfl := Except.ok.inj h
      rw [Carries, Apart, ← carries_iff harg]
      simp [harg]

theorem carriesItems_iff : ∀ {items : List Yaml.Value} {ns : List Node}, nodes items = .ok ns →
    (CarriesItems items ns ↔ ApartItems items)
  | [], ns, h => by
      rw [nodes, Except.ok.injEq] at h
      simp only [CarriesItems, ApartItems, h.symm]
  | item :: items, ns, h => by
      rw [nodes] at h
      obtain ⟨n, hn, h⟩ := Outcome.bind_eq_ok.mp h
      obtain ⟨rest, hrest, h⟩ := Outcome.bind_eq_ok.mp h
      obtain rfl := Except.ok.inj h
      rw [CarriesItems, ApartItems, ← carries_iff hn, ← carriesItems_iff hrest]
      simp

theorem carriesEntries_iff : ∀ {pairs : List (Yaml.Value × Yaml.Value)} {es : Table Node},
    List.Forall₂ ReadAs pairs es → (CarriesEntries pairs es ↔ ApartEntries pairs)
  | [], es, h => by
      cases h
      simp only [CarriesEntries, ApartEntries]
  | (name, value) :: pairs, es, h => by
      obtain ⟨⟨text, n⟩, rest, ⟨htext, hn⟩, hrest, rfl⟩ := List.forall₂_cons_left_iff.mp h
      replace hn : node value = .ok n := hn
      rw [CarriesEntries, ApartEntries, ← carries_iff hn, ← carriesEntries_iff hrest]
      simp [htext, hn]
end

/-- Every readable value is read. What is read has all entries of every mapping, in their order, just if no two keys of
one mapping have one text. -/
theorem keeps_every_entry_iff (v : Yaml.Value) :
    ((∃ n, node v = .ok n) ↔ Readable v) ∧ ∀ n, node v = .ok n → (Carries v n ↔ Apart v) :=
  ⟨exists_node_iff v, fun _ => carries_iff⟩

/-- The keys are a text, a truth value and a number. -/
def plainPairs : Yaml.Value :=
  .map [(.text "b", .tagged "Ref" (.text "X")), (.bool true, .list [.null]), (.number (.whole 1), .text "a")]

theorem keeps_every_entry_plainPairs : ∃ n, node plainPairs = .ok n ∧ Carries plainPairs n := by
  have hreadable : Readable plainPairs := by
    simp [plainPairs, Readable, ReadableEntries, ReadableItems, IsKey]
  have hone : String.ofList (Yaml.numberChars (.whole 1)) = "1" := rfl
  have hapart : Apart plainPairs := by
    simp [plainPairs, Apart, ApartEntries, ApartItems, KeysApart, key, hone]
  obtain ⟨n, hn⟩ := (keeps_every_entry_iff plainPairs).1.mpr hreadable
  exact ⟨n, hn, ((keeps_every_entry_iff plainPairs).2 n hn).mpr hapart⟩

/-- The keys are different, and have one text. -/
def sameText : Yaml.Value := .map [(.number (.whole 1), .text "a"), (.text "1", .text "b")]

/-- The first entry is dropped, and nothing is told of it. -/
theorem drops_sameText :
    node sameText = .ok (.map [("1", .text "b")]) ∧ ¬ Carries sameText (.map [("1", .text "b")]) := by
  refine ⟨rfl, ?_⟩
  rintro ⟨table, htable, -, hcarries⟩
  obtain rfl := Node.map.inj htable
  obtain ⟨_, _, rest, hfirst, -, -, -, hrest⟩ := hcarries
  obtain ⟨_, _, _, rfl, -⟩ := hrest
  simp at hfirst

end Shorthand.ShortForm
