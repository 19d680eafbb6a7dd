import Mathlib.Data.List.Sort
import Mathlib.Data.String.Basic
import Shorthand.Digest
import Shorthand.Proofs.Definition
import Shorthand.Proofs.Json

/-!
# What a digest is taken of

The text that is hashed says which definition stands under which id, and nothing else: not the order in which
the definitions came. Its lines can be told apart, since no id holds the zero byte that ends it, and no JSON text
the newline that ends a line.
-/
namespace Shorthand

/-! ## JSON texts -/

namespace Json

theorem newline_not_mem_escape (c : Char) : '\n' ∉ escape c := by
  have hdigit : ∀ n < 16, '\n' ≠ Nat.digitChar n := by decide
  rcases escape_cases c with ⟨e, he, h⟩ | ⟨hc, h⟩ | ⟨hlow, -, -, h⟩ <;> rw [h]
  · have hne : '\n' ≠ e := by
      rintro rfl
      cases he
    simp [hne]
  · have h₁ := hdigit (c.toNat / 16) (by omega)
    have h₂ := hdigit (c.toNat % 16) (by omega)
    simp [h₁, h₂]
  · have hne : '\n' ≠ c := by
      rintro rfl
      exact absurd hlow (by decide)
    simp [hne]

theorem newline_not_mem_quoted (s : String) : '\n' ∉ quoted s := by
  simp [quoted, newline_not_mem_escape]

theorem newline_not_mem_wholeChars (n : Int) : '\n' ∉ wholeChars n := by
  have hdigits : ∀ m : Nat, '\n' ∉ Nat.toDigits 10 m := fun m hm =>
    absurd (Nat.isDigit_of_mem_toDigits (by decide) (by decide) hm) (by decide)
  cases n with
  | ofNat n => exact hdigits n
  | negSucc n => simpa [wholeChars] using hdigits (n + 1)

end Json

namespace Node

mutual
/-- A compact text is one line. -/
theorem newline_not_mem_chars (node : Node) (h : node.Integral) : '\n' ∉ node.chars := by
  match node with
  | .null | .bool true | .bool false => decide
  | .number (.whole n) => exact Json.newline_not_mem_wholeChars n
  | .text s => exact Json.newline_not_mem_quoted s
  | .list items => simpa [chars] using newline_not_mem_charsOfItems items h
  | .map entries => simpa [chars] using newline_not_mem_charsOfEntries entries h

theorem newline_not_mem_charsOfItems (items : List Node) (h : AllIntegral items) : '\n' ∉ charsOfItems items := by
  match items with
  | [] => exact List.not_mem_nil
  | item :: items =>
      have hitem := newline_not_mem_chars item h.1
      have hitems := newline_not_mem_charsOfItems items h.2
      by_cases hne : items = []
      · simpa [hne, charsOfItems] using hitem
      · simp [charsOfItems_cons item hne, hitem, hitems]

theorem newline_not_mem_charsOfEntries (entries : List (String × Node)) (h : EntriesIntegral entries) :
    '\n' ∉ charsOfEntries entries := by
  match entries with
  | [] => exact List.not_mem_nil
  | (key, value) :: entries =>
      have hkey := Json.newline_not_mem_quoted key
      have hvalue := newline_not_mem_chars value h.1
      have hentries := newline_not_mem_charsOfEntries entries h.2
      by_cases hne : entries = []
      · simp [hne, charsOfEntries, hkey, hvalue]
      · simp [charsOfEntries_cons key value hne, hkey, hvalue, hentries]
end

/-- Different trees have different texts. -/
theorem eq_of_chars {a b : Node} (ha : a.WellFormed) (ha' : a.Integral) (hb : b.WellFormed) (hb' : b.Integral)
    (h : a.chars = b.chars) : a = b := by
  have hread := Json.parseWithin?_json ha ha' (Nat.le_max_left a.depth b.depth)
  rw [json, h, ← json, Json.parseWithin?_json hb hb' (Nat.le_max_right a.depth b.depth)] at hread
  exact (Option.some.inj hread).symm

end Node

namespace Digest

/-! ## Lines -/

/-- What a line is written of. -/
def entry (d : Definition) : String × Node := (d.id, d.toNode)

def lineChars (e : String × Node) : List Char := e.1.toList ++ '\x00' :: (e.2.chars ++ ['\n'])

/-- Entries whose line can be read: the id has no zero byte, and the node is one that a text can hold. -/
structure Readable (e : String × Node) : Prop where
  noZero : '\x00' ∉ e.1.toList
  wellFormed : e.2.WellFormed
  integral : e.2.Integral

theorem eq_of_lineChars_append {e e' : String × Node} {rest rest' : List Char} (h : Readable e)
    (h' : Readable e') (he : lineChars e ++ rest = lineChars e' ++ rest') : e = e' ∧ rest = rest' := by
  obtain ⟨id, node⟩ := e
  obtain ⟨id', node'⟩ := e'
  simp only [lineChars, List.append_assoc, List.cons_append, List.nil_append] at he
  obtain ⟨hid, he⟩ := Text.append_separator_inj h.noZero h'.noZero he
  obtain ⟨hnode, hrest⟩ := Text.append_separator_inj (Node.newline_not_mem_chars node h.integral)
    (Node.newline_not_mem_chars node' h'.integral) he
  obtain rfl := String.toList_injective hid
  obtain rfl := Node.eq_of_chars h.wellFormed h.integral h'.wellFormed h'.integral hnode
  exact ⟨rfl, hrest⟩

/-- The lines of a text are read from it. -/
theorem eq_of_flatMap_lineChars {es es' : List (String × Node)} (h : ∀ e ∈ es, Readable e)
    (h' : ∀ e ∈ es', Readable e) (he : es.flatMap lineChars = es'.flatMap lineChars) : es = es' := by
  induction es generalizing es' with
  | nil =>
      cases es' with
      | nil => rfl
      | cons e' es' => simp [lineChars] at he
  | cons e es ih =>
      cases es' with
      | nil => simp [lineChars] at he
      | cons e' es' =>
          obtain ⟨hhead, hall⟩ := List.forall_mem_cons.mp h
          obtain ⟨hhead', hall'⟩ := List.forall_mem_cons.mp h'
          obtain ⟨rfl, htail⟩ := eq_of_lineChars_append hhead hhead' he
          rw [ih hall hall' htail]

theorem toList_canonicalText (ds : List Definition) :
    (canonicalText ds).toList = ((inOrder ds).map entry).flatMap lineChars := by
  have hline : ∀ d, (line d).toList = lineChars (entry d) := by
    intro d
    simp [line, lineChars, entry, Node.json]
  rw [canonicalText, String.toList_join, List.flatMap_map, List.flatMap_map]
  exact List.flatMap_congr fun d _ => hline d

/-! ## The order of lines -/

/-- No two definitions have the same id. -/
def DistinctIds (ds : List Definition) : Prop := (ds.map Definition.id).Nodup

theorem DistinctIds.eq_of_id {ds : List Definition} (h : DistinctIds ds) {d d' : Definition} (hd : d ∈ ds)
    (hd' : d' ∈ ds) (hid : d.id = d'.id) : d = d' :=
  List.inj_on_of_nodup_map h hd hd' hid

theorem mem_inOrder {ds : List Definition} {d : Definition} : d ∈ inOrder ds ↔ d ∈ ds :=
  (List.mergeSort_perm _ _).mem_iff

theorem pairwise_inOrder (ds : List Definition) : (inOrder ds).Pairwise fun a b => a.id ≤ b.id := by
  refine (List.pairwise_mergeSort (fun a b c => ?_) (fun a b => ?_) _).imp of_decide_eq_true
  · simpa only [decide_eq_true_eq] using le_trans
  · simpa only [Bool.or_eq_true, decide_eq_true_eq] using le_total a.id b.id

theorem DistinctIds.nodup_entries {ds : List Definition} (h : DistinctIds ds) : (ds.map entry).Nodup := by
  refine List.Nodup.of_map Prod.fst ?_
  rw [List.map_map]
  exact h

/-- Lines stand in one order, whatever the order of the definitions. -/
theorem map_entry_inOrder {ds ds' : List Definition} (hn : DistinctIds ds) (hn' : DistinctIds ds')
    (h : ∀ e, e ∈ ds.map entry ↔ e ∈ ds'.map entry) : (inOrder ds).map entry = (inOrder ds').map entry := by
  have hperm : (ds.map entry).Perm (ds'.map entry) :=
    (List.perm_ext_iff_of_nodup hn.nodup_entries hn'.nodup_entries).mpr h
  have hsorted : ∀ ds, ((inOrder ds).map entry).Pairwise fun a b => a.1 ≤ b.1 := fun ds =>
    List.pairwise_map.mpr (pairwise_inOrder ds)
  have hsame : ((inOrder ds).map entry).Perm ((inOrder ds').map entry) :=
    (((List.mergeSort_perm _ _).map entry).trans hperm).trans ((List.mergeSort_perm _ _).map entry).symm
  refine List.Perm.eq_of_pairwise (fun a b ha hb hab hba => ?_) (hsorted ds) (hsorted ds') hsame
  obtain ⟨d, hd, rfl⟩ := List.mem_map.mp (hsame.mem_iff.mp ha)
  obtain ⟨d', hd', rfl⟩ := List.mem_map.mp hb
  rw [hn'.eq_of_id (mem_inOrder.mp hd) (mem_inOrder.mp hd') (le_antisymm hab hba)]

/-! ## What is hashed -/

/-- The digits of a text's hash that a suffix of this length holds. -/
def kept (length : Nat) (text : String) : String :=
  let digits := (Blake3.hex text).toList
  String.ofList (digits.take (max 4 (min length digits.length)))

theorem suffix_eq (ds : List Definition) (length : Nat) : suffix ds length = kept length (canonicalText ds) := rfl

/-- So many digits of the hash tell two texts apart. -/
def TellsApart (length : Nat) (a b : String) : Prop := kept length a = kept length b → a.toUTF8 = b.toUTF8

theorem canonicalText_eq_of_entries {ds ds' : List Definition} (hn : DistinctIds ds) (hn' : DistinctIds ds')
    (h : ∀ e, e ∈ ds.map entry ↔ e ∈ ds'.map entry) : canonicalText ds = canonicalText ds' := by
  refine String.toList_injective ?_
  rw [toList_canonicalText, toList_canonicalText, map_entry_inOrder hn hn' h]

/-- The order of definitions does not count. -/
theorem suffix_eq_of_perm {ds ds' : List Definition} (hn : DistinctIds ds) (h : ds.Perm ds') (length : Nat) :
    suffix ds length = suffix ds' length := by
  have hn' : DistinctIds ds' := (h.map Definition.id).nodup_iff.mp hn
  rw [suffix_eq, suffix_eq, canonicalText_eq_of_entries hn hn' fun e => (h.map entry).mem_iff]

theorem entries_of_canonicalText_eq {ds ds' : List Definition} (hr : ∀ d ∈ ds, Readable (entry d))
    (hr' : ∀ d ∈ ds', Readable (entry d)) (h : canonicalText ds = canonicalText ds') (e : String × Node) :
    e ∈ ds.map entry ↔ e ∈ ds'.map entry := by
  have hin : ∀ {ds}, (∀ d ∈ ds, Readable (entry d)) → ∀ e ∈ (inOrder ds).map entry, Readable e := by
    intro ds hr e he
    obtain ⟨d, hd, rfl⟩ := List.mem_map.mp he
    exact hr d (mem_inOrder.mp hd)
  have hlines := congrArg String.toList h
  rw [toList_canonicalText, toList_canonicalText] at hlines
  have hsame := eq_of_flatMap_lineChars (hin hr) (hin hr') hlines
  have hperm : ∀ ds, ((inOrder ds).map entry).Perm (ds.map entry) := fun ds =>
    (List.mergeSort_perm _ _).map entry
  rw [← (hperm ds).mem_iff, hsame, (hperm ds').mem_iff]

/-- Definitions that can be told from what is hashed: their ids differ and have no zero byte, and their numbers
are whole. -/
structure Hashable (ds : List Definition) : Prop where
  ids : DistinctIds ds
  readable : ∀ d ∈ ds, Readable (entry d)

/-- Two lists of definitions are hashed as the same bytes if and only if they have the same nodes under the same
ids, with the entries in the same order. So the order in which definitions are made does not count, while any
change of one of them gives another suffix, if its digits tell the two texts apart. -/
theorem canonicalText_eq_iff_entries {ds ds' : List Definition} (h : Hashable ds) (h' : Hashable ds') :
    ((canonicalText ds).toUTF8 = (canonicalText ds').toUTF8 ↔ ∀ e, e ∈ ds.map entry ↔ e ∈ ds'.map entry) ∧
      (ds.Perm ds' → ∀ length, suffix ds length = suffix ds' length) ∧
      ∀ length, TellsApart length (canonicalText ds) (canonicalText ds') →
        (suffix ds length = suffix ds' length ↔ ∀ e, e ∈ ds.map entry ↔ e ∈ ds'.map entry) ∧
          ∀ d ∈ ds, ∀ d' ∈ ds', d.id = d'.id → d.Settled → d'.Settled → d ≠ d' →
            suffix ds length ≠ suffix ds' length := by
  have hentries : canonicalText ds = canonicalText ds' ↔ ∀ e, e ∈ ds.map entry ↔ e ∈ ds'.map entry :=
    ⟨entries_of_canonicalText_eq h.readable h'.readable, canonicalText_eq_of_entries h.ids h'.ids⟩
  refine ⟨String.toByteArray_inj.trans hentries, fun hperm length => ?_, fun length htell => ?_⟩
  · rw [suffix_eq, suffix_eq, hentries.mpr fun e => (hperm.map entry).mem_iff]
  · have hsuffix : suffix ds length = suffix ds' length ↔ ∀ e, e ∈ ds.map entry ↔ e ∈ ds'.map entry := by
      refine ⟨fun he => hentries.mp (String.toByteArray_inj.mp (htell he)), fun hsame => ?_⟩
      rw [suffix_eq, suffix_eq, hentries.mpr hsame]
    refine ⟨hsuffix, fun d hd d' hd' hid hs hs' hne he => ?_⟩
    obtain ⟨d₁, hd₁, he₁⟩ := List.mem_map.mp ((hsuffix.mp he _).mp (List.mem_map_of_mem (f := entry) hd))
    obtain ⟨hid₁, hnode₁⟩ := Prod.mk.inj he₁
    obtain rfl := h'.ids.eq_of_id hd₁ hd' (hid₁.trans hid)
    exact hne (Definition.toNode_injective hs hs' hid hnode₁.symm)

/-- A definition with one property. -/
def oneProperty (part : String) : Definition := .new "A" "T" [("PathPart", .text part)]

theorem hashable_oneProperty (part : String) : Hashable [oneProperty part] := by
  refine ⟨List.nodup_singleton _, fun d hd => ?_⟩
  obtain rfl := List.mem_singleton.mp hd
  have hnode : (oneProperty part).toNode =
      .map [("Type", .text "T"), ("Properties", .map [("PathPart", .text part)])] := rfl
  have hid : '\x00' ∉ "A".toList := by decide
  refine ⟨hid, ?_, ?_⟩ <;> rw [entry, hnode]
  · simp [Node.WellFormed, Node.EntriesWellFormed, Table.Distinct, Table.keys]
  · simp [Node.Integral, Node.EntriesIntegral]

theorem suffix_ne_oneProperty : suffix [oneProperty "users"] 10 ≠ suffix [oneProperty "accounts"] 10 := by
  have hone : ∀ d, canonicalText [d] = line d := fun d => by simp [canonicalText, inOrder]
  have htell : TellsApart 10 (canonicalText [oneProperty "users"]) (canonicalText [oneProperty "accounts"]) := by
    have hne : kept 10 (line (oneProperty "users")) ≠ kept 10 (line (oneProperty "accounts")) := by decide +kernel
    rw [hone, hone]
    exact fun h => absurd h hne
  have hspec := canonicalText_eq_iff_entries (hashable_oneProperty "users") (hashable_oneProperty "accounts")
  exact (hspec.2.2 10 htell).2 (oneProperty "users") List.mem_cons_self (oneProperty "accounts")
    List.mem_cons_self rfl (Definition.settled_new _ _ _) (Definition.settled_new _ _ _)
    (by simp [oneProperty, Definition.new])

end Digest
end Shorthand
