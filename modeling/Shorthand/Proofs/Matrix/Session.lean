import Shorthand.Proofs.Matrix.Lookup

/-!
# Sections of matrices one after another

A resolver of matrices is asked for any number of sections, and goes on after one that it refuses. A refusal
may leave ids that are issued and not used, and matrices that are registered without their definitions being
handed out; the ids stay apart all the same.
-/
namespace Shorthand
namespace Matrices

/-- The ids of the entries of all matrices. -/
def entryIds (ms : Matrices) : List String :=
  ms.table.flatMap fun declared => declared.2.entries.map MatrixEntry.id

/-- The ids of the definitions that an answer hands out. -/
def handedIds : Except Error (List Definition) → List String
  | .ok ds => ds.map Definition.id
  | .error _ => []

/-- Sections declared one after another, accepted or not: the answers, and what there is at the end. -/
def session : List (Parameters × Node) → Matrices → List (Except Error (List Definition)) × Matrices
  | [], ms => ([], ms)
  | (params, node) :: calls, ms =>
    let (answer, ms) := ms.expandSection params node
    let (answers, ms) := session calls ms
    (answer :: answers, ms)

/-- What one declaration can do. -/
inductive Declares (ms : Matrices) (id : String) : Except Error (List Definition) → Matrices → Prop
  | refused (e : Error) {issued : List String} (h : ms.issued ⊆ issued) :
      Declares ms id (.error e) { ms with issued := issued }
  | registered {m : Matrix} {ds : List Definition} (hid : id ∉ Table.keys ms.table)
      (hds : ds.map Definition.id = m.entries.map MatrixEntry.id)
      (hn : (m.entries.map MatrixEntry.id).Nodup) (hnew : ∀ entry ∈ m.entries, entry.id ∉ ms.issued) :
      Declares ms id (.ok ds) ⟨ms.table ++ [(id, m)], ms.issued ++ m.entries.map MatrixEntry.id⟩

theorem declares_of_declare {ms ms' : Matrices} {params : Parameters} {id : String} {declaration : Node}
    {answer : Except Error (List Definition)} (h : ms.declare params id declaration = (answer, ms')) :
    ms.Declares id answer ms' := by
  unfold Matrices.declare at h
  split at h
  · obtain ⟨rfl, rfl⟩ := Prod.mk.inj h
    exact .refused _ (List.Subset.refl _)
  · rename_i hid
    rw [Table.has_iff_mem_keys] at hid
    split at h
    · obtain ⟨rfl, rfl⟩ := Prod.mk.inj h
      exact .refused _ (List.Subset.refl _)
    · rename_i matrix body _
      split at h
      · rename_i e issued hi
        obtain ⟨rfl, rfl⟩ := Prod.mk.inj h
        -- some of the ids may have been issued before the refusal
        have hmore := subset_issue body matrix.entries ms.issued
        rw [hi] at hmore
        exact .refused e hmore
      · rename_i ds issued hi
        obtain ⟨rfl, rfl⟩ := Prod.mk.inj h
        obtain ⟨hn, hnew, rfl⟩ := issue_spec hi
        rw [Table.put_of_not_mem matrix hid]
        exact .registered hid (ids_of_issue hi) hn hnew

/-- The entries' ids are apart and issued, and those of the definitions handed out so far are among them, each
once. -/
structure Sound (ms : Matrices) (handed : List String) : Prop where
  issued : ms.entryIds ⊆ ms.issued
  apart : ms.entryIds.Nodup
  handed : handed.Sublist ms.entryIds

/-- What holds of one or more steps: tables only grow at their end, and ids stay sound. -/
structure Keeps (ms : Matrices) (answer : Except Error (List Definition)) (ms' : Matrices) : Prop where
  table : ms.table <+: ms'.table
  sound : ∀ handed, ms.Sound handed → ms'.Sound (handed ++ handedIds answer)

theorem sound_nil : ({} : Matrices).Sound [] := ⟨List.nil_subset _, List.nodup_nil, .slnil⟩

theorem Sound.mono {ms : Matrices} {handed less : List String} (h : ms.Sound handed)
    (hs : less.Sublist handed) : ms.Sound less :=
  ⟨h.issued, h.apart, hs.trans h.handed⟩

theorem Declares.keeps {ms ms' : Matrices} {id : String} {answer : Except Error (List Definition)}
    (h : ms.Declares id answer ms') : ms.Keeps answer ms' := by
  cases h with
  | refused e hmore =>
      refine ⟨List.prefix_refl _, fun handed hs => ?_⟩
      rw [handedIds, List.append_nil]
      exact ⟨List.Subset.trans hs.issued hmore, hs.apart, hs.handed⟩
  | @registered m ds hid hds hn hnew =>
      refine ⟨List.prefix_append _ _, fun handed hs => ?_⟩
      have hids : entryIds ⟨ms.table ++ [(id, m)], ms.issued ++ m.entries.map MatrixEntry.id⟩ =
          ms.entryIds ++ m.entries.map MatrixEntry.id := by simp [entryIds]
      have hfresh : List.Disjoint ms.entryIds (m.entries.map MatrixEntry.id) := by
        intro x hx hm
        obtain ⟨entry, he, rfl⟩ := List.mem_map.mp hm
        exact hnew entry he (hs.issued hx)
      refine ⟨?_, ?_, ?_⟩
      all_goals rw [hids]
      · exact List.append_subset.mpr ⟨List.subset_append_of_subset_left _ hs.issued,
          List.subset_append_right _ _⟩
      · exact List.nodup_append'.mpr ⟨hs.apart, hn, hfresh⟩
      · exact hds ▸ hs.handed.append (List.Sublist.refl _)

theorem Keeps.none (ms : Matrices) (e : Error) : ms.Keeps (.error e) ms :=
  ⟨List.prefix_refl _, fun handed hs => by simpa [handedIds] using hs⟩

theorem Keeps.nil (ms : Matrices) : ms.Keeps (.ok []) ms :=
  ⟨List.prefix_refl _, fun handed hs => by simpa [handedIds] using hs⟩

/-- What a refused step leaves out is not handed out. -/
theorem Keeps.dropped {ms middle ms' : Matrices} {first : List Definition} {e : Error}
    (h : ms.Keeps (.ok first) middle) (ht : middle.Keeps (.error e) ms') : ms.Keeps (.error e) ms' := by
  refine ⟨h.table.trans ht.table, fun handed hs => (ht.sound _ (h.sound handed hs)).mono ?_⟩
  simp [handedIds]

theorem Keeps.append {ms middle ms' : Matrices} {first rest : List Definition}
    (h : ms.Keeps (.ok first) middle) (ht : middle.Keeps (.ok rest) ms') :
    ms.Keeps (.ok (first ++ rest)) ms' := by
  refine ⟨h.table.trans ht.table, fun handed hs => (ht.sound _ (h.sound handed hs)).mono ?_⟩
  simp [handedIds]

theorem keeps_declareAll {params : Parameters} (entries : List (String × Node)) (ms : Matrices) :
    ms.Keeps (declareAll params entries ms).1 (declareAll params entries ms).2 := by
  induction entries generalizing ms with
  | nil => exact Keeps.nil ms
  | cons entry entries ih =>
      unfold declareAll
      split
      · rename_i hd
        exact (declares_of_declare hd).keeps
      · rename_i middle hd
        have hfirst := (declares_of_declare hd).keeps
        have hrest := ih middle
        split
        · rename_i hr
          rw [hr] at hrest
          exact hfirst.append hrest
        · rename_i hno
          cases he : (declareAll params entries middle).1 with
          | ok more => exact (hno more _ (Prod.ext he rfl)).elim
          | error e => exact hfirst.dropped (he ▸ hrest)

theorem keeps_expandSection (ms : Matrices) (params : Parameters) (node : Node) :
    ms.Keeps (ms.expandSection params node).1 (ms.expandSection params node).2 := by
  unfold expandSection
  split
  · exact keeps_declareAll _ ms
  · exact Keeps.none ms _

/-- Whatever calls there are, ids stay sound over all of them. -/
theorem Sound.session {ms : Matrices} {handed : List String} (h : ms.Sound handed)
    (calls : List (Parameters × Node)) :
    (Matrices.session calls ms).2.Sound (handed ++ (Matrices.session calls ms).1.flatMap handedIds) := by
  induction calls generalizing ms handed with
  | nil => simpa [Matrices.session] using h
  | cons call calls ih =>
      have hrest := ih ((keeps_expandSection ms call.1 call.2).sound handed h)
      simpa [Matrices.session, List.append_assoc] using hrest

/-- The ids of the entries of all registered matrices are apart after any calls, accepted or refused; no two
definitions that were handed out have one id, and each has the id of such an entry. No call, and so no refused
one, alters a matrix that it finds registered. -/
theorem apart_of_session (calls : List (Parameters × Node)) :
    (session calls {}).2.entryIds.Nodup ∧ ((session calls {}).1.flatMap handedIds).Nodup ∧
      (∀ id ∈ (session calls {}).1.flatMap handedIds,
        ∃ declared ∈ (session calls {}).2.table, ∃ entry ∈ declared.2.entries, entry.id = id) ∧
      ∀ before params node after, calls = before ++ (params, node) :: after →
        ∀ id m, Table.get? (session before {}).2.table id = some m →
          Table.get? ((session before {}).2.expandSection params node).2.table id = some m := by
  have hs := sound_nil.session calls
  rw [List.nil_append] at hs
  refine ⟨hs.apart, hs.handed.nodup hs.apart, fun id hid => ?_, ?_⟩
  · simpa [entryIds] using hs.handed.subset hid
  · intro before params node after _ id m hg
    obtain ⟨more, hmore⟩ := (keeps_expandSection (session before {}).2 params node).table
    rw [← hmore, Table.get?_append more (Table.mem_keys_of_get? hg), hg]

/-- A section of two matrices, the second of which has an id of the first one's entries. -/
def refusedSection : Node :=
  .map [
    ("N", .map [("Dimensions", .map [("D", .list [.text "a", .text "b"])]),
      ("Resource", .map [("Type", .text "T")])]),
    ("O", .map [("Dimensions", .map [("D", .list [.text "a"])]), ("LogicalId", .text "N2"),
      ("Resource", .map [("Type", .text "T")])])]

/-- It is refused with `N` registered, and what another call then declares is apart from `N`. -/
theorem apart_of_session_refusedSection :
    let calls := [([], refusedSection), ([], domainsByRole)]
    (session calls {}).1.map Except.isOk = [false, true] ∧
      (session calls {}).2.entryIds =
        ["N1", "N2", "SiteWeb1", "SiteWeb2", "SiteStatic1", "SiteStatic2"] ∧
      (session calls {}).2.entryIds.Nodup ∧
      ∀ m, Table.get? (session [([], refusedSection)] {}).2.table "N" = some m →
        Table.get? (((session [([], refusedSection)] {}).2).expandSection [] domainsByRole).2.table "N" =
          some m := by
  refine ⟨by decide +kernel, by decide +kernel, (apart_of_session _).1, fun m hm => ?_⟩
  exact (apart_of_session _).2.2.2 _ _ _ [] rfl "N" m hm

end Matrices
end Shorthand
