import Shorthand.Api.Family
import Shorthand.Matrix
import Shorthand.Proofs.Api.Builder

/-!
# What the families give

The lookups of a family of APIs or matrices answer only with ids of definitions that were handed out when
the family's sections were expanded. In every state that the expansion of sections leads to, there are such ids.
-/
namespace Shorthand

/-! ## APIs -/

namespace Apis

/-- Every part of every API is defined under one of the ids. -/
def Backed (apis : Apis) (ids : List String) : Prop :=
  ∀ e ∈ apis.table, ∀ id ∈ e.2.ids, IsId id ∧ id ∈ ids

theorem backed_nil (digestLength : Nat) (ids : List String) :
    ({ digestLength := digestLength } : Apis).Backed ids :=
  fun _ he => by cases he

theorem Backed.mono {apis : Apis} {ids more : List String} (h : apis.Backed ids) (hs : ids ⊆ more) :
    apis.Backed more :=
  fun e he id hid => (h e he id hid).imp_right fun hm => hs hm

/-- A new API is declared under a plain id, and goes last in the table. -/
theorem declare_eq_ok {apis apis' : Apis} {id : String} {declaration : Node} {ds : List Definition}
    (h : apis.declare id declaration = .ok (ds, apis')) :
    IsId id ∧ ∃ registry, Table.get? apis.table id = none ∧
      Api.Builder.expand id apis.digestLength declaration = .ok (registry, ds) ∧
      apis' = { apis with table := apis.table ++ [(id, registry)] } := by
  unfold Apis.declare at h
  split at h
  · cases h
  · rename_i hid
    simp only [ne_eq, not_or, Decidable.not_not] at hid
    split at h
    · cases h
    · rename_i hn
      obtain ⟨⟨registry, ds'⟩, he, h⟩ := Outcome.bind_eq_ok.mp h
      obtain ⟨rfl, rfl⟩ := Prod.mk.inj (Except.ok.inj h)
      rw [Table.has_iff_mem_keys] at hn
      refine ⟨isId_of_isWord (hid.1 ▸ isWord_slug id) hid.2, registry, Table.get?_eq_none_iff.mpr hn, he, ?_⟩
      rw [Table.put_of_not_mem _ hn]

theorem Backed.declare {apis apis' : Apis} {ids : List String} (h : apis.Backed ids) {id : String}
    {declaration : Node} {ds : List Definition} (hd : apis.declare id declaration = .ok (ds, apis')) :
    apis'.Backed (ids ++ ds.map Definition.id) := by
  obtain ⟨hi, registry, _, he, rfl⟩ := declare_eq_ok hd
  intro e hm x hx
  rcases List.mem_append.mp hm with hm | hm
  · exact (h e hm x hx).imp_right (List.mem_append_left _)
  · obtain rfl := List.mem_singleton.mp hm
    exact (Api.Builder.registered_of_expand hi he hx).imp_right (List.mem_append_right _)

/-- What declarations do after each other: the first one is declared, and the others after it. -/
theorem declareAll_cons {id : String} {declaration : Node} {entries : List (String × Node)}
    {apis apis' : Apis} {ds : List Definition}
    (h : Apis.declareAll ((id, declaration) :: entries) apis = (.ok ds, apis')) :
    ∃ first middle rest, apis.declare id declaration = .ok (first, middle) ∧
      Apis.declareAll entries middle = (.ok rest, apis') ∧ ds = first ++ rest := by
  unfold Apis.declareAll at h
  split at h
  · cases h
  · rename_i first middle hf
    split at h
    · rename_i rest apis₂ hr
      obtain ⟨he, rfl⟩ := Prod.mk.inj h
      exact ⟨first, middle, rest, hf, hr, (Except.ok.inj he).symm⟩
    · rename_i hno
      exact absurd h (hno _ _)

theorem Backed.declareAll {entries : List (String × Node)} {apis apis' : Apis} {ids : List String}
    (h : apis.Backed ids) {ds : List Definition} (hd : Apis.declareAll entries apis = (.ok ds, apis')) :
    apis'.Backed (ids ++ ds.map Definition.id) := by
  induction entries generalizing apis ids ds with
  | nil =>
      obtain ⟨he, rfl⟩ := Prod.mk.inj hd
      exact h.mono (List.subset_append_left _ _)
  | cons entry entries ih =>
      obtain ⟨first, middle, rest, hf, hr, rfl⟩ := declareAll_cons hd
      rw [List.map_append, ← List.append_assoc]
      exact ih (h.declare hf) hr

theorem get?_of_declareAll {entries : List (String × Node)} {apis apis' : Apis} {ds : List Definition}
    (h : Apis.declareAll entries apis = (.ok ds, apis')) {id : String} {registry : Api.Registry}
    (hg : Table.get? apis.table id = some registry) : Table.get? apis'.table id = some registry := by
  induction entries generalizing apis ds with
  | nil => exact (Prod.mk.inj h).2 ▸ hg
  | cons entry entries ih =>
      obtain ⟨first, middle, rest, hf, hr, rfl⟩ := declareAll_cons h
      obtain ⟨_, _, _, _, rfl⟩ := declare_eq_ok hf
      exact ih hr ((Table.get?_append _ (Table.mem_keys_of_get? hg)).trans hg)

/-- Each declaration of an accepted section has its registry, and its definitions in one stretch. -/
theorem expand_of_declareAll {entries : List (String × Node)} {apis apis' : Apis} {ds : List Definition}
    (h : Apis.declareAll entries apis = (.ok ds, apis')) {id : String} {declaration : Node}
    (hd : (id, declaration) ∈ entries) :
    IsId id ∧ ∃ registry before part after, ds = before ++ part ++ after ∧
      Table.get? apis'.table id = some registry ∧
      Api.Builder.expand id apis.digestLength declaration = .ok (registry, part) := by
  induction entries generalizing apis ds with
  | nil => cases hd
  | cons entry entries ih =>
      obtain ⟨first, middle, rest, hf, hr, rfl⟩ := declareAll_cons h
      obtain ⟨hi, registry, hn, he, rfl⟩ := declare_eq_ok hf
      rcases List.mem_cons.mp hd with rfl | hd
      · have hg := Table.get?_append_self registry (Table.get?_eq_none_iff.mp hn)
        exact ⟨hi, registry, [], first, rest, rfl, get?_of_declareAll hr hg, he⟩
      · obtain ⟨hi, registry, before, part, after, rfl, hg, he⟩ := ih hr hd
        exact ⟨hi, registry, first ++ before, part, after, by simp, hg, he⟩

theorem Backed.expandSection {apis : Apis} {ids : List String} (h : apis.Backed ids) {node : Node}
    {ds : List Definition} (hd : (apis.expandSection node).1 = .ok ds) :
    (apis.expandSection node).2.Backed (ids ++ ds.map Definition.id) := by
  unfold Apis.expandSection at hd ⊢
  split at hd
  · exact h.declareAll (Prod.ext hd rfl)
  · cases hd

theorem Backed.lookup {apis : Apis} {ids : List String} (h : apis.Backed ids) {text : String} {t : Target}
    (hl : apis.lookup text = .ok t) : t.Plain ∧ t.id ∈ ids := by
  obtain ⟨ref, hr, hl⟩ := Outcome.bind_eq_ok.mp hl
  split at hl
  · rename_i registry hg
    obtain ⟨found, hf, ht⟩ := Outcome.bind_eq_ok.mp hl
    obtain rfl := Except.ok.inj ht
    obtain ⟨hm, ha⟩ := Api.Registry.find_spec hf
    obtain ⟨hi, hids⟩ := h _ (Table.mem_of_get? hg) _ hm
    have hp : found.Plain := by
      refine ⟨hi, fun a he => ?_⟩
      rcases ha with ha | ha
      · cases ha ▸ he
      · obtain rfl := Option.some.inj (ha.symm.trans he)
        exact List.all_eq_true.mp rfl
    exact ⟨hp.withAttribute fun a => ApiReference.isAttribute_of_parse hr, by simpa using hids⟩
  · cases hl

/-- What the declaration of sections leads to, whether they are accepted or not. -/
inductive Reached : Apis → Prop
  | new (digestLength : Nat) : Reached { digestLength := digestLength }
  | expand {apis : Apis} (h : Reached apis) (node : Node) : Reached (apis.expandSection node).2

theorem exists_backed_declareAll (entries : List (String × Node)) {apis : Apis} (h : ∃ ids, apis.Backed ids) :
    ∃ ids, (Apis.declareAll entries apis).2.Backed ids := by
  induction entries generalizing apis with
  | nil => exact h
  | cons entry entries ih =>
      unfold Apis.declareAll
      split
      · exact h
      · rename_i hd
        obtain ⟨_, hb⟩ := h
        obtain ⟨ids, hrest⟩ := ih ⟨_, hb.declare hd⟩
        refine ⟨ids, ?_⟩
        split
        · rename_i hr
          rwa [hr] at hrest
        · exact hrest

theorem Reached.backed {apis : Apis} (h : Reached apis) : ∃ ids, apis.Backed ids := by
  induction h with
  | new digestLength => exact ⟨[], backed_nil digestLength []⟩
  | expand _ node ih =>
      unfold Apis.expandSection
      split
      · exact exists_backed_declareAll _ ih
      · exact ih

end Apis

/-! ## Matrices -/

theorem Definition.id_of_ofNode {id : String} {node : Node} {d : Definition} (h : ofNode id node = .ok d) :
    d.id = id := by
  unfold ofNode at h
  split at h
  · simp only [Outcome.bind_eq_ok] at h
    obtain ⟨_, _, _, _, _, _, _, _, h⟩ := h
    exact Except.ok.inj h ▸ rfl
  · cases h

namespace Matrix

theorem isId_of_entryOf {matrix pattern : String} {dimensions : List Dimension}
    {choice : List (String × String)} {entry : MatrixEntry}
    (h : entryOf matrix pattern dimensions choice = .ok entry) : IsId entry.id := by
  unfold entryOf at h
  simp only at h
  split at h
  · cases h
  · rename_i hc
    obtain rfl := Except.ok.inj h
    simp only [Bool.or_eq_true, Bool.not_eq_true', not_or, Bool.not_eq_false, List.all_eq_true] at hc
    refine isId_of_isWord hc.2 fun he => hc.1 ?_
    rw [show substitute "" _ _ pattern = "" from he]
    rfl

theorem isId_of_new {id pattern : String} {dimensions : List Dimension} {m : Matrix}
    (h : new id pattern dimensions = .ok m) {entry : MatrixEntry} (he : entry ∈ m.entries) :
    IsId entry.id := by
  obtain ⟨entries, hm, h⟩ := Outcome.bind_eq_ok.mp h
  obtain rfl := Except.ok.inj h
  obtain ⟨choice, _, hc⟩ := Outcome.exists_of_mem_right (Outcome.mapM_eq_ok.mp hm) he
  exact isId_of_entryOf hc

theorem mem_of_select {m : Matrix} {text : String} {pairs : List (String × String)} {entry : MatrixEntry}
    (h : m.select text pairs = .ok entry) : entry ∈ m.entries := by
  simp only [select, Outcome.bind_eq_ok] at h
  obtain ⟨_, _, keys, _, h⟩ := h
  split at h
  · rename_i hf
    exact Except.ok.inj h ▸ List.mem_of_find?_eq_some hf
  · cases h

end Matrix

namespace Matrices

/-- Every entry of every matrix is defined under one of the ids. -/
def Backed (ms : Matrices) (ids : List String) : Prop :=
  ∀ e ∈ ms.table, ∀ entry ∈ e.2.entries, IsId entry.id ∧ entry.id ∈ ids

theorem backed_nil (ids : List String) : ({} : Matrices).Backed ids := fun _ he => by cases he

theorem Backed.mono {ms : Matrices} {ids more : List String} (h : ms.Backed ids) (hs : ids ⊆ more) :
    ms.Backed more :=
  fun e he entry hm => (h e he entry hm).imp_right fun hi => hs hi

/-- A plan has a matrix made of the declared dimensions, and the body that the declaration gives. -/
theorem of_plan {params : Parameters} {id : String} {declaration : Node} {p : Plan}
    (h : plan params id declaration = .ok p) :
    (∃ pattern entries dimensions, Table.get? declaration.entries "Dimensions" = some (.map entries) ∧
        List.Forall₂ (fun e d => Dimension.ofNode id params e.1 e.2 = .ok d) entries dimensions ∧
        Matrix.new id pattern dimensions = .ok p.matrix) ∧
      Table.get? (Table.erase (Table.erase declaration.entries "Dimensions") "LogicalId") "Resource" =
        some p.body := by
  unfold plan at h
  simp only [Table.take] at h
  split at h
  · simp at h
  · split at h
    · simp at h
    · split at h
      · rename_i entry entries hget
        obtain ⟨dimensions, hdims, h⟩ := Outcome.bind_eq_ok.mp h
        have hdims := Outcome.mapM_eq_ok.mp hdims
        -- whatever pattern and body there are, the matrix is made last
        split at h
        all_goals
          obtain ⟨pattern, _, h⟩ := Outcome.bind_eq_ok.mp h
          split at h
          · rename_i hg
            obtain ⟨body, hb, h⟩ := Outcome.bind_eq_ok.mp h
            obtain rfl := Except.ok.inj hb
            split at h
            · simp at h
            · obtain ⟨matrix, hm, h⟩ := Outcome.bind_eq_ok.mp h
              obtain rfl := Except.ok.inj h
              exact ⟨⟨pattern, entry :: entries, dimensions, hget, hdims, hm⟩, hg⟩
          · obtain ⟨_, hb, _⟩ := Outcome.bind_eq_ok.mp h
            cases hb
      · simp at h

/-- Each entry's definition is read from the body that is stamped with its values. -/
theorem forall₂_of_issue {body : Node} {entries : List MatrixEntry} {issued issued' : List String}
    {ds : List Definition} (h : issue body entries issued = (.ok ds, issued')) :
    List.Forall₂ (fun entry d => Definition.ofNode entry.id (Matrix.stamp entry.values body) = .ok d)
      entries ds := by
  induction entries generalizing issued issued' ds with
  | nil =>
      obtain ⟨he, _⟩ := Prod.mk.inj h
      exact Except.ok.inj he ▸ .nil
  | cons entry entries ih =>
      unfold issue at h
      split at h
      · cases h
      · simp only at h
        split at h
        · cases h
        · rename_i d hd
          split at h
          · rename_i ds' issued₂ hi
            obtain ⟨he, _⟩ := Prod.mk.inj h
            exact Except.ok.inj he ▸ .cons hd (ih hi)
          · rename_i hf
            exact absurd h (hf _ _)

theorem ids_of_issue {body : Node} {entries : List MatrixEntry} {issued issued' : List String}
    {ds : List Definition} (h : issue body entries issued = (.ok ds, issued')) :
    ds.map Definition.id = entries.map MatrixEntry.id := by
  rw [← List.forall₂_eq_eq_eq, List.forall₂_map_left_iff, List.forall₂_map_right_iff]
  exact (forall₂_of_issue h).flip.imp fun _ _ hd => Definition.id_of_ofNode hd

/-- A matrix is planned, its definitions are issued, and it is put into the table. -/
theorem declare_eq_ok {ms ms' : Matrices} {params : Parameters} {id : String} {declaration : Node}
    {ds : List Definition} (h : ms.declare params id declaration = (.ok ds, ms')) :
    ∃ p issued, plan params id declaration = .ok p ∧
      issue p.body p.matrix.entries ms.issued = (.ok ds, issued) ∧
      ms' = ⟨Table.put ms.table id p.matrix, issued⟩ := by
  unfold Matrices.declare at h
  split at h
  · cases h
  · split at h
    · cases h
    · rename_i matrix body hp
      split at h
      · cases h
      · rename_i ds' issued hi
        obtain ⟨he, rfl⟩ := Prod.mk.inj h
        obtain rfl := Except.ok.inj he
        exact ⟨⟨matrix, body⟩, issued, hp, hi, rfl⟩

/-- What declarations do after each other: the first one is declared, and the others after it. -/
theorem declareAll_cons {params : Parameters} {id : String} {declaration : Node}
    {entries : List (String × Node)} {ms ms' : Matrices} {ds : List Definition}
    (h : Matrices.declareAll params ((id, declaration) :: entries) ms = (.ok ds, ms')) :
    ∃ first middle rest, ms.declare params id declaration = (.ok first, middle) ∧
      Matrices.declareAll params entries middle = (.ok rest, ms') ∧ ds = first ++ rest := by
  unfold Matrices.declareAll at h
  split at h
  · cases h
  · rename_i first middle hf
    split at h
    · rename_i rest ms₂ hr
      obtain ⟨he, rfl⟩ := Prod.mk.inj h
      exact ⟨first, middle, rest, hf, hr, (Except.ok.inj he).symm⟩
    · rename_i hno
      exact absurd h (hno _ _)

theorem Backed.declare {ms ms' : Matrices} {ids : List String} (h : ms.Backed ids) {params : Parameters}
    {id : String} {declaration : Node} {ds : List Definition}
    (hd : ms.declare params id declaration = (.ok ds, ms')) : ms'.Backed (ids ++ ds.map Definition.id) := by
  obtain ⟨p, issued, hp, hi, rfl⟩ := declare_eq_ok hd
  obtain ⟨⟨pattern, _, dimensions, _, _, hn⟩, _⟩ := of_plan hp
  intro e hm entry hentry
  rcases Table.mem_of_mem_put hm with hm | rfl
  · exact (h e hm entry hentry).imp_right (List.mem_append_left _)
  · refine ⟨Matrix.isId_of_new hn hentry, List.mem_append_right _ ?_⟩
    rw [ids_of_issue hi]
    exact List.mem_map_of_mem hentry

theorem Backed.declareAll {params : Parameters} {entries : List (String × Node)} {ms ms' : Matrices}
    {ids : List String} (h : ms.Backed ids) {ds : List Definition}
    (hd : Matrices.declareAll params entries ms = (.ok ds, ms')) :
    ms'.Backed (ids ++ ds.map Definition.id) := by
  induction entries generalizing ms ids ds with
  | nil =>
      obtain ⟨_, rfl⟩ := Prod.mk.inj hd
      exact h.mono (List.subset_append_left _ _)
  | cons entry entries ih =>
      obtain ⟨first, middle, rest, hf, hr, rfl⟩ := declareAll_cons hd
      rw [List.map_append, ← List.append_assoc]
      exact ih (h.declare hf) hr

theorem Backed.expandSection {ms : Matrices} {ids : List String} (h : ms.Backed ids) {params : Parameters}
    {node : Node} {ds : List Definition} (hd : (ms.expandSection params node).1 = .ok ds) :
    (ms.expandSection params node).2.Backed (ids ++ ds.map Definition.id) := by
  unfold Matrices.expandSection at hd ⊢
  split at hd
  · exact h.declareAll (Prod.ext hd rfl)
  · cases hd

theorem Backed.lookup {ms : Matrices} {ids : List String} (h : ms.Backed ids) {text : String} {t : Target}
    (hl : ms.lookup text = .ok t) : t.Plain ∧ t.id ∈ ids := by
  simp only [Matrices.lookup, Outcome.bind_eq_ok] at hl
  obtain ⟨ref, hr, matrix, hm, hl⟩ := hl
  unfold find at hm
  split at hm
  · rename_i m hg
    obtain rfl := Except.ok.inj hm
    split at hl
    · cases hl
    · obtain ⟨entry, he, ht⟩ := Outcome.bind_eq_ok.mp hl
      obtain rfl := Except.ok.inj ht
      obtain ⟨hi, hids⟩ := h _ (Table.mem_of_get? hg) _ (Matrix.mem_of_select he)
      have hp : (Target.resource entry.id).Plain := ⟨hi, fun _ he => by cases he⟩
      refine ⟨hp.withAttribute fun a => MatrixReference.isAttribute_of_parse hr, ?_⟩
      rwa [Target.id_withAttribute]
  · cases hm

/-- A matrix that is refused is not registered. -/
theorem table_of_declare_error {ms ms' : Matrices} {params : Parameters} {id : String} {declaration : Node} {e : Error}
    (h : ms.declare params id declaration = (.error e, ms')) : ms'.table = ms.table := by
  unfold Matrices.declare at h
  split at h
  · exact (Prod.mk.inj h).2 ▸ rfl
  · split at h
    · exact (Prod.mk.inj h).2 ▸ rfl
    · split at h
      · exact (Prod.mk.inj h).2 ▸ rfl
      · cases (Prod.mk.inj h).1

/-- What the declaration of sections leads to, whether they are accepted or not. -/
inductive Reached : Matrices → Prop
  | new : Reached {}
  | expand {ms : Matrices} (h : Reached ms) (params : Parameters) (node : Node) :
      Reached (ms.expandSection params node).2

theorem exists_backed_declareAll {params : Parameters} (entries : List (String × Node)) {ms : Matrices}
    (h : ∃ ids, ms.Backed ids) : ∃ ids, (Matrices.declareAll params entries ms).2.Backed ids := by
  induction entries generalizing ms with
  | nil => exact h
  | cons entry entries ih =>
      obtain ⟨ids, hb⟩ := h
      unfold Matrices.declareAll
      split
      · rename_i hd
        refine ⟨ids, fun declared hm => hb declared ?_⟩
        rwa [table_of_declare_error hd] at hm
      · rename_i hd
        obtain ⟨ids, hrest⟩ := ih ⟨_, hb.declare hd⟩
        refine ⟨ids, ?_⟩
        split
        · rename_i hr
          rwa [hr] at hrest
        · exact hrest

theorem Reached.backed {ms : Matrices} (h : Reached ms) : ∃ ids, ms.Backed ids := by
  induction h with
  | new => exact ⟨[], backed_nil []⟩
  | expand _ params node ih =>
      unfold Matrices.expandSection
      split
      · exact exists_backed_declareAll _ ih
      · exact ih

end Matrices
end Shorthand
