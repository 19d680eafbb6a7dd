import Mathlib.Data.List.Nodup
import Shorthand.Proofs.Import
import Shorthand.Proofs.Symbolic
import Shorthand.Proofs.WellFormed

/-!
# Which names imports are bound to

The exports of a substitution get the first names of the series that its own bindings leave free, one each, in the
order in which the template asks for them. Nothing else of the template changes, and the bindings come after those
that are there.
-/
namespace Shorthand.Import
open Template

/-- The exports that a template asks for, each once, in the order of their first places. -/
def exportsOf (template : String) : List String := ((placeholders template).filterMap exported?).eraseDups

theorem exportsOf_eq_nil_iff {template : String} :
    exportsOf template = [] ↔ ∀ body ∈ placeholders template, ¬ StartsWith lead body := by
  have hnone := List.filterMap_eq_nil_iff (f := exported?) (l := placeholders template)
  simp only [exported?_eq_none_iff] at hnone
  rw [← hnone, exportsOf, List.eq_nil_iff_forall_not_mem, List.eq_nil_iff_forall_not_mem]
  simp only [List.mem_eraseDups]

/-! ## Free names -/

/-- The names among so many of the series that are not bound. -/
def freeNames (bound : List String) (n : Nat) : List String :=
  ((List.range' 1 n).map nameOf).filter fun name => !bound.contains name

theorem nameOf_injective : Function.Injective nameOf := Naming.numbered_injective "Import"

theorem mem_freeNames {bound : List String} {n : Nat} {name : String} :
    name ∈ freeNames bound n ↔ name ∉ bound ∧ ∃ k, 1 ≤ k ∧ k ≤ n ∧ nameOf k = name := by
  rw [freeNames, List.mem_filter, List.mem_map]
  simp only [List.mem_range'_1, Bool.not_eq_true', List.contains_eq_mem, decide_eq_false_iff_not]
  constructor
  · rintro ⟨⟨k, hk, rfl⟩, hn⟩
    exact ⟨hn, k, hk.1, by omega, rfl⟩
  · rintro ⟨hn, k, h₁, h₂, rfl⟩
    exact ⟨⟨k, ⟨h₁, by omega⟩, rfl⟩, hn⟩

theorem nodup_freeNames (bound : List String) (n : Nat) : (freeNames bound n).Nodup :=
  (List.Nodup.map nameOf_injective List.nodup_range').filter _

/-- The search for a name adds that name to those found before, and no other. -/
theorem freeNames_free (bound : List String) (n : Nat) :
    freeNames bound (Naming.free bound nameOf (n + 1)) =
      freeNames bound n ++ [nameOf (Naming.free bound nameOf (n + 1))] := by
  have hfree := Naming.free_not_mem nameOf_injective bound (n + 1)
  obtain ⟨k, -, he, htaken, -⟩ := Naming.firstFree_spec bound nameOf bound.length (n + 1)
  rw [Naming.free, he] at hfree ⊢
  have hskipped : ((List.range' (1 + n) k).map nameOf).filter (fun name => !bound.contains name) = [] := by
    rw [List.filter_eq_nil_iff, List.forall_mem_map]
    intro i hi
    obtain ⟨h₁, h₂⟩ := List.mem_range'_1.mp hi
    have hi := htaken (i - (n + 1)) (by omega)
    rw [show n + 1 + (i - (n + 1)) = i by omega] at hi
    simpa using hi
  have hrange : List.range' 1 (n + 1 + k) = List.range' 1 n ++ List.range' (1 + n) k ++ [n + 1 + k] := by
    rw [show n + 1 + k = n + k + 1 by omega, List.range'_1_concat, Nat.add_comm 1 (n + k), List.range'_append_1]
  rw [freeNames, hrange, List.map_append, List.map_append, List.filter_append, List.filter_append, hskipped,
    List.append_nil, freeNames, List.map_cons, List.map_nil, List.filter_cons_of_pos (by simpa using hfree),
    List.filter_nil]

/-! ## A run over the placeholders -/

/-- The exports met so far have the first free names, in the order in which they were met. -/
structure Imports.Named (bound met : List String) (s : Imports) : Prop where
  names : s.names.map Prod.fst = freeNames bound s.issued
  exports : s.names.map Prod.snd = met.eraseDups
  once : (s.names.map Prod.snd).Nodup

def Imports.nameFor (s : Imports) (exported : String) : String := (s.find? exported).getD ""

/-- What becomes of a placeholder where exports have these names. -/
def renamed (name : String → String) (body : String) : String := (exported? body).elim body name

theorem named_nil (bound : List String) : Imports.Named bound [] {} := ⟨rfl, rfl, List.nodup_nil⟩

theorem Imports.find?_of_prefix {s s' : Imports} {exported name : String} (h : s.names <+: s'.names)
    (hf : s.find? exported = some name) : s'.find? exported = some name := by
  obtain ⟨more, hmore⟩ := h
  obtain ⟨entry, he, rfl⟩ := Option.map_eq_some_iff.mp hf
  rw [find?, ← hmore, List.find?_append, he]
  rfl

theorem Imports.find?_eq_none_iff {s : Imports} {exported : String} :
    s.find? exported = none ↔ exported ∉ s.names.map Prod.snd := by
  rw [find?, Option.map_eq_none_iff, List.find?_eq_none, List.mem_map]
  constructor
  · rintro h ⟨entry, he, rfl⟩
    exact h entry he (beq_self_eq_true _)
  · exact fun h entry he heq => h ⟨entry, he, beq_iff_eq.mp heq⟩

/-- A visit gives an export its name, a new one where the export was not met before. -/
theorem Imports.Named.visit {bound met : List String} {s : Imports} (h : Named bound met s) (body : String) :
    ∃ answer s', Imports.visit bound body s = (.ok answer, s') ∧ s.names <+: s'.names ∧
      Named bound (met ++ (exported? body).toList) s' ∧
      ∀ s'' : Imports, s'.names <+: s''.names → answer.getD body = renamed s''.nameFor body := by
  rw [Imports.visit]
  split
  · rename_i he
    exact ⟨none, s, rfl, List.prefix_refl _, by simpa [he] using h, fun _ _ => by rw [renamed, he]; rfl⟩
  · rename_i exported he
    rw [he, Option.toList_some]
    have hmem : exported ∈ s.names.map Prod.snd ↔ exported ∈ met := by rw [h.exports, List.mem_eraseDups]
    split
    · rename_i name hf
      have hm : exported ∈ met := hmem.mp (by_contra fun hn => by rw [find?_eq_none_iff.mpr hn] at hf; cases hf)
      refine ⟨some name, s, rfl, List.prefix_refl _, ⟨h.names, ?_, h.once⟩, fun s'' hp => ?_⟩
      · rw [eraseDups_snoc, if_pos hm, h.exports]
      · rw [renamed, he, Option.elim_some, nameFor, find?_of_prefix hp hf]
        rfl
    · rename_i hf
      have hnew := find?_eq_none_iff.mp hf
      generalize hn : Naming.free bound nameOf (s.issued + 1) = n
      have hfound : Imports.find? ⟨n, s.names ++ [(nameOf n, exported)]⟩ exported = some (nameOf n) := by
        have hold : s.names.find? (fun entry => entry.2 == exported) = none := Option.map_eq_none_iff.mp hf
        rw [find?, List.find?_append, hold]
        simp
      refine ⟨some (nameOf n), _, rfl, List.prefix_append _ _, ⟨?_, ?_, ?_⟩, fun s'' hp => ?_⟩
      · rw [List.map_append, h.names, ← hn, freeNames_free]
        rfl
      · rw [List.map_append, h.exports, eraseDups_snoc, if_neg fun hm => hnew (hmem.mpr hm)]
        rfl
      · rw [List.map_append]
        exact nodup_snoc h.once hnew
      · rw [renamed, he, Option.elim_some, nameFor, find?_of_prefix hp hfound]
        rfl

theorem Imports.Named.visits {bound : List String} (bodies : List String) {met : List String} {s : Imports}
    (h : Named bound met s) :
    ∃ s', Visits (Imports.visit bound) bodies s (bodies.map (renamed s'.nameFor)) s' ∧ s.names <+: s'.names ∧
      Named bound (met ++ bodies.filterMap exported?) s' := by
  induction bodies generalizing met s with
  | nil => exact ⟨s, .nil s, List.prefix_refl _, by simpa using h⟩
  | cons body bodies ih =>
      obtain ⟨answer, s₁, hv, hp, hn, hnew⟩ := h.visit body
      obtain ⟨s', hvs, hps, hns⟩ := ih hn
      refine ⟨s', ?_, hp.trans hps, ?_⟩
      · -- a name stays what it is while more are given out
        rw [List.map_cons, ← hnew s' hps]
        exact .cons hv hvs
      · have hmet : (exported? body).toList ++ bodies.filterMap exported? = (body :: bodies).filterMap exported? := by
          cases he : exported? body <;> simp [he]
        rwa [List.append_assoc, hmet] at hns

theorem Imports.Named.nameFor_eq {bound met : List String} {s : Imports} (h : Named bound met s)
    {entry : String × String} (he : entry ∈ s.names) : s.nameFor entry.2 = entry.1 := by
  cases hf : s.names.find? fun e : String × String => e.2 == entry.2 with
  | none => exact absurd (beq_self_eq_true entry.2) (List.find?_eq_none.mp hf entry he)
  | some found =>
      have hsame : found.2 = entry.2 :=
        beq_iff_eq.mp (List.find?_some (p := fun e : String × String => e.2 == entry.2) hf)
      have hfound := List.inj_on_of_nodup_map h.once (List.mem_of_find?_eq_some hf) he hsame
      rw [nameFor, find?, hf, hfound]
      rfl

theorem Imports.Named.names_eq {bound met : List String} {s : Imports} (h : Named bound met s) :
    s.names = met.eraseDups.map fun exported => (s.nameFor exported, exported) := by
  rw [← h.exports, List.map_map]
  conv_lhs => rw [← List.map_id s.names]
  exact List.map_congr_left fun entry he => Prod.ext (h.nameFor_eq he).symm rfl

/-! ## The substitution -/

/-- Exports have the first names that are not bound, in their order: each has one of its own. -/
structure NamesFor (bound exports : List String) (name : String → String) : Prop where
  apart : ∀ e ∈ exports, ∀ e' ∈ exports, name e = name e' → e = e'
  unbound : ∀ e ∈ exports, name e ∉ bound
  first : ∃ n, exports.map name = freeNames bound n

theorem Imports.Named.namesFor {bound met : List String} {s : Imports} (h : Named bound met s) :
    NamesFor bound met.eraseDups s.nameFor := by
  have hfirst : met.eraseDups.map s.nameFor = freeNames bound s.issued := by
    rw [← h.names, h.names_eq, List.map_map]
    rfl
  refine ⟨?_, fun e he => ?_, s.issued, hfirst⟩
  · exact List.inj_on_of_nodup_map (hfirst ▸ nodup_freeNames bound s.issued)
  · exact (mem_freeNames.mp (hfirst ▸ List.mem_map_of_mem he)).1

def calls (name : String → String) (exports : List String) : Table Node :=
  exports.map fun e => (name e, .call Call.importValue (.text e))

theorem keys_calls (name : String → String) (exports : List String) :
    Table.keys (calls name exports) = exports.map name := by
  rw [calls, Table.keys, List.map_map]
  rfl

theorem NamesFor.distinct_calls {bound exports : List String} {name : String → String}
    (h : NamesFor bound exports name) : Table.Distinct (calls name exports) := by
  obtain ⟨n, hn⟩ := h.first
  rw [Table.Distinct, keys_calls, hn]
  exact nodup_freeNames bound n

theorem NamesFor.new_calls {bound exports : List String} {name : String → String}
    (h : NamesFor bound exports name) : ∀ key ∈ Table.keys (calls name exports), key ∉ bound := by
  rw [keys_calls]
  exact List.forall_mem_map.mpr h.unbound

/-- A closed template without imports stays, and its bindings, unless they are empty; in any other the imports are
renamed and bound after what is there. -/
theorem expand_eq (call : String) {template : String} {arg : Node} {bindings : Table Node}
    (hp : parts? arg = some (template, bindings)) (hc : isClosed template = true) :
    ∃ name, NamesFor (Table.keys bindings) (exportsOf template) name ∧
      expand call arg = .ok (.call call
        (if exportsOf template = [] then
          if bindings.isEmpty then .text template else .list [.text template, .map bindings]
        else .list [.text (rename (renamed name) template),
          .map (bindings ++ calls name (exportsOf template))])) := by
  obtain ⟨s, hv, -, hn⟩ := (named_nil (Table.keys bindings)).visits (placeholders template)
  rw [List.nil_append] at hn
  have hnames : NamesFor (Table.keys bindings) (exportsOf template) s.nameFor := hn.namesFor
  refine ⟨s.nameFor, hnames, ?_⟩
  have hcalls : (s.names.map fun entry => (entry.1, Node.call Call.importValue (.text entry.2))) =
      calls s.nameFor (exportsOf template) := by
    rw [hn.names_eq, List.map_map]
    rfl
  have hnone : s.names.isEmpty = true ↔ exportsOf template = [] := by
    rw [List.isEmpty_iff, hn.names_eq, List.map_eq_nil_iff, exportsOf]
  have hput := Table.putAll_of_new hnames.distinct_calls hnames.new_calls
  rw [expand, hp]
  simp only [rewriteWith_of_visits hc hv, hcalls, hput, hnone]
  split <;> rfl

/-- A closed template that imports nothing stays with its bindings, empty ones being left out. In any other the
imports are renamed, each export to a name of its own that is not bound, and nothing else; the bindings stay in front
and are followed by the exports under their names, in their order. -/
theorem binds_of_isClosed (call : String) {template : String} {arg : Node} {bindings : Table Node}
    (hp : parts? arg = some (template, bindings)) (hc : isClosed template = true) :
    ((∀ body ∈ placeholders template, ¬ StartsWith lead body) → expand call arg = .ok (.call call
      (if bindings.isEmpty then .text template else .list [.text template, .map bindings]))) ∧
    ((∃ body ∈ placeholders template, StartsWith lead body) →
      ∃ name, NamesFor (Table.keys bindings) (exportsOf template) name ∧ expand call arg = .ok (.call call
        (.list [.text (rename (renamed name) template), .map (bindings ++ calls name (exportsOf template))]))) := by
  obtain ⟨name, hname, he⟩ := expand_eq call hp hc
  constructor
  · intro hnone
    rw [he, if_pos (exportsOf_eq_nil_iff.mpr hnone)]
  · rintro ⟨body, hbody, hlead⟩
    refine ⟨name, hname, ?_⟩
    rw [he, if_neg fun hnil => exportsOf_eq_nil_iff.mp hnil body hbody hlead]

/-- The name that is bound already is left out. -/
theorem binds_aroundImport2 :
    let template := "$\x7bImport2\x7d|$\x7bImport:a\x7d|$\x7bImport:b\x7d|$\x7bImport:a\x7d"
    let bindings : Table Node := [("Import2", .text "mine")]
    isClosed template = true ∧ StartsWith lead "Import:a" ∧
      ∃ name, NamesFor ["Import2"] ["a", "b"] name ∧ expand Call.sub (.list [.text template, .map bindings]) =
        .ok (.call Call.sub
          (.list [.text (rename (renamed name) template), .map (bindings ++ calls name ["a", "b"])])) := by
  intro template bindings
  have hp : parts? (.list [.text template, .map bindings]) = some (template, bindings) := rfl
  have hc : isClosed template = true := by decide +kernel
  have hlead : StartsWith lead "Import:a" := by unfold StartsWith; decide
  have hbodies : placeholders template = ["Import2", "Import:a", "Import:b", "Import:a"] := by decide +kernel
  have hexports : exportsOf template = ["a", "b"] := by
    rw [exportsOf, hbodies]
    decide
  obtain ⟨name, hname, he⟩ := (binds_of_isClosed Call.sub hp hc).2 ⟨_, by simp [hbodies], hlead⟩
  rw [hexports] at hname he
  exact ⟨hc, hlead, name, hname, he⟩

/-! ## What the names capture -/

/-- The substitution keeps what it binds, and binds besides exactly the first free names, one for each export: these
are the placeholders that are captured. -/
theorem captured_iff_of_isClosed (call : String) {template : String} {arg : Node} {bindings : Table Node}
    (hp : parts? arg = some (template, bindings)) (hc : isClosed template = true) :
    ∃ arg' template' bindings' n, expand call arg = .ok (.call call arg') ∧
      parts? arg' = some (template', bindings') ∧
      (freeNames (Table.keys bindings) n).length = (exportsOf template).length ∧
      ∀ body, (body ∈ Table.keys bindings → Table.get? bindings' body = Table.get? bindings body) ∧
        (body ∉ Table.keys bindings →
          (body ∈ Table.keys bindings' ↔ body ∈ freeNames (Table.keys bindings) n)) := by
  obtain ⟨name, hname, he⟩ := expand_eq call hp hc
  obtain ⟨n, hn⟩ := hname.first
  have hlen : (freeNames (Table.keys bindings) n).length = (exportsOf template).length := by
    rw [← hn, List.length_map]
  by_cases hnil : exportsOf template = []
  · rw [hnil, List.map_nil] at hn
    have hparts : parts? (if bindings.isEmpty then .text template else .list [.text template, .map bindings]) =
        some (template, bindings) := by cases bindings <;> rfl
    refine ⟨_, template, bindings, n, by rw [he, if_pos hnil], hparts, hlen, fun body => ⟨fun _ => rfl, fun hb => ?_⟩⟩
    simp [hb, ← hn]
  · refine ⟨_, _, _, n, by rw [he, if_neg hnil], rfl, hlen, fun body => ⟨Table.get?_append _, fun hb => ?_⟩⟩
    have hkeys : Table.keys (bindings ++ calls name (exportsOf template)) =
        Table.keys bindings ++ freeNames (Table.keys bindings) n := by
      rw [← hn, ← keys_calls]
      exact List.map_append
    rw [hkeys, List.mem_append, or_iff_right hb]

/-- A placeholder whose name is bound already stays bound as it was. -/
theorem captured_aroundImport1 :
    let template := "$\x7bImport1\x7d-$\x7bImport:x\x7d"
    let bindings : Table Node := [("Import1", .text "mine")]
    isClosed template = true ∧
      ∃ arg' template' bindings' n,
        expand Call.sub (.list [.text template, .map bindings]) = .ok (.call Call.sub arg') ∧
        parts? arg' = some (template', bindings') ∧ (freeNames ["Import1"] n).length = 1 ∧
        Table.get? bindings' "Import1" = some (.text "mine") := by
  intro template bindings
  have hp : parts? (.list [.text template, .map bindings]) = some (template, bindings) := rfl
  have hc : isClosed template = true := by decide +kernel
  have hexports : (exportsOf template).length = 1 := by decide +kernel
  obtain ⟨arg', template', bindings', n, he, hp', hlen, hkept⟩ :=
    captured_iff_of_isClosed Call.sub hp hc
  have hbound : "Import1" ∈ Table.keys bindings := List.mem_singleton_self _
  exact ⟨hc, arg', template', bindings', n, he, hp', hlen.trans hexports, (hkept _).1 hbound⟩

/-- A reference that is spelled like the first name is captured. -/
theorem captured_import1 :
    let template := "$\x7bImport1\x7d/$\x7bImport:x\x7d"
    let bindings : Table Node := [("Import1", .call Call.importValue (.text "x"))]
    isClosed template = true ∧ "Import1" ∈ placeholders template ∧ ¬ StartsWith lead "Import1" ∧
      "Import1" ∉ Table.keys ([] : Table Node) ∧
      expand Call.sub (.text template) =
        .ok (.call Call.sub (.list [.text "$\x7bImport1\x7d/$\x7bImport1\x7d", .map bindings])) ∧
      "Import1" ∈ Table.keys bindings := by
  intro template bindings
  have hbodies : placeholders template = ["Import1", "Import:x"] := by decide +kernel
  have hrun : (rewriteWith (Imports.visit []) template {}).1 = .ok "$\x7bImport1\x7d/$\x7bImport1\x7d" ∧
      (rewriteWith (Imports.visit []) template {}).2.names = [("Import1", "x")] := by decide +kernel
  have he : expand Call.sub (.text template) =
      .ok (.call Call.sub (.list [.text "$\x7bImport1\x7d/$\x7bImport1\x7d", .map bindings])) := by
    unfold expand
    simp only [parts?, Table.keys, List.map_nil]
    generalize rewriteWith (Imports.visit []) template {} = run at hrun
    obtain ⟨_, s⟩ := run
    obtain ⟨rfl, hnames⟩ := hrun
    simp only at hnames
    simp only [hnames]
    rfl
  exact ⟨by decide +kernel, by simp [hbodies], by unfold StartsWith; decide, List.not_mem_nil, he,
    List.mem_singleton_self _⟩

end Shorthand.Import
