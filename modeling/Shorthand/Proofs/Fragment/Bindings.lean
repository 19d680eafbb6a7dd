import Shorthand.Proofs.Equality
import Shorthand.Proofs.Fragment.Splice

/-!
# What a fragment binds

The bindings of a fragment are those of its splices, put one after another, and none of them replaces a
different value. So each binding is found under its name at the end, whatever was bound after it. A free
placeholder, on the other hand, is not looked at when a name is made up.
-/
namespace Shorthand

theorem Table.putAll_append {α : Type} (t more rest : Table α) :
    putAll t (more ++ rest) = putAll (putAll t more) rest :=
  List.foldl_append

namespace Node

/-- A well-formed tree has well-formed calls. -/
theorem wellFormed_of_mem_sites {call : Node} :
    ∀ node : Node, node.WellFormed → call ∈ node.sites → call.WellFormed
  | .map entries, hn, h => by
      rw [sites] at h
      split at h
      · exact List.mem_singleton.mp h ▸ hn
      · exact inEntries entries (wellFormed_map_iff.mp hn).2 h
  | .list items, hn, h => inItems items (wellFormed_list_iff.mp hn) h
where
  inItems : ∀ items : List Node, (∀ item ∈ items, item.WellFormed) → call ∈ sitesOfItems items → call.WellFormed
    | item :: items, hi, h => by
        obtain ⟨hitem, hi⟩ := List.forall_mem_cons.mp hi
        rcases List.mem_append.mp h with h | h
        · exact wellFormed_of_mem_sites item hitem h
        · exact inItems items hi h
  inEntries : ∀ entries : List (String × Node), (∀ e ∈ entries, e.2.WellFormed) →
      call ∈ sitesOfEntries entries → call.WellFormed
    | (_, value) :: entries, he, h => by
        obtain ⟨hvalue, he⟩ := List.forall_mem_cons.mp he
        rcases List.mem_append.mp h with h | h
        · exact wellFormed_of_mem_sites value hvalue h
        · exact inEntries entries he h

theorem wellFormed_of_mem_calls {call node : Node} (hn : node.WellFormed) (h : call ∈ node.calls) :
    call.WellFormed :=
  wellFormed_of_mem_sites node hn (List.mem_filter.mp h).1

end Node

namespace Fragment

/-! ## Bindings that agree -/

/-- Entries that can be bound one after another, none of them to a name that is bound to another value. -/
def Agrees : Table Node → List (String × Node) → Prop
  | _, [] => True
  | t, e :: entries => clashes t e = false ∧ Agrees (Table.put t e.1 e.2) entries

theorem clashes_eq_false_iff {t : Table Node} {e : String × Node} :
    clashes t e = false ↔ ∀ other, Table.get? t e.1 = some other → other.same e.2 = true := by
  unfold clashes
  cases Table.get? t e.1 <;> simp

theorem clashes_of_not_mem {t : Table Node} {e : String × Node} (h : e.1 ∉ Table.keys t) : clashes t e = false := by
  rw [clashes, Table.get?_eq_none_iff.mpr h]

namespace Agrees
variable {t : Table Node}

theorem append {entries more : List (String × Node)} (h : Agrees t entries)
    (h' : Agrees (Table.putAll t entries) more) : Agrees t (entries ++ more) := by
  induction entries generalizing t with
  | nil => exact h'
  | cons e entries ih => exact ⟨h.1, ih h.2 h'⟩

/-- Under names of their own, entries do not get in each other's way. -/
theorem of_distinct {entries : List (String × Node)} (hd : Table.Distinct entries)
    (h : ∀ e ∈ entries, clashes t e = false) : Agrees t entries := by
  induction entries generalizing t with
  | nil => trivial
  | cons e entries ih =>
      obtain ⟨he, hd⟩ := List.nodup_cons.mp hd
      obtain ⟨hc, h⟩ := List.forall_mem_cons.mp h
      refine ⟨hc, ih hd fun e' he' => ?_⟩
      have hne : e.1 ≠ e'.1 := fun heq => he (heq ▸ List.mem_map_of_mem he')
      rw [clashes, Table.get?_put_of_ne t e.2 hne]
      exact h e' he'

theorem clashes_eq_false {before after : List (String × Node)} {e : String × Node}
    (h : Agrees t (before ++ e :: after)) : clashes (Table.putAll t before) e = false := by
  induction before generalizing t with
  | nil => exact h.1
  | cons _ before ih => exact ih h.2

/-- What is bound stays bound to the same value. -/
theorem same_of_get? {entries : List (String × Node)} (h : Agrees t entries) {name : String} {value bound : Node}
    (hg : Table.get? t name = some bound) (hs : value.same bound = true) :
    ∃ final, Table.get? (Table.putAll t entries) name = some final ∧ value.same final = true := by
  induction entries generalizing t bound with
  | nil => exact ⟨bound, hg, hs⟩
  | cons e entries ih =>
      by_cases hname : e.1 = name
      · -- the value is replaced by an equal one, and equality goes on from there
        subst hname
        have hsame := clashes_eq_false_iff.mp h.1 bound hg
        exact ih h.2 (Table.get?_put_self t e.1 e.2) (Node.same_trans hs hsame)
      · exact ih h.2 ((Table.get?_put_of_ne t e.2 hname).trans hg) hs

/-- Every entry is found at the end, under its name. -/
theorem found {entries : List (String × Node)} (h : Agrees t entries) (hw : ∀ e ∈ entries, e.2.WellFormed) :
    ∀ e ∈ entries, ∃ final, Table.get? (Table.putAll t entries) e.1 = some final ∧ e.2.same final = true := by
  induction entries generalizing t with
  | nil => simp
  | cons e entries ih =>
      obtain ⟨he, hw⟩ := List.forall_mem_cons.mp hw
      refine List.forall_mem_cons.mpr ⟨?_, ih h.2 hw⟩
      exact h.2.same_of_get? (Table.get?_put_self t e.1 e.2) (e.2.same_refl he)

end Agrees

/-! ## Runs -/

/-- What a splice binds is well-formed, and agrees with what is bound before it. -/
theorem Spliced.agrees {t : Table Node} {s : Splice} (h : Spliced t s) (hw : s.call.WellFormed) :
    Agrees t s.bound ∧ ∀ e ∈ s.bound, e.2.WellFormed := by
  cases h with
  | inline => exact ⟨trivial, by simp⟩
  | whole _ _ hf => exact ⟨⟨clashes_of_not_mem hf, trivial⟩, by simpa using hw⟩
  | @merged template own r made hr _ =>
      have hown : (Node.map own).WellFormed :=
        Node.wellFormed_list_iff.mp (Node.wellFormed_call_iff.mp hw) _ (by simp)
      obtain ⟨hd, hvalues⟩ := Node.wellFormed_map_iff.mp hown
      refine ⟨.of_distinct ?_ ?_, ?_⟩
      · have hkeys : Table.keys (own.map fun e => (r e.1, e.2)) = (Table.keys own).map r := by
          simp [Table.keys]
        rw [Table.Distinct, hkeys]
        exact List.Nodup.map_on hr.injective hd
      · intro e he
        obtain ⟨old, hold, rfl⟩ := List.mem_map.mp he
        cases hc : clashes t old with
        | true =>
            have hm : r old.1 ∈ made := hr.names ▸ List.mem_map_of_mem (List.mem_filter.mpr ⟨hold, hc⟩)
            exact clashes_of_not_mem (hr.free _ hm).1
        | false => rw [hr.kept old hold hc, hc]
      · intro e he
        obtain ⟨old, hold, rfl⟩ := List.mem_map.mp he
        exact hvalues old hold

namespace Run
variable {t t' : Table Node} {ss : List Splice}

theorem eq_putAll (h : Run t ss t') : t' = Table.putAll t (ss.flatMap Splice.bound) := by
  induction h with
  | nil => rfl
  | cons _ _ ih => rw [List.flatMap_cons, Table.putAll_append, ih]

theorem agrees (h : Run t ss t') (hw : ∀ s ∈ ss, s.call.WellFormed) :
    Agrees t (ss.flatMap Splice.bound) ∧ ∀ e ∈ ss.flatMap Splice.bound, e.2.WellFormed := by
  induction h with
  | nil => exact ⟨trivial, by simp⟩
  | cons hs _ ih =>
      obtain ⟨hcall, hw⟩ := List.forall_mem_cons.mp hw
      obtain ⟨ha, hvalues⟩ := hs.agrees hcall
      obtain ⟨has, hmore⟩ := ih hw
      rw [List.flatMap_cons]
      exact ⟨ha.append has, List.forall_mem_append.mpr ⟨hvalues, hmore⟩⟩

theorem spliced {before after : List Splice} {s : Splice} (h : Run t (before ++ s :: after) t') :
    Spliced (Table.putAll t (before.flatMap Splice.bound)) s := by
  induction before generalizing t with
  | nil =>
      cases h with
      | cons hs _ => exact hs
  | cons s' before ih =>
      cases h with
      | cons _ hss =>
          rw [List.flatMap_cons, Table.putAll_append]
          exact ih hss

end Run

/-! ## The account of a fragment -/

/-- What the text and the bindings of a fragment are, call by call. -/
structure Accounts (node : Node) (text : String) (bound : Table Node) (splices : List Splice) : Prop where
  /-- There is one splice for each call, in the order of the text, -/
  calls : splices.map Splice.call = node.calls
  /-- and its text stands in the place of the call. -/
  text : ∃ tree, Filled node (splices.map Splice.text) tree ∧ text = tree.json
  /-- It goes with what the splices before it bind. -/
  spliced : ∀ before s after, splices = before ++ s :: after →
    Spliced (Table.ofList (before.flatMap Splice.bound)) s
  /-- Nothing else is bound, -/
  bindings : bound = Table.ofList (splices.flatMap Splice.bound)
  /-- no binding replaces a different one, -/
  agrees : ∀ before e after, splices.flatMap Splice.bound = before ++ e :: after →
    clashes (Table.ofList before) e = false
  /-- and so each is found under its name. -/
  found : ∀ s ∈ splices, ∀ e ∈ s.bound, ∃ value, Table.get? bound e.1 = some value ∧ e.2.same value = true

namespace Compiler

theorem Takes.wellFormed {c c' : Compiler} {node : Node} {splices : List Splice} (hn : node.WellFormed)
    (h : Takes c node.calls splices c') : ∀ s ∈ splices, s.call.WellFormed :=
  fun _ hs => Node.wellFormed_of_mem_calls hn (h.calls ▸ List.mem_map_of_mem hs)

theorem Takes.accounts {c c' : Compiler} {node tree : Node} {splices : List Splice} (hn : node.WellFormed)
    (h : Takes { c with bindings := [] } node.calls splices c')
    (hf : Filled node (splices.map Splice.text) tree) : Accounts node tree.json c'.bindings splices := by
  obtain ⟨ha, hw⟩ := h.run.agrees (h.wellFormed hn)
  have hb : c'.bindings = Table.ofList (splices.flatMap Splice.bound) := h.run.eq_putAll
  refine ⟨h.calls, ⟨tree, hf, rfl⟩, ?_, hb, ?_, ?_⟩
  · rintro before s after rfl
    exact h.run.spliced
  · intro before e after he
    exact (he ▸ ha).clashes_eq_false
  · intro s hs e he
    rw [hb]
    exact ha.found hw e (List.mem_flatMap.mpr ⟨s, hs, he⟩)

/-- One compilation, with its account and the names that it makes up. -/
theorem accounts_of_calls (c : Compiler) {node : Node} (hn : node.WellFormed) (h : node.calls ≠ []) :
    ∃ splices, Numbered c.issued (c.compile node).2.issued (splices.flatMap Splice.made) ∧
      Accounts node (c.compile node).1.text (c.compile node).1.bindings splices := by
  obtain ⟨splices, tree, c', ht, hf, htext, hb, hc, -⟩ := compile_spec c hn h
  rw [htext, hb, hc]
  exact ⟨splices, ht.made, ht.accounts hn hf⟩

theorem accounts_of_compile (c : Compiler) {node : Node} (hn : node.WellFormed) :
    ∃ splices, Numbered c.issued (c.compile node).2.issued (splices.flatMap Splice.made) ∧
      ∀ text bindings, (c.compile node).1 = .bound text bindings → Accounts node text bindings splices := by
  by_cases h : node.calls = []
  · rw [compile_plain c h]
    exact ⟨[], .nil _, fun _ _ he => nomatch he⟩
  · obtain ⟨splices, hm, ha⟩ := c.accounts_of_calls hn h
    refine ⟨splices, hm, fun text bindings he => ?_⟩
    rw [he] at ha
    exact ha

/-- The fragments of trees that one compiler takes one after another. -/
def compileAll (c : Compiler) : List Node → List Fragment
  | [] => []
  | node :: nodes => (c.compile node).1 :: compileAll (c.compile node).2 nodes

theorem accounts_from (c : Compiler) {nodes : List Node} (hn : ∀ node ∈ nodes, node.WellFormed) :
    ∃ runs : List (List Splice), (∃ n, Numbered c.issued n (runs.flatten.flatMap Splice.made)) ∧
      ∀ (i : Nat) node text bindings, nodes[i]? = some node →
        (c.compileAll nodes)[i]? = some (Fragment.bound text bindings) →
        ∃ splices, runs[i]? = some splices ∧ Accounts node text bindings splices := by
  induction nodes generalizing c with
  | nil => exact ⟨[], ⟨_, .nil _⟩, by simp⟩
  | cons node nodes ih =>
      obtain ⟨hnode, hn⟩ := List.forall_mem_cons.mp hn
      obtain ⟨splices, hm, ha⟩ := accounts_of_compile c hnode
      obtain ⟨runs, ⟨n, hms⟩, has⟩ := ih (c.compile node).2 hn
      refine ⟨splices :: runs, ⟨n, ?_⟩, fun i node' text bindings hi hf => ?_⟩
      · rw [List.flatten_cons, List.flatMap_append]
        exact hm.append hms
      · cases i with
        | zero =>
            obtain rfl := Option.some.inj hi
            exact ⟨splices, rfl, ha _ _ (Option.some.inj hf)⟩
        | succ i => exact has i node' text bindings hi hf

/-- Whatever trees a compiler takes one after another, the bindings of each fragment are exact, and no name is
made up twice. -/
theorem accounts_of_compileAll {nodes : List Node} (hn : ∀ node ∈ nodes, node.WellFormed) :
    ∃ runs : List (List Splice),
      (∀ (i : Nat) node text bindings, nodes[i]? = some node →
        (({} : Compiler).compileAll nodes)[i]? = some (Fragment.bound text bindings) →
        ∃ splices, runs[i]? = some splices ∧ Accounts node text bindings splices) ∧
      (runs.flatten.flatMap Splice.made).Nodup ∧
      ∀ name ∈ runs.flatten.flatMap Splice.made, ∃ n, name = nameOf n := by
  obtain ⟨runs, ⟨_, hm⟩, ha⟩ := accounts_from {} hn
  refine ⟨runs, ha, hm.nodup, fun name hname => ?_⟩
  obtain ⟨n, -, he⟩ := hm.exists_nameOf hname
  exact ⟨n, he⟩

/-- A name made up for one call, which a later call has in its bindings. -/
def clashing : Node :=
  .list [.call "Fn::Join" (.list [.text "-", .text "a"]),
    .call Call.sub (.list [.text "$\x7bparam1\x7d/$\x7bparam2\x7d",
      .map [("param1", .text "one"), ("param2", .text "two")]])]

theorem accounts_clashing :
    clashing.WellFormed ∧
      ({} : Compiler).compileAll [clashing, clashing] =
        [.bound "[\"$\x7bparam1\x7d\",\"$\x7bparam3\x7d/$\x7bparam2\x7d\"]"
          [("param1", .call "Fn::Join" (.list [.text "-", .text "a"])), ("param3", .text "one"),
            ("param2", .text "two")],
         .bound "[\"$\x7bparam4\x7d\",\"$\x7bparam1\x7d/$\x7bparam2\x7d\"]"
          [("param4", .call "Fn::Join" (.list [.text "-", .text "a"])), ("param1", .text "one"),
            ("param2", .text "two")]] ∧
      ∃ runs : List (List Splice),
        (∀ (i : Nat) node text bindings, [clashing, clashing][i]? = some node →
          (({} : Compiler).compileAll [clashing, clashing])[i]? = some (Fragment.bound text bindings) →
          ∃ splices, runs[i]? = some splices ∧ Accounts node text bindings splices) ∧
        (runs.flatten.flatMap Splice.made).Nodup ∧
        ∀ name ∈ runs.flatten.flatMap Splice.made, ∃ n, name = nameOf n := by
  have hw : clashing.WellFormed := by
    simp [clashing, Node.call, Node.WellFormed, Node.EntriesWellFormed, Node.AllWellFormed, Table.Distinct,
      Table.keys]
  exact ⟨hw, by cbv, accounts_of_compileAll (by simpa using hw)⟩

end Compiler

/-! ## Captures -/

/-- The bodies that a call puts into the text without binding them. -/
inductive Free : Node → String → Prop
  | reference {call : Node} {body : String} (h : Reference call body) : Free call body
  | template {template body : String} (h : body ∈ Template.placeholders template) :
      Free (.call Call.sub (.text template)) body
  | merged {template body : String} {own : Table Node} (h : body ∈ Template.placeholders template)
      (hb : body ∉ Table.keys own) : Free (.call Call.sub (.list [.text template, .map own])) body

/-- The names that the substitutions of a tree bind. -/
def Binds (node : Node) (name : String) : Prop :=
  ∃ template own, .call Call.sub (.list [.text template, .map own]) ∈ node.calls ∧ name ∈ Table.keys own

namespace Compiler

/-- A fragment binds no other names than its substitutions do and its compiler makes up. -/
theorem binds_of_compile (c : Compiler) {node : Node} (hn : node.WellFormed) {text : String} {bindings : Table Node}
    (h : (c.compile node).1 = .bound text bindings) {name : String} (hm : name ∈ Table.keys bindings) :
    Binds node name ∨ ∃ n, c.issued < n ∧ name = nameOf n := by
  obtain ⟨splices, hmade, ha⟩ := c.accounts_of_compile hn
  have ha := ha text bindings h
  rw [ha.bindings, Table.ofList, ← Table.putAll, Table.mem_keys_putAll] at hm
  obtain ⟨e, he, rfl⟩ := List.mem_map.mp (hm.resolve_left (List.not_mem_nil))
  obtain ⟨s, hs, hes⟩ := List.mem_flatMap.mp he
  have hup : ∀ name ∈ s.made, ∃ n, c.issued < n ∧ name = nameOf n := fun _ hname =>
    hmade.exists_nameOf (List.mem_flatMap.mpr ⟨s, hs, hname⟩)
  obtain ⟨before, after, hsplit⟩ := List.append_of_mem hs
  have hcall : s.call ∈ node.calls := ha.calls ▸ List.mem_map_of_mem hs
  have hspliced := ha.spliced before s after hsplit
  generalize Table.ofList (before.flatMap Splice.bound) = t at hspliced
  cases hspliced with
  | inline => cases hes
  | whole =>
      obtain rfl := List.mem_singleton.mp hes
      exact Or.inr (hup _ (by simp))
  | @merged template own r made hr _ =>
      obtain ⟨old, hold, rfl⟩ := List.mem_map.mp hes
      cases hc : clashes t old with
      | true => exact Or.inr (hup _ (hr.names ▸ List.mem_map_of_mem (List.mem_filter.mpr ⟨hold, hc⟩)))
      | false =>
          rw [hr.kept old hold hc]
          exact Or.inl ⟨template, own, hcall, List.mem_map_of_mem hold⟩

/-- Where no free body is spelled like a name that a substitution binds or the compiler may make up, none is
captured. -/
theorem not_captured_of_compile (c : Compiler) {node : Node} (hn : node.WellFormed) {text : String}
    {bindings : Table Node} (h : (c.compile node).1 = .bound text bindings)
    (hown : ∀ call ∈ node.calls, ∀ body, Free call body → ¬ Binds node body)
    (hmade : ∀ call ∈ node.calls, ∀ body, Free call body → ∀ n, c.issued < n → body ≠ nameOf n) :
    ∀ call ∈ node.calls, ∀ body, Free call body → body ∉ Table.keys bindings := by
  intro call hcall body hfree hm
  rcases c.binds_of_compile hn h hm with hb | ⟨n, hlt, he⟩
  · exact hown call hcall body hfree hb
  · exact hmade call hcall body hfree n hlt he

/-- A reference beside a call that is bound whole. -/
def besideWhole (id : String) : Node :=
  .list [.refTo id, .call "Fn::Join" (.list [.text "-", .text "a"])]

theorem calls_besideWhole (id : String) :
    (besideWhole id).calls = [.refTo id, .call "Fn::Join" (.list [.text "-", .text "a"])] := rfl

theorem free_besideWhole {id body : String} {call : Node} (hc : call ∈ (besideWhole id).calls)
    (hf : Free call body) : body = id := by
  rw [calls_besideWhole, List.mem_pair] at hc
  rcases hc with rfl | rfl
  · generalize hcall : Node.refTo id = call at hf
    cases hf with
    | reference h => cases h <;> simp_all [Node.refTo, Node.call, Call.ref, Call.getAtt, Call.importValue]
    | template | merged => simp [Node.refTo, Node.call, Call.ref, Call.sub] at hcall
  · generalize hcall : Node.call "Fn::Join" (.list [.text "-", .text "a"]) = call at hf
    cases hf with
    | reference h => cases h <;> simp [Node.call, Call.ref, Call.getAtt, Call.importValue] at hcall
    | template | merged => simp [Node.call, Call.sub] at hcall

theorem not_captured_bucket :
    (besideWhole "Bucket").WellFormed ∧
      (({} : Compiler).compile (besideWhole "Bucket")).1 =
        .bound "[\"$\x7bBucket\x7d\",\"$\x7bparam1\x7d\"]"
          [("param1", .call "Fn::Join" (.list [.text "-", .text "a"]))] ∧
      Free (.refTo "Bucket") "Bucket" ∧
      ∀ call ∈ (besideWhole "Bucket").calls, ∀ body, Free call body →
        body ∉ Table.keys [("param1", Node.call "Fn::Join" (.list [.text "-", .text "a"]))] := by
  have hw : (besideWhole "Bucket").WellFormed := by
    simp [besideWhole, Node.call, Node.WellFormed, Node.EntriesWellFormed, Node.AllWellFormed, Table.Distinct,
      Table.keys, Node.refTo]
  have h : (({} : Compiler).compile (besideWhole "Bucket")).1 =
      .bound "[\"$\x7bBucket\x7d\",\"$\x7bparam1\x7d\"]"
        [("param1", .call "Fn::Join" (.list [.text "-", .text "a"]))] := by cbv
  refine ⟨hw, h, .reference (.ref _), not_captured_of_compile {} hw h ?_ ?_⟩
  · rintro call - body - ⟨template, own, hm, -⟩
    rw [calls_besideWhole, List.mem_pair] at hm
    rcases hm with hm | hm <;> simp [Node.refTo, Node.call, Call.ref, Call.sub] at hm
  · intro call hc body hf n _ he
    have hchars := congrArg String.toList (free_besideWhole hc hf ▸ he)
    rw [nameOf, Naming.toList_numbered] at hchars
    exact absurd (List.cons.inj hchars).1 (by decide)

/-- A reference to a name that the compiler makes up is captured. -/
theorem captured_param1 :
    (({} : Compiler).compile (besideWhole "param1")).1 =
        .bound "[\"$\x7bparam1\x7d\",\"$\x7bparam1\x7d\"]"
          [("param1", .call "Fn::Join" (.list [.text "-", .text "a"]))] ∧
      .refTo "param1" ∈ (besideWhole "param1").calls ∧ Free (.refTo "param1") "param1" ∧
      "param1" ∈ Table.keys [("param1", Node.call "Fn::Join" (.list [.text "-", .text "a"]))] :=
  ⟨by cbv, by simp [calls_besideWhole], .reference (.ref _), by simp [Table.keys]⟩

end Compiler
end Fragment
end Shorthand
