import Shorthand.Fragment
import Shorthand.Proofs.Naming
import Shorthand.Proofs.Placeholder
import Shorthand.Proofs.Reference
import Shorthand.Proofs.WellFormed

/-!
# The calls of a fragment

A compiler takes in the calls of a tree one after another, each with the bindings that stand by then. What it
makes of one call is a splice: a text for the call, what it binds, and the names it makes up for that. The
walk through a tree is a run of splices, and its result is the tree with their texts filled in.
-/
namespace Shorthand

/-! ## Calls in a tree -/

namespace Node

/-- Whether a node is a call that is left to the pipeline service. -/
def isKept (node : Node) : Bool :=
  match node.call? with
  | some (name, _) => name == Call.getParam
  | none => false

mutual
/-- The calls of a tree in the order of the text. What stands inside a call does not count. -/
def sites : Node → List Node
  | map entries => if (call? (map entries)).isSome then [map entries] else sitesOfEntries entries
  | list items => sitesOfItems items
  | _ => []

def sitesOfItems : List Node → List Node
  | [] => []
  | item :: items => sites item ++ sitesOfItems items

def sitesOfEntries : List (String × Node) → List Node
  | [] => []
  | (_, value) :: entries => sites value ++ sitesOfEntries entries
end

/-- The calls that a fragment takes in: all but those left to the pipeline service. -/
def calls (node : Node) : List Node := node.sites.filter fun call => !call.isKept

theorem call?_eq_some {entries : List (String × Node)} {name : String} {arg : Node}
    (h : (map entries).call? = some (name, arg)) : entries = [(name, arg)] ∧ Call.isName name = true := by
  match entries with
  | [] | _ :: _ :: _ => cases h
  | [e] =>
      obtain ⟨he, hname⟩ := Option.filter_eq_some_iff.mp h
      obtain rfl := Option.some.inj he
      exact ⟨rfl, hname⟩

theorem call?_single (name : String) (arg : Node) :
    (map [(name, arg)]).call? = if Call.isName name then some (name, arg) else none := by
  simp [call?, single?, Option.filter]

theorem isKept_single {name : String} (arg : Node) (h : Call.isName name = true) :
    (map [(name, arg)]).isKept = (name == Call.getParam) := by
  rw [isKept, call?_single, if_pos h]

theorem sites_call {name : String} {arg : Node} (h : Call.isName name = true) :
    (call name arg).sites = [call name arg] := by
  rw [call, sites, call?_single, if_pos h]
  rfl

mutual
/-- The search for a call finds the same calls as the list of them. -/
theorem containsCall_iff (node : Node) : node.containsCall = true ↔ node.calls ≠ [] := by
  match node with
  | .map [] => simp [containsCall, anyEntryContainsCall, calls, sites, sitesOfEntries, call?, single?]
  | .map [(name, arg)] =>
      rw [containsCall, calls, sites, call?_single]
      cases hname : Call.isName name with
      | true => simp [isKept_single arg hname]
      | false => simpa [calls, sitesOfEntries] using containsCall_iff arg
  | .map (e :: e' :: entries) =>
      have hs : (map (e :: e' :: entries)).sites = sitesOfEntries (e :: e' :: entries) := by
        simp [sites, call?, single?]
      rw [containsCall, anyEntryContainsCall_iff (e :: e' :: entries), calls, hs]
      simp
  | .list items => rw [containsCall, anyContainsCall_iff items, calls, sites]
  | .text _ | .null | .bool _ | .number _ => simp [containsCall, calls, sites]

theorem anyContainsCall_iff (items : List Node) :
    anyContainsCall items = true ↔ (sitesOfItems items).filter (fun call => !call.isKept) ≠ [] := by
  match items with
  | [] => simp [anyContainsCall, sitesOfItems]
  | item :: items =>
      rw [anyContainsCall, Bool.or_eq_true, containsCall_iff item, anyContainsCall_iff items, sitesOfItems,
        List.filter_append, ne_eq, ne_eq, ne_eq, List.append_eq_nil_iff, not_and_or, calls]

theorem anyEntryContainsCall_iff (entries : List (String × Node)) :
    anyEntryContainsCall entries = true ↔
      (sitesOfEntries entries).filter (fun call => !call.isKept) ≠ [] := by
  match entries with
  | [] => simp [anyEntryContainsCall, sitesOfEntries]
  | (_, value) :: entries =>
      rw [anyEntryContainsCall, Bool.or_eq_true, containsCall_iff value, anyEntryContainsCall_iff entries,
        sitesOfEntries, List.filter_append, ne_eq, ne_eq, ne_eq, List.append_eq_nil_iff, not_and_or, calls]
end

end Node

namespace Fragment

def text : Fragment → String
  | plain text => text
  | spliced text => text
  | bound text _ => text

def bindings : Fragment → Table Node
  | bound _ bindings => bindings
  | _ => []

/-! ## What a splice may be -/

def hole (body : String) : String := "$\x7b" ++ body ++ "\x7d"

/-- The calls that refer to one thing, with the body of the placeholder that stands for them. -/
inductive Reference : Node → String → Prop
  | ref (id : String) : Reference (.call Call.ref (.text id)) id
  | getAtt (path : String) : Reference (.call Call.getAtt (.text path)) path
  | attributeOf (id attr : String) :
      Reference (.call Call.getAtt (.list [.text id, .text attr])) s!"{id}.{attr}"
  | importValue (exported : String) :
      Reference (.call Call.importValue (.text exported)) s!"Import:{exported}"

/-- The calls that go into the text whatever is bound so far, with what stands for them. -/
inductive Inline : Node → String → Prop
  | reference {call : Node} {body : String} (h : Reference call body) : Inline call (hole body)
  | template (template : String) : Inline (.call Call.sub (.text template)) template

theorem Inline.shape {name : String} {arg : Node} {text : String} (h : Inline (.call name arg) text) :
    (∃ s, arg = .text s) ∧ name ∈ [Call.ref, Call.getAtt, Call.sub, Call.importValue] ∨
      name = Call.getAtt ∧ ∃ id attr, arg = .list [.text id, .text attr] := by
  generalize hc : Node.call name arg = call at h
  cases h with
  | reference h =>
      cases h <;> obtain ⟨rfl, rfl⟩ := Node.call_inj hc <;> simp
  | template =>
      obtain ⟨rfl, rfl⟩ := Node.call_inj hc
      simp

theorem not_inline {name : String} {arg : Node} (hname : name ≠ Call.getAtt) (harg : ∀ s, arg ≠ .text s)
    (text : String) : ¬ Inline (.call name arg) text := by
  intro h
  rcases h.shape with ⟨⟨s, hs⟩, -⟩ | ⟨hget, -⟩
  · exact harg s hs
  · exact hname hget

/-- What is made of one call: the text that stands for it, what it binds, and the names made up for it. -/
structure Splice where
  call : Node
  text : String
  bound : Table Node
  made : List String

/-- Whether the name of an entry is bound, and to another value. -/
def clashes (t : Table Node) (e : String × Node) : Bool :=
  match Table.get? t e.1 with
  | some other => !other.same e.2
  | none => false

/-- New names for bindings: only those that clash get one, made up, and it is neither bound nor one of theirs. -/
structure Renaming (t own : Table Node) (r : String → String) (made : List String) : Prop where
  outside : ∀ name, name ∉ Table.keys own → r name = name
  injective : ∀ a ∈ Table.keys own, ∀ b ∈ Table.keys own, r a = r b → a = b
  kept : ∀ e ∈ own, clashes t e = false → r e.1 = e.1
  names : made = (own.filter (clashes t)).map fun e => r e.1
  free : ∀ name ∈ made, name ∉ Table.keys t ∧ name ∉ Table.keys own

/-- A splice that goes with what is bound by then. A call is bound whole if it has no other form: it is none
that goes in as it is, nor a template with bindings, unless these need new names that the template, not being
closed, cannot be given. -/
inductive Spliced (t : Table Node) : Splice → Prop
  | inline {call : Node} {text : String} (h : Inline call text) : Spliced t ⟨call, text, [], []⟩
  | merged {template : String} {own : Table Node} {r : String → String} {made : List String}
      (hr : Renaming t own r made) (hc : own.any (clashes t) = true → Template.isClosed template = true) :
      Spliced t ⟨.call Call.sub (.list [.text template, .map own]), Template.rename r template,
        own.map fun e => (r e.1, e.2), made⟩
  | whole {call : Node} {name : String} {dropped : List String} (hi : ∀ text, ¬ Inline call text)
      (hs : ∀ template own, call = .call Call.sub (.list [.text template, .map own]) →
        own.any (clashes t) = true ∧ Template.isClosed template = false)
      (hf : name ∉ Table.keys t) : Spliced t ⟨call, hole name, [(name, call)], dropped ++ [name]⟩

/-- Splices one after another, each with the bindings that the ones before it leave. -/
inductive Run : Table Node → List Splice → Table Node → Prop
  | nil (t : Table Node) : Run t [] t
  | cons {t t' : Table Node} {s : Splice} {ss : List Splice} (h : Spliced t s)
      (hs : Run (Table.putAll t s.bound) ss t') : Run t (s :: ss) t'

theorem Run.append {t t' t'' : Table Node} {ss ss' : List Splice} (h : Run t ss t') (h' : Run t' ss' t'') :
    Run t (ss ++ ss') t'' := by
  induction h with
  | nil => exact h'
  | cons hs _ ih => exact .cons hs (ih h')

mutual
/-- The tree with texts for its calls, in their order, and all other texts and the keys made literal. -/
inductive Filled : Node → List String → Node → Prop
  | call {name : String} {arg : Node} {text : String} (h : Call.isName name = true) (hk : name ≠ Call.getParam) :
      Filled (.call name arg) [text] (.text text)
  | kept {arg : Node} : Filled (.call Call.getParam arg) [] (.call Call.getParam arg)
  | map {entries filled : List (String × Node)} {texts : List String} (h : (Node.map entries).call? = none)
      (he : FilledEntries entries texts filled) : Filled (.map entries) texts (.map filled)
  | list {items filled : List Node} {texts : List String} (h : FilledItems items texts filled) :
      Filled (.list items) texts (.list filled)
  | text (s : String) : Filled (.text s) [] (.text (Template.escape s))
  | null : Filled .null [] .null
  | bool (b : Bool) : Filled (.bool b) [] (.bool b)
  | number (n : Number) : Filled (.number n) [] (.number n)

inductive FilledItems : List Node → List String → List Node → Prop
  | nil : FilledItems [] [] []
  | cons {item filled : Node} {items rest : List Node} {texts more : List String} (h : Filled item texts filled)
      (hs : FilledItems items more rest) : FilledItems (item :: items) (texts ++ more) (filled :: rest)

inductive FilledEntries : List (String × Node) → List String → List (String × Node) → Prop
  | nil : FilledEntries [] [] []
  | cons {key : String} {value filled : Node} {entries rest : List (String × Node)} {texts more : List String}
      (h : Filled value texts filled) (hs : FilledEntries entries more rest) :
      FilledEntries ((key, value) :: entries) (texts ++ more) ((Template.escape key, filled) :: rest)
end

/-! ## New names for names -/

/-- The new name that a table has for a name, or else the name itself. -/
def newName (news : Table String) (name : String) : String := (Table.get? news name).getD name

theorem newName_of_not_mem {news : Table String} {name : String} (h : name ∉ Table.keys news) :
    newName news name = name := by
  rw [newName, Table.get?_eq_none_iff.mpr h, Option.getD_none]

theorem values_eq_map_newName {news : Table String} (hd : Table.Distinct news) :
    Table.values news = (Table.keys news).map (newName news) := by
  rw [Table.values, Table.keys, List.map_map]
  refine List.map_congr_left fun e he => ?_
  rw [Function.comp, newName, hd.get?_of_mem he, Option.getD_some]

/-- A new name that is none of the names never meets one that is kept. -/
theorem newName_injOn {news : Table String} {names : List String} (hd : Table.Distinct news)
    (hn : (Table.values news).Nodup) (hfree : ∀ fresh ∈ Table.values news, fresh ∉ names) :
    ∀ a ∈ names, ∀ b ∈ names, newName news a = newName news b → a = b := by
  rw [values_eq_map_newName hd] at hn hfree
  intro a ha b hb hab
  by_cases hma : a ∈ Table.keys news
  · by_cases hmb : b ∈ Table.keys news
    · exact List.inj_on_of_nodup_map hn hma hmb hab
    · rw [newName_of_not_mem hmb] at hab
      exact absurd hb (hfree b (hab ▸ List.mem_map_of_mem hma))
  · rw [newName_of_not_mem hma] at hab
    by_cases hmb : b ∈ Table.keys news
    · exact absurd ha (hfree a (hab ▸ List.mem_map_of_mem hmb))
    · rwa [newName_of_not_mem hmb] at hab

/-! ## Names made up -/

/-- Names made up in this order, with numbers after the first bound and up to the second. -/
structure Numbered (m n : Nat) (names : List String) : Prop where
  le : m ≤ n
  numbers : ∃ ks : List Nat, names = ks.map Compiler.nameOf ∧ ks.Pairwise (· < ·) ∧ ∀ k ∈ ks, m < k ∧ k ≤ n

namespace Numbered

theorem nil (n : Nat) : Numbered n n [] := ⟨Nat.le_refl n, [], rfl, .nil, by simp⟩

theorem single {m n : Nat} (h : m < n) : Numbered m n [Compiler.nameOf n] :=
  ⟨Nat.le_of_lt h, [n], rfl, List.pairwise_singleton _ n, by simpa using h⟩

theorem append {l m n : Nat} {names more : List String} (h : Numbered l m names) (h' : Numbered m n more) :
    Numbered l n (names ++ more) := by
  obtain ⟨hlm, ks, rfl, hks, hk⟩ := h
  obtain ⟨hmn, ks', rfl, hks', hk'⟩ := h'
  refine ⟨Nat.le_trans hlm hmn, ks ++ ks', by rw [List.map_append], List.pairwise_append.mpr ⟨hks, hks', ?_⟩, ?_⟩
  · intro k hm k' hm'
    exact Nat.lt_of_le_of_lt (hk k hm).2 (hk' k' hm').1
  · intro k hm
    rcases List.mem_append.mp hm with hm | hm
    · exact ⟨(hk k hm).1, Nat.le_trans (hk k hm).2 hmn⟩
    · exact ⟨Nat.lt_of_le_of_lt hlm (hk' k hm).1, (hk' k hm).2⟩

theorem nodup {m n : Nat} {names : List String} (h : Numbered m n names) : names.Nodup := by
  obtain ⟨_, ks, rfl, hks, _⟩ := h
  exact (hks.imp Nat.ne_of_lt).map _ fun _ _ hne he => hne (Naming.numbered_injective "param" he)

theorem exists_nameOf {m n : Nat} {names : List String} (h : Numbered m n names) {name : String}
    (hm : name ∈ names) : ∃ k, m < k ∧ name = Compiler.nameOf k := by
  obtain ⟨_, ks, rfl, -, hk⟩ := h
  obtain ⟨k, hkm, rfl⟩ := List.mem_map.mp hm
  exact ⟨k, (hk k hkm).1, rfl⟩

end Numbered

namespace Compiler
variable {c : Compiler}

theorem freshName_spec (c : Compiler) (avoid : List String) :
    ∃ n, c.freshName avoid = (nameOf n, { c with issued := n }) ∧ c.issued < n ∧
      nameOf n ∉ Table.keys c.bindings ∧ nameOf n ∉ avoid := by
  refine ⟨Naming.free (Table.keys c.bindings ++ avoid) nameOf (c.issued + 1), rfl, Naming.le_free _ _ _, ?_⟩
  have hfree := Naming.free_not_mem (Naming.numbered_injective "param") (Table.keys c.bindings ++ avoid)
    (c.issued + 1)
  exact not_or.mp fun h => hfree (List.mem_append.mpr h)

theorem renamings_cons (c : Compiler) (avoid : List String) (e : String × Node)
    (entries : List (String × Node)) :
    c.renamings avoid (e :: entries) =
      if clashes c.bindings e then
        ((e.1, (c.freshName avoid).1) :: ((c.freshName avoid).2.renamings avoid entries).1,
          ((c.freshName avoid).2.renamings avoid entries).2)
      else c.renamings avoid entries := rfl

/-- Names are made up for the entries that clash, in their order, and nothing is bound yet. -/
theorem renamings_spec (c : Compiler) (avoid : List String) (entries : List (String × Node)) :
    (c.renamings avoid entries).2.bindings = c.bindings ∧
      Table.keys (c.renamings avoid entries).1 = Table.keys (entries.filter (clashes c.bindings)) ∧
      Numbered c.issued (c.renamings avoid entries).2.issued (Table.values (c.renamings avoid entries).1) ∧
      ∀ name ∈ Table.values (c.renamings avoid entries).1,
        name ∉ Table.keys c.bindings ∧ name ∉ avoid := by
  induction entries generalizing c with
  | nil => exact ⟨rfl, rfl, .nil _, by simp [renamings, Table.values]⟩
  | cons e entries ih =>
      rw [renamings_cons]
      cases he : clashes c.bindings e with
      | false =>
          rw [List.filter_cons_of_neg (by simp [he])]
          exact ih c
      | true =>
          obtain ⟨n, hf, hlt, hbound, havoid⟩ := c.freshName_spec avoid
          obtain ⟨hb, hk, hn, hfree⟩ := ih { c with issued := n }
          rw [List.filter_cons_of_pos he, hf]
          refine ⟨hb, ?_, (Numbered.single hlt).append hn, ?_⟩
          · exact congrArg (e.1 :: ·) hk
          · exact List.forall_mem_cons.mpr ⟨⟨hbound, havoid⟩, hfree⟩

/-- The names made up for bindings that clash. -/
def newNames (c : Compiler) (own : Table Node) : Table String := (c.renamings (Table.keys own) own).1

theorem renaming_newName (c : Compiler) {own : Table Node} (hd : Table.Distinct own) :
    Renaming c.bindings own (newName (c.newNames own)) (Table.values (c.newNames own)) := by
  obtain ⟨-, hk, hn, hfree⟩ := c.renamings_spec (Table.keys own) own
  rw [newNames]
  generalize (c.renamings (Table.keys own) own).1 = news at hk hn hfree
  have hclashing : Table.Distinct (own.filter (clashes c.bindings)) := hd.of_sublist List.filter_sublist
  have hdn : Table.Distinct news := by rwa [Table.Distinct, hk]
  have hkept : ∀ e ∈ own, clashes c.bindings e = false → e.1 ∉ Table.keys news := by
    intro e he hc hm
    obtain ⟨other, hother, hname⟩ := List.mem_map.mp (hk ▸ hm)
    obtain ⟨hown, hclash⟩ := List.mem_filter.mp hother
    rw [List.inj_on_of_nodup_map hd hown he hname, hc] at hclash
    cases hclash
  refine ⟨fun name hname => ?_, ?_, fun e he hc => newName_of_not_mem (hkept e he hc), ?_, hfree⟩
  · refine newName_of_not_mem fun hm => hname ?_
    exact (List.filter_sublist.map Prod.fst).subset (hk ▸ hm)
  · exact newName_injOn hdn hn.nodup fun fresh hm => (hfree fresh hm).2
  · rw [values_eq_map_newName hdn, hk, Table.keys, List.map_map]
    rfl

theorem foldl_bind_eq (c : Compiler) (entries : List (String × Node)) (rename : String → String) :
    entries.foldl (fun c (name, value) => c.bind (rename name) value) c =
      { c with bindings := Table.putAll c.bindings (entries.map fun e => (rename e.1, e.2)) } := by
  induction entries generalizing c with
  | nil => rfl
  | cons e entries ih => exact ih _

/-- A template is spliced with its bindings under their new names, unless it cannot be given them. -/
theorem merge_eq (c : Compiler) (template : String) (own : Table Node) (whole : Node) :
    c.merge template own whole =
      if own.any (clashes c.bindings) && !Template.isClosed template then
        (c.renamings (Table.keys own) own).2.bindWhole whole
      else
        (.text (Template.rename (newName (c.newNames own)) template),
          { (c.renamings (Table.keys own) own).2 with
            bindings := Table.putAll c.bindings (own.map fun e => (newName (c.newNames own) e.1, e.2)) }) := by
  obtain ⟨hb, hk, -, -⟩ := c.renamings_spec (Table.keys own) own
  have hbinds := foldl_bind_eq (c.renamings (Table.keys own) own).2 own (newName (c.newNames own))
  rw [hb] at hbinds
  unfold merge
  cases hany : own.any (clashes c.bindings) with
  | false =>
      have hnews : (c.renamings (Table.keys own) own).1 = [] := by
        have hf : own.filter (clashes c.bindings) = [] :=
          List.filter_eq_nil_iff.mpr fun e he => by simpa using List.any_eq_false.mp hany e he
        rw [hf] at hk
        exact List.map_eq_nil_iff.mp hk
      have hid : ∀ name, newName (c.newNames own) name = name := fun name => by rw [newNames, hnews]; rfl
      have hempty : (c.renamings (Table.keys own) own).1.isEmpty = true := by rw [hnews]; rfl
      rw [Template.rename_eq_self hid]
      simp only [hempty, ↓reduceIte, Bool.false_and, Bool.false_eq_true]
      exact congrArg _ hbinds
  | true =>
      have hnews : (c.renamings (Table.keys own) own).1.isEmpty = false := by
        obtain ⟨e, he, hc⟩ := List.any_eq_true.mp hany
        rw [List.isEmpty_eq_false_iff]
        intro hnil
        rw [hnil] at hk
        have := List.map_eq_nil_iff.mp hk.symm
        exact List.ne_nil_of_mem (List.mem_filter.mpr ⟨he, hc⟩) this
      simp only [hnews, Bool.false_eq_true, ↓reduceIte, Template.rewrite_of_total, Bool.true_and]
      cases Template.isClosed template with
      | false => rfl
      | true => exact congrArg _ hbinds

/-! ## The splices of a compiler -/

/-- A compiler makes a splice of a call: its text stands for the call, and what it binds is bound. -/
structure Gives (c : Compiler) (call : Node) (out : Node × Compiler) (s : Splice) : Prop where
  call : s.call = call
  text : out.1 = .text s.text
  spliced : Spliced c.bindings s
  bindings : out.2.bindings = Table.putAll c.bindings s.bound
  made : Numbered c.issued out.2.issued s.made

theorem gives_inline {call : Node} {text : String} (h : Inline call text) :
    ∃ s, Gives c call (.text text, c) s :=
  ⟨_, rfl, rfl, .inline h, rfl, .nil _⟩

/-- The names made up before a call is bound whole, for a renaming that came to nothing, are dropped. -/
theorem gives_bindWhole {c' : Compiler} {dropped : List String} {whole : Node} (hb : c'.bindings = c.bindings)
    (hd : Numbered c.issued c'.issued dropped) (hi : ∀ text, ¬ Inline whole text)
    (hs : ∀ template own, whole = .call Call.sub (.list [.text template, .map own]) →
      own.any (clashes c.bindings) = true ∧ Template.isClosed template = false) :
    ∃ s, Gives c whole (c'.bindWhole whole) s := by
  obtain ⟨n, hf, hlt, hbound, -⟩ := c'.freshName_spec []
  rw [bindWhole, hf]
  refine ⟨_, rfl, rfl, .whole hi hs (hb ▸ hbound), ?_, hd.append (.single hlt)⟩
  exact congrArg (Table.put · (nameOf n) whole) hb

theorem gives_merge {template : String} {own : Table Node} (hd : Table.Distinct own) :
    ∃ s, Gives c (.call Call.sub (.list [.text template, .map own]))
      (c.merge template own (.call Call.sub (.list [.text template, .map own]))) s := by
  obtain ⟨hb, -, hn, -⟩ := c.renamings_spec (Table.keys own) own
  rw [merge_eq]
  split
  · rename_i hc
    rw [Bool.and_eq_true, Bool.not_eq_true'] at hc
    have hi : ∀ text, ¬ Inline (.call Call.sub (.list [.text template, .map own])) text :=
      not_inline (by decide) fun _ h => nomatch h
    refine gives_bindWhole hb hn hi fun template' own' he => ?_
    obtain ⟨rfl, rfl⟩ : template = template' ∧ own = own' := by simpa using (Node.call_inj he).2
    exact hc
  · rename_i hc
    refine ⟨_, rfl, rfl, .merged (c.renaming_newName hd) fun hany => ?_, rfl, hn⟩
    simpa [hany] using hc

theorem gives_splice {name : String} {arg : Node} (ha : arg.WellFormed) (hk : name ≠ Call.getParam) :
    ∃ s, Gives c (.call name arg) (c.splice name arg (.call name arg)) s := by
  have hwhole : (∀ text, ¬ Inline (.call name arg) text) →
      (∀ template own, name = Call.sub → arg ≠ .list [.text template, .map own]) →
      ∃ s, Gives c (.call name arg) (c.bindWhole (.call name arg)) s := by
    intro hi hs
    refine gives_bindWhole rfl (.nil _) hi fun template own he => ?_
    obtain ⟨hname, harg⟩ := Node.call_inj he
    exact absurd harg (hs template own hname)
  unfold splice
  split
  · rename_i hname
    subst hname
    split
    · exact gives_inline (.reference (.ref _))
    · rename_i hno
      exact hwhole (not_inline (by decide) hno) fun _ _ h => absurd h (by decide)
  split
  · rename_i hname
    subst hname
    split
    · exact gives_inline (.reference (.getAtt _))
    · exact gives_inline (.reference (.attributeOf _ _))
    · rename_i hno hno'
      refine hwhole (fun text h => ?_) fun _ _ h => absurd h (by decide)
      rcases h.shape with ⟨⟨s, rfl⟩, -⟩ | ⟨-, id, attr, rfl⟩
      · exact hno s rfl
      · exact hno' id attr rfl
  split
  · rename_i hname
    subst hname
    split
    · exact gives_inline (.template _)
    · exact gives_merge (Node.wellFormed_list_iff.mp ha _ (by simp)).distinct
    · rename_i hno hno'
      exact hwhole (not_inline (by decide) hno) fun template own _ => hno' template own
  split
  · rename_i hname
    subst hname
    split
    · exact gives_inline (.reference (.importValue _))
    · rename_i hno
      exact hwhole (not_inline (by decide) hno) fun _ _ h => absurd h (by decide)
  · rename_i href hgetAtt hsub himport
    refine hwhole (fun text h => ?_) fun _ _ h => absurd h hsub
    rcases h.shape with ⟨-, h⟩ | ⟨h, -⟩
    · simp [href, hgetAtt, hsub, himport] at h
    · exact hgetAtt h

/-! ## The walk -/

/-- A compiler takes in calls: a run of splices, one for each, leads from the old bindings to the new. -/
structure Takes (c : Compiler) (calls : List Node) (splices : List Splice) (c' : Compiler) : Prop where
  calls : splices.map Splice.call = calls
  run : Run c.bindings splices c'.bindings
  made : Numbered c.issued c'.issued (splices.flatMap Splice.made)

theorem Takes.nil (c : Compiler) : Takes c [] [] c := ⟨rfl, .nil _, .nil _⟩

theorem Takes.append {c c' c'' : Compiler} {calls calls' : List Node} {splices splices' : List Splice}
    (h : Takes c calls splices c') (h' : Takes c' calls' splices' c'') :
    Takes c (calls ++ calls') (splices ++ splices') c'' := by
  refine ⟨?_, h.run.append h'.run, ?_⟩
  · rw [List.map_append, h.calls, h'.calls]
  · rw [List.flatMap_append]
    exact h.made.append h'.made

theorem Gives.takes {call : Node} {out : Node × Compiler} {s : Splice} (h : Gives c call out s) :
    Takes c [call] [s] out.2 := by
  refine ⟨by rw [List.map_singleton, h.call], .cons h.spliced ?_, ?_⟩
  · rw [h.bindings]
    exact .nil _
  · rw [List.flatMap_singleton]
    exact h.made

theorem walk_map (c : Compiler) (entries : List (String × Node)) :
    c.walk (.map entries) =
      match (Node.map entries).call? with
      | some (name, arg) => c.splice name arg (.map entries)
      | none => (.map (c.walkEntries entries).1, (c.walkEntries entries).2) := by
  match entries with
  | [] => rfl
  | [(name, arg)] =>
      rw [walk, Node.call?_single]
      split <;> rfl
  | e :: e' :: entries => rfl

mutual
/-- A walk takes in the calls of a tree, and fills the texts of their splices into it. -/
theorem walk_spec (c : Compiler) (node : Node) (hn : node.WellFormed) :
    ∃ splices, Takes c node.calls splices (c.walk node).2 ∧
      Filled node (splices.map Splice.text) (c.walk node).1 := by
  match node with
  | .map entries =>
      rw [walk_map, Node.calls, Node.sites]
      cases hc : (Node.map entries).call? with
      | some call =>
          obtain ⟨name, arg⟩ := call
          obtain ⟨rfl, hname⟩ := Node.call?_eq_some hc
          by_cases hk : name = Call.getParam
          · subst hk
            exact ⟨[], .nil c, .kept⟩
          · obtain ⟨s, hs⟩ := gives_splice (c := c) (Node.wellFormed_call_iff.mp hn) hk
            have hcalls : [Node.map [(name, arg)]].filter (fun call => !call.isKept) = [.map [(name, arg)]] := by
              simp [Node.isKept_single arg hname, hk]
            simp only [Option.isSome_some, ↓reduceIte, hcalls]
            refine ⟨[s], hs.takes, ?_⟩
            exact hs.text ▸ .call hname hk
      | none =>
          obtain ⟨splices, ht, hf⟩ := walkEntries_spec c entries (Node.wellFormed_map_iff.mp hn).2
          exact ⟨splices, ht, .map hc hf⟩
  | .list items =>
      obtain ⟨splices, ht, hf⟩ := walkItems_spec c items (Node.wellFormed_list_iff.mp hn)
      rw [walk]
      exact ⟨splices, ht, .list hf⟩
  | .text s => exact ⟨[], .nil c, .text s⟩
  | .null => exact ⟨[], .nil c, .null⟩
  | .bool b => exact ⟨[], .nil c, .bool b⟩
  | .number n => exact ⟨[], .nil c, .number n⟩

theorem walkItems_spec (c : Compiler) (items : List Node) (hi : ∀ item ∈ items, item.WellFormed) :
    ∃ splices, Takes c ((Node.sitesOfItems items).filter fun call => !call.isKept) splices
        (c.walkItems items).2 ∧
      FilledItems items (splices.map Splice.text) (c.walkItems items).1 := by
  match items with
  | [] => exact ⟨[], .nil c, .nil⟩
  | item :: items =>
      obtain ⟨hitem, hi⟩ := List.forall_mem_cons.mp hi
      obtain ⟨splices, ht, hf⟩ := walk_spec c item hitem
      obtain ⟨more, hts, hfs⟩ := walkItems_spec (c.walk item).2 items hi
      rw [walkItems, Node.sitesOfItems, List.filter_append]
      refine ⟨splices ++ more, ht.append hts, ?_⟩
      rw [List.map_append]
      exact .cons hf hfs

theorem walkEntries_spec (c : Compiler) (entries : List (String × Node)) (he : ∀ e ∈ entries, e.2.WellFormed) :
    ∃ splices, Takes c ((Node.sitesOfEntries entries).filter fun call => !call.isKept) splices
        (c.walkEntries entries).2 ∧
      FilledEntries entries (splices.map Splice.text) (c.walkEntries entries).1 := by
  match entries with
  | [] => exact ⟨[], .nil c, .nil⟩
  | (key, value) :: entries =>
      obtain ⟨hvalue, he⟩ := List.forall_mem_cons.mp he
      obtain ⟨splices, ht, hf⟩ := walk_spec c value hvalue
      obtain ⟨more, hts, hfs⟩ := walkEntries_spec (c.walk value).2 entries he
      rw [walkEntries, Node.sitesOfEntries, List.filter_append]
      refine ⟨splices ++ more, ht.append hts, ?_⟩
      rw [List.map_append]
      exact .cons hf hfs
end

theorem compile_plain (c : Compiler) {node : Node} (h : node.calls = []) :
    c.compile node = (.plain node.json, { c with bindings := [] }) := by
  have hc : ¬ node.containsCall = true := fun hc => node.containsCall_iff.mp hc h
  simp only [compile, if_neg hc]

theorem compile_spec (c : Compiler) {node : Node} (hn : node.WellFormed) (h : node.calls ≠ []) :
    ∃ splices tree c', Takes { c with bindings := [] } node.calls splices c' ∧
      Filled node (splices.map Splice.text) tree ∧ (c.compile node).1.text = tree.json ∧
      (c.compile node).1.bindings = c'.bindings ∧ (c.compile node).2 = { c' with bindings := [] } ∧
      ∀ text, (c.compile node).1 ≠ .plain text := by
  obtain ⟨splices, ht, hf⟩ := walk_spec { c with bindings := [] } node hn
  refine ⟨splices, _, _, ht, hf, ?_⟩
  simp only [compile, if_pos (node.containsCall_iff.mpr h)]
  cases (({ c with bindings := [] } : Compiler).walk node).2.bindings <;>
    exact ⟨rfl, rfl, trivial, fun _ h => nomatch h⟩

end Compiler
end Fragment
end Shorthand
