import Shorthand.Proofs.Naming
import Shorthand.Proofs.Pipeline.Linking

/-!
# Namespaces while actions are linked

A namespace that an action has stays with it, and no two actions have the same. Linking adds one for each action
that a variable names, where it has none yet.
-/
namespace Shorthand.Pipeline

namespace Namespaces

/-- An action has a namespace. -/
def Named (ns : Namespaces) (id : ActionId) : Prop := ∃ name, ns.get? id = some name

/-- No two actions have the same namespace, and all namespaces that actions have were issued. -/
structure Sound (ns : Namespaces) : Prop where
  injective : ∀ {id id' name}, ns.get? id = some name → ns.get? id' = some name → id = id'
  issued : ∀ {id name}, ns.get? id = some name → name ∈ ns.issued

/-- What every action has is kept. -/
def Kept (ns ns' : Namespaces) : Prop := ∀ id name, ns.get? id = some name → ns'.get? id = some name

theorem Kept.trans {a b c : Namespaces} (h : Kept a b) (h' : Kept b c) : Kept a c :=
  fun id name hg => h' id name (h id name hg)

theorem get?_assign_self (ns : Namespaces) (id : ActionId) (name : String) :
    (ns.assign id name).get? id = some name := Table.get?_put_self _ _ _

theorem get?_assign_of_ne (ns : Namespaces) {id other : ActionId} (name : String) (h : id ≠ other) :
    (ns.assign id name).get? other = ns.get? other := Table.get?_put_of_ne _ _ h

theorem Sound.assign {ns : Namespaces} (h : ns.Sound) (id : ActionId) {name : String} (hn : name ∉ ns.issued) :
    (ns.assign id name).Sound := by
  have hcases : ∀ {other taken}, (ns.assign id name).get? other = some taken →
      other = id ∧ taken = name ∨ other ≠ id ∧ ns.get? other = some taken := by
    intro other taken hg
    by_cases ho : other = id
    · rw [ho, get?_assign_self] at hg
      exact .inl ⟨ho, (Option.some.inj hg).symm⟩
    · rw [get?_assign_of_ne ns name (Ne.symm ho)] at hg
      exact .inr ⟨ho, hg⟩
  refine ⟨fun {a b taken} ha hb => ?_, fun hg => ?_⟩
  · rcases hcases ha with ⟨rfl, rfl⟩ | ⟨_, ha'⟩
    · rcases hcases hb with ⟨rfl, _⟩ | ⟨_, hb'⟩
      · rfl
      · exact absurd (h.issued hb') hn
    · rcases hcases hb with ⟨_, rfl⟩ | ⟨_, hb'⟩
      · exact absurd (h.issued ha') hn
      · exact h.injective ha' hb'
  · rcases hcases hg with ⟨_, rfl⟩ | ⟨_, hg⟩
    · exact List.mem_append_right _ List.mem_cons_self
    · exact List.mem_append_left _ (h.issued hg)

/-! ## Growing -/

/-- Namespaces were added, for these actions where they had none. -/
structure Grown (ns : Namespaces) (asking : ActionId → Prop) (ns' : Namespaces) : Prop where
  kept : Kept ns ns'
  sound : ns.Sound → ns'.Sound
  named : ∀ id, ns'.Named id ↔ ns.Named id ∨ asking id

namespace Grown
variable {a b c : Namespaces} {p q : ActionId → Prop}

theorem refl (h : ∀ id, ¬ p id) : Grown a p a :=
  ⟨fun _ _ hg => hg, fun hs => hs, fun id => ⟨.inl, fun ho => ho.elim (fun hn => hn) fun hp => absurd hp (h id)⟩⟩

theorem trans (h : Grown a p b) (h' : Grown b q c) : Grown a (fun id => p id ∨ q id) c :=
  ⟨h.kept.trans h'.kept, fun hs => h'.sound (h.sound hs), fun id => by rw [h'.named, h.named, or_assoc]⟩

theorem congr (h : Grown a p b) (hpq : ∀ id, p id ↔ q id) : Grown a q b :=
  ⟨h.kept, h.sound, fun id => by rw [h.named, hpq]⟩

end Grown

theorem fresh_not_mem (ns : Namespaces) (base : String) :
    Naming.hyphenated base (Naming.free ns.issued (Naming.hyphenated base) 1) ∉ ns.issued :=
  Naming.free_not_mem_of_injOn (Naming.hyphenated_injOn base) ns.issued

/-- An action gets a namespace that no other has, unless it has one already. -/
theorem grown_ensure {ns ns' : Namespaces} {id : ActionId} {stage action name : String}
    (h : ns.ensure id stage action = (name, ns')) : Grown ns (· = id) ns' ∧ ns'.get? id = some name := by
  rw [ensure] at h
  split at h
  · rename_i hg
    obtain ⟨rfl, rfl⟩ := Prod.mk.inj h
    refine ⟨⟨fun _ _ hk => hk, fun hs => hs, fun other => ⟨.inl, ?_⟩⟩, hg⟩
    rintro (hn | rfl)
    · exact hn
    · exact ⟨_, hg⟩
  · rename_i hg
    obtain ⟨rfl, rfl⟩ := Prod.mk.inj h
    refine ⟨⟨fun other taken hk => ?_, fun hs => hs.assign id (ns.fresh_not_mem _), fun other => ?_⟩,
      get?_assign_self _ _ _⟩
    · have hne : id ≠ other := by
        rintro rfl
        rw [hg] at hk
        cases hk
      rwa [get?_assign_of_ne _ _ hne]
    · by_cases ho : other = id
      · subst ho
        exact ⟨fun _ => .inr rfl, fun _ => ⟨_, get?_assign_self _ _ _⟩⟩
      · rw [Named, get?_assign_of_ne _ _ (Ne.symm ho)]
        exact ⟨.inl, fun hor => hor.resolve_right ho⟩

end Namespaces

/-! ## Reserved namespaces -/

namespace Registered

theorem get?_of_declareNamespaces {stages : List Stage} {ns : Namespaces} (h : declareNamespaces stages = .ok ns)
    {id : ActionId} {name : String} : ns.get? id = some name ↔ Claims asked stages id name := by
  have hmem : ∀ {id name}, (id, name) ∈ (claims asked 0 stages).map Prod.swap ↔ Claims asked stages id name := by
    intro id name
    rw [← mem_claims_zero, List.mem_map]
    constructor
    · rintro ⟨⟨x, i⟩, hm, he⟩
      obtain ⟨rfl, rfl⟩ := Prod.mk.inj he
      exact hm
    · exact fun hm => ⟨(name, id), hm, rfl⟩
  have hget : ∀ {id name}, ns.get? id = some name → Claims asked stages id name := by
    intro id name hg
    rw [Namespaces.get?, (issued_of_declareNamespaces h).assigned] at hg
    rcases Table.mem_of_mem_putAll (Table.mem_of_get? hg) with hm | hm
    · cases hm
    · exact hmem.mp hm
  refine ⟨hget, fun hc => ?_⟩
  have hk : id ∈ Table.keys ns.assigned := by
    rw [(issued_of_declareNamespaces h).assigned]
    exact Table.mem_keys_putAll.mpr (.inr (List.mem_map_of_mem (f := Prod.fst) (hmem.mpr hc)))
  obtain ⟨name', hg⟩ := Table.exists_get?_of_mem_keys hk
  -- an action asks for one namespace only
  obtain ⟨stage, action, hat, hname⟩ := hc
  obtain ⟨stage', action', hat', hname'⟩ := hget hg
  obtain ⟨rfl, rfl⟩ := hat.unique hat'
  rw [asked, Option.mem_toList] at hname hname'
  rw [Option.mem_unique hname hname']
  exact hg

theorem sound_of_declareNamespaces {stages : List Stage} {ns : Namespaces}
    (h : declareNamespaces stages = .ok ns) : ns.Sound := by
  have hissued := issued_of_declareNamespaces h
  have hn : (Table.keys (claims asked 0 stages)).Nodup := declareNamespaces_eq_ok.mp ⟨ns, h⟩
  refine ⟨fun hid hid' => ?_, fun hg => ?_⟩
  · exact claims_unique hn ((get?_of_declareNamespaces h).mp hid) ((get?_of_declareNamespaces h).mp hid')
  · rw [hissued.issued]
    exact List.mem_append_right _
      (List.mem_map_of_mem (f := Prod.fst) (mem_claims_zero.mpr ((get?_of_declareNamespaces h).mp hg)))

end Registered

/-! ## Linking -/

namespace LinkContext
variable {k : LinkContext}

/-- The actions that some variables name. -/
def Asking (k : LinkContext) (vs : List StageVariable) (id : ActionId) : Prop := ∃ v ∈ vs, k.Reaches v.source id

theorem grown_of_visit {context name : String} {v : StageVariable} {s s' : LinkState}
    (h : k.visit context v s = (.ok name, s')) :
    ∃ id, k.Reaches v.source id ∧ s.namespaces.Grown (· = id) s'.namespaces ∧
      s'.namespaces.get? id = some name := by
  rw [visit] at h
  split at h
  · cases h
  · rename_i id ht
    obtain ⟨hname, rfl⟩ := Prod.mk.inj h
    obtain rfl := Except.ok.inj hname
    exact ⟨id, target_eq_ok.mp ht, Namespaces.grown_ensure rfl⟩

theorem grown_of_runs {context : String} {vs : List StageVariable} {s s' : LinkState}
    (h : StageVariable.Runs (k.visit context) vs s s') : s.namespaces.Grown (k.Asking vs) s'.namespaces := by
  induction h with
  | nil s => exact .refl fun id ⟨_, hm, _⟩ => by cases hm
  | @cons v vs s s₁ s₂ name hv _ ih =>
      obtain ⟨target, hr, hgrown, _⟩ := grown_of_visit hv
      refine (hgrown.trans ih).congr fun id => ?_
      rw [Asking, Asking, List.exists_mem_cons_iff, hr.iff, eq_comm]

/-! ## What issuing keeps -/

section
variable {P : Namespaces → Prop} (hP : ∀ ns id stage action, P ns → P (ns.ensure id stage action).2)
include hP

theorem keeps_of_visit {context name : String} {v : StageVariable} {s s' : LinkState}
    (h : k.visit context v s = (.ok name, s')) (hs : P s.namespaces) : P s'.namespaces := by
  rw [visit] at h
  split at h
  · cases h
  · obtain ⟨-, rfl⟩ := Prod.mk.inj h
    exact hP _ _ _ _ hs

theorem keeps_of_runs {context : String} {vs : List StageVariable} {s s' : LinkState}
    (h : StageVariable.Runs (k.visit context) vs s s') (hs : P s.namespaces) : P s'.namespaces := by
  induction h with
  | nil s => exact hs
  | cons hv _ ih => exact ih (keeps_of_visit hP hv hs)

theorem keeps_of_linkAction {action : Action} {namespaces namespaces' : Namespaces}
    {compiler compiler' : Fragment.Compiler} {linked : LinkedAction}
    (h : k.linkAction action namespaces compiler = .ok (linked, namespaces', compiler')) (hn : P namespaces) :
    P namespaces' := by
  obtain ⟨after, _, h⟩ := Outcome.bind_eq_ok.mp h
  obtain ⟨configuration, hc, h⟩ := Outcome.bind_eq_ok.mp h
  have hrun := (StageVariable.rewriteEntries_eq_ok _).mp ⟨_, Prod.ext hc rfl⟩
  have hmid := keeps_of_runs hP hrun hn
  split at h
  · obtain ⟨-, he⟩ := Prod.mk.inj (Except.ok.inj h)
    exact (Prod.mk.inj he).1 ▸ hmid
  · rename_i overrides _
    obtain ⟨overrides', hov, h⟩ := Outcome.bind_eq_ok.mp h
    obtain ⟨-, he⟩ := Prod.mk.inj (Except.ok.inj h)
    have hrun₂ := (StageVariable.rewriteNode_eq_ok overrides).mp ⟨_, Prod.ext hov rfl⟩
    exact (Prod.mk.inj he).1 ▸ keeps_of_runs hP hrun₂ hmid

theorem keeps_of_linkActions {actions : List Action} {namespaces namespaces' : Namespaces}
    {compiler compiler' : Fragment.Compiler} {linked : List LinkedAction}
    (h : k.linkActions actions namespaces compiler = .ok (linked, namespaces', compiler')) (hn : P namespaces) :
    P namespaces' := by
  induction actions generalizing namespaces compiler linked with
  | nil =>
      obtain ⟨-, he⟩ := Prod.mk.inj (Except.ok.inj h)
      exact (Prod.mk.inj he).1 ▸ hn
  | cons action actions ih =>
      obtain ⟨⟨first, ns₁, c₁⟩, h₁, h⟩ := Outcome.bind_eq_ok.mp h
      obtain ⟨⟨more, ns₂, c₂⟩, h₂, h⟩ := Outcome.bind_eq_ok.mp h
      obtain ⟨-, he⟩ := Prod.mk.inj (Except.ok.inj h)
      obtain ⟨rfl, rfl⟩ := Prod.mk.inj he
      exact ih h₂ (keeps_of_linkAction hP h₁ hn)

end

end LinkContext

/-- What is kept whenever a namespace is made for an action is kept by all linking. -/
theorem Registered.keeps_of_linkStages {P : Namespaces → Prop}
    (hP : ∀ ns id stage action, P ns → P (ns.ensure id stage action).2) {r : Registered} {first : Nat}
    {stages : List Stage} {namespaces namespaces' : Namespaces} {compiler compiler' : Fragment.Compiler}
    {linked : List LinkedStage}
    (h : r.linkStages first stages namespaces compiler = .ok (linked, namespaces', compiler')) (hn : P namespaces) :
    P namespaces' := by
  induction stages generalizing first namespaces compiler linked with
  | nil =>
      obtain ⟨-, he⟩ := Prod.mk.inj (Except.ok.inj h)
      exact (Prod.mk.inj he).1 ▸ hn
  | cons stage stages ih =>
      obtain ⟨⟨actions, ns₁, c₁⟩, h₁, h⟩ := Outcome.bind_eq_ok.mp h
      obtain ⟨⟨more, ns₂, c₂⟩, h₂, h⟩ := Outcome.bind_eq_ok.mp h
      obtain ⟨-, he⟩ := Prod.mk.inj (Except.ok.inj h)
      obtain ⟨rfl, rfl⟩ := Prod.mk.inj he
      exact ih h₂ (LinkContext.keeps_of_linkActions hP h₁ hn)

namespace Namespaces

/-- All namespaces that actions have are so. -/
def Each (P : String → Prop) (ns : Namespaces) : Prop := ∀ id name, ns.get? id = some name → P name

theorem each_ensure {P : String → Prop} (hP : ∀ stage action n, P (Naming.hyphenated (derive stage action) n))
    (ns : Namespaces) (id : ActionId) (stage action : String) (h : ns.Each P) :
    (ns.ensure id stage action).2.Each P := by
  rw [ensure]
  split
  · exact h
  · intro other name hg
    by_cases ho : other = id
    · rw [ho, get?_assign_self] at hg
      exact Option.some.inj hg ▸ hP stage action _
    · rw [get?_assign_of_ne ns _ (Ne.symm ho)] at hg
      exact h other name hg

theorem hyphenated_derive_ne_empty (stage action : String) (n : Nat) :
    Naming.hyphenated (derive stage action) n ≠ "" := by
  have hbase : (derive stage action).toList ≠ [] := by simp [derive]
  have hchars : (Naming.hyphenated (derive stage action) n).toList ≠ [] := by
    rcases Nat.lt_or_ge 1 n with hn | hn
    · rw [Naming.toList_hyphenated _ hn]
      simp
    · rw [Naming.hyphenated, if_pos hn]
      exact hbase
  exact fun he => hchars (congrArg String.toList he)

theorem allowed_ne_colon (c : Char) : allowed c ≠ ':' := by
  unfold allowed
  split
  · rename_i h
    unfold Char.toLower
    split
    · rename_i hupper
      intro he
      have hval : c.val + ('a'.val - 'A'.val) = ':'.val := congrArg Char.val he
      have hc : c.val = ':'.val - ('a'.val - 'A'.val) := by rw [← hval, UInt32.add_sub_cancel]
      rw [hc] at hupper
      revert hupper
      decide
    · rintro rfl
      revert h
      decide
  · decide

theorem colon_not_mem_hyphenated_derive (stage action : String) (n : Nat) :
    ':' ∉ (Naming.hyphenated (derive stage action) n).toList := by
  have hbase : ':' ∉ (derive stage action).toList := by
    rw [derive, String.toList_ofList]
    intro hm
    obtain ⟨c, _, hc⟩ := List.mem_map.mp hm
    exact allowed_ne_colon c hc
  rcases Nat.lt_or_ge 1 n with hn | hn
  · rw [Naming.toList_hyphenated _ hn]
    intro hm
    rcases List.mem_append.mp hm with hm | hm
    · exact hbase hm
    · have hm := (List.mem_cons.mp hm).resolve_left (by decide)
      exact absurd (Nat.isDigit_of_mem_toDigits (by decide) (by decide) hm) (by decide)
  · rw [Naming.hyphenated, if_pos hn]
    exact hbase

end Namespaces

end Shorthand.Pipeline
