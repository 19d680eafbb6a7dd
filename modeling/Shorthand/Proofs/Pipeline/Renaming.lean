import Shorthand.Proofs.Pipeline.Emission
import Shorthand.Proofs.Pipeline.Namespaces
import Shorthand.Proofs.Pipeline.Occurrence

/-!
# Stage variables get the names that are emitted

An action's texts are rewritten while the namespaces of later actions are still to be made. What was written is
right all the same: no namespace changes once it is there, so that the names can be looked up in the end.
-/
namespace Shorthand.Pipeline
open StageVariable

/-! ## What an action mentions -/

/-- The texts of an action in which stage variables are looked for. -/
def Action.texts (a : Action) : List String :=
  Node.textsOfEntries a.configuration ++ a.overrides.elim [] Node.texts

/-- A variable occurs in a text of an action. -/
def Action.Mentions (a : Action) (v : StageVariable) : Prop := ∃ text ∈ a.texts, OccursIn v text

theorem Action.mem_variables_iff {a : Action} {v : StageVariable} : v ∈ a.variables ↔ a.Mentions v := by
  have hvars : a.variables = variablesIn a.texts := by
    rw [Action.variables, texts, variablesIn_append]
    cases a.overrides <;> rfl
  rw [hvars, variablesIn, List.mem_flatMap]
  exact exists_congr fun text => and_congr_right fun _ => mem_occurrences_iff

/-- An action's configuration with its variables renamed. Its own overrides are renamed before they become one
text, which takes the place of an entry of that name. -/
def Rewrites (N : StageVariable → String) (declared emitted : Action) : Prop :=
  match declared.overrides with
  | none => emitted.configuration = Node.mapTextsOfEntries (renameText N) declared.configuration
  | some overrides => ∃ compiler, emitted.configuration =
      Table.put (Node.mapTextsOfEntries (renameText N) declared.configuration) "ParameterOverrides"
        (LinkContext.compileOverrides compiler (overrides.mapTexts (renameText N))).1

/-! ## Linking -/

namespace LinkContext
variable {k : LinkContext}

/-- The names of variables are the namespaces of the actions that they name. -/
def Agrees (k : LinkContext) (N : StageVariable → String) (final : Namespaces) : Prop :=
  ∀ {v id name}, k.Reaches v.source id → final.get? id = some name → N v = name

theorem Agrees.answers {N : StageVariable → String} {final : Namespaces} (hN : k.Agrees N final) (context : String) :
    Answers (k.visit context) N fun s => s.namespaces.Kept final := by
  intro v s s' name h hkept
  obtain ⟨id, hr, hgrown, hget⟩ := grown_of_visit h
  exact ⟨(hN hr (hkept _ _ hget)).symm, hgrown.kept.trans hkept⟩

theorem renames_of_linkAction {action : Action} {namespaces namespaces' : Namespaces}
    {compiler compiler' : Fragment.Compiler} {linked : LinkedAction}
    (h : k.linkAction action namespaces compiler = .ok (linked, namespaces', compiler')) :
    namespaces.Grown (k.Asking action.variables) namespaces' ∧
      ∀ {N final}, k.Agrees N final → namespaces'.Kept final → Rewrites N action linked.action := by
  obtain ⟨after, _, h⟩ := Outcome.bind_eq_ok.mp h
  obtain ⟨configuration, hc, h⟩ := Outcome.bind_eq_ok.mp h
  have hrewritten : rewriteEntries (k.visit (placeName k.stageName action.name)) action.configuration
      ⟨after, namespaces⟩ = (.ok configuration, _) := Prod.ext hc rfl
  have hrun := (rewriteEntries_eq_ok _).mp ⟨_, hrewritten⟩
  split at h
  · rename_i ho
    obtain ⟨rfl, he⟩ := Prod.mk.inj (Except.ok.inj h)
    obtain ⟨rfl, -⟩ := Prod.mk.inj he
    have hv : action.variables = variablesIn (Node.textsOfEntries action.configuration) := by
      rw [Action.variables, ho, Option.elim_none, List.append_nil]
    refine ⟨hv ▸ grown_of_runs hrun, fun hN hkept => ?_⟩
    rw [Rewrites, ho]
    exact (rewriteEntries_renames (hN.answers _) _ hrewritten hkept).1
  · rename_i overrides ho
    obtain ⟨overrides', hov, h⟩ := Outcome.bind_eq_ok.mp h
    obtain ⟨rfl, he⟩ := Prod.mk.inj (Except.ok.inj h)
    obtain ⟨rfl, -⟩ := Prod.mk.inj he
    have hv : action.variables =
        variablesIn (Node.textsOfEntries action.configuration) ++ variablesIn overrides.texts := by
      rw [Action.variables, ho, Option.elim_some]
    have hrewritten₂ : rewriteNode (k.visit (placeName k.stageName action.name)) overrides _ =
        (.ok overrides', _) := Prod.ext hov rfl
    have hrun₂ := (rewriteNode_eq_ok overrides).mp ⟨_, hrewritten₂⟩
    refine ⟨hv ▸ grown_of_runs (runs_append.mpr ⟨_, hrun, hrun₂⟩), fun hN hkept => ?_⟩
    rw [Rewrites, ho]
    obtain ⟨rfl, hkept⟩ := rewriteNode_renames (hN.answers _) overrides hrewritten₂ hkept
    obtain ⟨rfl, -⟩ := rewriteEntries_renames (hN.answers _) _ hrewritten hkept
    exact ⟨compiler, rfl⟩

theorem renames_of_linkActions {actions : List Action} {namespaces namespaces' : Namespaces}
    {compiler compiler' : Fragment.Compiler} {linked : List LinkedAction}
    (h : k.linkActions actions namespaces compiler = .ok (linked, namespaces', compiler')) :
    namespaces.Grown (fun id => ∃ action ∈ actions, k.Asking action.variables id) namespaces' ∧
      ∀ {N final}, k.Agrees N final → namespaces'.Kept final →
        List.Forall₂ (fun action l => Rewrites N action l.action) actions linked := by
  induction actions generalizing namespaces namespaces' compiler compiler' linked with
  | nil =>
      obtain ⟨rfl, he⟩ := Prod.mk.inj (Except.ok.inj h)
      obtain ⟨rfl, -⟩ := Prod.mk.inj he
      exact ⟨.refl fun _ ⟨_, hm, _⟩ => List.not_mem_nil hm, fun _ _ => .nil⟩
  | cons action actions ih =>
      obtain ⟨⟨first, ns₁, c₁⟩, h₁, h⟩ := Outcome.bind_eq_ok.mp h
      obtain ⟨⟨more, ns₂, c₂⟩, h₂, h⟩ := Outcome.bind_eq_ok.mp h
      obtain ⟨rfl, he⟩ := Prod.mk.inj (Except.ok.inj h)
      obtain ⟨rfl, -⟩ := Prod.mk.inj he
      obtain ⟨hgrown₁, hall₁⟩ := renames_of_linkAction h₁
      obtain ⟨hgrown₂, hall₂⟩ := ih h₂
      refine ⟨(hgrown₁.trans hgrown₂).congr fun id => by rw [List.exists_mem_cons_iff], fun hN hkept => ?_⟩
      exact .cons (hall₁ hN (hgrown₂.kept.trans hkept)) (hall₂ hN hkept)

end LinkContext

namespace Registered

/-- Some action of these stages mentions a variable of this one. -/
def Asking (r : Registered) (declared : List (Stage × Nat)) (id : ActionId) : Prop :=
  ∃ d ∈ declared, ∃ action ∈ d.1.actions, (r.context d.2 d.1).Asking action.variables id

theorem renames_of_linkStages {r : Registered} {first : Nat} {stages : List Stage}
    {namespaces namespaces' : Namespaces} {compiler compiler' : Fragment.Compiler} {linked : List LinkedStage}
    (h : r.linkStages first stages namespaces compiler = .ok (linked, namespaces', compiler')) :
    namespaces.Grown (r.Asking (stages.zipIdx first)) namespaces' ∧
      ∀ {N final}, (∀ s stage, (r.context s stage).Agrees N final) → namespaces'.Kept final →
        List.Forall₂ (fun d l => List.Forall₂ (fun action l => Rewrites N action l.action) d.1.actions l.actions)
          (stages.zipIdx first) linked := by
  induction stages generalizing first namespaces namespaces' compiler compiler' linked with
  | nil =>
      obtain ⟨rfl, he⟩ := Prod.mk.inj (Except.ok.inj h)
      obtain ⟨rfl, -⟩ := Prod.mk.inj he
      exact ⟨.refl fun _ ⟨_, hm, _⟩ => List.not_mem_nil hm, fun _ _ => .nil⟩
  | cons stage stages ih =>
      obtain ⟨⟨actions, ns₁, c₁⟩, h₁, h⟩ := Outcome.bind_eq_ok.mp h
      obtain ⟨⟨more, ns₂, c₂⟩, h₂, h⟩ := Outcome.bind_eq_ok.mp h
      obtain ⟨rfl, he⟩ := Prod.mk.inj (Except.ok.inj h)
      obtain ⟨rfl, -⟩ := Prod.mk.inj he
      obtain ⟨hgrown₁, hall₁⟩ := LinkContext.renames_of_linkActions h₁
      obtain ⟨hgrown₂, hall₂⟩ := ih h₂
      refine ⟨(hgrown₁.trans hgrown₂).congr fun id => ?_, fun hN hkept => ?_⟩
      · rw [Asking, Asking, List.zipIdx_cons, List.exists_mem_cons_iff]
        rfl
      · exact .cons (hall₁ (hN first stage) (hgrown₂.kept.trans hkept)) (hall₂ hN hkept)

end Registered

/-! ## Emitted actions -/

/-- The action emitted for the one at this position. -/
def EmittedAt (made : List (List OrderedAction)) (id : ActionId) (a : OrderedAction) : Prop :=
  ∃ as, made[id.stage]? = some as ∧ as[id.index]? = some a

/-- The namespace that a variable's action has. -/
def nameOf (stages : List Stage) (final : Namespaces) (v : StageVariable) : String :=
  (((Table.get? (actionIndex stages) (v.stage, v.action)).bind final.get?)).getD ""

theorem agrees_nameOf (stages : List Stage) (final : Namespaces) (s : Nat) (stage : Stage) :
    ((registered stages).context s stage).Agrees (nameOf stages final) final := by
  intro v id name hr hg
  have hid : Table.get? (actionIndex stages) (v.stage, v.action) = some id := hr.get?
  rw [nameOf, hid, Option.bind_some, hg, Option.getD_some]

namespace Orders
variable {stages : List Stage} {l : Linked} {made : List (List OrderedAction)} {ordered : List OrderedStage}

theorem of_emittedAt (h : Orders stages l made ordered) {id : ActionId} {a : OrderedAction}
    (he : EmittedAt made id a) : a.namespaceName = l.namespaces.get? id ∧
      ∃ linked la, l.stages[id.stage]? = some linked ∧ linked.actions[id.index]? = some la ∧
        a.action = la.action := by
  obtain ⟨as, has, ha⟩ := he
  obtain ⟨⟨linked, s⟩, hz, orders, _, rfl⟩ := Outcome.exists_left h.assigns has
  rw [List.getElem?_zipIdx, Option.map_eq_some_iff] at hz
  obtain ⟨_, hs, he⟩ := hz
  obtain ⟨rfl, rfl⟩ := Prod.mk.inj he
  rw [Linked.assign, List.getElem?_map, List.getElem?_zipIdx, Option.map_map, Option.map_eq_some_iff] at ha
  obtain ⟨la, hla, rfl⟩ := ha
  refine ⟨?_, _, la, hs, hla, rfl⟩
  simp

theorem exists_emittedAt (h : Orders stages l made ordered) {id : ActionId} {stage : Stage} {action : Action}
    (hat : At stages id stage action) : ∃ a, EmittedAt made id a := by
  obtain ⟨linked, as, hlinks, _, has, orders, _, rfl⟩ := h.exists_assigns hat.hs
  obtain ⟨la, hla, _⟩ := Outcome.exists_right hlinks.actions hat.ha
  exact ⟨_, _, has, Linked.getElem?_assign hla⟩

/-- What linking did to every action at its place is seen in what is emitted. -/
theorem rewrites (h : Orders stages l made ordered) {N : StageVariable → String}
    (hr : List.Forall₂ (fun d l => List.Forall₂ (fun action la => Rewrites N action la.action) d.1.actions l.actions)
      stages.zipIdx l.stages) {id : ActionId} {stage : Stage} {action : Action} {a : OrderedAction}
    (hat : At stages id stage action) (he : EmittedAt made id a) : Rewrites N action a.action := by
  obtain ⟨_, linked, la, hs, hla, hact⟩ := h.of_emittedAt he
  obtain ⟨linked', hs', hactions⟩ := Outcome.exists_right hr (Outcome.getElem?_zipIdx_of hat.hs)
  obtain rfl := Option.some.inj (hs.symm.trans hs')
  obtain ⟨la', hla', hrewrite⟩ := Outcome.exists_right hactions hat.ha
  obtain rfl := Option.some.inj (hla.symm.trans hla')
  exact hact ▸ hrewrite

end Orders

/-- No two actions have the same names of stage and action. -/
def UniqueNames (stages : List Stage) : Prop :=
  ∀ {stageName actionName id id'}, Names stages stageName actionName id → Names stages stageName actionName id' →
    id = id'

/-- All stages that are read are so. -/
theorem uniqueNames_of_readAll {context : String} {compiler compiler' : Fragment.Compiler} {nodes : List Node}
    (hw : Node.AllWellFormed nodes) {stages : List Stage}
    (h : Stage.readAll context compiler nodes = .ok (stages, compiler')) : UniqueNames stages :=
  names_unique (Stage.distinctNames_of_readAll hw h)

/-- How the namespaces of emitted actions go with the variables in them. -/
structure Namespaced (stages : List Stage) (made : List (List OrderedAction)) (N : StageVariable → String) :
    Prop where
  /-- Each variable is renamed, and nothing else is changed. -/
  rewrites : ∀ {id stage action a}, At stages id stage action → EmittedAt made id a → Rewrites N action a.action
  /-- Its new name is the namespace of the one action that it names. -/
  names : ∀ {id stage action v}, At stages id stage action → action.Mentions v →
    ∃ target b, (∀ id', Names stages v.stage v.action id' ↔ id' = target) ∧ EmittedAt made target b ∧
      b.namespaceName = some (N v)
  /-- A namespace that an action asks for is its own. -/
  asked : ∀ {id stage action a name}, At stages id stage action → EmittedAt made id a →
    action.ownNamespace = some name → a.namespaceName = some name
  /-- Any other action has one if and only if some variable names it. -/
  needed : ∀ {id stage action a}, At stages id stage action → EmittedAt made id a → action.ownNamespace = none →
    (a.namespaceName ≠ none ↔ ∃ id' stage' action' v, At stages id' stage' action' ∧ action'.Mentions v ∧
      Names stages v.stage v.action id)
  /-- No two actions have the same. -/
  distinct : ∀ {id id' a a' name}, EmittedAt made id a → EmittedAt made id' a' → a.namespaceName = some name →
    a'.namespaceName = some name → id = id'

/-- Stages that are built are emitted with their variables renamed to the namespaces that are emitted. -/
theorem namespaced_of_build {stages : List Stage} (hu : UniqueNames stages) {compiler : Fragment.Compiler}
    {ordered : List OrderedStage} (h : build stages compiler = .ok ordered) :
    ∃ made N, Emits stages made ordered ∧ (∀ text, Renames N text (renameText N text)) ∧
      Namespaced stages made N := by
  obtain ⟨hg, ns, l, _, hns, hlinked, ho⟩ := linked_of_build h
  have hlinks : LinksTo stages l := Registered.links_of_linkStages hlinked
  obtain ⟨made, horders⟩ := exists_orders hg hlinks ho
  obtain ⟨hgrown, hrenames⟩ := Registered.renames_of_linkStages hlinked
  have hrewrites := hrenames (fun s stage => agrees_nameOf stages l.namespaces s stage) fun _ _ hg => hg
  have hsound := hgrown.sound (Registered.sound_of_declareNamespaces hns)
  -- what an action mentions, it reaches, and its names tell one action
  have hreaches : ∀ {id stage action v}, At stages id stage action → action.Mentions v →
      ∃ target, ((registered stages).context id.stage stage).Reaches v.source target := by
    intro id stage action v hat hm
    obtain ⟨_, _, hstage⟩ := hlinks.exists_linked hat.hs
    obtain ⟨_, _, hlink⟩ := Outcome.exists_right hstage.actions hat.ha
    exact hlink.resolved.read v (Action.mem_variables_iff.mpr hm)
  have hasking : ∀ id, (registered stages).Asking stages.zipIdx id ↔ ∃ id' stage action v,
      At stages id' stage action ∧ action.Mentions v ∧ Names stages v.stage v.action id := by
    intro id
    constructor
    · rintro ⟨⟨stage, s⟩, hz, action, ha, v, hv, hr⟩
      obtain ⟨i, hi⟩ := List.getElem?_of_mem ha
      exact ⟨⟨s, i⟩, stage, action, v, ⟨List.mk_mem_zipIdx_iff_getElem?.mp hz, hi⟩, Action.mem_variables_iff.mp hv,
        (Registered.names_of_reaches hr).1⟩
    · rintro ⟨id', stage, action, v, hat, hm, hn⟩
      obtain ⟨target, hr⟩ := hreaches hat hm
      obtain rfl := hu hn (Registered.names_of_reaches hr).1
      exact ⟨(stage, id'.stage), List.mk_mem_zipIdx_iff_getElem?.mpr hat.hs, action, List.mem_of_getElem? hat.ha, v,
        Action.mem_variables_iff.mpr hm, hr⟩
  refine ⟨made, nameOf stages l.namespaces, horders.emits, fun text => (renames_iff _).mpr rfl, ?_⟩
  refine ⟨fun hat he => horders.rewrites hrewrites hat he, fun hat hm => ?_, fun hat he hown => ?_,
    fun {id _ _ _} hat he hown => ?_, fun he he' hn hn' => ?_⟩
  · obtain ⟨target, hr⟩ := hreaches hat hm
    have hname : Names stages _ _ target := (Registered.names_of_reaches hr).1
    obtain ⟨_, _, htarget⟩ := hname.exists_at
    obtain ⟨b, hb⟩ := horders.exists_emittedAt htarget
    obtain ⟨name, hget⟩ := (hgrown.named target).mpr (.inr ((hasking target).mpr ⟨_, _, _, _, hat, hm, hname⟩))
    refine ⟨target, b, fun id' => ⟨fun hn => hu hn hname, fun he => he ▸ hname⟩, hb, ?_⟩
    rw [(horders.of_emittedAt hb).1, agrees_nameOf stages l.namespaces _ _ hr hget, hget]
  · rw [(horders.of_emittedAt he).1]
    refine hgrown.kept _ _ ((Registered.get?_of_declareNamespaces hns).mpr ⟨_, _, hat, ?_⟩)
    exact Option.mem_toList.mpr hown
  · have hnot : ¬ ns.Named id := by
      rintro ⟨name, hg⟩
      obtain ⟨_, _, hat', hasked⟩ := (Registered.get?_of_declareNamespaces hns).mp hg
      obtain ⟨rfl, rfl⟩ := hat.unique hat'
      rw [Registered.asked, hown] at hasked
      cases hasked
    rw [(horders.of_emittedAt he).1, Option.ne_none_iff_exists']
    exact (hgrown.named id).trans ((or_iff_right hnot).trans (hasking id))
  · rw [(horders.of_emittedAt he).1] at hn
    rw [(horders.of_emittedAt he').1] at hn'
    exact hsound.injective hn hn'

theorem namespaced_twoActions : ∃ made ordered, ∃ N : StageVariable → String, ∃ b,
    build twoActionsRead {} = .ok ordered ∧ Emits twoActionsRead made ordered ∧ EmittedAt made ⟨0, 1⟩ b ∧
      b.namespaceName = some (N ⟨"S", "A", "F"⟩) := by
  obtain ⟨ordered, hb⟩ : ∃ ordered, build twoActionsRead {} = .ok ordered :=
    Outcome.exists_of_isOk (by decide +kernel)
  have hw : Node.AllWellFormed twoActions := by
    simp [twoActions, Node.AllWellFormed, Node.WellFormed, Node.EntriesWellFormed, Table.Distinct, Table.keys]
  have hread : Stage.readAll "pipeline 'P'" {} twoActions = .ok (twoActionsRead, {}) := rfl
  have hu : UniqueNames twoActionsRead := uniqueNames_of_readAll hw hread
  obtain ⟨made, N, hemits, _, hnamed⟩ := namespaced_of_build hu hb
  have hat : At twoActionsRead ⟨0, 0⟩ ⟨"S", none, [buildAction, sourceAction], []⟩ buildAction := ⟨rfl, rfl⟩
  have hmentions : buildAction.Mentions ⟨"S", "A", "F"⟩ := by
    rw [← Action.mem_variables_iff]
    decide +kernel
  obtain ⟨target, b, hnames, hb', hname⟩ := hnamed.names hat hmentions
  have htarget : (⟨0, 1⟩ : ActionId) = target := (hnames ⟨0, 1⟩).mp ⟨_, sourceAction, ⟨rfl, rfl⟩, rfl, rfl⟩
  exact ⟨made, ordered, N, b, hb, hemits, htarget ▸ hb', hname⟩

end Shorthand.Pipeline
