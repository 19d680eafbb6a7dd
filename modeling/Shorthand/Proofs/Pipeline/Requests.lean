import Shorthand.Proofs.Pipeline.Namespaces

/-!
# Namespaces asked for in any order

Actions declare namespaces or have them made, in any order and any number of times. A name that was given out once
is never given out again, not even to the action that had it and has another one now.
-/
namespace Shorthand.Pipeline.Namespaces

inductive Request
  | declare (context : String) (id : ActionId) (name : String)
  | ensure (id : ActionId) (stage action : String)

/-- The action that asks. -/
def Request.holder : Request → ActionId
  | declare _ id _ => id
  | ensure id _ _ => id

def inUse (context name : String) : Error := .malformed context s!"namespace '{name}' is already in use"

/-- The namespace that the action has from now on, if it is not refused one. -/
def serve (ns : Namespaces) : Request → Except Error String × Namespaces
  | .declare context id name =>
    match ns.declare context id name with
    | .ok ns' => (.ok name, ns')
    | .error e => (.error e, ns)
  | .ensure id stage action =>
    let (name, ns) := ns.ensure id stage action
    (.ok name, ns)

/-- Requests served one after another, each with its answer, and what there is at the end. -/
def serveAll : List Request → Namespaces → List (Request × Except Error String) × Namespaces
  | [], ns => ([], ns)
  | request :: requests, ns =>
    let (answer, ns) := ns.serve request
    let (answers, ns) := serveAll requests ns
    ((request, answer) :: answers, ns)

/-- What there is after some requests, from nothing. -/
def after (requests : List Request) : Namespaces := (serveAll requests {}).2

/-- The names that were given out, each with the action that got it. -/
def given (served : List (Request × Except Error String)) : List (ActionId × String) :=
  served.filterMap fun (request, answer) => answer.toOption.map (request.holder, ·)

/-- The names that some requests were given, from nothing. -/
def givenTo (requests : List Request) : List (ActionId × String) := given (serveAll requests {}).1

/-! ## One request -/

/-- All that a request can do. -/
inductive Serves (ns : Namespaces) : Request → Except Error String → Namespaces → Prop
  | refused {context name : String} {id : ActionId} (h : name ∈ ns.issued) :
      Serves ns (.declare context id name) (.error (inUse context name)) ns
  | declared {context name : String} {id : ActionId} (h : name ∉ ns.issued) :
      Serves ns (.declare context id name) (.ok name) (ns.assign id name)
  | kept {stage action name : String} {id : ActionId} (h : ns.get? id = some name) :
      Serves ns (.ensure id stage action) (.ok name) ns
  | made {stage action name : String} {id : ActionId} (h : ns.get? id = none) (hn : name ∉ ns.issued) :
      Serves ns (.ensure id stage action) (.ok name) (ns.assign id name)

theorem declare_of_mem {ns : Namespaces} {name : String} (h : name ∈ ns.issued) (context : String) (id : ActionId) :
    ns.declare context id name = .error (inUse context name) :=
  if_pos (List.contains_iff_mem.mpr h)

theorem declare_of_not_mem {ns : Namespaces} {name : String} (h : name ∉ ns.issued) (context : String)
    (id : ActionId) : ns.declare context id name = .ok (ns.assign id name) :=
  if_neg fun hc => h (List.contains_iff_mem.mp hc)

theorem ensure_of_get? {ns : Namespaces} {id : ActionId} {name : String} (h : ns.get? id = some name)
    (stage action : String) : ns.ensure id stage action = (name, ns) := by
  rw [ensure, h]

theorem serves_of_serve (ns : Namespaces) (request : Request) :
    ns.Serves request (ns.serve request).1 (ns.serve request).2 := by
  cases request with
  | declare context id name =>
      by_cases h : name ∈ ns.issued
      · rw [serve, declare_of_mem h]
        exact .refused h
      · rw [serve, declare_of_not_mem h]
        exact .declared h
  | ensure id stage action =>
      cases h : ns.get? id with
      | some name =>
          rw [serve, ensure_of_get? h]
          exact .kept h
      | none =>
          have he := ns.fresh_not_mem (derive stage action)
          rw [serve, ensure, h]
          exact .made h he

/-- The names given out so far are the issued ones, and no two actions have the same now. -/
structure Records (ns : Namespaces) (given : List (ActionId × String)) : Prop where
  sound : ns.Sound
  issued : ∀ name, name ∈ ns.issued ↔ ∃ holder, (holder, name) ∈ given

theorem records_nil : ({} : Namespaces).Records [] := by
  have hnone : ∀ {id name}, ({} : Namespaces).get? id ≠ some name := fun h => by cases h
  exact ⟨⟨fun h => absurd h hnone, fun h => absurd h hnone⟩, by simp⟩

theorem Records.assign {ns : Namespaces} {given : List (ActionId × String)} (h : ns.Records given) (id : ActionId)
    {name : String} (hn : name ∉ ns.issued) : (ns.assign id name).Records (given ++ [(id, name)]) := by
  refine ⟨h.sound.assign id hn, fun other => ?_⟩
  rw [Namespaces.assign, List.mem_append, h.issued]
  simp [exists_or]

theorem Serves.records {ns ns' : Namespaces} {request : Request} {answer : Except Error String}
    (hs : ns.Serves request answer ns') {before : List (ActionId × String)} (h : ns.Records before) :
    ns'.Records (before ++ given [(request, answer)]) := by
  cases hs with
  | refused => simpa [given, Except.toOption] using h
  | declared hn => exact h.assign _ hn
  | @kept _ _ name id hg =>
      refine ⟨h.sound, fun other => ?_⟩
      rw [h.issued]
      refine ⟨fun ⟨holder, hm⟩ => ⟨holder, List.mem_append_left _ hm⟩, fun ⟨holder, hm⟩ => ?_⟩
      rcases List.mem_append.mp hm with hm | hm
      · exact ⟨holder, hm⟩
      · -- the name that the action has was issued before
        obtain ⟨-, rfl⟩ := Prod.mk.inj (List.mem_singleton.mp hm)
        exact (h.issued _).mp (h.sound.issued hg)
  | made _ hn => exact h.assign _ hn

/-- An action keeps its namespace unless it declares another. -/
theorem Serves.get? {ns ns' : Namespaces} {request : Request} {answer : Except Error String}
    (hs : ns.Serves request answer ns') {id : ActionId} {name : String} (hg : ns.get? id = some name)
    (hd : ∀ context taken, (request, answer) ≠ (.declare context id taken, .ok taken)) :
    ns'.get? id = some name := by
  cases hs with
  | refused | kept => exact hg
  | @declared context taken other hn =>
      have hne : other ≠ id := by
        rintro rfl
        exact hd context taken rfl
      rwa [get?_assign_of_ne ns taken hne]
  | @made _ _ taken other hnone hn =>
      have hne : other ≠ id := by
        rintro rfl
        rw [hg] at hnone
        cases hnone
      rwa [get?_assign_of_ne ns taken hne]

/-! ## A series of requests -/

theorem given_append (served more : List (Request × Except Error String)) :
    given (served ++ more) = given served ++ given more := List.filterMap_append

theorem Records.serveAll {ns : Namespaces} {before : List (ActionId × String)} (h : ns.Records before)
    (requests : List Request) :
    (Namespaces.serveAll requests ns).2.Records (before ++ given (Namespaces.serveAll requests ns).1) := by
  induction requests generalizing ns before with
  | nil => simpa [Namespaces.serveAll, given] using h
  | cons request requests ih =>
      have hrest := ih ((ns.serves_of_serve request).records h)
      rwa [List.append_assoc, ← given_append] at hrest

theorem records_after (requests : List Request) : (after requests).Records (givenTo requests) :=
  records_nil.serveAll requests

theorem get?_of_serveAll {ns : Namespaces} {requests : List Request} {id : ActionId} {name : String}
    (hg : ns.get? id = some name)
    (hd : ∀ context taken, (Request.declare context id taken, .ok taken) ∉ (serveAll requests ns).1) :
    (serveAll requests ns).2.get? id = some name := by
  induction requests generalizing ns with
  | nil => exact hg
  | cons request requests ih =>
      refine ih ((ns.serves_of_serve request).get? hg fun context taken he => ?_) fun context taken hm => ?_
      · exact hd context taken (he ▸ List.mem_cons_self)
      · exact hd context taken (List.mem_cons_of_mem _ hm)

/-! ## Names of their own -/

/-- What holds once some requests were served: of the actions as they are, and of any request that comes next. -/
structure Unshared (past : List Request) : Prop where
  /-- No two actions have the same namespace. -/
  apart : ∀ {id id' name}, (after past).get? id = some name → (after past).get? id' = some name → id = id'
  /-- A namespace is refused just if it was given to some action before. -/
  refused_iff : ∀ context id name,
    (∃ e, (after past).declare context id name = .error e) ↔ ∃ holder, (holder, name) ∈ givenTo past
  /-- To refuse one changes nothing. -/
  refused : ∀ {context id name e}, (after past).declare context id name = .error e →
    (after past).serve (.declare context id name) = (.error (inUse context name), after past)
  declared : ∀ {context id name ns}, (after past).declare context id name = .ok ns →
    ns.get? id = some name ∧ ∀ other ≠ id, ns.get? other = (after past).get? other
  /-- The namespace that an action has is not made again. -/
  kept : ∀ {id name}, (after past).get? id = some name →
    ∀ stage action, (after past).ensure id stage action = (name, after past)
  /-- One that is made was never given to any action. -/
  made : ∀ {id}, (after past).get? id = none → ∀ {stage action name ns},
    (after past).ensure id stage action = (name, ns) →
      (∀ holder, (holder, name) ∉ givenTo past) ∧ ns.get? id = some name ∧
        ∀ other ≠ id, ns.get? other = (after past).get? other
  /-- Until the action declares another, it is answered with the same. -/
  lasting : ∀ {id stage action name ns}, (after past).ensure id stage action = (name, ns) →
    ∀ more, (∀ context taken, (.declare context id taken, .ok taken) ∉ (serveAll more ns).1) →
      ∀ stage' action', ((serveAll more ns).2.ensure id stage' action').1 = name
  /-- Whatever comes in between, no action can declare it any more. -/
  reserved : ∀ {id stage action name ns}, (after past).ensure id stage action = (name, ns) →
    ∀ more context other, (serveAll more ns).2.declare context other name = .error (inUse context name)

/-- Every namespace belongs to one action, whatever was asked for and in whatever order. -/
theorem unshared (past : List Request) : Unshared past := by
  have hr := records_after past
  have hserve {id stage action name ns} (he : (after past).ensure id stage action = (name, ns)) :
      (after past).Serves (.ensure id stage action) (.ok name) ns := by
    have hs := (after past).serves_of_serve (.ensure id stage action)
    rwa [serve, he] at hs
  have hget {id stage action name ns} (he : (after past).ensure id stage action = (name, ns)) :
      ns.get? id = some name := (grown_ensure he).2
  refine {
    apart := hr.sound.injective
    refused_iff := fun context id name => ?_
    refused := fun {context id name e} he => ?_
    declared := fun {context id name ns} hd => ?_
    kept := fun hg => ensure_of_get? hg
    made := fun {id} hnone {stage action name ns} he => ?_
    lasting := fun {id stage action name ns} he more hd stage' action' => ?_
    reserved := fun {id stage action name ns} he more context other => ?_ }
  · rw [← hr.issued]
    by_cases h : name ∈ (after past).issued
    · simp [declare_of_mem h, h]
    · simp [declare_of_not_mem h, h]
  · by_cases h : name ∈ (after past).issued
    · rw [serve, declare_of_mem h]
    · rw [declare_of_not_mem h] at he
      cases he
  · by_cases h : name ∈ (after past).issued
    · rw [declare_of_mem h] at hd
      cases hd
    · rw [declare_of_not_mem h] at hd
      obtain rfl := Except.ok.inj hd
      exact ⟨get?_assign_self _ _ _, fun other ho => get?_assign_of_ne _ name (Ne.symm ho)⟩
  · cases hserve he with
    | kept hg =>
        rw [hnone] at hg
        cases hg
    | made _ hn =>
        refine ⟨fun holder hm => hn ((hr.issued name).mpr ⟨holder, hm⟩), get?_assign_self _ _ _, fun other ho => ?_⟩
        exact get?_assign_of_ne _ name (Ne.symm ho)
  · rw [ensure_of_get? (get?_of_serveAll (hget he) hd)]
  · refine declare_of_mem ?_ context other
    rw [(((hserve he).records hr).serveAll more).issued]
    exact ⟨id, List.mem_append_left _ (List.mem_append_right _ List.mem_cons_self)⟩

/-- A stage and an action whose own name is declared by another action before, and made again for a third. -/
def collisions : List Request :=
  [.declare "test" ⟨0, 0⟩ "build-compile", .ensure ⟨1, 0⟩ "Build" "Compile", .ensure ⟨1, 1⟩ "build" "compile",
    .declare "test" ⟨1, 0⟩ "mine", .declare "test" ⟨0, 0⟩ "build-compile-2"]

/-- The second action has a name of its own at the end, and the one made for it before is refused to the first. -/
theorem unshared_collisions :
    givenTo collisions = [(⟨0, 0⟩, "build-compile"), (⟨1, 0⟩, "build-compile-2"), (⟨1, 1⟩, "build-compile-3"),
        (⟨1, 0⟩, "mine")] ∧
      (after collisions).get? ⟨1, 0⟩ = some "mine" ∧ Unshared collisions :=
  ⟨by decide +kernel, by decide +kernel, unshared collisions⟩

end Shorthand.Pipeline.Namespaces
