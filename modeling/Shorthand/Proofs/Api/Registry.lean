import Shorthand.Api.Registry
import Shorthand.Digest
import Shorthand.Proofs.Reference
import Shorthand.Proofs.Table

/-!
# The ids of one API

What the ids are made of, and that the parts of an API are only ever found under its registered ids.
-/
namespace Shorthand

/-! ## Letters and digits -/

/-- A text of letters and digits only; it may be empty. -/
def IsWord (s : String) : Prop := ∀ c ∈ s.toList, c.isAlphanum = true

instance (s : String) : Decidable (IsWord s) := List.decidableBAll _ _

theorem lt_of_isAlphanum {c : Char} (h : c.isAlphanum = true) : c.toNat < 128 := by
  have hle : c.val ≤ 'z'.val := by
    rcases Bool.or_eq_true_iff.mp h with halpha | hdigit
    · rcases Bool.or_eq_true_iff.mp halpha with hupper | hlower
      · exact UInt32.le_trans (of_decide_eq_true hupper).2 (by decide)
      · exact of_decide_eq_true (Bool.and_eq_true_iff.mp hlower).2
    · exact UInt32.le_trans (of_decide_eq_true (Bool.and_eq_true_iff.mp hdigit).2) (by decide)
  exact Nat.lt_of_le_of_lt (UInt32.le_iff_toNat_le.mp hle) (by decide)

theorem isAlphanum_toUpper {c : Char} (h : c.isAlphanum = true) : c.toUpper.isAlphanum = true := by
  have small : ∀ n < 128, (Char.ofNat n).isAlphanum = true → (Char.ofNat n).toUpper.isAlphanum = true := by
    decide
  have hc := small c.toNat (lt_of_isAlphanum h)
  rw [Char.ofNat_toNat] at hc
  exact hc h

theorem isWord_slug (text : String) : IsWord (slug text) := by
  intro c hc
  unfold slug at hc
  split at hc
  · simp at hc
  · rename_i d ds hf
    have hds : ∀ x ∈ d :: ds, x.isAlphanum = true := fun x hx => List.of_mem_filter (hf ▸ hx)
    rcases List.mem_cons.mp (String.toList_ofList ▸ hc) with rfl | hm
    · exact isAlphanum_toUpper (hds d List.mem_cons_self)
    · exact hds c (List.mem_cons_of_mem _ hm)

theorem isWord_append {a b : String} (ha : IsWord a) (hb : IsWord b) : IsWord (a ++ b) := by
  intro c hc
  rw [String.toList_append, List.mem_append] at hc
  exact hc.elim (ha c) (hb c)

theorem isWord_hex (text : String) : IsWord (Blake3.hex text) := by
  intro c hc
  simp only [Blake3.hex, String.toList_ofList, List.mem_flatMap, Blake3.hexByte, List.mem_cons,
    List.not_mem_nil, or_false] at hc
  have digit : ∀ n < 16, (Nat.digitChar n).isAlphanum = true := by decide
  obtain ⟨b, _, rfl | rfl⟩ := hc
  · have := b.toNat_lt
    exact digit _ (by omega)
  · exact digit _ (by omega)

theorem isWord_suffix (ds : List Definition) (length : Nat) : IsWord (Digest.suffix ds length) := by
  intro c hc
  rw [Digest.suffix, String.toList_ofList] at hc
  exact isWord_hex _ c (List.mem_of_mem_take hc)

theorem isId_of_isWord {s : String} (h : IsWord s) (hs : s ≠ "") : IsId s :=
  ⟨hs, fun c hc => by simp [isIdChar, h c hc]⟩

theorem IsId.append {id s : String} (h : IsId id) (hs : IsWord s) : IsId (id ++ s) := by
  refine ⟨fun he => h.1 (String.append_eq_empty_iff.mp he).1, fun c hc => ?_⟩
  rw [String.toList_append, List.mem_append] at hc
  rcases hc with hc | hc
  · exact h.2 c hc
  · simp [isIdChar, hs c hc]

theorem IsId.underscored {base : String} (h : IsId base) (n : Nat) : IsId (Naming.underscored base n) := by
  refine ⟨fun he => h.1 ?_, fun c hc => ?_⟩
  · have := congrArg String.toList he
    simp only [Naming.underscored, String.toList_ofList, String.toList_empty, List.append_eq_nil_iff] at this
    exact String.toList_eq_nil_iff.mp this.1
  · rw [Naming.underscored, String.toList_ofList, List.mem_append] at hc
    rcases hc with hc | hc
    · exact h.2 c hc
    · rw [List.eq_of_mem_replicate hc]
      rfl

/-! ## Attributes of references -/

theorem isAttribute_of_ending? {cs : List Char} {attr : Option (List Char)}
    (h : ApiReference.ending? cs = some attr) {a : String} (ha : attr.map String.ofList = some a) :
    IsAttribute a := by
  obtain ⟨as, rfl, rfl⟩ := Option.map_eq_some_iff.mp ha
  unfold ApiReference.ending? at h
  split at h
  · cases h
  · split at h
    · rename_i hall
      cases h
      simp only [Bool.and_eq_true, List.all_eq_true] at hall
      intro c hc
      rw [String.toList_ofList] at hc
      exact hall.2 c hc
    · cases h
  · cases h

theorem Target.Plain.withAttribute {t : Target} (h : t.Plain) {attr : Option String}
    (ha : ∀ a, attr = some a → IsAttribute a) : (t.withAttribute attr).Plain := by
  cases attr with
  | none => exact h
  | some a => exact ⟨h.id, fun b hb => Option.some.inj hb ▸ ha a rfl⟩

@[simp] theorem Target.id_withAttribute (t : Target) (attr : Option String) :
    (t.withAttribute attr).id = t.id := by
  cases attr <;> rfl

theorem ApiReference.isAttribute_of_parse {text : String} {ref : ApiReference} (h : parse text = .ok ref)
    {a : String} (ha : ref.attr = some a) : IsAttribute a := by
  unfold parse at h
  split at h
  · cases h
  · rename_i s hs
    obtain ⟨part, rfl⟩ : ∃ part, ref = ⟨String.ofList s.api, part, s.attr.map String.ofList⟩ := by
      split at h
      · exact ⟨_, (Except.ok.inj h).symm⟩
      · obtain ⟨part, _, he⟩ := Outcome.bind_eq_ok.mp h
        exact ⟨part, (Except.ok.inj he).symm⟩
    simp only [spelling?, Option.bind_eq_bind, Option.bind_eq_some_iff] at hs
    obtain ⟨cs, _, hs⟩ := hs
    split at hs
    · cases hs
    · split at hs
      · split at hs
        · cases hs
        · split at hs
          · obtain ⟨attr, hend, hs⟩ := Option.bind_eq_some_iff.mp hs
            obtain rfl := Option.some.inj hs
            exact isAttribute_of_ending? hend ha
          · obtain ⟨attr, hend, hs⟩ := Option.bind_eq_some_iff.mp hs
            obtain rfl := Option.some.inj hs
            exact isAttribute_of_ending? hend ha
      · obtain ⟨attr, hend, hs⟩ := Option.bind_eq_some_iff.mp hs
        obtain rfl := Option.some.inj hs
        exact isAttribute_of_ending? hend ha

theorem MatrixReference.isAttribute_of_parse {text : String} {ref : MatrixReference}
    (h : parse text = .ok ref) {a : String} (ha : ref.attr = some a) : IsAttribute a := by
  unfold parse at h
  split at h
  · cases h
  · rename_i s hs
    obtain ⟨selector, rfl⟩ :
        ∃ selector, ref = ⟨String.ofList s.matrix, selector, s.attr.map String.ofList⟩ := by
      split at h
      · exact ⟨_, (Except.ok.inj h).symm⟩
      · obtain ⟨selector, _, he⟩ := Outcome.bind_eq_ok.mp h
        exact ⟨selector, (Except.ok.inj he).symm⟩
    simp only [spelling?, Option.bind_eq_bind, Option.bind_eq_some_iff] at hs
    obtain ⟨cs, _, hs⟩ := hs
    split at hs
    · cases hs
    · split at hs
      · simp only [Option.bind_eq_some_iff] at hs
        obtain ⟨_, _, attr, hend, hs⟩ := hs
        obtain rfl := Option.some.inj hs
        exact isAttribute_of_ending? hend ha
      · obtain ⟨attr, hend, hs⟩ := Option.bind_eq_some_iff.mp hs
        obtain rfl := Option.some.inj hs
        exact isAttribute_of_ending? hend ha

/-! ## Registered ids -/

namespace Api.Registry

/-- The ids under which parts are registered, the container's first. -/
def ids (r : Registry) : List String :=
  r.api :: (r.authorizers.map (·.2.1) ++ r.models.map (·.2.1) ++ r.validators.map Prod.snd ++
    r.resources.map Prod.snd ++ r.methods.map Prod.snd ++ r.deployment.toList)

/-- The parts with their ids, the container first. -/
def parts (r : Registry) : List (ApiPart × String) :=
  (.container, r.api) :: (r.authorizers.map (fun e => (.authorizer e.1, e.2.1)) ++
    r.models.map (fun e => (.model e.1, e.2.1)) ++ r.validators.map (fun e => (.validator e.1, e.2)) ++
    r.resources.map (fun e => (.resource e.1, e.2)) ++ r.methods.map (fun e => (.method e.1.1 e.1.2, e.2)) ++
    r.deployment.toList.map (ApiPart.deployment, ·))

theorem ids_eq_map_parts (r : Registry) : r.ids = r.parts.map Prod.snd := by
  simp [ids, parts, Function.comp_def]

theorem mem_ids_of_parts {r r' : Registry} {part : ApiPart} {id x : String}
    (h : r'.parts.Perm (r.parts ++ [(part, id)])) : x ∈ r'.ids ↔ x ∈ r.ids ∨ x = id := by
  rw [ids_eq_map_parts, ids_eq_map_parts, (h.map Prod.snd).mem_iff]
  simp

theorem parts_deployment {r : Registry} {id : String} (hn : r.deployment = none) :
    (parts { r with deployment := some id }).Perm (r.parts ++ [(.deployment, id)]) := by
  simp [parts, hn]

theorem known_eq_ok {text reason : String} {id : Option String} {t : Target}
    (h : find.known text id reason = .ok t) : ∃ i, id = some i ∧ t = .resource i := by
  cases id with
  | none => cases h
  | some i => exact ⟨i, rfl, (Except.ok.inj h).symm⟩

theorem mem_map_of_get? {κ α : Type} [DecidableEq κ] {t : List (κ × α)} {key : κ} {value : α}
    (f : κ × α → String) (h : Table.get? t key = some value) : f (key, value) ∈ t.map f :=
  List.mem_map_of_mem (Table.mem_of_get? h)

theorem mem_ids_of_resource {r : Registry} {path : Path} {id : String}
    (h : Table.get? r.resources path = some id) : id ∈ r.ids := by
  have := mem_map_of_get? Prod.snd h
  simp only [ids, List.mem_cons, List.mem_append]
  tauto

/-- A part is found under a registered id; only the root path comes with an attribute of its own. -/
theorem find_spec {r : Registry} {text : String} {part : ApiPart} {t : Target}
    (h : r.find text part = .ok t) : t.id ∈ r.ids ∧ (t.attr = none ∨ t.attr = some rootAttribute) := by
  simp only [ids, List.mem_cons, List.mem_append]
  cases part with
  | container =>
      obtain rfl := Except.ok.inj h
      exact ⟨.inl rfl, .inl rfl⟩
  | authorizer name =>
      obtain ⟨i, hi, rfl⟩ := known_eq_ok h
      obtain ⟨e, he, rfl⟩ := Option.map_eq_some_iff.mp hi
      have := mem_map_of_get? (·.2.1) he
      exact ⟨by tauto, .inl rfl⟩
  | model name =>
      obtain ⟨i, hi, rfl⟩ := known_eq_ok h
      obtain ⟨e, he, rfl⟩ := Option.map_eq_some_iff.mp hi
      have := mem_map_of_get? (·.2.1) he
      exact ⟨by tauto, .inl rfl⟩
  | validator mode =>
      obtain ⟨i, hi, rfl⟩ := known_eq_ok h
      have := mem_map_of_get? Prod.snd hi
      exact ⟨by tauto, .inl rfl⟩
  | resource path =>
      rw [find] at h
      split at h
      · obtain rfl := Except.ok.inj h
        exact ⟨.inl rfl, .inr rfl⟩
      · obtain ⟨i, hi, rfl⟩ := known_eq_ok h
        have := mem_map_of_get? Prod.snd hi
        exact ⟨by tauto, .inl rfl⟩
  | method path verb =>
      obtain ⟨i, hi, rfl⟩ := known_eq_ok h
      have := mem_map_of_get? Prod.snd hi
      exact ⟨by tauto, .inl rfl⟩
  | deployment =>
      obtain ⟨i, hi, rfl⟩ := known_eq_ok h
      have := Option.mem_toList.mpr hi
      exact ⟨by tauto, .inl rfl⟩

end Api.Registry
end Shorthand
