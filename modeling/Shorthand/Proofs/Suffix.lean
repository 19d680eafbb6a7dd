import Shorthand.Proofs.Matrix.Session

/-!
# References with an attribute at their end

A reference that has no attribute of its own refers, with an attribute put at its end, to that attribute of the
same resource.
-/
namespace Shorthand

namespace Text

theorem splitFirst?_append_right {sep : Char} {cs before after : List Char}
    (h : splitFirst? sep cs = some (before, after)) (more : List Char) :
    splitFirst? sep (cs ++ more) = some (before, after ++ more) := by
  obtain ⟨rfl, hb⟩ := splitFirst?_eq_some h
  rw [List.append_assoc, List.cons_append, splitFirst?_append hb]

end Text

/-- The reference with an attribute at its end. -/
def suffixed (text a : String) : String := text ++ "." ++ a

theorem toList_suffixed (text a : String) : (suffixed text a).toList = text.toList ++ '.' :: a.toList := by
  simp [suffixed]

/-! ## Reading -/

namespace ApiReference

theorem ended {α : Type} {mk : Option (List Char) → α} {rest : List Char} {s : α}
    (h : ((ending? rest).bind fun attr => some (mk attr)) = some s) {attrOf : α → Option (List Char)}
    (hmk : ∀ attr, attrOf (mk attr) = attr) (ha : attrOf s = none) : rest = [] ∧ s = mk none := by
  obtain ⟨attr, hattr, he⟩ := Option.bind_eq_some_iff.mp h
  obtain rfl := Option.some.inj he
  obtain rfl : attr = none := (hmk attr).symm.trans ha
  exact ⟨(ending?_eq_some_iff.mp hattr).1, rfl⟩

theorem ending?_suffix {a : String} {attr : Option (List Char)} :
    ending? ('.' :: a.toList) = some attr ↔ attr = some a.toList ∧ a ≠ "" ∧ IsAttribute a := by
  rw [ending?_eq_some_iff]
  constructor
  · rintro ⟨hcs, hall⟩
    cases attr with
    | none => cases hcs
    | some as =>
        obtain rfl := (List.cons.inj hcs).2
        exact ⟨rfl, fun he => (hall _ rfl).1 (he ▸ rfl), (hall _ rfl).2⟩
  · rintro ⟨rfl, hne, hall⟩
    refine ⟨rfl, fun as has => ?_⟩
    obtain rfl := Option.some.inj has
    exact ⟨fun he => hne (String.toList_eq_nil_iff.mp he), hall⟩

/-- What a text may end with, put at the end of a reference without an attribute, is read as its attribute. -/
theorem spelling?_suffixed {text : String} {s : Spelling} (h : spelling? text = some s) (ha : s.attr = none)
    (a : String) :
    spelling? (suffixed text a) = (ending? ('.' :: a.toList)).map fun attr => { s with attr := attr } := by
  obtain ⟨cs, hcs, h⟩ := Option.bind_eq_some_iff.mp h
  rw [Text.after?_eq_some_iff] at hcs
  rw [spelling?, toList_suffixed, hcs, List.append_assoc, Text.after?_append, Option.bind_eq_bind,
    Option.bind_some, Option.map_eq_bind]
  simp only at h ⊢
  rw [Text.takeWhile_stop (by decide), Text.dropWhile_stop (by decide)]
  split at h
  · cases h
  · rename_i hapi
    rw [if_neg hapi]
    split at h
    · rename_i rest hrest
      rw [hrest]
      simp only [List.cons_append, Text.takeWhile_stop (p := Char.isAlpha) (c := '.') (by decide),
        Text.dropWhile_stop (p := Char.isAlpha) (c := '.') (by decide)]
      split at h
      · cases h
      · rename_i hkind
        rw [if_neg hkind]
        split at h
        · rename_i lookup hlookup
          obtain ⟨hnil, rfl⟩ := ended h (fun _ => rfl) ha
          rw [hlookup]
          simp only [List.cons_append, Text.takeWhile_stop (p := (· != '.')) (c := '.') (by decide),
            Text.dropWhile_stop (p := (· != '.')) (c := '.') (by decide), hnil]
          rfl
        · obtain ⟨hnil, rfl⟩ := ended h (fun _ => rfl) ha
          rw [hnil]
          rfl
    · obtain ⟨hnil, rfl⟩ := ended h (fun _ => rfl) ha
      rw [hnil]
      rfl

/-- The text is only needed to tell what is wrong with it. -/
theorem partOf_ok_of_ok {text other kind lookup : String} {part : ApiPart}
    (h : partOf text kind lookup = .ok part) : partOf other kind lookup = .ok part := by
  have hneeded {x : String} (hx : needed text lookup = .ok x) : needed other lookup = .ok x := by
    unfold needed at hx ⊢
    split at hx
    · cases hx
    · rename_i hne
      rw [if_neg hne, hx]
  unfold partOf at h ⊢
  split at h
  · obtain ⟨name, hname, rfl⟩ := Outcome.map_eq_ok.mp h
    rw [hneeded hname]
    rfl
  · obtain ⟨name, hname, rfl⟩ := Outcome.map_eq_ok.mp h
    rw [hneeded hname]
    rfl
  · obtain ⟨name, hname, h⟩ := Outcome.bind_eq_ok.mp h
    rw [hneeded hname, Outcome.ok_bind]
    split at h
    · exact h
    · cases h
  · exact h
  · simp only at h ⊢
    split at h
    · exact h
    · cases h
  · exact h
  · cases h

/-- How a reference is read from its spelling. -/
theorem parse_eq_ok {text : String} {ref : ApiReference} : parse text = .ok ref ↔
    ∃ s, spelling? text = some s ∧ ref.api = String.ofList s.api ∧ ref.attr = s.attr.map String.ofList ∧
      ∀ other, s.kind.elim (.ok .container)
        (fun kind => partOf other (String.ofList kind) (String.ofList (s.lookup.getD []))) = .ok ref.part := by
  constructor
  · intro h
    unfold parse at h
    split at h
    · cases h
    · rename_i s hs
      refine ⟨s, hs, ?_⟩
      cases hk : s.kind with
      | none =>
          simp only [hk] at h
          obtain rfl := Except.ok.inj h
          exact ⟨rfl, rfl, fun _ => rfl⟩
      | some kind =>
          simp only [hk] at h
          obtain ⟨part, hpart, h⟩ := Outcome.bind_eq_ok.mp h
          obtain rfl := Except.ok.inj h
          exact ⟨rfl, rfl, fun _ => partOf_ok_of_ok hpart⟩
  · rintro ⟨s, hs, hapi, hattr, hpart⟩
    obtain ⟨api, part, attr⟩ := ref
    have hpart := hpart text
    subst hapi hattr
    unfold parse
    simp only [hs]
    cases hk : s.kind with
    | none =>
        simp only [hk, Option.elim_none, Except.ok.injEq] at hpart
        simp only [Outcome.ok_bind, hpart]
    | some kind =>
        simp only [hk, Option.elim_some] at hpart
        simp only [hpart, Outcome.ok_bind]

/-- A reference without an attribute may be given one. -/
theorem parse_suffixed_eq_ok {text a : String} {ref ref' : ApiReference} (h : parse text = .ok ref)
    (ha : ref.attr = none) :
    parse (suffixed text a) = .ok ref' ↔ (a ≠ "" ∧ IsAttribute a) ∧ ref' = { ref with attr := some a } := by
  obtain ⟨s, hs, hapi, hattr, hpart⟩ := parse_eq_ok.mp h
  have hs' := spelling?_suffixed hs (Option.map_eq_none_iff.mp (hattr ▸ ha)) a
  constructor
  · intro h'
    obtain ⟨s', hsome, hapi', hattr', hpart'⟩ := parse_eq_ok.mp h'
    obtain ⟨attr, hending, rfl⟩ := Option.map_eq_some_iff.mp (hs'.symm.trans hsome)
    obtain ⟨rfl, hall⟩ := ending?_suffix.mp hending
    obtain ⟨api, part, _⟩ := ref
    obtain ⟨api', part', attr'⟩ := ref'
    obtain rfl : api' = api := hapi'.trans hapi.symm
    obtain rfl : part' = part := Except.ok.inj ((hpart' text).symm.trans (hpart text))
    exact ⟨hall, by simpa using hattr'⟩
  · rintro ⟨hall, rfl⟩
    rw [ending?_suffix.mpr ⟨rfl, hall⟩] at hs'
    exact parse_eq_ok.mpr ⟨_, hs', hapi, by simp, hpart⟩

end ApiReference

namespace MatrixReference

theorem spelling?_suffixed {text : String} {s : Spelling} (h : spelling? text = some s) (ha : s.attr = none)
    (a : String) :
    spelling? (suffixed text a) =
      (ApiReference.ending? ('.' :: a.toList)).map fun attr => { s with attr := attr } := by
  obtain ⟨cs, hcs, h⟩ := Option.bind_eq_some_iff.mp h
  rw [Text.after?_eq_some_iff] at hcs
  rw [spelling?, toList_suffixed, hcs, List.append_assoc, Text.after?_append, Option.bind_eq_bind,
    Option.bind_some, Option.map_eq_bind]
  simp only at h ⊢
  rw [Text.takeWhile_stop (by decide), Text.dropWhile_stop (by decide)]
  split at h
  · cases h
  · rename_i hmatrix
    rw [if_neg hmatrix]
    split at h
    · rename_i rest hrest
      rw [hrest]
      obtain ⟨⟨selector, ending⟩, hsplit, h⟩ := Option.bind_eq_some_iff.mp h
      obtain ⟨hnil, rfl⟩ := ApiReference.ended h (fun _ => rfl) ha
      obtain rfl : ending = [] := hnil
      simp only [List.cons_append, Text.splitFirst?_append_right hsplit, Option.bind_eq_bind, Option.bind_some,
        List.nil_append]
      rfl
    · obtain ⟨hnil, rfl⟩ := ApiReference.ended h (fun _ => rfl) ha
      rw [hnil]
      rfl

/-- The text is only needed to tell what is wrong with it. -/
theorem pairsOf_ok_of_ok {text other : String} {selector : List Char} {pairs : List (String × String)}
    (h : pairsOf text selector = .ok pairs) : pairsOf other selector = .ok pairs := by
  rw [pairsOf, Outcome.mapM_eq_ok] at h ⊢
  refine h.imp fun pair p hp => ?_
  unfold pairOf at hp ⊢
  split at hp
  · exact hp
  · cases hp

theorem parse_eq_ok {text : String} {ref : MatrixReference} : parse text = .ok ref ↔
    ∃ s, spelling? text = some s ∧ ref.matrix = String.ofList s.matrix ∧ ref.attr = s.attr.map String.ofList ∧
      ∀ other, s.selector.elim (.ok none) (fun selector => (pairsOf other selector).map some) =
        .ok ref.selector := by
  constructor
  · intro h
    unfold parse at h
    split at h
    · cases h
    · rename_i s hs
      refine ⟨s, hs, ?_⟩
      cases hk : s.selector with
      | none =>
          simp only [hk] at h
          obtain rfl := Except.ok.inj h
          exact ⟨rfl, rfl, fun _ => rfl⟩
      | some selector =>
          simp only [hk] at h
          obtain ⟨pairs, hpairs, h⟩ := Outcome.bind_eq_ok.mp h
          obtain rfl := Except.ok.inj h
          obtain ⟨pairs, hp, rfl⟩ := Outcome.map_eq_ok.mp hpairs
          refine ⟨rfl, rfl, fun _ => ?_⟩
          rw [Option.elim_some, pairsOf_ok_of_ok hp]
          rfl
  · rintro ⟨s, hs, hmatrix, hattr, hselector⟩
    obtain ⟨matrix, selector, attr⟩ := ref
    have hselector := hselector text
    subst hmatrix hattr
    unfold parse
    simp only [hs]
    cases hk : s.selector with
    | none =>
        simp only [hk, Option.elim_none, Except.ok.injEq] at hselector
        simp only [Outcome.ok_bind, hselector]
    | some _ =>
        simp only [hk, Option.elim_some] at hselector
        simp only [hselector, Outcome.ok_bind]

theorem parse_suffixed_eq_ok {text a : String} {ref ref' : MatrixReference} (h : parse text = .ok ref)
    (ha : ref.attr = none) :
    parse (suffixed text a) = .ok ref' ↔ (a ≠ "" ∧ IsAttribute a) ∧ ref' = { ref with attr := some a } := by
  obtain ⟨s, hs, hmatrix, hattr, hselector⟩ := parse_eq_ok.mp h
  have hs' := spelling?_suffixed hs (Option.map_eq_none_iff.mp (hattr ▸ ha)) a
  constructor
  · intro h'
    obtain ⟨s', hsome, hmatrix', hattr', hselector'⟩ := parse_eq_ok.mp h'
    obtain ⟨attr, hending, rfl⟩ := Option.map_eq_some_iff.mp (hs'.symm.trans hsome)
    obtain ⟨rfl, hall⟩ := ApiReference.ending?_suffix.mp hending
    obtain ⟨matrix, selector, _⟩ := ref
    obtain ⟨matrix', selector', attr'⟩ := ref'
    obtain rfl : matrix' = matrix := hmatrix'.trans hmatrix.symm
    obtain rfl : selector' = selector := Except.ok.inj ((hselector' text).symm.trans (hselector text))
    exact ⟨hall, by simpa using hattr'⟩
  · rintro ⟨hall, rfl⟩
    rw [ApiReference.ending?_suffix.mpr ⟨rfl, hall⟩] at hs'
    exact parse_eq_ok.mpr ⟨_, hs', hmatrix, by simp, hselector⟩

end MatrixReference

/-! ## Looking up -/

namespace Apis

theorem find_ok_of_ok {r : Api.Registry} {text other : String} {part : ApiPart} {t : Target}
    (h : r.find text part = .ok t) : r.find other part = .ok t := by
  have hknown {known : Option String} {reason : String} (h : Api.Registry.find.known text known reason = .ok t) :
      Api.Registry.find.known other known reason = .ok t := by
    obtain ⟨i, rfl, rfl⟩ := Api.Registry.known_eq_ok h
    rfl
  cases part with
  | container => exact h
  | resource path =>
      rw [Api.Registry.find] at h ⊢
      split at h
      · rename_i hroot
        rw [if_pos hroot, h]
      · rename_i hroot
        rw [if_neg hroot, hknown h]
  | authorizer | validator | model | method | deployment => exact hknown h

theorem lookup_eq_ok {apis : Apis} {text : String} {t : Target} : apis.lookup text = .ok t ↔
    ∃ ref r found, ApiReference.parse text = .ok ref ∧ Table.get? apis.table ref.api = some r ∧
      r.find text ref.part = .ok found ∧ t = found.withAttribute ref.attr := by
  constructor
  · intro h
    obtain ⟨ref, hr, h⟩ := Outcome.bind_eq_ok.mp h
    split at h
    · rename_i r hg
      obtain ⟨found, hf, ht⟩ := Outcome.bind_eq_ok.mp h
      exact ⟨ref, r, found, hr, hg, hf, (Except.ok.inj ht).symm⟩
    · cases h
  · rintro ⟨ref, r, found, hr, hg, hf, rfl⟩
    simp only [lookup, hr, Outcome.ok_bind, hg, Api.Registry.lookup, hf]

theorem lookup_suffixed_eq_ok {apis : Apis} {text a : String} {ref : ApiReference} {t' : Target}
    (hp : ApiReference.parse text = .ok ref) (ha : ref.attr = none) : apis.lookup (suffixed text a) = .ok t' ↔
      (a ≠ "" ∧ IsAttribute a) ∧ ∃ t, apis.lookup text = .ok t ∧ t' = ⟨t.id, some a⟩ := by
  constructor
  · intro h
    obtain ⟨ref', r, found, hp', hg, hf, rfl⟩ := lookup_eq_ok.mp h
    obtain ⟨hall, rfl⟩ := (ApiReference.parse_suffixed_eq_ok hp ha).mp hp'
    exact ⟨hall, found, lookup_eq_ok.mpr ⟨ref, r, found, hp, hg, find_ok_of_ok hf, by rw [ha]; rfl⟩, rfl⟩
  · rintro ⟨hall, t, ht, rfl⟩
    obtain ⟨ref₁, r, found, hp₁, hg, hf, rfl⟩ := lookup_eq_ok.mp ht
    obtain rfl := Except.ok.inj (hp.symm.trans hp₁)
    refine lookup_eq_ok.mpr ⟨_, r, found, (ApiReference.parse_suffixed_eq_ok hp ha).mpr ⟨hall, rfl⟩, hg,
      find_ok_of_ok hf, ?_⟩
    rw [Target.id_withAttribute]
    rfl

end Apis

namespace Matrices

theorem select_ok_of_ok {m : Matrix} {text other : String} {pairs : List (String × String)} {entry : MatrixEntry}
    (h : m.select text pairs = .ok entry) : m.select other pairs = .ok entry := by
  rw [Matrix.select_eq_ok] at h ⊢
  obtain ⟨hc, keys, hk, hf⟩ := h
  refine ⟨Matrix.checkPairs_eq_ok.mpr (Matrix.checkPairs_eq_ok.mp hc), keys, hk.imp fun d key hd => ?_, hf⟩
  exact Matrix.chosenKey_eq_ok.mpr (Matrix.chosenKey_eq_ok.mp hd)

theorem lookup_suffixed_eq_ok {ms : Matrices} {text a : String} {ref : MatrixReference} {t' : Target}
    (hp : MatrixReference.parse text = .ok ref) (ha : ref.attr = none) : ms.lookup (suffixed text a) = .ok t' ↔
      (a ≠ "" ∧ IsAttribute a) ∧ ∃ t, ms.lookup text = .ok t ∧ t' = ⟨t.id, some a⟩ := by
  constructor
  · intro h
    obtain ⟨ref', m, pairs, entry, hp', hg, hs, hf, rfl⟩ := lookup_eq_ok.mp h
    obtain ⟨hall, rfl⟩ := (MatrixReference.parse_suffixed_eq_ok hp ha).mp hp'
    exact ⟨hall, .resource entry.id,
      lookup_eq_ok.mpr ⟨ref, m, pairs, entry, hp, hg, hs, select_ok_of_ok hf, by rw [ha]; rfl⟩, rfl⟩
  · rintro ⟨hall, t, ht, rfl⟩
    obtain ⟨ref₁, m, pairs, entry, hp₁, hg, hs, hf, rfl⟩ := lookup_eq_ok.mp ht
    obtain rfl := Except.ok.inj (hp.symm.trans hp₁)
    refine lookup_eq_ok.mpr ⟨_, m, pairs, entry, (MatrixReference.parse_suffixed_eq_ok hp ha).mpr ⟨hall, rfl⟩, hg,
      hs, select_ok_of_ok hf, ?_⟩
    rw [Target.id_withAttribute]
    rfl

end Matrices
end Shorthand
