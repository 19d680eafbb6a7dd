import Shorthand.Proofs.Fragment.Live

/-!
# Rewriting the text of a fragment

The text of a fragment is joined from what stands for its calls and from literal stretches. To rewrite it comes
to the same as to rewrite what stands for each call on its own, where the stretches are closed and their live
holes are written into the text as they are.
-/
namespace Shorthand

namespace Template

/-! ## Rewriting characters -/

section
variable {σ : Type} {visit : String → σ → Except Error (Option String) × σ}

/-- The template is only needed to tell what is wrong with it. -/
theorem rewritePieces_ok_of_ok {template other : String} {ps : List Piece} {s s' : σ} {out : List Char}
    (h : rewritePieces template visit ps s = (.ok out, s')) : rewritePieces other visit ps s = (.ok out, s') := by
  induction ps generalizing s s' out with
  | nil => simpa [rewritePieces] using h
  | cons p ps ih =>
      cases p with
      | plain cs =>
          obtain ⟨rest, hr, hout⟩ := rewritePieces_plain_eq_ok.mp h
          exact rewritePieces_plain_eq_ok.mpr ⟨rest, ih hr, hout⟩
      | hole body =>
          obtain ⟨answer, s₁, rest, ha, hr, rfl⟩ := rewritePieces_hole h
          simp only [rewritePieces, ha, ih hr]
      | unclosed body => simp [rewritePieces] at h

theorem rewritePieces_addPlain_eq_ok {template : String} {c : Char} {ps : List Piece} {s s' : σ} {out : List Char}
    (h : rewritePieces template visit (addPlain c ps) s = (.ok out, s')) :
    ∃ rest, rewritePieces template visit ps s = (.ok rest, s') ∧ c :: rest = out := by
  rwa [rewritePieces_addPlain, Outcome.map_fst_eq_ok] at h

end

variable {new? : String → Except Error (Option String)}

/-- The rewriting of a text by its characters. -/
def rewriteChars (new? : String → Except Error (Option String)) (cs : List Char) : Except Error (List Char) :=
  (rewritePieces "" (fun body (_ : Unit) => (new? body, ())) (pieces cs) ()).1

theorem rewriteChars_eq_ok {cs out : List Char} : rewriteChars new? cs = .ok out ↔
    rewritePieces "" (fun body (_ : Unit) => (new? body, ())) (pieces cs) () = (.ok out, ()) :=
  ⟨fun h => Prod.ext h rfl, fun h => (Prod.ext_iff.mp h).1⟩

theorem rewrite_eq_ok {template out : String} :
    rewrite new? template = .ok out ↔ rewriteChars new? template.toList = .ok out.toList := by
  rw [rewriteChars_eq_ok, rewrite, rewriteWith]
  constructor
  · intro h
    split at h
    · rename_i cs s hr
      obtain rfl := Except.ok.inj h
      rw [String.toList_ofList]
      exact rewritePieces_ok_of_ok hr
    · cases h
  · intro h
    rw [rewritePieces_ok_of_ok h]
    simp only [String.ofList_toList]

theorem rewriteChars_nil : rewriteChars new? [] = .ok [] := rfl

theorem rewriteChars_cons {c : Char} {cs out : List Char} (h : ¬(c = '$' ∧ cs.head? = some '{'))
    (hr : rewriteChars new? cs = .ok out) : rewriteChars new? (c :: cs) = .ok (c :: out) := by
  rw [rewriteChars_eq_ok] at hr ⊢
  rw [pieces_cons h, rewritePieces_addPlain, hr]
  rfl

theorem rewriteChars_hole {body cs out : List Char} (hb : '}' ∉ body) (hl : Piece.isLiteral body = false)
    {answer : Option String} (ha : new? (String.ofList body) = .ok answer)
    (hr : rewriteChars new? cs = .ok out) :
    rewriteChars new? ('$' :: '{' :: (body ++ '}' :: cs)) =
      .ok ((Piece.hole (answer.elim body String.toList)).chars ++ out) := by
  rw [rewriteChars_eq_ok] at hr ⊢
  simp [pieces_opening, bodyPieces_closed hb, rewritePieces, hl, ha, hr]

theorem rewriteChars_literal {body cs out : List Char} (hb : '}' ∉ body)
    (hr : rewriteChars new? cs = .ok out) :
    rewriteChars new? ('$' :: '{' :: '!' :: (body ++ '}' :: cs)) =
      .ok ('$' :: '{' :: '!' :: (body ++ '}' :: out)) := by
  have hbody : '}' ∉ '!' :: body := by simpa using hb
  rw [rewriteChars_eq_ok] at hr ⊢
  rw [pieces_opening, ← List.cons_append, bodyPieces_closed hbody]
  simp [rewritePieces, Piece.isLiteral, Piece.chars, hr]

/-! ## Stretches of a text -/

/-- A stretch of text becomes another, whatever follows it. -/
def Turns (new? : String → Except Error (Option String)) (u v : List Char) : Prop :=
  ∀ rest out, rewriteChars new? rest = .ok out → rewriteChars new? (u ++ rest) = .ok (v ++ out)

namespace Turns
variable {u v u' v' : List Char}

theorem rewriteChars (h : Turns new? u v) : rewriteChars new? u = .ok v := by
  simpa using h [] [] rewriteChars_nil

theorem append (h : Turns new? u v) (h' : Turns new? u' v') : Turns new? (u ++ u') (v ++ v') := by
  intro rest out hr
  rw [List.append_assoc, List.append_assoc]
  exact h _ _ (h' rest out hr)

theorem nil : Turns new? [] [] := fun _ _ hr => hr

theorem single {c : Char} (hc : c ≠ '$') : Turns new? [c] [c] :=
  fun _ _ hr => rewriteChars_cons (fun h => hc h.1) hr

theorem of_not_mem (h : '$' ∉ u) : Turns new? u u := by
  induction u with
  | nil => exact .nil
  | cons c u ih =>
      simp only [List.mem_cons, not_or] at h
      exact (single (Ne.symm h.1)).append (ih h.2)

/-- A dollar that opens no hole. -/
theorem dollar (h : Turns new? u v) (hu : ∀ rest, (u ++ rest).head? ≠ some '{') :
    Turns new? ('$' :: u) ('$' :: v) :=
  fun rest out hr => rewriteChars_cons (fun hc => hu rest hc.2) (h rest out hr)

theorem brackets {l r : Char} (hl : l ≠ '$') (hr : r ≠ '$') (h : Turns new? u v) :
    Turns new? (l :: (u ++ [r])) (l :: (v ++ [r])) :=
  (single hl).append (h.append (single hr))

end Turns

/-- All new bodies are written into a text as they are. -/
def CleanAnswers (new? : String → Except Error (Option String)) : Prop :=
  ∀ {body new : String}, new? body = .ok (some new) → ∀ c ∈ new.toList, isClean c = true

theorem turns_pieces (hn : CleanAnswers new?) {ps : List Piece} (h : Scanned ps) (hs : ps.all isSafe = true)
    {out : List Char}
    (hr : rewritePieces "" (fun body (_ : Unit) => (new? body, ())) ps () = (.ok out, ())) :
    Turns new? ((chars ps).flatMap Json.escape ++ ['"']) (out.flatMap Json.escape ++ ['"']) := by
  induction h generalizing out with
  | nil =>
      obtain rfl : [] = out := Except.ok.inj (Prod.mk.inj hr).1
      exact .single (by decide)
  | @plain c ps hc _ ih =>
      rw [all_addPlain fun _ => rfl] at hs
      obtain ⟨rest, hrest, rfl⟩ := rewritePieces_addPlain_eq_ok hr
      have ih := ih hs hrest
      rw [chars_addPlain, List.flatMap_cons, List.flatMap_cons, List.append_assoc, List.append_assoc]
      by_cases hd : c = '$'
      · -- no escape begins with a brace, so that a lone dollar stays alone
        subst hd
        refine ih.dollar fun rest hh => hc ⟨rfl, ?_⟩
        rw [List.append_assoc] at hh
        exact head?_flatMap_escape hh
      · have hno : '$' ∉ Json.escape c := fun hm => hd (mem_escape (.inl rfl) hm).1.symm
        exact (Turns.of_not_mem hno).append ih
  | @hole body ps hb _ ih =>
      rw [List.all_cons, Bool.and_eq_true, isSafe, Bool.or_eq_true] at hs
      obtain ⟨answer, _, rest, ha, hrest, rfl⟩ := rewritePieces_hole hr
      have ih := ih hs.2 hrest
      rw [chars_cons, List.flatMap_append, List.flatMap_append, List.append_assoc, List.append_assoc]
      refine Turns.append ?_ ih
      have hquoted (body : List Char) :
          (Piece.hole body).chars.flatMap Json.escape = '$' :: '{' :: (body.flatMap Json.escape ++ ['}']) := by
        simp [Piece.chars, Json.escape]
      cases hl : Piece.isLiteral body with
      | true =>
          -- a literal hole is kept, and its quoted form is as literal
          obtain ⟨more, rfl⟩ := isLiteral_iff.mp hl
          rw [if_pos hl] at ha
          obtain rfl := Except.ok.inj (Prod.mk.inj ha).1
          have hmore : '}' ∉ more.flatMap Json.escape :=
            not_mem_flatMap_escape (.inr (.inr rfl)) fun hm => hb (List.mem_cons_of_mem _ hm)
          intro rest out hout
          simpa [hquoted, escape_of_isClean (c := '!') (by decide)] using rewriteChars_literal hmore hout
      | false =>
          rw [hl, if_neg (by decide)] at ha
          have ha : new? (String.ofList body) = .ok answer := (Prod.mk.inj ha).1
          have hclean := List.all_eq_true.mp (hs.1.resolve_left (by simp [hl]))
          have hnew : (answer.elim body String.toList).flatMap Json.escape = answer.elim body String.toList := by
            cases answer with
            | none => exact flatMap_escape_of_isClean hclean
            | some new => exact flatMap_escape_of_isClean (hn ha)
          rw [hquoted, hquoted, hnew, flatMap_escape_of_isClean hclean]
          intro rest out hout
          simpa [Piece.chars] using rewriteChars_hole hb hl ha hout
  | unclosed => simp [rewritePieces] at hr

/-- The quoted form of a template becomes that of the rewritten one. -/
theorem turns_quoted (hn : CleanAnswers new?) {template out : String}
    (hs : (pieces template.toList).all isSafe = true) (h : rewrite new? template = .ok out) :
    Turns new? (Json.quoted template) (Json.quoted out) := by
  have hp := turns_pieces hn (scanned_pieces template.toList) hs (rewriteChars_eq_ok.mp (rewrite_eq_ok.mp h))
  rw [chars_pieces] at hp
  exact (Turns.single (c := '"') (by decide)).append hp

theorem turns_literal (hn : CleanAnswers new?) {s : String} (hc : isClosed s = true) :
    Turns new? (Json.quoted (escape s)) (Json.quoted (escape s)) := by
  refine turns_quoted hn (all_isSafe_escape s) (rewrite_eq_self (by rw [isClosed_escape, hc]) ?_)
  rw [placeholders_escape]
  exact fun _ hr => absurd hr List.not_mem_nil

end Template

namespace Fragment
open Template

variable {new? : String → Except Error (Option String)}

/-! ## Trees -/

theorem rewrite_hole {body : String} (hb : PlainBody body.toList) {answer : Option String}
    (ha : new? body = .ok answer) : rewrite new? (hole body) = .ok (hole (answer.getD body)) := by
  have hr := rewriteChars_hole hb.1 hb.2 (by rwa [String.ofList_toList]) rewriteChars_nil
  rw [rewrite_eq_ok, chars_hole, chars_hole]
  cases answer <;> simpa [Piece.chars] using hr

theorem turns_items {item item' : Node} {items items' : List Node} (hi : items = [] ↔ items' = [])
    (h : Turns new? item.chars item'.chars) (hs : Turns new? (Node.charsOfItems items) (Node.charsOfItems items')) :
    Turns new? (Node.charsOfItems (item :: items)) (Node.charsOfItems (item' :: items')) := by
  by_cases hne : items = []
  · obtain rfl := hi.mp hne
    subst hne
    simpa [Node.charsOfItems] using h
  · rw [Node.charsOfItems_cons item hne, Node.charsOfItems_cons item' fun he => hne (hi.mpr he)]
    exact h.append ((Turns.single (c := ',') (by decide)).append hs)

theorem turns_entries (hn : CleanAnswers new?) {key : String} (hk : isClosed key = true) {value value' : Node}
    {entries entries' : List (String × Node)} (hi : entries = [] ↔ entries' = [])
    (h : Turns new? value.chars value'.chars)
    (hs : Turns new? (Node.charsOfEntries entries) (Node.charsOfEntries entries')) :
    Turns new? (Node.charsOfEntries ((escape key, value) :: entries))
      (Node.charsOfEntries ((escape key, value') :: entries')) := by
  have hentry := (turns_literal hn hk).append ((Turns.single (c := ':') (by decide)).append h)
  by_cases hne : entries = []
  · obtain rfl := hi.mp hne
    subst hne
    simpa [Node.charsOfEntries] using hentry
  · rw [Node.charsOfEntries_cons _ value hne, Node.charsOfEntries_cons _ value' fun he => hne (hi.mpr he)]
    simpa using hentry.append ((Turns.single (c := ',') (by decide)).append hs)

mutual
/-- A tree whose literal stretches are closed becomes the tree with the rewritten texts filled in. -/
theorem Filled.turns (hn : CleanAnswers new?) {node filled : Node} {texts news : List String}
    (h : Filled node texts filled)
    (hk : ∀ site ∈ node.sites, site.isKept = true → '$' ∉ site.chars)
    (hl : ∀ text ∈ node.literals, isClosed text = true)
    (ht : List.Forall₂ (fun old new => Turns new? (Json.quoted old) (Json.quoted new)) texts news) :
    ∃ filled', Filled node news filled' ∧ Turns new? filled.chars filled'.chars := by
  match h with
  | .call hname hget =>
      obtain ⟨new, rest, hnew, hrest, rfl⟩ := List.forall₂_cons_left_iff.mp ht
      cases hrest
      exact ⟨.text new, .call hname hget, hnew⟩
  | @Filled.kept arg =>
      cases ht
      rw [Node.sites_call (by decide), List.forall_mem_singleton] at hk
      exact ⟨_, .kept, .of_not_mem (hk (Node.isKept_single arg (by decide)))⟩
  | .map hc he =>
      rw [Node.sites, hc] at hk
      rw [Node.literals, hc] at hl
      obtain ⟨filled', hf, hturns, -⟩ := he.turns hn hk hl ht
      exact ⟨.map filled', .map hc hf, hturns.brackets (by decide) (by decide)⟩
  | .list h =>
      obtain ⟨filled', hf, hturns, -⟩ := h.turns hn hk hl ht
      exact ⟨.list filled', .list hf, hturns.brackets (by decide) (by decide)⟩
  | .text s =>
      cases ht
      exact ⟨_, .text s, turns_literal hn (hl s (List.mem_singleton_self s))⟩
  | .null =>
      cases ht
      exact ⟨_, .null, .of_not_mem (by decide)⟩
  | .bool b =>
      cases ht
      exact ⟨_, .bool b, .of_not_mem (by cases b <;> decide)⟩
  | .number n =>
      cases ht
      exact ⟨_, .number n, .of_not_mem n.dollar_not_mem_chars⟩

theorem FilledItems.turns (hn : CleanAnswers new?) {items filled : List Node} {texts news : List String}
    (h : FilledItems items texts filled)
    (hk : ∀ site ∈ Node.sitesOfItems items, site.isKept = true → '$' ∉ site.chars)
    (hl : ∀ text ∈ Node.literalsOfItems items, isClosed text = true)
    (ht : List.Forall₂ (fun old new => Turns new? (Json.quoted old) (Json.quoted new)) texts news) :
    ∃ filled', FilledItems items news filled' ∧
      Turns new? (Node.charsOfItems filled) (Node.charsOfItems filled') ∧ (filled = [] ↔ filled' = []) := by
  match h with
  | .nil =>
      cases ht
      exact ⟨[], .nil, .nil, Iff.rfl⟩
  | .cons h hs =>
      rw [Node.sitesOfItems, List.forall_mem_append] at hk
      rw [Node.literalsOfItems, List.forall_mem_append] at hl
      obtain ⟨_, _, rfl, ht, hts⟩ := Outcome.forall₂_append_left ht
      obtain ⟨first, hf, hturns⟩ := h.turns hn hk.1 hl.1 ht
      obtain ⟨rest, hfs, hturnss, hi⟩ := hs.turns hn hk.2 hl.2 hts
      exact ⟨first :: rest, .cons hf hfs, turns_items hi hturns hturnss, by simp⟩

theorem FilledEntries.turns (hn : CleanAnswers new?) {entries filled : List (String × Node)} {texts news : List String}
    (h : FilledEntries entries texts filled)
    (hk : ∀ site ∈ Node.sitesOfEntries entries, site.isKept = true → '$' ∉ site.chars)
    (hl : ∀ text ∈ Node.literalsOfEntries entries, isClosed text = true)
    (ht : List.Forall₂ (fun old new => Turns new? (Json.quoted old) (Json.quoted new)) texts news) :
    ∃ filled', FilledEntries entries news filled' ∧
      Turns new? (Node.charsOfEntries filled) (Node.charsOfEntries filled') ∧ (filled = [] ↔ filled' = []) := by
  match h with
  | .nil =>
      cases ht
      exact ⟨[], .nil, .nil, Iff.rfl⟩
  | .cons h hs =>
      rw [Node.sitesOfEntries, List.forall_mem_append] at hk
      rw [Node.literalsOfEntries, List.forall_mem_cons, List.forall_mem_append] at hl
      obtain ⟨_, _, rfl, ht, hts⟩ := Outcome.forall₂_append_left ht
      obtain ⟨first, hf, hturns⟩ := h.turns hn hk.1 hl.2.1 ht
      obtain ⟨rest, hfs, hturnss, hi⟩ := hs.turns hn hk.2 hl.2.2 hts
      exact ⟨_ :: rest, .cons hf hfs, turns_entries hn hl.1 hi hturns hturnss, by simp⟩
end

end Fragment
end Shorthand
