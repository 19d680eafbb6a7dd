import Shorthand.Placeholder
import Shorthand.Proofs.Outcome

/-!
# Scanning a template and rewriting its holes

Cutting a text into pieces loses nothing, and the pieces of a rewritten template are the old ones with new
bodies. So a rewriting is a run of its visits over the placeholders, in their order.
-/
namespace Shorthand.Template

/-! ## Pieces and their characters -/

@[simp] theorem chars_nil : chars [] = [] := rfl

@[simp] theorem chars_cons (p : Piece) (ps : List Piece) : chars (p :: ps) = p.chars ++ chars ps := by
  simp [chars]

@[simp] theorem chars_addPlain (c : Char) (ps : List Piece) : chars (addPlain c ps) = c :: chars ps := by
  match ps with
  | [] => rfl
  | .plain cs :: ps => rfl
  | .hole body :: ps => rfl
  | .unclosed body :: ps => rfl

theorem pieces_opening (cs : List Char) : pieces ('$' :: '{' :: cs) = bodyPieces cs := by rw [pieces]

theorem pieces_cons {c : Char} {cs : List Char} (h : ¬(c = '$' ∧ cs.head? = some '{')) :
    pieces (c :: cs) = addPlain c (pieces cs) := by
  rw [pieces]
  rintro rest rfl rfl
  exact h ⟨rfl, rfl⟩

/-- Pieces as a scan leaves them: no opening is hidden in plain text, and no body holds a closing brace. -/
inductive Scanned : List Piece → Prop
  | nil : Scanned []
  | plain {c : Char} {ps : List Piece} (h : ¬(c = '$' ∧ (chars ps).head? = some '{')) (hps : Scanned ps) :
      Scanned (addPlain c ps)
  | hole {body : List Char} {ps : List Piece} (h : '}' ∉ body) (hps : Scanned ps) :
      Scanned (.hole body :: ps)
  | unclosed {body : List Char} (h : '}' ∉ body) : Scanned [.unclosed body]

/-- What a scan finds after an opening. -/
inductive Opened : List Piece → Prop
  | hole {body : List Char} {ps : List Piece} (h : '}' ∉ body) (hps : Scanned ps) :
      Opened (.hole body :: ps)
  | unclosed {body : List Char} (h : '}' ∉ body) : Opened [.unclosed body]

theorem Opened.scanned {ps : List Piece} (h : Opened ps) : Scanned ps := by
  cases h with
  | hole hb hps => exact .hole hb hps
  | unclosed hb => exact .unclosed hb

theorem Opened.addBody {c : Char} {ps : List Piece} (hc : c ≠ '}') (h : Opened ps) :
    Opened (addBody c ps) := by
  cases h with
  | hole hb hps => exact .hole (by simp [hc.symm, hb]) hps
  | unclosed hb => exact .unclosed (by simp [hc.symm, hb])

theorem Opened.chars_addBody {c : Char} {cs : List Char} {ps : List Piece} (h : Opened ps)
    (hcs : chars ps = '$' :: '{' :: cs) : chars (Template.addBody c ps) = '$' :: '{' :: c :: cs := by
  cases h with
  | hole _ _ => simpa [Template.addBody, Piece.chars] using hcs
  | unclosed _ => simpa [Template.addBody, Piece.chars] using hcs

/-- A scan cuts a text into pieces and loses nothing of it. -/
theorem scan_spec :
    (∀ cs : List Char, Scanned (pieces cs) ∧ chars (pieces cs) = cs) ∧
      ∀ cs : List Char, Opened (bodyPieces cs) ∧ chars (bodyPieces cs) = '$' :: '{' :: cs := by
  apply pieces.mutual_induct
  case case1 => exact ⟨.nil, rfl⟩
  case case2 =>
      intro cs ih
      rw [pieces_opening]
      exact ⟨ih.1.scanned, ih.2⟩
  case case3 =>
      intro c cs h ih
      have hc : ¬(c = '$' ∧ cs.head? = some '{') := by
        rintro ⟨rfl, hd⟩
        obtain ⟨rest, rfl⟩ := List.head?_eq_some_iff.mp hd
        exact h rest rfl rfl
      rw [pieces_cons hc]
      exact ⟨.plain (by rwa [ih.2]) ih.1, by rw [chars_addPlain, ih.2]⟩
  case case4 => exact ⟨.unclosed (by simp), rfl⟩
  case case5 =>
      intro cs ih
      rw [bodyPieces]
      exact ⟨.hole (by simp) ih.1, by simp [Piece.chars, ih.2]⟩
  case case6 =>
      intro c cs hc ih
      rw [bodyPieces]
      · exact ⟨ih.1.addBody hc, ih.1.chars_addBody ih.2⟩
      · exact hc

theorem scanned_pieces (cs : List Char) : Scanned (pieces cs) := (scan_spec.1 cs).1

@[simp] theorem chars_pieces (cs : List Char) : chars (pieces cs) = cs := (scan_spec.1 cs).2

theorem bodyPieces_closed {body : List Char} (h : '}' ∉ body) (cs : List Char) :
    bodyPieces (body ++ '}' :: cs) = .hole body :: pieces cs := by
  induction body with
  | nil => simp [bodyPieces]
  | cons c body ih =>
      simp only [List.mem_cons, not_or] at h
      rw [List.cons_append, bodyPieces, ih h.2]
      · rfl
      · exact fun hc => h.1 hc.symm

theorem bodyPieces_unclosed {body : List Char} (h : '}' ∉ body) : bodyPieces body = [.unclosed body] := by
  induction body with
  | nil => rfl
  | cons c body ih =>
      simp only [List.mem_cons, not_or] at h
      rw [bodyPieces, ih h.2]
      · rfl
      · exact fun hc => h.1 hc.symm

theorem pieces_hole_append {body : List Char} (hb : '}' ∉ body) (cs : List Char) :
    pieces ((Piece.hole body).chars ++ cs) = .hole body :: pieces cs := by
  rw [Piece.chars, List.cons_append, List.cons_append, pieces_opening, List.append_assoc, List.singleton_append,
    bodyPieces_closed hb]

theorem pieces_unclosed {body : List Char} (hb : '}' ∉ body) :
    pieces (Piece.unclosed body).chars = [.unclosed body] := by
  rw [Piece.chars, pieces_opening, bodyPieces_unclosed hb]

/-- Scanned pieces are what their characters are cut into. -/
theorem pieces_chars {ps : List Piece} (h : Scanned ps) : pieces (chars ps) = ps := by
  induction h with
  | nil => rfl
  | plain hc _ ih => rw [chars_addPlain, pieces_cons hc, ih]
  | hole hb _ ih => rw [chars_cons, pieces_hole_append hb, ih]
  | unclosed hb => rw [chars_cons, chars_nil, List.append_nil, pieces_unclosed hb]

/-! ## New bodies -/

/-- A body that a template takes in as it is: it neither closes its hole nor makes it literal. -/
def PlainBody (body : List Char) : Prop := '}' ∉ body ∧ Piece.isLiteral body = false

/-- A piece after a rewriting: a hole that refers to something may have another body. -/
inductive Refilled : Piece → Piece → Prop
  | same (p : Piece) : Refilled p p
  | hole {old new : List Char} (h : Piece.isLiteral old = false) (hn : PlainBody new) :
      Refilled (.hole old) (.hole new)

theorem Refilled.head? {p q : Piece} (h : Refilled p q) : q.chars.head? = p.chars.head? := by
  cases h with
  | same => rfl
  | hole _ _ => rfl

theorem Refilled.head?_chars {ps qs : List Piece} (h : List.Forall₂ Refilled ps qs) :
    (chars qs).head? = (chars ps).head? := by
  induction h with
  | nil => rfl
  | @cons p q ps qs hp _ ih =>
      cases hp with
      | same => simp [List.head?_append, ih]
      | hole _ _ => simp [Piece.chars]

theorem Refilled.of_addPlain {c : Char} {ps qs : List Piece}
    (h : List.Forall₂ Refilled (addPlain c ps) qs) :
    ∃ rs, qs = addPlain c rs ∧ List.Forall₂ Refilled ps rs := by
  match ps with
  | .plain cs :: ps =>
      obtain ⟨q, qs, hq, hqs, rfl⟩ := List.forall₂_cons_left_iff.mp h
      cases hq
      exact ⟨.plain cs :: qs, rfl, .cons (.same _) hqs⟩
  | [] =>
      obtain ⟨q, qs, hq, hqs, rfl⟩ := List.forall₂_cons_left_iff.mp h
      cases hq
      cases hqs
      exact ⟨[], rfl, .nil⟩
  | .hole body :: ps =>
      obtain ⟨q, qs, hq, hqs, rfl⟩ := List.forall₂_cons_left_iff.mp h
      cases hq
      obtain ⟨r, rs, hr, hrs, rfl⟩ := List.forall₂_cons_left_iff.mp hqs
      refine ⟨r :: rs, ?_, .cons hr hrs⟩
      cases hr <;> rfl
  | .unclosed body :: ps =>
      obtain ⟨q, qs, hq, hqs, rfl⟩ := List.forall₂_cons_left_iff.mp h
      cases hq
      obtain ⟨r, rs, hr, hrs, rfl⟩ := List.forall₂_cons_left_iff.mp hqs
      refine ⟨r :: rs, ?_, .cons hr hrs⟩
      cases hr
      rfl

theorem Scanned.refill {ps qs : List Piece} (h : Scanned ps) (hq : List.Forall₂ Refilled ps qs) :
    Scanned qs := by
  induction h generalizing qs with
  | nil =>
      cases hq
      exact .nil
  | plain hc _ ih =>
      obtain ⟨rs, rfl, hrs⟩ := Refilled.of_addPlain hq
      exact .plain (by rwa [Refilled.head?_chars hrs]) (ih hrs)
  | hole hb _ ih =>
      obtain ⟨q, rs, hp, hrs, rfl⟩ := List.forall₂_cons_left_iff.mp hq
      cases hp with
      | same => exact .hole hb (ih hrs)
      | hole _ hn => exact .hole hn.1 (ih hrs)
  | unclosed hb =>
      obtain ⟨q, rs, hp, hrs, rfl⟩ := List.forall₂_cons_left_iff.mp hq
      cases hp
      cases hrs
      exact .unclosed hb

/-! ## Rewriting as a run over the placeholders -/

/-- The bodies among pieces that refer to something. -/
def live (ps : List Piece) : List String := ps.filterMap fun p => p.live?.map String.ofList

theorem live_literal {body : List Char} (hl : Piece.isLiteral body = true) (ps : List Piece) :
    live (.hole body :: ps) = live ps := by
  simp [live, Piece.live?, hl]

theorem live_hole {body : List Char} (hl : Piece.isLiteral body = false) (ps : List Piece) :
    live (.hole body :: ps) = String.ofList body :: live ps := by
  simp [live, Piece.live?, hl]

theorem placeholders_eq (template : String) : placeholders template = live (pieces template.toList) := rfl

variable {σ : Type}

/-- A run of visits over bodies, in order: from bodies and a state to new bodies and a state. -/
inductive Visits (visit : String → σ → Except Error (Option String) × σ) :
    List String → σ → List String → σ → Prop
  | nil (s : σ) : Visits visit [] s [] s
  | cons {body : String} {answer : Option String} {bodies news : List String} {s s₁ s₂ : σ}
      (h : visit body s = (.ok answer, s₁)) (hs : Visits visit bodies s₁ news s₂) :
      Visits visit (body :: bodies) s (answer.getD body :: news) s₂

theorem Visits.forall₂ {visit : String → σ → Except Error (Option String) × σ} {olds news : List String}
    {s s' : σ} (h : Visits visit olds s news s') :
    List.Forall₂ (fun old new => ∃ s answer s', visit old s = (.ok answer, s') ∧ new = answer.getD old)
      olds news := by
  induction h with
  | nil => exact .nil
  | cons ha _ ih => exact .cons ⟨_, _, _, ha, rfl⟩ ih

section
variable {template : String} {visit : String → σ → Except Error (Option String) × σ} {s s₁ s' : σ}

theorem rewritePieces_plain (cs : List Char) (ps : List Piece) :
    rewritePieces template visit (.plain cs :: ps) s =
      ((rewritePieces template visit ps s).1.map (cs ++ ·), (rewritePieces template visit ps s).2) := by
  rw [rewritePieces]
  match rewritePieces template visit ps s with
  | (.ok out, s) => rfl
  | (.error e, s) => rfl

theorem rewritePieces_plain_eq_ok {cs : List Char} {ps : List Piece} {out : List Char} :
    rewritePieces template visit (.plain cs :: ps) s = (.ok out, s') ↔
      ∃ rest, rewritePieces template visit ps s = (.ok rest, s') ∧ cs ++ rest = out := by
  rw [rewritePieces_plain, Outcome.map_fst_eq_ok]

theorem rewritePieces_addPlain (c : Char) (ps : List Piece) :
    rewritePieces template visit (addPlain c ps) s =
      ((rewritePieces template visit ps s).1.map (c :: ·), (rewritePieces template visit ps s).2) := by
  match ps with
  | .plain cs :: ps =>
      rw [addPlain, rewritePieces_plain, rewritePieces_plain]
      match rewritePieces template visit ps s with
      | (.ok out, s) => rfl
      | (.error e, s) => rfl
  | [] | .hole _ :: _ | .unclosed _ :: _ => exact rewritePieces_plain [c] _

theorem rewritePieces_literal {body : List Char} (hl : Piece.isLiteral body = true) (ps : List Piece) :
    rewritePieces template visit (.hole body :: ps) s =
      ((rewritePieces template visit ps s).1.map ((Piece.hole body).chars ++ ·),
        (rewritePieces template visit ps s).2) := by
  simp only [rewritePieces, hl, ↓reduceIte]
  match rewritePieces template visit ps s with
  | (.ok out, s) => rfl
  | (.error e, s) => rfl

theorem rewritePieces_live {body : List Char} (hl : Piece.isLiteral body = false) {answer : Option String}
    (ha : visit (String.ofList body) s = (.ok answer, s₁)) (ps : List Piece) :
    rewritePieces template visit (.hole body :: ps) s =
      ((rewritePieces template visit ps s₁).1.map
        ((Piece.hole (answer.getD (String.ofList body)).toList).chars ++ ·),
        (rewritePieces template visit ps s₁).2) := by
  have helim : answer.elim body String.toList = (answer.getD (String.ofList body)).toList := by
    cases answer <;> simp
  simp only [rewritePieces, hl, Bool.false_eq_true, ↓reduceIte, ha, helim]
  match rewritePieces template visit ps s₁ with
  | (.ok out, s) => rfl
  | (.error e, s) => rfl

theorem rewritePieces_refused {body : List Char} (hl : Piece.isLiteral body = false) {e : Error}
    (he : visit (String.ofList body) s = (.error e, s')) (ps : List Piece) :
    rewritePieces template visit (.hole body :: ps) s = (.error e, s') := by
  simp only [rewritePieces, hl, Bool.false_eq_true, ↓reduceIte, he]

end

/-- In the states of a kind, a visit gives bodies that a template takes in, and leaves a state of the kind. -/
structure Careful (visit : String → σ → Except Error (Option String) × σ) (P : σ → Prop) : Prop where
  keeps : ∀ {body s answer s'}, P s → visit body s = (.ok answer, s') → P s'
  plain : ∀ {body s new s'}, P s → visit body s = (.ok (some new), s') → PlainBody new.toList

theorem rewritePieces_hole {template : String} {visit : String → σ → Except Error (Option String) × σ}
    {body out : List Char} {ps : List Piece} {s s' : σ}
    (h : rewritePieces template visit (.hole body :: ps) s = (.ok out, s')) :
    ∃ answer s₁ rest, (if Piece.isLiteral body then (.ok none, s) else visit (String.ofList body) s) =
        (.ok answer, s₁) ∧ rewritePieces template visit ps s₁ = (.ok rest, s') ∧
      out = (Piece.hole (answer.elim body String.toList)).chars ++ rest := by
  rw [rewritePieces] at h
  generalize hv : (if Piece.isLiteral body then (.ok none, s) else visit (String.ofList body) s) = r at h
  obtain ⟨_ | answer, s₁⟩ := r
  · simp at h
  · simp only at h
    split at h
    · rename_i rest s₂ hr
      simp only [Prod.mk.injEq, Except.ok.injEq] at h
      obtain ⟨rfl, rfl⟩ := h
      exact ⟨answer, s₁, rest, rfl, hr, rfl⟩
    · rename_i hno
      exact absurd h (hno _ _)

theorem rewritePieces_eq_ok {template : String}
    {visit : String → σ → Except Error (Option String) × σ} {P : σ → Prop} (hv : Careful visit P) :
    ∀ {ps : List Piece} {s s' : σ} {out : List Char}, P s →
      rewritePieces template visit ps s = (.ok out, s') →
      ∃ qs, out = chars qs ∧ List.Forall₂ Refilled ps qs ∧ Visits visit (live ps) s (live qs) s'
  | [], s, s', out, _, h => by
      simp only [rewritePieces, Prod.mk.injEq, Except.ok.injEq] at h
      obtain ⟨rfl, rfl⟩ := h
      exact ⟨[], rfl, .nil, .nil s⟩
  | .plain cs :: ps, s, s', out, hs, h => by
      obtain ⟨rest, hr, rfl⟩ := rewritePieces_plain_eq_ok.mp h
      obtain ⟨qs, rfl, hqs, hvs⟩ := rewritePieces_eq_ok hv hs hr
      exact ⟨.plain cs :: qs, by simp [Piece.chars], .cons (.same _) hqs, hvs⟩
  | .hole body :: ps, s, s', out, hs, h => by
      obtain ⟨answer, s₁, rest, ha, hr, rfl⟩ := rewritePieces_hole h
      cases hb : Piece.isLiteral body with
      | true =>
          simp only [hb, ↓reduceIte, Prod.mk.injEq, Except.ok.injEq] at ha
          obtain ⟨rfl, rfl⟩ := ha
          obtain ⟨qs, rfl, hqs, hvs⟩ := rewritePieces_eq_ok hv hs hr
          refine ⟨.hole body :: qs, by simp, .cons (.same _) hqs, ?_⟩
          rwa [live_literal hb, live_literal hb]
      | false =>
          simp only [hb, Bool.false_eq_true, ↓reduceIte] at ha
          obtain ⟨qs, rfl, hqs, hvs⟩ := rewritePieces_eq_ok hv (hv.keeps hs ha) hr
          cases answer with
          | none =>
              refine ⟨.hole body :: qs, by simp, .cons (.same _) hqs, ?_⟩
              rw [live_hole hb, live_hole hb]
              exact .cons ha hvs
          | some new =>
              have hn := hv.plain hs ha
              refine ⟨.hole new.toList :: qs, by simp, .cons (.hole hb hn) hqs, ?_⟩
              rw [live_hole hb, live_hole hn.2, String.ofList_toList]
              exact .cons ha hvs
  | .unclosed body :: ps, s, s', out, _, h => by simp [rewritePieces] at h

theorem pieces_of_rewriteWith {visit : String → σ → Except Error (Option String) × σ} {P : σ → Prop}
    (hv : Careful visit P) {template out : String} {s s' : σ} (hs : P s)
    (h : rewriteWith visit template s = (.ok out, s')) :
    List.Forall₂ Refilled (pieces template.toList) (pieces out.toList) ∧
      Visits visit (placeholders template) s (placeholders out) s' := by
  rw [rewriteWith] at h
  split at h
  · rename_i cs s₁ hr
    simp only [Prod.mk.injEq, Except.ok.injEq] at h
    obtain ⟨rfl, rfl⟩ := h
    obtain ⟨qs, rfl, hqs, hvs⟩ := rewritePieces_eq_ok hv hs hr
    have hq := pieces_chars ((scanned_pieces _).refill hqs)
    rw [placeholders_eq, placeholders_eq, String.toList_ofList, hq]
    exact ⟨hqs, hvs⟩
  · simp at h

/-- A rewriting that succeeds is a run of its visits over the placeholders, and leaves their answers as
the placeholders of its result. -/
theorem visits_of_rewriteWith {visit : String → σ → Except Error (Option String) × σ} {P : σ → Prop}
    (hv : Careful visit P) {template out : String} {s s' : σ} (hs : P s)
    (h : rewriteWith visit template s = (.ok out, s')) :
    Visits visit (placeholders template) s (placeholders out) s' :=
  (pieces_of_rewriteWith hv hs h).2

theorem careful_of_new? {new? : String → Except Error (Option String)}
    (hn : ∀ {body new}, new? body = .ok (some new) → PlainBody new.toList) :
    Careful (fun body (_ : Unit) => (new? body, ())) fun _ => True :=
  ⟨fun _ _ => trivial, fun _ h => hn (Prod.mk.inj h).1⟩

/-- The placeholders of a rewritten template are the old ones, each with what was found for it. -/
theorem placeholders_of_rewrite {new? : String → Except Error (Option String)} {template out : String}
    (hn : ∀ {body new}, new? body = .ok (some new) → PlainBody new.toList)
    (h : rewrite new? template = .ok out) :
    List.Forall₂ (fun old new => ∃ answer, new? old = .ok answer ∧ new = answer.getD old)
      (placeholders template) (placeholders out) := by
  have hr : rewriteWith (fun body (_ : Unit) => (new? body, ())) template () = (.ok out, ()) :=
    Prod.ext h rfl
  refine (visits_of_rewriteWith (careful_of_new? hn) trivial hr).forall₂.imp ?_
  rintro old new ⟨_, answer, _, ha, hnew⟩
  exact ⟨answer, (Prod.mk.inj ha).1, hnew⟩

/-! ## Closed templates -/

/-- Whether a piece ends before the text does. -/
def isEnded : Piece → Bool
  | .unclosed _ => false
  | _ => true

theorem isClosed_eq (template : String) : isClosed template = (pieces template.toList).all isEnded := rfl

theorem Refilled.isEnded {p q : Piece} (h : Refilled p q) : isEnded q = isEnded p := by
  cases h <;> rfl

theorem all_isEnded_of_refilled {ps qs : List Piece} (h : List.Forall₂ Refilled ps qs) :
    qs.all isEnded = ps.all isEnded := by
  induction h with
  | nil => rfl
  | cons hp _ ih => rw [List.all_cons, List.all_cons, hp.isEnded, ih]

theorem all_isEnded_of_rewritePieces {template : String}
    {visit : String → σ → Except Error (Option String) × σ} {ps : List Piece} {s s' : σ} {out : List Char}
    (h : rewritePieces template visit ps s = (.ok out, s')) : ps.all isEnded = true := by
  induction ps generalizing s s' out with
  | nil => rfl
  | cons p ps ih =>
      cases p with
      | plain cs =>
          obtain ⟨_, hr, _⟩ := rewritePieces_plain_eq_ok.mp h
          exact ih hr
      | hole body =>
          obtain ⟨_, _, _, _, hr, _⟩ := rewritePieces_hole h
          exact ih hr
      | unclosed body => simp [rewritePieces] at h

/-- Only a closed template is rewritten, and it stays closed. -/
theorem isClosed_of_rewriteWith {visit : String → σ → Except Error (Option String) × σ} {P : σ → Prop}
    (hv : Careful visit P) {template out : String} {s s' : σ} (hs : P s)
    (h : rewriteWith visit template s = (.ok out, s')) : isClosed out = true := by
  rw [isClosed_eq, all_isEnded_of_refilled (pieces_of_rewriteWith hv hs h).1]
  rw [rewriteWith] at h
  split at h
  · rename_i hr
    exact all_isEnded_of_rewritePieces hr
  · simp at h

theorem isClosed_of_rewrite {new? : String → Except Error (Option String)} {template out : String}
    (hn : ∀ {body new}, new? body = .ok (some new) → PlainBody new.toList)
    (h : rewrite new? template = .ok out) : isClosed out = true := by
  have hr : rewriteWith (fun body (_ : Unit) => (new? body, ())) template () = (.ok out, ()) :=
    Prod.ext h rfl
  exact isClosed_of_rewriteWith (careful_of_new? hn) trivial hr

/-! ## New names for placeholders -/

def renamePiece (r : String → String) : Piece → Piece
  | .plain cs => .plain cs
  | .hole body => if Piece.isLiteral body then .hole body else .hole (r (String.ofList body)).toList
  | .unclosed body => .unclosed body

/-- The template with a new name for each of its placeholders, and nothing else changed. -/
def rename (r : String → String) (template : String) : String :=
  String.ofList (chars ((pieces template.toList).map (renamePiece r)))

theorem renamePiece_eq_self {r : String → String} (p : Piece)
    (h : ∀ body ∈ (p.live?.map String.ofList).toList, r body = body) : renamePiece r p = p := by
  cases p with
  | hole body =>
      rw [renamePiece]
      split
      · rfl
      · rename_i hb
        rw [h _ (by simp [Piece.live?, hb]), String.toList_ofList]
  | plain _ | unclosed _ => rfl

theorem rename_eq_self {r : String → String} (h : ∀ name, r name = name) (template : String) :
    rename r template = template := by
  rw [rename, List.map_congr_left fun p _ => renamePiece_eq_self p fun body _ => h body, List.map_id',
    chars_pieces, String.ofList_toList]

theorem rewritePieces_of_visits {template : String} {visit : String → σ → Except Error (Option String) × σ}
    {r : String → String} {ps : List Piece} {s s' : σ} (hc : ps.all isEnded = true)
    (hv : Visits visit (live ps) s ((live ps).map r) s') :
    rewritePieces template visit ps s = (.ok (chars (ps.map (renamePiece r))), s') := by
  induction ps generalizing s with
  | nil =>
      cases hv
      rfl
  | cons p ps ih =>
      rw [List.all_cons, Bool.and_eq_true] at hc
      cases p with
      | plain cs => rw [rewritePieces, ih hc.2 hv, List.map_cons, chars_cons, renamePiece, Piece.chars]
      | hole body =>
          rw [List.map_cons, chars_cons, renamePiece]
          cases hb : Piece.isLiteral body with
          | true =>
              rw [live_literal hb] at hv
              rw [rewritePieces_literal hb, ih hc.2 hv]
              rfl
          | false =>
              rw [live_hole hb, List.map_cons] at hv
              generalize r (String.ofList body) = new at hv ⊢
              cases hv with
              | cons ha hvs =>
                  rw [rewritePieces_live hb ha, ih hc.2 hvs]
                  rfl
      | unclosed body => cases hc.1

/-- A closed template on whose placeholders the visits agree with new names is given these names. -/
theorem rewriteWith_of_visits {visit : String → σ → Except Error (Option String) × σ} {r : String → String}
    {template : String} {s s' : σ} (hc : isClosed template = true)
    (hv : Visits visit (placeholders template) s ((placeholders template).map r) s') :
    rewriteWith visit template s = (.ok (rename r template), s') := by
  rw [rewriteWith, rewritePieces_of_visits hc hv]
  rfl

/-- A closed template whose visits all keep what they find stays as it is. -/
theorem rewriteWith_eq_self {visit : String → σ → Except Error (Option String) × σ} {template : String} {s : σ}
    (hc : isClosed template = true) (hk : ∀ r ∈ placeholders template, visit r s = (.ok none, s)) :
    rewriteWith visit template s = (.ok template, s) := by
  have hv : ∀ bodies : List String, (∀ r ∈ bodies, visit r s = (.ok none, s)) →
      Visits visit bodies s (bodies.map fun body => body) s := by
    intro bodies hk
    induction bodies with
    | nil => exact .nil s
    | cons body bodies ih =>
        rw [List.forall_mem_cons] at hk
        exact .cons hk.1 (ih hk.2)
  rw [rewriteWith_of_visits hc (hv _ hk), rename_eq_self fun _ => rfl]

theorem rewrite_eq_self {new? : String → Except Error (Option String)} {template : String}
    (hc : isClosed template = true) (hk : ∀ r ∈ placeholders template, new? r = .ok none) :
    rewrite new? template = .ok template := by
  rw [rewrite, rewriteWith_eq_self hc fun r hr => by rw [hk r hr]]

/-! ## Answers -/

section
variable {new? : String → Except Error (Option String)} {template out : String}

/-- What a placeholder becomes where it has an answer. -/
def answered (new? : String → Except Error (Option String)) (body : String) : String :=
  match new? body with
  | .ok (some new) => new
  | _ => body

theorem visits_of_answers {bodies : List String} (ha : ∀ body ∈ bodies, ∃ answer, new? body = .ok answer) :
    Visits (fun body (_ : Unit) => (new? body, ())) bodies () (bodies.map (answered new?)) () := by
  induction bodies with
  | nil => exact .nil ()
  | cons body bodies ih =>
      obtain ⟨⟨answer, hanswer⟩, hbodies⟩ := List.forall_mem_cons.mp ha
      have hnew : answered new? body = answer.getD body := by
        rw [answered, hanswer]
        cases answer <;> rfl
      rw [List.map_cons, hnew]
      exact .cons (by rw [hanswer]) (ih hbodies)

theorem rewrite_of_answers (hc : isClosed template = true)
    (ha : ∀ body ∈ placeholders template, ∃ answer, new? body = .ok answer) :
    rewrite new? template = .ok (rename (answered new?) template) := by
  rw [rewrite, rewriteWith_of_visits hc (visits_of_answers ha)]

/-- Only the last piece of a scan is not closed. -/
theorem Scanned.unclosed_last {ps : List Piece} (h : Scanned ps) {body : List Char} {qs : List Piece}
    (hs : .unclosed body :: qs <:+ ps) : qs = [] := by
  induction h with
  | nil => cases List.suffix_nil.mp hs
  | @plain c ps _ _ ih =>
      obtain ⟨cs, rest, hadd, hrest⟩ : ∃ cs rest, addPlain c ps = .plain cs :: rest ∧ rest <:+ ps := by
        match ps with
        | .plain cs :: ps => exact ⟨c :: cs, ps, rfl, List.suffix_cons _ _⟩
        | [] | .hole _ :: _ | .unclosed _ :: _ => exact ⟨[c], _, rfl, List.suffix_refl _⟩
      rw [hadd] at hs
      rcases List.suffix_cons_iff.mp hs with he | hs
      · cases he
      · exact ih (hs.trans hrest)
  | hole _ _ ih =>
      rcases List.suffix_cons_iff.mp hs with he | hs
      · cases he
      · exact ih hs
  | unclosed _ =>
      rcases List.suffix_cons_iff.mp hs with he | hs
      · exact (List.cons.inj he).2
      · cases List.suffix_nil.mp hs

theorem rewritePieces_of_refused (template : String) {body : String} {e : Error} (he : new? body = .error e)
    {ps : List Piece} (hlast : ∀ body qs, .unclosed body :: qs <:+ ps → qs = []) (hm : body ∈ live ps) :
    ∃ body' ∈ live ps, ∃ e', new? body' = .error e' ∧
      rewritePieces template (fun body (_ : Unit) => (new? body, ())) ps () = (.error e', ()) := by
  induction ps with
  | nil => cases hm
  | cons p ps ih =>
      have ih := ih fun body qs hs => hlast body qs (hs.trans (List.suffix_cons _ _))
      cases p with
      | plain cs =>
          obtain ⟨body', hm', e', he', hr⟩ := ih hm
          exact ⟨body', hm', e', he', by rw [rewritePieces, hr]⟩
      | unclosed rest =>
          rw [hlast rest ps (List.suffix_refl _)] at hm
          cases hm
      | hole rest =>
          cases hl : Piece.isLiteral rest with
          | true =>
              rw [live_literal hl] at hm ⊢
              obtain ⟨body', hm', e', he', hr⟩ := ih hm
              exact ⟨body', hm', e', he', by rw [rewritePieces_literal hl, hr]; rfl⟩
          | false =>
              rw [live_hole hl] at hm ⊢
              cases hn : new? (String.ofList rest) with
              | error e' => exact ⟨_, List.mem_cons_self, e', hn, rewritePieces_refused hl (by rw [hn]) ps⟩
              | ok answer =>
                  have hne : body ≠ String.ofList rest := fun heq => by
                    rw [heq, hn] at he
                    cases he
                  obtain ⟨body', hm', e', he', hr⟩ := ih ((List.mem_cons.mp hm).resolve_left hne)
                  refine ⟨body', List.mem_cons_of_mem _ hm', e', he', ?_⟩
                  rw [rewritePieces_live hl (by rw [hn]), hr]
                  rfl

/-- A rewriting with a placeholder that is refused fails as one of its placeholders does. -/
theorem rewrite_of_refused {body : String} {e : Error} (hm : body ∈ placeholders template)
    (he : new? body = .error e) :
    ∃ body' ∈ placeholders template, ∃ e', new? body' = .error e' ∧ rewrite new? template = .error e' := by
  obtain ⟨body', hm', e', he', hr⟩ := rewritePieces_of_refused template he
    (fun _ _ hs => (scanned_pieces template.toList).unclosed_last hs) hm
  exact ⟨body', hm', e', he', by rw [rewrite, rewriteWith, hr]⟩

/-- A rewriting succeeds just if the template is closed and every placeholder has an answer, and then it puts in the
answers and changes nothing else. -/
theorem rewrite_eq_ok_iff : rewrite new? template = .ok out ↔ isClosed template = true ∧
    (∀ body ∈ placeholders template, ∃ answer, new? body = .ok answer) ∧
      out = rename (answered new?) template := by
  constructor
  · intro h
    have hc : isClosed template = true := by
      rw [rewrite, rewriteWith] at h
      split at h
      · rename_i hr
        exact all_isEnded_of_rewritePieces hr
      · cases h
    have ha : ∀ body ∈ placeholders template, ∃ answer, new? body = .ok answer := by
      intro body hm
      cases hn : new? body with
      | ok answer => exact ⟨answer, rfl⟩
      | error e =>
          obtain ⟨_, _, _, _, hr⟩ := rewrite_of_refused hm hn
          rw [hr] at h
          cases h
    exact ⟨hc, ha, Except.ok.inj (h.symm.trans (rewrite_of_answers hc ha))⟩
  · rintro ⟨hc, ha, rfl⟩
    exact rewrite_of_answers hc ha

end

theorem rewritePieces_of_total {template : String} (new? : String → Option String) (ps : List Piece) :
    rewritePieces template (fun body (_ : Unit) => (.ok (new? body), ())) ps () =
      (if ps.all isEnded then .ok (chars (ps.map (renamePiece fun name => (new? name).getD name)))
        else .error (unclosedError template), ()) := by
  induction ps with
  | nil => rfl
  | cons p ps ih =>
      rw [List.all_cons]
      cases p with
      | plain cs =>
          rw [rewritePieces_plain, ih]
          cases ps.all isEnded <;> rfl
      | hole body =>
          rw [List.map_cons, renamePiece]
          cases hb : Piece.isLiteral body with
          | true =>
              rw [rewritePieces_literal hb, ih]
              cases ps.all isEnded <;> rfl
          | false =>
              rw [rewritePieces_live hb rfl, ih]
              cases ps.all isEnded <;> rfl
      | unclosed body => rw [rewritePieces]; rfl

/-- A rewriting that never fails by itself gives each placeholder its new name, if all of them are closed. -/
theorem rewrite_of_total (new? : String → Option String) (template : String) :
    rewrite (fun body => .ok (new? body)) template =
      if isClosed template then .ok (rename (fun name => (new? name).getD name) template)
      else .error (unclosedError template) := by
  rw [rewrite, rewriteWith, rewritePieces_of_total new? (pieces template.toList), ← isClosed_eq]
  cases isClosed template <;> rfl

section
variable {r : String → String} (hr : ∀ name, r name = name ∨ PlainBody (r name).toList)
include hr

theorem refilled_renamePiece (p : Piece) : Refilled p (renamePiece r p) := by
  cases p with
  | plain _ | unclosed _ => exact .same _
  | hole body =>
      rw [renamePiece]
      split
      · exact .same _
      · rename_i hb
        rcases hr (String.ofList body) with hsame | hplain
        · rw [hsame, String.toList_ofList]
          exact .same _
        · exact .hole (Bool.eq_false_iff.mpr hb) hplain

theorem pieces_rename (template : String) :
    pieces (rename r template).toList = (pieces template.toList).map (renamePiece r) := by
  rw [rename, String.toList_ofList]
  refine pieces_chars ((scanned_pieces template.toList).refill ?_)
  exact List.forall₂_map_right_iff.mpr (List.forall₂_same.mpr fun p _ => refilled_renamePiece hr p)

theorem isClosed_rename (template : String) : isClosed (rename r template) = isClosed template := by
  rw [isClosed_eq, isClosed_eq, pieces_rename hr]
  exact all_isEnded_of_refilled
    (List.forall₂_map_right_iff.mpr (List.forall₂_same.mpr fun p _ => refilled_renamePiece hr p))

/-- The placeholders of a renamed template are the old ones under their new names. -/
theorem placeholders_rename (template : String) :
    placeholders (rename r template) = (placeholders template).map r := by
  rw [placeholders, placeholders, pieces_rename hr, List.filterMap_map, List.map_filterMap]
  refine List.filterMap_congr fun p _ => ?_
  cases p with
  | plain _ | unclosed _ => rfl
  | hole body =>
      cases hb : Piece.isLiteral body with
      | true => simp [renamePiece, Piece.live?, hb]
      | false =>
          have hnew : Piece.isLiteral (r (String.ofList body)).toList = false := by
            rcases hr (String.ofList body) with hsame | hplain
            · rw [hsame, String.toList_ofList, hb]
            · exact hplain.2
          simp [renamePiece, Piece.live?, hb, hnew]
end

end Shorthand.Template
