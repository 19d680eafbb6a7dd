import Shorthand.Proofs.Placeholder
import Shorthand.Proofs.Replacement

/-!
# Literal texts

The template that stands for a literal text has no live hole, and it is closed where the text is. Taking the
exclamation marks out again gives the text back, so different texts have different templates. Of joined texts it
is the joined templates, unless the joining makes an opening.
-/
namespace Shorthand.Template

theorem escapeChars_opening (cs : List Char) :
    escapeChars ('$' :: '{' :: cs) = '$' :: '{' :: '!' :: escapeChars cs := by rw [escapeChars]

theorem escapeChars_cons {c : Char} {cs : List Char} (h : ¬(c = '$' ∧ cs.head? = some '{')) :
    escapeChars (c :: cs) = c :: escapeChars cs := by
  rw [escapeChars]
  rintro rest rfl rfl
  exact h ⟨rfl, rfl⟩

theorem head?_escapeChars (cs : List Char) : (escapeChars cs).head? = cs.head? := by
  fun_cases escapeChars cs <;> rfl

/-- Texts with openings: an induction along the openings of a text. -/
theorem openings_induct {P : List Char → Prop} (nil : P []) (opening : ∀ cs, P cs → P ('$' :: '{' :: cs))
    (cons : ∀ c cs, ¬(c = '$' ∧ cs.head? = some '{') → P cs → P (c :: cs)) (cs : List Char) : P cs := by
  induction cs using escapeChars.induct with
  | case1 => exact nil
  | case2 cs ih => exact opening cs ih
  | case3 c cs h ih =>
      refine cons c cs ?_ ih
      rintro ⟨rfl, hc⟩
      obtain ⟨rest, rfl⟩ := List.head?_eq_some_iff.mp hc
      exact h rest rfl rfl

/-! ## Putting the marks in and taking them out -/

theorem replace_opening (marked new cs : List Char) :
    Text.replace ('$' :: '{' :: marked) new ('$' :: '{' :: (marked ++ cs)) =
      new ++ Text.replace ('$' :: '{' :: marked) new cs :=
  Text.replace_append_self (List.cons_ne_nil '$' ('{' :: marked)) cs

theorem replace_cons {marked new : List Char} {c : Char} {cs : List Char} (h : ¬(c = '$' ∧ cs.head? = some '{')) :
    Text.replace ('$' :: '{' :: marked) new (c :: cs) = c :: Text.replace ('$' :: '{' :: marked) new cs := by
  refine Text.replace_cons ?_
  rintro ⟨rest, he⟩
  obtain ⟨rfl, rfl⟩ := List.cons.inj he
  exact h ⟨rfl, rfl⟩

/-- The marks are put in at every opening. -/
theorem escapeChars_eq_replace (cs : List Char) : escapeChars cs = Text.replace ['$', '{'] ['$', '{', '!'] cs := by
  induction cs using openings_induct with
  | nil => rfl
  | opening cs ih =>
      rw [escapeChars_opening, ih]
      exact (replace_opening [] ['$', '{', '!'] cs).symm
  | cons c cs h ih => rw [escapeChars_cons h, ih, replace_cons h]

theorem replace_escapeChars (cs : List Char) :
    Text.replace ['$', '{', '!'] ['$', '{'] (escapeChars cs) = cs := by
  induction cs using openings_induct with
  | nil => rfl
  | opening cs ih =>
      rw [escapeChars_opening]
      exact (replace_opening ['!'] ['$', '{'] (escapeChars cs)).trans (congrArg (['$', '{'] ++ ·) ih)
  | cons c cs h ih => rw [escapeChars_cons h, replace_cons (by rwa [head?_escapeChars]), ih]

theorem escape_injective : Function.Injective escape := by
  intro a b h
  have h := congrArg (Text.replace ['$', '{', '!'] ['$', '{']) (String.ofList_injective h)
  rw [replace_escapeChars, replace_escapeChars] at h
  exact String.toList_injective h

/-! ## Joined texts -/

theorem getLast?_ne_of_cons {a b : Char} {as : List Char} (h : (a :: as).getLast? ≠ some b) :
    as.getLast? ≠ some b := by
  intro hlast
  rw [List.getLast?_cons, hlast] at h
  exact h rfl

/-- Where the joining makes no opening, joined texts are made literal each by itself. -/
theorem escapeChars_append {as bs : List Char} (h : as.getLast? ≠ some '$' ∨ bs.head? ≠ some '{') :
    escapeChars (as ++ bs) = escapeChars as ++ escapeChars bs := by
  induction as using openings_induct with
  | nil => rfl
  | opening as ih =>
      have has := h.imp_left fun hlast => getLast?_ne_of_cons (getLast?_ne_of_cons hlast)
      rw [List.cons_append, List.cons_append, escapeChars_opening, escapeChars_opening, ih has]
      rfl
  | cons c as hc ih =>
      have has := h.imp_left getLast?_ne_of_cons
      have hjoined : ¬(c = '$' ∧ (as ++ bs).head? = some '{') := by
        rintro ⟨rfl, hhead⟩
        cases as with
        | nil => exact h.elim (fun hlast => hlast rfl) fun hb => hb hhead
        | cons a as => exact hc ⟨rfl, hhead⟩
      rw [List.cons_append, escapeChars_cons hjoined, escapeChars_cons hc, ih has, List.cons_append]

/-- An opening that the joining makes gets a mark that neither text has. -/
theorem length_escapeChars_joined (as bs : List Char) :
    (escapeChars (as ++ '$' :: '{' :: bs)).length =
      (escapeChars (as ++ ['$']) ++ escapeChars ('{' :: bs)).length + 1 := by
  have hjoined : escapeChars (as ++ '$' :: '{' :: bs) = escapeChars as ++ '$' :: '{' :: '!' :: escapeChars bs := by
    rw [escapeChars_append (.inr (by simp)), escapeChars_opening]
  have hdollar : escapeChars (as ++ ['$']) = escapeChars as ++ ['$'] := escapeChars_append (.inr (by simp))
  have hbrace : escapeChars ('{' :: bs) = '{' :: escapeChars bs := escapeChars_cons fun h => absurd h.1 (by decide)
  rw [hjoined, hdollar, hbrace]
  simp only [List.length_append, List.length_cons, List.length_nil]
  omega

theorem escape_append_iff (a b : String) :
    escape (a ++ b) = escape a ++ escape b ↔ a.toList.getLast? ≠ some '$' ∨ b.toList.head? ≠ some '{' := by
  rw [escape, escape, escape, String.toList_append, ← String.ofList_append, String.ofList_inj]
  refine ⟨fun h => ?_, escapeChars_append⟩
  by_contra hno
  obtain ⟨hlast, hhead⟩ := not_or.mp hno
  obtain ⟨as, has⟩ := List.getLast?_eq_some_iff.mp (not_not.mp hlast)
  obtain ⟨bs, hbs⟩ := List.head?_eq_some_iff.mp (not_not.mp hhead)
  rw [has, hbs, List.append_assoc, List.singleton_append] at h
  have hlength := congrArg List.length h
  rw [length_escapeChars_joined] at hlength
  exact Nat.succ_ne_self _ hlength

/-! ## The pieces of a literal text -/

/-- A piece that refers to nothing, and hides nothing that does. -/
def isDead : Piece → Bool
  | .plain _ => true
  | .hole body => Piece.isLiteral body
  | .unclosed body => Piece.isLiteral body

theorem all_addPlain {p : Piece → Bool} (hp : ∀ cs, p (.plain cs) = true) (c : Char) (ps : List Piece) :
    (addPlain c ps).all p = ps.all p := by
  match ps with
  | .plain _ :: _ => simp [addPlain, hp]
  | [] | .hole _ :: _ | .unclosed _ :: _ => simp [addPlain, hp]

@[simp] theorem live_addPlain (c : Char) (ps : List Piece) : live (addPlain c ps) = live ps := by
  match ps with
  | [] | .plain _ :: _ | .hole _ :: _ | .unclosed _ :: _ => rfl

theorem bodyPieces_cons {c : Char} (hc : c ≠ '}') (cs : List Char) :
    bodyPieces (c :: cs) = addBody c (bodyPieces cs) := by
  rw [bodyPieces]
  exact hc

@[simp] theorem tail_addBody (c : Char) (ps : List Piece) : (addBody c ps).tail = ps.tail := by
  match ps with
  | [] | .plain _ :: _ | .hole _ :: _ | .unclosed _ :: _ => rfl

@[simp] theorem all_isEnded_addBody (c : Char) (ps : List Piece) : (addBody c ps).all isEnded = ps.all isEnded := by
  match ps with
  | [] | .plain _ :: _ | .hole _ :: _ | .unclosed _ :: _ => rfl

theorem all_isDead_literal (ps : List Piece) (h : ps.tail.all isDead = true) : (addBody '!' ps).all isDead = true := by
  match ps with
  | [] => rfl
  | .plain _ :: ps => exact h
  | .hole body :: ps => exact h
  | .unclosed body :: ps => exact h

/-- The scan of an escaped text, from outside a hole and from within the body of one. -/
theorem scan_escapeChars (cs : List Char) :
    ((pieces (escapeChars cs)).all isDead = true ∧
        (pieces (escapeChars cs)).all isEnded = (pieces cs).all isEnded) ∧
      (bodyPieces (escapeChars cs)).tail.all isDead = true ∧
        (bodyPieces (escapeChars cs)).all isEnded = (bodyPieces cs).all isEnded := by
  -- both scans at once: an opening leads from the first to the second, a closing brace back
  induction cs using openings_induct with
  | nil => exact ⟨⟨rfl, rfl⟩, rfl, rfl⟩
  | opening cs ih =>
      obtain ⟨-, hdead, hended⟩ := ih
      rw [escapeChars_opening, pieces_opening, pieces_opening, bodyPieces_cons (c := '$') (by decide),
        bodyPieces_cons (c := '{') (by decide), bodyPieces_cons (c := '!') (by decide),
        bodyPieces_cons (c := '$') (by decide), bodyPieces_cons (c := '{') (by decide)]
      simp [all_isDead_literal _ hdead, hdead, hended]
  | cons c cs h ih =>
      obtain ⟨⟨hdead, hended⟩, hdead', hended'⟩ := ih
      have h' : ¬(c = '$' ∧ (escapeChars cs).head? = some '{') := by rwa [head?_escapeChars]
      rw [escapeChars_cons h, pieces_cons h, pieces_cons h', all_addPlain fun _ => rfl, all_addPlain fun _ => rfl,
        all_addPlain fun _ => rfl]
      refine ⟨⟨hdead, hended⟩, ?_⟩
      by_cases hc : c = '}'
      · subst hc
        simp [bodyPieces, isEnded, hdead, hended]
      · rw [bodyPieces_cons hc, bodyPieces_cons hc]
        simp [hdead', hended']

theorem isDead_of_escape {text : String} {p : Piece} (hp : p ∈ pieces (escape text).toList) : isDead p = true := by
  rw [escape, String.toList_ofList] at hp
  exact List.all_eq_true.mp (scan_escapeChars text.toList).1.1 p hp

theorem placeholders_escape (text : String) : placeholders (escape text) = [] := by
  refine List.filterMap_eq_nil_iff.mpr fun p hp => ?_
  have hp : isDead p = true := isDead_of_escape hp
  cases p with
  | plain _ | unclosed _ => rfl
  | hole body =>
      have hl : Piece.isLiteral body = true := hp
      rw [Piece.live?, if_pos hl, Option.map_none]

/-- A literal text is closed where it was. -/
theorem isClosed_escape (text : String) : isClosed (escape text) = isClosed text := by
  rw [isClosed_eq, isClosed_eq, escape, String.toList_ofList]
  exact (scan_escapeChars text.toList).1.2

end Shorthand.Template
