import Shorthand.Proofs.Json
import Shorthand.Proofs.Literal

/-!
# Scanning a joined text

A text that is joined from stretches is scanned stretch by stretch: each finds its live holes, and leaves the scan
outside any hole or within a literal one. Only a literal hole that is never closed leads from the first to the
second, and what follows it is hidden up to the next closing brace.
-/
namespace Shorthand.Template

/-! ## The scan from within a literal hole -/

/-- The live holes of what remains of a text, from outside any hole or from within a literal one. -/
def liveFrom (inside : Bool) (cs : List Char) : List String :=
  if inside then live (bodyPieces cs).tail else live (pieces cs)

@[simp] theorem live_addBody_literal (ps : List Piece) : live (addBody '!' ps) = live ps.tail := by
  match ps with
  | [] | .plain _ :: _ | .hole _ :: _ | .unclosed _ :: _ => rfl

theorem liveFrom_nil (inside : Bool) : liveFrom inside [] = [] := by
  cases inside <;> rfl

theorem liveFrom_cons {c : Char} {cs : List Char} (h : ¬(c = '$' ∧ cs.head? = some '{')) :
    liveFrom false (c :: cs) = liveFrom false cs := by
  simp [liveFrom, pieces_cons h]

theorem liveFrom_inside {c : Char} (hc : c ≠ '}') (cs : List Char) :
    liveFrom true (c :: cs) = liveFrom true cs := by
  simp [liveFrom, bodyPieces_cons hc]

theorem liveFrom_closing (cs : List Char) : liveFrom true ('}' :: cs) = liveFrom false cs := by
  simp [liveFrom, bodyPieces]

theorem liveFrom_literal (cs : List Char) : liveFrom false ('$' :: '{' :: '!' :: cs) = liveFrom true cs := by
  simp [liveFrom, pieces_opening, bodyPieces_cons]

theorem liveFrom_hole {body : List Char} (h : '}' ∉ body) (hb : Piece.isLiteral body = false) (cs : List Char) :
    liveFrom false ('$' :: '{' :: (body ++ '}' :: cs)) = String.ofList body :: liveFrom false cs := by
  simp [liveFrom, pieces_opening, bodyPieces_closed h, live, Piece.live?, hb]

/-! ## Stretches of a text -/

/-- A stretch of text, whatever follows it: the live holes found in it, and how it leaves the scan. -/
def Passes (u : List Char) (inside : Bool) (found : List String) (after : Bool) : Prop :=
  ∀ rest, liveFrom inside (u ++ rest) = found ++ liveFrom after rest

theorem Passes.append {u v : List Char} {inside between after : Bool} {found more : List String}
    (h : Passes u inside found between) (h' : Passes v between more after) :
    Passes (u ++ v) inside (found ++ more) after := by
  intro rest
  rw [List.append_assoc, h, h', List.append_assoc]

/-- From within a literal hole a stretch finds no more than from outside, and stays there without a brace. -/
theorem passes_inside {u : List Char} (h : '}' ∉ u) : Passes u true [] true := by
  intro rest
  induction u with
  | nil => rfl
  | cons c u ih =>
      simp only [List.mem_cons, not_or] at h
      rw [List.cons_append, liveFrom_inside (Ne.symm h.1), ih h.2]

theorem passes_closing {u : List Char} (h : '}' ∉ u) : Passes (u ++ ['}']) true [] false := by
  have hclose : Passes ['}'] true [] false := liveFrom_closing
  exact (passes_inside h).append hclose

/-- A stretch that brings these live holes into a text. From within a literal hole some of them are hidden; from
outside all are found, and no hole is left open, if the stretch is closed. -/
structure Scans (u : List Char) (bodies : List String) (closed : Prop) : Prop where
  any : ∀ inside, ∃ found after, found.Sublist bodies ∧ Passes u inside found after
  outside : closed → Passes u false bodies false

namespace Scans
variable {u v : List Char} {bodies more : List String} {p q : Prop}

theorem append (h : Scans u bodies p) (h' : Scans v more q) : Scans (u ++ v) (bodies ++ more) (p ∧ q) := by
  refine ⟨fun inside => ?_, fun hc => (h.outside hc.1).append (h'.outside hc.2)⟩
  obtain ⟨found, between, hs, hu⟩ := h.any inside
  obtain ⟨found', after, hs', hv⟩ := h'.any between
  exact ⟨found ++ found', after, hs.append hs', hu.append hv⟩

theorem mono (h : Scans u bodies p) (hq : q → p) : Scans u bodies q := ⟨h.any, fun hc => h.outside (hq hc)⟩

theorem placeholders (h : Scans u bodies p) :
    (live (pieces u)).Sublist bodies ∧ (p → live (pieces u) = bodies) := by
  have hall : ∀ {found after}, Passes u false found after → live (pieces u) = found := by
    intro found after hu
    have hend := hu []
    rwa [List.append_nil, liveFrom_nil, List.append_nil] at hend
  obtain ⟨found, after, hs, hu⟩ := h.any false
  exact ⟨hall hu ▸ hs, fun hc => hall (h.outside hc)⟩

/-- A character that opens no hole. -/
theorem single {c : Char} (hc : c ≠ '$') : Scans [c] [] True := by
  have houtside : Passes [c] false [] false := fun rest => liveFrom_cons fun h => hc h.1
  refine ⟨fun inside => ?_, fun _ => houtside⟩
  cases inside with
  | false => exact ⟨[], false, .refl _, houtside⟩
  | true =>
      by_cases hb : c = '}'
      · exact ⟨[], false, .refl _, hb ▸ liveFrom_closing⟩
      · exact ⟨[], true, .refl _, liveFrom_inside hb⟩

theorem nil : Scans [] [] True := ⟨fun inside => ⟨[], inside, .refl _, fun _ => rfl⟩, fun _ _ => rfl⟩

theorem of_not_mem (h : '$' ∉ u) : Scans u [] True := by
  induction u with
  | nil => exact .nil
  | cons c u ih =>
      simp only [List.mem_cons, not_or] at h
      exact ((single (Ne.symm h.1)).append (ih h.2)).mono fun _ => ⟨trivial, trivial⟩

/-- A dollar that opens no hole. -/
theorem dollar (h : Scans u bodies p) (hu : ∀ rest, (u ++ rest).head? ≠ some '{') : Scans ('$' :: u) bodies p := by
  have hskip : ∀ inside rest, liveFrom inside ('$' :: (u ++ rest)) = liveFrom inside (u ++ rest) := by
    intro inside rest
    cases inside with
    | false => exact liveFrom_cons fun hc => hu rest hc.2
    | true => exact liveFrom_inside (by decide) _
  refine ⟨fun inside => ?_, fun hc rest => (hskip false rest).trans (h.outside hc rest)⟩
  obtain ⟨found, after, hs, hp⟩ := h.any inside
  exact ⟨found, after, hs, fun rest => (hskip inside rest).trans (hp rest)⟩

theorem hole {body : List Char} (h : '}' ∉ body) (hb : Piece.isLiteral body = false) :
    Scans ('$' :: '{' :: (body ++ ['}'])) [String.ofList body] True := by
  have houtside : Passes ('$' :: '{' :: (body ++ ['}'])) false [String.ofList body] false := by
    intro rest
    simpa using liveFrom_hole h hb rest
  refine ⟨fun inside => ?_, fun _ => houtside⟩
  cases inside with
  | false => exact ⟨_, false, .refl _, houtside⟩
  | true => exact ⟨[], false, List.nil_sublist _, passes_closing (u := '$' :: '{' :: body) (by simpa using h)⟩

theorem literal (h : '}' ∉ u) : Scans ('$' :: '{' :: '!' :: (u ++ ['}'])) [] True := by
  have houtside : Passes ('$' :: '{' :: '!' :: (u ++ ['}'])) false [] false := fun rest =>
    (liveFrom_literal _).trans (passes_closing h rest)
  refine ⟨fun inside => ?_, fun _ => houtside⟩
  cases inside with
  | false => exact ⟨[], false, .refl _, houtside⟩
  | true => exact ⟨[], false, .refl _, passes_closing (u := '$' :: '{' :: '!' :: u) (by simpa using h)⟩

theorem unclosed (h : '}' ∉ u) : Scans ('$' :: '{' :: '!' :: u) [] False := by
  refine ⟨fun inside => ⟨[], true, .refl _, ?_⟩, False.elim⟩
  cases inside with
  | false => exact fun rest => (liveFrom_literal _).trans (passes_inside h rest)
  | true => exact passes_inside (by simpa using h)

end Scans

/-! ## Quoted templates -/

/-- The characters that JSON does not escape and that close no hole. -/
def isClean (c : Char) : Bool := 0x20 ≤ c.toNat && c ≠ '"' && c ≠ '\\' && c ≠ '}'

theorem escape_of_isClean {c : Char} (h : isClean c = true) : Json.escape c = [c] := by
  simp only [isClean, Bool.and_eq_true, decide_eq_true_eq] at h
  obtain ⟨⟨⟨hlow, hquote⟩, hslash⟩, -⟩ := h
  have hne : ∀ d : Char, d.toNat < 0x20 → c ≠ d := by
    rintro d hd rfl
    omega
  rw [Json.escape, if_neg hquote, if_neg hslash, if_neg (hne _ (by decide)), if_neg (hne _ (by decide)),
    if_neg (hne _ (by decide)), if_neg (hne _ (by decide)), if_neg (hne _ (by decide)), if_neg (by omega)]

theorem flatMap_escape_of_isClean {cs : List Char} (h : ∀ c ∈ cs, isClean c = true) : cs.flatMap Json.escape = cs := by
  induction cs with
  | nil => rfl
  | cons c cs ih =>
      obtain ⟨hc, h⟩ := List.forall_mem_cons.mp h
      rw [List.flatMap_cons, escape_of_isClean hc, ih h, List.singleton_append]

/-- An escape brings none of the characters that open and close a hole. -/
theorem mem_escape {c d : Char} (hd : d = '$' ∨ d = '{' ∨ d = '}') (h : d ∈ Json.escape c) :
    d = c ∧ Json.escape c = [c] := by
  have hcontrol : ∀ n < 0x20, ['\\', 'u', '0', '0', Nat.digitChar (n / 16), Nat.digitChar (n % 16)].all
      (fun d => !decide (d = '$' ∨ d = '{' ∨ d = '}')) = true := by decide
  rcases Json.escape_cases c with ⟨e, he, hc⟩ | ⟨hlow, hc⟩ | ⟨-, -, -, hc⟩ <;> rw [hc] at h
  · rcases List.mem_pair.mp h with rfl | rfl
    · exact absurd hd (by decide)
    · rcases hd with rfl | rfl | rfl <;> cases he
  · have hno := List.all_eq_true.mp (hcontrol _ hlow) d h
    rw [decide_eq_true hd] at hno
    cases hno
  · exact ⟨List.mem_singleton.mp h, hc⟩

theorem not_mem_flatMap_escape {d : Char} (hd : d = '$' ∨ d = '{' ∨ d = '}') {cs : List Char} (h : d ∉ cs) :
    d ∉ cs.flatMap Json.escape := by
  intro hm
  obtain ⟨c, hc, hm⟩ := List.mem_flatMap.mp hm
  exact h ((mem_escape hd hm).1 ▸ hc)

theorem head?_flatMap_escape {cs rest : List Char} (h : (cs.flatMap Json.escape ++ '"' :: rest).head? = some '{') :
    cs.head? = some '{' := by
  cases cs with
  | nil => exact absurd h (by simp)
  | cons c cs =>
      rw [List.flatMap_cons, List.append_assoc] at h
      have hm : '{' ∈ Json.escape c := by
        cases he : Json.escape c with
        | nil => rcases Json.escape_cases c with ⟨_, -, hc⟩ | ⟨-, hc⟩ | ⟨-, -, -, hc⟩ <;> simp [hc] at he
        | cons d ds =>
            rw [he, List.cons_append] at h
            exact Option.some.inj h ▸ List.mem_cons_self
      exact congrArg some (mem_escape (.inr (.inl rfl)) hm).1.symm

/-- A piece whose hole is found in the quoted text as it is here, or is found in neither. -/
def isSafe : Piece → Bool
  | .plain _ => true
  | .hole body => Piece.isLiteral body || body.all isClean
  | .unclosed body => Piece.isLiteral body

theorem isLiteral_iff {body : List Char} : Piece.isLiteral body = true ↔ ∃ more, body = '!' :: more := by
  rw [Piece.isLiteral, beq_iff_eq]
  exact List.head?_eq_some_iff

theorem scans_pieces {ps : List Piece} (h : Scanned ps) (hs : ps.all isSafe = true) :
    Scans ((chars ps).flatMap Json.escape ++ ['"']) (live ps) (ps.all isEnded = true) := by
  induction h with
  | nil => exact (Scans.single (by decide)).mono fun _ => trivial
  | @plain c ps hc _ ih =>
      rw [all_addPlain fun _ => rfl] at hs ⊢
      have ih := ih hs
      rw [chars_addPlain, live_addPlain, List.flatMap_cons, List.append_assoc]
      by_cases hd : c = '$'
      · -- no escape begins with a brace, so that a lone dollar stays alone
        subst hd
        refine ih.dollar fun rest hr => hc ⟨rfl, ?_⟩
        rw [List.append_assoc] at hr
        exact head?_flatMap_escape hr
      · have hno : '$' ∉ Json.escape c := fun hm => hd (mem_escape (.inl rfl) hm).1.symm
        exact ((Scans.of_not_mem hno).append ih).mono fun hc => ⟨trivial, hc⟩
  | @hole body ps hb _ ih =>
      rw [List.all_cons, Bool.and_eq_true, isSafe, Bool.or_eq_true] at hs
      have ih := ih hs.2
      have hquoted : (chars (.hole body :: ps)).flatMap Json.escape ++ ['"'] =
          '$' :: '{' :: (body.flatMap Json.escape ++ ['}']) ++ ((chars ps).flatMap Json.escape ++ ['"']) := by
        simp [Piece.chars, Json.escape]
      have hall : (Piece.hole body :: ps).all isEnded = ps.all isEnded := rfl
      rw [hquoted, hall]
      cases hl : Piece.isLiteral body with
      | true =>
          obtain ⟨more, rfl⟩ := isLiteral_iff.mp hl
          have hlive : live (.hole ('!' :: more) :: ps) = [] ++ live ps := by simp [live, Piece.live?, hl]
          have hmore : '}' ∉ more.flatMap Json.escape :=
            not_mem_flatMap_escape (.inr (.inr rfl)) fun hm => hb (List.mem_cons_of_mem _ hm)
          rw [hlive, List.flatMap_cons, escape_of_isClean (by decide), List.singleton_append]
          exact ((Scans.literal hmore).append ih).mono fun hc => ⟨trivial, hc⟩
      | false =>
          -- a live body is quoted as it is, and found under its own name
          have hclean := hs.1.resolve_left (by simp [hl])
          have hlive : live (.hole body :: ps) = [String.ofList body] ++ live ps := by
            simp [live, Piece.live?, hl]
          rw [hlive, flatMap_escape_of_isClean fun c hc => List.all_eq_true.mp hclean c hc]
          exact ((Scans.hole hb hl).append ih).mono fun hc => ⟨trivial, hc⟩
  | @unclosed body hb =>
      rw [List.all_cons, Bool.and_eq_true, isSafe] at hs
      obtain ⟨more, rfl⟩ := isLiteral_iff.mp hs.1
      have hmore : '}' ∉ more.flatMap Json.escape ++ ['"'] := by
        have := not_mem_flatMap_escape (.inr (.inr rfl)) fun hm => hb (List.mem_cons_of_mem _ hm)
        simpa using this
      have hquoted : (chars [.unclosed ('!' :: more)]).flatMap Json.escape ++ ['"'] =
          '$' :: '{' :: '!' :: (more.flatMap Json.escape ++ ['"']) := by
        simp [Piece.chars, Json.escape]
      rw [hquoted]
      refine (Scans.unclosed hmore).mono fun hc => ?_
      cases hc

/-- The quoted form of a template brings the placeholders of the template into a text. -/
theorem scans_quoted {s : String} (hs : (pieces s.toList).all isSafe = true) :
    Scans (Json.quoted s) (placeholders s) (isClosed s = true) := by
  have h := (Scans.single (c := '"') (by decide)).append (scans_pieces (scanned_pieces s.toList) hs)
  rw [chars_pieces] at h
  exact h.mono fun hc => ⟨trivial, hc⟩

theorem all_isSafe_escape (s : String) : (pieces (escape s).toList).all isSafe = true := by
  refine List.all_eq_true.mpr fun p hp => ?_
  have hp : isDead p = true := isDead_of_escape hp
  cases p with
  | plain _ => rfl
  | hole body => exact (Bool.or_eq_true _ _).mpr (.inl hp)
  | unclosed body => exact hp

theorem scans_literal (s : String) : Scans (Json.quoted (escape s)) [] (isClosed s = true) := by
  rw [← placeholders_escape s, ← isClosed_escape]
  exact scans_quoted (all_isSafe_escape s)

end Shorthand.Template
