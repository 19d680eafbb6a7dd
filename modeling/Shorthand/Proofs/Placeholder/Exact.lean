import Shorthand.Proofs.Literal

/-!
# What a rewriting does, exactly

A scan from the left cuts a text at the first opening and at the first closing brace after it, and goes on behind the
brace. What stands between the placeholders that it finds are stretches that no rewriting touches: a rewriting hands
the placeholders to its visits, one after another, and puts what they answer between the same stretches. It fails where
a visit fails, or at the end where a hole is not closed.
-/
namespace Shorthand.Template

/-! ## The cut of a text -/

/-- The scan of a text: it finds a first stretch, then placeholders with a stretch after each, and the last hole
closed or not. -/
inductive Cut : List Char → List Char → List String → List (List Char) → Bool → Prop
  | nil : Cut [] [] [] [] true
  | char {c : Char} {cs first : List Char} {bodies : List String} {nexts : List (List Char)} {closed : Bool}
      (hc : ¬(c = '$' ∧ cs.head? = some '{')) (h : Cut cs first bodies nexts closed) :
      Cut (c :: cs) (c :: first) bodies nexts closed
  | literal {body cs first : List Char} {bodies : List String} {nexts : List (List Char)} {closed : Bool}
      (hb : '}' ∉ body) (hl : Piece.isLiteral body = true) (h : Cut cs first bodies nexts closed) :
      Cut ((Piece.hole body).chars ++ cs) ((Piece.hole body).chars ++ first) bodies nexts closed
  | live {body cs first : List Char} {bodies : List String} {nexts : List (List Char)} {closed : Bool}
      (hb : '}' ∉ body) (hl : Piece.isLiteral body = false) (h : Cut cs first bodies nexts closed) :
      Cut ((Piece.hole body).chars ++ cs) [] (String.ofList body :: bodies) (first :: nexts) closed
  | unclosed {body : List Char} (hb : '}' ∉ body) :
      Cut (Piece.unclosed body).chars (Piece.unclosed body).chars [] [] false

/-- A stretch of text, then bodies in braces, each with the stretch that follows it. -/
def weave (first : List Char) : List String → List (List Char) → List Char
  | body :: bodies, next :: nexts => first ++ ((Piece.hole body.toList).chars ++ weave next bodies nexts)
  | _, _ => first

theorem weave_append (cs first : List Char) (bodies : List String) (nexts : List (List Char)) :
    weave (cs ++ first) bodies nexts = cs ++ weave first bodies nexts := by
  fun_cases weave first bodies nexts <;> simp_all [weave]

theorem weave_cons (c : Char) (first : List Char) (bodies : List String) (nexts : List (List Char)) :
    weave (c :: first) bodies nexts = c :: weave first bodies nexts :=
  weave_append [c] first bodies nexts

theorem Scanned.exists_cut {ps : List Piece} (h : Scanned ps) :
    ∃ first bodies nexts closed, Cut (chars ps) first bodies nexts closed := by
  induction h with
  | nil => exact ⟨_, _, _, _, .nil⟩
  | plain hc _ ih =>
      obtain ⟨_, _, _, _, h⟩ := ih
      rw [chars_addPlain]
      exact ⟨_, _, _, _, .char hc h⟩
  | @hole body _ hb _ ih =>
      obtain ⟨_, _, _, _, h⟩ := ih
      rw [chars_cons]
      cases hl : Piece.isLiteral body with
      | true => exact ⟨_, _, _, _, .literal hb hl h⟩
      | false => exact ⟨_, _, _, _, .live hb hl h⟩
  | unclosed hb =>
      rw [chars_cons, chars_nil, List.append_nil]
      exact ⟨_, _, _, _, .unclosed hb⟩

/-! ### Holes that are not closed -/

/-- Behind some opening there is no closing brace. -/
def OpensLast (cs : List Char) : Prop := ∃ body, '$' :: '{' :: body <:+ cs ∧ '}' ∉ body

theorem suffix_of_not_mem {sep : Char} {cs as bs : List Char} (h : sep ∉ cs) (hs : cs <:+ as ++ sep :: bs) :
    cs <:+ bs := by
  induction as with
  | nil =>
      rcases List.suffix_cons_iff.mp hs with rfl | hs
      · exact absurd List.mem_cons_self h
      · exact hs
  | cons a as ih =>
      rcases List.suffix_cons_iff.mp hs with rfl | hs
      · exact absurd (by simp) h
      · exact ih hs

theorem opensLast_cons {c : Char} {cs : List Char} (hc : ¬(c = '$' ∧ cs.head? = some '{')) :
    OpensLast (c :: cs) ↔ OpensLast cs := by
  refine exists_congr fun body => and_congr_left fun _ => ?_
  rw [List.suffix_cons_iff, or_iff_right]
  intro he
  obtain ⟨rfl, rfl⟩ := List.cons.inj he
  exact hc ⟨rfl, rfl⟩

/-- An opening with no brace behind it stands behind every hole that is closed. -/
theorem opensLast_hole (old cs : List Char) : OpensLast ((Piece.hole old).chars ++ cs) ↔ OpensLast cs := by
  refine exists_congr fun body => and_congr_left fun hbody =>
    ⟨fun hs => ?_, fun hs => hs.trans (List.suffix_append _ _)⟩
  have hopening : '}' ∉ '$' :: '{' :: body := by simp [hbody]
  have hs : '$' :: '{' :: body <:+ '$' :: '{' :: old ++ '}' :: cs := by simpa [Piece.chars] using hs
  exact suffix_of_not_mem hopening hs

namespace Cut
variable {cs first : List Char} {bodies news : List String} {nexts : List (List Char)} {closed : Bool}

theorem length_eq (h : Cut cs first bodies nexts closed) : nexts.length = bodies.length := by
  induction h with
  | nil | unclosed _ => rfl
  | char _ _ ih => exact ih
  | literal _ _ _ ih => exact ih
  | live _ _ _ ih => rw [List.length_cons, List.length_cons, ih]

theorem eq_weave (h : Cut cs first bodies nexts closed) : cs = weave first bodies nexts := by
  induction h with
  | nil | unclosed _ => rfl
  | char _ _ ih => rw [weave_cons, ← ih]
  | literal _ _ _ ih => rw [weave_append, ← ih]
  | live _ _ _ ih => rw [weave, String.toList_ofList, ← ih, List.nil_append]

theorem live_pieces (h : Cut cs first bodies nexts closed) : Template.live (pieces cs) = bodies := by
  induction h with
  | nil => rfl
  | char hc _ ih => rw [pieces_cons hc, live_addPlain, ih]
  | literal hb hl _ ih => rw [pieces_hole_append hb, live_literal hl, ih]
  | live hb hl _ ih => rw [pieces_hole_append hb, live_hole hl, ih]
  | unclosed hb => rw [pieces_unclosed hb]; rfl

theorem all_isEnded (h : Cut cs first bodies nexts closed) : (pieces cs).all isEnded = closed := by
  induction h with
  | nil => rfl
  | char hc _ ih => rw [pieces_cons hc, all_addPlain fun _ => rfl, ih]
  | literal hb _ _ ih => rw [pieces_hole_append hb, List.all_cons, ih]; rfl
  | live hb _ _ ih => rw [pieces_hole_append hb, List.all_cons, ih]; rfl
  | unclosed hb => rw [pieces_unclosed hb]; rfl

/-- No body closes its own hole, or makes it literal. -/
theorem plainBody (h : Cut cs first bodies nexts closed) : ∀ body ∈ bodies, PlainBody body.toList := by
  induction h with
  | nil | unclosed _ => simp
  | char _ _ ih => exact ih
  | literal _ _ _ ih => exact ih
  | live hb hl _ ih => exact List.forall_mem_cons.mpr ⟨by rw [String.toList_ofList]; exact ⟨hb, hl⟩, ih⟩

/-- A hole is left open just if there is an opening with no closing brace behind it. -/
theorem unclosed_iff (h : Cut cs first bodies nexts closed) : closed = false ↔ OpensLast cs := by
  induction h with
  | nil => simp [OpensLast]
  | char hc _ ih => exact ih.trans (opensLast_cons hc).symm
  | literal _ _ _ ih => exact ih.trans (opensLast_hole _ _).symm
  | live _ _ _ ih => exact ih.trans (opensLast_hole _ _).symm
  | @unclosed body hb => exact ⟨fun _ => ⟨body, List.suffix_refl _, hb⟩, fun _ => rfl⟩

theorem closed_iff (h : Cut cs first bodies nexts closed) : closed = true ↔ ¬ OpensLast cs := by
  rw [← h.unclosed_iff, Bool.not_eq_false]

/-! ### A text with other bodies -/

theorem head?_weave (h : Cut cs first bodies nexts closed) (hlen : news.length = bodies.length) :
    (weave first news nexts).head? = cs.head? := by
  cases h with
  | nil | unclosed _ =>
      obtain rfl := List.length_eq_zero_iff.mp hlen
      rfl
  | char _ _ => rw [weave_cons, List.head?_cons, List.head?_cons]
  | literal _ _ _ => rw [weave_append]; rfl
  | live _ _ _ =>
      obtain ⟨new, news, rfl⟩ := List.exists_cons_of_length_eq_add_one hlen
      rfl

/-- Plain bodies between the same stretches are what a scan of the new text finds. -/
theorem refill (h : Cut cs first bodies nexts closed) (hlen : news.length = bodies.length)
    (hn : ∀ new ∈ news, PlainBody new.toList) : Cut (weave first news nexts) first news nexts closed := by
  induction h generalizing news with
  | nil =>
      obtain rfl := List.length_eq_zero_iff.mp hlen
      exact .nil
  | char hc h ih =>
      rw [weave_cons]
      exact .char (by rwa [h.head?_weave hlen]) (ih hlen hn)
  | literal hb hl _ ih =>
      rw [weave_append]
      exact .literal hb hl (ih hlen hn)
  | live _ _ _ ih =>
      obtain ⟨new, news, rfl⟩ := List.exists_cons_of_length_eq_add_one hlen
      obtain ⟨hnew, hn⟩ := List.forall_mem_cons.mp hn
      have hcut := Cut.live hnew.1 hnew.2 (ih (Nat.succ.inj hlen) hn)
      rwa [String.ofList_toList] at hcut
  | unclosed hb =>
      obtain rfl := List.length_eq_zero_iff.mp hlen
      exact .unclosed hb

end Cut

/-! ## Runs over a cut text -/

section
variable {σ : Type} {template : String} {visit : String → σ → Except Error (Option String) × σ}
  {cs first : List Char} {bodies news : List String} {nexts : List (List Char)} {closed : Bool} {s s₁ s' : σ}

namespace Cut

/-- The answers stand between the old stretches, if no hole is left open. -/
theorem rewritePieces_of_visits (h : Cut cs first bodies nexts closed) (hv : Visits visit bodies s news s') :
    rewritePieces template visit (pieces cs) s =
      (if closed then .ok (weave first news nexts) else .error (unclosedError template), s') := by
  induction h generalizing s news with
  | nil =>
      cases hv
      rfl
  | @char _ _ _ _ _ closed hc _ ih =>
      rw [pieces_cons hc, rewritePieces_addPlain, ih hv, weave_cons]
      cases closed <;> rfl
  | @literal _ _ _ _ _ closed hb hl _ ih =>
      rw [pieces_hole_append hb, rewritePieces_literal hl, ih hv, weave_append]
      cases closed <;> rfl
  | @live _ _ _ _ _ closed hb hl _ ih =>
      cases hv with
      | cons ha hvs =>
          rw [pieces_hole_append hb, rewritePieces_live hl ha, ih hvs]
          cases closed <;> rfl
  | unclosed hb =>
      cases hv
      rw [pieces_unclosed hb]
      rfl

/-- The first visit that fails ends the rewriting. -/
theorem rewritePieces_of_error (h : Cut cs first bodies nexts closed) {before after : List String} {body : String}
    {e : Error} (hbodies : bodies = before ++ body :: after) (hv : Visits visit before s news s₁)
    (he : visit body s₁ = (.error e, s')) : rewritePieces template visit (pieces cs) s = (.error e, s') := by
  induction h generalizing s before news with
  | nil | unclosed _ => cases before <;> cases hbodies
  | char hc _ ih =>
      rw [pieces_cons hc, rewritePieces_addPlain, ih hbodies hv]
      rfl
  | literal hb hl _ ih =>
      rw [pieces_hole_append hb, rewritePieces_literal hl, ih hbodies hv]
      rfl
  | live hb hl _ ih =>
      rw [pieces_hole_append hb]
      cases hv with
      | nil =>
          obtain ⟨rfl, -⟩ := List.cons.inj hbodies
          rw [rewritePieces_refused hl he]
      | cons ha hvs =>
          obtain ⟨rfl, hrest⟩ := List.cons.inj hbodies
          rw [rewritePieces_live hl ha, ih hrest hvs]
          rfl

end Cut

end

/-! ## Visits -/

section
variable {σ : Type} {visit : String → σ → Except Error (Option String) × σ} {bodies news : List String} {s s' : σ}

theorem Visits.length_eq (h : Visits visit bodies s news s') : news.length = bodies.length := by
  induction h with
  | nil => rfl
  | cons _ _ ih => rw [List.length_cons, List.length_cons, ih]

/-- All visits give an answer, or one of them is the first to fail. -/
theorem visits_or_error (visit : String → σ → Except Error (Option String) × σ) (bodies : List String) (s : σ) :
    (∃ news s', Visits visit bodies s news s') ∨
      ∃ before body after news s₁ e s', bodies = before ++ body :: after ∧ Visits visit before s news s₁ ∧
        visit body s₁ = (.error e, s') := by
  induction bodies generalizing s with
  | nil => exact .inl ⟨[], s, .nil s⟩
  | cons body bodies ih =>
      cases hv : visit body s with
      | mk result s₁ =>
          cases result with
          | error e => exact .inr ⟨[], body, bodies, [], s, e, s₁, rfl, .nil s, hv⟩
          | ok answer =>
              rcases ih s₁ with ⟨news, s', h⟩ | ⟨before, body', after, news, s₂, e, s', rfl, h, he⟩
              · exact .inl ⟨_, s', .cons hv h⟩
              · exact .inr ⟨body :: before, body', after, _, s₂, e, s', rfl, .cons hv h, he⟩

/-- Visits that write down what they are handed. -/
def noted (visit : String → σ → Except Error (Option String) × σ) (body : String) :
    List String × σ → Except Error (Option String) × (List String × σ)
  | (seen, s) => ((visit body s).1, (seen ++ [body], (visit body s).2))

theorem noted_eq {body : String} {result : Except Error (Option String)} (h : visit body s = (result, s'))
    (seen : List String) : noted visit body (seen, s) = (result, (seen ++ [body], s')) := by
  rw [noted, h]

theorem Visits.noted (h : Visits visit bodies s news s') (seen : List String) :
    Visits (noted visit) bodies (seen, s) news (seen ++ bodies, s') := by
  induction h generalizing seen with
  | nil s =>
      rw [List.append_nil]
      exact .nil _
  | @cons body _ _ _ _ _ _ ha _ ih =>
      have hrest := ih (seen ++ [body])
      rw [List.append_assoc, List.singleton_append] at hrest
      exact .cons (noted_eq ha seen) hrest

/-- Where every answer is to keep the body, nothing new comes of it. -/
theorem Visits.eq_of_kept (h : Visits visit bodies s news s') (hk : ∀ body s, (visit body s).1 = .ok none) :
    news = bodies := by
  induction h with
  | nil => rfl
  | @cons body answer _ _ s _ _ ha _ ih =>
      have hnone := hk body s
      rw [ha] at hnone
      obtain rfl := Except.ok.inj hnone
      rw [ih, Option.getD_none]

end

/-! ## The rewriting of a template -/

section
variable {σ : Type} {visit : String → σ → Except Error (Option String) × σ} {template : String}
  {first : List Char} {nexts : List (List Char)} {closed : Bool} {news : List String} {s s' : σ}

/-- A rewriting comes to a result and leaves a state, having handed its visits these bodies in this order. -/
structure Runs {σ : Type} (visit : String → σ → Except Error (Option String) × σ) (template : String) (s : σ)
    (result : Except Error String) (seen : List String) (s' : σ) : Prop where
  eq : rewriteWith visit template s = (result, s')
  trace : rewriteWith (noted visit) template ([], s) = (result, (seen, s'))

/-- A rewriting that keeps every body leaves the template as it is. -/
def IsKept (template : String) : Prop :=
  ∀ (σ : Type) (visit : String → σ → Except Error (Option String) × σ) (s : σ),
    (∀ body s, (visit body s).1 = .ok none) → (rewriteWith visit template s).1 = .ok template

/-- What comes of a template whose placeholders get these new bodies, by the stretches between them. -/
structure Replaces {σ : Type} (visit : String → σ → Except Error (Option String) × σ) (template : String)
    (first : List Char) (nexts : List (List Char)) (s : σ) (news : List String) (s' : σ) : Prop where
  visits : Visits visit (placeholders template) s news s'
  unclosed : OpensLast template.toList → Runs visit template s
    (.error (.malformed "string template" s!"unclosed placeholder in '{template}'")) (placeholders template) s'
  closed : ¬ OpensLast template.toList → ∃ out, out.toList = weave first news nexts ∧
    Runs visit template s (.ok out) (placeholders template) s' ∧
    ((∀ new ∈ news, '}' ∉ new.toList ∧ new.toList.head? ≠ some '!') → placeholders out = news ∧ IsKept out)

/-- One visit fails, after others that did not, and ends the rewriting. -/
structure Stops {σ : Type} (visit : String → σ → Except Error (Option String) × σ) (template : String) (s : σ)
    (before after : List String) (body : String) (e : Error) (s' : σ) : Prop where
  bodies : placeholders template = before ++ body :: after
  fails : ∃ news s₁, Visits visit before s news s₁ ∧ visit body s₁ = (.error e, s')
  runs : Runs visit template s (.error e) (before ++ [body]) s'

theorem isLiteral_eq_false_iff {body : List Char} : Piece.isLiteral body = false ↔ body.head? ≠ some '!' := by
  rw [Piece.isLiteral, beq_eq_false_iff_ne]

theorem Cut.placeholders_eq {bodies : List String} (h : Cut template.toList first bodies nexts closed) :
    placeholders template = bodies := by
  rw [Template.placeholders_eq, h.live_pieces]

theorem Cut.rewriteWith_of_visits (h : Cut template.toList first (placeholders template) nexts closed)
    (hv : Visits visit (placeholders template) s news s') :
    rewriteWith visit template s =
      (if closed then .ok (String.ofList (weave first news nexts)) else .error (unclosedError template), s') := by
  rw [rewriteWith, h.rewritePieces_of_visits hv]
  cases closed <;> rfl

theorem Cut.runs (h : Cut template.toList first (placeholders template) nexts closed)
    (hv : Visits visit (placeholders template) s news s') :
    Runs visit template s
      (if closed then .ok (String.ofList (weave first news nexts)) else .error (unclosedError template))
      (placeholders template) s' :=
  ⟨h.rewriteWith_of_visits hv, h.rewriteWith_of_visits (hv.noted [])⟩

theorem Cut.isKept {bodies : List String} (h : Cut template.toList first bodies nexts true) : IsKept template := by
  obtain rfl := h.placeholders_eq
  intro σ visit s hk
  rcases visits_or_error visit (placeholders template) s with ⟨news, s', hv⟩ | ⟨_, body, _, _, s₁, e, _, _, _, he⟩
  · rw [h.rewriteWith_of_visits hv, hv.eq_of_kept hk, ← h.eq_weave, String.ofList_toList]
    rfl
  · have hnone := hk body s₁
    rw [he] at hnone
    cases hnone

theorem Cut.replaces (h : Cut template.toList first (placeholders template) nexts closed)
    (hv : Visits visit (placeholders template) s news s') : Replaces visit template first nexts s news s' := by
  refine ⟨hv, fun hopen => ?_, fun hopen => ?_⟩
  · have hruns := h.runs hv
    rw [h.unclosed_iff.mpr hopen] at hruns
    exact hruns
  · obtain rfl := h.closed_iff.mpr hopen
    refine ⟨String.ofList (weave first news nexts), String.toList_ofList, h.runs hv, fun hn => ?_⟩
    have hnew : Cut (String.ofList (weave first news nexts)).toList first news nexts true := by
      rw [String.toList_ofList]
      exact h.refill hv.length_eq fun new hm => ⟨(hn new hm).1, isLiteral_eq_false_iff.mpr (hn new hm).2⟩
    exact ⟨hnew.placeholders_eq, hnew.isKept⟩

theorem Cut.stops (h : Cut template.toList first (placeholders template) nexts closed) {before after : List String}
    {body : String} {s₁ : σ} {e : Error} (hbodies : placeholders template = before ++ body :: after)
    (hv : Visits visit before s news s₁) (he : visit body s₁ = (.error e, s')) :
    Stops visit template s before after body e s' := by
  refine ⟨hbodies, ⟨news, s₁, hv, he⟩, ?_, ?_⟩
  · rw [rewriteWith, h.rewritePieces_of_error hbodies hv he]
  · rw [rewriteWith, h.rewritePieces_of_error hbodies (hv.noted []) (noted_eq he _), List.nil_append]

end

/-- Every rewriting of a template, by the stretches of text that a scan finds between its placeholders. The visits get
the placeholders, each once and in order, until one of them fails; the answers take the places of the placeholders, and
the stretches stay. -/
theorem rewriting_exact (template : String) :
    ∃ first nexts closed, Cut template.toList first (placeholders template) nexts closed ∧
      nexts.length = (placeholders template).length ∧ template.toList = weave first (placeholders template) nexts ∧
      (∀ body ∈ placeholders template, '}' ∉ body.toList ∧ body.toList.head? ≠ some '!') ∧
      (closed = false ↔ OpensLast template.toList) ∧ (¬ OpensLast template.toList → IsKept template) ∧
      ∀ (σ : Type) (visit : String → σ → Except Error (Option String) × σ) (s : σ),
        ((∀ body s, ∃ answer, (visit body s).1 = .ok answer) →
          ∃ news s', Replaces visit template first nexts s news s') ∧
        ((∃ news s', Replaces visit template first nexts s news s') ∨
          ∃ before after body e s', Stops visit template s before after body e s') := by
  obtain ⟨first, bodies, nexts, closed, h⟩ := (scanned_pieces template.toList).exists_cut
  rw [chars_pieces] at h
  obtain rfl := h.placeholders_eq
  refine ⟨first, nexts, closed, h, h.length_eq, h.eq_weave,
    fun body hm => ⟨(h.plainBody body hm).1, isLiteral_eq_false_iff.mp (h.plainBody body hm).2⟩, h.unclosed_iff,
    fun hopen => ?_, fun σ visit s => ?_⟩
  · obtain rfl := h.closed_iff.mpr hopen
    exact h.isKept
  · rcases visits_or_error visit (placeholders template) s with
      ⟨news, s', hv⟩ | ⟨before, body, after, _, s₁, e, s', hbodies, hv, he⟩
    · exact ⟨fun _ => ⟨news, s', h.replaces hv⟩, .inl ⟨news, s', h.replaces hv⟩⟩
    · refine ⟨fun hok => ?_, .inr ⟨before, after, body, e, s', h.stops hbodies hv he⟩⟩
      obtain ⟨answer, ha⟩ := hok body s₁
      rw [he] at ha
      cases ha

/-- Two placeholders of one body, with a literal hole between them. -/
def mixed : String := "a$\x7bX\x7d $\x7b!L\x7d$\x7bX\x7d"

/-- Visits that lengthen what they are handed, and count. -/
def lengthened (body : String) (n : Nat) : Except Error (Option String) × Nat := (.ok (some (body ++ "+")), n + 1)

theorem rewriting_exact_mixed : ∃ out, rewriteWith lengthened mixed 0 = (.ok out, 2) ∧
    rewriteWith (noted lengthened) mixed ([], 0) = (.ok out, (["X", "X"], 2)) ∧
    placeholders out = ["X+", "X+"] ∧ IsKept out := by
  obtain ⟨first, nexts, closed, hcut, -, -, -, -, -, hruns⟩ := rewriting_exact mixed
  obtain ⟨news, s', h⟩ := (hruns Nat lengthened 0).1 fun body n => ⟨some (body ++ "+"), rfl⟩
  have hbodies : placeholders mixed = ["X", "X"] := by decide +kernel
  have hclosed : ¬ OpensLast mixed.toList := hcut.closed_iff.mp (hcut.all_isEnded.symm.trans (by decide +kernel))
  obtain ⟨out, -, hout, hagain⟩ := h.closed hclosed
  have hvisits := h.visits
  rw [hbodies] at hvisits hout
  obtain ⟨rfl, rfl⟩ : news = ["X+", "X+"] ∧ s' = 2 := by
    cases hvisits with
    | cons h₁ hvisits =>
        cases h₁
        cases hvisits with
        | cons h₂ hvisits =>
            cases h₂
            cases hvisits
            exact ⟨rfl, rfl⟩
  exact ⟨out, hout.eq, hout.trace, hagain (by decide)⟩

end Shorthand.Template
