import Shorthand.Proofs.Pipeline.Variable
import Shorthand.Proofs.Text

/-!
# Occurrences of stage variables

The occurrences in a text are found from left to right and do not overlap. Rewriting puts a name in the place of
the stage and the action of each, and leaves all else as it is.
-/
namespace Shorthand

namespace Pipeline.StageVariable

/-! ## The grammar -/

/-- A name with at least one character, and none of these. -/
def IsName (barred : List Char) (name : String) : Prop := name.toList ≠ [] ∧ ∀ c ∈ barred, c ∉ name.toList

structure Valid (v : StageVariable) : Prop where
  stage : IsName ['{', '}', ':', '.'] v.stage
  action : IsName ['{', '}', '.'] v.action
  field : IsName ['{', '}'] v.field

/-- What stands between the braces. -/
def body (v : StageVariable) : List Char := v.stage.toList ++ ':' :: (v.action.toList ++ '.' :: v.field.toList)

/-- An occurrence in full. -/
def chars (v : StageVariable) : List Char := '#' :: '{' :: (v.body ++ ['}'])

/-- An occurrence stands at the beginning of a text. -/
def Begins (cs : List Char) : Prop := ∃ v rest, Valid v ∧ cs = v.chars ++ rest

/-- A text is a row of characters and occurrences. -/
inductive Symbol
  | char (c : Char)
  | occurrence (v : StageVariable)

/-- The symbols of a text, from left to right: an occurrence wherever one begins, and else a character. -/
inductive Scan : List Char → List Symbol → Prop
  | nil : Scan [] []
  | occurrence {v : StageVariable} {cs : List Char} {ss : List Symbol} (hv : v.Valid) (h : Scan cs ss) :
      Scan (v.chars ++ cs) (.occurrence v :: ss)
  | char {c : Char} {cs : List Char} {ss : List Symbol} (hn : ¬ Begins (c :: cs)) (h : Scan cs ss) :
      Scan (c :: cs) (.char c :: ss)

/-! ## Bodies -/

def BraceFree (cs : List Char) : Prop := '{' ∉ cs ∧ '}' ∉ cs

theorem braceFree_append {as bs : List Char} : BraceFree (as ++ bs) ↔ BraceFree as ∧ BraceFree bs := by
  simp only [BraceFree, List.mem_append, not_or]
  exact and_and_and_comm

theorem braceFree_cons {c : Char} {cs : List Char} : BraceFree (c :: cs) ↔ c ≠ '{' ∧ c ≠ '}' ∧ BraceFree cs := by
  simp only [BraceFree, List.mem_cons, not_or, ne_eq, eq_comm (b := c)]
  constructor
  · rintro ⟨⟨h₁, h₂⟩, h₃, h₄⟩
    exact ⟨h₁, h₃, h₂, h₄⟩
  · rintro ⟨h₁, h₃, h₂, h₄⟩
    exact ⟨⟨h₁, h₂⟩, h₃, h₄⟩

theorem Valid.braceFree {v : StageVariable} (h : v.Valid) : BraceFree v.body := by
  rw [body, braceFree_append, braceFree_cons, braceFree_append, braceFree_cons]
  exact ⟨⟨h.stage.2 _ (by decide), h.stage.2 _ (by decide)⟩, by decide, by decide,
    ⟨h.action.2 _ (by decide), h.action.2 _ (by decide)⟩, by decide, by decide,
    h.field.2 _ (by decide), h.field.2 _ (by decide)⟩

theorem ofBody?_body {v : StageVariable} (h : v.Valid) : ofBody? v.body = some v := by
  have hstage := h.stage.1
  have hpoint : '.' ∉ v.stage.toList := h.stage.2 _ (by decide)
  have haction := h.action.1
  have hfield := h.field.1
  rw [ofBody?, body, Text.splitFirst?_append (h.stage.2 _ (by decide))]
  simp only [Option.bind_eq_bind, Option.bind_some]
  rw [Text.splitFirst?_append (h.action.2 _ (by decide))]
  simp [hstage, hpoint, haction, hfield]

theorem of_ofBody? {cs : List Char} {v : StageVariable} (hb : BraceFree cs) (h : ofBody? cs = some v) :
    v.Valid ∧ v.body = cs := by
  simp only [ofBody?, Option.bind_eq_bind, Option.bind_eq_some_iff, Prod.exists] at h
  obtain ⟨stage, rest, hs, action, field, ha, h⟩ := h
  obtain ⟨rfl, hcolon⟩ := Text.splitFirst?_eq_some hs
  obtain ⟨rfl, hpoint⟩ := Text.splitFirst?_eq_some ha
  split at h
  · cases h
  · rename_i hn
    obtain rfl := Option.some.inj h
    simp only [Bool.or_eq_true, List.isEmpty_iff, List.contains_iff_mem, not_or] at hn
    obtain ⟨⟨⟨hstage, hnone⟩, haction⟩, hfield⟩ := hn
    rw [braceFree_append, braceFree_cons, braceFree_append, braceFree_cons] at hb
    obtain ⟨⟨hs₁, hs₂⟩, -, -, ⟨ha₁, ha₂⟩, -, -, hf₁, hf₂⟩ := hb
    refine ⟨⟨?_, ?_, ?_⟩, by simp [body]⟩
    · simpa [IsName] using ⟨hstage, hs₁, hs₂, hcolon, hnone⟩
    · simpa [IsName] using ⟨haction, ha₁, ha₂, hpoint⟩
    · simpa [IsName] using ⟨hfield, hf₁, hf₂⟩

/-! ## One scan -/

theorem chars_append_inj {v v' : StageVariable} {rest rest' : List Char} (h : v.Valid) (h' : v'.Valid)
    (he : v.chars ++ rest = v'.chars ++ rest') : v = v' ∧ rest = rest' := by
  simp only [chars, List.cons_append, List.append_assoc, List.nil_append, List.cons.injEq, true_and] at he
  obtain ⟨hbody, hrest⟩ := Text.append_separator_inj h.braceFree.2 h'.braceFree.2 he
  have hv := ofBody?_body h
  rw [hbody, ofBody?_body h'] at hv
  exact ⟨(Option.some.inj hv).symm, hrest⟩

/-- A text has one row of symbols. -/
theorem Scan.unique {cs : List Char} {ss ss' : List Symbol} (h : Scan cs ss) (h' : Scan cs ss') : ss = ss' := by
  induction h generalizing ss' with
  | nil =>
      generalize he : ([] : List Char) = cs at h'
      cases h' with
      | nil => rfl
      | occurrence _ _ => cases he
      | char _ _ => cases he
  | @occurrence v cs ss hv _ ih =>
      generalize he : v.chars ++ cs = whole at h'
      cases h' with
      | nil => cases he
      | occurrence hv' h' =>
          obtain ⟨rfl, rfl⟩ := chars_append_inj hv hv' he
          rw [ih h']
      | char hn _ => exact absurd ⟨v, cs, hv, he.symm⟩ hn
  | @char c cs ss hn _ ih =>
      generalize he : c :: cs = whole at h'
      cases h' with
      | nil => cases he
      | occurrence hv' _ => exact absurd ⟨_, _, hv', he⟩ hn
      | char _ h' =>
          obtain ⟨rfl, rfl⟩ := List.cons.inj he
          rw [ih h']

theorem not_begins {c : Char} {cs : List Char} (h : ∀ rest, c = '#' → cs = '{' :: rest → False) :
    ¬ Begins (c :: cs) := by
  rintro ⟨v, rest, -, he⟩
  obtain ⟨rfl, rfl⟩ := List.cons.inj he
  exact h _ rfl rfl

theorem not_begins_of_ne {c : Char} (hc : c ≠ '#') {cs : List Char} : ¬ Begins (c :: cs) :=
  not_begins fun _ he _ => hc he

/-- No occurrence begins where the braces around its body would not be the next ones. -/
theorem begins_opening {cs : List Char} (h : Begins ('#' :: '{' :: cs)) :
    ∃ v rest, Valid v ∧ cs = v.body ++ '}' :: rest := by
  obtain ⟨v, rest, hv, he⟩ := h
  exact ⟨v, rest, hv, by simpa [chars] using he⟩

/-! ## The scan that is made -/

/-- The symbols of some pieces. -/
def symbols (ps : List Piece) : List Symbol :=
  ps.flatMap fun
    | .plain cs => cs.map .char
    | .variable v => [.occurrence v]

theorem symbols_addPlain (cs : List Char) (ps : List Piece) :
    symbols (addPlain cs ps) = cs.map .char ++ symbols ps := by
  match ps with
  | .plain more :: ps => simp [addPlain, symbols]
  | .variable v :: ps => simp [addPlain, symbols]
  | [] => simp [addPlain, symbols]

/-- What is right of an opening, for the text that follows it: its symbols in any case, and whether it is
closed before another brace comes. -/
def ScansOpened (cs : List Char) : Opened × List Piece → Prop
  | (.closed body, ps) => BraceFree body ∧ (∃ rest, cs = body ++ '}' :: rest ∧ Scan rest (symbols ps)) ∧
      Scan cs (body.map .char ++ .char '}' :: symbols ps)
  | (.broken body, ps) => (∀ inner rest, BraceFree inner → cs ≠ inner ++ '}' :: rest) ∧
      Scan cs (body.map .char ++ symbols ps)

theorem Scan.opening {cs : List Char} {ss : List Symbol} (hn : ¬ Begins ('#' :: '{' :: cs)) (h : Scan cs ss) :
    Scan ('#' :: '{' :: cs) (.char '#' :: .char '{' :: ss) :=
  .char hn (.char (not_begins fun _ hc => absurd hc (by decide)) h)

theorem scan_settle {cs : List Char} {o : Opened × List Piece} (h : ScansOpened cs o) :
    Scan ('#' :: '{' :: cs) (symbols (settle o)) := by
  match o with
  | (.closed body, ps) =>
      obtain ⟨hb, ⟨rest, rfl, hrest⟩, hall⟩ := h
      rw [settle]
      split
      · rename_i v hv
        obtain ⟨hvalid, rfl⟩ := of_ofBody? hb hv
        have hscan : Scan (v.chars ++ rest) (.occurrence v :: symbols ps) := .occurrence hvalid hrest
        simpa [chars, symbols] using hscan
      · rename_i hnone
        have hn : ¬ Begins ('#' :: '{' :: (body ++ '}' :: rest)) := by
          intro hbegins
          obtain ⟨v, rest', hv, he⟩ := begins_opening hbegins
          obtain ⟨rfl, -⟩ := Text.append_separator_inj hb.2 hv.braceFree.2 he
          rw [ofBody?_body hv] at hnone
          cases hnone
        rw [symbols_addPlain]
        simpa using Scan.opening hn hall
  | (.broken body, ps) =>
      obtain ⟨hopen, hall⟩ := h
      have hn : ¬ Begins ('#' :: '{' :: cs) := by
        intro hbegins
        obtain ⟨v, rest, hv, he⟩ := begins_opening hbegins
        exact hopen v.body rest hv.braceFree he
      rw [settle, symbols_addPlain]
      simpa using Scan.opening hn hall

theorem not_closed_cons {c : Char} {cs : List Char} (hc : c ≠ '}')
    (h : ∀ inner rest, BraceFree (c :: inner) → cs ≠ inner ++ '}' :: rest) (inner rest : List Char)
    (hb : BraceFree inner) : c :: cs ≠ inner ++ '}' :: rest := by
  intro he
  cases inner with
  | nil => exact hc (List.cons.inj he).1
  | cons d inner =>
      obtain ⟨rfl, htail⟩ := List.cons.inj he
      exact h inner rest hb htail

theorem scansOpened_addBody {c : Char} {cs : List Char} {o : Opened × List Piece} (h₁ : c ≠ '}') (h₂ : c ≠ '{')
    (hn : ¬ Begins (c :: cs)) (h : ScansOpened cs o) : ScansOpened (c :: cs) (addBody c o) := by
  match o with
  | (.closed body, ps) =>
      obtain ⟨hb, ⟨rest, rfl, hrest⟩, hall⟩ := h
      exact ⟨braceFree_cons.mpr ⟨h₂, h₁, hb⟩, ⟨rest, rfl, hrest⟩, .char hn hall⟩
  | (.broken body, ps) =>
      obtain ⟨hopen, hall⟩ := h
      refine ⟨not_closed_cons h₁ fun inner rest hb => ?_, .char hn hall⟩
      exact hopen inner rest (braceFree_cons.mp hb).2.2

theorem scansOpened_brace {c : Char} {cs : List Char} {ps : List Piece} (hc : c = '{' ∨ c = '#' ∧ cs.head? = some '{')
    (h : Scan (c :: cs) (symbols ps)) : ScansOpened (c :: cs) (.broken [], ps) := by
  refine ⟨fun inner rest hb he => ?_, h⟩
  cases inner with
  | nil =>
      obtain ⟨rfl, -⟩ := List.cons.inj he
      rcases hc with hc | ⟨hc, -⟩
      · cases hc
      · cases hc
  | cons d inner =>
      obtain ⟨rfl, htail⟩ := List.cons.inj he
      rcases hc with rfl | ⟨rfl, hhead⟩
      · exact (braceFree_cons.mp hb).1 rfl
      · subst htail
        cases inner with
        | nil => cases hhead
        | cons d inner =>
            obtain rfl := Option.some.inj hhead
            exact (braceFree_cons.mp (braceFree_cons.mp hb).2.2).1 rfl

/-- The pieces of a text are its symbols. -/
theorem scan_pieces (cs : List Char) : Scan cs (symbols (pieces cs)) := by
  -- the text outside of an opening and the text right of one, along the two functions
  refine pieces.induct (fun cs => Scan cs (symbols (pieces cs))) (fun cs => ScansOpened cs (openedPieces cs))
    ?_ (fun cs ih => ?_) (fun c cs hn ih => ?_) ?_ (fun cs ih => ?_) (fun cs ih => ?_) (fun cs ih => ?_)
    (fun c cs h₁ h₂ hn ih => ?_) cs
  · exact .nil
  · rw [pieces]
    exact scan_settle ih
  · rw [pieces, symbols_addPlain]
    · exact .char (not_begins hn) ih
    · exact hn
  · exact ⟨fun inner rest _ he => by simp at he, .nil⟩
  · rw [openedPieces]
    exact ⟨⟨List.not_mem_nil, List.not_mem_nil⟩, ⟨cs, rfl, ih⟩, .char (not_begins_of_ne (by decide)) ih⟩
  · rw [openedPieces]
    refine scansOpened_brace (.inl rfl) ?_
    rw [symbols_addPlain]
    exact .char (not_begins_of_ne (by decide)) ih
  · rw [openedPieces]
    exact scansOpened_brace (.inr ⟨rfl, rfl⟩) (scan_settle ih)
  · rw [openedPieces]
    · exact scansOpened_addBody h₁ h₂ (not_begins hn) ih
    · exact h₁
    · exact h₂
    · exact hn

/-- An occurrence stands somewhere in a text. -/
def OccursIn (v : StageVariable) (text : String) : Prop := ∃ ss, Scan text.toList ss ∧ .occurrence v ∈ ss

theorem mem_occurrences_iff {v : StageVariable} {text : String} : v ∈ occurrences text ↔ OccursIn v text := by
  have hpieces : v ∈ occurrences text ↔ .occurrence v ∈ symbols (pieces text.toList) := by
    rw [occurrences_eq, List.mem_filterMap, symbols, List.mem_flatMap]
    refine exists_congr fun p => and_congr_right fun _ => ?_
    match p with
    | .plain cs => simp [ Piece.variable?]
    | .variable w => simp [ Piece.variable?, eq_comm]
  rw [hpieces]
  constructor
  · exact fun h => ⟨_, scan_pieces _, h⟩
  · rintro ⟨ss, hs, h⟩
    rwa [(scan_pieces _).unique hs]

/-! ## Renaming -/

section
variable (N : StageVariable → String)

/-- What is written for a symbol where stages and actions get a name. -/
def Symbol.rename : Symbol → List Char
  | .char c => [c]
  | .occurrence v => '#' :: '{' :: ((N v).toList ++ '.' :: (v.field.toList ++ ['}']))

/-- A text in which each occurrence got its name, and all else is as it was. -/
def Renames (text out : String) : Prop := ∃ ss, Scan text.toList ss ∧ out.toList = ss.flatMap (Symbol.rename N)

def renameText (text : String) : String :=
  String.ofList ((symbols (pieces text.toList)).flatMap (Symbol.rename N))

theorem renames_iff {text out : String} : Renames N text out ↔ out = renameText N text := by
  constructor
  · rintro ⟨ss, hs, hout⟩
    rw [renameText, (scan_pieces _).unique hs, ← hout, String.ofList_toList]
  · rintro rfl
    exact ⟨_, scan_pieces _, String.toList_ofList⟩
end

/-! ## Rewriting renames -/

section
variable {σ : Type} {visit : StageVariable → σ → Except Error String × σ} {N : StageVariable → String}
  {P : σ → Prop}

/-- Looking back from a state with some property, each visit gave the name that is known there, and began in
a state with the property. -/
def Answers (visit : StageVariable → σ → Except Error String × σ) (N : StageVariable → String) (P : σ → Prop) :
    Prop :=
  ∀ v s s' name, visit v s = (.ok name, s') → P s' → name = N v ∧ P s

theorem rewritePieces_renames (hv : Answers visit N P) {ps : List Piece} {s s' : σ} {out : List Char}
    (h : rewritePieces visit ps s = (.ok out, s')) (hP : P s') :
    out = (symbols ps).flatMap (Symbol.rename N) ∧ P s := by
  induction ps generalizing s out with
  | nil =>
      obtain ⟨hout, rfl⟩ := Prod.mk.inj h
      exact ⟨(Except.ok.inj hout).symm, hP⟩
  | cons p ps ih =>
      match p with
      | .plain cs =>
          rw [rewritePieces] at h
          split at h
          · rename_i rest s₁ hr
            obtain ⟨hout, rfl⟩ := Prod.mk.inj h
            obtain ⟨rfl, hP⟩ := ih hr
            refine ⟨?_, hP⟩
            rw [← Except.ok.inj hout]
            simp [symbols, Symbol.rename, List.flatMap_map]
          · rename_i hf
            exact absurd h (hf _ _)
      | .variable v =>
          rw [rewritePieces] at h
          split at h
          · cases h
          · rename_i name s₁ hvisit
            split at h
            · rename_i rest s₂ hr
              obtain ⟨hout, rfl⟩ := Prod.mk.inj h
              obtain ⟨rfl, hP⟩ := ih hr
              obtain ⟨rfl, hP⟩ := hv _ _ _ _ hvisit hP
              refine ⟨?_, hP⟩
              rw [← Except.ok.inj hout]
              simp [symbols, Symbol.rename]
            · rename_i hf
              exact absurd h (hf _ _)

theorem rewriteText_renames (hv : Answers visit N P) {text out : String} {s s' : σ}
    (h : rewriteText visit text s = (.ok out, s')) (hP : P s') : out = renameText N text ∧ P s := by
  rw [rewriteText] at h
  split at h
  · rename_i cs s₁ hr
    obtain ⟨hout, rfl⟩ := Prod.mk.inj h
    obtain ⟨rfl, hP⟩ := rewritePieces_renames hv hr hP
    exact ⟨(Except.ok.inj hout).symm, hP⟩
  · cases h

mutual
/-- A rewritten tree is the tree with its texts renamed. -/
theorem rewriteNode_renames (hv : Answers visit N P) (node : Node) {out : Node} {s s' : σ}
    (h : rewriteNode visit node s = (.ok out, s')) (hP : P s') : out = node.mapTexts (renameText N) ∧ P s := by
  match node with
  | .text text =>
      rw [rewriteNode] at h
      split at h
      · rename_i renamed s₁ hr
        obtain ⟨hout, rfl⟩ := Prod.mk.inj h
        obtain ⟨rfl, hP⟩ := rewriteText_renames hv hr hP
        exact ⟨(Except.ok.inj hout).symm, hP⟩
      · cases h
  | .list items =>
      rw [rewriteNode] at h
      split at h
      · rename_i renamed s₁ hr
        obtain ⟨hout, rfl⟩ := Prod.mk.inj h
        obtain ⟨rfl, hP⟩ := rewriteItems_renames hv items hr hP
        exact ⟨(Except.ok.inj hout).symm, hP⟩
      · cases h
  | .map entries =>
      rw [rewriteNode] at h
      split at h
      · rename_i renamed s₁ hr
        obtain ⟨hout, rfl⟩ := Prod.mk.inj h
        obtain ⟨rfl, hP⟩ := rewriteEntries_renames hv entries hr hP
        exact ⟨(Except.ok.inj hout).symm, hP⟩
      · cases h
  | .null | .bool _ | .number _ =>
      simp only [rewriteNode] at h
      obtain ⟨hout, rfl⟩ := Prod.mk.inj h
      exact ⟨(Except.ok.inj hout).symm, hP⟩

theorem rewriteItems_renames (hv : Answers visit N P) (items : List Node) {out : List Node} {s s' : σ}
    (h : rewriteItems visit items s = (.ok out, s')) (hP : P s') :
    out = Node.mapTextsOfItems (renameText N) items ∧ P s := by
  match items with
  | [] =>
      obtain ⟨hout, rfl⟩ := Prod.mk.inj h
      exact ⟨(Except.ok.inj hout).symm, hP⟩
  | item :: items =>
      rw [rewriteItems] at h
      split at h
      · cases h
      · rename_i item' s₁ hi
        split at h
        · rename_i rest s₂ hr
          obtain ⟨hout, rfl⟩ := Prod.mk.inj h
          obtain ⟨rfl, hP⟩ := rewriteItems_renames hv items hr hP
          obtain ⟨rfl, hP⟩ := rewriteNode_renames hv item hi hP
          exact ⟨(Except.ok.inj hout).symm, hP⟩
        · rename_i hf
          exact absurd h (hf _ _)

theorem rewriteEntries_renames (hv : Answers visit N P) (entries : List (String × Node))
    {out : List (String × Node)} {s s' : σ} (h : rewriteEntries visit entries s = (.ok out, s')) (hP : P s') :
    out = Node.mapTextsOfEntries (renameText N) entries ∧ P s := by
  match entries with
  | [] =>
      obtain ⟨hout, rfl⟩ := Prod.mk.inj h
      exact ⟨(Except.ok.inj hout).symm, hP⟩
  | (key, value) :: entries =>
      rw [rewriteEntries] at h
      split at h
      · cases h
      · rename_i value' s₁ hi
        split at h
        · rename_i rest s₂ hr
          obtain ⟨hout, rfl⟩ := Prod.mk.inj h
          obtain ⟨rfl, hP⟩ := rewriteEntries_renames hv entries hr hP
          obtain ⟨rfl, hP⟩ := rewriteNode_renames hv value hi hP
          exact ⟨(Except.ok.inj hout).symm, hP⟩
        · rename_i hf
          exact absurd h (hf _ _)
end
end

/-! ## Texts without occurrences -/

theorem Scan.eq_chars {cs : List Char} {ss : List Symbol} (h : Scan cs ss) (hn : ∀ v, .occurrence v ∉ ss) :
    ss = cs.map .char := by
  induction h with
  | nil => rfl
  | @occurrence v _ _ _ _ _ => exact absurd List.mem_cons_self (hn v)
  | char _ _ ih => rw [List.map_cons, ih fun v hm => hn v (List.mem_cons_of_mem _ hm)]

theorem scan_of_occurrences {text : String} (h : occurrences text = []) :
    symbols (pieces text.toList) = text.toList.map .char := by
  refine (scan_pieces _).eq_chars fun v hm => ?_
  have ho : v ∈ occurrences text := mem_occurrences_iff.mpr ⟨_, scan_pieces _, hm⟩
  rw [h] at ho
  cases ho

section
variable {σ : Type} (visit : StageVariable → σ → Except Error String × σ)

theorem rewritePieces_plain {ps : List Piece} (h : ps.filterMap Piece.variable? = []) (s : σ) :
    ∃ out, rewritePieces visit ps s = (.ok out, s) ∧ symbols ps = out.map .char := by
  induction ps with
  | nil => exact ⟨[], rfl, rfl⟩
  | cons p ps ih =>
      match p with
      | .plain cs =>
          obtain ⟨out, hr, hs⟩ := ih h
          refine ⟨cs ++ out, by rw [rewritePieces, hr], ?_⟩
          rw [List.map_append, ← hs]
          rfl
      | .variable v => cases h

theorem rewriteText_self {text : String} (h : occurrences text = []) (s : σ) :
    rewriteText visit text s = (.ok text, s) := by
  obtain ⟨out, hr, hs⟩ := rewritePieces_plain visit (occurrences_eq text ▸ h) s
  have hout : text.toList = out := by
    refine List.map_injective_iff.mpr (fun c d he => ?_) ((scan_of_occurrences h).symm.trans hs)
    cases he
    rfl
  rw [rewriteText, hr]
  simp only [← hout, String.ofList_toList]

mutual
/-- A tree without variables is kept. -/
theorem rewriteNode_self (node : Node) (h : variablesIn node.texts = []) (s : σ) :
    rewriteNode visit node s = (.ok node, s) := by
  match node with
  | .text text =>
      rw [Node.texts, variablesIn, List.flatMap_singleton] at h
      rw [rewriteNode, rewriteText_self visit h]
  | .list items => rw [rewriteNode, rewriteItems_self items h]
  | .map entries => rw [rewriteNode, rewriteEntries_self entries h]
  | .null | .bool _ | .number _ => rfl

theorem rewriteItems_self (items : List Node) (h : variablesIn (Node.textsOfItems items) = []) (s : σ) :
    rewriteItems visit items s = (.ok items, s) := by
  match items with
  | [] => rfl
  | item :: items =>
      rw [Node.textsOfItems, variablesIn_append, List.append_eq_nil_iff] at h
      simp only [rewriteItems, rewriteNode_self item h.1, rewriteItems_self items h.2]

theorem rewriteEntries_self (entries : List (String × Node))
    (h : variablesIn (Node.textsOfEntries entries) = []) (s : σ) :
    rewriteEntries visit entries s = (.ok entries, s) := by
  match entries with
  | [] => rfl
  | (key, value) :: entries =>
      rw [Node.textsOfEntries, variablesIn_append, List.append_eq_nil_iff] at h
      simp only [rewriteEntries, rewriteNode_self value h.1, rewriteEntries_self entries h.2]
end
end

/-! ## Names without a colon -/

section
variable {N : StageVariable → String}

/-- Where a point comes before any colon, no stage can be named. -/
theorem not_begins_point {xs ys : List Char} (hx : ':' ∉ xs) : ¬ Begins ('#' :: '{' :: (xs ++ '.' :: ys)) := by
  intro hbegins
  obtain ⟨v, rest, hv, he⟩ := begins_opening hbegins
  have hpoint : '.' ∉ v.stage.toList := hv.stage.2 _ (by decide)
  simp only [body, List.append_assoc, List.cons_append] at he
  rcases List.append_eq_append_iff.mp he with ⟨more, hstage, hrest⟩ | ⟨more, rfl, hrest⟩
  · -- the point is in the stage, or it is the colon
    cases more with
    | nil => exact absurd (List.cons.inj hrest).1 (by decide)
    | cons c more =>
        obtain ⟨rfl, -⟩ := List.cons.inj hrest
        exact hpoint (hstage ▸ List.mem_append_right _ List.mem_cons_self)
  · cases more with
    | nil => exact absurd (List.cons.inj hrest).1 (by decide)
    | cons c more =>
        obtain ⟨rfl, -⟩ := List.cons.inj hrest
        exact hx (List.mem_append_right _ List.mem_cons_self)

theorem scan_name {xs ys : List Char} (hx : ':' ∉ xs) (h : Scan ('.' :: ys) (('.' :: ys).map .char)) :
    Scan (xs ++ '.' :: ys) ((xs ++ '.' :: ys).map .char) := by
  induction xs with
  | nil => exact h
  | cons c xs ih =>
      obtain ⟨-, hx⟩ := not_or.mp fun ho => hx (List.mem_cons.mpr ho)
      refine .char ?_ (ih hx)
      match xs with
      | [] => exact not_begins fun _ _ he => absurd (List.cons.inj he).1 (by decide)
      | d :: xs =>
          by_cases hopen : c = '#' ∧ d = '{'
          · obtain ⟨rfl, rfl⟩ := hopen
            exact not_begins_point (not_or.mp fun ho => hx (List.mem_cons.mpr ho)).2
          · exact not_begins fun _ hc hd => hopen ⟨hc, (List.cons.inj hd).1⟩

theorem scan_field {xs ys : List Char} (hx : BraceFree xs) (h : Scan ys (ys.map .char)) :
    Scan (xs ++ '}' :: ys) ((xs ++ '}' :: ys).map .char) := by
  induction xs with
  | nil => exact .char (not_begins fun _ he _ => absurd he (by decide)) h
  | cons c xs ih =>
      obtain ⟨-, -, hx⟩ := braceFree_cons.mp hx
      refine .char (not_begins fun rest _ he => ?_) (ih hx)
      match xs with
      | [] => exact absurd (List.cons.inj he).1 (by decide)
      | d :: xs => exact (braceFree_cons.mp hx).1 (List.cons.inj he).1

/-- A stretch without braces, with a closing brace after it, is not made by renaming. -/
theorem Scan.exists_closed {cs body rest : List Char} {ss : List Symbol} (h : Scan cs ss) (hb : BraceFree body)
    (he : ss.flatMap (Symbol.rename N) = body ++ '}' :: rest) : ∃ rest', cs = body ++ '}' :: rest' := by
  -- a renamed occurrence would bring an opening brace
  induction body generalizing cs ss with
  | nil =>
      cases h with
      | nil => cases he
      | occurrence => exact absurd (List.cons.inj he).1 (by decide)
      | char => exact ⟨_, congrArg (· :: _) (List.cons.inj he).1⟩
  | cons d body ih =>
      cases h with
      | nil => cases he
      | occurrence =>
          have htail := (List.cons.inj he).2
          cases body with
          | nil => exact absurd (List.cons.inj htail).1 (by decide)
          | cons e body =>
              have hbrace := (braceFree_cons.mp (braceFree_cons.mp hb).2.2).1
              exact absurd (List.cons.inj htail).1.symm hbrace
      | @char c cs ss _ h =>
          have hhead : c = d := (List.cons.inj he).1
          obtain ⟨rest', rfl⟩ := ih h (braceFree_cons.mp hb).2.2 (List.cons.inj he).2
          exact ⟨rest', congrArg (· :: _) hhead⟩

theorem Scan.rename (hN : ∀ v, ':' ∉ (N v).toList) {cs : List Char} {ss : List Symbol} (h : Scan cs ss) :
    Scan (ss.flatMap (Symbol.rename N)) ((ss.flatMap (Symbol.rename N)).map .char) := by
  induction h with
  | nil => exact .nil
  | @occurrence v cs ss hv _ ih =>
      have hfield : BraceFree v.field.toList := ⟨hv.field.2 _ (by decide), hv.field.2 _ (by decide)⟩
      have hpoint := Scan.char (not_begins_of_ne (by decide : '.' ≠ '#')) (scan_field hfield ih)
      have hbrace := Scan.char (not_begins_of_ne (by decide : '{' ≠ '#')) (scan_name (hN v) hpoint)
      have hall := Scan.char (not_begins_point (hN v)) hbrace
      simpa [Symbol.rename] using hall
  | @char c cs ss hn h ih =>
      refine .char ?_ ih
      rintro ⟨v, rest, hv, he⟩
      -- an occurrence that begins here would stand in the text before
      have hc : c = '#' := (List.cons.inj he).1
      have hbody : ss.flatMap (Symbol.rename N) = '{' :: ((v.body ++ ['}']) ++ rest) := (List.cons.inj he).2
      rw [List.append_assoc] at hbody
      cases h with
      | nil => cases hbody
      | occurrence => exact absurd (List.cons.inj hbody).1 (by decide)
      | @char d cs ss _ h =>
          have hd : d = '{' := (List.cons.inj hbody).1
          obtain ⟨rest', rfl⟩ := h.exists_closed hv.braceFree (List.cons.inj hbody).2
          exact hn ⟨v, rest', hv, by simp [hc, hd, chars]⟩

/-- Where no name has a colon, no occurrence is left. -/
theorem occurrences_renameText (hN : ∀ v, ':' ∉ (N v).toList) (text : String) :
    occurrences (renameText N text) = [] := by
  have hscan := (scan_pieces text.toList).rename hN
  refine List.eq_nil_iff_forall_not_mem.mpr fun v hv => ?_
  obtain ⟨ss, hs, hm⟩ := mem_occurrences_iff.mp hv
  rw [renameText, String.toList_ofList] at hs
  rw [hs.unique hscan] at hm
  obtain ⟨_, _, he⟩ := List.mem_map.mp hm
  cases he

end

end Pipeline.StageVariable
end Shorthand
