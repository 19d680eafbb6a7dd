import Shorthand.Proofs.Text

/-!
# Replacing several patterns

One pass over a text can put in something for each of several patterns at once. To replace the patterns one
after another comes to the same if they do not overlap and none of them is left or made by the pass.
-/
namespace Shorthand.Text

/-! ## Replacing one pattern -/

section
variable {pattern new : List Char}

theorem replaceFrom_append (as cs : List Char) :
    replaceFrom pattern new as.length (as ++ cs) = replace pattern new cs := by
  induction as with
  | nil => rfl
  | cons a as ih => exact ih

theorem replace_append_self (hne : pattern ≠ []) (cs : List Char) :
    replace pattern new (pattern ++ cs) = new ++ replace pattern new cs := by
  cases pattern with
  | nil => exact absurd rfl hne
  | cons c rest =>
      rw [replace, List.cons_append, replaceFrom, ← List.cons_append, after?_append]
      simp [replaceFrom_append]

theorem replace_cons {c : Char} {cs : List Char} (h : ¬ pattern <+: c :: cs) :
    replace pattern new (c :: cs) = c :: replace pattern new cs := by
  rw [replace, replaceFrom, if_neg (by rwa [isSome_after?_iff])]
  rfl

/-- A stretch in which the pattern does not begin stays. -/
theorem replace_append {as cs : List Char}
    (h : ∀ before rest, as = before ++ rest → rest ≠ [] → ¬ pattern <+: rest ++ cs) :
    replace pattern new (as ++ cs) = as ++ replace pattern new cs := by
  induction as with
  | nil => rfl
  | cons a as ih =>
      have hfirst : ¬ pattern <+: a :: (as ++ cs) := h [] (a :: as) rfl (List.cons_ne_nil a as)
      have hrest := ih fun before rest he => h (a :: before) rest (congrArg (a :: ·) he)
      rw [List.cons_append, replace_cons hfirst, hrest, List.cons_append]

end

/-! ## Replacing all at once -/

/-- Patterns with what is put in their place. -/
abbrev Fillings := List (List Char × List Char)

def Fillings.patterns (fs : Fillings) : List (List Char) := fs.map Prod.fst

/-- Puts something in for each pattern that is met from left to right; what is put in is not looked at.
`skip` counts the characters of a pattern that are still to be passed over. -/
def fillFrom (fs : Fillings) : (skip : Nat) → List Char → List Char
  | _, [] => []
  | skip + 1, _ :: cs => fillFrom fs skip cs
  | 0, c :: cs =>
    match fs.find? fun f => (after? f.1 (c :: cs)).isSome with
    | some f => f.2 ++ fillFrom fs (f.1.length - 1) cs
    | none => c :: fillFrom fs 0 cs

def fill (fs : Fillings) (cs : List Char) : List Char := fillFrom fs 0 cs

/-- How a text is filled: where a pattern is met it gives way, and any other character stays. -/
inductive Fills (fs : Fillings) : List Char → List Char → Prop
  | nil : Fills fs [] []
  | put {f : List Char × List Char} {cs out : List Char} (h : f ∈ fs) (hr : Fills fs cs out) :
      Fills fs (f.1 ++ cs) (f.2 ++ out)
  | keep {c : Char} {cs out : List Char} (h : ∀ f ∈ fs, ¬ f.1 <+: c :: cs) (hr : Fills fs cs out) :
      Fills fs (c :: cs) (c :: out)

theorem fillFrom_append (fs : Fillings) (as cs : List Char) : fillFrom fs as.length (as ++ cs) = fill fs cs := by
  induction as with
  | nil => rfl
  | cons a as ih => exact ih

theorem fills_fill {fs : Fillings} (hne : ∀ p ∈ fs.patterns, p ≠ []) (cs : List Char) :
    Fills fs cs (fill fs cs) := by
  match cs with
  | [] => exact .nil
  | c :: cs =>
      rw [fill, fillFrom]
      split
      · rename_i f hf
        have hm := List.mem_of_find?_eq_some hf
        have hmet : (after? f.1 (c :: cs)).isSome = true := by simpa using List.find?_some hf
        obtain ⟨rest, hrest⟩ := isSome_after?_iff.mp hmet
        cases hp : f.1 with
        | nil => exact absurd hp (hne _ (List.mem_map_of_mem hm))
        | cons a as =>
            rw [hp, List.cons_append] at hrest
            obtain ⟨rfl, rfl⟩ := List.cons.inj hrest
            have hfill := Fills.put hm (fills_fill hne rest)
            rw [hp] at hfill
            simpa [fillFrom_append] using hfill
      · rename_i hf
        refine .keep (fun f hm hp => ?_) (fills_fill hne cs)
        exact List.find?_eq_none.mp hf f hm (isSome_after?_iff.mpr hp)
termination_by cs.length

theorem Fills.mono {fs gs : Fillings} (hs : ∀ f, f ∈ fs ↔ f ∈ gs) {cs out : List Char} (h : Fills fs cs out) :
    Fills gs cs out := by
  induction h with
  | nil => exact .nil
  | put h _ ih => exact .put ((hs _).mp h) ih
  | keep h _ ih => exact .keep (fun f hf => h f ((hs f).mpr hf)) ih

theorem eq_of_fills_nil {cs out : List Char} (h : Fills [] cs out) : cs = out := by
  induction h with
  | nil => rfl
  | put h _ _ => cases h
  | keep _ _ ih => rw [ih]

/-! ## One pattern after another -/

/-- Occurrences of the patterns in a text do not overlap. -/
structure Apart (patterns : List (List Char)) : Prop where
  ne_nil : ∀ p ∈ patterns, p ≠ []
  /-- No two begin at the same place. -/
  same : ∀ p ∈ patterns, ∀ q ∈ patterns, ∀ cs, p <+: cs → q <+: cs → p = q
  /-- None begins inside another. -/
  inside : ∀ p ∈ patterns, ∀ q ∈ patterns, ∀ before rest cs, p = before ++ rest → before ≠ [] → rest ≠ [] →
    ¬ q <+: rest ++ cs

theorem Apart.of_subset {patterns more : List (List Char)} (h : Apart more) (hs : patterns ⊆ more) :
    Apart patterns where
  ne_nil p hp := h.ne_nil p (hs hp)
  same p hp q hq := h.same p (hs hp) q (hs hq)
  inside p hp q hq := h.inside p (hs hp) q (hs hq)

/-- The text has none of the patterns in it. -/
def Quiet (patterns : List (List Char)) (cs : List Char) : Prop := ∀ p ∈ patterns, ¬ p <:+: cs

instance (patterns : List (List Char)) (cs : List Char) : Decidable (Quiet patterns cs) :=
  inferInstanceAs (Decidable (∀ p ∈ patterns, ¬ p <:+: cs))

theorem Quiet.of_infix {patterns : List (List Char)} {as bs : List Char} (h : Quiet patterns bs)
    (hs : as <:+: bs) : Quiet patterns as :=
  fun p hp hm => h p hp (hm.trans hs)

namespace Fills
variable {fs : Fillings}

/-- The end of a pattern is not touched when what begins before it is left out. -/
theorem prefix_of_apart (ha : Apart fs.patterns) {before rest : List Char}
    (hp : before ++ rest ∈ fs.patterns) (hb : before ≠ []) {cs out : List Char}
    (h : Fills fs (rest ++ cs) out) : rest <+: out := by
  induction rest generalizing before out with
  | nil => exact List.nil_prefix
  | cons c rest ih =>
      generalize hs : c :: rest ++ cs = text at h
      cases h with
      | nil => cases hs
      | @put f _ _ hm hr =>
          have hq : f.1 <+: c :: rest ++ cs := by
            rw [hs]
            exact List.prefix_append _ _
          exact absurd hq (ha.inside _ hp _ (List.mem_map_of_mem hm) before (c :: rest) cs rfl hb (by simp))
      | keep _ hr =>
          obtain ⟨rfl, rfl⟩ := List.cons.inj hs
          have hp : (before ++ [c]) ++ rest ∈ fs.patterns := by simpa using hp
          have hrest := ih hp (by simp) hr
          exact List.cons_prefix_cons.mpr ⟨rfl, hrest⟩

/-- A stretch that stays as it is may come before a text, if no pattern comes about. -/
theorem append_raw (ha : Apart fs.patterns) {cs out : List Char} (h : Fills fs cs out) (raw : List Char)
    (hq : Quiet fs.patterns (raw ++ out)) : Fills fs (raw ++ cs) (raw ++ out) := by
  induction raw with
  | nil => exact h
  | cons c raw ih =>
      refine .keep (fun f hf hp => ?_) (ih (hq.of_infix (List.suffix_cons c _).isInfix))
      have hm : f.1 ∈ fs.patterns := List.mem_map_of_mem hf
      refine hq f.1 hm (List.IsPrefix.isInfix ?_)
      -- the pattern ends in the stretch, or goes on into the text and is copied from there
      rcases List.prefix_or_prefix_of_prefix hp (List.prefix_append (c :: raw) cs) with hin | ⟨rest, hrest⟩
      · exact hin.trans (List.prefix_append _ _)
      · have hover : (c :: raw) ++ rest <+: (c :: raw) ++ cs := by
          rw [hrest]
          exact hp
        obtain ⟨more, rfl⟩ := (List.prefix_append_right_inj _).mp hover
        rw [← hrest, List.prefix_append_right_inj]
        exact prefix_of_apart ha (hrest ▸ hm) (List.cons_ne_nil c raw) h

/-- To replace one pattern first leaves the same to be filled in for the others. -/
theorem replace {pattern new : List Char} (ha : Apart (Fillings.patterns ((pattern, new) :: fs)))
    (hn : pattern ∉ fs.patterns) {cs out : List Char} (h : Fills ((pattern, new) :: fs) cs out)
    (hq : Quiet fs.patterns out) : Fills fs (Text.replace pattern new cs) out := by
  have hfirst : pattern ∈ Fillings.patterns ((pattern, new) :: fs) := List.mem_cons_self
  have hsub : fs.patterns ⊆ Fillings.patterns ((pattern, new) :: fs) := List.subset_cons_self _ _
  have hfs := ha.of_subset hsub
  induction h with
  | nil => exact .nil
  | @put f cs out hm _ ih =>
      have hrest := ih (hq.of_infix (List.suffix_append f.2 out).isInfix)
      rcases List.mem_cons.mp hm with rfl | hm
      · rw [replace_append_self (ha.ne_nil _ hfirst)]
        exact hrest.append_raw hfs new hq
      · have hf : f.1 ∈ fs.patterns := List.mem_map_of_mem hm
        rw [replace_append]
        · exact .put hm hrest
        · intro before rest he hne hp
          cases before with
          | nil =>
              obtain rfl : f.1 = rest := he
              exact hn (ha.same _ hfirst _ (hsub hf) _ hp (List.prefix_append _ _) ▸ hf)
          | cons b before =>
              exact ha.inside _ (hsub hf) _ hfirst _ _ _ he (List.cons_ne_nil b before) hne hp
  | @keep c cs out hno _ ih =>
      have hrest := ih (hq.of_infix (List.suffix_cons c out).isInfix)
      rw [replace_cons (hno _ List.mem_cons_self)]
      exact hrest.append_raw hfs [c] hq

end Fills

/-- Patterns that are replaced one after another are replaced at once, if none but the first of them is in
what comes out. -/
theorem foldl_replace_of_fills {fs : Fillings} (ha : Apart fs.patterns) (hn : fs.patterns.Nodup)
    {cs out : List Char} (h : Fills fs cs out) (hq : Quiet fs.patterns.tail out) :
    fs.foldl (fun cs f => replace f.1 f.2 cs) cs = out := by
  induction fs generalizing cs with
  | nil => exact eq_of_fills_nil h
  | cons f fs ih =>
      obtain ⟨hfirst, hn⟩ := List.nodup_cons.mp hn
      have hsub : Fillings.patterns fs ⊆ Fillings.patterns (f :: fs) := List.subset_cons_self _ _
      have hquiet : Quiet (Fillings.patterns fs) out := hq
      exact ih (ha.of_subset hsub) hn (h.replace ha hfirst hquiet) fun p hp => hquiet p (List.mem_of_mem_tail hp)

/-- So the order in which the patterns are replaced does not matter. -/
theorem foldl_replace_eq_fill {fs gs : Fillings} (hp : gs.Perm fs) (ha : Apart fs.patterns)
    (hn : fs.patterns.Nodup) {cs : List Char} (hq : Quiet gs.patterns.tail (fill fs cs)) :
    gs.foldl (fun cs f => replace f.1 f.2 cs) cs = fill fs cs := by
  have hpatterns : gs.patterns.Perm fs.patterns := hp.map Prod.fst
  have hfills := (fills_fill ha.ne_nil cs).mono fun f => hp.mem_iff.symm
  exact foldl_replace_of_fills (ha.of_subset hpatterns.subset) (hpatterns.nodup_iff.mpr hn) hfills hq

/-! ## Texts without the patterns -/

theorem replace_of_not_infix {pattern new cs : List Char} (h : ¬ pattern <:+: cs) :
    replace pattern new cs = cs := by
  induction cs with
  | nil => rfl
  | cons c cs ih =>
      rw [replace_cons fun hp => h hp.isInfix, ih fun hi => h (hi.trans (List.suffix_cons c cs).isInfix)]

theorem foldl_replace_of_quiet {fs : Fillings} {cs : List Char} (h : Quiet fs.patterns cs) :
    fs.foldl (fun cs f => replace f.1 f.2 cs) cs = cs := by
  induction fs with
  | nil => rfl
  | cons f fs ih =>
      rw [List.foldl_cons, replace_of_not_infix (h _ List.mem_cons_self)]
      exact ih fun p hp => h p (List.mem_cons_of_mem _ hp)

theorem isSubstring_iff {pattern cs : List Char} : isSubstring pattern cs = true ↔ pattern <:+: cs := by
  induction cs with
  | nil => simp [isSubstring]
  | cons c cs ih => simp [isSubstring, isSome_after?_iff, ih, List.infix_cons_iff]

end Shorthand.Text
