import Shorthand.Json.Parser
import Shorthand.Json.Printer
import Shorthand.Proofs.WellFormed

/-!
# Reading back JSON texts

The compact text of a tree whose numbers are whole is read as that tree, however it goes on after it.
-/
namespace Shorthand

namespace Json

/-! ## Quoted texts -/

theorem quotedTail_of_plain {c : Char} (hlow : 0x20 ≤ c.toNat) (hquote : c ≠ '"') (hslash : c ≠ '\\')
    (rest : List Char) :
    quotedTail none (c :: rest) = (quotedTail none rest).map fun p => (c :: p.1, p.2) := by
  rw [quotedTail]
  · rw [if_neg (by simp [hslash]; omega)]
    cases quotedTail none rest <;> rfl
  all_goals simp_all

theorem hexUnit?_of_control {n : Nat} (h : n < 0x20) :
    hexUnit? '0' '0' (Nat.digitChar (n / 16)) (Nat.digitChar (n % 16)) = some n := by
  revert n
  decide

theorem quotedTail_of_short {e c : Char} (h : shortEscape? e = some c) (rest : List Char) :
    quotedTail none ('\\' :: e :: rest) = (quotedTail none rest).map fun p => (c :: p.1, p.2) := by
  have hu : e ≠ 'u' := by
    rintro rfl
    cases h
  rw [quotedTail]
  · rw [h]
    cases quotedTail none rest <;> rfl
  all_goals simp_all

theorem quotedTail_of_control {c : Char} (h : c.toNat < 0x20) (rest : List Char) :
    quotedTail none ('\\' :: 'u' :: '0' :: '0' :: Nat.digitChar (c.toNat / 16) ::
      Nat.digitChar (c.toNat % 16) :: rest) = (quotedTail none rest).map fun p => (c :: p.1, p.2) := by
  have hhigh : isHighHalf c.toNat = false := by simp [isHighHalf]; omega
  have hlow : isLowHalf c.toNat = false := by simp [isLowHalf]; omega
  rw [quotedTail, hexUnit?_of_control h]
  simp only [Option.bind_eq_bind, Option.bind_some, Option.isNone_none, hhigh, Bool.and_false,
    Bool.false_eq_true, ↓reduceIte, unitChar?, hlow, Char.ofNat_toNat]
  cases quotedTail none rest <;> rfl

/-- The three ways in which a character is written. -/
theorem escape_cases (c : Char) :
    (∃ e, shortEscape? e = some c ∧ escape c = ['\\', e]) ∨
      (c.toNat < 0x20 ∧
        escape c = ['\\', 'u', '0', '0', Nat.digitChar (c.toNat / 16), Nat.digitChar (c.toNat % 16)]) ∨
      0x20 ≤ c.toNat ∧ c ≠ '"' ∧ c ≠ '\\' ∧ escape c = [c] := by
  by_cases hshort : c ∈ ['"', '\\', '\n', '\r', '\t', '\x08', '\x0c']
  · simp only [List.mem_cons, List.not_mem_nil, or_false] at hshort
    rcases hshort with rfl | rfl | rfl | rfl | rfl | rfl | rfl
    all_goals exact .inl ⟨_, rfl, rfl⟩
  · simp only [List.mem_cons, List.not_mem_nil, or_false, not_or] at hshort
    obtain ⟨hquote, hslash, hn, hr, ht, hb, hf⟩ := hshort
    simp only [escape, if_neg hquote, if_neg hslash, if_neg hn, if_neg hr, if_neg ht, if_neg hb, if_neg hf]
    split
    · rename_i h
      exact .inr (.inl ⟨h, rfl⟩)
    · rename_i h
      exact .inr (.inr ⟨Nat.le_of_not_lt h, hquote, hslash, rfl⟩)

/-- Each character is read back from its escape. -/
theorem quotedTail_escape (c : Char) (rest : List Char) :
    quotedTail none (escape c ++ rest) = (quotedTail none rest).map fun p => (c :: p.1, p.2) := by
  rcases escape_cases c with ⟨e, he, h⟩ | ⟨hc, h⟩ | ⟨hlow, hquote, hslash, h⟩ <;> rw [h]
  · exact quotedTail_of_short he rest
  · exact quotedTail_of_control hc rest
  · exact quotedTail_of_plain hlow hquote hslash rest

theorem quotedTail_flatMap (cs rest : List Char) :
    quotedTail none (cs.flatMap escape ++ '"' :: rest) = some (cs, rest) := by
  induction cs with
  | nil => simp [quotedTail]
  | cons c cs ih => rw [List.flatMap_cons, List.append_assoc, quotedTail_escape, ih, Option.map_some]

theorem readQuoted_quoted (s : String) (rest : List Char) :
    readQuoted (s.toList.flatMap escape ++ '"' :: rest) = some (s, rest) := by
  simp [readQuoted, quotedTail_flatMap]

/-! ## Whole numbers -/

/-- A text that does not go on with a number that ends before it. -/
def Ends (rest : List Char) : Prop :=
  ∀ c ∈ rest.head?, c.isDigit = false ∧ c ≠ '.' ∧ c ≠ 'e' ∧ c ≠ 'E'

theorem natOfDigits_toDigits (n : Nat) : natOfDigits (Nat.toDigits 10 n) = n := by
  have h := Nat.ofDigitChars_toDigits (b := 10) (n := n) (by decide) (by decide)
  rw [Nat.ofDigitChars_eq_foldl] at h
  rw [natOfDigits]
  simpa [Nat.mul_comm] using h

/-- Only zero is written with a leading zero. -/
theorem head?_toDigits {n : Nat} (h : (Nat.toDigits 10 n).head? = some '0') : n = 0 := by
  induction n using Nat.strongRecOn with
  | ind n ih =>
      rw [Nat.toDigits_eq_if (by decide)] at h
      split at h
      · rename_i hn
        have hzero : ∀ n < 10, [Nat.digitChar n].head? = some '0' → n = 0 := by decide
        exact hzero n hn h
      · rename_i hn
        rw [List.head?_append_of_ne_nil _ Nat.toDigits_ne_nil] at h
        have := ih (n / 10) (by omega) h
        omega

theorem takeWhile_digits {ds rest : List Char} (hd : ∀ d ∈ ds, d.isDigit = true) (hr : Ends rest) :
    (ds ++ rest).takeWhile Char.isDigit = ds ∧ (ds ++ rest).dropWhile Char.isDigit = rest := by
  have hstop : rest.takeWhile Char.isDigit = [] ∧ rest.dropWhile Char.isDigit = rest := by
    cases rest with
    | nil => exact ⟨rfl, rfl⟩
    | cons c rest =>
        have hc := (hr c rfl).1
        simp [hc]
  rw [List.takeWhile_append_of_pos hd, List.dropWhile_append_of_pos hd, hstop.1, hstop.2, List.append_nil]
  exact ⟨rfl, rfl⟩

section
variable {ds rest : List Char} (hne : ds ≠ []) (hd : ∀ d ∈ ds, d.isDigit = true)
  (hzero : ds.head? = some '0' → ds.length = 1) (hr : Ends rest)
include hne hd hzero hr

theorem numberToken_minus : numberToken ('-' :: (ds ++ rest)) = some (⟨true, ds, none, none⟩, rest) := by
  have hlead : ¬ (1 < ds.length ∧ ds.head? = some '0') := fun h => by have := hzero h.2; omega
  unfold numberToken
  simp only [(takeWhile_digits hd hr).1, (takeWhile_digits hd hr).2]
  cases rest with
  | nil => simp [hne, hlead]
  | cons c rest =>
      obtain ⟨-, hdot, he, hE⟩ := hr c rfl
      simp [hne, hlead, hdot, he, hE]

theorem numberToken_digits : numberToken (ds ++ rest) = some (⟨false, ds, none, none⟩, rest) := by
  have hlead : ¬ (1 < ds.length ∧ ds.head? = some '0') := fun h => by have := hzero h.2; omega
  have hsign : ∀ cs, ds ++ rest ≠ '-' :: cs := by
    intro cs he
    obtain ⟨d, ds, rfl⟩ := List.exists_cons_of_ne_nil hne
    obtain rfl := (List.cons.inj he).1
    exact absurd (hd '-' List.mem_cons_self) (by decide)
  unfold numberToken
  split
  rename_i h
  split at h
  · rename_i hm
    exact absurd hm (hsign _)
  · cases h
    simp only [(takeWhile_digits hd hr).1, (takeWhile_digits hd hr).2]
    cases rest with
    | nil => simp [hne, hlead]
    | cons c rest =>
        obtain ⟨-, hdot, he, hE⟩ := hr c rfl
        simp [hne, hlead, hdot, he, hE]
end

/-- Whether a whole number fits into 64 bits, with a sign or without. -/
def Fits : Int → Prop
  | .ofNat n => n < UInt64.size
  | .negSucc n => n < UInt64.size / 2

theorem readNumber_whole {n : Int} (hn : Fits n) {rest : List Char} (hr : Ends rest) :
    readNumber (wholeChars n ++ rest) = some (.whole n, rest) := by
  have hdigits : ∀ m : Nat, ∀ d ∈ Nat.toDigits 10 m, d.isDigit = true :=
    fun m d h => Nat.isDigit_of_mem_toDigits (by decide) (by decide) h
  have hlead : ∀ m : Nat, (Nat.toDigits 10 m).head? = some '0' → (Nat.toDigits 10 m).length = 1 := by
    intro m h
    rw [head?_toDigits h]
    rfl
  unfold readNumber
  cases n with
  | ofNat n =>
      have hsize : n < UInt64.size := hn
      rw [wholeChars, numberToken_digits Nat.toDigits_ne_nil (hdigits n) (hlead n) hr]
      simp [NumberToken.value, natOfDigits_toDigits, hsize]
  | negSucc n =>
      have hsize : n + 1 ≤ UInt64.size / 2 := hn
      rw [wholeChars, List.cons_append,
        numberToken_minus Nat.toDigits_ne_nil (hdigits (n + 1)) (hlead (n + 1)) hr]
      simp [NumberToken.value, natOfDigits_toDigits, hsize, Int.negSucc_eq]


/-! ## Trees -/

end Json

namespace Node

mutual
/-- Every number is whole, as a text may hold it. -/
def Integral : Node → Prop
  | number (.whole n) => Json.Fits n
  | number (.double _) => False
  | list items => AllIntegral items
  | map entries => EntriesIntegral entries
  | _ => True

def AllIntegral : List Node → Prop
  | [] => True
  | item :: items => Integral item ∧ AllIntegral items

def EntriesIntegral : List (String × Node) → Prop
  | [] => True
  | (_, value) :: entries => Integral value ∧ EntriesIntegral entries
end

theorem charsOfItems_cons (item : Node) {items : List Node} (h : items ≠ []) :
    charsOfItems (item :: items) = item.chars ++ ',' :: charsOfItems items := by
  rw [charsOfItems]
  exact h

theorem charsOfEntries_cons (key : String) (value : Node) {entries : List (String × Node)} (h : entries ≠ []) :
    charsOfEntries ((key, value) :: entries) =
      Json.quoted key ++ ':' :: (value.chars ++ ',' :: charsOfEntries entries) := by
  rw [charsOfEntries]
  exact h

end Node

namespace Json

theorem ends_of {c : Char} (h : c = ',' ∨ c = ']' ∨ c = '}') (rest : List Char) : Ends (c :: rest) := by
  intro d hd
  obtain rfl := Option.some.inj hd
  rcases h with rfl | rfl | rfl <;> decide

theorem exists_of_wholeChars (n : Int) : ∃ c cs, wholeChars n = c :: cs ∧ (c = '-' ∨ c.isDigit = true) := by
  cases n with
  | ofNat n =>
      obtain ⟨c, cs, h⟩ := List.exists_cons_of_ne_nil (Nat.toDigits_ne_nil (b := 10) (n := n))
      refine ⟨c, cs, h, .inr ?_⟩
      exact Nat.isDigit_of_mem_toDigits (by decide) (by decide) (h ▸ List.mem_cons_self)
  | negSucc n => exact ⟨_, _, rfl, .inl rfl⟩

/-- The first character of a value is not blank, and closes nothing. -/
def Starts (c : Char) : Prop := isBlank c = false ∧ c ≠ ']' ∧ c ≠ '}'

instance : DecidablePred Starts := fun c => inferInstanceAs (Decidable (_ ∧ c ≠ ']' ∧ c ≠ '}'))

theorem starts_of_number {c : Char} (h : c = '-' ∨ c.isDigit = true) : Starts c := by
  rcases h with rfl | h
  · decide
  · have hne : ∀ d : Char, d.isDigit = false → c ≠ d := by
      rintro d hd rfl
      rw [h] at hd
      cases hd
    refine ⟨?_, hne _ (by decide), hne _ (by decide)⟩
    simp [isBlank, hne ' ' (by decide), hne '\n' (by decide), hne '\r' (by decide), hne '\t' (by decide)]

theorem exists_of_chars (node : Node) (h : node.Integral) : ∃ c cs, node.chars = c :: cs ∧ Starts c := by
  match node with
  | .null => exact ⟨_, _, rfl, by decide⟩
  | .bool true => exact ⟨_, _, rfl, by decide⟩
  | .bool false => exact ⟨_, _, rfl, by decide⟩
  | .number (.whole n) =>
      obtain ⟨c, cs, hc, hs⟩ := exists_of_wholeChars n
      exact ⟨c, cs, hc, starts_of_number hs⟩
  | .text s => exact ⟨_, _, rfl, by decide⟩
  | .list items => exact ⟨_, _, rfl, by decide⟩
  | .map entries => exact ⟨_, _, rfl, by decide⟩

theorem skipBlanks_cons {c : Char} (h : isBlank c = false) (cs : List Char) : skipBlanks (c :: cs) = c :: cs := by
  simp [skipBlanks, h]

theorem readValue_text (depth : Nat) (s : String) (rest : List Char) :
    readValue depth (quoted s ++ rest) = some (.text s, rest) := by
  rw [quoted, List.cons_append, readValue, skipBlanks_cons (by decide), List.append_assoc, List.singleton_append]
  simp only [readQuoted_quoted, Option.map_some]

theorem readValue_number (depth : Nat) {n : Int} (hn : Fits n) {rest : List Char} (hr : Ends rest) :
    readValue depth (wholeChars n ++ rest) = some (.number (.whole n), rest) := by
  have h := readNumber_whole hn hr
  obtain ⟨c, cs, hc, hs⟩ := exists_of_wholeChars n
  rw [hc, List.cons_append] at h ⊢
  have hne : ∀ d : Char, d.isDigit = false → d ≠ '-' → c ≠ d := by
    rintro d hd hm rfl
    rcases hs with hs | hs
    · exact hm hs
    · rw [hs] at hd
      cases hd
  rw [readValue, skipBlanks_cons (starts_of_number hs).1]
  -- the first character is a digit or a minus, so that no other kind of value is tried
  split
  all_goals try (rename_i he; exact absurd (List.cons.inj he).1 (hne _ (by decide) (by decide)))
  simp only [h, Option.map_some]

theorem readItems_last {value : List Char → Option (Node × List Char)} {steps : Nat} {cs rest : List Char}
    {item : Node} (h : value cs = some (item, ']' :: rest)) :
    readItems value (steps + 1) cs = some ([item], rest) := by
  rw [readItems, h]
  simp [skipBlanks_cons (c := ']') (by decide)]

theorem readItems_more {value : List Char → Option (Node × List Char)} {steps : Nat} {cs rest : List Char}
    {item : Node} (h : value cs = some (item, ',' :: rest)) :
    readItems value (steps + 1) cs = (readItems value steps rest).map fun p => (item :: p.1, p.2) := by
  rw [readItems, h]
  simp only [Option.bind_eq_bind, Option.bind_some, skipBlanks_cons (c := ',') (by decide)]
  cases readItems value steps rest <;> rfl

theorem readEntries_last {value : List Char → Option (Node × List Char)} {steps : Nat} {cs rest : List Char}
    {item : Node} (key : String) (h : value cs = some (item, '}' :: rest)) :
    readEntries value (steps + 1) (quoted key ++ ':' :: cs) = some ([(key, item)], rest) := by
  rw [readEntries, quoted, List.cons_append, skipBlanks_cons (by decide), List.append_assoc, List.singleton_append]
  simp [readQuoted_quoted, skipBlanks_cons (c := ':') (by decide), skipBlanks_cons (c := '}') (by decide), h]

theorem readEntries_more {value : List Char → Option (Node × List Char)} {steps : Nat} {cs rest : List Char}
    {item : Node} (key : String) (h : value cs = some (item, ',' :: rest)) :
    readEntries value (steps + 1) (quoted key ++ ':' :: cs) =
      (readEntries value steps rest).map fun p => ((key, item) :: p.1, p.2) := by
  rw [readEntries, quoted, List.cons_append, skipBlanks_cons (by decide), List.append_assoc, List.singleton_append]
  simp only [readQuoted_quoted, Option.bind_eq_bind, Option.bind_some, skipBlanks_cons (c := ':') (by decide), h,
    skipBlanks_cons (c := ',') (by decide)]
  cases readEntries value steps rest <;> rfl

theorem readValue_list {depth : Nat} {cs rest : List Char} {items : List Node}
    (hs : ∃ c cs', cs = c :: cs' ∧ Starts c)
    (h : readItems (readValue depth) (cs.length + 1) cs = some (items, rest)) :
    readValue (depth + 1) ('[' :: cs) = some (.list items, rest) := by
  obtain ⟨c, cs, rfl, hc⟩ := hs
  rw [readValue, skipBlanks_cons (by decide)]
  simp only [skipBlanks_cons hc.1]
  split
  · rename_i he
    exact absurd (List.cons.inj he).1 hc.2.1
  · rw [h, Option.map_some]

theorem readValue_map {depth : Nat} {cs rest : List Char} {entries : List (String × Node)}
    (hs : ∃ c cs', cs = c :: cs' ∧ Starts c) (hd : Table.Distinct entries)
    (h : readEntries (readValue depth) (cs.length + 1) cs = some (entries, rest)) :
    readValue (depth + 1) ('{' :: cs) = some (.map entries, rest) := by
  obtain ⟨c, cs, rfl, hc⟩ := hs
  rw [readValue, skipBlanks_cons (by decide)]
  simp only [skipBlanks_cons hc.1]
  split
  · rename_i he
    exact absurd (List.cons.inj he).1 hc.2.2
  · rw [h, Option.map_some, Table.ofList_of_distinct hd]

end Json

namespace Node

theorem length_charsOfItems (items : List Node) (h : AllIntegral items) :
    items.length ≤ (charsOfItems items).length := by
  induction items with
  | nil => simp
  | cons item items ih =>
      obtain ⟨c, cs, hc, -⟩ := Json.exists_of_chars item h.1
      by_cases hne : items = []
      · simp [hne, charsOfItems, hc]
      · have := ih h.2
        rw [charsOfItems_cons item hne, hc]
        simp
        omega

theorem length_charsOfEntries (entries : List (String × Node)) :
    entries.length ≤ (charsOfEntries entries).length := by
  induction entries with
  | nil => simp
  | cons e entries ih =>
      by_cases hne : entries = []
      · simp [hne, charsOfEntries, Json.quoted]
      · rw [charsOfEntries_cons e.1 e.2 hne]
        simp
        omega

end Node

namespace Json

theorem starts_of_items {item : Node} {items : List Node} (h : Node.AllIntegral (item :: items))
    (rest : List Char) : ∃ c cs, Node.charsOfItems (item :: items) ++ rest = c :: cs ∧ Starts c := by
  obtain ⟨c, cs, hc, hs⟩ := exists_of_chars item h.1
  refine ⟨c, ?_⟩
  by_cases hne : items = []
  · exact ⟨_, by rw [hne, Node.charsOfItems, hc, List.cons_append], hs⟩
  · exact ⟨_, by rw [Node.charsOfItems_cons item hne, hc, List.cons_append, List.cons_append], hs⟩

theorem starts_of_entries (key : String) (value : Node) (entries : List (String × Node)) (rest : List Char) :
    ∃ c cs, Node.charsOfEntries ((key, value) :: entries) ++ rest = c :: cs ∧ Starts c := by
  refine ⟨'"', ?_⟩
  by_cases hne : entries = []
  · exact ⟨_, by rw [hne, Node.charsOfEntries, quoted, List.cons_append, List.cons_append], by decide⟩
  · exact ⟨_, by rw [Node.charsOfEntries_cons key value hne, quoted, List.cons_append, List.cons_append], by decide⟩

mutual
/-- A value is read from its text, whatever follows it. -/
theorem readValue_chars (depth : Nat) (node : Node) (hw : node.WellFormed) (hi : node.Integral)
    (hd : node.depth ≤ depth) {rest : List Char} (hr : Ends rest) :
    readValue depth (node.chars ++ rest) = some (node, rest) := by
  match node with
  | .null | .bool true | .bool false =>
      rw [Node.chars, List.cons_append, readValue, skipBlanks_cons (by decide)]
      rfl
  | .number (.whole n) => exact readValue_number depth hi hr
  | .text s => exact readValue_text depth s rest
  | .list [] =>
      obtain ⟨depth, rfl⟩ := Nat.exists_eq_add_of_le' (Nat.le_trans (Nat.le_add_left _ _) hd)
      simp [Node.chars, Node.charsOfItems, readValue, skipBlanks, isBlank]
  | .list (item :: items) =>
      obtain ⟨depth, rfl⟩ := Nat.exists_eq_add_of_le' (Nat.le_trans (Nat.le_add_left _ _) hd)
      -- one step is allowed for each character, and each item takes at least one
      have hlen := Node.length_charsOfItems (item :: items) hi
      rw [Node.chars, List.cons_append, List.append_assoc, List.singleton_append]
      refine readValue_list (starts_of_items hi _) ?_
      exact readItems_chars depth _ (item :: items) hw hi (Nat.le_of_succ_le_succ hd) (List.cons_ne_nil _ _)
        (by rw [List.length_append]; omega) rest
  | .map [] =>
      obtain ⟨depth, rfl⟩ := Nat.exists_eq_add_of_le' (Nat.le_trans (Nat.le_add_left _ _) hd)
      simp [Node.chars, Node.charsOfEntries, readValue, skipBlanks, isBlank]
  | .map ((key, value) :: entries) =>
      obtain ⟨depth, rfl⟩ := Nat.exists_eq_add_of_le' (Nat.le_trans (Nat.le_add_left _ _) hd)
      have hlen := Node.length_charsOfEntries ((key, value) :: entries)
      rw [Node.chars, List.cons_append, List.append_assoc, List.singleton_append]
      refine readValue_map (starts_of_entries key value entries _) hw.1 ?_
      exact readEntries_chars depth _ ((key, value) :: entries) hw.2 hi (Nat.le_of_succ_le_succ hd)
        (List.cons_ne_nil _ _) (by rw [List.length_append]; omega) rest

theorem readItems_chars (depth steps : Nat) (items : List Node) (hw : Node.AllWellFormed items)
    (hi : Node.AllIntegral items) (hd : Node.depthOfItems items ≤ depth) (hne : items ≠ [])
    (hs : items.length ≤ steps) (rest : List Char) :
    readItems (readValue depth) steps (Node.charsOfItems items ++ ']' :: rest) = some (items, rest) := by
  match items with
  | item :: items =>
      obtain ⟨steps, rfl⟩ := Nat.exists_eq_add_of_le' (Nat.le_trans (Nat.le_add_left _ _) hs)
      have hvalue {rest : List Char} (hr : Ends rest) :=
        readValue_chars depth item hw.1 hi.1 (Nat.le_trans (Nat.le_max_left _ _) hd) hr
      have hmore := readItems_chars depth steps items hw.2 hi.2 (Nat.le_trans (Nat.le_max_right _ _) hd)
      by_cases h : items = []
      · subst h
        exact readItems_last (hvalue (ends_of (.inr (.inl rfl)) _))
      · rw [Node.charsOfItems_cons item h, List.append_assoc, List.cons_append,
          readItems_more (hvalue (ends_of (.inl rfl) _)), hmore h (Nat.le_of_succ_le_succ hs), Option.map_some]

theorem readEntries_chars (depth steps : Nat) (entries : List (String × Node))
    (hw : Node.EntriesWellFormed entries) (hi : Node.EntriesIntegral entries)
    (hd : Node.depthOfEntries entries ≤ depth) (hne : entries ≠ []) (hs : entries.length ≤ steps)
    (rest : List Char) :
    readEntries (readValue depth) steps (Node.charsOfEntries entries ++ '}' :: rest) = some (entries, rest) := by
  match entries with
  | (key, value) :: entries =>
      obtain ⟨steps, rfl⟩ := Nat.exists_eq_add_of_le' (Nat.le_trans (Nat.le_add_left _ _) hs)
      have hvalue {rest : List Char} (hr : Ends rest) :=
        readValue_chars depth value hw.1 hi.1 (Nat.le_trans (Nat.le_max_left _ _) hd) hr
      have hmore := readEntries_chars depth steps entries hw.2 hi.2 (Nat.le_trans (Nat.le_max_right _ _) hd)
      by_cases h : entries = []
      · subst h
        rw [Node.charsOfEntries, List.append_assoc, List.cons_append]
        exact readEntries_last key (hvalue (ends_of (.inr (.inr rfl)) _))
      · rw [Node.charsOfEntries_cons key value h, List.append_assoc, List.cons_append, List.append_assoc,
          List.cons_append, readEntries_more key (hvalue (ends_of (.inl rfl) _)),
          hmore h (Nat.le_of_succ_le_succ hs), Option.map_some]
end

/-- A tree is read back from its compact text, where the text may nest as deep as the tree does. -/
theorem parseWithin?_json {depth : Nat} {node : Node} (hw : node.WellFormed) (hi : node.Integral)
    (hd : node.depth ≤ depth) : parseWithin? depth node.json = some node := by
  have hends : Ends [] := fun _ h => nomatch h
  have h := readValue_chars depth node hw hi hd hends
  rw [List.append_nil] at h
  rw [parseWithin?, Node.json, String.toList_ofList, h]
  rfl

end Json
end Shorthand
