/-!
Tables: values under keys, in the order in which the keys came. Inserting under a key that is
present replaces the value in place, a new key goes last, and removing a key keeps the order of the
rest.
-/
namespace Shorthand

/-- Entries in order, under texts. Every operation below keeps `Table.Distinct`. -/
abbrev Table (α : Type) := List (String × α)

namespace Table
variable {κ α β : Type}

def keys (t : List (κ × α)) : List κ := t.map Prod.fst

def values (t : List (κ × α)) : List α := t.map Prod.snd

/-- No key is given twice. -/
def Distinct (t : List (κ × α)) : Prop := (keys t).Nodup

def mapValues (f : α → β) (t : List (κ × α)) : List (κ × β) := t.map fun (k, v) => (k, f v)

variable [DecidableEq κ]

def get? : List (κ × α) → κ → Option α
  | [], _ => none
  | (k, v) :: t, key => if k = key then some v else get? t key

def has (t : List (κ × α)) (key : κ) : Bool := (get? t key).isSome

def put : List (κ × α) → κ → α → List (κ × α)
  | [], key, value => [(key, value)]
  | (k, v) :: t, key, value => if k = key then (key, value) :: t else (k, v) :: put t key value

/-- Puts the value only where the key is absent. -/
def putNew (t : List (κ × α)) (key : κ) (value : α) : List (κ × α) :=
  if has t key then t else put t key value

def erase : List (κ × α) → κ → List (κ × α)
  | [], _ => []
  | (k, v) :: t, key => if k = key then t else (k, v) :: erase t key

/-- The value under a key, and the table without it. -/
def take (t : List (κ × α)) (key : κ) : Option α × List (κ × α) := (get? t key, erase t key)

/-- Removes a key, handing its value, or else the default, to `handle`. -/
def extract {ε : Type} (t : List (κ × α)) (key : κ) (default : Option α)
    (handle : α → Except ε Unit) : Except ε (List (κ × α)) := do
  let (value, rest) := take t key
  match value.or default with
  | some value => handle value
  | none => .ok ()
  .ok rest

/-- Applies a function to the values under some keys, in the order of these. -/
def mapKeys {ε : Type} (f : κ → α → Except ε α) :
    List κ → List (κ × α) → Except ε (List (κ × α))
  | [], t => .ok t
  | key :: keys, t =>
    match get? t key with
    | none => mapKeys f keys t
    | some value => do
      let value ← f key value
      mapKeys f keys (put t key value)

/-- Puts every entry, the later one winning, each key standing where it first came. -/
def ofList (entries : List (κ × α)) : List (κ × α) :=
  entries.foldl (fun t (k, v) => put t k v) []

/-- Puts all entries of the second table into the first, in their order. -/
def putAll (t : List (κ × α)) (more : List (κ × α)) : List (κ × α) :=
  more.foldl (fun t (k, v) => put t k v) t

@[simp] theorem get?_nil (key : κ) : get? ([] : List (κ × α)) key = none := rfl

@[simp] theorem get?_put_self (t : List (κ × α)) (key : κ) (value : α) :
    get? (put t key value) key = some value := by
  induction t with
  | nil => simp [put, get?]
  | cons e t ih =>
    obtain ⟨k, v⟩ := e
    by_cases h : k = key <;> simp [put, get?, h, ih]

theorem get?_put_of_ne (t : List (κ × α)) {key other : κ} (value : α) (h : key ≠ other) :
    get? (put t key value) other = get? t other := by
  induction t with
  | nil => simp [put, get?, h]
  | cons e t ih =>
    obtain ⟨k, v⟩ := e
    by_cases hk : k = key
    · subst hk; simp [put, get?, h]
    · simp [put, get?, hk, ih]

theorem get?_eq_none_iff {t : List (κ × α)} {key : κ} : get? t key = none ↔ key ∉ keys t := by
  induction t with
  | nil => simp [keys]
  | cons e t ih =>
    obtain ⟨k, v⟩ := e
    simp only [keys] at ih
    by_cases h : k = key
    · simp [get?, keys, h]
    · simp [get?, keys, h, ih, Ne.symm h]

theorem has_iff_mem_keys {t : List (κ × α)} {key : κ} : has t key = true ↔ key ∈ keys t := by
  rw [has, Option.isSome_iff_ne_none, ne_eq, get?_eq_none_iff, Classical.not_not]

theorem keys_put_of_mem {t : List (κ × α)} {key : κ} (value : α) (h : key ∈ keys t) :
    keys (put t key value) = keys t := by
  induction t with
  | nil => simp [keys] at h
  | cons e t ih =>
    obtain ⟨k, v⟩ := e
    by_cases hk : k = key
    · simp [put, keys, hk]
    · have : key ∈ keys t := by simpa [keys, Ne.symm hk] using h
      simpa [put, keys, hk] using ih this

theorem put_of_not_mem {t : List (κ × α)} {key : κ} (value : α) (h : key ∉ keys t) :
    put t key value = t ++ [(key, value)] := by
  induction t with
  | nil => simp [put]
  | cons e t ih =>
    obtain ⟨k, v⟩ := e
    simp only [keys, List.map_cons, List.mem_cons, not_or] at h
    have hk : k ≠ key := Ne.symm h.1
    have := ih h.2
    simp [put, hk, this]

end Table
end Shorthand
