import Mathlib.Data.List.Forall2

/-!
# When a computation that may fail succeeds

A chain of steps succeeds with a value if each step does, and a list of steps if every one of them does.
-/
namespace Shorthand.Outcome

variable {ε α β γ : Type}

@[simp] theorem bind_eq_ok {x : Except ε α} {f : α → Except ε β} {b : β} :
    (x >>= f) = .ok b ↔ ∃ a, x = .ok a ∧ f a = .ok b := by
  cases x <;> simp [bind, Except.bind]

@[simp] theorem ok_bind {a : α} {f : α → Except ε β} : ((.ok a : Except ε α) >>= f) = f a := rfl

@[simp] theorem map_eq_ok {x : Except ε α} {f : α → β} {b : β} :
    x.map f = .ok b ↔ ∃ a, x = .ok a ∧ f a = b := by
  cases x <;> simp [Except.map]

/-- A run with a state, of whose value something is made. -/
theorem map_fst_eq_ok {σ : Type} {run : Except ε α × σ} {f : α → β} {b : β} {s : σ} :
    (run.1.map f, run.2) = (.ok b, s) ↔ ∃ a, run = (.ok a, s) ∧ f a = b := by
  obtain ⟨result, s'⟩ := run
  cases result <;> simp [Except.map, and_comm]

theorem map_bind (x : Except ε α) (f : α → Except ε β) (g : β → γ) :
    (x >>= f).map g = x >>= fun a => (f a).map g := by
  cases x <;> rfl

theorem bind_ok (x : Except ε α) (g : α → β) : (x >>= fun a => .ok (g a)) = x.map g := by
  cases x <;> rfl

@[simp] theorem functorMap_eq_ok {x : Except ε α} {f : α → β} {b : β} :
    f <$> x = .ok b ↔ ∃ a, x = .ok a ∧ f a = b :=
  map_eq_ok

@[simp] theorem pure_eq_ok {a b : α} : (pure a : Except ε α) = .ok b ↔ a = b := by
  simp [pure, Except.pure]

theorem exists_of_isOk {x : Except ε α} (h : x.isOk = true) : ∃ a, x = .ok a := by
  cases x with
  | error _ => cases h
  | ok a => exact ⟨a, rfl⟩

theorem ok_of_mapError {x : Except ε α} {tell : ε → γ} {a : α} (h : x.mapError tell = .ok a) :
    x = .ok a := by
  cases x with
  | error _ => simp [Except.mapError] at h
  | ok _ => simpa [Except.mapError] using h

theorem mapM_eq_ok {f : α → Except ε β} {as : List α} {bs : List β} :
    as.mapM f = .ok bs ↔ List.Forall₂ (fun a b => f a = .ok b) as bs := by
  induction as generalizing bs with
  | nil => cases bs <;> simp [pure, Except.pure]
  | cons a as ih =>
      cases bs with
      | nil => simp
      | cons b bs =>
          simp only [List.mapM_cons, bind_eq_ok, pure_eq_ok, ih, List.forall₂_cons, List.cons.injEq]
          constructor
          · rintro ⟨_, hb, _, hbs, rfl, rfl⟩
            exact ⟨hb, hbs⟩
          · rintro ⟨hb, hbs⟩
            exact ⟨_, hb, _, hbs, rfl, rfl⟩

theorem rel_bind {δ : Type} {R : α → β → Prop} {S : γ → δ → Prop} {x : Option α} {y : Option β}
    {f : α → Option γ} {g : β → Option δ} (h : Option.Rel R x y)
    (hf : ∀ a b, R a b → Option.Rel S (f a) (g b)) : Option.Rel S (x.bind f) (y.bind g) := by
  cases h with
  | none => exact .none
  | some h => exact hf _ _ h

theorem exists_of_mem_right {R : α → β → Prop} {as : List α} {bs : List β} (h : List.Forall₂ R as bs)
    {b : β} (hb : b ∈ bs) : ∃ a ∈ as, R a b := by
  induction h with
  | nil => simp at hb
  | cons hr _ ih =>
      rcases List.mem_cons.mp hb with rfl | hb
      · exact ⟨_, List.mem_cons_self, hr⟩
      · obtain ⟨a, ha, hab⟩ := ih hb
        exact ⟨a, List.mem_cons_of_mem _ ha, hab⟩

theorem exists_right {R : α → β → Prop} {as : List α} {bs : List β} (h : List.Forall₂ R as bs) {i : Nat}
    {a : α} (ha : as[i]? = some a) : ∃ b, bs[i]? = some b ∧ R a b := by
  induction h generalizing i with
  | nil => cases ha
  | cons hr _ ih =>
      cases i with
      | zero =>
          obtain rfl := Option.some.inj ha
          exact ⟨_, rfl, hr⟩
      | succ i => exact ih ha

theorem exists_left {R : α → β → Prop} {as : List α} {bs : List β} (h : List.Forall₂ R as bs) {i : Nat}
    {b : β} (hb : bs[i]? = some b) : ∃ a, as[i]? = some a ∧ R a b :=
  exists_right h.flip hb

theorem getElem?_zipIdx_of {as : List α} {i : Nat} {a : α} (h : as[i]? = some a) :
    as.zipIdx[i]? = some (a, i) := by
  rw [List.getElem?_zipIdx, h, Option.map_some, Nat.zero_add]

theorem forall₂_zipIdx {R : α → β → Prop} {as : List α} {bs : List β} (h : List.Forall₂ R as bs) (n : Nat) :
    List.Forall₂ (fun a b => R a b.1) as (bs.zipIdx n) := by
  induction h generalizing n with
  | nil => exact .nil
  | cons hr _ ih => exact .cons hr (ih (n + 1))

theorem map_eq_map {f : α → γ} {g : β → γ} {as : List α} {bs : List β}
    (h : List.Forall₂ (fun a b => f a = g b) as bs) : as.map f = bs.map g := by
  induction h with
  | nil => rfl
  | cons hab _ ih => rw [List.map_cons, List.map_cons, hab, ih]

theorem forall₂_append_left {R : α → β → Prop} {as more : List α} {bs : List β}
    (h : List.Forall₂ R (as ++ more) bs) :
    ∃ cs ds, bs = cs ++ ds ∧ List.Forall₂ R as cs ∧ List.Forall₂ R more ds := by
  refine ⟨bs.take as.length, bs.drop as.length, (List.take_append_drop _ _).symm, ?_, ?_⟩
  · exact (List.forall₂_take_append _ _ _ h.flip).flip
  · exact (List.forall₂_drop_append _ _ _ h.flip).flip

/-- Lists that are related in two steps have one between them. -/
theorem exists_between {R : α → β → Prop} {S : β → γ → Prop} {as : List α} {cs : List γ}
    (h : List.Forall₂ (fun a c => ∃ b, R a b ∧ S b c) as cs) :
    ∃ bs, List.Forall₂ R as bs ∧ List.Forall₂ S bs cs := by
  induction h with
  | nil => exact ⟨[], .nil, .nil⟩
  | cons hr _ ih =>
      obtain ⟨b, hab, hbc⟩ := hr
      obtain ⟨bs, has, hbs⟩ := ih
      exact ⟨b :: bs, .cons hab has, .cons hbc hbs⟩

theorem mapM_ok {f : α → Except ε β} {as : List α} (h : ∀ a ∈ as, ∃ b, f a = .ok b) :
    ∃ bs, as.mapM f = .ok bs := by
  induction as with
  | nil => exact ⟨[], rfl⟩
  | cons a as ih =>
      obtain ⟨⟨b, hb⟩, has⟩ := List.forall_mem_cons.mp h
      obtain ⟨bs, hbs⟩ := ih has
      exact ⟨b :: bs, mapM_eq_ok.mpr (.cons hb (mapM_eq_ok.mp hbs))⟩

theorem bind_eq_error {x : Except ε α} {f : α → Except ε β} {e : ε} :
    (x >>= f) = .error e ↔ x = .error e ∨ ∃ a, x = .ok a ∧ f a = .error e := by
  cases x <;> simp [bind, Except.bind]

theorem exists_of_mapM_eq_error {f : α → Except ε β} {as : List α} {e : ε} (h : as.mapM f = .error e) :
    ∃ a ∈ as, f a = .error e := by
  induction as with
  | nil => cases h
  | cons a as ih =>
      rw [List.mapM_cons] at h
      rcases bind_eq_error.mp h with h | ⟨_, _, h⟩
      · exact ⟨a, List.mem_cons_self, h⟩
      · rcases bind_eq_error.mp h with h | ⟨_, _, h⟩
        · obtain ⟨a', ha, h⟩ := ih h
          exact ⟨a', List.mem_cons_of_mem _ ha, h⟩
        · cases h

/-- A fold fails at one of its steps, before which what every step keeps still holds. -/
theorem exists_of_foldlM_eq_error {P : β → Prop} {f : β → α → Except ε β} {as : List α} {b : β} {e : ε}
    (hb : P b) (hstep : ∀ a ∈ as, ∀ b b', P b → f b a = .ok b' → P b') (h : as.foldlM f b = .error e) :
    ∃ a ∈ as, ∃ b', P b' ∧ f b' a = .error e := by
  induction as generalizing b with
  | nil => cases h
  | cons a as ih =>
      rw [List.foldlM_cons] at h
      rcases bind_eq_error.mp h with h | ⟨b', hb', h⟩
      · exact ⟨a, List.mem_cons_self, b, hb, h⟩
      · obtain ⟨hfirst, hstep⟩ := List.forall_mem_cons.mp hstep
        obtain ⟨a', ha, h⟩ := ih (hfirst b b' hb hb') hstep h
        exact ⟨a', List.mem_cons_of_mem _ ha, h⟩

end Shorthand.Outcome
