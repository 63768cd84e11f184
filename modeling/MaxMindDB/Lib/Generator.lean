import Mathlib.Data.List.Basic
import Mathlib.Data.List.Forall2

/-!
# Generators that may raise

A run of a generator is the list of the values it yields and how it ends: by running out
(`raised = none`) or with an exception, after which nothing follows. `andThen` is `yield from`
followed by the rest of the body, `await` is a call that may raise, and `mapM` renders the yielded
values one by one and ends at the first that cannot be rendered.
-/

/-- The values a generator yields, and the exception that ends it, if any. -/
structure Gen (ε α : Type*) where
  yields : List α
  raised : Option ε
  deriving DecidableEq

namespace Gen

variable {ε α β : Type*}

/-- A generator that ends at once. -/
def done : Gen ε α := ⟨[], none⟩

/-- A generator that raises at once. -/
def raise (e : ε) : Gen ε α := ⟨[], some e⟩

/-- A generator that yields one value. -/
def yield (a : α) : Gen ε α := ⟨[a], none⟩

/-- `yield from g`, then `h`. -/
def andThen (g h : Gen ε α) : Gen ε α :=
  match g.raised with
  | none => ⟨g.yields ++ h.yields, h.raised⟩
  | some e => ⟨g.yields, some e⟩

/-- A call inside a generator: its exception ends the generator. -/
def await (x : Except ε β) (k : β → Gen ε α) : Gen ε α :=
  match x with
  | .error e => raise e
  | .ok b => k b

@[simp] theorem done_yields : (done : Gen ε α).yields = [] := rfl
@[simp] theorem done_raised : (done : Gen ε α).raised = none := rfl
@[simp] theorem raise_yields (e : ε) : (raise e : Gen ε α).yields = [] := rfl
@[simp] theorem raise_raised (e : ε) : (raise e : Gen ε α).raised = some e := rfl
@[simp] theorem yield_yields (a : α) : (yield a : Gen ε α).yields = [a] := rfl
@[simp] theorem yield_raised (a : α) : (yield a : Gen ε α).raised = none := rfl
@[simp] theorem await_ok (b : β) (k : β → Gen ε α) : await (.ok b) k = k b := rfl
@[simp] theorem await_error (e : ε) (k : β → Gen ε α) : await (.error e) k = raise e := rfl

@[simp] theorem done_andThen (h : Gen ε α) : done.andThen h = h := rfl

@[simp] theorem raise_andThen (e : ε) (h : Gen ε α) : (raise e).andThen h = raise e := rfl

theorem andThen_of_none {g : Gen ε α} (hg : g.raised = none) (h : Gen ε α) :
    g.andThen h = ⟨g.yields ++ h.yields, h.raised⟩ := by
  unfold andThen; rw [hg]

theorem andThen_of_some {g : Gen ε α} {e : ε} (hg : g.raised = some e) (h : Gen ε α) :
    g.andThen h = g := by
  obtain ⟨ys, r⟩ := g
  cases hg
  rfl

theorem andThen_raised_none {g h : Gen ε α} :
    (g.andThen h).raised = none ↔ g.raised = none ∧ h.raised = none := by
  unfold andThen
  cases hg : g.raised <;> simp

theorem mem_andThen {g h : Gen ε α} {a : α} (ha : a ∈ (g.andThen h).yields) :
    a ∈ g.yields ∨ a ∈ h.yields := by
  cases hg : g.raised with
  | none =>
    rw [andThen_of_none hg] at ha
    exact List.mem_append.mp ha
  | some e =>
    rw [andThen_of_some hg] at ha
    exact .inl ha

/-- The values of `g` followed by those of `h` stay pairwise related when the two parts are. -/
theorem pairwise_andThen {r : α → α → Prop} {g h : Gen ε α} (hg : g.yields.Pairwise r)
    (hh : h.yields.Pairwise r) (hgh : ∀ a ∈ g.yields, ∀ b ∈ h.yields, r a b) :
    (g.andThen h).yields.Pairwise r := by
  cases hr : g.raised with
  | none =>
    rw [andThen_of_none hr]
    exact List.pairwise_append.mpr ⟨hg, hh, hgh⟩
  | some e =>
    rwa [andThen_of_some hr]

/-! A generator does not end with what no part of it raises. -/

theorem andThen_raised_ne {g h : Gen ε α} {e : ε} (hg : g.raised ≠ some e) (hh : h.raised ≠ some e) :
    (g.andThen h).raised ≠ some e := by
  cases hr : g.raised with
  | none =>
    rw [andThen_of_none hr]
    exact hh
  | some e' =>
    rw [andThen_of_some hr]
    exact hg

theorem await_raised_ne {x : Except ε β} {k : β → Gen ε α} {e : ε} (hx : x ≠ .error e)
    (hk : ∀ b, x = .ok b → (k b).raised ≠ some e) : (await x k).raised ≠ some e := by
  cases x with
  | error e' =>
    rintro ⟨⟩
    exact hx rfl
  | ok b => exact hk b rfl

/-- The run of `g` is a part of the run of `h`. -/
structure Part (g h : Gen ε α) : Prop where
  mem : ∀ a ∈ g.yields, a ∈ h.yields
  raised : ∀ e, g.raised = some e → h.raised = some e

theorem Part.refl (g : Gen ε α) : Part g g := ⟨fun _ ha => ha, fun _ he => he⟩

theorem Part.trans {f g h : Gen ε α} (hfg : Part f g) (hgh : Part g h) : Part f h :=
  ⟨fun a ha => hgh.mem a (hfg.mem a ha), fun e he => hgh.raised e (hfg.raised e he)⟩

theorem part_andThen_left (g h : Gen ε α) : Part g (g.andThen h) := by
  cases hg : g.raised with
  | none =>
    rw [andThen_of_none hg]
    exact ⟨fun a ha => List.mem_append_left _ ha, fun e he => by rw [hg] at he; cases he⟩
  | some e =>
    rw [andThen_of_some hg]
    exact .refl g

theorem part_andThen_right {g : Gen ε α} (hg : g.raised = none) (h : Gen ε α) :
    Part h (g.andThen h) := by
  rw [andThen_of_none hg]
  exact ⟨fun a ha => List.mem_append_right _ ha, fun e he => he⟩

/-! ## Rendering -/

/-- The generator over `as` rendered by `f`, ending as `e` says when every value is rendered. -/
def mapList (f : α → Except ε β) (e : Option ε) : List α → Gen ε β
  | [] => ⟨[], e⟩
  | a :: as => await (f a) fun b => (yield b).andThen (mapList f e as)

/-- The generator that renders the values of `g` by `f`. -/
def mapM (f : α → Except ε β) (g : Gen ε α) : Gen ε β := mapList f g.raised g.yields

@[simp] theorem mapM_done (f : α → Except ε β) : (done : Gen ε α).mapM f = done := rfl

@[simp] theorem mapM_raise (f : α → Except ε β) (e : ε) : (raise e : Gen ε α).mapM f = raise e := rfl

theorem mapM_ok (g : Gen ε α) : g.mapM .ok = g := by
  obtain ⟨as, e⟩ := g
  unfold mapM
  induction as with
  | nil => rfl
  | cons a as ih =>
    rw [mapList, await_ok, ih]
    rfl

theorem mapM_yield (f : α → Except ε β) (a : α) :
    (yield a : Gen ε α).mapM f = await (f a) fun b => yield b := by
  cases h : f a <;> simp [mapM, mapList, h, andThen, yield]

theorem mapM_await {γ : Type*} (f : α → Except ε β) (x : Except ε γ) (k : γ → Gen ε α) :
    (await x k).mapM f = await x fun c => (k c).mapM f := by
  cases x <;> rfl

theorem mapList_append (f : α → Except ε β) (e : Option ε) (as bs : List α) :
    mapList f e (as ++ bs) = (mapList f none as).andThen (mapList f e bs) := by
  induction as with
  | nil => rfl
  | cons a as ih =>
    rw [List.cons_append, mapList, mapList, ih]
    cases f a with
    | error e' => rfl
    | ok b =>
      simp only [await_ok]
      cases hr : (mapList f none as).raised <;> simp [andThen, hr]

theorem mapList_raised_some (f : α → Except ε β) (e : ε) (as : List α) (h : Gen ε β) :
    (mapList f (some e) as).andThen h = mapList f (some e) as := by
  have hs : ∃ e', (mapList f (some e) as).raised = some e' := by
    induction as with
    | nil => exact ⟨e, rfl⟩
    | cons a as ih =>
      rw [mapList]
      cases f a with
      | error e' => exact ⟨e', rfl⟩
      | ok b => exact ih
  obtain ⟨e', he'⟩ := hs
  exact andThen_of_some he' h

theorem mapM_andThen (f : α → Except ε β) (g h : Gen ε α) :
    (g.andThen h).mapM f = (g.mapM f).andThen (h.mapM f) := by
  cases hg : g.raised with
  | none =>
    rw [andThen_of_none hg, mapM, mapM, mapM, hg]
    exact mapList_append f _ _ _
  | some e =>
    rw [andThen_of_some hg, mapM, hg]
    exact (mapList_raised_some f e _ _).symm

theorem mapList_yields (f : α → Except ε β) (e : Option ε) (as : List α) :
    ∃ bs, bs <+: as ∧ List.Forall₂ (fun a b => f a = .ok b) bs (mapList f e as).yields := by
  induction as with
  | nil => exact ⟨[], List.nil_prefix, .nil⟩
  | cons a as ih =>
    rw [mapList]
    cases h : f a with
    | error e' => exact ⟨[], List.nil_prefix, .nil⟩
    | ok b =>
      obtain ⟨bs, hbs, hf⟩ := ih
      exact ⟨a :: bs, List.cons_prefix_cons.mpr ⟨rfl, hbs⟩, .cons h hf⟩

theorem mapM_yields (f : α → Except ε β) (g : Gen ε α) :
    ∃ as, as <+: g.yields ∧ List.Forall₂ (fun a b => f a = .ok b) as (g.mapM f).yields :=
  mapList_yields f _ _

theorem mem_mapM {f : α → Except ε β} {g : Gen ε α} {b : β} (hb : b ∈ (g.mapM f).yields) :
    ∃ a ∈ g.yields, f a = .ok b := by
  obtain ⟨as, has, hf⟩ := mapM_yields f g
  obtain ⟨i, hi, rfl⟩ := List.getElem_of_mem hb
  have hia : i < as.length := by rw [hf.length_eq]; exact hi
  exact ⟨as[i], has.subset (List.getElem_mem _), (List.forall₂_iff_get.mp hf).2 i hia hi⟩

theorem mapList_raised_none {f : α → Except ε β} {e : Option ε} {as : List α} :
    (mapList f e as).raised = none ↔ e = none ∧ ∀ a ∈ as, ∃ b, f a = .ok b := by
  induction as with
  | nil => simp [mapList]
  | cons a as ih =>
    rw [mapList]
    cases h : f a with
    | error e' => simp [h]
    | ok b => simp [andThen_raised_none, ih, h]

/-- The rendered generator runs to its end when the generator does and every value renders. -/
theorem mapM_raised_none {f : α → Except ε β} {g : Gen ε α} :
    (g.mapM f).raised = none ↔ g.raised = none ∧ ∀ a ∈ g.yields, ∃ b, f a = .ok b :=
  mapList_raised_none

theorem mapM_yields_of_none {f : α → Except ε β} {g : Gen ε α} (h : (g.mapM f).raised = none) :
    List.Forall₂ (fun a b => f a = .ok b) g.yields (g.mapM f).yields := by
  obtain ⟨hg, hall⟩ := mapM_raised_none.mp h
  unfold mapM
  rw [hg]
  generalize g.yields = as at hall
  induction as with
  | nil => exact .nil
  | cons a as ih =>
    obtain ⟨b, hb⟩ := hall a (by simp)
    rw [mapList, hb]
    exact .cons hb (ih fun a' ha' => hall a' (by simp [ha']))

theorem mapM_mem_of_none {f : α → Except ε β} {g : Gen ε α} (h : (g.mapM f).raised = none)
    {a : α} (ha : a ∈ g.yields) : ∃ b ∈ (g.mapM f).yields, f a = .ok b := by
  have hf := mapM_yields_of_none h
  obtain ⟨i, hi, rfl⟩ := List.getElem_of_mem ha
  have hlen := hf.length_eq
  exact ⟨_, List.getElem_mem (by omega), (List.forall₂_iff_get.mp hf).2 i hi (by omega)⟩

/-- A relation on values that renderings inherit orders what is yielded. -/
theorem mapM_pairwise {f : α → Except ε β} {g : Gen ε α} {r : α → α → Prop} {s : β → β → Prop}
    (hg : g.yields.Pairwise r)
    (hs : ∀ a ∈ g.yields, ∀ a' ∈ g.yields, ∀ b b', r a a' → f a = .ok b → f a' = .ok b' → s b b') :
    (g.mapM f).yields.Pairwise s := by
  obtain ⟨as, has, hf⟩ := mapM_yields f g
  have hp : as.Pairwise r := hg.sublist has.sublist
  have hmem : ∀ a ∈ as, a ∈ g.yields := fun a ha => has.subset ha
  generalize (g.mapM f).yields = bs at hf
  clear has
  induction hf with
  | nil => exact .nil
  | @cons a b as bs hab hrest ih =>
    rw [List.pairwise_cons] at hp
    refine List.pairwise_cons.mpr ⟨fun b' hb' => ?_, ih hp.2 fun a' ha' => hmem a' (by simp [ha'])⟩
    obtain ⟨i, hi, rfl⟩ := List.getElem_of_mem hb'
    have hia : i < as.length := by rw [hrest.length_eq]; exact hi
    have hai : as[i] ∈ as := List.getElem_mem _
    exact hs a (hmem a (by simp)) _ (hmem _ (by simp [hai])) _ _ (hp.1 _ hai) hab
      ((List.forall₂_iff_get.mp hrest).2 i hia hi)

end Gen
