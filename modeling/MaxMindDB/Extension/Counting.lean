import MaxMindDB.Extension.Objects

/-!
# The reference counts are right

`Counts`: the count of each object is that of Python's references and of its holders, and its
deallocation has begun when that is zero. So a call is on an object that is alive, and the reader of an
iterator that is alive is.
-/

namespace MaxMindDB.Extension

open Octets OwnedList RefCount RwLock

variable {ι : Type*} {Entry Data Value : Type}

/-! ## Holders -/

/-- What holds a reference, but for Python. -/
inductive Holder (ι : Type*) where
  /-- The call of a thread, to its `self`. -/
  | call (t : ι)
  /-- `ri->reader`. -/
  | iterator (i : ℕ)
  /-- `ri` of a call of `Reader_iter`. -/
  | making (t : ι)

/-- The object that `Reader_iter` has a reference to, but for its `self`: the iterator that it is to return;
before that has got its number, the reader that it refers to. -/
def Pc.Makes : Pc Entry Data Value → Obj → Prop
  | .iterCalloc, o => o = .reader
  | .unlock .iter (.iterator i), o | .ret .iter (.iterator i), o => o = .iterator i
  | _, _ => False

namespace World

/-- An iterator still has its reference to the reader. -/
def HasReader (w : World ι Entry Data Value) (i : ℕ) : Prop :=
  i < w.state.memory.made ∧ (w.dying i = none ∨ w.dying i = some .decref)

/-- A holder has a reference to an object. -/
def Refers (w : World ι Entry Data Value) : Obj → Holder ι → Prop
  | o, .call t => w.self t = some o
  | o, .iterator i => o = .reader ∧ w.HasReader i
  | o, .making t => ∃ p, w.state.threads t = some p ∧ p.Makes o

/-- The deallocation of an object has not begun. -/
def Alive (w : World ι Entry Data Value) : Obj → Prop
  | .reader => w.life = .alive
  | .iterator i => i < w.state.memory.made ∧ w.dying i = none

end World

/-- A call has no iterator to return. -/
structure Pc.MakesNone (p : Pc Entry Data Value) : Prop where
  calloc : p ≠ .iterCalloc
  unlock : ∀ i, p ≠ .unlock .iter (.iterator i)
  ret : ∀ i, p ≠ .ret .iter (.iterator i)

theorem Pc.MakesNone.not_makes {p : Pc Entry Data Value} {o : Obj} (h : p.MakesNone) : ¬ p.Makes o := by
  unfold Pc.Makes
  split
  · exact absurd rfl h.calloc
  · exact absurd rfl (h.unlock _)
  · exact absurd rfl (h.ret _)
  · exact fun h => h

/-- A point of `Reader_close`, which `Reader__exit__` does not call. -/
def Pc.Closes : Pc Entry Data Value → Prop
  | .closeAcquire method | .closeTest method | .closeClose method | .closeFree method
  | .closeNull method | .closeSet method | .closeUnlock method | .ret method _ => method = .close
  | _ => False

/-- Each call is on an object, but for `Reader_close` of a deallocation. -/
structure OnObjects (w : World ι Entry Data Value) : Prop where
  unmade : ∀ i, w.state.memory.made ≤ i → w.dying i = none
  self : ∀ t, w.state.threads t ≠ none → w.self t ≠ none ∨ w.life = .closing t
  busy : ∀ t, w.self t ≠ none → w.state.threads t ≠ none
  on : ∀ t p i, w.state.threads t = some p → p.iterator = some i → w.self t = some (.iterator i)
  closing : ∀ t, w.life = .closing t →
    w.self t = none ∧ ∃ p, w.state.threads t = some p ∧ p.Closes

/-- The count of an object is right, and says whether it is alive. -/
def CountsOf (w : World ι Entry Data Value) (o : Obj) (n : ℕ) : Prop :=
  Counted n (w.vars o) (w.Refers o) ∧ (w.Alive o ↔ n ≠ 0)

/-- The counts are right. -/
structure Counts (w : World ι Entry Data Value) : Prop where
  onObjects : OnObjects w
  counts : ∀ o, CountsOf w o (w.refcnt o)

section

variable {w w' : World ι Entry Data Value} {o o' : Obj} {t u : ι} {i n : ℕ} {p q : Pc Entry Data Value}

theorem Counts.alive_of_refers (h : Counts w) {x : Holder ι} (hx : w.Refers o x) : w.Alive o :=
  (h.counts o).2.mpr ((h.counts o).1.ne_zero_of_holder hx)

theorem Counts.alive_of_vars (h : Counts w) (ho : w.vars o ≠ 0) : w.Alive o :=
  (h.counts o).2.mpr ((h.counts o).1.ne_zero_of_vars ho)

theorem Counts.alive_of_self (h : Counts w) (ht : w.self t = some o) : w.Alive o :=
  h.alive_of_refers (x := .call t) ht

theorem Counts.reader_alive (h : Counts w) (ho : w.Alive o) : w.life = .alive := by
  cases o with
  | reader => exact ho
  | iterator i => exact h.alive_of_refers (o := .reader) (x := .iterator i) ⟨rfl, ho.1, .inl ho.2⟩

/-- Only the thread that deallocates a reader is in the code then. -/
theorem Counts.threads_of_not_alive (h : Counts w) (hlife : w.life ≠ .alive)
    (ht : w.state.threads t ≠ none) : w.life = .closing t := by
  refine (h.onObjects.self t ht).resolve_left fun hself => ?_
  obtain ⟨o, ho⟩ := Option.ne_none_iff_exists'.mp hself
  exact hlife (h.reader_alive (h.alive_of_self ho))

theorem Counts.iterator_ne (h : Counts w) (hi : w.dying i ≠ none) (hp : w.state.threads t = some p) :
    p.iterator ≠ some i := by
  intro hiterator
  exact hi (h.alive_of_self (h.onObjects.on t p i hp hiterator)).2

theorem Counts.made_of_dying (h : Counts w) (hi : w.dying i ≠ none) : i < w.state.memory.made := by
  by_contra hge
  exact hi (h.onObjects.unmade i (not_lt.mp hge))

/-- `ri->reader` is alive until `ReaderIter_dealloc` drops the reference to it. -/
theorem Counts.alive_of_decref (h : Counts w) (hi : w.dying i = some .decref) : w.life = .alive := by
  have hlt : i < w.state.memory.made := by
    refine h.made_of_dying ?_
    rw [hi]
    exact Option.some_ne_none _
  exact h.alive_of_refers (o := .reader) (x := .iterator i) ⟨rfl, hlt, .inr hi⟩

theorem Counts.closes_of_closing (h : Counts w) (hlife : w.life = .closing t)
    (hp : w.state.threads t = some p) : p.Closes := by
  obtain ⟨-, q, hq, hcloses⟩ := h.onObjects.closing t hlife
  rw [hp] at hq
  cases hq
  exact hcloses

/-! ## Changes of the counts -/

theorem World.refers_congr (hself : w'.self = w.self) (hreader : ∀ i, w'.HasReader i ↔ w.HasReader i)
    (hthreads : w'.state.threads = w.state.threads) (o : Obj) (x : Holder ι) :
    w'.Refers o x ↔ w.Refers o x := by
  cases x with
  | call t =>
    show w'.self t = some o ↔ w.self t = some o
    rw [hself]
  | iterator i => exact and_congr_right fun _ => hreader i
  | making t =>
    show (∃ p, w'.state.threads t = some p ∧ p.Makes o) ↔ ∃ p, w.state.threads t = some p ∧ p.Makes o
    rw [hthreads]

theorem OnObjects.setRefcnt (h : OnObjects w) (ho : CountsOf w o n)
    (hothers : ∀ o', o' ≠ o → CountsOf w o' (w.refcnt o')) : Counts (w.setRefcnt o n) where
  onObjects := ⟨h.unmade, h.self, h.busy, h.on, h.closing⟩
  counts o' := by
    by_cases heq : o' = o
    · subst heq
      show CountsOf w o' (Function.update w.refcnt o' n o')
      rw [Function.update_self]
      exact ho
    · show CountsOf w o' (Function.update w.refcnt o n o')
      rw [Function.update_of_ne heq]
      exact hothers o' heq

theorem World.dealloc_refers (halive : w.Alive o) (o' : Obj) (x : Holder ι) :
    ((w.setRefcnt o n).dealloc o).Refers o' x ↔ w.Refers o' x := by
  cases o with
  | reader => exact World.refers_congr rfl (fun _ => Iff.rfl) rfl o' x
  | iterator i =>
    have hreader : ∀ j, ((w.setRefcnt (.iterator i) n).dealloc (.iterator i)).HasReader j ↔
        w.HasReader j := by
      intro j
      refine and_congr_right fun _ => ?_
      show Function.update w.dying i (some .decref) j = none ∨
        Function.update w.dying i (some .decref) j = some .decref ↔ _
      by_cases hj : j = i
      · subst hj
        rw [Function.update_self]
        exact iff_of_true (.inr rfl) (.inl halive.2)
      · rw [Function.update_of_ne hj]
    refine World.refers_congr ?_ hreader ?_ o' x <;> rfl

theorem World.dealloc_alive : ((w.setRefcnt o n).dealloc o).Alive o' ↔ o' ≠ o ∧ w.Alive o' := by
  cases o with
  | reader =>
    cases o' with
    | reader => exact iff_of_false (fun h => by cases h) fun h => h.1 rfl
    | iterator j => exact (and_iff_right fun h => by cases h).symm
  | iterator i =>
    cases o' with
    | reader => exact (and_iff_right fun h => by cases h).symm
    | iterator j =>
      show _ ∧ Function.update w.dying i (some .decref) j = none ↔ _
      by_cases hj : j = i
      · subst hj
        rw [Function.update_self]
        exact iff_of_false (fun h => by cases h.2) fun h => h.1 rfl
      · rw [Function.update_of_ne hj]
        exact (and_iff_right fun h => hj (Obj.iterator.inj h)).symm

theorem World.dealloc_refcnt : ((w.setRefcnt o n).dealloc o).refcnt = Function.update w.refcnt o n := by
  cases o <;> rfl

theorem World.dealloc_vars : ((w.setRefcnt o n).dealloc o).vars = w.vars := by cases o <;> rfl

/-- The deallocation of an object begins, as its count has come to zero. -/
theorem OnObjects.dealloc (h : OnObjects w) (halive : w.Alive o) (ho : Counted 0 (w.vars o) (w.Refers o))
    (hothers : ∀ o', o' ≠ o → CountsOf w o' (w.refcnt o')) :
    Counts ((w.setRefcnt o 0).dealloc o) where
  onObjects := by
    cases o with
    | reader =>
      have hlife : w.life = .alive := halive
      refine ⟨h.unmade, fun t ht => ?_, h.busy, h.on, fun t ht => by cases ht⟩
      refine .inl ((h.self t ht).resolve_right fun hclosing => ?_)
      rw [hlife] at hclosing
      cases hclosing
    | iterator i =>
      refine ⟨fun j hj => ?_, h.self, h.busy, h.on, h.closing⟩
      have hne : j ≠ i := (lt_of_lt_of_le halive.1 hj).ne'
      exact (Function.update_of_ne hne ..).trans (h.unmade j hj)
  counts o' := by
    unfold CountsOf
    rw [World.dealloc_refcnt, World.dealloc_vars, World.dealloc_alive]
    by_cases heq : o' = o
    · subst heq
      rw [Function.update_self]
      exact ⟨ho.congr (World.dealloc_refers halive o'), iff_of_false (fun h => h.1 rfl) fun h => h rfl⟩
    · rw [Function.update_of_ne heq, and_iff_right heq]
      obtain ⟨hcounted, hiff⟩ := hothers o' heq
      exact ⟨hcounted.congr (World.dealloc_refers halive o'), hiff⟩

/-- `Py_DECREF`, where one reference less is accounted for. -/
theorem OnObjects.decref (h : OnObjects w) (halive : w.Alive o)
    (ho : Counted (w.refcnt o - 1) (w.vars o) (w.Refers o))
    (hothers : ∀ o', o' ≠ o → CountsOf w o' (w.refcnt o')) : Counts (w.decref o) := by
  unfold World.decref
  split
  · next hzero => exact h.dealloc halive (hzero ▸ ho) hothers
  · next hne => exact h.setRefcnt ⟨ho, iff_of_true halive hne⟩ hothers

/-- `Py_INCREF`, where one reference more is accounted for. -/
theorem OnObjects.incref (h : OnObjects w) (halive : w.Alive o)
    (ho : Counted (w.refcnt o + 1) (w.vars o) (w.Refers o))
    (hothers : ∀ o', o' ≠ o → CountsOf w o' (w.refcnt o')) : Counts (w.incref o) :=
  h.setRefcnt ⟨ho, iff_of_true halive (Nat.succ_ne_zero _)⟩ hothers

/-! ## What Python does -/

theorem CountsOf.of_vars {k : ℕ} (h : CountsOf w o' n) (ho : o' ≠ o) :
    CountsOf (w.setVars o k) o' n := by
  refine ⟨?_, h.2⟩
  show Counted n (Function.update w.vars o k o') (w.Refers o')
  rw [Function.update_of_ne ho]
  exact h.1

theorem OnObjects.setVars {k : ℕ} (h : OnObjects w) : OnObjects (w.setVars o k) :=
  ⟨h.unmade, h.self, h.busy, h.on, h.closing⟩

theorem Counts.dup (h : Counts w) (ho : w.vars o ≠ 0) : Counts ((w.incref o).addVar o) := by
  show Counts ((w.addVar o).incref o)
  refine h.onObjects.setVars.incref (h.alive_of_vars ho) ?_ fun o' hne => (h.counts o').of_vars hne
  show Counted (w.refcnt o + 1) (Function.update w.vars o (w.vars o + 1) o) (w.Refers o)
  rw [Function.update_self]
  exact (h.counts o).1.dup

theorem Counts.drop (h : Counts w) (ho : w.vars o ≠ 0) : Counts ((w.dropVar o).decref o) := by
  refine h.onObjects.setVars.decref (h.alive_of_vars ho) ?_ fun o' hne => (h.counts o').of_vars hne
  show Counted (w.refcnt o - 1) (Function.update w.vars o (w.vars o - 1) o) (w.Refers o)
  rw [Function.update_self]
  exact (h.counts o).1.drop ho

/-! ## What threads do -/

theorem World.refers_of_ne {x : Holder ι} (hself : ∀ u, u ≠ t → w'.self u = w.self u)
    (hreader : ∀ i, x = .iterator i → (w'.HasReader i ↔ w.HasReader i))
    (hthreads : ∀ u, u ≠ t → w'.state.threads u = w.state.threads u) (hcall : x ≠ .call t)
    (hmaking : x ≠ .making t) (o : Obj) : w'.Refers o x ↔ w.Refers o x := by
  cases x with
  | call u =>
    have hu : u ≠ t := fun heq => hcall (heq ▸ rfl)
    show w'.self u = some o ↔ w.self u = some o
    rw [hself u hu]
  | iterator i => exact and_congr_right fun _ => hreader i rfl
  | making u =>
    have hu : u ≠ t := fun heq => hmaking (heq ▸ rfl)
    show (∃ p, w'.state.threads u = some p ∧ p.Makes o) ↔ ∃ p, w.state.threads u = some p ∧ p.Makes o
    rw [hthreads u hu]

theorem World.refers_making (ht : w.state.threads t = some p) : w.Refers o (.making t) ↔ p.Makes o := by
  refine ⟨fun ⟨q, hq, hmakes⟩ => ?_, fun hmakes => ⟨p, ht, hmakes⟩⟩
  rw [ht] at hq
  cases hq
  exact hmakes

theorem World.not_refers_making (ht : w.state.threads t = none) : ¬ w.Refers o (.making t) := by
  rintro ⟨q, hq, -⟩
  rw [ht] at hq
  cases hq

section

variable [DecidableEq ι] {x : Holder ι} {y : Option (Pc Entry Data Value)} {z : Option Obj}

theorem World.move_refers_call : (w.move t y z).Refers o (.call t) ↔ z = some o := by
  show Function.update w.self t z t = some o ↔ _
  rw [Function.update_self]

theorem World.move_refers_making : (w.move t y z).Refers o (.making t) ↔ ∃ p, y = some p ∧ p.Makes o := by
  show (∃ p, (w.state.move t y).threads t = some p ∧ p.Makes o) ↔ _
  rw [State.move_threads_self]

theorem World.move_refers_of_ne (hcall : x ≠ .call t) (hmaking : x ≠ .making t) :
    (w.move t y z).Refers o x ↔ w.Refers o x := by
  refine World.refers_of_ne (fun u hu => ?_) (fun _ _ => ?_) (fun u hu => ?_) hcall hmaking o
  · exact Function.update_of_ne hu ..
  · exact Iff.rfl
  · exact State.move_threads_of_ne hu

theorem World.move_alive : (w.move t y z).Alive o ↔ w.Alive o := by cases o <;> exact Iff.rfl

theorem OnObjects.move (h : OnObjects w) (hclosing : w.life ≠ .closing t) (hyz : y ≠ none ↔ z ≠ none)
    (hon : ∀ p i, y = some p → p.iterator = some i → z = some (.iterator i)) :
    OnObjects (w.move t y z) where
  unmade := h.unmade
  self u hu := by
    by_cases hut : u = t
    · subst hut
      left
      show Function.update w.self u z u ≠ none
      rw [Function.update_self]
      refine hyz.mp ?_
      have : (w.state.move u y).threads u ≠ none := hu
      rwa [State.move_threads_self] at this
    · have hu' : (w.state.move t y).threads u ≠ none := hu
      rw [State.move_threads_of_ne hut] at hu'
      show Function.update w.self t z u ≠ none ∨ _
      rw [Function.update_of_ne hut]
      exact h.self u hu'
  busy u hu := by
    have hu' : Function.update w.self t z u ≠ none := hu
    show (w.state.move t y).threads u ≠ none
    by_cases hut : u = t
    · subst hut
      rw [Function.update_self] at hu'
      rw [State.move_threads_self]
      exact hyz.mpr hu'
    · rw [Function.update_of_ne hut] at hu'
      rw [State.move_threads_of_ne hut]
      exact h.busy u hu'
  on u p i hp hi := by
    have hp' : (w.state.move t y).threads u = some p := hp
    show Function.update w.self t z u = _
    by_cases hut : u = t
    · subst hut
      rw [State.move_threads_self] at hp'
      rw [Function.update_self]
      exact hon p i hp' hi
    · rw [State.move_threads_of_ne hut] at hp'
      rw [Function.update_of_ne hut]
      exact h.on u p i hp' hi
  closing u hu := by
    have hut : u ≠ t := by
      rintro rfl
      exact hclosing hu
    obtain ⟨hnone, p, hp, hcloses⟩ := h.closing u hu
    exact ⟨(Function.update_of_ne hut ..).trans hnone, p, (State.move_threads_of_ne hut).trans hp,
      hcloses⟩

theorem Counts.call (h : Counts w) (ht : w.state.threads t = none) (ho : w.vars p.object ≠ 0)
    (hstart : StartsDistinct w.state t p) :
    Counts ((w.move t (some p) (some p.object)).incref p.object) := by
  have hself : w.self t = none := by
    by_contra hne
    exact h.onObjects.busy t hne ht
  have hmakes : ∀ o', ¬ p.Makes o' := by
    obtain ⟨hstart, -⟩ := hstart
    cases hstart <;> exact fun _ hmakes => hmakes
  have hothers : ∀ o' x, x ≠ .call t →
      ((w.move t (some p) (some p.object)).Refers o' x ↔ w.Refers o' x) := by
    intro o' x hx
    by_cases hx' : x = .making t
    · subst hx'
      refine iff_of_false (fun hrefers => ?_) (World.not_refers_making ht)
      obtain ⟨q, hq, hq'⟩ := World.move_refers_making.mp hrefers
      cases hq
      exact hmakes o' hq'
    · exact World.move_refers_of_ne hx hx'
  have hnone : ∀ o', ¬ w.Refers o' (.call t) := by
    intro o' hrefers
    have : w.self t = some o' := hrefers
    rw [hself] at this
    cases this
  have hon : OnObjects (w.move t (some p) (some p.object)) := by
    refine h.onObjects.move (fun hclosing => ?_) (iff_of_true ?_ ?_) fun q i hq hi => ?_
    · obtain ⟨-, q, hq, -⟩ := h.onObjects.closing t hclosing
      rw [ht] at hq
      cases hq
    · exact Option.some_ne_none _
    · exact Option.some_ne_none _
    · cases hq
      rw [Pc.object, hi]
      rfl
  refine hon.incref (World.move_alive.mpr (h.alive_of_vars ho)) ?_ fun o' hne => ⟨?_, ?_⟩
  · refine (h.counts p.object).1.hold (hnone _) fun x => ?_
    by_cases hx : x = .call t
    · subst hx
      exact iff_of_true (World.move_refers_call.mpr rfl) (.inl rfl)
    · rw [hothers _ _ hx, or_iff_right hx]
  · refine (h.counts o').1.congr fun x => ?_
    by_cases hx : x = .call t
    · subst hx
      refine iff_of_false (fun hrefers => hne ?_) (hnone o')
      exact (Option.some.inj (World.move_refers_call.mp hrefers)).symm
    · exact hothers o' x hx
  · rw [World.move_alive]
    exact (h.counts o').2

omit [DecidableEq ι] in
theorem World.give_cases (w : World ι Entry Data Value) (method : Method) (result : Returned Value) :
    (method = .enter ∧ result = .reader ∧
      w.give method result = (w.incref .reader).addVar .reader) ∨
    (∃ i, method = .iter ∧ result = .iterator i ∧ w.give method result = w.addVar (.iterator i)) ∨
    (w.give method result = w ∧ ∀ o, ¬ (.ret method result : Pc Entry Data Value).Makes o) := by
  cases method
  case enter =>
    cases result
    case reader => exact .inl ⟨rfl, rfl, rfl⟩
    all_goals exact .inr (.inr ⟨rfl, fun _ h => h⟩)
  case iter =>
    cases result
    case iterator i => exact .inr (.inl ⟨i, rfl, rfl, rfl⟩)
    all_goals exact .inr (.inr ⟨rfl, fun _ h => h⟩)
  all_goals exact .inr (.inr ⟨rfl, fun _ h => h⟩)

omit [DecidableEq ι] in
/-- What is given leaves who holds what as it is. -/
theorem World.give_refers (w : World ι Entry Data Value) (method : Method) (result : Returned Value) :
    (w.give method result).Refers = w.Refers ∧ (∀ o, (w.give method result).Alive o ↔ w.Alive o) ∧
      (OnObjects w → OnObjects (w.give method result)) := by
  rcases w.give_cases method result with ⟨-, -, heq⟩ | ⟨i, -, -, heq⟩ | ⟨heq, -⟩ <;> rw [heq]
  · refine ⟨?_, fun o => by cases o <;> exact Iff.rfl,
      fun h => ⟨h.unmade, h.self, h.busy, h.on, h.closing⟩⟩
    funext o x
    cases x <;> rfl
  · refine ⟨?_, fun o => by cases o <;> exact Iff.rfl, OnObjects.setVars⟩
    funext o x
    cases x <;> rfl
  · exact ⟨rfl, fun _ => Iff.rfl, fun h => h⟩

/-- What a call returns is accounted for, while its reference to its `self` still is. -/
theorem Counts.give {method : Method} {result : Returned Value} (h : Counts w)
    (ht : w.state.threads t = some (.ret method result)) (hself : w.self t ≠ none) (o' : Obj) :
    Counted (((w.move t none none).give method result).refcnt o')
      (((w.move t none none).give method result).vars o')
      (fun x => x ≠ .making t ∧ w.Refers o' x) ∧
    (w.Alive o' ↔ ((w.move t none none).give method result).refcnt o' ≠ 0) := by
  have hkeep : (∀ o, ¬ (.ret method result : Pc Entry Data Value).Makes o) → ∀ o' x,
      x ≠ .making t ∧ w.Refers o' x ↔ w.Refers o' x := by
    refine fun hnot o' x => and_iff_right_of_imp fun hx heq => ?_
    subst heq
    exact hnot o' ((World.refers_making ht).mp hx)
  rcases (w.move t none none).give_cases method result with ⟨rfl, rfl, heq⟩ | ⟨i, rfl, rfl, heq⟩ |
    ⟨heq, hnot⟩ <;> rw [heq]
  · have hkeep' := hkeep fun _ h => h
    by_cases ho : o' = .reader
    · subst ho
      have halive : w.Alive .reader := by
        obtain ⟨o, ho⟩ := Option.ne_none_iff_exists'.mp hself
        exact h.reader_alive (h.alive_of_self ho)
      show Counted (Function.update w.refcnt .reader (w.refcnt .reader + 1) .reader)
        (Function.update w.vars .reader (w.vars .reader + 1) .reader) _ ∧
        (_ ↔ Function.update w.refcnt .reader (w.refcnt .reader + 1) .reader ≠ 0)
      rw [Function.update_self, Function.update_self]
      exact ⟨(h.counts _).1.dup.congr (hkeep' _), iff_of_true halive (Nat.succ_ne_zero _)⟩
    · show Counted (Function.update w.refcnt .reader (w.refcnt .reader + 1) o')
        (Function.update w.vars .reader (w.vars .reader + 1) o') _ ∧
        (_ ↔ Function.update w.refcnt .reader (w.refcnt .reader + 1) o' ≠ 0)
      rw [Function.update_of_ne ho, Function.update_of_ne ho]
      exact ⟨(h.counts _).1.congr (hkeep' _), (h.counts _).2⟩
  · by_cases ho : o' = .iterator i
    · subst ho
      show Counted (w.refcnt (.iterator i))
        (Function.update w.vars (.iterator i) (w.vars (.iterator i) + 1) (.iterator i)) _ ∧ _
      rw [Function.update_self]
      refine ⟨(h.counts _).1.give ((World.refers_making ht).mpr rfl) fun _ => Iff.rfl, (h.counts _).2⟩
    · show Counted (w.refcnt o')
        (Function.update w.vars (.iterator i) (w.vars (.iterator i) + 1) o') _ ∧ _
      rw [Function.update_of_ne ho]
      refine ⟨(h.counts _).1.congr fun x => and_iff_right_of_imp fun hx heq => ?_, (h.counts _).2⟩
      subst heq
      exact ho ((World.refers_making ht).mp hx)
  · exact ⟨(h.counts _).1.congr (hkeep hnot _), (h.counts _).2⟩

theorem Counts.ret {method : Method} {result : Returned Value} (h : Counts w)
    (ht : w.state.threads t = some (.ret method result)) (hself : w.self t = some o) :
    Counts (((w.move t none none).give method result).decref o) := by
  have hsome : w.self t ≠ none := by
    rw [hself]
    exact Option.some_ne_none o
  obtain ⟨hrefers, halive, hon⟩ := (w.move t none none).give_refers method result
  have hclosing : w.life ≠ .closing t := fun hlife => hsome (h.onObjects.closing t hlife).1
  have hmove : OnObjects (w.move t none none) :=
    h.onObjects.move hclosing (iff_of_false (fun h => h rfl) fun h => h rfl) fun _ _ hp => by cases hp
  have hiff : ∀ o' x, (w.move t none none).Refers o' x ↔
      x ≠ .call t ∧ x ≠ .making t ∧ w.Refers o' x := by
    intro o' x
    by_cases hx : x = .call t
    · subst hx
      rw [World.move_refers_call]
      exact iff_of_false (fun h => by cases h) fun h => h.1 rfl
    · rw [and_iff_right hx]
      by_cases hx' : x = .making t
      · subst hx'
        rw [World.move_refers_making]
        exact iff_of_false (fun ⟨_, h, _⟩ => by cases h) fun h => h.1 rfl
      · rw [and_iff_right hx', World.move_refers_of_ne hx hx']
  refine (hon hmove).decref ?_ ?_ fun o' hne => ?_
  · rw [halive, World.move_alive]
    exact h.alive_of_self hself
  · rw [hrefers]
    refine (h.give ht hsome o).1.release (a := .call t) ⟨(fun heq => by cases heq), hself⟩ fun x => ?_
    exact hiff o x
  · obtain ⟨hcounted, hzero⟩ := h.give ht hsome o'
    refine ⟨?_, ?_⟩
    · rw [hrefers]
      refine hcounted.congr fun x => ?_
      rw [hiff]
      refine and_iff_right_of_imp fun hx heq => ?_
      subst heq
      have heq : w.self t = some o' := hx.2
      rw [hself] at heq
      exact hne (Option.some.inj heq).symm
    · rw [halive, World.move_alive]
      exact hzero

variable [Inhabited Entry] {fromEntryDataList : Data → Except PyErr Value} {isDict : Value → Bool}
  {s : State ι (Memory Entry Data) (Pc Entry Data Value)} {m m' : Memory Entry Data}
  {e : Event (Pc Entry Data Value)}

omit [DecidableEq ι] in
theorem does_made (hdoes : Does (code fromEntryDataList isDict) m p e q m') (hp : p ≠ .iterCalloc) :
    m'.made = m.made := by
  cases hdoes with
  | acted ok hcode => exact act_made hcode hp ok m
  | acquired | failed | released => rfl

omit [DecidableEq ι] in
theorem act_makesNone {effect : Bool → Memory Entry Data → Memory Entry Data × Pc Entry Data Value}
    (h : code fromEntryDataList isDict p = .act effect) (hp : p ≠ .iterAlloc) (hp' : p ≠ .iterCalloc)
    (ok : Bool) : (effect ok m).2.MakesNone := by
  have hmmdb : ∀ {f : Mmdb Entry Data → Pc Entry Data Value},
      (∀ mmdb, (f mmdb).MakesNone) → (withMmdb m f).MakesNone :=
    withMmdb_of (C := Pc.MakesNone) ⟨(fun h => by cases h), (fun _ h => by cases h), fun _ h => by cases h⟩
  have hcell : ∀ {cur : ℕ}
      {f : QueuedRecord Entry → Option ℕ → Memory Entry Data × Pc Entry Data Value},
      (∀ record link, (f record link).2.MakesNone) → (withCell m cur f).2.MakesNone :=
    withCell_of (C := fun x => x.2.MakesNone)
      ⟨(fun h => by cases h), (fun _ h => by cases h), fun _ h => by cases h⟩
  cases p <;> cases h
  case iterAlloc => exact absurd rfl hp
  case iterCalloc => exact absurd rfl hp'
  case metadataEntries =>
    refine hmmdb fun mmdb => ?_
    split <;> exact ⟨(fun h => by cases h), (fun _ h => by cases h), fun _ h => by cases h⟩
  case nextStore | nextTail | nextFree =>
    exact hcell fun _ _ => ⟨(fun h => by cases h), (fun _ h => by cases h), fun _ h => by cases h⟩
  case nextSwitch =>
    refine hcell fun record _ => ?_
    dsimp only
    split <;> exact ⟨(fun h => by cases h), (fun _ h => by cases h), fun _ h => by cases h⟩
  case nextSkip | nextReadNode | nextEntries | nextNetwork =>
    refine hcell fun record _ => hmmdb fun mmdb => ?_
    repeat' split
    all_goals exact ⟨(fun h => by cases h), (fun _ h => by cases h), fun _ h => by cases h⟩
  case nextLeft =>
    dsimp only
    split
    · exact hcell fun _ _ => ⟨(fun h => by cases h), (fun _ h => by cases h), fun _ h => by cases h⟩
    · exact ⟨(fun h => by cases h), (fun _ h => by cases h), fun _ h => by cases h⟩
  case nextRight =>
    dsimp only
    split
    · refine hcell fun record _ => ?_
      split
      · exact ⟨(fun h => by cases h), (fun _ h => by cases h), fun _ h => by cases h⟩
      · exact hcell fun _ _ => ⟨(fun h => by cases h), (fun _ h => by cases h), fun _ h => by cases h⟩
    · exact ⟨(fun h => by cases h), (fun _ h => by cases h), fun _ h => by cases h⟩
  all_goals
    dsimp only
    repeat' split
    all_goals exact ⟨(fun h => by cases h), (fun _ h => by cases h), fun _ h => by cases h⟩

omit [DecidableEq ι] in
theorem does_iterCalloc (hdoes : Does (code fromEntryDataList isDict) m p e q m') :
    (q = .iterCalloc → p = .iterAlloc ∧ m' = m) ∧
      (p = .iterCalloc → q = .ret .iter (.iterator m.made) ∧ m'.made = m.made + 1 ∨
        q = .ret .iter (.raised .noMemory) ∧ m' = m) := by
  cases hdoes with
  | acted ok hcode =>
    refine ⟨fun hq => ?_, ?_⟩
    · by_cases hp : p = .iterAlloc
      · subst hp
        cases hcode
        exact ⟨rfl, rfl⟩
      · by_cases hp' : p = .iterCalloc
        · subst hp'
          cases hcode
          cases ok <;> cases hq
        · exact absurd hq (act_makesNone hcode hp hp' ok).calloc
    · rintro rfl
      cases hcode
      cases ok with
      | false => exact .inr ⟨rfl, rfl⟩
      | true => exact .inl ⟨rfl, rfl⟩
  | acquired hcode | failed hcode | released hcode =>
    refine ⟨?_, ?_⟩
    · rintro rfl
      cases p <;> cases hcode
    · rintro rfl
      cases hcode

omit [DecidableEq ι] in
theorem does_makes (hdoes : Does (code fromEntryDataList isDict) m p e q m') (hp : p ≠ .iterCalloc)
    (hq : q ≠ .iterCalloc) (o : Obj) : p.Makes o ↔ q.Makes o := by
  cases hdoes with
  | acted ok hcode =>
    refine iff_of_false (Pc.MakesNone.not_makes ⟨hp, fun i => ?_, fun i => ?_⟩) ?_
    · rintro rfl
      cases hcode
    · rintro rfl
      cases hcode
    · by_cases hp' : p = .iterAlloc
      · subst hp'
        cases hcode
        cases ok with
        | false => exact fun h => h
        | true => exact absurd rfl hq
      · exact (act_makesNone hcode hp' hp ok).not_makes
  | acquired hcode | failed hcode =>
    refine iff_of_false (Pc.MakesNone.not_makes ⟨hp, fun i => ?_, fun i => ?_⟩)
      (Pc.MakesNone.not_makes ⟨hq, fun i => ?_, fun i => ?_⟩)
    · rintro rfl
      cases hcode
    · rintro rfl
      cases hcode
    · cases p <;> cases hcode <;> exact fun h => by cases h
    · cases p <;> cases hcode <;> exact fun h => by cases h
  | released hcode =>
    cases p <;> cases hcode
    case released.unlock.refl method result => cases method <;> cases result <;> exact Iff.rfl
    case released.closeUnlock.refl method => cases method <;> exact Iff.rfl
    all_goals exact iff_of_false (fun h => h) fun h => h

omit [DecidableEq ι] in
theorem does_closes (hdoes : Does (code fromEntryDataList isDict) m p e q m') (hp : p.Closes) :
    q.Closes := by
  cases hdoes with
  | acted ok hcode =>
    cases p <;> cases hcode <;> first
      | exact absurd hp fun h => h
      | exact hp
      | dsimp only
        split <;> exact hp
  | acquired hcode | failed hcode | released hcode =>
    cases p <;> cases hcode <;> first | exact hp | exact absurd hp fun h => h

theorem OnObjects.passage (h : OnObjects w)
    (hpassage : Passage (code fromEntryDataList isDict) StartsDistinct w.state s t p q)
    (hmade : w.state.memory.made ≤ s.memory.made) : OnObjects (w.setState s) := by
  obtain ⟨-, hothers, hp, hq, e, hdoes⟩ := hpassage
  refine ⟨fun i hi => h.unmade i (hmade.trans hi), fun u hu => ?_, fun u hu => ?_,
    fun u r i hr hi => ?_, fun u hu => ?_⟩
  · refine h.self u ?_
    by_cases hut : u = t
    · rw [hut, hp]
      exact Option.some_ne_none p
    · rw [← hothers u hut]
      exact hu
  · show s.threads u ≠ none
    by_cases hut : u = t
    · rw [hut, hq]
      exact Option.some_ne_none q
    · rw [hothers u hut]
      exact h.busy u hu
  · have hr' : s.threads u = some r := hr
    by_cases hut : u = t
    · subst hut
      rw [hq] at hr'
      cases hr'
      rcases goes_iterator hdoes.goes with heq | heq <;> rw [hi] at heq
      · exact h.on u p i hp heq.symm
      · cases heq
    · rw [hothers u hut] at hr'
      exact h.on u r i hr' hi
  · obtain ⟨hself, r, hr, hcloses⟩ := h.closing u hu
    by_cases hut : u = t
    · subst hut
      rw [hp] at hr
      cases hr
      exact ⟨hself, q, hq, does_closes hdoes hcloses⟩
    · exact ⟨hself, r, (hothers u hut).trans hr, hcloses⟩

/-- A step of a thread that makes no iterator is about what it has made. -/
theorem World.passage_refers {x : Holder ι}
    (hpassage : Passage (code fromEntryDataList isDict) StartsDistinct w.state s t p q)
    (hreader : ∀ i, x = .iterator i → ((w.setState s).HasReader i ↔ w.HasReader i))
    (hx : x ≠ .making t) (o : Obj) : (w.setState s).Refers o x ↔ w.Refers o x := by
  by_cases hx' : x = .call t
  · subst hx'
    exact Iff.rfl
  · refine World.refers_of_ne ?_ hreader hpassage.others hx' hx o
    exact fun _ _ => rfl

omit [DecidableEq ι] [Inhabited Entry] in
theorem World.setState_hasReader (hmade : s.memory.made = w.state.memory.made) (i : ℕ) :
    (w.setState s).HasReader i ↔ w.HasReader i := by
  show i < s.memory.made ∧ _ ↔ _
  rw [hmade]
  exact Iff.rfl

omit [DecidableEq ι] [Inhabited Entry] in
theorem World.setState_alive (hmade : s.memory.made = w.state.memory.made) :
    (w.setState s).Alive o ↔ w.Alive o := by
  cases o with
  | reader => exact Iff.rfl
  | iterator i =>
    show i < s.memory.made ∧ _ ↔ _
    rw [hmade]
    exact Iff.rfl

theorem Counts.inner (h : Counts w)
    (hpassage : Passage (code fromEntryDataList isDict) StartsDistinct w.state s t p q)
    (hp : p ≠ .iterCalloc) (hq : q ≠ .iterCalloc) : Counts (w.setState s) := by
  obtain ⟨e, hdoes⟩ := hpassage.does
  have hmade := does_made hdoes hp
  refine ⟨h.onObjects.passage hpassage hmade.ge, fun o => ⟨(h.counts o).1.congr fun x => ?_, ?_⟩⟩
  · by_cases hx : x = .making t
    · subst hx
      rw [World.refers_making hpassage.source, World.refers_making (w := w.setState s) hpassage.target]
      exact (does_makes hdoes hp hq o).symm
    · exact World.passage_refers hpassage (fun i _ => World.setState_hasReader hmade i) hx o
  · rw [World.setState_alive hmade]
    exact (h.counts o).2

theorem Counts.iterAlloc (h : Counts w)
    (hpassage : Passage (code fromEntryDataList isDict) StartsDistinct w.state s t p .iterCalloc) :
    Counts ((w.setState s).incref .reader) := by
  obtain ⟨e, hdoes⟩ := hpassage.does
  obtain ⟨rfl, hm⟩ := (does_iterCalloc hdoes).1 rfl
  have hmade : s.memory.made = w.state.memory.made := by rw [hm]
  have hon : OnObjects (w.setState s) := h.onObjects.passage hpassage hmade.ge
  have hself : w.self t ≠ none := by
    refine (h.onObjects.self t ?_).resolve_right fun hclosing => ?_
    · rw [hpassage.source]
      exact Option.some_ne_none _
    · exact h.closes_of_closing hclosing hpassage.source
  have halive : w.life = .alive := by
    obtain ⟨o, ho⟩ := Option.ne_none_iff_exists'.mp hself
    exact h.reader_alive (h.alive_of_self ho)
  have hothers : ∀ o x, x ≠ .making t → ((w.setState s).Refers o x ↔ w.Refers o x) := fun o x hx =>
    World.passage_refers hpassage (fun i _ => World.setState_hasReader hmade i) hx o
  have hmaking : ∀ o, (w.setState s).Refers o (.making t) ↔ o = .reader :=
    fun o => World.refers_making (w := w.setState s) hpassage.target
  have hnot : ∀ o, ¬ w.Refers o (.making t) := fun o hrefers =>
    (World.refers_making hpassage.source).mp hrefers
  refine hon.incref halive ?_ fun o hne => ⟨?_, ?_⟩
  · refine (h.counts .reader).1.hold (hnot .reader) fun x => ?_
    by_cases hx : x = .making t
    · subst hx
      exact iff_of_true ((hmaking _).mpr rfl) (.inl rfl)
    · rw [hothers _ _ hx, or_iff_right hx]
  · refine (h.counts o).1.congr fun x => ?_
    by_cases hx : x = .making t
    · subst hx
      exact iff_of_false (fun hrefers => hne ((hmaking o).mp hrefers)) (hnot o)
    · exact hothers o x hx
  · rw [World.setState_alive hmade]
    exact (h.counts o).2

theorem Counts.iterFails (h : Counts w) {error : PyErr}
    (hpassage : Passage (code fromEntryDataList isDict) StartsDistinct w.state s t .iterCalloc
      (.ret .iter (.raised error))) : Counts ((w.setState s).decref .reader) := by
  obtain ⟨e, hdoes⟩ := hpassage.does
  obtain ⟨hq, -⟩ | ⟨-, hm⟩ := (does_iterCalloc hdoes).2 rfl
  · cases hq
  have hmade : s.memory.made = w.state.memory.made := by rw [hm]
  have hon : OnObjects (w.setState s) := h.onObjects.passage hpassage hmade.ge
  have hholds : w.Refers .reader (.making t) := (World.refers_making hpassage.source).mpr rfl
  have hothers : ∀ o x, x ≠ .making t → ((w.setState s).Refers o x ↔ w.Refers o x) := fun o x hx =>
    World.passage_refers hpassage (fun i _ => World.setState_hasReader hmade i) hx o
  have hnot : ∀ o, ¬ (w.setState s).Refers o (.making t) := fun o hrefers =>
    (World.refers_making (w := w.setState s) hpassage.target).mp hrefers
  refine hon.decref (h.alive_of_refers hholds) ?_ fun o hne => ⟨?_, ?_⟩
  · refine (h.counts .reader).1.release hholds fun x => ?_
    by_cases hx : x = .making t
    · subst hx
      exact iff_of_false (hnot _) fun h => h.1 rfl
    · rw [hothers _ _ hx, and_iff_right hx]
  · refine (h.counts o).1.congr fun x => ?_
    by_cases hx : x = .making t
    · subst hx
      refine iff_of_false (hnot o) fun hrefers => hne ?_
      exact (World.refers_making hpassage.source).mp hrefers
    · exact hothers o x hx
  · rw [World.setState_alive hmade]
    exact (h.counts o).2

theorem Counts.iterCalloc (h : Counts w)
    (hpassage : Passage (code fromEntryDataList isDict) StartsDistinct w.state s t .iterCalloc
      (.ret .iter (.iterator i))) : Counts ((w.setState s).setRefcnt (.iterator i) 1) := by
  obtain ⟨e, hdoes⟩ := hpassage.does
  obtain ⟨hq, hmade⟩ | ⟨hq, -⟩ := (does_iterCalloc hdoes).2 rfl
  swap
  · cases hq
  obtain rfl : i = w.state.memory.made := by
    cases hq
    rfl
  have hon : OnObjects (w.setState s) := h.onObjects.passage hpassage (hmade ▸ Nat.le_succ _)
  have hholds : w.Refers .reader (.making t) := (World.refers_making hpassage.source).mpr rfl
  have hmaking : ∀ o, (w.setState s).Refers o (.making t) ↔ o = .iterator w.state.memory.made :=
    fun o => World.refers_making (w := w.setState s) hpassage.target
  have hnew : (w.setState s).HasReader w.state.memory.made := by
    refine ⟨?_, .inl (h.onObjects.unmade _ le_rfl)⟩
    show _ < s.memory.made
    omega
  have hold : ∀ j, j ≠ w.state.memory.made → ((w.setState s).HasReader j ↔ w.HasReader j) := by
    intro j hj
    refine and_congr_left fun _ => ?_
    show j < s.memory.made ↔ _
    omega
  have hzero : w.refcnt (.iterator w.state.memory.made) = 0 := by
    by_contra hne
    exact lt_irrefl _ ((h.counts (.iterator w.state.memory.made)).2.mpr hne).1
  have hothers : ∀ o x, x ≠ .making t → x ≠ .iterator w.state.memory.made →
      ((w.setState s).Refers o x ↔ w.Refers o x) := by
    refine fun o x hx hx' => World.passage_refers hpassage (fun j hj => hold j fun heq => ?_) hx o
    exact hx' (heq ▸ hj)
  refine hon.setRefcnt ⟨?_, iff_of_true ⟨hnew.1, h.onObjects.unmade _ le_rfl⟩ Nat.one_ne_zero⟩
    fun o hne => ⟨?_, ?_⟩
  · have hcounted := (h.counts (.iterator w.state.memory.made)).1
    rw [hzero] at hcounted
    have hnone := (hcounted.eq_zero_iff.mp rfl).2
    refine hcounted.hold (hnone (.making t)) fun x => ?_
    by_cases hx : x = .making t
    · subst hx
      exact iff_of_true ((hmaking _).mpr rfl) (.inl rfl)
    · rw [or_iff_right hx]
      by_cases hx' : x = .iterator w.state.memory.made
      · subst hx'
        exact iff_of_false (fun hrefers => by cases hrefers.1) (hnone _)
      · exact hothers _ x hx hx'
  · by_cases ho : o = .reader
    · subst ho
      refine (h.counts .reader).1.pass (b := .iterator w.state.memory.made) hholds ?_ fun x => ?_
      · exact fun hrefers => lt_irrefl _ hrefers.2.1
      · by_cases hx : x = .making t
        · subst hx
          refine iff_of_false (fun hrefers => ?_) fun hrefers => ?_
          · cases (hmaking .reader).mp hrefers
          · rcases hrefers with heq | hrefers
            · cases heq
            · exact hrefers.1 rfl
        · rw [and_iff_right hx]
          by_cases hx' : x = .iterator w.state.memory.made
          · subst hx'
            exact iff_of_true ⟨rfl, hnew⟩ (.inl rfl)
          · rw [or_iff_right hx']
            exact hothers _ x hx hx'
    · refine (h.counts o).1.congr fun x => ?_
      by_cases hx : x = .making t
      · subst hx
        refine iff_of_false (fun hrefers => hne ((hmaking o).mp hrefers)) fun hrefers => ho ?_
        exact (World.refers_making hpassage.source).mp hrefers
      · by_cases hx' : x = .iterator w.state.memory.made
        · subst hx'
          exact iff_of_false (fun hrefers => ho hrefers.1) fun hrefers => ho hrefers.1
        · exact hothers _ x hx hx'
  · cases o with
    | reader => exact (h.counts .reader).2
    | iterator j =>
      have hj : j ≠ w.state.memory.made := fun heq => hne (heq ▸ rfl)
      have halive : (w.setState s).Alive (.iterator j) ↔ w.Alive (.iterator j) := by
        refine and_congr_left fun _ => ?_
        show j < s.memory.made ↔ _
        omega
      rw [halive]
      exact (h.counts (.iterator j)).2

end

/-! ## What deallocations do -/

/-- An iterator has dropped its reference to the reader. -/
theorem Counts.deallocDecref (h : Counts w) (hi : w.dying i = some .decref) :
    Counts (((w.setMemory (w.state.memory.setNext i none)).setDying i
      (.walk (w.state.memory.next i))).decref .reader) := by
  generalize hw : (w.setMemory (w.state.memory.setNext i none)).setDying i
    (.walk (w.state.memory.next i)) = w₁
  have hlt : i < w.state.memory.made := by
    by_contra hge
    rw [h.onObjects.unmade i (Nat.le_of_not_lt hge)] at hi
    cases hi
  have hdying : w₁.dying = Function.update w.dying i (some (.walk (w.state.memory.next i))) := by
    rw [← hw]
    rfl
  have hholds : w.Refers .reader (.iterator i) := ⟨rfl, hlt, .inr hi⟩
  have hreader : ∀ j, w₁.HasReader j ↔ j ≠ i ∧ w.HasReader j := by
    intro j
    unfold World.HasReader
    rw [hdying]
    by_cases hj : j = i
    · subst hj
      rw [Function.update_self]
      refine iff_of_false (fun h => ?_) fun h => h.1 rfl
      rcases h.2 with heq | heq <;> cases heq
    · rw [Function.update_of_ne hj, and_iff_right hj, ← hw]
      exact Iff.rfl
  have hrefers : ∀ o x, w₁.Refers o x ↔ x ≠ .iterator i ∧ w.Refers o x := by
    intro o x
    cases x with
    | call t | making t =>
      rw [← hw]
      exact (and_iff_right fun heq => by cases heq).symm
    | iterator j =>
      refine (and_congr_right fun _ => hreader j).trans ?_
      by_cases hj : j = i
      · subst hj
        exact iff_of_false (fun h => h.2.1 rfl) fun h => h.1 rfl
      · rw [and_iff_right hj, and_iff_right fun heq => hj (Holder.iterator.inj heq)]
        exact Iff.rfl
  have halive : ∀ o, w₁.Alive o ↔ w.Alive o := by
    intro o
    cases o with
    | reader =>
      rw [← hw]
      exact Iff.rfl
    | iterator j =>
      show _ ∧ w₁.dying j = none ↔ _
      by_cases hj : j = i
      · subst hj
        rw [hdying, Function.update_self]
        refine iff_of_false (fun h => by cases h.2) fun h => ?_
        have heq := h.2
        rw [hi] at heq
        cases heq
      · rw [hdying, Function.update_of_ne hj, ← hw]
        exact Iff.rfl
  have hon : OnObjects w₁ := by
    refine ⟨fun j hj => ?_, ?_, ?_, ?_, ?_⟩
    · have hj' : w.state.memory.made ≤ j := by
        rw [← hw] at hj
        exact hj
      rw [hdying, Function.update_of_ne (lt_of_lt_of_le hlt hj').ne']
      exact h.onObjects.unmade j hj'
    all_goals rw [← hw]
    · exact h.onObjects.self
    · exact h.onObjects.busy
    · exact h.onObjects.on
    · exact h.onObjects.closing
  have hfields : w₁.refcnt = w.refcnt ∧ w₁.vars = w.vars := by
    rw [← hw]
    exact ⟨rfl, rfl⟩
  obtain ⟨hrefcnt, hvars⟩ := hfields
  refine hon.decref ((halive _).mpr (h.alive_of_refers hholds)) ?_ fun o hne => ⟨?_, ?_⟩
  · rw [hrefcnt, hvars]
    exact (h.counts .reader).1.release hholds (hrefers .reader)
  · rw [hrefcnt, hvars]
    refine (h.counts o).1.congr fun x => (hrefers o x).trans (and_iff_right_of_imp ?_)
    rintro hx rfl
    exact hne hx.1
  · rw [hrefcnt, halive]
    exact (h.counts o).2

/-- Once it has dropped that reference, the counts do not see the deallocation. -/
theorem Counts.setDying (h : Counts w) {x y : IterDealloc} {m : Memory Entry Data}
    (hi : w.dying i = some y) (hy : y ≠ .decref) (hx : x ≠ .decref)
    (hmade : m.made = w.state.memory.made) : Counts ((w.setMemory m).setDying i x) := by
  have hreader : ∀ j, ((w.setMemory m).setDying i x).HasReader j ↔ w.HasReader j := by
    intro j
    show j < m.made ∧ (Function.update w.dying i (some x) j = none ∨
      Function.update w.dying i (some x) j = some .decref) ↔ _
    rw [hmade]
    refine and_congr_right fun _ => ?_
    by_cases hj : j = i
    · subst hj
      rw [Function.update_self, hi]
      refine iff_of_false (fun h => ?_) fun h => ?_
      · rcases h with heq | heq
        · cases heq
        · exact hx (Option.some.inj heq)
      · rcases h with heq | heq
        · cases heq
        · exact hy (Option.some.inj heq)
    · rw [Function.update_of_ne hj]
  refine ⟨⟨fun j hj => ?_, h.onObjects.self, h.onObjects.busy, h.onObjects.on, h.onObjects.closing⟩, fun o => ⟨?_, ?_⟩⟩
  · have hj' : w.state.memory.made ≤ j := hmade ▸ hj
    have hne : j ≠ i := by
      rintro rfl
      rw [h.onObjects.unmade j hj'] at hi
      cases hi
    exact (Function.update_of_ne hne ..).trans (h.onObjects.unmade j hj')
  · refine (h.counts o).1.congr fun z => ?_
    refine World.refers_congr ?_ hreader ?_ o z <;> rfl
  · refine Iff.trans ?_ (h.counts o).2
    cases o with
    | reader => exact Iff.rfl
    | iterator j =>
      show j < m.made ∧ Function.update w.dying i (some x) j = none ↔ _
      rw [hmade]
      refine and_congr_right fun _ => ?_
      by_cases hj : j = i
      · subst hj
        rw [Function.update_self, hi]
        exact iff_of_false (fun heq => by cases heq) fun heq => by cases heq
      · rw [Function.update_of_ne hj]

theorem Counts.setLife (h : Counts w) {life : Life ι} (hlife : w.life ≠ .alive) (hnew : life ≠ .alive)
    (hself : ∀ t, w.state.threads t ≠ none → w.self t ≠ none ∨ life = .closing t)
    (hclosing : ∀ t, life = .closing t →
      w.self t = none ∧ ∃ p, w.state.threads t = some p ∧ p.Closes) : Counts (w.setLife life) := by
  refine ⟨⟨h.onObjects.unmade, hself, h.onObjects.busy, h.onObjects.on, hclosing⟩, fun o => ⟨?_, ?_⟩⟩
  · refine (h.counts o).1.congr fun z => ?_
    refine World.refers_congr ?_ (fun _ => Iff.rfl) ?_ o z <;> rfl
  · refine Iff.trans ?_ (h.counts o).2
    cases o with
    | reader => exact iff_of_false hnew hlife
    | iterator j => exact Iff.rfl

/-- What does not begin or end `Reader_close`. -/
theorem Counts.setLife_of_not_closing (h : Counts w) {life : Life ι} (hlife : w.life ≠ .alive)
    (hnew : life ≠ .alive) (hwas : ∀ t, w.life ≠ .closing t) (his : ∀ t, life ≠ .closing t) :
    Counts (w.setLife life) :=
  h.setLife hlife hnew (fun t ht => .inl ((h.onObjects.self t ht).resolve_right (hwas t)))
    fun t ht => absurd ht (his t)

theorem Counts.moveClosing [DecidableEq ι] (h : Counts w) {y : Option (Pc Entry Data Value)}
    {life : Life ι} (hself : w.self t = none) (hmakes : ∀ o, ¬ w.Refers o (.making t))
    (hy : ∀ p, y = some p → p.Closes ∧ p.iterator = none ∧ ∀ o, ¬ p.Makes o)
    (hlife : w.life ≠ .alive) (hothers : ∀ u, u ≠ t → w.life ≠ .closing u) (hnew : life ≠ .alive)
    (hclosing : ∀ u, life = .closing u ↔ u = t ∧ y ≠ none) :
    Counts ((w.move t y none).setLife life) := by
  have hlives : ∀ o x, ((w.move t y none).setLife life).Refers o x ↔ (w.move t y none).Refers o x := by
    intro o x
    refine World.refers_congr ?_ (fun _ => Iff.rfl) ?_ o x <;> rfl
  have hrefers : ∀ o x, ((w.move t y none).setLife life).Refers o x ↔ w.Refers o x := by
    intro o x
    rw [hlives]
    by_cases hx : x = .call t
    · subst hx
      rw [World.move_refers_call]
      refine iff_of_false (fun heq => by cases heq) fun hrefers => ?_
      have heq : w.self t = some o := hrefers
      rw [hself] at heq
      cases heq
    · by_cases hx' : x = .making t
      · subst hx'
        rw [World.move_refers_making]
        exact iff_of_false (fun ⟨p, hp, hmakes⟩ => (hy p hp).2.2 o hmakes) (hmakes o)
      · exact World.move_refers_of_ne hx hx'
  have hthreads : ∀ u, u ≠ t → ((w.move t y none).setLife life).state.threads u = w.state.threads u :=
    fun u hu => State.move_threads_of_ne hu
  have hselves : ((w.move t y none).setLife life).self = w.self := by
    funext u
    show Function.update w.self t none u = w.self u
    by_cases hu : u = t
    · rw [hu, Function.update_self, hself]
    · rw [Function.update_of_ne hu]
  have hthread : ((w.move t y none).setLife life).state.threads t = y := State.move_threads_self ..
  refine ⟨⟨h.onObjects.unmade, fun u hu => ?_, fun u hu => ?_, fun u p i hp hi => ?_, fun u hu => ?_⟩,
    fun o => ⟨(h.counts o).1.congr (hrefers o), ?_⟩⟩
  · rw [hselves]
    by_cases hut : u = t
    · subst hut
      rw [hthread] at hu
      exact .inr ((hclosing u).mpr ⟨rfl, hu⟩)
    · rw [hthreads u hut] at hu
      exact .inl ((h.onObjects.self u hu).resolve_right (hothers u hut))
  · rw [hselves] at hu
    have hut : u ≠ t := by
      rintro rfl
      exact hu hself
    rw [hthreads u hut]
    exact h.onObjects.busy u hu
  · rw [hselves]
    by_cases hut : u = t
    · subst hut
      rw [hthread] at hp
      rw [(hy p hp).2.1] at hi
      cases hi
    · rw [hthreads u hut] at hp
      exact h.onObjects.on u p i hp hi
  · obtain ⟨rfl, hsome⟩ := (hclosing u).mp hu
    obtain ⟨p, hp⟩ := Option.ne_none_iff_exists'.mp hsome
    rw [hselves, hthread]
    exact ⟨hself, p, hp, (hy p hp).1⟩
  · refine Iff.trans ?_ (h.counts o).2
    cases o with
    | reader => exact iff_of_false hnew hlife
    | iterator j => exact Iff.rfl

end

/-! ## Every step -/

section

variable [DecidableEq ι] [Inhabited Entry] {fromEntryDataList : Data → Except PyErr Value}
  {isDict : Value → Bool} {w w' : World ι Entry Data Value}

/-- Whatever happens, the counts stay right. -/
theorem Counts.step (h : Counts w) (hstep : Lives fromEntryDataList isDict w w') : Counts w' := by
  cases hstep with
  | dup ho => exact h.dup ho
  | drop ho => exact h.drop ho
  | call ht ho hstart => exact h.call ht ho hstart
  | ret ht hself => exact h.ret ht hself
  | inner hpassage hp hq => exact h.inner hpassage hp hq
  | iterAlloc hpassage => exact h.iterAlloc hpassage
  | iterCalloc hpassage => exact h.iterCalloc hpassage
  | iterFails hpassage => exact h.iterFails hpassage
  | deallocDecref hi => exact h.deallocDecref hi
  | deallocFree hi =>
    exact h.setDying hi (fun heq => by cases heq) (fun heq => by cases heq) rfl
  | deallocCrash hi =>
    exact h.setDying (m := w.state.memory) hi (fun heq => by cases heq) (fun heq => by cases heq) rfl
  | deallocDel hi =>
    exact h.setDying (m := w.state.memory) hi (fun heq => by cases heq) (fun heq => by cases heq) rfl
  | deallocTest hlife =>
    refine h.setLife_of_not_closing ?_ (fun heq => by cases heq) ?_ fun _ heq => by cases heq
    · rw [hlife]
      exact fun heq => by cases heq
    · rw [hlife]
      exact fun _ heq => by cases heq
  | @deallocClose t hlife hmmdb ht =>
    refine h.moveClosing ?_ (fun o => World.not_refers_making ht) ?_ ?_ ?_ (fun heq => by cases heq) ?_
    · by_contra hne
      exact h.onObjects.busy t hne ht
    · intro p hp
      cases hp
      exact ⟨rfl, rfl, fun _ hmakes => hmakes⟩
    · rw [hlife]
      exact fun heq => by cases heq
    · rw [hlife]
      exact fun _ _ heq => by cases heq
    · refine fun u => ⟨fun heq => ?_, fun heq => ?_⟩
      · cases heq
        exact ⟨rfl, Option.some_ne_none _⟩
      · rw [heq.1]
  | @deallocClosed t result closed hlife ht hclosed =>
    refine h.moveClosing (h.onObjects.closing t hlife).1 (fun o hrefers => ?_) ?_ ?_ ?_
      (fun heq => by cases heq) ?_
    · exact (World.refers_making ht).mp hrefers
    · exact fun p hp => by cases hp
    · rw [hlife]
      exact fun heq => by cases heq
    · rw [hlife]
      exact fun u hu heq => hu (Life.closing.inj heq).symm
    · exact fun u => iff_of_false (fun heq => by cases heq) fun heq => heq.2 rfl
  | deallocDestroy hlife =>
    refine h.setLife_of_not_closing ?_ (fun heq => by cases heq) ?_ fun _ heq => by cases heq
    · rw [hlife]
      exact fun heq => by cases heq
    · rw [hlife]
      exact fun _ heq => by cases heq

end

end MaxMindDB.Extension
