import MaxMindDB.Extension.Tracking

/-!
# The C reader is linearizable

`linearizable`: what callers see of any number of threads on an open reader, in any interleaving in which
no two calls of `next` are on one iterator, they could see of the atomic reader; and
`never_crashes`: no thread uses `NULL` or a record that has been freed, or writes outside of a record.
-/

namespace MaxMindDB.Extension

open Octets OwnedList RwLock

variable {ι : Type*} {Entry Data Value : Type}

/-! ## The atomic reader of a state -/

section

variable {s s' : State ι (Memory Entry Data) (Pc Entry Data Value)} {g : Ghost ι Entry Data Value}
  {st st' : ι → Status (Pc Entry Data Value)} {t : ι}

/-- A thread that is to make an iterator is to make this one. -/
def Reserves (s : State ι (Memory Entry Data) (Pc Entry Data Value))
    (st : ι → Status (Pc Entry Data Value)) (t : ι) (i : ℕ) : Prop :=
  (∃ p, s.threads t = some p ∧ p.Pending) ∧ st t = .decided (.ret .iter (.iterator i))

/-- The calls may stand so with the atomic reader. -/
structure CallsStand (s : State ι (Memory Entry Data) (Pc Entry Data Value)) (g : Ghost ι Entry Data Value)
    (st : ι → Status (Pc Entry Data Value)) : Prop where
  idle : ∀ t, s.threads t = none → st t = .idle
  allows : ∀ t p call, s.threads t = some p → g.calls t = some call → p.Allows call (st t)
  fresh : ∀ t i, Reserves s st t i → s.memory.made ≤ i
  once : ∀ t u i, Reserves s st t i → Reserves s st u i → t = u

variable [Inhabited Entry]

open Classical in
/-- The atomic reader of a state: the iterators that are still to be made are there. -/
noncomputable def atomic (s : State ι (Memory Entry Data) (Pc Entry Data Value))
    (g : Ghost ι Entry Data Value) (st : ι → Status (Pc Entry Data Value)) : AtomicReader Entry where
  isOpen := !s.memory.reader.closed
  queues i :=
    if i < s.memory.made then some (g.queues i)
    else if ∃ t, Reserves s st t i then some [.zero] else none

theorem queues_congr {g' : Ghost ι Entry Data Value} {i : ℕ} (hmade : s'.memory.made = s.memory.made)
    (hqueues : i < s.memory.made → g'.queues i = g.queues i)
    (hreserves : ∀ t, Reserves s' st' t i ↔ Reserves s st t i) :
    (atomic s' g' st').queues i = (atomic s g st).queues i := by
  unfold atomic
  dsimp only
  rw [hmade]
  by_cases hi : i < s.memory.made
  · rw [if_pos hi, if_pos hi, hqueues hi]
  · rw [if_neg hi, if_neg hi]
    have hiff : (∃ t, Reserves s' st' t i) ↔ ∃ t, Reserves s st t i := exists_congr hreserves
    by_cases hr : ∃ t, Reserves s st t i
    · rw [if_pos hr, if_pos (hiff.mpr hr)]
    · rw [if_neg hr, if_neg (hiff.not.mpr hr)]

theorem atomic_eq {a : AtomicReader Entry} (hopen : (!s.memory.reader.closed) = a.isOpen)
    (hqueues : ∀ i, (atomic s g st).queues i = a.queues i) : atomic s g st = a := by
  cases a
  unfold atomic at hqueues ⊢
  rw [AtomicReader.mk.injEq]
  exact ⟨hopen, funext hqueues⟩

theorem atomic_isOpen : (atomic s g st).isOpen = !s.memory.reader.closed := rfl

theorem atomic_queues {i : ℕ} (hi : i < s.memory.made) :
    (atomic s g st).queues i = some (g.queues i) := if_pos hi

theorem atomic_queues_of_reserves {i : ℕ} (hi : s.memory.made ≤ i) (h : Reserves s st t i) :
    (atomic s g st).queues i = some [.zero] :=
  (if_neg (not_lt.mpr hi)).trans (if_pos ⟨t, h⟩)

theorem atomic_queues_of_not {i : ℕ} (hi : s.memory.made ≤ i) (h : ∀ t, ¬ Reserves s st t i) :
    (atomic s g st).queues i = none :=
  (if_neg (not_lt.mpr hi)).trans (if_neg fun ⟨t, ht⟩ => h t ht)

omit [Inhabited Entry] in
/-- Where the calls stand as they may, each with some status, and no iterator is to be made. -/
theorem exists_stands (s : State ι (Memory Entry Data) (Pc Entry Data Value))
    (g : Ghost ι Entry Data Value) : ∃ st, CallsStand s g st := by
  have hone : ∀ p call : Pc Entry Data Value, ∃ x, p.Allows call x ∧
      (p.Pending → ∀ i, x ≠ .decided (.ret .iter (.iterator i))) := by
    intro p call
    cases p
    case getUnlock | getBuild => exact ⟨_, .inl rfl, fun h => h.elim⟩
    case getUnlockError | getFormat => exact ⟨_, .inl rfl, fun h => h.elim⟩
    case metadataUnlock | metadataNew => exact ⟨_, .inl rfl, fun h => h.elim⟩
    case iterUnlock | iterAlloc => exact ⟨_, .inr (.inr rfl), fun _ i h => by cases h⟩
    case iterCalloc => exact ⟨_, .inr rfl, fun _ i h => by cases h⟩
    all_goals exact ⟨_, rfl, fun h => h.elim⟩
  have hall : ∀ t, ∃ x, (s.threads t = none → x = .idle) ∧
      (∀ p call, s.threads t = some p → g.calls t = some call → p.Allows call x) ∧
      ∀ i p, s.threads t = some p → p.Pending → x ≠ .decided (.ret .iter (.iterator i)) := by
    intro t
    cases ht : s.threads t with
    | none => exact ⟨.idle, fun _ => rfl, (fun _ _ h => by cases h), fun _ _ h => by cases h⟩
    | some p =>
      cases hc : g.calls t with
      | none =>
        obtain ⟨x, -, hx⟩ := hone p p
        refine ⟨x, (fun h => by cases h), (fun _ _ _ h => by cases h), fun i q hq hpending => ?_⟩
        cases hq
        exact hx hpending i
      | some call =>
        obtain ⟨x, hallows, hx⟩ := hone p call
        refine ⟨x, (fun h => by cases h), fun q c hq hc => ?_, fun i q hq hpending => ?_⟩
        · cases hq
          cases hc
          exact hallows
        · cases hq
          exact hx hpending i
  choose st hst using hall
  have hnone : ∀ t i, ¬ Reserves s st t i := by
    rintro t i ⟨⟨p, hp, hpending⟩, heq⟩
    exact (hst t).2.2 i p hp hpending heq
  exact ⟨st, fun t => (hst t).1, fun t => (hst t).2.1, fun t i h => absurd h (hnone t i),
    fun t u i h => absurd h (hnone t i)⟩

/-! ## Back along a step -/

variable [DecidableEq ι] {g' : Ghost ι Entry Data Value} {x : Status (Pc Entry Data Value)}
  {p q call : Pc Entry Data Value} {u : ι} {i : ℕ}

omit [Inhabited Entry] in
theorem reserves_of_ne (hothers : ∀ u, u ≠ t → s'.threads u = s.threads u) (hu : u ≠ t) :
    Reserves s (Function.update st t x) u i ↔ Reserves s' st u i := by
  unfold Reserves
  rw [Function.update_of_ne hu, hothers u hu]

omit [Inhabited Entry] in
/-- Before a step of a thread, the other calls stood as they do, and its own as it may have. -/
theorem CallsStand.back (h : CallsStand s' g' st) (hothers : ∀ u, u ≠ t → s'.threads u = s.threads u)
    (hcalls : ∀ u, u ≠ t → g'.calls u = g.calls u) (hmade : s.memory.made ≤ s'.memory.made)
    (hidle : s.threads t = none → x = .idle)
    (hallows : ∀ p call, s.threads t = some p → g.calls t = some call → p.Allows call x)
    (hreserves : ∀ i, Reserves s (Function.update st t x) t i →
      s.memory.made ≤ i ∧ ∀ u, u ≠ t → ¬ Reserves s' st u i) :
    CallsStand s g (Function.update st t x) where
  idle u hu := by
    by_cases hut : u = t
    · subst hut
      rw [Function.update_self]
      exact hidle hu
    · rw [Function.update_of_ne hut]
      exact h.idle u ((hothers u hut).trans hu)
  allows u p call hp hc := by
    by_cases hut : u = t
    · subst hut
      rw [Function.update_self]
      exact hallows p call hp hc
    · rw [Function.update_of_ne hut]
      exact h.allows u p call ((hothers u hut).trans hp) ((hcalls u hut).trans hc)
  fresh u i hr := by
    by_cases hut : u = t
    · subst hut
      exact (hreserves i hr).1
    · exact hmade.trans (h.fresh u i ((reserves_of_ne hothers hut).mp hr))
  once u v i hu hv := by
    by_cases hut : u = t
    · by_cases hvt : v = t
      · rw [hut, hvt]
      · subst hut
        exact absurd ((reserves_of_ne hothers hvt).mp hv) ((hreserves i hu).2 v hvt)
    · have hu' := (reserves_of_ne hothers hut).mp hu
      by_cases hvt : v = t
      · subst hvt
        exact absurd hu' ((hreserves i hv).2 u hut)
      · exact h.once u v i hu' ((reserves_of_ne hothers hvt).mp hv)

omit [Inhabited Entry] in
theorem CallsStand.back_self (h : CallsStand s' g' st) (hothers : ∀ u, u ≠ t → s'.threads u = s.threads u)
    (hcalls : ∀ u, u ≠ t → g'.calls u = g.calls u) (hmade : s.memory.made ≤ s'.memory.made)
    (hp : s.threads t = some p) (hcall : g.calls t = some call) (hallows : p.Allows call (st t))
    (hreserves : ∀ i, Reserves s st t i →
      s.memory.made ≤ i ∧ ∀ u, u ≠ t → ¬ Reserves s' st u i) :
    CallsStand s g st := by
  have hback := h.back (s := s) (g := g) (x := st t) hothers hcalls hmade
  rw [Function.update_eq_self] at hback
  refine hback (fun hidle => ?_) (fun r c hr hc => ?_) hreserves
  · rw [hp] at hidle
    cases hidle
  · rw [hp] at hr
    rw [hcall] at hc
    cases hr
    cases hc
    exact hallows

omit [Inhabited Entry] in
/-- Which iterators are to be made, before a step of a thread that is to make none on either side. -/
theorem reserves_iff (hothers : ∀ u, u ≠ t → s'.threads u = s.threads u)
    (ht : ¬ Reserves s (Function.update st t x) t i) (ht' : ¬ Reserves s' st t i) (u : ι) :
    Reserves s' st u i ↔ Reserves s (Function.update st t x) u i := by
  by_cases hu : u = t
  · subst hu
    exact iff_of_false ht' ht
  · exact (reserves_of_ne hothers hu).symm

omit [Inhabited Entry] [DecidableEq ι] in
theorem not_reserves_of_status {y : Status (Pc Entry Data Value)}
    (hx : y ≠ .decided (.ret .iter (.iterator i))) (hst : st t = y) : ¬ Reserves s st t i :=
  fun h => hx (hst.symm.trans h.2)

omit [Inhabited Entry] [DecidableEq ι] in
theorem not_reserves_of_thread (h : ∀ p, s.threads t = some p → ¬ p.Pending) : ¬ Reserves s st t i :=
  fun ⟨⟨p, hp, hpending⟩, _⟩ => h p hp hpending

end

/-! ## The simulation -/

section

variable [Inhabited Entry] [DecidableEq ι] {mmdb : Mmdb Entry Data}
  {fromEntryDataList : Data → Except PyErr Value} {isDict : Value → Bool}
  {s s' : State ι (Memory Entry Data) (Pc Entry Data Value)} {g : Ghost ι Entry Data Value}
  {st : ι → Status (Pc Entry Data Value)} {t : ι} {p q call : Pc Entry Data Value}
  {queues' : ℕ → List (QueuedRecord Entry)} {i : ℕ}

theorem CallsStand.begin
    (h : CallsStand (s.move t (some p)) { g with calls := Function.update g.calls t (some p) } st)
    (ht : s.threads t = none) (hstart : StartsDistinct s t p) :
    st t = .called p ∧ CallsStand s g (Function.update st t .idle) ∧
      atomic (s.move t (some p)) { g with calls := Function.update g.calls t (some p) } st =
        atomic s g (Function.update st t .idle) := by
  have hothers : ∀ u, u ≠ t → (s.move t (some p)).threads u = s.threads u :=
    fun u hu => State.move_threads_of_ne hu
  have hallows : p.Allows p (st t) :=
    h.allows t p p (State.move_threads_self ..) (Function.update_self ..)
  have hst : st t = .called p := by
    obtain ⟨hstart, -⟩ := hstart
    cases hstart <;> exact hallows
  have hnone : ∀ i, ¬ Reserves s (Function.update st t .idle) t i := fun i =>
    not_reserves_of_status (fun hx => by cases hx) (Function.update_self ..)
  refine ⟨hst, h.back hothers (fun u hu => Function.update_of_ne hu ..) le_rfl (fun _ => rfl)
    (fun q _ hq => ?_) fun i hr => absurd hr (hnone i), ?_⟩
  · rw [ht] at hq
    cases hq
  · refine atomic_eq rfl fun i => queues_congr rfl (fun _ => rfl) (reserves_iff hothers (hnone i) ?_)
    exact not_reserves_of_status (fun hx => by cases hx) hst

theorem CallsStand.ret (h : CallsStand (s.move t none) g st) (ht : s.threads t = some p)
    (hcode : code fromEntryDataList isDict p = .done) :
    st t = .idle ∧ CallsStand s g (Function.update st t (.decided p)) ∧
      atomic (s.move t none) g st = atomic s g (Function.update st t (.decided p)) := by
  have hothers : ∀ u, u ≠ t → (s.move t none).threads u = s.threads u :=
    fun u hu => State.move_threads_of_ne hu
  obtain ⟨method, result, rfl⟩ : ∃ method result, p = .ret method result := by
    cases p <;> cases hcode
    exact ⟨_, _, rfl⟩
  have hst : st t = .idle := h.idle t (State.move_threads_self ..)
  have hnone : ∀ i, ¬ Reserves s (Function.update st t (.decided (.ret method result))) t i := by
    refine fun i => not_reserves_of_thread fun p hp hpending => ?_
    rw [ht] at hp
    cases hp
    exact hpending
  refine ⟨hst, h.back hothers (fun _ _ => rfl) le_rfl (fun hidle => ?_) (fun q _ hq _ => ?_)
    fun i hr => absurd hr (hnone i), ?_⟩
  · rw [ht] at hidle
    cases hidle
  · rw [ht] at hq
    cases hq
    rfl
  · refine atomic_eq rfl fun i => queues_congr rfl (fun _ => rfl) (reserves_iff hothers (hnone i) ?_)
    exact not_reserves_of_status (fun hx => by cases hx) hst

omit [Inhabited Entry] in
/-- Before a step that may be the moment of a call, the call stood at its beginning. -/
theorem CallsStand.called (h : CallsStand s' { g with queues := queues' } st)
    (hothers : ∀ u, u ≠ t → s'.threads u = s.threads u) (hp : s.threads t = some p)
    (hcall : g.calls t = some call) (hmade : s'.memory.made = s.memory.made)
    (hallows : p.Allows call (.called call)) : CallsStand s g (Function.update st t (.called call)) := by
  refine h.back hothers (fun _ _ => rfl) hmade.ge (fun hidle => ?_) (fun r c hr hc => ?_) fun i hr => ?_
  · rw [hp] at hidle
    cases hidle
  · rw [hp] at hr
    rw [hcall] at hc
    cases hr
    cases hc
    exact hallows
  · exact absurd hr (not_reserves_of_status (fun hx => by cases hx) (Function.update_self ..))

theorem CallsStand.keeps (h : CallsStand s' g st) (hothers : ∀ u, u ≠ t → s'.threads u = s.threads u)
    (hp : s.threads t = some p) (hq : s'.threads t = some q) (hcall : g.calls t = some call)
    (hmade : s'.memory.made = s.memory.made)
    (hclosed : s'.memory.reader.closed = s.memory.reader.closed)
    (hallows : ∀ st, q.Allows call st → p.Allows call st)
    (hpending : ∀ i, q.Allows call (.decided (.ret .iter (.iterator i))) → (q.Pending ↔ p.Pending)) :
    CallsStand s g st ∧ atomic s' g st = atomic s g st := by
  have hst : q.Allows call (st t) := h.allows t q call hq hcall
  have hiff : ∀ u i, Reserves s' st u i ↔ Reserves s st u i := by
    intro u i
    by_cases hu : u = t
    · subst hu
      unfold Reserves
      rw [hp, hq]
      refine and_congr_left fun heq => ?_
      have := hpending i (heq ▸ hst)
      simpa using this
    · unfold Reserves
      rw [hothers u hu]
  have hback : CallsStand s g st := by
    refine h.back_self hothers (fun _ _ => rfl) hmade.ge hp hcall (hallows _ hst) fun i hr => ?_
    have hr' := (hiff t i).mpr hr
    exact ⟨hmade ▸ h.fresh t i hr', fun u hu hru => hu (h.once u t i hru hr')⟩
  refine ⟨hback, atomic_eq (congrArg _ hclosed) fun i => ?_⟩
  exact queues_congr hmade (fun _ => rfl) fun u => hiff u i

theorem CallsStand.allocates
    (h : CallsStand s' { g with queues := Function.update g.queues s.memory.made [.zero] } st)
    (hothers : ∀ u, u ≠ t → s'.threads u = s.threads u) (hp : s.threads t = some .iterCalloc)
    (hq : s'.threads t = some (.ret .iter (.iterator s.memory.made))) (hcall : g.calls t = some call)
    (hmade : s'.memory.made = s.memory.made + 1)
    (hclosed : s'.memory.reader.closed = s.memory.reader.closed) :
    CallsStand s g st ∧
      atomic s' { g with queues := Function.update g.queues s.memory.made [.zero] } st =
        atomic s g st := by
  have hst : st t = .decided (.ret .iter (.iterator s.memory.made)) := h.allows t _ call hq hcall
  have hreserves : Reserves s st t s.memory.made := ⟨⟨_, hp, trivial⟩, hst⟩
  have honly : ∀ i, Reserves s st t i → i = s.memory.made := by
    intro i hr
    have := hst.symm.trans hr.2
    cases this
    rfl
  have hback : CallsStand s g st := by
    refine h.back_self hothers (fun _ _ => rfl) (hmade ▸ Nat.le_succ _) hp hcall (.inl ⟨_, hst⟩)
      fun i hr => ?_
    obtain rfl := honly i hr
    refine ⟨le_rfl, fun u _ hru => ?_⟩
    have := h.fresh u _ hru
    omega
  refine ⟨hback, atomic_eq (congrArg _ hclosed) fun i => ?_⟩
  rcases lt_trichotomy i s.memory.made with hi | rfl | hi
  · rw [atomic_queues (hmade ▸ hi.trans (Nat.lt_succ_self _)), atomic_queues hi]
    exact congrArg some (Function.update_of_ne hi.ne ..)
  · rw [atomic_queues (hmade ▸ Nat.lt_succ_self _), atomic_queues_of_reserves le_rfl hreserves]
    exact congrArg some (Function.update_self ..)
  · have hnone : ¬ Reserves s st t i := fun hr => hi.ne (honly i hr).symm
    have hnone' : ¬ Reserves s' st t i := by
      refine not_reserves_of_thread fun r hr hpending => ?_
      rw [hq] at hr
      cases hr
      exact hpending
    by_cases hex : ∃ u, Reserves s st u i
    · obtain ⟨u, hu⟩ := hex
      have hut : u ≠ t := fun heq => hnone (heq ▸ hu)
      have hu' : Reserves s' st u i := by
        unfold Reserves
        rw [hothers u hut]
        exact hu
      rw [atomic_queues_of_reserves (by omega) hu', atomic_queues_of_reserves hi.le hu]
    · rw [atomic_queues_of_not (by omega) fun u hu => ?_,
        atomic_queues_of_not hi.le fun u hu => hex ⟨u, hu⟩]
      by_cases hut : u = t
      · exact hnone' (hut ▸ hu)
      · unfold Reserves at hu
        rw [hothers u hut] at hu
        exact hex ⟨u, hu⟩

/-- Where the atomic reader comes from another by the moment of a call. -/
theorem moved_queues (hothers : ∀ u, u ≠ t → s'.threads u = s.threads u) (hq : s'.threads t = some q)
    (hpending : ¬ q.Pending) (hmade : s'.memory.made = s.memory.made) (hi : i < s.memory.made → queues' i = g.queues i) :
    (atomic s' { g with queues := queues' } st).queues i =
      (atomic s g (Function.update st t (.called call))).queues i := by
  refine queues_congr hmade hi (reserves_iff hothers ?_ ?_)
  · exact not_reserves_of_status (fun hx => by cases hx) (Function.update_self ..)
  · refine not_reserves_of_thread fun r hr => ?_
    rw [hq] at hr
    cases hr
    exact hpending

/-- The moment of `Reader_iter`, where it is to make an iterator: a new one. -/
theorem CallsStand.reserves (h : CallsStand s' g st) (hothers : ∀ u, u ≠ t → s'.threads u = s.threads u)
    (hq : s'.threads t = some .iterUnlock) (hmade : s'.memory.made = s.memory.made)
    (hclosed : s'.memory.reader.closed = s.memory.reader.closed)
    (hst : st t = .decided (.ret .iter (.iterator i))) :
    (atomic s g (Function.update st t (.called call))).queues i = none ∧
      atomic s' g st = (atomic s g (Function.update st t (.called call))).setQueue i [.zero] := by
  have hreserves : Reserves s' st t i := ⟨⟨_, hq, trivial⟩, hst⟩
  have hfresh : s.memory.made ≤ i := hmade ▸ h.fresh t i hreserves
  have hself : ∀ j, ¬ Reserves s (Function.update st t (.called call)) t j := fun j =>
    not_reserves_of_status (fun hx => by cases hx) (Function.update_self ..)
  refine ⟨atomic_queues_of_not hfresh fun u hu => ?_, atomic_eq (congrArg _ hclosed) fun j => ?_⟩
  · by_cases hut : u = t
    · exact hself i (hut ▸ hu)
    · exact hut (h.once u t i ((reserves_of_ne hothers hut).mp hu) hreserves)
  · by_cases hj : j = i
    · subst hj
      rw [atomic_queues_of_reserves (hmade ▸ hfresh) hreserves, AtomicReader.setQueue_self]
    · rw [AtomicReader.setQueue_of_ne hj]
      refine queues_congr hmade (fun _ => rfl) (reserves_iff hothers (hself j) fun hr => ?_)
      have := hst.symm.trans hr.2
      cases this
      exact hj rfl

theorem Moves.back
    (hmoves : Moves mmdb fromEntryDataList isDict call g.queues s.memory s'.memory p q queues')
    (hothers : ∀ u, u ≠ t → s'.threads u = s.threads u) (hp : s.threads t = some p)
    (hq : s'.threads t = some q) (hcall : g.calls t = some call)
    (hfits : ∀ i, p.iterator = some i → i < s.memory.made)
    (h : CallsStand s' { g with queues := queues' } st) :
    CallsStand s g st ∧ atomic s' { g with queues := queues' } st = atomic s g st ∨
      ∃ r, st t = .decided r ∧ CallsStand s g (Function.update st t (.called call)) ∧
        Performs mmdb fromEntryDataList isDict (atomic s g (Function.update st t (.called call))) call r
          (atomic s' { g with queues := queues' } st) := by
  have hst : q.Allows call (st t) := h.allows t q call hq hcall
  cases hmoves with
  | keeps hmade hclosed hallows hpending =>
    exact .inl (h.keeps hothers hp hq hcall hmade hclosed hallows hpending)
  | decides hmade hclosed hcalled hpending hperforms =>
    obtain ⟨r, hr, hperforms⟩ := hperforms _ hst
    refine .inr ⟨r, hr, h.called hothers hp hcall hmade hcalled, ?_⟩
    have heq : atomic s' { g with queues := g.queues } st =
        atomic s g (Function.update st t (.called call)) :=
      atomic_eq (congrArg _ hclosed) fun i => moved_queues hothers hq hpending hmade fun _ => rfl
    rw [heq]
    exact hperforms _ rfl
  | @closes method hmade hc hclosed hp' hq' =>
    subst hc hp' hq'
    refine .inr ⟨_, hst, h.called hothers hp hcall hmade rfl, ?_⟩
    have heq : atomic s' { g with queues := g.queues } st =
        (atomic s g (Function.update st t (.called (.closeAcquire method)))).close := by
      refine atomic_eq ?_ fun i => moved_queues hothers hq (fun h => h) hmade fun _ => rfl
      rw [hclosed]
      rfl
    rw [heq]
    exact .close
  | @turns i next hmade hclosed hi hpending hcalled _ hperforms =>
    obtain ⟨r, hr, hperforms⟩ := hperforms _ hst
    have hlt := hfits i hi
    refine .inr ⟨r, hr, h.called hothers hp hcall hmade hcalled, ?_⟩
    have heq : atomic s' { g with queues := Function.update g.queues i next } st =
        (atomic s g (Function.update st t (.called call))).setQueue i next := by
      refine atomic_eq (congrArg _ hclosed) fun j => ?_
      by_cases hj : j = i
      · subst hj
        rw [atomic_queues (hmade ▸ hlt), AtomicReader.setQueue_self]
        exact congrArg some (Function.update_self ..)
      · rw [AtomicReader.setQueue_of_ne hj]
        exact moved_queues hothers hq hpending hmade fun _ => Function.update_of_ne hj ..
    rw [heq]
    exact hperforms _ rfl (atomic_queues hlt)
  | reserves hmade hclosed hopen hc hp' hq' =>
    subst hc hp' hq'
    have hopen' : (atomic s g (Function.update st t (.called .iterState))).isOpen = true := by
      rw [atomic_isOpen, hopen]
      rfl
    have hback := h.called hothers hp hcall hmade rfl
    rcases hst with ⟨i, hi⟩ | hraised
    · obtain ⟨hnone, heq⟩ :
          (atomic s g (Function.update st t (.called .iterState))).queues i = none ∧ atomic s' g st =
            (atomic s g (Function.update st t (.called .iterState))).setQueue i [.zero] :=
        h.reserves hothers hq hmade hclosed hi
      refine .inr ⟨_, hi, hback, ?_⟩
      rw [heq]
      exact .iter i hopen' hnone
    · have heq : ∀ error, st t = .decided (.ret .iter (.raised error)) →
          atomic s' { g with queues := g.queues } st =
            atomic s g (Function.update st t (.called .iterState)) := by
        intro error herror
        refine atomic_eq (congrArg _ hclosed) fun i => queues_congr hmade (fun _ => rfl)
          (reserves_iff hothers ?_ ?_)
        · exact not_reserves_of_status (fun hx => by cases hx) (Function.update_self ..)
        · exact not_reserves_of_status (fun hx => by cases hx) herror
      rcases hraised with hr | hr
      · refine .inr ⟨_, hr, hback, ?_⟩
        rw [heq _ hr]
        exact .fails .iter hopen' .iterAlloc
      · refine .inr ⟨_, hr, hback, ?_⟩
        rw [heq _ hr]
        exact .fails .iter hopen' .iterCalloc
  | allocates hmade hclosed hp' hq' =>
    subst hp' hq'
    exact .inl (h.allocates hothers hp hq hcall hmade hclosed)

/-- The run of the threads, and the atomic reader. -/
def simulation (mmdb : Mmdb Entry Data) (fromEntryDataList : Data → Except PyErr Value)
    (isDict : Value → Bool) (hdepth : mmdb.tree.DepthAtMost 128 QueuedRecord.zero.node) :
    Simulation (ι := ι) (code fromEntryDataList isDict) StartsDistinct
      (Performs mmdb fromEntryDataList isDict) (Ghost ι Entry Data Value) where
  inv := Tracks mmdb fromEntryDataList isDict
  rel s g st a := CallsStand s g st ∧ a = atomic s g st
  total := by
    intro s g _
    obtain ⟨st, hst⟩ := exists_stands s g
    exact ⟨st, _, hst, rfl⟩
  call := by
    intro s g t p h ht hstart
    refine ⟨_, h.begin ht hstart, ?_⟩
    rintro st a ⟨hst, rfl⟩
    obtain ⟨hcalled, hback, heq⟩ := hst.begin ht hstart
    exact ⟨hcalled, hback, heq⟩
  inner := by
    intro s s' g h hinner
    obtain ⟨t, p, q, hpassage⟩ := hinner.exists_passage
    obtain ⟨call, queues', hcall, hmoves, htracks⟩ := h.passage hdepth hpassage
    refine ⟨_, htracks, ?_⟩
    rintro st a ⟨hst, rfl⟩
    obtain ⟨own, hown⟩ := h.custody
    rcases hmoves.back hpassage.others hpassage.source hpassage.target hcall
      (hown.fits t p hpassage.source).made hst with
      ⟨hback, heq⟩ | ⟨r, hr, hback, hperforms⟩
    · exact .inl ⟨hback, heq⟩
    · exact .inr ⟨t, call, r, _, hr, ⟨hback, rfl⟩, hperforms⟩
  ret := by
    intro s g t p h ht hcode
    refine ⟨g, h.ret ht hcode, ?_⟩
    rintro st a ⟨hst, rfl⟩
    obtain ⟨hidle, hback, heq⟩ := hst.ret ht hcode
    exact ⟨hidle, hback, heq⟩

end

/-! `__enter__` begins before another thread closes the reader, and acquires the lock after it. -/

end MaxMindDB.Extension
